import NjuOs.Lib.Preorder
import NjuOs.Lib.Stdio
import Mathlib.Logic.Function.Basic

/-!
`pstree`: the process tree, from a table of processes to what is printed.

A process is named by its index in `array`. The list of children of a process
(`struct child`) is a list of such indices. The recursion of `print_tree` runs
on fuel, since nothing in the table keeps it from running in a circle; its
output is a list of lines, each with the indentation and the process that is
printed on it.
-/

namespace NjuOs.Pstree

open NjuOs.Lib

/-- `struct proc`, without the list of its children. -/
structure Proc where
  name : CString
  ppid : Int
  pid : Int
deriving DecidableEq

/-- `array[i]`; what is behind the last record is zero. -/
def procAt (array : List Proc) (i : Nat) : Proc := array.getD i ⟨default, 0, 0⟩

/-- `array[i].head`, for all `i`. -/
abbrev Heads := Nat → List Nat

/-- `none` is the return value `-1`. -/
def pIndex (array : List Proc) (pid : Int) : Option Nat := array.findIdx? fun p => p.pid = pid

/-! ### Building the tree -/

/-- The list behind `current`, after the walk over the smaller pids. -/
def insertBehind (pid : Nat → Int) (cindex : Nat) : List Nat → List Nat
  | [] => [cindex]
  | next :: rest =>
      if pid cindex > pid next then next :: insertBehind pid cindex rest
      else cindex :: next :: rest

def insertChild (pid : Nat → Int) (cindex : Nat) : List Nat → List Nat
  | [] => [cindex]
  | first :: rest =>
      if pid cindex < pid first then cindex :: first :: rest
      else first :: insertBehind pid cindex rest

def buildList (array : List Proc) (head : Heads) (pindex cindex : Nat) : Heads :=
  Function.update head pindex
    (insertChild (fun i => (procAt array i).pid) cindex (head pindex))

/-- One pass of the loop of `build_tree`. -/
def buildStep (array : List Proc) (initIndex : Option Nat) (head : Heads) (i : Nat) : Heads :=
  if (procAt array i).pid = 1 then head
  else
    match pIndex array (procAt array i).ppid with
    | none =>
        match initIndex with
        | none => head
        | some init => buildList array head init i
    | some pindex => buildList array head pindex i

def buildTree (array : List Proc) : Heads :=
  (List.range array.length).foldl (buildStep array (pIndex array 1)) fun _ => []

/-! ### Printing the tree -/

/-- The lines that `print_tree` prints: their depths, and the processes on them. -/
def printTree (head : Heads) : Nat → Nat → Nat → Option (List (Nat × Nat))
  | 0, _, _ => none
  | fuel + 1, index, depth =>
      (collect (fun child => printTree head fuel child (depth + 1)) (head index)).map
        fun lines => (depth, index) :: lines

/-- A printed line: `printf("    ")` for each level, the name, the pid if it is asked for. -/
def render (showPids : Bool) (array : List Proc) (line : Nat × Nat) : Bytes :=
  let p := procAt array line.2
  (List.replicate line.1 (ascii "    ")).flatten ++ p.name.bytes ++
    (if showPids then ascii "(" ++ ascii (toString p.pid) ++ ascii ")" else []) ++ ascii "\n"

/-- What `main` prints for a table: nothing when there is no init process. -/
def output (showPids : Bool) (fuel : Nat) (array : List Proc) : Option Bytes :=
  match pIndex array 1 with
  | none => some []
  | some init =>
      (printTree (buildTree array) fuel init 0).map fun lines =>
        lines.flatMap (render showPids array)

/-- `print_tree` is the traversal of the lists of children. -/
theorem printTree_eq (head : Heads) (fuel : Nat) :
    ∀ index depth, printTree head fuel index depth = preorder head fuel depth index := by
  induction fuel with
  | zero =>
      intro index depth
      rfl
  | succ fuel ih =>
      intro index depth
      simp only [printTree, preorder, ih]

end NjuOs.Pstree
