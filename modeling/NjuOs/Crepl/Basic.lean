import NjuOs.Lib.Stdio
import NjuOs.Lib.Run

/-!
`crepl`: a C interpreter that lets `gcc` build a shared object after each line.

`/tmp/lib.c` holds what was accepted so far and `origin_file` a copy of it. A
step of the machine is one iteration of the loop of `main`; it is given whether
`dlopen` can load the shared object and how the functions in it behave. `gcc` is
a parameter. File operations succeed, and `execvp` finds `gcc`.

`history` has a report for each finished iteration. It is not part of the
program; a reader of the reports sees what was printed and why.
-/

namespace NjuOs.Crepl

open NjuOs.Lib

/-- A function in a shared object: where its definition begins in the file that
was compiled, and its code. -/
structure Definition (F : Type) where
  start : Nat
  code : F
deriving DecidableEq

/-- The functions that a shared object exports, by name; it exports nothing else. -/
abbrev Library (F : Type) := Bytes → Option (Definition F)

/-- `gcc`: the shared object for the content of a file; `none` is an exit status
other than 0, which leaves `/tmp/lib.so` alone. -/
abbrev Compiler (F : Type) := Bytes → Option (Library F)

/-- How a call ends. Code that ends otherwise, or that touches more than what it is called for
(the input, the files, the memory of the program), is left out. -/
inductive Outcome where
  | returns (result : Int)
  | sigfpe
deriving DecidableEq, Repr

/-- What an iteration meets outside of the program. -/
structure Env (F : Type) where
  dlopen : Bool
  call : F → Outcome

/-- A line on `stdout`. -/
inductive Output where
  | compileError (line : Nat)
  | compileOk (line : Nat)
  /-- `=%d` -/
  | value (result : Int)
  | divisionByZero
deriving DecidableEq, Repr

/-- What is printed for a call: `sigsetjmp` is left a second time by `check_error`. -/
def Outcome.output : Outcome → Output
  | .returns result => .value result
  | .sigfpe => .divisionByZero

/-- What happened in an iteration. -/
structure Report (F : Type) where
  /-- What `fgets` stored. -/
  buffer : Bytes
  /-- `expr_num` at the start of the iteration. -/
  exprNum : Nat
  /-- The string `origin_file` at the start of the iteration. -/
  origin : Bytes
  /-- What was printed behind it into the file that was compiled. -/
  text : Bytes
  /-- What `compile` returned. -/
  lib : Int
  /-- The function that was called, and how the call ended. -/
  called : Option (Definition F × Outcome)
  output : List Output

structure State (F : Type) where
  stdin : Bytes
  originFile : Bytes
  /-- `/tmp/lib.c` -/
  tmpc : Option Bytes
  /-- `/tmp/lib.so` -/
  tmpo : Option (Library F)
  handle : Option (Library F)
  exprNum : Nat
  history : List (Report F)

variable {F : Type}

def cleanTmpfiles (s : State F) : State F := { s with tmpc := none, tmpo := none }

/-- A file that is missing is created first. -/
def saveOrigin (s : State F) : State F :=
  let content := s.tmpc.getD []
  { s with tmpc := some content, originFile := content }

def useOrigin (s : State F) : State F := { s with tmpc := some (cstr s.originFile) }

def compile (cc : Compiler F) (s : State F) : Int × State F :=
  match s.tmpc.bind cc with
  | some lib => (0, { s with tmpo := some lib })
  | none => (-1, s)

/-- Both branches: the text is printed behind `origin_file`, the file becomes
`/tmp/lib.c` and is compiled. A failure puts the old content back, otherwise the
new one becomes `origin_file`. -/
def compileText (cc : Compiler F) (s : State F) (text : Bytes) (errorLine okLine : Nat) :
    Int × Output × State F :=
  let (lib, s) := compile cc { s with tmpc := some (cstr s.originFile ++ text) }
  if lib = -1 then (lib, .compileError errorLine, useOrigin s)
  else (lib, .compileOk okLine, saveOrigin s)

/-- `buffer[len-1] = '\0'` behind `fgets`. -/
def lineOfBuffer (buffer : Bytes) : Bytes := (cstr buffer).dropLast

/-- `buffer[0] == 'i'` -/
def isDefinition (line : Bytes) : Bool := line.head? = some 0x69

def definitionText (line : Bytes) : Bytes := line ++ ascii "\n"

/-- `func_name` -/
def funcName (exprNum : Nat) : Bytes := ascii "expr_" ++ decimal exprNum

def expressionText (exprNum : Nat) (line : Bytes) : Bytes :=
  ascii "int " ++ funcName exprNum ++ ascii "()\x7breturn " ++ line ++ ascii ";\x7d\n"

/-- `dlsym`. Without a handle it searches the program itself, which has no
function with such a name. -/
def dlsym (handle : Option (Library F)) (name : Bytes) : Option (Definition F) :=
  handle.bind fun lib => lib name

/-- The branch of a definition. -/
def define (cc : Compiler F) (s : State F) (buffer : Bytes) : State F :=
  let text := definitionText (lineOfBuffer buffer)
  let (lib, message, s') := compileText cc s text 88 93
  { s' with
    history := s.history ++
      [⟨buffer, s.exprNum, cstr s.originFile, text, lib, none, [message]⟩] }

/-- The branch of an expression. `dlopen` loads the library that is in the file
system then. -/
def express (cc : Compiler F) (env : Env F) (s : State F) (buffer : Bytes) : State F :=
  let text := expressionText s.exprNum (lineOfBuffer buffer)
  let (lib, message, s') := compileText cc s text 106 111
  let handle := if env.dlopen then s'.tmpo else none
  let report called result : List (Report F) :=
    [⟨buffer, s.exprNum, cstr s.originFile, text, lib, called, [message, result]⟩]
  match dlsym handle (funcName s.exprNum) with
  | none =>
      { useOrigin s' with
        handle := handle, exprNum := s.exprNum + 1
        history := s.history ++ report none (.compileError 125) }
  | some func =>
      { s' with
        handle := handle, exprNum := s.exprNum + 1
        history :=
          s.history ++ report (some (func, env.call func.code)) (env.call func.code).output }

/-- One iteration of the loop. At the end of the input `main` returns; a buffer
that begins with a NUL has no `buffer[len-1]`. -/
def iteration (cc : Compiler F) (s : State F) (env : Env F) : Option (State F) :=
  match fgets 1024 s.stdin with
  | none => none
  | some (buffer, stdin) =>
      if cstr buffer = [] then none
      else
        let s := { s with stdin := stdin }
        if isDefinition (lineOfBuffer buffer) then some (define cc s buffer)
        else some (express cc env s buffer)

/-- The state in front of the loop. What the files in `/tmp` were does not matter. -/
def start (stdin : Bytes) (tmpc : Option Bytes) (tmpo : Option (Library F)) : State F :=
  saveOrigin (cleanTmpfiles
    { stdin := stdin, originFile := [], tmpc := tmpc, tmpo := tmpo, handle := none,
      exprNum := 0, history := [] })

end NjuOs.Crepl
