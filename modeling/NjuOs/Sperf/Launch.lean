import NjuOs.Lib.Strtok
import NjuOs.Sperf.Screens

/-!
How `sperf` starts `strace`, and what the whole program prints then.

`execute_child` takes the words of `PATH` apart with `strtok` and tries `strace` in one after
another. It builds each name in an array of 64 bytes, and without a `PATH` in the environment it
lets `strtok` write to a string literal. `main_shows_trace_iff` says for which environments all
this does not matter.
-/

namespace NjuOs.Sperf

open NjuOs.Lib

/-! ### The child -/

def colon : UInt8 := 0x3A

def defaultEnvPath : Bytes := ascii "PATH=/bin:/usr/bin"

/-- How `execute_child` ends. -/
inductive Child where
  /-- `execve` has put another program in its place. -/
  | executes (path : Bytes) (argv envp : List Bytes)
  /-- SIGSEGV, behind a write to a string literal. -/
  | faults
  | returns
deriving DecidableEq

/-- `snprintf` to an array of 64 bytes. -/
def targetExecutable (execPath : Bytes) : Bytes := (execPath ++ ascii "/strace").take 63

/-- The loop over `strtok`. `execve` says which files can be executed; `literal` is where
`path_env` points to. -/
def tryPaths (execve : Bytes → Bool) (execArgv : Bytes → List Bytes) (envp : List Bytes)
    (literal : Bool) (path : Bytes) : Child :=
  match _h : strtok colon path with
  | none => .returns
  | some (execPath, rest) =>
      if literal && rest.isSome then .faults
      else if execve (targetExecutable execPath) then
        .executes (targetExecutable execPath) (execArgv (targetExecutable execPath)) envp
      else tryPaths execve execArgv envp literal (rest.getD [])
termination_by path.length
decreasing_by exact length_lt_of_strtok _h

/-- The entry of the environment that is taken. -/
def pathEnv (envp : List Bytes) : Option Bytes :=
  envp.find? fun entry => (ascii "PATH=").isPrefixOf entry

/-- `execute_child`; `none` if `exec_argv` is too short. The elements of `exec_argv` are the name in
`target_executable`, two options, the arguments and a null pointer. -/
def executeChild (execve : Bytes → Bool) (argc : Nat) (argv envp : List Bytes) : Option Child :=
  if 3 + argv.length + 1 ≤ argc + 3 + 1 then
    some (tryPaths execve (fun path => path :: ascii "-T" :: ascii "-xx" :: argv) envp
      (pathEnv envp).isNone (((pathEnv envp).getD defaultEnvPath).drop 5))
  else none

/-- What the child writes to the pipe. `strace` is what a program with these arguments and this
environment writes to its standard error. -/
def written (strace : Bytes → List Bytes → List Bytes → Bytes) : Child → Bytes
  | .executes path argv envp => strace path argv envp
  | .faults => []
  | .returns => []

/-- The screens of `main`, with the arguments behind the name of the program. -/
def main (execve : Bytes → Bool) (strace : Bytes → List Bytes → List Bytes → Bytes)
    (host : Host) (argv envp : List Bytes) : Option (List Bytes) :=
  (executeChild execve argv.length argv envp).bind fun child =>
    screens host (written strace child)

/-! ### What is meant -/

/-- The directories that `PATH` names. -/
def directories (envp : List Bytes) : List Bytes :=
  wordsOf colon (((pathEnv envp).getD defaultEnvPath).drop 5)

/-- `strace` in the first directory in which it can be executed. -/
def findStrace (execve : Bytes → Bool) (envp : List Bytes) : Option Bytes :=
  ((directories envp).map (· ++ ascii "/strace")).find? execve

/-- What `strace` writes for a command, if it is found. -/
def traceOf (execve : Bytes → Bool) (strace : Bytes → List Bytes → List Bytes → Bytes)
    (argv envp : List Bytes) : Bytes :=
  (findStrace execve envp).elim [] fun path =>
    strace path (path :: ascii "-T" :: ascii "-xx" :: argv) envp

section Launch

variable {execve : Bytes → Bool} {execArgv : Bytes → List Bytes} {envp argv : List Bytes}

/-- In writable memory the loop tries the words one after another. -/
theorem tryPaths_writable (path : Bytes) : tryPaths execve execArgv envp false path =
    (((wordsOf colon path).map targetExecutable).find? execve).elim .returns
      fun target => .executes target (execArgv target) envp := by
  fun_induction tryPaths execve execArgv envp false path with
  | case1 path hend =>
      rw [wordsOf_of_strtok_eq_none hend]
      rfl
  | case2 path execPath rest h hfault => cases hfault
  | case3 path execPath rest h hwritable hexec =>
      rw [wordsOf_of_strtok h, List.map_cons, List.find?_cons_of_pos hexec, Option.elim_some]
  | case4 path execPath rest h hwritable hexec ih =>
      rw [wordsOf_of_strtok h, List.map_cons, List.find?_cons_of_neg hexec, ih]

/-- The default is never searched: `strtok` writes to it before. -/
theorem tryPaths_literal :
    tryPaths execve execArgv envp true (defaultEnvPath.drop 5) = .faults := by
  have h : strtok colon (defaultEnvPath.drop 5) = some (ascii "/bin", some (ascii "/usr/bin")) := by
    decide
  rw [tryPaths]
  split
  case h_1 hend => cases h.symm.trans hend
  case h_2 execPath rest hsome =>
    obtain ⟨rfl, rfl⟩ := Prod.mk.inj (Option.some.inj (h.symm.trans hsome))
    rfl

theorem executeChild_eq (execve : Bytes → Bool) (argv envp : List Bytes) :
    executeChild execve argv.length argv envp =
      some (if (pathEnv envp).isNone then .faults
        else (((directories envp).map targetExecutable).find? execve).elim .returns
          fun target => .executes target (target :: ascii "-T" :: ascii "-xx" :: argv) envp) := by
  rw [executeChild, if_pos (by omega)]
  cases hpath : pathEnv envp with
  | none => rw [Option.getD_none, Option.isNone_none, tryPaths_literal, if_pos rfl]
  | some path =>
      rw [Option.getD_some, Option.isNone_some, tryPaths_writable, if_neg Bool.false_ne_true,
        directories, hpath, Option.getD_some]

theorem pathEnv_isSome : (pathEnv envp).isSome ↔ ∃ entry ∈ envp, ascii "PATH=" <+: entry := by
  simp only [pathEnv, List.find?_isSome, List.isPrefixOf_iff_prefix]

theorem targetExecutable_eq_iff {dir : Bytes} :
    targetExecutable dir = dir ++ ascii "/strace" ↔ dir.length ≤ 56 := by
  have hlength : (dir ++ ascii "/strace").length = dir.length + 7 := List.length_append
  rw [targetExecutable, List.take_eq_self_iff, hlength]
  omega

/-- Without a trace there is one screen. -/
theorem screens_nil (host : Host) : ∃ text, screens host [] = some [text] := by
  have hscan : scan step Parent.start [] = some (Parent.start, []) := rfl
  have hsorted : (displayTrace (host.qsort Traces.start.updates) Traces.start).table.entries = [] :=
    List.Perm.eq_nil ((host.qsort Traces.start.updates).perm [])
  refine ⟨screenText 0 [], ?_⟩
  rw [screens, hscan]
  simp only [Option.bind_some, recordAll, List.nil_append]
  rw [screen, hsorted]
  rfl

/-- A trace whose time does not fit the buffer. -/
theorem screens_overflow (host : Host) :
    screens host (ascii "a() = 0 <" ++ List.replicate 33 0x30) = none := by
  have hscan : scan step Parent.start (ascii "a() = 0 <" ++ List.replicate 33 0x30) = none := rfl
  rw [screens, hscan, Option.bind_none]

/-- The screens tell when the child has started nothing although there is a `strace`. -/
theorem exists_other_screens {child : Child} (hfound : (findStrace execve envp).isSome)
    (hchild : executeChild execve argv.length argv envp = some child)
    (hnothing : ∀ strace, written strace child = []) :
    ∃ strace host, main execve strace host argv envp ≠
      screens host (traceOf execve strace argv envp) := by
  refine ⟨fun _ _ _ => ascii "a() = 0 <" ++ List.replicate 33 0x30, .merging fun _ => false, ?_⟩
  obtain ⟨path, hpath⟩ := Option.isSome_iff_exists.mp hfound
  obtain ⟨text, hempty⟩ := screens_nil (.merging fun _ => false)
  rw [main, hchild, Option.bind_some, hnothing, hempty, traceOf, hpath, Option.elim_some,
    screens_overflow]
  exact Option.some_ne_none _

/-- **`sperf` shows the trace of the command exactly for some environments.** Whatever can be
executed, `strace` writes and the timer says, the screens are those for the trace that the first
`strace` in `PATH` writes for the command, if and only if there is a `PATH` and none of its
directories has more than 56 bytes. -/
theorem main_shows_trace_iff (argv envp : List Bytes) :
    (∀ execve strace host, main execve strace host argv envp =
        screens host (traceOf execve strace argv envp)) ↔
      (∃ entry ∈ envp, ascii "PATH=" <+: entry) ∧ ∀ dir ∈ directories envp, dir.length ≤ 56 := by
  rw [← pathEnv_isSome]
  constructor
  · intro h
    refine ⟨?_, fun dir hdir => ?_⟩
    · by_contra hnone
      have hnone := Option.not_isSome_iff_eq_none.mp hnone
      have hfound : (findStrace (fun _ => true) envp).isSome := by
        rw [findStrace, directories, hnone, Option.getD_none]
        decide
      have hchild := executeChild_eq (fun _ => true) argv envp
      rw [hnone, Option.isNone_none, if_pos rfl] at hchild
      obtain ⟨strace, host, hother⟩ := exists_other_screens hfound hchild fun _ => rfl
      exact hother (h _ strace host)
    · by_contra hlong
      let execve : Bytes → Bool := fun path => path = dir ++ ascii "/strace"
      have hfound : (findStrace execve envp).isSome :=
        List.find?_isSome.mpr ⟨_, List.mem_map_of_mem hdir, decide_eq_true rfl⟩
      -- no name in `target_executable` is as long as that of this file
      have hmissed : ((directories envp).map targetExecutable).find? execve = none := by
        refine List.find?_eq_none.mpr fun target htarget hexec => ?_
        obtain ⟨other, -, rfl⟩ := List.mem_map.mp htarget
        have hlength := congrArg List.length (of_decide_eq_true hexec)
        have hcut : (targetExecutable other).length ≤ 63 := List.length_take_le _ _
        rw [hlength, List.length_append] at hcut
        have h7 : (ascii "/strace").length = 7 := rfl
        omega
      have hchild := executeChild_eq execve argv envp
      rw [hmissed, Option.elim_none] at hchild
      obtain ⟨strace, host, hother⟩ :=
        exists_other_screens hfound hchild fun _ => by split_ifs <;> rfl
      exact hother (h _ strace host)
  · rintro ⟨hpath, hshort⟩ execve strace host
    have htargets : (directories envp).map targetExecutable =
        (directories envp).map (· ++ ascii "/strace") :=
      List.map_congr_left fun dir hdir => targetExecutable_eq_iff.mpr (hshort dir hdir)
    rw [main, executeChild_eq, Option.bind_some, Option.isNone_eq_false_iff.mpr hpath,
      if_neg Bool.false_ne_true, htargets, traceOf, findStrace]
    cases ((directories envp).map (· ++ ascii "/strace")).find? execve <;> rfl

end Launch

end NjuOs.Sperf
