import NjuOs.TestKit.Register
import NjuOs.Lib.Stdio

/-!
TestKit: the worker process, which runs the tests.

The worker is forked before `main`, and gets the table of tests through a pipe when the
program exits. `reads_whole`: however the pipe splits the table, the worker has it in
the end. It runs each test in a process of its own; what the code of a test does to its
process is a parameter (`Behaviour`). `worker_reports` is the report of the worker,
for every program and every behaviour of its tests.
-/

namespace NjuOs.TestKit

open NjuOs.Lib

variable {F : Type}

/-! ### The code of a test -/

/-- How a process ends. -/
inductive Status where
  | exited (code : UInt8)
  | signaled (signal : Nat)
deriving DecidableEq

def sigabrt : Nat := 6
def sigsegv : Nat := 11
def sigalrm : Nat := 14

/-- What a call of test code does to the process that makes it. -/
inductive Ran where
  | returns
  | ends (status : Status)
deriving DecidableEq

/-- How the process of `main` ends, unless the process that waits for it does so first,
as it does at the time limit. -/
inductive Waited where
  | ended (status : Status)
  | interrupted (status : Status)
deriving DecidableEq

/-- `struct tk_result` -/
structure Result where
  exitStatus : UInt8
  output : CString

/-- What the code of a test does, and what is in its buffer then. -/
structure Behaviour where
  init : Ran
  main : Waited
  mainOutput : CString
  utest : Ran
  stest : Result → Ran
  output : CString

/-- A process that makes a call goes on with `rest`, or ends in the call. -/
def Ran.andThen (ran : Ran) (rest : Status) : Status :=
  match ran with
  | .returns => rest
  | .ends status => status

/-- `exit(run_testcase(t, buf))`: how the process of a test ends. -/
def runTestcase (t : Testcase F) (b : Behaviour) : Status :=
  (if t.init.isSome then b.init else .returns).andThen
    (if t.stest.isSome then
      match b.main with
      | .interrupted status => status
      | .ended (.signaled signal) => .signaled signal
      | .ended (.exited code) => (b.stest ⟨code, b.mainOutput⟩).andThen (.exited code)
    else if t.utest.isSome then b.utest.andThen (.exited 0)
    else .signaled sigsegv)

/-! ### The report -/

/-- The standard output of the worker. -/
structure Console where
  isatty : Bool
  strsignal : Nat → Bytes

def escape : UInt8 := 27

/-- `pcol`, which has a buffer of 64 bytes. -/
def pcol (console : Console) (s : Bytes) (color : Nat) : Bytes :=
  (if console.isatty then
    escape :: ascii "[0;" ++ decimal color ++ ascii "m" ++ s ++ escape :: ascii "[0;0m"
  else s).take 63

/-- `printf` of a string, for a format whose conversions are all `%s`. -/
def printfString (arg : Bytes) : Bytes → Bytes
  | [] => []
  | 37 :: 115 :: cs => arg ++ printfString arg cs
  | c :: cs => c :: printfString arg cs

/-- `- [...] name (location)` -/
def verdict (console : Console) (t : Testcase F) (word : String) (color : Nat) : Bytes :=
  ascii "- [" ++ pcol console (ascii word) color ++ ascii "] " ++ t.name.bytes ++ ascii " (" ++
    t.loc.bytes ++ ascii ")"

def signalMessage (console : Console) (signal : Nat) : Bytes :=
  if signal = sigalrm then pcol console (ascii "Timeout") 33
  else if signal = sigabrt then pcol console (ascii "Assertion fail") 35
  else if signal = sigsegv then pcol console (ascii "Segmentation fault") 36
  else pcol console (console.strsignal signal) 31

/-- What `check_results` prints and returns. -/
def checkResults (console : Console) (t : Testcase F) : Status → Bytes × Bool
  | .exited _ => (verdict console t "PASS" 32 ++ [newline], true)
  | .signaled signal =>
      (verdict console t "FAIL" 31 ++ ascii " - " ++ signalMessage console signal ++ [newline],
        false)

/-- The output of a failed test, with `TK_VERBOSE`. -/
def showOutput (console : Console) (buf : Bytes) : Bytes :=
  printfString buf (pcol console (ascii "%s") 90) ++
    if buf.getLast? = some newline then [] else [newline]

/-- The processes that the worker forks, each of which it waits for. -/
inductive Event where
  | test (i : Nat) (status : Status)
  | fini (i : Nat)
deriving DecidableEq

section

variable (console : Console) (verbose : Bool) (behave : Nat → Behaviour)

/-- The report so far, the processes, and the two counters. -/
structure Progress where
  report : Bytes
  events : List Event
  passed : Nat
  ntests : Nat

/-- The body of the loop of `run_all_testcases`. -/
def runOne (t : Testcase F) (i : Nat) (p : Progress) : Progress :=
  let status := runTestcase t (behave i)
  let (text, succ) := checkResults console t status
  { report := p.report ++ text ++
      (if succ then [] else if verbose then showOutput console (behave i).output.bytes else [])
    events := p.events ++ .test i status :: if t.fini.isSome then [.fini i] else []
    passed := if succ then p.passed + 1 else p.passed
    ntests := p.ntests + 1 }

/-- The loop, from a test on; `none` behind the end of the table. -/
def runFrom (tests : Fin maxTests → Testcase F) (i : Nat) (p : Progress) : Option Progress :=
  if h : i < maxTests then
    if (tests ⟨i, h⟩).enabled then
      runFrom tests (i + 1) (runOne console verbose behave (tests ⟨i, h⟩) i p)
    else some p
  else none
termination_by maxTests - i

/-- `run_all_testcases`: the report and the processes. -/
def runAllTestcases (tests : Fin maxTests → Testcase F) : Option (Bytes × List Event) :=
  if !(tests ⟨0, by decide⟩).enabled then some ([], [])
  else
    (runFrom console verbose behave tests 0
      ⟨newline :: ascii "TestKit" ++ [newline], [], 0, 0⟩).map fun p =>
        (p.report ++ ascii "- " ++ decimal p.passed ++ ascii "/" ++ decimal p.ntests ++
          ascii " test cases passed." ++ [newline], p.events)

end

/-! ### The pipe -/

/-- How the table lies in memory. -/
structure Layout (F B : Type) where
  size : Nat
  encode : (Fin maxTests → Testcase F) → List B
  decode : List B → Fin maxTests → Testcase F
  length_encode : ∀ tests, (encode tests).length = size
  decode_encode : ∀ tests, decode (encode tests) = tests

section

variable {B : Type}

/-- What `read` returns: nothing at the end of the pipe, and else as much as comes, but
not more than there is and is asked for. -/
def readCount (wish request available : Nat) : Nat :=
  if available = 0 then 0 else max 1 (min wish (min request available))

theorem readCount_le {wish request available : Nat} (h : 0 < request) :
    readCount wish request available ≤ request ∧ readCount wish request available ≤ available := by
  unfold readCount
  split <;> omega

/-- The loop of `worker_process`; `wishes` are what the reads would return. -/
def readLoop (size : Nat) (wishes : Nat → Nat) (k : Nat) (pipe : List B) (bytesRead : Nat)
    (buffer : List B) : List B :=
  if _h : bytesRead < size then
    match _hr : readCount (wishes k) (size - bytesRead) pipe.length with
    | 0 => buffer
    | result + 1 =>
        readLoop size wishes (k + 1) (pipe.drop (result + 1)) (bytesRead + (result + 1))
          (buffer.take bytesRead ++ pipe.take (result + 1) ++
            buffer.drop (bytesRead + (result + 1)))
  else buffer
termination_by size - bytesRead

/-- `worker_process`. `own` is the table when the worker is forked, and `sent` what
`notify_worker` writes, if the program comes to its exit. -/
def workerProcess (layout : Layout F B) (console : Console) (env : Env) (behave : Nat → Behaviour)
    (wishes : Nat → Nat) (own : Fin maxTests → Testcase F)
    (sent : Option (Fin maxTests → Testcase F)) : Option (Bytes × List Event) :=
  let pipe := (sent.map layout.encode).getD []
  let image := readLoop layout.size wishes 0 pipe 0 (layout.encode own)
  runAllTestcases console env.verbose.isSome behave (layout.decode image)

/-- The rest of the table is read, whatever the reads return. -/
theorem reads_whole {size : Nat} (wishes : Nat → Nat) {pipe : List B} :
    ∀ {k bytesRead : Nat} {buffer : List B}, bytesRead + pipe.length = size →
      buffer.length = size →
        readLoop size wishes k pipe bytesRead buffer = buffer.take bytesRead ++ pipe := by
  induction hn : pipe.length using Nat.strong_induction_on generalizing pipe with
  | _ n ih =>
    subst hn
    intro k bytesRead buffer hsize hbuffer
    rw [readLoop]
    split
    · next hlt =>
      have hrequest : 0 < size - bytesRead := by omega
      obtain ⟨-, hle⟩ := @readCount_le (wishes k) (size - bytesRead) pipe.length hrequest
      split
      · next hzero =>
        -- there is something to read
        unfold readCount at hzero
        split_ifs at hzero <;> omega
      · next result hresult =>
        rw [hresult] at hle
        have htaken : (buffer.take bytesRead).length = bytesRead := by
          rw [List.length_take]
          omega
        have hpart : (pipe.take (result + 1)).length = result + 1 := by
          rw [List.length_take]
          omega
        have hdone : (buffer.take bytesRead ++ pipe.take (result + 1)).length =
            bytesRead + (result + 1) := by
          rw [List.length_append, htaken, hpart]
        rw [ih _ (by rw [List.length_drop]; omega) rfl (by rw [List.length_drop]; omega)
          (by simp only [List.length_append, htaken, hpart, List.length_drop]; omega),
          List.take_left' hdone, List.append_assoc, List.take_append_drop]
    · next hge =>
      have hempty : pipe = [] := List.length_eq_zero_iff.mp (by omega)
      rw [hempty, List.append_nil, List.take_of_length_le (by omega)]

end

/-! ### The whole report -/

def Status.isExited : Status → Bool
  | .exited _ => true
  | .signaled _ => false

section

variable (console : Console) (verbose : Bool) (behave : Nat → Behaviour)

/-- What is printed for one test: the verdict, and the output if it is asked for. -/
def block (t : Testcase F) (i : Nat) : Bytes :=
  let status := runTestcase t (behave i)
  (checkResults console t status).1 ++
    if verbose && !status.isExited then showOutput console (behave i).output.bytes else []

/-- The processes of one test: the test, and the cleanup however the test has ended. -/
def eventsOf (t : Testcase F) (i : Nat) : List Event :=
  .test i (runTestcase t (behave i)) :: if t.fini.isSome then [.fini i] else []

/-- The tests whose processes exit. -/
def passedOf (ts : List (Testcase F × Nat)) : Nat :=
  ts.countP fun (t, i) => (runTestcase t (behave i)).isExited

/-- The report on the tests of a program, and the processes that are forked for it. -/
def reportOf (ts : List (Testcase F)) : Bytes × List Event :=
  if ts = [] then ([], [])
  else
    (newline :: ascii "TestKit" ++ [newline] ++
      ts.zipIdx.flatMap (fun (t, i) => block console verbose behave t i) ++
      ascii "- " ++ decimal (passedOf behave ts.zipIdx) ++ ascii "/" ++ decimal ts.length ++
      ascii " test cases passed." ++ [newline],
      ts.zipIdx.flatMap fun (t, i) => eventsOf behave t i)

theorem runTestcase_registered (exe : CString) (i : Fin maxTests) (t : Testcase F)
    (b : Behaviour) : runTestcase (registered exe i t) b = runTestcase t b := by
  unfold registered
  split <;> rfl

theorem registered_enabled (exe : CString) (i : Fin maxTests) (t : Testcase F) :
    (registered exe i t).enabled = t.enabled := by
  unfold registered
  split <;> rfl

theorem checkResults_registered (exe : CString) (i : Fin maxTests) (t : Testcase F)
    (status : Status) :
    checkResults console (registered exe i t) status = checkResults console t status := by
  unfold registered
  split <;> rfl

theorem checkResults_snd (t : Testcase F) (status : Status) :
    (checkResults console t status).2 = status.isExited := by cases status <;> rfl

/-- One turn of the loop. -/
theorem runOne_registered (exe : CString) (i : Fin maxTests) (t : Testcase F) (p : Progress) :
    runOne console verbose behave (registered exe i t) i p =
      ⟨p.report ++ block console verbose behave t i, p.events ++ eventsOf behave t i,
        p.passed + passedOf behave [(t, i.val)], p.ntests + 1⟩ := by
  have hfini : (registered exe i t).fini = t.fini := by
    unfold registered
    split <;> rfl
  rw [runOne, runTestcase_registered, checkResults_registered, hfini]
  simp only [checkResults_snd, block, eventsOf, passedOf, Progress.mk.injEq, List.append_assoc,
    List.append_cancel_left_eq, true_and, and_true]
  cases hexit : (runTestcase t (behave i)).isExited <;> cases verbose <;> simp [hexit]

/-- The loop goes through the tests that are left, unless it reads behind the table. -/
theorem runFrom_spec (exe : CString) {rest : List (Testcase F)}
    (hon : ∀ t ∈ rest, t.enabled = true) :
    ∀ {past : List (Testcase F)} {p : Progress}, (past ++ rest).length ≤ maxTests →
      runFrom console verbose behave (suiteOf exe (past ++ rest)).tests past.length p =
        if (past ++ rest).length = maxTests then none
        else some
          ⟨p.report ++ (rest.zipIdx past.length).flatMap fun (t, i) =>
              block console verbose behave t i,
            p.events ++ (rest.zipIdx past.length).flatMap fun (t, i) => eventsOf behave t i,
            p.passed + passedOf behave (rest.zipIdx past.length), p.ntests + rest.length⟩ := by
  induction rest with
  | nil =>
      intro past p hlen
      rw [List.append_nil] at hlen ⊢
      rw [runFrom]
      by_cases hfull : past.length = maxTests
      · rw [dif_neg (by omega), if_pos hfull]
      · have hend : ((suiteOf exe past).tests ⟨past.length, by omega⟩).enabled = false := by
          simp [suiteOf, Testcase.zero]
        rw [dif_pos (by omega), hend, if_neg (by decide), if_neg hfull]
        simp [passedOf]
  | cons t rest ih =>
      intro past p hlen
      obtain ⟨ht, hrest⟩ := List.forall_mem_cons.mp hon
      have hlt : past.length < maxTests := by
        simp only [List.length_append, List.length_cons] at hlen
        omega
      have hentry : (suiteOf exe (past ++ t :: rest)).tests ⟨past.length, hlt⟩ =
          registered exe ⟨past.length, hlt⟩ t := by
        simp [suiteOf]
      rw [runFrom, dif_pos hlt, hentry, registered_enabled, ht, if_pos rfl, runOne_registered]
      have hsize : past.length + 1 = (past ++ [t]).length := by
        rw [List.length_append, List.length_singleton]
      have hpassed : passedOf behave ((t, past.length) :: rest.zipIdx (past.length + 1)) =
          passedOf behave [(t, past.length)] + passedOf behave (rest.zipIdx (past.length + 1)) :=
        @List.countP_append _ _ [(t, past.length)] _
      rw [List.append_cons] at hlen ⊢
      rw [hsize, ih hrest hlen, ← hsize, List.zipIdx_cons, hpassed]
      simp only [List.flatMap_cons, List.append_assoc, List.length_cons, Nat.add_assoc,
        Nat.add_comm 1]

theorem runAllTestcases_spec (exe : CString) {ts : List (Testcase F)}
    (hon : ∀ t ∈ ts, t.enabled = true) (hlen : ts.length ≤ maxTests) :
    runAllTestcases console verbose behave (suiteOf exe ts).tests =
      if ts.length = maxTests then none else some (reportOf console verbose behave ts) := by
  have hrun := fun p => @runFrom_spec F console verbose behave exe ts hon [] p hlen
  simp only [List.nil_append, List.length_nil] at hrun
  rw [runAllTestcases, hrun]
  cases ts with
  | nil => rfl
  | cons t ts =>
      have hfirst : ((suiteOf exe (t :: ts)).tests ⟨0, by decide⟩).enabled = true :=
        (registered_enabled exe _ t).trans (hon t List.mem_cons_self)
      rw [hfirst, if_neg (by decide), reportOf, if_neg (List.cons_ne_nil t ts)]
      split_ifs
      · rfl
      · simp only [Option.map_some, List.nil_append, Nat.zero_add]

/-- Next to a file, what is printed for a test ends its line. -/
theorem block_newline (hfile : console.isatty = false) (t : Testcase F) (i : Nat) :
    (block console verbose behave t i).getLast? = some newline := by
  have hverdict : (checkResults console t (runTestcase t (behave i))).1.getLast? =
      some newline := by
    cases runTestcase t (behave i) <;> exact List.getLast?_concat
  rw [block]
  split
  · have hplain : printfString (behave i).output.bytes (pcol console (ascii "%s") 90) =
        (behave i).output.bytes := by
      rw [pcol, hfile]
      exact List.append_nil _
    rw [showOutput, hplain]
    split
    · next hlast =>
      rw [List.append_nil, List.getLast?_append, hlast]
      rfl
    · rw [← List.append_assoc, List.getLast?_concat]
  · rw [List.append_nil, hverdict]

end

/-- **The report of a whole suite**: whatever the tests do and however the pipe splits
the table, the worker runs every registered test once, in the order of registration, and
its cleanup behind it; it passes the tests whose processes exit, and counts them. Only
with a full table does it read behind the end of it. -/
theorem worker_reports {B : Type} (layout : Layout F B) (console : Console) {env : Env}
    (henabled : env.Enabled) {exe : CString} (hexe : env.underscore = some exe)
    {ts : List (Testcase F)} (hdeclared : ∀ t ∈ ts, Declared t) {s : Suite F}
    (hexec : exec (addStep env) .empty ts = some s) (behave : Nat → Behaviour)
    (wishes : Nat → Nat) (own : Fin maxTests → Testcase F) :
    workerProcess layout console env behave wishes own (some s.tests) =
        (if ts.length = maxTests then none
          else some (reportOf console env.verbose.isSome behave ts)) ∧
      (console.isatty = false → ∀ x ∈ ts.zipIdx,
        (block console env.verbose.isSome behave x.1 x.2).getLast? = some newline) := by
  rw [← suiteOf_nil exe] at hexec
  obtain ⟨hlen, -, rfl⟩ := (exec_addStep_iff henabled hexe (Nat.zero_le _) hdeclared).mp hexec
  rw [List.nil_append] at hlen ⊢
  refine ⟨?_, fun hfile x _ => block_newline console _ behave hfile x.1 x.2⟩
  have hpipe : 0 + (layout.encode (suiteOf exe ts).tests).length = layout.size := by
    rw [layout.length_encode, Nat.zero_add]
  rw [workerProcess, Option.map_some, Option.getD_some,
    reads_whole wishes hpipe (layout.length_encode own), List.take_zero, List.nil_append,
    layout.decode_encode]
  exact runAllTestcases_spec console _ behave exe (fun t ht => (hdeclared t ht).enabled) hlen

/-- A table whose entries are not split. -/
def entryLayout : Layout Unit (Testcase Unit) where
  size := maxTests
  encode := List.ofFn
  decode entries i := entries[i.val]?.getD .zero
  length_encode _ := List.length_ofFn
  decode_encode tests := by
    funext i
    simp

/-- The first test exits, and the others crash in `main`. -/
def crashes (i : Nat) : Behaviour where
  init := .returns
  main := .ended (.signaled sigsegv)
  mainOutput := default
  utest := if i = 0 then .returns else .ends (.signaled sigabrt)
  stest _ := .returns
  output := default

/-- The table comes in two parts. -/
theorem worker_reports_twoTests :
    workerProcess entryLayout ⟨false, fun _ => []⟩ testEnv crashes (fun _ => 1000)
        (fun _ => .zero) (some (suiteOf (.single 116) twoTests).tests) =
      some (reportOf ⟨false, fun _ => []⟩ false crashes twoTests) := by
  have hexec : exec (addStep testEnv) .empty twoTests = some (suiteOf (.single 116) twoTests) := by
    rw [← suiteOf_nil (.single 116)]
    exact (exec_addStep_iff (.inl rfl) rfl (Nat.zero_le _) twoTests_declared).mpr
      ⟨by decide, twoTests_fit, rfl⟩
  exact (worker_reports entryLayout _ (.inl rfl) rfl twoTests_declared hexec _ _ _).1

end NjuOs.TestKit
