import NjuOs.Lib.Bytes
import NjuOs.Lib.Run
import Mathlib.Data.List.Range
import Mathlib.Logic.Function.Basic

/-!
TestKit: the registration of test cases.

`tk_add_test` is called once for each test of a program, before `main`. It stores the
test in a table of fixed size and copies the argument vector of a system test into
its entry, as the caller's array does not live on. `tests_registered_iff` is what any
sequence of calls leaves in the table, and when such a sequence comes to its end.
-/

namespace NjuOs.TestKit

open NjuOs.Lib

def maxTests : Nat := 1024
def maxArgvLen : Nat := 64

/-- What `argv` points to: an array of the caller, or the copy in an entry of the
table. -/
inductive Argv where
  | given (args : List CString)
  | copied (entry : Fin maxTests)
deriving DecidableEq

/-- `struct tk_testcase`; `F` are the addresses of functions. -/
structure Testcase (F : Type) where
  enabled : Bool
  name : CString
  loc : CString
  init : Option F
  fini : Option F
  utest : Option F
  stest : Option F
  argc : Nat
  argv : Option Argv
  argvCopy : Fin maxArgvLen → Option CString

variable {F : Type}

/-- An entry of a static table. -/
def Testcase.zero : Testcase F where
  enabled := false
  name := default
  loc := default
  init := none
  fini := none
  utest := none
  stest := none
  argc := 0
  argv := none
  argvCopy _ := none

/-- What `getenv` finds. -/
structure Env where
  run : Option CString
  verbose : Option CString
  underscore : Option CString

/-- One of the variables that turn TestKit on is set. -/
def Env.Enabled (env : Env) : Prop := env.run.isSome ∨ env.verbose.isSome

theorem Env.Enabled.eq {env : Env} (h : env.Enabled) :
    (env.run.isNone && env.verbose.isNone) = false := by
  rw [Bool.and_eq_false_iff, Option.isNone_eq_false_iff, Option.isNone_eq_false_iff]
  exact h

/-- The static variables. -/
structure Suite (F : Type) where
  ntests : Nat
  tests : Fin maxTests → Testcase F

def Suite.empty : Suite F := ⟨0, fun _ => .zero⟩

def Suite.add (s : Suite F) (i : Fin maxTests) (t : Testcase F) : Suite F :=
  ⟨s.ntests + 1, Function.update s.tests i t⟩

/-- An assignment to `argv_copy[i]`. -/
def storeArg (copy : Fin maxArgvLen → Option CString) (i : Nat) (arg : Option CString) :
    Option (Fin maxArgvLen → Option CString) :=
  if h : i < maxArgvLen then some (Function.update copy ⟨i, h⟩ arg) else none

/-- `argv[i]` of a caller. -/
def readArg (argv : Argv) (i : Nat) : Option CString :=
  match argv with
  | .given args => args[i]?
  | .copied _ => none

/-- The body of the loop that copies the arguments. -/
def copyArg (argv : Argv) (copy : Fin maxArgvLen → Option CString) (i : Nat) :
    Option (Fin maxArgvLen → Option CString) :=
  (readArg argv (i - 1)).bind fun arg => storeArg copy i (some arg)

/-- `tk_add_test`; an error is the message of a failed assertion, which aborts. -/
def tkAddTest (env : Env) (s : Suite F) (t : Testcase F) : Option (Except String (Suite F)) :=
  if env.run.isNone && env.verbose.isNone then some (.ok s)
  else if h : s.ntests < maxTests then
    match t.argv with
    | none => some (.ok (s.add ⟨s.ntests, h⟩ t))
    | some argv =>
        if t.stest.isNone then some (.error "Only system tests can have argv")
        else
          (storeArg t.argvCopy (t.argc + 1) none).bind fun copy =>
            (storeArg copy 0 env.underscore).bind fun copy =>
              if env.underscore.isNone then
                some (.error ("TestKit requires shell put executable in environ; " ++
                  "try run with bash"))
              else
                ((List.range' 1 t.argc).foldlM (copyArg argv) copy).map fun copy =>
                  .ok (s.add ⟨s.ntests, h⟩ { t with
                    argc := t.argc + 1
                    argv := some (.copied ⟨s.ntests, h⟩)
                    argvCopy := copy })
  else some (.error "TestKit supports up to 1024 test cases")

/-- The calls of a program that goes on behind each of them. -/
def addStep (env : Env) (s : Suite F) (t : Testcase F) : Option (Suite F) :=
  (tkAddTest env s t).bind Except.toOption

/-- The argument vector that `main` is called with: `argc` strings behind `argv`, and
a null pointer behind them. -/
def Suite.mainArgv (s : Suite F) (i : Fin maxTests) : Option (List CString) :=
  let t := s.tests i
  match t.argv with
  | some (.copied j) =>
      let read := fun k => if h : k < maxArgvLen then (s.tests j).argvCopy ⟨k, h⟩ else none
      if read t.argc = none then (List.range t.argc).mapM read else none
  | _ => none

/-! ### One call -/

/-- A test case as the macros make it. -/
structure Declared (t : Testcase F) : Prop where
  enabled : t.enabled = true
  argv : ∀ argv, t.argv = some argv → ∃ args, argv = .given args ∧ args.length = t.argc ∧
    t.stest.isSome
  argvCopy : ∀ i, t.argvCopy i = none

/-- There is room for the arguments, the name of the program and a null pointer. -/
def Testcase.Fits (t : Testcase F) : Prop := t.argv.isSome → t.argc + 2 ≤ maxArgvLen

/-- The entry that a test case gets. -/
def registered (exe : CString) (i : Fin maxTests) (t : Testcase F) : Testcase F :=
  match t.argv with
  | some (.given args) =>
      { t with
        argc := t.argc + 1
        argv := some (.copied i)
        argvCopy := fun k => (exe :: args)[k.val]? }
  | _ => t

theorem storeArg_eq (copy : Fin maxArgvLen → Option CString) {i : Nat} (h : i < maxArgvLen)
    (arg : Option CString) :
    storeArg copy i arg = some fun k => if k.val = i then arg else copy k := by
  rw [storeArg, dif_pos h]
  congr 1
  funext k
  simp only [Function.update_apply, Fin.ext_iff]

/-- The loop, from any argument on. -/
theorem copyArgs_spec {args : List CString} (n : Nat) :
    ∀ {start : Nat} (copy : Fin maxArgvLen → Option CString), 1 ≤ start →
      start + n ≤ args.length + 1 → start + n ≤ maxArgvLen →
        (List.range' start n).foldlM (copyArg (.given args)) copy =
          some fun k => if start ≤ k.val ∧ k.val < start + n then args[k.val - 1]? else copy k := by
  induction n with
  | zero =>
      intro start copy _ _ _
      rw [List.range'_zero, List.foldlM_nil]
      congr 1
      funext k
      rw [if_neg (by omega)]
  | succ n ih =>
      intro start copy hstart hargs hlen
      have harg : args[start - 1]? = some args[start - 1] :=
        List.getElem?_eq_getElem (by omega)
      rw [List.range'_succ, List.foldlM_cons, copyArg, readArg, harg, Option.bind_some,
        storeArg_eq copy (by omega), Option.bind_eq_bind, Option.bind_some,
        ih _ (by omega) (by omega) (by omega)]
      congr 1
      funext k
      by_cases hk : k.val = start
      · rw [if_neg (by omega), if_pos hk, if_pos (by omega), hk, harg]
      · rw [if_neg hk]
        by_cases hin : start ≤ k.val ∧ k.val < start + (n + 1)
        · rw [if_pos hin, if_pos (by omega)]
        · rw [if_neg hin, if_neg (by omega)]

section

variable {env : Env} (henabled : env.Enabled) {exe : CString}
  (hexe : env.underscore = some exe)

include henabled

/-- With a full table the call aborts. -/
theorem addStep_full {s : Suite F} (h : maxTests ≤ s.ntests) (t : Testcase F) :
    addStep env s t = none := by
  rw [addStep, tkAddTest, henabled.eq, if_neg (by decide), dif_neg (Nat.not_lt.mpr h),
    Option.bind_some]
  rfl

include hexe

/-- A call stores the test, or it stores behind the copy of the arguments. -/
theorem addStep_spec {s : Suite F} (h : s.ntests < maxTests) {t : Testcase F}
    (ht : Declared t) :
    t.Fits ∧ addStep env s t = some (s.add ⟨s.ntests, h⟩ (registered exe ⟨s.ntests, h⟩ t)) ∨
      ¬ t.Fits ∧ addStep env s t = none := by
  rw [addStep, tkAddTest, henabled.eq, if_neg (by decide), dif_pos h]
  cases hargv : t.argv with
  | none =>
      refine .inl ⟨fun hsome => ?_, ?_⟩
      · rw [hargv] at hsome
        cases hsome
      · have hreg : registered exe ⟨s.ntests, h⟩ t = t := by simp only [registered, hargv]
        rw [hreg]
        rfl
  | some argv =>
      obtain ⟨args, rfl, hlen, hstest⟩ := ht.argv argv hargv
      have hsystem : t.stest.isNone = false := by
        rw [Option.isNone_eq_false_iff]
        exact hstest
      dsimp only
      rw [hsystem, if_neg (by decide)]
      by_cases hfits : t.argc + 2 ≤ maxArgvLen
      · refine .inl ⟨fun _ => hfits, ?_⟩
        rw [storeArg_eq _ (by omega), Option.bind_some, storeArg_eq _ (by decide),
          Option.bind_some, hexe, if_neg (by simp),
          copyArgs_spec _ _ (Nat.le_refl 1) (by omega) (by omega), Option.map_some,
          Option.bind_some]
        have hcopy : (fun k : Fin maxArgvLen =>
            if 1 ≤ k.val ∧ k.val < 1 + t.argc then args[k.val - 1]?
            else if k.val = 0 then some exe
            else if k.val = t.argc + 1 then none else t.argvCopy k) =
              fun k : Fin maxArgvLen => (exe :: args)[k.val]? := by
          funext k
          obtain ⟨k, hk⟩ := k
          cases k with
          | zero => rfl
          | succ k =>
              dsimp only
              rw [List.getElem?_cons_succ]
              by_cases hin : k < t.argc
              · rw [if_pos (by omega), Nat.add_sub_cancel]
              · have hend : args[k]? = none := List.getElem?_eq_none (by omega)
                rw [if_neg (by omega), if_neg (by omega), hend, ht.argvCopy]
                exact ite_self _
        simp only [hcopy, registered, hargv, Except.toOption]
      · refine .inr ⟨fun h => hfits (h (by rw [hargv]; rfl)), ?_⟩
        by_cases hlast : t.argc + 1 < maxArgvLen
        · omega
        · rw [storeArg, dif_neg hlast, Option.bind_none, Option.bind_none]

end

/-! ### Any number of calls -/

/-- The table behind the registration of these tests. -/
def suiteOf (exe : CString) (ts : List (Testcase F)) : Suite F where
  ntests := ts.length
  tests i := (ts[i.val]?.map (registered exe i)).getD .zero

theorem suiteOf_nil (exe : CString) : suiteOf exe ([] : List (Testcase F)) = .empty := rfl

/-- The next test. -/
theorem suiteOf_concat (exe : CString) (ts : List (Testcase F)) (t : Testcase F)
    (h : ts.length < maxTests) :
    (suiteOf exe ts).add ⟨ts.length, h⟩ (registered exe ⟨ts.length, h⟩ t) =
      suiteOf exe (ts ++ [t]) := by
  simp only [Suite.add, suiteOf, Suite.mk.injEq, List.length_append, List.length_singleton,
    true_and]
  funext i
  rw [Function.update_apply]
  split_ifs with hi
  · rw [hi, List.getElem?_concat_length, Option.map_some, Option.getD_some]
  · have hne : i.val ≠ ts.length := fun heq => hi (Fin.ext heq)
    by_cases hlt : i.val < ts.length
    · rw [List.getElem?_append_left hlt]
    · have hend : (ts ++ [t]).length ≤ i.val := by
        rw [List.length_append, List.length_singleton]
        omega
      rw [List.getElem?_eq_none (Nat.not_lt.mp hlt), List.getElem?_eq_none hend]

theorem exec_addStep_iff {env : Env} (henabled : env.Enabled) {exe : CString}
    (hexe : env.underscore = some exe) {ts : List (Testcase F)} :
    ∀ {past : List (Testcase F)} {s : Suite F}, past.length ≤ maxTests →
      (∀ t ∈ ts, Declared t) →
        (exec (addStep env) (suiteOf exe past) ts = some s ↔
          (past ++ ts).length ≤ maxTests ∧ (∀ t ∈ ts, t.Fits) ∧ s = suiteOf exe (past ++ ts)) := by
  induction ts with
  | nil =>
      intro past s hpast _
      rw [exec, List.append_nil, Option.some.injEq]
      constructor
      · rintro rfl
        exact ⟨hpast, fun t ht => absurd ht List.not_mem_nil, rfl⟩
      · rintro ⟨-, -, rfl⟩
        rfl
  | cons t ts ih =>
      intro past s hpast hdeclared
      obtain ⟨ht, hts⟩ := List.forall_mem_cons.mp hdeclared
      rw [List.forall_mem_cons, List.append_cons]
      by_cases hroom : past.length < maxTests
      · rcases addStep_spec henabled hexe (s := suiteOf exe past) hroom ht with
          ⟨hfits, hstep⟩ | ⟨hlong, hstep⟩
        · have hnext : addStep env (suiteOf exe past) t = some (suiteOf exe (past ++ [t])) :=
            hstep.trans (congrArg some (suiteOf_concat exe past t hroom))
          rw [exec_cons hnext, ih _ hts]
          · simp only [hfits, true_and]
          · rw [List.length_append, List.length_singleton]
            exact hroom
        · rw [exec, hstep, Option.bind_none]
          exact iff_of_false (Option.some_ne_none _).symm fun h => hlong h.2.1.1
      · rw [exec, addStep_full henabled (Nat.not_lt.mp hroom), Option.bind_none]
        refine iff_of_false (Option.some_ne_none _).symm fun h => hroom ?_
        have hlen := h.1
        simp only [List.length_append, List.length_cons, List.length_nil] at hlen
        omega

/-- Reading a list from its start. -/
theorem mapM_range_eq {α : Type} {xs : List α} :
    ∀ {f : Nat → Option α}, (∀ k < xs.length, f k = xs[k]?) →
      (List.range xs.length).mapM f = some xs := by
  induction xs with
  | nil => exact fun _ => rfl
  | cons x xs ih =>
      intro f h
      have hrest : (List.range xs.length).mapM (f ∘ Nat.succ) = some xs := by
        refine ih fun k hk => ?_
        rw [Function.comp_apply, h (k + 1) (by simpa using hk), List.getElem?_cons_succ]
      rw [List.length_cons, List.range_succ_eq_map, List.mapM_cons, h 0 (by simp),
        List.getElem?_cons_zero, List.mapM_map, hrest]
      rfl

/-- What `main` gets. -/
theorem mainArgv_suiteOf {exe : CString} {ts : List (Testcase F)} {i : Fin maxTests}
    {t : Testcase F} (hget : ts[i.val]? = some t) (ht : Declared t) (hfits : t.Fits)
    {args : List CString} (hargv : t.argv = some (.given args)) :
    (suiteOf exe ts).mainArgv i = some (exe :: args) := by
  obtain ⟨args', heq, hlen, -⟩ := ht.argv _ hargv
  obtain rfl : args = args' := Argv.given.inj heq
  have hroom : t.argc + 2 ≤ maxArgvLen := hfits (by rw [hargv]; rfl)
  have hentry : (suiteOf exe ts).tests i = { t with
      argc := t.argc + 1
      argv := some (.copied i)
      argvCopy := fun k => (exe :: args)[k.val]? } := by
    simp only [suiteOf, hget, Option.map_some, Option.getD_some, registered, hargv]
  have hread : ∀ k, k ≤ t.argc + 1 → (if h : k < maxArgvLen then
      ((suiteOf exe ts).tests i).argvCopy ⟨k, h⟩ else none) = (exe :: args)[k]? := by
    intro k hk
    rw [dif_pos (by omega), hentry]
  rw [Suite.mainArgv]
  simp only [hentry]
  rw [hentry] at hread
  rw [hread _ (Nat.le_refl _), if_pos]
  · have hsize : t.argc + 1 = (exe :: args).length := by rw [List.length_cons, hlen]
    rw [hsize]
    exact mapM_range_eq fun k hk => hread k (by omega)
  · exact List.getElem?_eq_none (by rw [List.length_cons, hlen])

/-- **The table behind any sequence of calls** holds the tests in their order, and the
sequence comes to its end exactly when the tests fit in the table and their arguments in
its entries. `main` is then called with the name of the program and the arguments of
the test, all of which are reached through the table alone. -/
theorem tests_registered_iff {env : Env} (henabled : env.Enabled) {exe : CString}
    (hexe : env.underscore = some exe) {ts : List (Testcase F)}
    (hdeclared : ∀ t ∈ ts, Declared t) (s : Suite F) :
    (exec (addStep env) .empty ts = some s ↔
      ts.length ≤ maxTests ∧ (∀ t ∈ ts, t.Fits) ∧ s = suiteOf exe ts) ∧
    (exec (addStep env) .empty ts = some s → ∀ i t args, ts[i.val]? = some t →
      t.argv = some (.given args) → s.mainArgv i = some (exe :: args)) := by
  have hiff : exec (addStep env) (suiteOf exe []) ts = some s ↔ _ :=
    exec_addStep_iff henabled hexe (Nat.zero_le _) hdeclared
  rw [List.nil_append, suiteOf_nil] at hiff
  refine ⟨hiff, fun hexec i t args hget hargv => ?_⟩
  obtain ⟨-, hfits, rfl⟩ := hiff.mp hexec
  have hmem : t ∈ ts := List.mem_of_getElem? hget
  exact mainArgv_suiteOf hget (hdeclared t hmem) (hfits t hmem) hargv

/-- A unit test, and a system test with one argument. -/
def twoTests : List (Testcase Unit) :=
  [{ Testcase.zero with enabled := true, utest := some () },
    { Testcase.zero with
      enabled := true, stest := some (), argc := 1, argv := some (.given [.single 45]) }]

theorem twoTests_declared : ∀ t ∈ twoTests, Declared t := by
  refine List.forall_mem_cons.mpr
    ⟨⟨rfl, nofun, fun _ => rfl⟩, List.forall_mem_cons.mpr ⟨?_, nofun⟩⟩
  refine ⟨rfl, ?_, fun _ => rfl⟩
  rintro argv ⟨⟩
  exact ⟨_, rfl, rfl, rfl⟩

theorem twoTests_fit : ∀ t ∈ twoTests, t.Fits := by
  refine List.forall_mem_cons.mpr ⟨nofun, List.forall_mem_cons.mpr ⟨fun _ => ?_, nofun⟩⟩
  decide

/-- TestKit is on, and the program has a name. -/
def testEnv : Env := ⟨some (.single 116), none, some (.single 116)⟩

theorem tests_registered_twoTests :
    ∃ s, exec (addStep testEnv) .empty twoTests = some s ∧
      s.mainArgv ⟨1, by decide⟩ = some [.single 116, .single 45] := by
  have henabled : testEnv.Enabled := .inl rfl
  have hregistered := tests_registered_iff henabled rfl twoTests_declared
    (suiteOf (.single 116) twoTests)
  have hexec := hregistered.1.mpr ⟨by decide, twoTests_fit, rfl⟩
  exact ⟨_, hexec, hregistered.2 hexec ⟨1, by decide⟩ _ _ rfl rfl⟩

end NjuOs.TestKit
