import NjuOs.Crepl.Session

/-!
Which function answers for an expression.

After a compilation that failed, the loop loads `/tmp/lib.so` all the same and
looks up the generated name in it. The library is that of the accepted text
(`Loaded`), so the name is found there if an accepted line has defined it. A
compilation that succeeds does not help either if the accepted text has the name
already: `Shadowed` is the condition for both.
-/

namespace NjuOs.Crepl

open NjuOs.Lib

variable {F : Type}

/-- C is read from the front: where a file compiles and a longer one does, the
functions of the file are those that begin in it in the longer one. -/
def Ordered (cc : Compiler F) : Prop :=
  ∀ {file text : Bytes} {so so' : Library F}, cc file = some so → cc (file ++ text) = some so' →
    ∀ name d, so name = some d ↔ so' name = some d ∧ d.start < file.length

/-- A value is printed only if the line compiled, and it is the result of the
function that begins in the text of the line. -/
def Report.Genuine (cc : Compiler F) (r : Report F) : Prop :=
  ∀ v, .value v ∈ r.output → r.lib ≠ -1 ∧
    ∃ so d, cc (r.origin ++ r.text) = some so ∧ so (funcName r.exprNum) = some d ∧
      r.origin.length ≤ d.start ∧ r.called = some (d, .returns v)

/-- The next line is an expression, and the text accepted so far defines a
function with the name that is generated for it, which can be loaded and returns. -/
def Shadowed (cc : Compiler F) (s : State F) (env : Env F) : Prop :=
  (∃ buffer stdin, fgets 1024 s.stdin = some (buffer, stdin) ∧
    isDefinition (lineOfBuffer buffer) = false) ∧
  env.dlopen = true ∧
  ∃ so d v, cc (cstr s.originFile) = some so ∧ so (funcName s.exprNum) = some d ∧
    env.call d.code = .returns v

/-- `/tmp/lib.so` is the library of the accepted text. -/
def Loaded (cc : Compiler F) (s : State F) : Prop :=
  (cstr s.originFile = [] ∧ s.tmpo = none) ∨
    ∃ so, cc (cstr s.originFile) = some so ∧ s.tmpo = some so

theorem loaded_start (cc : Compiler F) (stdin : Bytes) (tmpc : Option Bytes)
    (tmpo : Option (Library F)) : Loaded cc (start stdin tmpc tmpo) := .inl ⟨rfl, rfl⟩

section Step

variable {cc : Compiler F} {env : Env F} {s s' : State F} {r : Report F}

/-- The library after an iteration is the old one, or that of the line. -/
theorem IterationSpec.tmpo (spec : IterationSpec cc env s s' r) :
    r.lib = -1 ∧ s'.originFile = s.originFile ∧ s'.tmpo = s.tmpo ∨
      ∃ so, r.lib = 0 ∧ cc (cstr s.originFile ++ r.text) = some so ∧ s'.tmpo = some so := by
  have built := spec.built
  rw [spec.origin] at built
  generalize s'.originFile = origin', s'.tmpo = tmpo' at built ⊢
  cases built with
  | rejected hcc hlib => exact .inl ⟨hlib, rfl, rfl⟩
  | accepted so hcc hlib => exact .inr ⟨so, hlib, hcc, rfl⟩

theorem Loaded.iteration (h : Loaded cc s) (spec : IterationSpec cc env s s' r) : Loaded cc s' := by
  rcases spec.tmpo with ⟨hlib, horigin, htmpo⟩ | ⟨so, hlib, hcc, htmpo⟩
  · rw [Loaded, horigin, htmpo]
    exact h
  · have accepted := spec.accepted
    rw [Report.accepted, hlib] at accepted
    exact .inr ⟨so, by rw [accepted]; exact hcc, htmpo⟩

/-- A function of the accepted text is in the library. -/
theorem Loaded.tmpo_eq (h : Loaded cc s) (ordered : Ordered cc) {so : Library F} {name : Bytes}
    {d : Definition F} (hcc : cc (cstr s.originFile) = some so) (hd : so name = some d) :
    s.tmpo = some so := by
  rcases h with ⟨empty, -⟩ | ⟨so', hcc', htmpo⟩
  · rw [empty] at hcc
    have := ((@ordered [] [] so so hcc hcc name d).mp hd).2
    exact absurd this (Nat.not_lt_zero _)
  · rw [htmpo, ← hcc', hcc]

/-- Which calls an iteration makes. -/
theorem IterationSpec.called_iff {d : Definition F} {outcome : Outcome}
    (spec : IterationSpec cc env s s' r) :
    r.called = some (d, outcome) ↔
      isDefinition r.line = false ∧ env.dlopen = true ∧ env.call d.code = outcome ∧
        ∃ so, s'.tmpo = some so ∧ so (funcName s.exprNum) = some d := by
  rw [spec.called]
  split_ifs with branch loads
  · exact iff_of_false id fun h => Bool.false_ne_true (h.1.symm.trans branch)
  · rw [dlsym, Option.map_eq_some_iff]
    constructor
    · rintro ⟨f, found, h⟩
      obtain ⟨rfl, rfl⟩ := Prod.mk.inj h
      exact ⟨Bool.eq_false_iff.mpr branch, loads, rfl, Option.bind_eq_some_iff.mp found⟩
    · rintro ⟨-, -, rfl, found⟩
      exact ⟨d, Option.bind_eq_some_iff.mpr found, rfl⟩
  · exact iff_of_false (fun h => Option.some_ne_none _ h.symm) fun h => loads h.2.1

/-- A line is answered by its own function unless its name is taken. -/
theorem IterationSpec.genuine_iff (spec : IterationSpec cc env s s' r) (ordered : Ordered cc)
    (loaded : Loaded cc s) : r.Genuine cc ↔ ¬ Shadowed cc s env := by
  constructor
  · rintro genuine ⟨⟨buffer, stdin, read, branch⟩, loads, so, d, v, hcc, hd, returns⟩
    obtain ⟨rfl, -⟩ := Prod.mk.inj (Option.some.inj (spec.read.symm.trans read))
    have here := loaded.tmpo_eq ordered hcc hd
    -- the old library or the new one, the name is found, and the function returns
    have found : ∃ so' d', s'.tmpo = some so' ∧ so' (funcName s.exprNum) = some d' ∧
        env.call d'.code = .returns v ∧ (r.lib ≠ -1 → d'.start < r.origin.length) := by
      rcases spec.tmpo with ⟨hlib, -, htmpo⟩ | ⟨so', hlib, hcc', htmpo⟩
      · exact ⟨so, d, htmpo.trans here, hd, returns, fun h => absurd hlib h⟩
      · obtain ⟨hd', before⟩ := (ordered hcc hcc' _ d).mp hd
        exact ⟨so', d, htmpo, hd', returns, fun _ => spec.origin ▸ before⟩
    obtain ⟨so', d', htmpo, hd', returns', before⟩ := found
    have called : r.called = some (d', .returns v) :=
      spec.called_iff.mpr ⟨branch, loads, returns', so', htmpo, hd'⟩
    obtain ⟨compiled, -, d'', -, -, inside, called'⟩ :=
      genuine v ((spec.value_iff v).mpr ⟨d', called⟩)
    obtain ⟨rfl, -⟩ := Prod.mk.inj (Option.some.inj (called.symm.trans called'))
    exact absurd (before compiled) inside.not_gt
  · intro free v printed
    obtain ⟨d, called⟩ := (spec.value_iff v).mp printed
    obtain ⟨branch, loads, returns, so, htmpo, hd⟩ := spec.called_iff.mp called
    have taken : ∀ so0, cc (cstr s.originFile) = some so0 → so0 (funcName s.exprNum) ≠ some d :=
      fun so0 hcc hd0 =>
        free ⟨⟨r.buffer, s'.stdin, spec.read, branch⟩, loads, so0, d, v, hcc, hd0, returns⟩
    rcases spec.tmpo with ⟨-, -, hold⟩ | ⟨so', hlib, hcc, hnew⟩
    · rcases loaded with ⟨-, none_yet⟩ | ⟨so0, hcc, hso0⟩
      · exact absurd (htmpo.symm.trans (hold.trans none_yet)) (Option.some_ne_none _)
      · have same : so = so0 := Option.some.inj (htmpo.symm.trans (hold.trans hso0))
        exact absurd (same ▸ hd) (taken so0 hcc)
    · obtain rfl : so = so' := Option.some.inj (htmpo.symm.trans hnew)
      refine ⟨by rw [hlib]; decide, so, d, by rw [spec.origin]; exact hcc,
        by rw [spec.exprNum]; exact hd, ?_, called⟩
      rw [spec.origin]
      by_contra before
      rcases loaded with ⟨empty, -⟩ | ⟨so0, hcc0, -⟩
      · rw [empty] at before
        exact before (Nat.zero_le _)
      · exact taken so0 hcc0 ((ordered hcc0 hcc _ d).mpr ⟨hd, not_le.mp before⟩)

end Step

/-- The reports of a run are those of its start, and the new ones are genuine
exactly if no step was shadowed. -/
theorem genuine_iff_of_loaded {cc : Compiler F} (ordered : Ordered cc) (envs : List (Env F)) :
    ∀ {s s' : State F}, Loaded cc s → exec (iteration cc) s envs = some s' →
      ((∀ r ∈ s'.history, r.Genuine cc) ↔
        (∀ r ∈ s.history, r.Genuine cc) ∧
          EveryStep (iteration cc) (fun s env => ¬ Shadowed cc s env) s envs) := by
  induction envs with
  | nil =>
      rintro s s' - ⟨⟩
      exact (and_iff_left trivial).symm
  | cons env envs ih =>
      intro s s' loaded run
      obtain ⟨t, step, rest⟩ := Option.bind_eq_some_iff.mp run
      obtain ⟨r, spec⟩ := iteration_spec step
      rw [ih (loaded.iteration spec) rest, everyStep_cons step, spec.history,
        List.forall_mem_append, List.forall_mem_singleton, spec.genuine_iff ordered loaded,
        and_assoc]

/-- In every session, all values that are printed are those of their lines if and
only if no expression comes when its generated name is taken by accepted text. -/
theorem printed_genuine_iff (cc : Compiler F) (ordered : Ordered cc) (stdin : Bytes)
    (tmpc : Option Bytes) (tmpo : Option (Library F)) (envs : List (Env F)) (s : State F)
    (run : exec (iteration cc) (start stdin tmpc tmpo) envs = some s) :
    (∀ r ∈ s.history, r.Genuine cc) ↔
      EveryStep (iteration cc) (fun s env => ¬ Shadowed cc s env) (start stdin tmpc tmpo) envs := by
  rw [genuine_iff_of_loaded ordered envs (loaded_start cc stdin tmpc tmpo) run]
  exact and_iff_right (List.forall_mem_nil _)

/-- A compiler for one file, which begins with the function `expr_0`. -/
def oneFile (file : Bytes) (result : Int) : Compiler Int := fun content =>
  if content = file then
    some fun name => if name = funcName 0 then some ⟨0, result⟩ else none
  else none

theorem ordered_oneFile {file : Bytes} (nonempty : file ≠ []) (result : Int) :
    Ordered (oneFile file result) := by
  intro content text so so' hso hso' name d
  unfold oneFile at hso hso'
  split_ifs at hso with this
  split_ifs at hso' with longer
  cases hso
  cases hso'
  refine (and_iff_left_of_imp fun hd => ?_).symm
  dsimp only at hd
  split_ifs at hd
  cases hd
  exact this ▸ List.length_pos_iff.mpr nonempty

theorem printed_genuine_one_expression :
    ∃ s : State Int,
      exec (iteration (oneFile (ascii "int expr_0()\x7breturn 1;\x7d\n") 1))
        (start (ascii "1\n") none none) [⟨true, .returns⟩] = some s ∧
      ((∀ r ∈ s.history, r.Genuine (oneFile (ascii "int expr_0()\x7breturn 1;\x7d\n") 1)) ↔
        EveryStep (iteration (oneFile (ascii "int expr_0()\x7breturn 1;\x7d\n") 1))
          (fun s env => ¬ Shadowed (oneFile (ascii "int expr_0()\x7breturn 1;\x7d\n") 1) s env)
          (start (ascii "1\n") none none) [⟨true, .returns⟩]) :=
  ⟨_, rfl, printed_genuine_iff _ (ordered_oneFile (by decide) 1) _ none none _ _ rfl⟩

/-- `int expr_0(){return 42;}`, then `1`: the second line does not compile. -/
theorem printed_stale_value :
    Ordered (oneFile (ascii "int expr_0()\x7breturn 42;\x7d\n") 42) ∧
    ∃ s r0 r1,
      exec (iteration (oneFile (ascii "int expr_0()\x7breturn 42;\x7d\n") 42))
        (start (ascii "int expr_0()\x7breturn 42;\x7d\n1\n") none none)
        [⟨true, .returns⟩, ⟨true, .returns⟩] = some s ∧
      s.history = [r0, r1] ∧ r1.line = ascii "1" ∧ r1.lib = -1 ∧
      r1.output = [.compileError 106, .value 42] ∧
      ¬ r1.Genuine (oneFile (ascii "int expr_0()\x7breturn 42;\x7d\n") 42) := by
  refine ⟨ordered_oneFile (by decide) 42, _, _, _, rfl, rfl, rfl, rfl, rfl, ?_⟩
  intro genuine
  exact (genuine 42 (List.mem_cons_of_mem _ (List.mem_singleton_self _))).1 rfl

end NjuOs.Crepl
