import Mathlib.Init

/-!
Runs of a system with a partial step function.

`exec` is the run of a list of labels, and `EveryStep` says that each step of a
run meets a condition on the state before it and on its label.
`exec_invariant` is the rule for safety: what every such step preserves holds at
the end of every such run. `exec_countSteps` counts the steps of a kind by what
each of them adds to a measure of the state.
-/

namespace NjuOs.Lib

variable {S L : Type} (step : S → L → Option S)

/-- The state after a list of steps; `none` when one of them is not possible. -/
def exec : S → List L → Option S
  | s, [] => some s
  | s, l :: ls => (step s l).bind fun s => exec s ls

/-- A condition on every step of a run. -/
def EveryStep (P : S → L → Prop) : S → List L → Prop
  | _, [] => True
  | s, l :: ls => P s l ∧ ∀ s', step s l = some s' → EveryStep P s' ls

variable {step}

theorem exec_cons {s s' : S} {l : L} (h : step s l = some s') (ls : List L) :
    exec step s (l :: ls) = exec step s' ls := by rw [exec, h, Option.bind_some]

theorem everyStep_cons {P : S → L → Prop} {s s' : S} {l : L} (h : step s l = some s')
    (ls : List L) : EveryStep step P s (l :: ls) ↔ P s l ∧ EveryStep step P s' ls := by
  refine and_congr_right fun _ => ⟨fun hall => hall s' h, fun hall t ht => ?_⟩
  cases h.symm.trans ht
  exact hall

theorem everyStep_of_forall {P : S → L → Prop} {ls : List L} (h : ∀ l ∈ ls, ∀ s, P s l) :
    ∀ {s}, EveryStep step P s ls := by
  induction ls with
  | nil => exact trivial
  | cons l ls ih =>
      intro s
      exact ⟨h l List.mem_cons_self s, fun _ _ => ih fun l hl => h l (List.mem_cons_of_mem _ hl)⟩

theorem EveryStep.imp {P Q : S → L → Prop} (h : ∀ s l, P s l → Q s l) {ls : List L} :
    ∀ {s}, EveryStep step P s ls → EveryStep step Q s ls := by
  induction ls with
  | nil => exact fun _ => trivial
  | cons l ls ih => exact fun hall => ⟨h _ _ hall.1, fun s' hs' => ih (hall.2 s' hs')⟩

theorem EveryStep.and {P Q : S → L → Prop} {ls : List L} :
    ∀ {s}, EveryStep step P s ls → EveryStep step Q s ls →
      EveryStep step (fun s l => P s l ∧ Q s l) s ls := by
  induction ls with
  | nil => exact fun _ _ => trivial
  | cons l ls ih =>
      exact fun hP hQ => ⟨⟨hP.1, hQ.1⟩, fun s' hs' => ih (hP.2 s' hs') (hQ.2 s' hs')⟩

/-- What every step of a run preserves holds at its end. -/
theorem exec_invariant {Inv : S → Prop} {P : S → L → Prop}
    (hstep : ∀ {s l s'}, Inv s → P s l → step s l = some s' → Inv s') {ls : List L} :
    ∀ {s s'}, Inv s → EveryStep step P s ls → exec step s ls = some s' → Inv s' := by
  induction ls with
  | nil =>
      rintro s s' hs - ⟨⟩
      exact hs
  | cons l ls ih =>
      intro s s' hs hall hexec
      obtain ⟨t, ht, hrest⟩ := Option.bind_eq_some_iff.mp hexec
      rw [everyStep_cons ht] at hall
      exact ih (hstep hs hall.1 ht) hall.2 hrest

/-- What an invariant implies holds at every step. -/
theorem EveryStep.of_invariant (Inv : S → Prop) {P Q : S → L → Prop}
    (hstep : ∀ {s l s'}, Inv s → P s l → step s l = some s' → Inv s')
    (hQ : ∀ {s l}, Inv s → P s l → Q s l) {ls : List L} :
    ∀ {s}, Inv s → EveryStep step P s ls → EveryStep step Q s ls := by
  induction ls with
  | nil => exact fun _ _ => trivial
  | cons l ls ih =>
      exact fun hs hall => ⟨hQ hs hall.1, fun s' hs' => ih (hstep hs hall.1 hs') (hall.2 s' hs')⟩

/-- How many steps of a run meet `P`. -/
def countSteps (step : S → L → Option S) (P : S → L → Bool) : S → List L → Nat
  | _, [] => 0
  | s, l :: ls => (if P s l then 1 else 0) + ((step s l).map fun s => countSteps step P s ls).getD 0

/-- A measure that grows by one with the steps that meet `P`, and only with
them, counts these steps. -/
theorem exec_countSteps {Inv : S → Prop} {P : S → L → Bool} {measure : S → Nat}
    (hinv : ∀ {s l s'}, Inv s → step s l = some s' → Inv s')
    (hstep : ∀ {s l s'}, Inv s → step s l = some s' →
      measure s' = measure s + if P s l then 1 else 0) {ls : List L} :
    ∀ {s s'}, Inv s → exec step s ls = some s' →
      measure s' = measure s + countSteps step P s ls := by
  induction ls with
  | nil =>
      rintro s s' - ⟨⟩
      rfl
  | cons l ls ih =>
      intro s s' hs hexec
      obtain ⟨t, ht, hrest⟩ := Option.bind_eq_some_iff.mp hexec
      rw [ih (hinv hs ht) hrest, hstep hs ht, countSteps, ht, Option.map_some, Option.getD_some,
        Nat.add_assoc]

/-- A run to `s'` whose every step meets `P`. -/
structure Runs (step : S → L → Option S) (P : S → L → Prop) (s : S) (ls : List L) (s' : S) :
    Prop where
  every : EveryStep step P s ls
  exec : exec step s ls = some s'

namespace Runs

variable {P : S → L → Prop}

theorem nil (s : S) : Runs step P s [] s := ⟨trivial, rfl⟩

theorem cons {s t s' : S} {l : L} {ls : List L} (hP : P s l) (hstep : step s l = some t)
    (h : Runs step P t ls s') : Runs step P s (l :: ls) s' :=
  ⟨(everyStep_cons hstep ls).mpr ⟨hP, h.every⟩, (exec_cons hstep ls).trans h.exec⟩

theorem nil_iff {s s' : S} : Runs step P s [] s' ↔ s = s' :=
  ⟨fun h => Option.some.inj h.exec, fun h => h ▸ nil s⟩

theorem cons_iff {s s' : S} {l : L} {ls : List L} :
    Runs step P s (l :: ls) s' ↔ P s l ∧ ∃ t, step s l = some t ∧ Runs step P t ls s' := by
  constructor
  · intro h
    obtain ⟨t, ht, hrest⟩ := Option.bind_eq_some_iff.mp h.exec
    obtain ⟨hP, hall⟩ := (everyStep_cons ht ls).mp h.every
    exact ⟨hP, t, ht, hall, hrest⟩
  · rintro ⟨hP, t, ht, h⟩
    exact cons hP ht h

theorem append {s t s' : S} {ls ls' : List L} (h : Runs step P s ls t)
    (h' : Runs step P t ls' s') : Runs step P s (ls ++ ls') s' := by
  induction ls generalizing s with
  | nil =>
      cases h.exec
      exact h'
  | cons l ls ih =>
      obtain ⟨hP, u, hu, hrest⟩ := cons_iff.mp h
      exact cons hP hu (ih hrest)

theorem and {Q : S → L → Prop} {s s' : S} {ls : List L} (h : Runs step P s ls s')
    (hQ : EveryStep step Q s ls) : Runs step (fun s l => P s l ∧ Q s l) s ls s' :=
  ⟨h.every.and hQ, h.exec⟩

/-- What every step preserves holds at the end. -/
theorem invariant (Inv : S → Prop)
    (hstep : ∀ {s l s'}, Inv s → P s l → step s l = some s' → Inv s') {s s' : S} {ls : List L}
    (h : Runs step P s ls s') (hs : Inv s) : Inv s' :=
  exec_invariant hstep hs h.every h.exec

/-- What every step preserves of a state and of the labels that led to it. -/
theorem history (Inv : List L → S → Prop)
    (hstep : ∀ {past s l s'}, Inv past s → P s l → step s l = some s' → Inv (past ++ [l]) s')
    {ls : List L} :
    ∀ {past : List L} {s s' : S}, Runs step P s ls s' → Inv past s → Inv (past ++ ls) s' := by
  induction ls with
  | nil =>
      intro past s s' h hs
      obtain rfl := nil_iff.mp h
      rwa [List.append_nil]
  | cons l ls ih =>
      intro past s s' h hs
      obtain ⟨hP, t, ht, hrest⟩ := cons_iff.mp h
      rw [List.append_cons]
      exact ih hrest (hstep hs hP ht)

theorem of_append {s s' : S} {ls ls' : List L} (h : Runs step P s (ls ++ ls') s') :
    ∃ t, Runs step P s ls t ∧ Runs step P t ls' s' := by
  induction ls generalizing s with
  | nil => exact ⟨s, nil s, h⟩
  | cons l ls ih =>
      obtain ⟨hP, t, ht, hrest⟩ := cons_iff.mp h
      obtain ⟨u, hls, hls'⟩ := ih hrest
      exact ⟨u, cons hP ht hls, hls'⟩

/-! ### Steps that lower a measure -/

section Measure

variable (Inv : S → Prop) {measure : S → Nat}
  (hinv : ∀ {s l t}, Inv s → P s l → step s l = some t → Inv t)
  (hlower : ∀ {s l t}, Inv s → P s l → step s l = some t → measure t < measure s)

include hinv hlower

theorem length_le {ls : List L} :
    ∀ {s s' : S}, Runs step P s ls s' → Inv s → ls.length + measure s' ≤ measure s := by
  induction ls with
  | nil =>
      intro s s' h _
      obtain rfl := nil_iff.mp h
      exact Nat.le_of_eq (Nat.zero_add _)
  | cons l ls ih =>
      intro s s' h hs
      obtain ⟨hP, t, ht, hrest⟩ := cons_iff.mp h
      have hle := ih hrest (hinv hs hP ht)
      have hlt := hlower hs hP ht
      rw [List.length_cons]
      omega

/-- Going on as long as possible. -/
theorem exists_stuck {s : S} (hs : Inv s) :
    ∃ ls s', Runs step P s ls s' ∧ ∀ l t, P s' l → step s' l ≠ some t := by
  induction hn : measure s using Nat.strongRecOn generalizing s with
  | ind n ih =>
    by_cases hstuck : ∀ l t, P s l → step s l ≠ some t
    · exact ⟨[], s, nil s, hstuck⟩
    · obtain ⟨l, hl⟩ := Classical.not_forall.mp hstuck
      obtain ⟨t, hl⟩ := Classical.not_forall.mp hl
      obtain ⟨hP, hstep⟩ := Classical.not_imp.mp hl
      have ht := Classical.not_not.mp hstep
      obtain ⟨ls, s', hruns, hs'⟩ := ih (measure t) (hn ▸ hlower hs hP ht) (hinv hs hP ht) rfl
      exact ⟨l :: ls, s', cons hP ht hruns, hs'⟩

end Measure

end Runs

/-! ### Steps of a relation -/

section Chain

variable {S' : Type} {R : L → S → S → Prop}

/-- The steps of a relation, one after another. -/
def Chain (R : L → S → S → Prop) : List L → S → S → Prop
  | [], s, s' => s = s'
  | l :: ls, s, s' => ∃ t, R l s t ∧ Chain R ls t s'

theorem chain_append {ls ls' : List L} {s s' : S} :
    Chain R (ls ++ ls') s s' ↔ ∃ t, Chain R ls s t ∧ Chain R ls' t s' := by
  induction ls generalizing s with
  | nil =>
      refine ⟨fun h => ⟨s, rfl, h⟩, ?_⟩
      rintro ⟨t, rfl, h⟩
      exact h
  | cons l ls ih =>
      constructor
      · rintro ⟨t, hstep, hrest⟩
        obtain ⟨u, hls, hls'⟩ := ih.mp hrest
        exact ⟨u, ⟨t, hstep, hls⟩, hls'⟩
      · rintro ⟨u, ⟨t, hstep, hls⟩, hls'⟩
        exact ⟨t, hstep, ih.mpr ⟨u, hls, hls'⟩⟩

theorem exists_chain (h : ∀ l s, ∃ t, R l s t) (ls : List L) (s : S) : ∃ t, Chain R ls s t := by
  induction ls generalizing s with
  | nil => exact ⟨s, rfl⟩
  | cons l ls ih =>
      obtain ⟨t, ht⟩ := h l s
      obtain ⟨u, hu⟩ := ih t
      exact ⟨u, t, ht, hu⟩

/-- What the steps preserve holds at the end. -/
theorem Chain.preserves {Inv : S → Prop} {ls : List L}
    (hstep : ∀ l ∈ ls, ∀ {s t}, Inv s → R l s t → Inv t) :
    ∀ {s s' : S}, Inv s → Chain R ls s s' → Inv s' := by
  induction ls with
  | nil =>
      rintro s s' hs rfl
      exact hs
  | cons l ls ih =>
      rintro s s' hs ⟨t, hfirst, hrest⟩
      exact ih (fun l hl => hstep l (List.mem_cons_of_mem _ hl))
        (hstep l List.mem_cons_self hs hfirst) hrest

/-- What the steps preserve holds behind each of them. -/
theorem Chain.invariant {Inv : S → Prop} {ls : List L}
    (hstep : ∀ l ∈ ls, ∀ {s t}, Inv s → R l s t → Inv t) :
    ∀ {s s' : S}, Inv s → Chain R ls s s' → Chain (fun l s t => R l s t ∧ Inv t) ls s s' := by
  induction ls with
  | nil => exact fun _ h => h
  | cons l ls ih =>
      rintro s s' hs ⟨t, hfirst, hrest⟩
      have ht := hstep l List.mem_cons_self hs hfirst
      exact ⟨t, ⟨hfirst, ht⟩, ih (fun l hl => hstep l (List.mem_cons_of_mem _ hl)) ht hrest⟩

/-- Steps that are matched one by one are matched as a whole. -/
theorem Chain.simulate {R' : L → S' → S' → Prop} {Q : S → S' → Prop} {ls : List L}
    (hstep : ∀ l ∈ ls, ∀ {s s' t'}, Q s s' → R' l s' t' → ∃ t, R l s t ∧ Q t t') :
    ∀ {s : S} {s' t' : S'}, Q s s' → Chain R' ls s' t' → ∃ t, Chain R ls s t ∧ Q t t' := by
  induction ls with
  | nil =>
      rintro s s' t' hQ rfl
      exact ⟨s, rfl, hQ⟩
  | cons l ls ih =>
      rintro s s' t' hQ ⟨u', hfirst, hrest⟩
      obtain ⟨u, hu, hQu⟩ := hstep l List.mem_cons_self hQ hfirst
      obtain ⟨t, ht, hQt⟩ := ih (fun l hl => hstep l (List.mem_cons_of_mem _ hl)) hQu hrest
      exact ⟨t, ⟨u, hu, ht⟩, hQt⟩

end Chain

end NjuOs.Lib
