import Mathlib.Data.List.Induction

/-!
Machines that read a text one symbol at a time and emit outputs on the way.

A step can fail. `scan` is the run over a text; `scan_append` cuts it where the
text is cut, and `scan_silent` is the rule for the parts of a text that emit
nothing. `exists_first` finds the place where a property of what has been read
so far and of the next symbol holds for the first time.
-/

namespace NjuOs.Lib

variable {S α β : Type} (step : S → α → Option (S × List β))

/-- The state behind a text and all that was emitted. -/
def scan : S → List α → Option (S × List β)
  | s, [] => some (s, [])
  | s, a :: as =>
      (step s a).bind fun now => (scan now.1 as).map fun rest => (rest.1, now.2 ++ rest.2)

variable {step}

@[simp] theorem scan_nil (s : S) : scan step s [] = some (s, []) := rfl

theorem scan_cons {s t : S} {a : α} {out : List β} (h : step s a = some (t, out)) (as : List α) :
    scan step s (a :: as) = (scan step t as).map fun rest => (rest.1, out ++ rest.2) := by
  rw [scan, h, Option.bind_some]

/-- The first symbol of a scan. -/
theorem exists_of_scan_cons {s u : S} {a : α} {as : List α} {out : List β}
    (h : scan step s (a :: as) = some (u, out)) :
    ∃ t now rest, step s a = some (t, now) ∧ scan step t as = some (u, rest) ∧
      out = now ++ rest := by
  obtain ⟨⟨t, now⟩, hnow, hrest⟩ := Option.bind_eq_some_iff.mp h
  obtain ⟨⟨u', rest⟩, hscan, heq⟩ := Option.map_eq_some_iff.mp hrest
  obtain ⟨rfl, rfl⟩ := Prod.mk.inj heq
  exact ⟨t, now, rest, hnow, hscan, rfl⟩

theorem scan_singleton {s : S} {a : α} : scan step s [a] = step s a := by
  cases h : step s a with
  | none => rw [scan, h, Option.bind_none]
  | some now => simp [scan_cons h]

theorem scan_append {s t : S} {as : List α} {out : List β} (h : scan step s as = some (t, out))
    (bs : List α) :
    scan step s (as ++ bs) = (scan step t bs).map fun rest => (rest.1, out ++ rest.2) := by
  induction as generalizing s out with
  | nil =>
      obtain ⟨rfl, rfl⟩ := Prod.mk.inj (Option.some.inj h)
      simp
  | cons a as ih =>
      obtain ⟨u, now, rest, hnow, hscan, rfl⟩ := exists_of_scan_cons h
      rw [List.cons_append, scan_cons hnow, ih hscan, Option.map_map]
      simp only [Function.comp_def, List.append_assoc]

theorem scan_append_none {s : S} {as : List α} (h : scan step s as = none) (bs : List α) :
    scan step s (as ++ bs) = none := by
  induction as generalizing s with
  | nil => cases h
  | cons a as ih =>
      rw [List.cons_append, scan]
      cases hnow : step s a with
      | none => rfl
      | some now =>
          rw [scan_cons hnow, Option.map_eq_none_iff] at h
          rw [Option.bind_some, ih h, Option.map_none]

/-- The two parts of a scan. -/
theorem exists_of_scan_append {s u : S} {as bs : List α} {out : List β}
    (h : scan step s (as ++ bs) = some (u, out)) :
    ∃ t first rest, scan step s as = some (t, first) ∧ scan step t bs = some (u, rest) ∧
      out = first ++ rest := by
  cases has : scan step s as with
  | none =>
      rw [scan_append_none has] at h
      cases h
  | some now =>
      obtain ⟨t, first⟩ := now
      rw [scan_append has] at h
      obtain ⟨⟨u', rest⟩, hrest, heq⟩ := Option.map_eq_some_iff.mp h
      obtain ⟨rfl, rfl⟩ := Prod.mk.inj heq
      exact ⟨t, first, rest, rfl, hrest, rfl⟩

/-- The last symbol of a scan. -/
theorem exists_of_scan_concat {s u : S} {as : List α} {a : α} {out : List β}
    (h : scan step s (as ++ [a]) = some (u, out)) :
    ∃ t first last, scan step s as = some (t, first) ∧ step t a = some (u, last) ∧
      out = first ++ last := by
  obtain ⟨t, first, last, has, hlast, rfl⟩ := exists_of_scan_append h
  rw [scan_singleton] at hlast
  exact ⟨t, first, last, has, hlast, rfl⟩

/-- A text that emits nothing. -/
theorem scan_silent {s t : S} {as : List α} (h : scan step s as = some (t, [])) (bs : List α) :
    scan step s (as ++ bs) = scan step t bs := by
  rw [scan_append h]
  simp

theorem scan_silent_cons {s t : S} {a : α} (h : step s a = some (t, [])) (as : List α) :
    scan step s (a :: as) = scan step t as := by
  rw [scan_cons h]
  simp

/-- One more symbol that emits nothing. -/
theorem scan_concat {s t u : S} {as : List α} {a : α} (h : scan step s as = some (t, []))
    (ha : step t a = some (u, [])) : scan step s (as ++ [a]) = some (u, []) := by
  rw [scan_silent h, scan_singleton, ha]

/-- A state in which the machine reads everything and does nothing. -/
theorem scan_stuck {s : S} (h : ∀ a, step s a = some (s, [])) (as : List α) :
    scan step s as = some (s, []) := by
  induction as with
  | nil => rfl
  | cons a as ih => rw [scan_silent_cons (h a), ih]

/-- Symbols that a state emits nothing for and does not change on. -/
theorem scan_ignores {s : S} {as : List α} (h : ∀ a ∈ as, step s a = some (s, [])) :
    scan step s as = some (s, []) := by
  induction as with
  | nil => rfl
  | cons a as ih =>
      rw [scan_silent_cons (h a List.mem_cons_self), ih fun b hb => h b (List.mem_cons_of_mem a hb)]

section First

variable (P : List α → α → Prop)

/-- No place of the text has the property. -/
def Never (as : List α) : Prop := ∀ p a q, as = p ++ a :: q → ¬ P p a

variable {P}

theorem never_nil : Never P ([] : List α) := by
  rintro p a q h
  cases p <;> cases h

theorem never_concat {as : List α} {a : α} : Never P (as ++ [a]) ↔ Never P as ∧ ¬ P as a := by
  constructor
  · intro h
    refine ⟨fun p b q hsplit => h p b (q ++ [a]) (by simp [hsplit]), h as a [] rfl⟩
  · rintro ⟨h, ha⟩ p b q hsplit
    rcases List.eq_nil_or_concat q with rfl | ⟨q, c, rfl⟩
    · obtain ⟨rfl, hb⟩ := List.append_inj' hsplit rfl
      obtain rfl := (List.cons.inj hb).1
      exact ha
    · refine h p b q ?_
      rw [List.concat_eq_append, ← List.cons_append, ← List.append_assoc] at hsplit
      exact (List.append_inj' hsplit rfl).1

/-- The first place that has the property, if there is one. -/
theorem exists_first (as : List α) :
    Never P as ∨ ∃ p a q, as = p ++ a :: q ∧ P p a ∧ Never P p := by
  induction as using List.reverseRecOn with
  | nil => exact .inl never_nil
  | append_singleton as a ih =>
      rcases ih with h | ⟨p, b, q, rfl, hb, hp⟩
      · by_cases ha : P as a
        · exact .inr ⟨as, a, [], rfl, ha, h⟩
        · exact .inl (never_concat.mpr ⟨h, ha⟩)
      · exact .inr ⟨p, b, q ++ [a], by simp, hb, hp⟩

/-- Symbols that never have the property, whatever was read before. -/
theorem Never.append {as bs : List α} (h : Never P as) (hb : ∀ b ∈ bs, ∀ p, ¬ P p b) :
    Never P (as ++ bs) := by
  induction bs using List.reverseRecOn with
  | nil => rwa [List.append_nil]
  | append_singleton bs b ih =>
      rw [← List.append_assoc]
      exact never_concat.mpr
        ⟨ih fun c hc => hb c (List.mem_append_left _ hc), hb b (by simp) _⟩

end First

end NjuOs.Lib
