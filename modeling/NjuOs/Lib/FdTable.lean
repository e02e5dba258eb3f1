import Mathlib.Data.List.Basic

/-!
The descriptor table of a process.

`alloc` gives out the lowest unused number, as POSIX requires, and `close` frees
a number, whatever it denotes at that time. `dup2` makes a number denote what another
one denotes.
-/

namespace NjuOs.Lib

/-- What each descriptor number denotes; numbers past the end are unused. -/
structure FdTable (α : Type) where
  slots : List (Option α)
deriving DecidableEq

namespace FdTable

variable {α : Type}

def get (t : FdTable α) (fd : Nat) : Option α := (t.slots[fd]?).getD none

/-- The lowest unused number. -/
def lowest (t : FdTable α) : Nat := t.slots.findIdx Option.isNone

def alloc (t : FdTable α) (a : α) : FdTable α :=
  ⟨if t.lowest < t.slots.length then t.slots.set t.lowest (some a) else t.slots ++ [some a]⟩

def close (t : FdTable α) (fd : Nat) : FdTable α := ⟨t.slots.set fd none⟩

/-- `dup2` to a number that is in use. -/
def dup2 (t : FdTable α) (fd fd' : Nat) : FdTable α :=
  match t.get fd with
  | some a => ⟨t.slots.set fd' (some a)⟩
  | none => t

/-- Some number denotes `a`. -/
def holds [DecidableEq α] (t : FdTable α) (a : α) : Bool := t.slots.contains (some a)

theorem exists_get_of_holds [DecidableEq α] {t : FdTable α} {a : α} (h : t.holds a = true) :
    ∃ fd, t.get fd = some a := by
  rw [holds, List.contains_iff_mem, List.mem_iff_getElem?] at h
  obtain ⟨fd, hfd⟩ := h
  exact ⟨fd, by rw [get, hfd, Option.getD_some]⟩

theorem get_lowest (t : FdTable α) : t.get t.lowest = none := by
  by_cases h : t.lowest < t.slots.length
  · have := List.findIdx_getElem (w := h)
    rw [get, List.getElem?_eq_getElem h, Option.getD_some]
    exact Option.isNone_iff_eq_none.mp this
  · rw [get, List.getElem?_eq_none (Nat.le_of_not_lt h), Option.getD_none]

theorem get_alloc (t : FdTable α) (a : α) (fd : Nat) :
    (t.alloc a).get fd = if fd = t.lowest then some a else t.get fd := by
  have hle : t.lowest ≤ t.slots.length := List.findIdx_le_length
  by_cases h : t.lowest < t.slots.length
  · have halloc : (t.alloc a).slots = t.slots.set t.lowest (some a) := if_pos h
    rw [get, halloc, List.getElem?_set]
    by_cases hfd : t.lowest = fd
    · rw [if_pos hfd, if_pos hfd.symm, if_pos h, Option.getD_some]
    · rw [if_neg hfd, if_neg (Ne.symm hfd), get]
  · have halloc : (t.alloc a).slots = t.slots ++ [some a] := if_neg h
    have heq : t.lowest = t.slots.length := Nat.le_antisymm hle (Nat.le_of_not_lt h)
    rw [get, halloc, heq]
    by_cases hfd : fd = t.slots.length
    · simp [hfd]
    · rw [if_neg hfd, get]
      by_cases hlt : fd < t.slots.length
      · rw [List.getElem?_append_left hlt]
      · rw [List.getElem?_eq_none (by simp; omega), List.getElem?_eq_none (Nat.le_of_not_lt hlt)]

@[simp] theorem get_alloc_lowest (t : FdTable α) (a : α) : (t.alloc a).get t.lowest = some a := by
  rw [get_alloc, if_pos rfl]

/-- A used number keeps its meaning when another one is given out. -/
theorem get_alloc_of_some {t : FdTable α} {fd : Nat} {b : α} (h : t.get fd = some b) (a : α) :
    (t.alloc a).get fd = some b := by
  rw [get_alloc, if_neg, h]
  rintro rfl
  rw [t.get_lowest] at h
  cases h

theorem get_close (t : FdTable α) (fd fd' : Nat) :
    (t.close fd).get fd' = if fd' = fd then none else t.get fd' := by
  rw [get, close, List.getElem?_set]
  by_cases h : fd = fd'
  · subst h
    rw [if_pos rfl, if_pos rfl]
    split <;> rfl
  · rw [if_neg h, if_neg (Ne.symm h), get]

/-- Closing a number leaves the numbers that denote something else alone. -/
theorem get_close_of_ne {t : FdTable α} {fd fd' : Nat} {a b : α} (ha : t.get fd = some a)
    (hb : t.get fd' = some b) (hne : b ≠ a) : (t.close fd).get fd' = some b := by
  rw [get_close, if_neg, hb]
  rintro rfl
  exact hne (Option.some.inj (hb.symm.trans ha))

/-! ### Who closes what -/

/-- A step of a thread that was to close the numbers `before` and is then to close
`after`. Another thread may have closed a number of `before` in the meantime, and it may
have been given out again. -/
structure Use (t t' : FdTable α) (before after : List Nat) : Prop where
  /-- Only unused numbers are taken on. -/
  taken : ∀ fd ∈ after, fd ∈ before ∨ t.get fd = none
  /-- What is in use afterwards was in use and is not given up, or is to be closed. -/
  used : ∀ fd, t'.get fd ≠ none → (t.get fd ≠ none ∧ (fd ∈ before → fd ∈ after)) ∨ fd ∈ after
  others : ∀ fd, fd ∉ before → t.get fd ≠ none → t'.get fd = t.get fd

namespace Use

variable {t t' t'' : FdTable α} {before between after : List Nat}

theorem refl (t : FdTable α) (before : List Nat) : Use t t before before where
  taken _ h := .inl h
  used _ h := .inl ⟨h, id⟩
  others _ _ _ := rfl

theorem alloc (t : FdTable α) (a : α) (before : List Nat) :
    Use t (t.alloc a) before (t.lowest :: before) where
  taken fd hfd := by
    rcases List.mem_cons.mp hfd with rfl | hfd
    · exact .inr t.get_lowest
    · exact .inl hfd
  used fd hfd := by
    rw [get_alloc] at hfd
    split_ifs at hfd with hlowest
    · exact .inr (hlowest ▸ List.mem_cons_self)
    · exact .inl ⟨hfd, List.mem_cons_of_mem _⟩
  others fd _ hused := by
    rw [get_alloc, if_neg]
    rintro rfl
    exact hused t.get_lowest

/-- The number that is closed need not be closed again. -/
theorem close (t : FdTable α) {fd : Nat} (hfd : fd ∈ before) (hsub : after ⊆ before)
    (hrest : ∀ x ∈ before, x = fd ∨ x ∈ after) : Use t (t.close fd) before after where
  taken x hx := .inl (hsub hx)
  used x hx := by
    rw [get_close] at hx
    split_ifs at hx with heq
    · exact absurd rfl hx
    · exact .inl ⟨hx, fun hmem => (hrest x hmem).resolve_left heq⟩
  others x hx _ := by
    rw [get_close, if_neg]
    rintro rfl
    exact hx hfd

theorem trans (h : Use t t' before between) (h' : Use t' t'' between after) :
    Use t t'' before after := by
  have hnew : ∀ fd ∈ between, fd ∈ before ∨ t.get fd = none := h.taken
  refine ⟨fun fd hfd => ?_, fun fd hfd => ?_, fun fd hbefore hused => ?_⟩
  · by_cases hbefore : fd ∈ before
    · exact .inl hbefore
    · by_cases hused : t.get fd = none
      · exact .inr hused
      · rcases h'.taken fd hfd with hbetween | hfree
        · exact hnew fd hbetween
        · exact absurd ((h.others fd hbefore hused).symm.trans hfree) hused
  · rcases h'.used fd hfd with ⟨hused, hkept⟩ | hafter
    · rcases h.used fd hused with ⟨hused₀, hkept₀⟩ | hbetween
      · exact .inl ⟨hused₀, fun hbefore => hkept (hkept₀ hbefore)⟩
      · exact .inr (hkept hbetween)
    · exact .inr hafter
  · have hfirst := h.others fd hbefore hused
    have hbetween : fd ∉ between := fun hmem => (hnew fd hmem).elim hbefore hused
    exact (h'.others fd hbetween (hfirst ▸ hused)).trans hfirst

end Use

end FdTable

end NjuOs.Lib
