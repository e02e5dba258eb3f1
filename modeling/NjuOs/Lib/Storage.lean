import Mathlib.Logic.Function.Basic
import NjuOs.Lib.Bytes

/-!
Arrays of bytes that are not assigned before the program does it.

To read a byte that was not assigned, or to leave the array, is a `Misuse`. Every
operation has one rule for each of its outcomes; `copyInto_ok` says what is copied
and that nothing else is changed, and `stringAt_append` follows the reading of a
string across a part whose content is known.
-/

namespace NjuOs.Lib

inductive Misuse where
  | unassigned
  | outside
deriving DecidableEq, Repr

/-- What an array holds; `none` was not assigned. -/
abbrev Storage := Nat → Option UInt8

/-- Storage of which nothing was assigned. -/
def Storage.fresh : Storage := fun _ => none

/-- The value of a variable. -/
def assigned {α : Type} : Option α → Except Misuse α
  | some a => .ok a
  | none => .error .unassigned

section Operations

variable (size : Nat)

def store (a : Storage) (i : Nat) (b : UInt8) : Except Misuse Storage :=
  if i < size then .ok (Function.update a i (some b)) else .error .outside

/-- Bytes are stored one behind the other. -/
def copyInto (a : Storage) (i : Nat) : Bytes → Except Misuse Storage
  | [] => .ok a
  | b :: bs => do copyInto (← store size a i b) (i + 1) bs

/-- The string that starts at `i`, when `n` bytes are left in the array. -/
def stringFrom (a : Storage) : Nat → Nat → Except Misuse Bytes
  | _, 0 => .error .outside
  | i, n + 1 => do
      let b ← assigned (a i)
      if b = 0 then pure [] else (b :: ·) <$> stringFrom a (i + 1) n

def stringAt (a : Storage) (i : Nat) : Except Misuse Bytes := stringFrom a i (size - i)

end Operations

/-- The array holds these bytes from `i` on. -/
def Contains (a : Storage) : Nat → Bytes → Prop
  | _, [] => True
  | i, b :: bs => a i = some b ∧ Contains a (i + 1) bs

section Rules

variable {size i j : Nat} {a : Storage} {b : UInt8} {bs cs : Bytes}

@[simp] theorem ok_bind {α β : Type} (x : α) (f : α → Except Misuse β) :
    (Except.ok x >>= f) = f x := rfl

@[simp] theorem error_bind {α β : Type} (e : Misuse) (f : α → Except Misuse β) :
    (Except.error e >>= f) = .error e := rfl

/-- What a part of a computation has returned. -/
theorem exists_of_bind_ok {α β : Type} {x : Except Misuse α} {f : α → Except Misuse β} {y : β}
    (h : (x >>= f) = .ok y) : ∃ z, x = .ok z ∧ f z = .ok y := by
  cases x with
  | error e => cases h
  | ok z => exact ⟨z, rfl, h⟩

theorem exists_of_map_ok {α β : Type} {x : Except Misuse α} {f : α → β} {y : β}
    (h : f <$> x = .ok y) : ∃ z, x = .ok z ∧ f z = y := by
  cases x with
  | error e => cases h
  | ok z => exact ⟨z, rfl, Except.ok.inj h⟩

theorem store_ok (h : i < size) (a : Storage) (b : UInt8) :
    store size a i b = .ok (Function.update a i (some b)) := if_pos h

theorem store_outside (h : size ≤ i) (a : Storage) (b : UInt8) :
    store size a i b = .error .outside := if_neg (Nat.not_lt.mpr h)

/-! ### Content -/

theorem contains_append :
    Contains a i (bs ++ cs) ↔ Contains a i bs ∧ Contains a (i + bs.length) cs := by
  induction bs generalizing i with
  | nil => simp [Contains]
  | cons b bs ih =>
      rw [List.cons_append, Contains, Contains, ih, List.length_cons, and_assoc, Nat.add_assoc,
        Nat.add_comm 1]

theorem contains_congr {a' : Storage} (h : ∀ j, i ≤ j → j < i + bs.length → a' j = a j) :
    Contains a' i bs ↔ Contains a i bs := by
  induction bs generalizing i with
  | nil => rfl
  | cons b bs ih =>
      rw [List.length_cons] at h
      rw [Contains, Contains, h i le_rfl (by omega),
        ih fun j hij hj => h j (by omega) (by omega)]

/-- A store elsewhere. -/
theorem contains_update (h : j < i ∨ i + bs.length ≤ j) (b : Option UInt8) :
    Contains (Function.update a j b) i bs ↔ Contains a i bs :=
  contains_congr fun k hik hk => Function.update_of_ne (show k ≠ j by omega) b a

/-! ### Copying -/

/-- What is copied, and that nothing else changes. -/
theorem copyInto_ok (h : i + bs.length ≤ size) (a : Storage) :
    ∃ a', copyInto size a i bs = .ok a' ∧ Contains a' i bs ∧
      ∀ j, j < i ∨ i + bs.length ≤ j → a' j = a j := by
  induction bs generalizing a i with
  | nil => exact ⟨a, rfl, trivial, fun j _ => rfl⟩
  | cons b bs ih =>
      rw [List.length_cons] at h
      obtain ⟨a', hcopy, hbytes, hrest⟩ :=
        @ih (i + 1) (by omega) (Function.update a i (some b))
      refine ⟨a', ?_, ⟨?_, hbytes⟩, fun j hj => ?_⟩
      · rw [copyInto, store_ok (by omega), ok_bind, hcopy]
      · rw [hrest i (by omega), Function.update_self]
      · rw [List.length_cons] at hj
        rw [hrest j (by omega), Function.update_of_ne (by omega)]

theorem copyInto_outside (hi : i ≤ size) (h : size < i + bs.length) (a : Storage) :
    copyInto size a i bs = .error .outside := by
  induction bs generalizing a i with
  | nil => exact absurd h (Nat.not_lt.mpr hi)
  | cons b bs ih =>
      rw [List.length_cons] at h
      rw [copyInto]
      rcases hi.lt_or_eq with hlt | rfl
      · rw [store_ok hlt, ok_bind, ih hlt (by omega)]
      · rw [store_outside le_rfl, error_bind]

/-! ### Strings -/

theorem stringAt_outside (h : size ≤ i) (a : Storage) : stringAt size a i = .error .outside := by
  rw [stringAt, Nat.sub_eq_zero_of_le h]
  rfl

theorem stringAt_step (h : i < size) (a : Storage) :
    stringAt size a i = (do
      let b ← assigned (a i)
      if b = 0 then pure [] else (b :: ·) <$> stringAt size a (i + 1)) := by
  have hleft : size - i = size - (i + 1) + 1 := by omega
  rw [stringAt, hleft, stringFrom, stringAt]

theorem stringAt_unassigned (h : i < size) (ha : a i = none) :
    stringAt size a i = .error .unassigned := by
  rw [stringAt_step h, ha]
  rfl

theorem stringAt_nul (h : i < size) (ha : a i = some 0) : stringAt size a i = .ok [] := by
  rw [stringAt_step h, ha]
  rfl

theorem stringAt_cons (h : i < size) (ha : a i = some b) (hb : b ≠ 0) :
    stringAt size a i = (b :: ·) <$> stringAt size a (i + 1) := by
  rw [stringAt_step h, ha, assigned, ok_bind, if_neg hb]

/-- The string goes on behind bytes without a NUL. -/
theorem stringAt_append (h : Contains a i bs) (hnul : 0 ∉ bs) (hsize : i + bs.length ≤ size) :
    stringAt size a i = (bs ++ ·) <$> stringAt size a (i + bs.length) := by
  induction bs generalizing i with
  | nil => simp
  | cons b bs ih =>
      rw [List.mem_cons, not_or] at hnul
      rw [List.length_cons] at hsize ⊢
      rw [stringAt_cons (by omega) h.1 (Ne.symm hnul.1), ih h.2 hnul.2 (by omega),
        Nat.add_right_comm, ← Nat.add_assoc]
      simp only [Functor.map_map, List.cons_append]

/-- A string and its NUL. -/
theorem stringAt_terminated (h : Contains a i (bs ++ 0 :: cs)) (hnul : 0 ∉ bs)
    (hsize : i + bs.length < size) : stringAt size a i = .ok bs := by
  obtain ⟨hbytes, hend, -⟩ := contains_append.mp h
  rw [stringAt_append hbytes hnul hsize.le, stringAt_nul hsize hend]
  simp only [Functor.map, Except.map, List.append_nil]

/-- The array holds a string and its NUL. -/
theorem contains_of_stringAt (h : stringAt size a i = .ok bs) :
    Contains a i (bs ++ [0]) ∧ 0 ∉ bs ∧ i + bs.length < size := by
  induction hleft : size - i generalizing i bs with
  | zero =>
      rw [stringAt_outside (Nat.le_of_sub_eq_zero hleft)] at h
      cases h
  | succ n ih =>
      have hi : i < size := by omega
      cases ha : a i with
      | none =>
          rw [stringAt_unassigned hi ha] at h
          cases h
      | some b =>
          by_cases hb : b = 0
          · subst hb
            rw [stringAt_nul hi ha] at h
            cases h
            exact ⟨⟨ha, trivial⟩, List.not_mem_nil, hi⟩
          · rw [stringAt_cons hi ha hb] at h
            obtain ⟨rest, hrest, rfl⟩ := exists_of_map_ok h
            obtain ⟨hbytes, hnul, hlt⟩ := ih hrest (by omega)
            refine ⟨⟨ha, hbytes⟩, List.not_mem_cons_of_ne_of_not_mem (Ne.symm hb) hnul, ?_⟩
            rw [List.length_cons]
            omega

/-! ### From the start of an array -/

theorem stringAt_start (h : Contains a 0 (bs ++ 0 :: cs)) (hnul : 0 ∉ bs)
    (hsize : bs.length < size) : stringAt size a 0 = .ok bs :=
  stringAt_terminated h hnul ((Nat.zero_add _).trans_lt hsize)

/-- Where the string ends, with an array that ends behind it. -/
theorem stringAt_start_end (h : stringAt size a 0 = .ok bs) :
    a bs.length = some 0 ∧ bs.length < size := by
  obtain ⟨hbytes, -, hlt⟩ := contains_of_stringAt h
  obtain ⟨-, hend, -⟩ := contains_append.mp hbytes
  rw [Nat.zero_add] at hend hlt
  exact ⟨hend, hlt⟩

/-- Known bytes are the whole string when they end with a NUL. -/
theorem stringAt_start_iff (h : Contains a 0 bs) (hnul : 0 ∉ bs) (hsize : bs.length < size) :
    stringAt size a 0 = .ok bs ↔ a bs.length = some 0 := by
  refine ⟨fun hstring => (stringAt_start_end hstring).1, fun hend => ?_⟩
  have hbytes : Contains a 0 (bs ++ [0]) :=
    contains_append.mpr ⟨h, by rwa [Nat.zero_add], trivial⟩
  exact stringAt_start hbytes hnul hsize

/-- An array that is filled from its start. -/
theorem copyInto_start (h : bs.length ≤ size) (a : Storage) :
    ∃ a', copyInto size a 0 bs = .ok a' ∧ Contains a' 0 bs ∧
      ∀ j, bs.length ≤ j → a' j = a j := by
  obtain ⟨a', hcopy, hbytes, hrest⟩ := copyInto_ok ((Nat.zero_add _).trans_le h) a
  rw [Nat.zero_add] at hrest
  exact ⟨a', hcopy, hbytes, fun j hj => hrest j (.inr hj)⟩

end Rules

end NjuOs.Lib
