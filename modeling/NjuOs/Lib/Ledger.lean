import NjuOs.Lib.Tiling
import Mathlib.Logic.Function.Basic

/-!
A ledger of memory blocks: where each block is, and how long it is.

A `Ledger P hdr unit` carries the proof that its blocks, a header of `hdr` bytes
and a payload each, tile its regions, and that they start and end on multiples
of `unit`. `grow`, `split` and `move` are the ways to make a new ledger, so
everything that an allocator does in these three steps keeps the tiling.
-/

namespace NjuOs.Lib

/-- The regions, the places of the blocks in them, and the lengths of the payloads. -/
structure Ledger (P : Type) (hdr unit : Nat) where
  regions : List Region
  place : Nat → Option P
  size : Nat → Nat
  tiling : Tiling regions (fun b => place b ≠ none) (fun b => hdr + size b)
  aligned : ∀ b, place b ≠ none → unit ∣ b ∧ unit ∣ size b

namespace Ledger

variable {P : Type} {hdr unit : Nat}

/-- No region yet. -/
def empty : Ledger P hdr unit where
  regions := []
  place _ := none
  size _ := 0
  tiling := (Tiling.empty _).congr (fun _ => iff_of_false (fun h => h rfl) id) fun _ _ => rfl
  aligned _ h := absurd rfl h

variable (l : Ledger P hdr unit)

/-- Blocks change places; none appears or goes away. -/
def move (place' : Nat → Option P) (h : ∀ b, place' b = none ↔ l.place b = none) :
    Ledger P hdr unit where
  regions := l.regions
  place := place'
  size := l.size
  tiling := l.tiling.congr (fun b => not_congr (h b)) fun _ _ => rfl
  aligned b hb := l.aligned b (mt (h b).mpr hb)

/-- A block changes its place. -/
def put (b : Nat) (p : P) (hb : l.place b ≠ none) : Ledger P hdr unit :=
  l.move (Function.update l.place b (some p)) fun c => by
    by_cases hc : c = b
    · subst hc
      simpa using hb
    · rw [Function.update_of_ne hc]

/-- A new region comes in as one block. -/
def grow (r : Region) (p : P) (hlen : hdr ≤ r.len) (hpos : 0 < r.len)
    (hfresh : ∀ r' ∈ l.regions, r.Apart r') (hunit : unit ∣ r.start ∧ unit ∣ r.len - hdr) :
    Ledger P hdr unit where
  regions := l.regions ++ [r]
  place := Function.update l.place r.start (some p)
  size := Function.update l.size r.start (r.len - hdr)
  tiling := by
    refine (l.tiling.append hpos hfresh).congr (fun b => ?_) fun b _ => ?_
    · by_cases hb : b = r.start <;> simp [hb]
    · by_cases hb : b = r.start
      · subst hb
        simp only [Function.update_self, if_true]
        omega
      · simp [hb]
  aligned b hb := by
    by_cases heq : b = r.start
    · subst heq
      simpa using hunit
    · rw [Function.update_of_ne heq] at hb ⊢
      exact l.aligned b hb

/-- A block keeps `m` bytes, and the rest of its payload becomes a block. -/
def split (b m : Nat) (p : P) (hb : l.place b ≠ none) (hm : m + hdr ≤ l.size b) (hhdr : 0 < hdr)
    (hunit : unit ∣ hdr ∧ unit ∣ m) : Ledger P hdr unit where
  regions := l.regions
  place := Function.update l.place (b + (hdr + m)) (some p)
  size := Function.update (Function.update l.size (b + (hdr + m)) (l.size b - (hdr + m))) b m
  tiling := by
    have hne : b + (hdr + m) ≠ b := by omega
    refine (l.tiling.split hb (m := hdr + m) (by omega) (by omega)).congr (fun c => ?_)
      fun c _ => ?_
    · by_cases hc : c = b + (hdr + m) <;> simp [hc]
    · by_cases hcb : c = b
      · subst hcb
        simp
      · by_cases hc : c = b + (hdr + m)
        · subst hc
          simp only [Function.update_of_ne hne, Function.update_self, if_neg hne, if_true]
          omega
        · simp [hcb, hc]
  aligned c hc := by
    obtain ⟨hstart, hsize⟩ := l.aligned b hb
    have hcut : unit ∣ hdr + m := Nat.dvd_add hunit.1 hunit.2
    have hne : b + (hdr + m) ≠ b := by omega
    by_cases hnew : c = b + (hdr + m)
    · subst hnew
      rw [Function.update_of_ne hne, Function.update_self]
      exact ⟨Nat.dvd_add hstart hcut, Nat.dvd_sub hsize hcut⟩
    · rw [Function.update_of_ne hnew] at hc
      by_cases hcb : c = b
      · subst hcb
        simpa using ⟨hstart, hunit.2⟩
      · simpa [hcb, hnew] using l.aligned c hc

/-! ### What a ledger knows -/

variable {l}

@[simp] theorem put_size {b : Nat} {p : P} {hb : l.place b ≠ none} :
    (l.put b p hb).size = l.size := rfl

theorem put_place_eq_some {b c : Nat} {p q : P} {hb : l.place b ≠ none} :
    (l.put b p hb).place c = some q ↔ c = b ∧ q = p ∨ c ≠ b ∧ l.place c = some q := by
  by_cases hc : c = b
  · simp [put, move, hc, eq_comm]
  · simp [put, move, hc]

theorem put_place_eq_none {b c : Nat} {p : P} {hb : l.place b ≠ none} :
    (l.put b p hb).place c = none ↔ l.place c = none := by
  by_cases hc : c = b
  · subst hc
    simp [put, move, hb]
  · simp [put, move, hc]

/-- The blocks do not overlap. -/
theorem apart {b c : Nat} (hb : l.place b ≠ none) (hc : l.place c ≠ none) (hne : b ≠ c) :
    b + (hdr + l.size b) ≤ c ∨ c + (hdr + l.size c) ≤ b := l.tiling.apart hb hc hne

/-- Where a region is about to come in, there is no block. -/
theorem fresh_start {r : Region} (hpos : 0 < r.len) (hfresh : ∀ r' ∈ l.regions, r.Apart r') :
    l.place r.start = none := by
  by_contra hb
  have hext := l.tiling.pos _ hb
  obtain ⟨r', hr', hle, hlt⟩ := l.tiling.inside _ hb
  rcases hfresh r' hr' with hap | hap <;> omega

/-- Inside a block there is no other one. -/
theorem fresh_split {b m : Nat} (hb : l.place b ≠ none) (hm : 0 < m) (hlt : m < hdr + l.size b) :
    l.place (b + m) = none := by
  by_contra hc
  have hext := l.tiling.pos _ hc
  rcases apart hb hc (by omega) with hap | hap <;> omega

end Ledger

end NjuOs.Lib
