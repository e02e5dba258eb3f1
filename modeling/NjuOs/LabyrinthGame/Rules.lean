import NjuOs.LabyrinthGame.Files
import Mathlib.Logic.Equiv.Basic

/-!
The rules of the game, and what they keep.

`Rule` is a key press of a player that is on the map. What is left of a map after any
number of them is `Rearranged`: some cells of players and empty cells have changed
places, and nothing else has.
-/

namespace NjuOs.LabyrinthGame

open NjuOs.Lib

/-- A player goes to the next cell, if it is empty. -/
inductive Rule (c dir : UInt8) (l : Labyrinth) : Labyrinth → Prop where
  | moves (p q : Cell) (hfirst : l.First c p) (htoward : Toward dir p q) (hempty : l.map q = dot) :
      Rule c dir l ((l.set q c).set p dot)
  | stays (p : Cell) (hfirst : l.First c p) (hblocked : ∀ q, Toward dir p q → l.map q ≠ dot) :
      Rule c dir l l

/-- A call for a player that is on the map follows the rule. -/
theorem Outcome.rule {l l' : Labyrinth} {c : UInt8} {dir : CString} {ret : Ret}
    (h : Outcome l c (some dir) ret l') (hpresent : ¬ l.Absent c) :
    Rule c (firstChar dir) l l' := by
  cases h with
  | full habsent _ => exact absurd habsent hpresent
  | placed p habsent _ => exact absurd habsent hpresent
  | stayed p _ hnone => cases hnone
  | blocked p dir' message hfirst hsome hblocked =>
      obtain rfl := Option.some.inj hsome
      exact .stays p hfirst hblocked
  | moved p q dir' hfirst hsome htoward hempty =>
      obtain rfl := Option.some.inj hsome
      exact .moves p q hfirst htoward hempty

/-- Without a direction, only a player that is not on the map changes it. -/
theorem Outcome.eq_of_present {l l' : Labyrinth} {c : UInt8} {ret : Ret}
    (h : Outcome l c none ret l') (hpresent : ¬ l.Absent c) : l' = l := by
  cases h with
  | placed p habsent _ => exact absurd habsent hpresent
  | full | stayed => rfl
  | blocked p dir message _ hsome _ => cases hsome
  | moved p q dir _ hsome _ _ => cases hsome

/-! ### Rearranged maps -/

/-- Cells with movable characters have changed places. -/
structure Rearranged (movable : UInt8 → Prop) (l l' : Labyrinth) : Prop where
  rows : l'.rows = l.rows
  cols : l'.cols = l.cols
  perm : ∃ σ : Equiv.Perm Cell, (∀ p, l'.map p = l.map (σ p)) ∧
    ∀ p, σ p ≠ p → l.Inside p ∧ movable (l.map p)

namespace Rearranged

variable {movable : UInt8 → Prop} {l l' l'' : Labyrinth}

theorem refl (l : Labyrinth) : Rearranged movable l l :=
  ⟨rfl, rfl, Equiv.refl Cell, fun _ => rfl, fun _ h => absurd rfl h⟩

theorem trans (h : Rearranged movable l l') (h' : Rearranged movable l' l'') :
    Rearranged movable l l'' := by
  obtain ⟨σ, hmap, hmoved⟩ := h.perm
  obtain ⟨τ, hmap', hmoved'⟩ := h'.perm
  refine ⟨h'.rows.trans h.rows, h'.cols.trans h.cols, τ.trans σ, fun p => ?_, fun p hp => ?_⟩
  · rw [hmap', hmap, Equiv.trans_apply]
  · by_cases hσ : σ p = p
    · -- the cell itself is as in the first map
      have hτ : τ p ≠ p := fun hτ => hp (by rw [Equiv.trans_apply, hτ, hσ])
      obtain ⟨hin, hmov⟩ := hmoved' p hτ
      rw [hmap, hσ] at hmov
      rw [Labyrinth.Inside, h.rows, h.cols] at hin
      exact ⟨hin, hmov⟩
    · exact hmoved p hσ

theorem mono {movable' : UInt8 → Prop} (hmono : ∀ c, movable c → movable' c)
    (h : Rearranged movable l l') : Rearranged movable' l l' := by
  obtain ⟨σ, hmap, hmoved⟩ := h.perm
  exact ⟨h.rows, h.cols, σ, hmap, fun p hp => ⟨(hmoved p hp).1, hmono _ (hmoved p hp).2⟩⟩

/-- Two cells that change places. -/
theorem swap {p q : Cell} (hp : l.Inside p) (hpmov : movable (l.map p)) (hq : l.Inside q)
    (hqmov : movable (l.map q)) :
    Rearranged movable l ((l.set q (l.map p)).set p (l.map q)) := by
  refine ⟨rfl, rfl, Equiv.swap p q, fun r => ?_, fun r hr => ?_⟩
  · by_cases hrp : r = p
    · rw [hrp, Labyrinth.set_self, Equiv.swap_apply_left]
    · rw [Labyrinth.set_of_ne _ hrp]
      by_cases hrq : r = q
      · rw [hrq, Labyrinth.set_self, Equiv.swap_apply_right]
      · rw [Labyrinth.set_of_ne _ hrq, Equiv.swap_apply_of_ne_of_ne hrp hrq]
  · by_cases hrp : r = p
    · exact hrp ▸ ⟨hp, hpmov⟩
    · by_cases hrq : r = q
      · exact hrq ▸ ⟨hq, hqmov⟩
      · exact absurd (Equiv.swap_apply_of_ne_of_ne hrp hrq) hr

/-- A cell that has changed holds what another movable cell did. -/
theorem plays (hmovable : ∀ c, movable c → IsDigit c ∨ c = dot) (h : Rearranged movable l l') :
    Plays l l' where
  rows := h.rows
  cols := h.cols
  cell p := by
    obtain ⟨σ, hmap, hmoved⟩ := h.perm
    by_cases hp : σ p = p
    · exact .inl (by rw [hmap, hp])
    · -- what comes to the cell has been moved as well
      have hfrom : σ (σ p) ≠ σ p := fun heq => hp (σ.injective heq)
      refine .inr ⟨(played_ne (hmovable _ (hmoved p hp).2)).1, ?_⟩
      rw [hmap]
      exact hmovable _ (hmoved _ hfrom).2

/-- Who is on the map stays on it, and nobody else appears. -/
theorem absent_iff (h : Rearranged movable l l') (c : UInt8) : l'.Absent c ↔ l.Absent c := by
  obtain ⟨σ, hmap, hmoved⟩ := h.perm
  have hinside : ∀ p, l'.Inside p ↔ l.Inside p := fun p => by
    rw [Labyrinth.Inside, Labyrinth.Inside, h.rows, h.cols]
  have hσ : ∀ p, l.Inside (σ p) ↔ l.Inside p := fun p => by
    by_cases hp : σ p = p
    · rw [hp]
    · exact iff_of_true (hmoved _ fun heq => hp (σ.injective heq)).1 (hmoved p hp).1
  constructor
  · intro habsent p hp
    rw [← σ.apply_symm_apply p] at hp ⊢
    rw [← hmap]
    exact habsent _ ((hinside _).mpr ((hσ _).mp hp))
  · intro habsent p hp
    rw [hmap]
    exact habsent _ ((hσ p).mpr ((hinside p).mp hp))

end Rearranged

/-- The player and an empty cell change places. -/
theorem Rule.rearranged {l l' : Labyrinth} (hl : Playable l) {c dir : UInt8} (hc : IsDigit c)
    (h : Rule c dir l l') : Rearranged (fun b => b = c ∨ b = dot) l l' := by
  cases h with
  | stays p hfirst hblocked => exact .refl l
  | moves p q hfirst htoward hempty =>
      have hwall : l.map p ≠ wall := hfirst.map_eq ▸ hc.ne_wall
      have hq : l.Inside q := hl.toward_inside hfirst.inside hwall htoward
      have hswap : Rearranged (fun b => b = c ∨ b = dot) l
          ((l.set q (l.map p)).set p (l.map q)) :=
        .swap hfirst.inside (.inl hfirst.map_eq) hq (.inr hempty)
      rwa [hfirst.map_eq, hempty] at hswap

end NjuOs.LabyrinthGame
