import NjuOs.Lib.Bytes
import Mathlib.Data.List.GetD

/-!
The window of a terminal, as `curses` writes to it.

The cells are numbered row by row, and a text goes on in the next row where one ends.
`addstr` fails outside of the window, and also at its last cell, behind which there is no
place for the cursor. `Window.Shows` says what can be read in the rows, and `Shows.addstr`
what one more text adds.
-/

namespace NjuOs.Lib

structure Window where
  height : Nat
  width : Nat
  cells : Nat → UInt8

/-- A text, with blanks behind it. -/
def pad (width : Nat) (text : Bytes) : Bytes := text ++ List.replicate (width - text.length) space

namespace Window

/-- `clear` -/
def clear (w : Window) : Window := { w with cells := fun _ => space }

/-- The cells with a text from one of them on. -/
def put (w : Window) (start : Nat) (text : Bytes) : Window :=
  { w with cells := fun p => if start ≤ p then text.getD (p - start) (w.cells p) else w.cells p }

/-- `addstr` of printable characters; `none` is `curses.error`. -/
def addstr (w : Window) (y x : Nat) (text : Bytes) : Option Window :=
  if y < w.height ∧ x < w.width ∧
      (text = [] ∨ y * w.width + x + text.length < w.height * w.width) then
    some (w.put (y * w.width + x) text)
  else none

/-- What stands in a row. -/
def row (w : Window) (y : Nat) : Bytes :=
  (List.range w.width).map fun x => w.cells (y * w.width + x)

/-- The window holds these texts, row by row, and nothing below them. -/
def Shows (w : Window) (texts : List Bytes) : Prop :=
  ∀ y < w.height, w.row y = pad w.width (texts.getD y [])

variable {w : Window} {texts : List Bytes} {text : Bytes} {y : Nat}

theorem row_clear (w : Window) (y : Nat) : w.clear.row y = pad w.width [] := by
  rw [row, pad, List.nil_append, List.length_nil, Nat.sub_zero]
  exact List.eq_replicate_iff.mpr ⟨by simp [clear], by simp [clear]⟩

/-- The row in which a text begins. -/
theorem row_put_self (h : text.length ≤ w.width) :
    (w.put (y * w.width) text).row y = text ++ (w.row y).drop text.length := by
  refine List.ext_getElem (by simp [row, put, h]) fun x hx hx' => ?_
  simp only [row, put, List.getElem_map, List.getElem_range, Nat.le_add_right, if_true,
    Nat.add_sub_cancel_left]
  by_cases hlt : x < text.length
  · rw [List.getD_eq_getElem _ _ hlt, List.getElem_append_left hlt]
  · have hle := Nat.not_lt.mp hlt
    rw [List.getD_eq_default _ _ hle, List.getElem_append_right hle]
    simp only [List.getElem_drop, List.getElem_map, List.getElem_range, Nat.add_sub_cancel' hle]

/-- A text that fits in its row leaves the others. -/
theorem row_put_of_ne (h : text.length ≤ w.width) {z : Nat} (hz : z ≠ y) :
    (w.put (y * w.width) text).row z = w.row z := by
  refine List.map_congr_left fun x hx => ?_
  rw [List.mem_range] at hx
  dsimp only [put] at hx ⊢
  split
  case isTrue hle =>
    -- the cell is in a row below, so it is behind the text
    refine List.getD_eq_default _ _ ?_
    have hlt : y < z := by
      by_contra hnot
      have hmul := Nat.mul_le_mul_right w.width (Nat.succ_le_of_lt (Nat.lt_of_le_of_ne
        (Nat.not_lt.mp hnot) hz))
      rw [Nat.succ_mul] at hmul
      omega
    have hmul := Nat.mul_le_mul_right w.width (Nat.succ_le_of_lt hlt)
    rw [Nat.succ_mul] at hmul
    omega
  case isFalse => rfl

theorem shows_clear (w : Window) : w.clear.Shows [] := fun y _ => row_clear w y

/-- The next row may stay empty. -/
theorem Shows.skip (h : w.Shows texts) : w.Shows (texts ++ [[]]) := by
  intro y hy
  rw [h y hy]
  rcases Nat.lt_or_ge y texts.length with hlt | hge
  · rw [List.getD_append _ _ _ _ hlt]
  · rw [List.getD_append_right _ _ _ _ hge, List.getD_eq_default _ _ hge]
    cases y - texts.length <;> rfl

/-- **A text in the next row** is shown in it, and the other rows stay. -/
theorem Shows.addstr (h : w.Shows texts) (y : Nat) (text : Bytes) (hnext : texts.length = y)
    (hrow : y < w.height) (hroom : y + 1 < w.height ∨ text.length < w.width)
    (hpos : 0 < w.width) (htext : text.length ≤ w.width) :
    ∃ w', w.addstr y 0 text = some w' ∧ w'.height = w.height ∧ w'.width = w.width ∧
      w'.Shows (texts ++ [text]) := by
  subst hnext
  have hbefore : texts.length * w.width + 0 + text.length < w.height * w.width := by
    have hmul := Nat.mul_le_mul_right w.width (Nat.succ_le_of_lt hrow)
    rw [Nat.succ_mul] at hmul
    rcases hroom with hlt | hlt
    · have hnext := Nat.mul_le_mul_right w.width (Nat.succ_le_of_lt hlt)
      rw [Nat.succ_mul, Nat.succ_mul] at hnext
      omega
    · omega
  refine ⟨w.put (texts.length * w.width) text, ?_, rfl, rfl, fun y hy => ?_⟩
  · rw [Window.addstr, if_pos ⟨hrow, hpos, .inr hbefore⟩, Nat.add_zero]
  · rcases Nat.lt_trichotomy y texts.length with hlt | rfl | hgt
    · rw [row_put_of_ne htext (Nat.ne_of_lt hlt), List.getD_append _ _ _ _ hlt, h y hy]
      rfl
    · rw [row_put_self htext, h _ hy, List.getD_eq_default _ _ (Nat.le_refl _),
        List.getD_append_right _ _ _ _ (Nat.le_refl _), Nat.sub_self, pad, pad, List.nil_append,
        List.drop_replicate]
      rfl
    · rw [row_put_of_ne htext (Nat.ne_of_gt hgt), h y hy,
        List.getD_eq_default _ _ (Nat.le_of_lt hgt), List.getD_eq_default]
      · rfl
      · rw [List.length_append, List.length_singleton]
        exact hgt

/-- Several texts, one in each row. -/
theorem Shows.addLines (lines : List Bytes) :
    ∀ {w : Window} {texts : List Bytes}, w.Shows texts → texts.length + lines.length < w.height →
      0 < w.width → (∀ line ∈ lines, line.length ≤ w.width) →
      ∃ w', (lines.zipIdx texts.length).foldlM
          (fun (w : Window) (line : Bytes × Nat) => w.addstr line.2 0 line.1) w = some w' ∧
        w'.height = w.height ∧ w'.width = w.width ∧ w'.Shows (texts ++ lines) := by
  induction lines with
  | nil => exact fun {w texts} h _ _ _ => ⟨w, rfl, rfl, rfl, by rwa [List.append_nil]⟩
  | cons line lines ih =>
      intro w texts h hheight hpos hlines
      rw [List.length_cons] at hheight
      obtain ⟨w₁, hadd, hheight₁, hwidth₁, hshows₁⟩ :=
        h.addstr _ line rfl (by omega) (.inl (by omega)) hpos (hlines line List.mem_cons_self)
      have hlen : (texts ++ [line]).length = texts.length + 1 := by
        rw [List.length_append, List.length_singleton]
      obtain ⟨w₂, hrest, hheight₂, hwidth₂, hshows₂⟩ := ih hshows₁ (by omega) (by omega)
        fun l hl => hwidth₁.symm ▸ hlines l (List.mem_cons_of_mem _ hl)
      refine ⟨w₂, ?_, hheight₂.trans hheight₁, hwidth₂.trans hwidth₁, ?_⟩
      · rw [List.zipIdx_cons, List.foldlM_cons]
        dsimp only
        rw [hadd, ← hlen]
        exact hrest
      · rwa [List.append_assoc, List.singleton_append] at hshows₂

end Window

end NjuOs.Lib
