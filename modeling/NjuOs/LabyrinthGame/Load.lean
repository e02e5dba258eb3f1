import NjuOs.LabyrinthGame.SaveLoad

/-!
`loadMap` on any file.

The function sees a file in pieces of at most 100 bytes, which it takes for lines.
`loadLoop_loaded` is what it makes of them: with the widths of the pieces it is said
when the file is accepted, and when a row is stored behind the last one. From it
come `load_safe_iff`, for the stores, and `load_exact_iff`, for the map.
-/

namespace NjuOs.LabyrinthGame

open NjuOs.Lib

/-! ### Pieces of a file -/

/-- The characters of a piece that are stored. -/
def chars (piece : Bytes) : Bytes := piece.takeWhile fun c => decide (c ≠ newline ∧ c ≠ 0)

/-- The rows that `loadMap` sees. -/
def rowsOf (file : Bytes) : List Bytes := (pieces maxMap (by decide) file).map chars

def widths (file : Bytes) : List Nat := (rowsOf file).map List.length

/-- All widths are the same, but for empty rows at the start; `cols` is the width
so far, or 0. -/
def Level : Nat → List Nat → Prop
  | _, [] => True
  | cols, w :: ws => (cols = 0 ∨ cols = w) ∧ Level w ws

/-- The row behind the last one has characters, and no row before it is rejected. -/
def Behind (rows cols : Nat) (ws : List Nat) : Prop :=
  Level cols (ws.take (100 - rows)) ∧ ∃ w ∈ ws[100 - rows]?, 0 < w

theorem chars_clean (piece : Bytes) : Clean (chars piece) := by
  have h : ∀ c ∈ chars piece, c ≠ newline ∧ c ≠ 0 := fun c hc => by
    simpa using List.mem_takeWhile_imp hc
  exact ⟨fun hc => (h _ hc).1 rfl, fun hc => (h _ hc).2 rfl⟩

/-- Behind the characters there is a newline, a terminator or nothing. -/
theorem chars_append (piece : Bytes) :
    ∃ tail, piece = chars piece ++ tail ∧ ∀ c ∈ tail.head?, c = newline ∨ c = 0 := by
  refine ⟨_, List.takeWhile_append_dropWhile.symm, fun c hc => ?_⟩
  have hstop := List.head?_dropWhile_not (fun c => decide (c ≠ newline ∧ c ≠ 0)) piece
  rw [Option.mem_def.mp hc] at hstop
  simp only [decide_eq_false_iff_not] at hstop
  tauto

theorem chars_eq {line : Bytes} (h : Clean line) {tail : Bytes}
    (htail : ∀ c ∈ tail.head?, c = newline ∨ c = 0) : chars (line ++ tail) = line := by
  have hline : ∀ c ∈ line, decide (c ≠ newline ∧ c ≠ 0) = true := fun c hc =>
    decide_eq_true ⟨fun heq => h.1 (heq ▸ hc), fun heq => h.2 (heq ▸ hc)⟩
  rw [chars, List.takeWhile_append_of_pos hline]
  cases tail with
  | nil => simp
  | cons c tail =>
      have hc := htail c rfl
      rw [List.takeWhile_cons_of_neg, List.append_nil]
      rw [decide_eq_true_iff]
      tauto

/-! ### The inner loop -/

/-- A row inside the array. -/
theorem copyLine_inside (l : Labyrinth) {row : Nat} (hrow : row < 100) {piece : Bytes}
    (hlen : (chars piece).length ≤ 100) :
    copyLine l row 0 piece =
      some (l.storeLine row 0 (chars piece), some (chars piece).length) := by
  obtain ⟨tail, hpiece, htail⟩ := chars_append piece
  have hcopy : copyLine l row 0 (chars piece ++ tail) =
      some (l.storeLine row 0 (chars piece), some (0 + (chars piece).length)) :=
    copyLine_spec (chars_clean piece) htail hrow (by unfold maxCols; omega)
  rwa [← hpiece, Nat.zero_add] at hcopy

/-- The row behind the array is stored to as soon as it has a character. -/
theorem copyLine_behind (l : Labyrinth) (piece : Bytes) :
    copyLine l 100 0 piece = if chars piece = [] then some (l, some 0) else none := by
  cases piece with
  | nil => rfl
  | cons c piece =>
      by_cases hc : c = newline ∨ c = 0
      · have hchars : chars (c :: piece) = [] := @chars_eq [] ⟨by simp, by simp⟩ (c :: piece)
          fun d hd => by rwa [← Option.some.inj hd]
        rw [copyLine, if_pos hc, if_pos hchars]
      · have hchars : chars (c :: piece) = c :: chars piece :=
          List.takeWhile_cons_of_pos (decide_eq_true (not_or.mp hc))
        have hwrite : l.write (100 : Nat) (0 : Nat) c = none := by
          rw [Labyrinth.write, cellAt, dif_neg (by decide), Option.map_none]
        rw [copyLine, if_neg hc, if_neg (by decide), hwrite, Option.bind_none, hchars,
          if_neg (List.cons_ne_nil _ _)]

/-! ### The outer loop -/

/-- What `loadLoop` makes of the rows that it sees. -/
inductive Loaded (l : Labyrinth) (rows cols : Nat) (lines : List Bytes) :
    Option (Ret × Labyrinth) → Prop where
  | accepted (hlevel : Level cols (lines.map List.length)) (hrows : rows + lines.length ≤ 100) :
      Loaded l rows cols lines (some (Ret.ok,
        { l.storeLines rows lines with
          rows := rows + lines.length, cols := (lines.map List.length).getLastD cols }))
  | rejected (message : String) (l' : Labyrinth)
      (hbad : ¬ (Level cols (lines.map List.length) ∧ rows + lines.length ≤ 100))
      (hin : ¬ Behind rows cols (lines.map List.length)) :
      Loaded l rows cols lines (some (Ret.fail message, l'))
  | behind (hbehind : Behind rows cols (lines.map List.length)) : Loaded l rows cols lines none

/-- A row of a fitting width, before the last one. -/
theorem Loaded.cons {l : Labyrinth} {rows cols : Nat} {line : Bytes} {lines : List Bytes}
    {result : Option (Ret × Labyrinth)} (hrows : rows < 100) (hcols : cols = 0 ∨ cols = line.length)
    (h : Loaded (l.storeLine rows 0 line) (rows + 1) line.length lines result) :
    Loaded l rows cols (line :: lines) result := by
  have hlevel : Level cols ((line :: lines).map List.length) ↔
      Level line.length (lines.map List.length) := and_iff_right hcols
  have hlen : rows + (line :: lines).length = rows + 1 + lines.length := by
    rw [List.length_cons]
    omega
  have hbehind : Behind rows cols ((line :: lines).map List.length) ↔
      Behind (rows + 1) line.length (lines.map List.length) := by
    have hsub : 100 - rows = (100 - (rows + 1)) + 1 := by omega
    rw [Behind, Behind, hsub, List.map_cons, List.take_succ_cons, List.getElem?_cons_succ]
    exact and_congr_left fun _ => and_iff_right hcols
  cases h with
  | accepted hl hr =>
      have hlast : ((line :: lines).map List.length).getLastD cols =
          (lines.map List.length).getLastD line.length := by
        rw [List.map_cons, List.getLastD_cons]
      have hacc := Loaded.accepted (l := l) (hlevel.mpr hl) (hlen.symm ▸ hr)
      rwa [hlast, hlen] at hacc
  | rejected message l' hbad hin =>
      exact .rejected message l' (by rwa [hlevel, hlen]) (by rwa [hbehind])
  | behind h => exact .behind (hbehind.mpr h)

/-- One pass of the loop. -/
theorem loadLoop_piece {file piece rest : Bytes} (hget : fgets maxMap file = some (piece, rest))
    (hlen : (chars piece).length ≤ 100)
    (ih : ∀ {l : Labyrinth} {rows cols : Nat}, rows ≤ 100 → cols ≤ 100 →
      Loaded l rows cols (rowsOf rest) (loadLoop l rows cols rest))
    {l : Labyrinth} {rows cols : Nat} (hrows : rows ≤ 100) :
    Loaded l rows cols (rowsOf file) (loadLoop l rows cols file) := by
  have hrowsOf : rowsOf file = chars piece :: rowsOf rest := by
    rw [rowsOf, pieces_cons hget, List.map_cons, rowsOf]
  rw [hrowsOf]
  by_cases hlast : rows = 100
  · -- all rows are used
    subst hlast
    have hfull : ¬ (Level cols ((chars piece :: rowsOf rest).map List.length) ∧
        100 + (chars piece :: rowsOf rest).length ≤ 100) := by
      rintro ⟨-, h⟩
      rw [List.length_cons] at h
      omega
    by_cases hempty : chars piece = []
    · have hin : ¬ Behind 100 cols ((chars piece :: rowsOf rest).map List.length) := by
        rintro ⟨-, w, hw, hpos⟩
        rw [hempty] at hw
        obtain rfl : 0 = w := Option.some.inj hw
        exact absurd hpos (Nat.lt_irrefl 0)
      rw [loadLoop, hget]
      simp only [copyLine_behind, if_pos hempty]
      by_cases hcols : cols ≠ 0 ∧ cols ≠ 0
      · rw [if_pos hcols]
        exact .rejected _ _ hfull hin
      · rw [if_neg hcols, if_pos (by omega)]
        exact .rejected _ _ hfull hin
    · rw [loadLoop, hget]
      simp only [copyLine_behind, if_neg hempty]
      exact .behind ⟨trivial, _, rfl, List.length_pos_iff.mpr hempty⟩
  · have hlt : rows < 100 := by omega
    rw [loadLoop, hget]
    simp only [copyLine_inside l hlt hlen]
    by_cases hcols : cols = 0 ∨ cols = (chars piece).length
    · rw [if_neg (by omega), if_neg (by omega)]
      have hnew : (if cols = 0 then (chars piece).length else cols) = (chars piece).length := by
        split <;> omega
      rw [hnew]
      exact .cons hlt hcols (ih (by omega) hlen)
    · rw [if_pos (by omega)]
      refine .rejected _ _ (fun h => hcols h.1.1) fun h => hcols ?_
      have hsub : 100 - rows = (100 - (rows + 1)) + 1 := by omega
      have hlevel := h.1
      rw [hsub, List.map_cons, List.take_succ_cons] at hlevel
      exact hlevel.1

theorem length_chars_le (piece : Bytes) : (chars piece).length ≤ piece.length :=
  (List.takeWhile_sublist _).length_le

theorem loadLoop_end {l : Labyrinth} {rows cols : Nat} (hrows : rows ≤ 100) (hcols : cols ≤ 100) :
    Loaded l rows cols (rowsOf []) (loadLoop l rows cols []) := by
  have hempty : rowsOf [] = [] := by rw [rowsOf, pieces_nil, List.map_nil]
  have hend : fgets maxMap [] = none := rfl
  rw [hempty, loadLoop, hend]
  simp only [hrows, hcols, and_self, if_true]
  exact .accepted trivial hrows

/-- **`loadMap` on any file**: the rows are accepted, or one of them is rejected, or
the row behind the last one is stored to. -/
theorem loadLoop_loaded (file : Bytes) :
    ∀ {l : Labyrinth} {rows cols : Nat}, rows ≤ 100 → cols ≤ 100 →
      Loaded l rows cols (rowsOf file) (loadLoop l rows cols file) := by
  have hmax : maxMap = 101 := rfl
  have hsize : 2 ≤ maxMap := by decide
  induction file using pieces_induction hsize with
  | nil => exact fun {l rows cols} hrows hcols => loadLoop_end hrows hcols
  | line line rest h hlen ih =>
      intro l rows cols hrows _
      have hshort := (length_chars_le (line ++ [newline])).trans_eq (List.length_append ..)
      refine loadLoop_piece (fgets_line h hlen rest) ?_ ih hrows
      rw [List.length_singleton] at hshort
      omega
  | cut line rest h hlen ih =>
      intro l rows cols hrows _
      have hne : line ≠ [] := fun heq => by
        rw [heq, List.length_nil] at hlen
        omega
      exact loadLoop_piece (fgets_cut h hne hlen rest) ((length_chars_le line).trans (by omega)) ih
        hrows
  | last line h hne hlen =>
      intro l rows cols hrows _
      exact loadLoop_piece (fgets_last h hne hlen) ((length_chars_le line).trans (by omega))
        loadLoop_end hrows

/-! ### Rows and lines -/

theorem rowsOf_piece {line : Bytes} (hline : newline ∉ line) (hlen : line.length < 100)
    (rest : Bytes) :
    rowsOf (line ++ newline :: rest) = chars (line ++ [newline]) :: rowsOf rest := by
  rw [rowsOf, pieces_line hline (by unfold maxMap; omega), List.map_cons, rowsOf]

section

variable {line : Bytes} (hline : newline ∉ line) (hnul : (0 : UInt8) ∉ line)

include hline hnul

theorem rowsOf_line (hlen : line.length < 100) (rest : Bytes) :
    rowsOf (line ++ newline :: rest) = line :: rowsOf rest := by
  rw [rowsOf_piece hline hlen, chars_eq ⟨hline, hnul⟩ (by simp)]

theorem rowsOf_cut (hlen : line.length = 100) (rest : Bytes) :
    rowsOf (line ++ rest) = line :: rowsOf rest := by
  have hchars : chars (line ++ []) = line := chars_eq ⟨hline, hnul⟩ (by simp)
  rw [List.append_nil] at hchars
  rw [rowsOf, pieces_cut hline (by rw [hlen]; rfl), List.map_cons, hchars, rowsOf]

theorem rowsOf_last (hne : line ≠ []) (hlen : line.length < 100) : rowsOf line = [line] := by
  have hchars : chars (line ++ []) = line := chars_eq ⟨hline, hnul⟩ (by simp)
  rw [List.append_nil] at hchars
  rw [rowsOf, pieces_last hline hne (by unfold maxMap; omega), List.map_singleton, hchars]

end

@[simp] theorem rowsOf_nil : rowsOf [] = [] := by rw [rowsOf, pieces_nil, List.map_nil]

/-- Rows of one width are lines, if no line is longer than a row. -/
theorem rowsOf_eq_linesOf {file : Bytes} (hnul : (0 : UInt8) ∉ file) :
    ∀ {cols : Nat}, Level cols (widths file) → (∀ line ∈ linesOf file, line.length ≤ 100) →
      rowsOf file = linesOf file := by
  have hmax : maxMap = 101 := rfl
  have hsize : 2 ≤ maxMap := by decide
  induction file using pieces_induction hsize with
  | nil => exact fun {_} _ _ => rowsOf_nil
  | line line rest h hlen ih =>
      intro cols hlevel hshort
      rw [List.mem_append, not_or] at hnul
      have hrows := rowsOf_line h hnul.1 (by omega) rest
      rw [linesOf_line h] at hshort ⊢
      rw [widths, hrows] at hlevel
      rw [hrows, ih (fun h0 => hnul.2 (List.mem_cons_of_mem _ h0)) hlevel.2
        (List.forall_mem_cons.mp hshort).2]
  | cut line rest h hlen ih =>
      intro cols hlevel hshort
      rw [List.mem_append, not_or] at hnul
      have hne : line ≠ [] := fun heq => by
        rw [heq, List.length_nil] at hlen
        omega
      have hrows := rowsOf_cut h hnul.1 (by omega) rest
      rcases linesOf_cut h hne rest with ⟨rfl, hlines⟩ | ⟨head, lines, hrest, hlines⟩
      · rw [hrows, hlines, rowsOf_nil]
      · exfalso
        rw [hlines] at hshort
        have hhead := (List.forall_mem_cons.mp hshort).1
        rw [List.length_append] at hhead
        -- the line ends with the piece, so a row without characters follows
        obtain rfl : head = [] := List.length_eq_zero_iff.mp (by omega)
        obtain ⟨rest, rfl⟩ := eq_newline_of_linesOf hrest
        have hempty : rowsOf (newline :: rest) = [] :: rowsOf rest :=
          @rowsOf_line [] (by simp) (by simp) (by decide) rest
        rw [widths, hrows, hempty] at hlevel
        have hzero := hlevel.2.1
        rw [List.length_nil] at hzero
        omega
  | last line h hne hlen =>
      intro cols _ _
      rw [linesOf_last h hne, rowsOf_last h hnul hne (by omega)]

/-! ### Stores -/

/-- The rows fit in the map and agree in width. -/
def Accepted (file : Bytes) : Prop := Level 0 (widths file) ∧ (widths file).length ≤ 100

/-- The first 100 rows are accepted, and row 101 has characters. -/
def RowBehind (file : Bytes) : Prop := Behind 0 0 (widths file)

/-- More lines than the map has rows, or a line that is longer than a row of it. -/
def TooLarge (file : Bytes) : Prop :=
  maxRows < (linesOf file).length ∨ ∃ line ∈ linesOf file, maxCols < line.length

/-- `loadMap` stores inside the array only, and returns false for a file that is too
large. -/
def LoadSafe (l : Labyrinth) (file : Bytes) : Prop :=
  ∃ ret l', loadMap l (some file) = some (ret, l') ∧ (TooLarge file → ret.value = false)

theorem RowBehind.not_accepted {file : Bytes} (h : RowBehind file) : ¬ Accepted file := by
  rintro ⟨-, hlen⟩
  obtain ⟨-, w, hw, -⟩ := h
  have hlt := (List.getElem?_eq_some_iff.mp hw).1
  omega

/-- The map that an accepted file gives. -/
def loaded (l : Labyrinth) (file : Bytes) : Labyrinth :=
  { l.storeLines 0 (rowsOf file) with
    rows := (rowsOf file).length, cols := (widths file).getLastD 0 }

theorem loadMap_cases (l : Labyrinth) (file : Bytes) :
    Accepted file ∧ loadMap l (some file) = some (Ret.ok, loaded l file) ∨
      ¬ Accepted file ∧ ¬ RowBehind file ∧
        (∃ message l', loadMap l (some file) = some (Ret.fail message, l')) ∨
      RowBehind file ∧ loadMap l (some file) = none := by
  have hloaded := @loadLoop_loaded file l 0 0 (Nat.zero_le _) (Nat.zero_le _)
  have haccepted : Level 0 ((rowsOf file).map List.length) ∧ 0 + (rowsOf file).length ≤ 100 ↔
      Accepted file := by
    rw [Accepted, widths, List.length_map, Nat.zero_add]
  rw [loadMap]
  generalize loadLoop l 0 0 file = result at hloaded ⊢
  cases hloaded with
  | accepted hlevel hrows =>
      refine .inl ⟨haccepted.mp ⟨hlevel, hrows⟩, ?_⟩
      simp only [Nat.zero_add, loaded, widths]
  | rejected message l' hbad hin =>
      exact .inr (.inl ⟨mt haccepted.mpr hbad, hin, message, l', rfl⟩)
  | behind hbehind => exact .inr (.inr ⟨hbehind, rfl⟩)

theorem Accepted.length_linesOf_le {file : Bytes} (h : Accepted file) :
    (linesOf file).length ≤ 100 := by
  have hrows := h.2
  rw [widths, rowsOf, List.length_map, List.length_map] at hrows
  exact (NjuOs.Lib.length_linesOf_le _ file).trans hrows

/-- **The stores are in the map** unless the row behind it has characters, and a file
that is too large is rejected unless a long line is cut into equal rows. -/
theorem load_safe_iff (l : Labyrinth) (file : Bytes) :
    LoadSafe l file ↔ ¬ RowBehind file ∧
      ¬ (Accepted file ∧ ∃ line ∈ linesOf file, maxCols < line.length) := by
  rcases loadMap_cases l file with
    ⟨hacc, hload⟩ | ⟨hbad, hin, message, l', hload⟩ | ⟨hbehind, hload⟩
  · have hlarge : TooLarge file ↔ ∃ line ∈ linesOf file, maxCols < line.length :=
      or_iff_right (Nat.not_lt.mpr hacc.length_linesOf_le)
    have hin : ¬ RowBehind file := fun h => h.not_accepted hacc
    simp only [LoadSafe, hload, Option.some.injEq, Prod.mk.injEq, hlarge, hacc, hin,
      not_false_eq_true, true_and]
    constructor
    · rintro ⟨ret, l', ⟨rfl, -⟩, h⟩ hlong
      cases h hlong
    · intro h
      exact ⟨_, _, ⟨rfl, rfl⟩, fun hlong => absurd hlong h⟩
  · exact iff_of_true ⟨_, _, hload, fun _ => rfl⟩ ⟨hin, fun h => hbad h.1⟩
  · refine iff_of_false ?_ fun h => h.1 hbehind
    rintro ⟨ret, l', hsome, -⟩
    cases hload.symm.trans hsome

theorem level_replicate (w n : Nat) : Level w (List.replicate n w) := by
  induction n with
  | zero => trivial
  | succ n ih => exact ⟨.inr rfl, ih⟩

theorem rowsOf_unlines {lines : List Bytes} (h : ∀ line ∈ lines, Clean line ∧ line.length < 100) :
    rowsOf (unlines lines) = lines := by
  induction lines with
  | nil => exact rowsOf_nil
  | cons line lines ih =>
      obtain ⟨hclean, hlen⟩ := h line List.mem_cons_self
      have hsplit : unlines (line :: lines) = line ++ newline :: unlines lines := by simp [unlines]
      rw [hsplit, rowsOf_line hclean.1 hclean.2 hlen,
        ih fun line hl => h line (List.mem_cons_of_mem _ hl)]

/-- A map of 101 rows is stored to the end before it is rejected. -/
theorem load_row_behind : ¬ LoadSafe (field 0 0) (unlines (List.replicate 101 [dot])) := by
  have hclean : Clean [dot] := ⟨by decide, by decide⟩
  have hwidths : widths (unlines (List.replicate 101 [dot])) = List.replicate 101 1 := by
    rw [widths, rowsOf_unlines, List.map_replicate, List.length_singleton]
    intro line hline
    rw [List.eq_of_mem_replicate hline]
    exact ⟨hclean, by decide⟩
  have hbehind : RowBehind (unlines (List.replicate 101 [dot])) := by
    rw [RowBehind, hwidths]
    refine ⟨?_, 1, ?_, Nat.one_pos⟩
    · rw [List.take_replicate]
      exact ⟨.inl rfl, level_replicate 1 99⟩
    · exact List.getElem?_replicate_of_lt (by decide)
  rintro ⟨ret, l', hload, -⟩
  rcases loadMap_cases (field 0 0) (unlines (List.replicate 101 [dot])) with
    ⟨hacc, -⟩ | ⟨-, hin, -⟩ | ⟨-, hnone⟩
  · exact hbehind.not_accepted hacc
  · exact hin hbehind
  · cases hload.symm.trans hnone

/-! ### The map -/

/-- The map is the file: a row for each line, and a cell for each of its characters. -/
structure Exact (file : Bytes) (l : Labyrinth) : Prop where
  rows : l.rows = (linesOf file).length
  cols : ∀ line ∈ linesOf file, line.length = l.cols
  cell : ∀ p, l.Inside p → ∃ text, (linesOf file)[p.1.val]? = some text ∧
    text[p.2.val]? = some (l.map p)

/-- Whatever the map held before, it is the file when `loadMap` returns true. -/
def LoadsExactly (l : Labyrinth) (file : Bytes) : Prop :=
  ∀ ret l', loadMap l (some file) = some (ret, l') → ret.value = true → Exact file l'

/-- A line is cut, or there are empty lines and others. -/
def Misread (file : Bytes) : Prop :=
  (∃ line ∈ linesOf file, maxCols < line.length) ∨
    [] ∈ linesOf file ∧ ∃ line ∈ linesOf file, line ≠ []

theorem Level.eq_of_ne_zero {w : Nat} {ws : List Nat} (hw : w ≠ 0) (h : Level w ws) :
    ∀ x ∈ ws, x = w := by
  induction ws with
  | nil => exact fun x hx => absurd hx List.not_mem_nil
  | cons v ws ih =>
      obtain rfl := h.1.resolve_left hw
      exact List.forall_mem_cons.mpr ⟨rfl, ih h.2⟩

/-- Without empty rows before others, the last width is that of all rows. -/
theorem Level.eq_getLastD {ws : List Nat} (h : Level 0 ws)
    (hpure : (∀ w ∈ ws, w = 0) ∨ ∀ w ∈ ws, w ≠ 0) : ∀ w ∈ ws, w = ws.getLastD 0 := by
  have hall : ∃ v, ∀ w ∈ ws, w = v := by
    rcases hpure with hzero | hpos
    · exact ⟨0, hzero⟩
    · cases ws with
      | nil => exact ⟨0, fun w hw => absurd hw List.not_mem_nil⟩
      | cons v ws =>
          exact ⟨v, List.forall_mem_cons.mpr
            ⟨rfl, Level.eq_of_ne_zero (hpos v List.mem_cons_self) h.2⟩⟩
  obtain ⟨v, hv⟩ := hall
  intro w hw
  cases ws with
  | nil => cases hw
  | cons x ws =>
      have hlast : (x :: ws).getLastD 0 ∈ x :: ws := by
        rw [List.getLastD_cons]
        exact List.getLastD_mem_cons
      rw [hv w hw, hv _ hlast]

theorem exact_loaded (l : Labyrinth) {file : Bytes} (hnul : (0 : UInt8) ∉ file)
    (hacc : Accepted file) (h : ¬ Misread file) : Exact file (loaded l file) := by
  obtain ⟨hshort, hpure⟩ := not_or.mp h
  have hlines : rowsOf file = linesOf file :=
    rowsOf_eq_linesOf hnul hacc.1 fun line hline =>
      Nat.not_lt.mp fun hlong => hshort ⟨line, hline, hlong⟩
  have hcols : ∀ line ∈ linesOf file, line.length = (loaded l file).cols := by
    intro line hline
    refine hacc.1.eq_getLastD ?_ line.length ?_
    · rw [widths, hlines]
      by_cases hempty : [] ∈ linesOf file
      · refine .inl fun w hw => ?_
        obtain ⟨line', hline', rfl⟩ := List.mem_map.mp hw
        by_contra hne
        exact hpure ⟨hempty, line', hline', mt List.length_eq_zero_iff.mpr hne⟩
      · refine .inr fun w hw h0 => ?_
        obtain ⟨line', hline', rfl⟩ := List.mem_map.mp hw
        exact hempty (List.length_eq_zero_iff.mp h0 ▸ hline')
    · rw [widths, hlines]
      exact List.mem_map_of_mem hline
  refine ⟨by rw [← hlines]; rfl, hcols, fun p hp => ?_⟩
  have hrow : p.1.val < (linesOf file).length := by
    rw [← hlines]
    exact hp.1
  have hline := List.getElem?_eq_getElem hrow
  have hcol : p.2.val < (linesOf file)[p.1.val].length := by
    rw [hcols _ (List.getElem_mem hrow)]
    exact hp.2
  refine ⟨_, hline, ?_⟩
  rw [List.getElem?_eq_getElem hcol, Option.some.injEq]
  refine (Labyrinth.storeLines_map _ (Nat.zero_le _) ?_ (List.getElem?_eq_getElem hcol)).symm
  rw [Nat.sub_zero, hlines, hline]

/-- A file that is misread is not the map. -/
theorem Misread.not_exact {file : Bytes} (h : Misread file) (l : Labyrinth) :
    ¬ Exact file (loaded l file) := by
  intro hexact
  rcases h with ⟨line, hline, hlong⟩ | ⟨hempty, line, hline, hne⟩
  · have hcols : (loaded l file).cols ≤ 100 := by
      have hmem : (widths file).getLastD 0 ∈ 0 :: widths file := List.getLastD_mem_cons
      rcases List.mem_cons.mp hmem with hzero | hmem
      · exact hzero.le.trans (Nat.zero_le _)
      · obtain ⟨row, hrow, hlen⟩ := List.mem_map.mp hmem
        obtain ⟨piece, hpiece, rfl⟩ := List.mem_map.mp hrow
        have hlt := length_piece_lt _ _ piece hpiece
        have hle := length_chars_le piece
        simp only [loaded, ← hlen]
        unfold maxMap at hlt
        omega
    rw [hexact.cols line hline] at hlong
    exact absurd hcols (Nat.not_le.mpr hlong)
  · have hzero := hexact.cols [] hempty
    rw [← hexact.cols line hline] at hzero
    exact hne (List.length_eq_zero_iff.mp hzero.symm)

/-- **A loaded map is the file** exactly when the file is not misread, or not accepted. -/
theorem load_exact_iff (l : Labyrinth) {file : Bytes} (hnul : (0 : UInt8) ∉ file) :
    LoadsExactly l file ↔ ¬ (Accepted file ∧ Misread file) := by
  rcases loadMap_cases l file with ⟨hacc, hload⟩ | ⟨hbad, -, message, l', hload⟩ | ⟨hbehind, hload⟩
  · constructor
    · rintro h ⟨-, hmis⟩
      exact hmis.not_exact l (h _ _ hload rfl)
    · intro h ret l' hsome _
      cases hload.symm.trans hsome
      exact exact_loaded l hnul hacc fun hmis => h ⟨hacc, hmis⟩
  · refine iff_of_true (fun ret l'' hsome htrue => ?_) fun h => hbad h.1
    cases hload.symm.trans hsome
    cases htrue
  · refine iff_of_true (fun ret l'' hsome _ => ?_) fun h => hbehind.not_accepted h.1
    cases hload.symm.trans hsome

/-- Two rows of two cells, the last one without a newline. -/
theorem load_exact_two_rows : LoadsExactly (field 0 0) (ascii "#.\n..") := by
  refine (load_exact_iff (field 0 0) (by decide)).mpr ?_
  rintro ⟨-, ⟨line, hline, hlong⟩ | ⟨hempty, -⟩⟩
  · have hshort : ∀ line ∈ linesOf (ascii "#.\n.."), line.length ≤ maxCols := by decide
    exact absurd (hshort line hline) (Nat.not_le.mpr hlong)
  · revert hempty
    decide

/-- An empty line in front of a row of one cell: the first cell is what the memory
held before. -/
theorem load_blank_line : ¬ LoadsExactly (field 0 0) (ascii "\n.") := by
  have hrows : rowsOf (ascii "\n.") = [[], [dot]] := by
    have hlast : rowsOf [dot] = [[dot]] :=
      rowsOf_last (by decide) (by decide) (by decide) (by decide)
    have hfirst : rowsOf ([] ++ newline :: [dot]) = [] :: rowsOf [dot] :=
      rowsOf_line (by decide) (by decide) (by decide) [dot]
    rw [hlast] at hfirst
    exact hfirst
  have hacc : Accepted (ascii "\n.") := by
    rw [Accepted, widths, hrows]
    exact ⟨⟨.inl rfl, .inl rfl, trivial⟩, by decide⟩
  have hmis : Misread (ascii "\n.") := .inr ⟨by decide, [dot], by decide, by decide⟩
  intro h
  rcases loadMap_cases (field 0 0) (ascii "\n.") with ⟨-, hload⟩ | ⟨hbad, -⟩ | ⟨hbehind, -⟩
  · exact hmis.not_exact (field 0 0) (h _ _ hload rfl)
  · exact hbad hacc
  · exact hbehind.not_accepted hacc

end NjuOs.LabyrinthGame
