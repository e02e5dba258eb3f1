import NjuOs.LabyrinthGame.Basic

/-!
Saving a map and loading it again.

`saveMap_spec` is the file that `saveMap` writes, a line for each row, and
`loadLoop_lines` is what `loadMap` makes of such lines when they fit in its
buffer. `save_load_iff` puts them together: the round trip is the identity up to
99 columns. A row of 100 characters fills the buffer, so its newline is read as
a line of its own, of a different width.
-/

namespace NjuOs.LabyrinthGame

open NjuOs.Lib

/-! ### Saving -/

/-- The characters of row `i`. -/
def Labyrinth.line (l : Labyrinth) (i : Nat) : Bytes :=
  (List.range l.cols).map fun j : Nat => (l.read i j).getD 0

@[simp] theorem Labyrinth.length_line (l : Labyrinth) (i : Nat) : (l.line i).length = l.cols := by
  simp [Labyrinth.line]

theorem Labyrinth.line_getElem (l : Labyrinth) (p : Cell) (h : p.2.val < (l.line p.1).length) :
    (l.line p.1)[p.2.val] = l.map p := by simp [Labyrinth.line]

/-- A row without newlines and terminators. -/
def Clean (line : Bytes) : Prop := newline ∉ line ∧ (0 : UInt8) ∉ line

theorem Labyrinth.clean_line {l : Labyrinth} (hcols : l.cols ≤ maxCols)
    (h : ∀ p, l.Inside p → l.map p ≠ newline ∧ l.map p ≠ 0) {i : Nat} (hi : i < l.rows)
    (hrows : l.rows ≤ maxRows) : Clean (l.line i) := by
  have hmem : ∀ c ∈ l.line i, c ≠ newline ∧ c ≠ 0 := by
    intro c hc
    obtain ⟨j, hj, rfl⟩ := List.mem_map.mp hc
    rw [List.mem_range] at hj
    obtain ⟨p, rfl, rfl⟩ := exists_cell (Nat.lt_of_lt_of_le hi hrows) (Nat.lt_of_lt_of_le hj hcols)
    rw [Labyrinth.read_cell, Option.getD_some]
    exact h p ⟨hi, hj⟩
  exact ⟨fun h' => (hmem _ h').1 rfl, fun h' => (hmem _ h').2 rfl⟩

/-- The lines of a file, each with its newline. -/
def unlines (lines : List Bytes) : Bytes := lines.flatMap fun line => line ++ [newline]

theorem mapM_eq_some {α β : Type} {f : α → Option β} {g : α → β} {xs : List α}
    (h : ∀ x ∈ xs, f x = some (g x)) : xs.mapM f = some (xs.map g) := by
  induction xs with
  | nil => rfl
  | cons x xs ih =>
      rw [List.mapM_cons, h x List.mem_cons_self, ih fun y hy => h y (List.mem_cons_of_mem _ hy)]
      rfl

/-- The file that is saved has a line for each row. -/
theorem saveMap_spec {l : Labyrinth} (hrows : l.rows ≤ maxRows) (hcols : l.cols ≤ maxCols)
    (old : Bytes) :
    saveMap l true old = some (Ret.ok, unlines ((List.range l.rows).map l.line)) := by
  have hrow : ∀ i ∈ List.range l.rows, rowChars l i = some (l.line i) := by
    intro i hi
    refine mapM_eq_some fun j hj => ?_
    rw [List.mem_range] at hi hj
    obtain ⟨p, rfl, rfl⟩ := exists_cell (Nat.lt_of_lt_of_le hi hrows) (Nat.lt_of_lt_of_le hj hcols)
    rw [Labyrinth.read_cell, Option.getD_some]
  rw [saveMap, if_pos rfl, mapM_eq_some hrow, Option.map_some]
  rfl

/-! ### Loading -/

/-- The labyrinth with `chars` stored in a row, from a column on. -/
def Labyrinth.storeLine (l : Labyrinth) (row col : Nat) (chars : Bytes) : Labyrinth :=
  { l with map := fun p =>
      if p.1.val = row ∧ col ≤ p.2.val then chars[p.2.val - col]?.getD (l.map p) else l.map p }

theorem Labyrinth.storeLine_nil (l : Labyrinth) (row col : Nat) : l.storeLine row col [] = l := by
  simp [Labyrinth.storeLine]

theorem Labyrinth.storeLine_cons (l : Labyrinth) (p : Cell) (c : UInt8) (chars : Bytes) :
    (l.set p c).storeLine p.1 (p.2 + 1) chars = l.storeLine p.1 p.2 (c :: chars) := by
  simp only [Labyrinth.storeLine, Labyrinth.set, Labyrinth.mk.injEq, and_true]
  funext q
  by_cases hq : q = p
  · subst hq
    simp
  · rw [Function.update_of_ne hq]
    by_cases hrow : q.1.val = p.1.val
    · have hcol : q.2.val ≠ p.2.val := fun h => hq (Prod.ext (Fin.ext hrow) (Fin.ext h))
      by_cases hlt : p.2.val < q.2.val
      · have hsub : q.2.val - p.2.val = (q.2.val - (p.2.val + 1)) + 1 := by omega
        rw [if_pos ⟨hrow, hlt⟩, if_pos ⟨hrow, hlt.le⟩, hsub, List.getElem?_cons_succ]
      · rw [if_neg (by omega), if_neg (by omega)]
    · rw [if_neg (by omega), if_neg (by omega)]

theorem copyLine_spec {chars tail : Bytes} (hclean : Clean chars)
    (htail : ∀ c ∈ tail.head?, c = newline ∨ c = 0) {row : Nat} (hrow : row < maxRows) :
    ∀ {l : Labyrinth} {col : Nat}, col + chars.length ≤ maxCols →
      copyLine l row col (chars ++ tail) =
        some (l.storeLine row col chars, some (col + chars.length)) := by
  induction chars with
  | nil =>
      intro l col _
      rw [l.storeLine_nil]
      cases tail with
      | nil => rfl
      | cons c rest =>
          rw [List.nil_append, copyLine, if_pos (htail c rfl)]
          rfl
  | cons c chars ih =>
      intro l col hcol
      rw [List.length_cons] at hcol
      have hc : ¬ (c = newline ∨ c = 0) := by
        rintro (rfl | rfl)
        · exact hclean.1 List.mem_cons_self
        · exact hclean.2 List.mem_cons_self
      have hle : ¬ col > 100 := by unfold maxCols at hcol; omega
      obtain ⟨p, rfl, rfl⟩ := exists_cell hrow (show col < maxCols by omega)
      rw [List.cons_append, copyLine, if_neg hc, if_neg hle, Labyrinth.write_cell, Option.bind_some,
        ih ⟨fun h => hclean.1 (List.mem_cons_of_mem _ h),
          fun h => hclean.2 (List.mem_cons_of_mem _ h)⟩ (by omega), l.storeLine_cons]
      simp only [List.length_cons, Nat.add_assoc, Nat.add_comm 1]

/-- The labyrinth with `lines` stored from a row on. -/
def Labyrinth.storeLines (l : Labyrinth) (row : Nat) : List Bytes → Labyrinth
  | [] => l
  | line :: lines => (l.storeLine row 0 line).storeLines (row + 1) lines

theorem Labyrinth.storeLines_above (lines : List Bytes) {p : Cell} :
    ∀ {l : Labyrinth} {row : Nat}, p.1.val < row → (l.storeLines row lines).map p = l.map p := by
  induction lines with
  | nil => intro l row _; rfl
  | cons line lines ih =>
      intro l row hp
      rw [Labyrinth.storeLines, ih (by omega)]
      exact if_neg (by omega)

/-- Each cell of the lines holds its character. -/
theorem Labyrinth.storeLines_map (lines : List Bytes) {p : Cell} {chars : Bytes} {c : UInt8} :
    ∀ {l : Labyrinth} {row : Nat}, row ≤ p.1.val → lines[p.1.val - row]? = some chars →
      chars[p.2.val]? = some c → (l.storeLines row lines).map p = c := by
  induction lines with
  | nil => intro l row _ hline; cases hline
  | cons line lines ih =>
      intro l row hrow hline hc
      rw [Labyrinth.storeLines]
      by_cases hp : p.1.val = row
      · rw [hp, Nat.sub_self, List.getElem?_cons_zero, Option.some.injEq] at hline
        subst hline
        rw [Labyrinth.storeLines_above lines (by omega), Labyrinth.storeLine]
        simp only [hp, true_and, Nat.zero_le, if_true, Nat.sub_zero, hc, Option.getD_some]
      · have hsub : p.1.val - row = (p.1.val - (row + 1)) + 1 := by omega
        rw [hsub, List.getElem?_cons_succ] at hline
        exact ih (by omega) hline hc

/-- One pass of the loop over a line that fits in the buffer. -/
theorem loadLoop_line {line : Bytes} (hclean : Clean line) {width : Nat}
    (hlen : line.length = width) (hwidth : width ≤ 99) {row : Nat} (hrow : row < 100)
    {cols : Nat} (hcols : cols = 0 ∨ cols = width) (l : Labyrinth) (rest : Bytes) :
    loadLoop l row cols (line ++ newline :: rest) =
      loadLoop (l.storeLine row 0 line) (row + 1) width rest := by
  have hcopy : copyLine l row 0 (line ++ [newline]) =
      some (l.storeLine row 0 line, some width) := by
    rw [copyLine_spec hclean (by simp) hrow (by unfold maxCols; omega), Nat.zero_add, hlen]
  rw [loadLoop, fgets_line hclean.1 (by unfold maxMap; omega)]
  simp only [hcopy]
  rw [if_neg (by omega), if_neg (by omega)]
  congr 1
  split <;> omega

/-- Loading lines of one width that fit in the buffer. -/
theorem loadLoop_lines {lines : List Bytes} {width : Nat} (hwidth : width ≤ 99)
    (h : ∀ line ∈ lines, Clean line ∧ line.length = width) :
    ∀ {l : Labyrinth} {row cols : Nat}, row + lines.length ≤ 100 → (cols = 0 ∨ cols = width) →
      (lines = [] → cols = width) →
      loadLoop l row cols (unlines lines) =
        some (Ret.ok,
          { l.storeLines row lines with rows := row + lines.length, cols := width }) := by
  induction lines with
  | nil =>
      intro l row cols hrow hcols hnil
      have hend : fgets maxMap (unlines []) = none := rfl
      have hfit : row ≤ 100 ∧ width ≤ 100 := ⟨hrow, by omega⟩
      rw [loadLoop, hend, hnil rfl]
      simp only [hfit, and_self, if_true]
      rfl
  | cons line lines ih =>
      intro l row cols hrow hcols _
      rw [List.length_cons] at hrow
      obtain ⟨hclean, hlen⟩ := h line List.mem_cons_self
      have hsplit : unlines (line :: lines) = line ++ newline :: unlines lines := by simp [unlines]
      rw [hsplit, loadLoop_line hclean hlen hwidth (by omega) hcols,
        ih (fun line hl => h line (List.mem_cons_of_mem _ hl)) (by omega) (.inr rfl) fun _ => rfl]
      simp only [Labyrinth.storeLines, List.length_cons, Nat.add_assoc, Nat.add_comm 1]

/-- A first row of 100 characters leaves its newline in the stream, which is
then read as an empty line. -/
theorem loadLoop_wide {line : Bytes} (hclean : Clean line) (hlen : line.length = 100)
    (l : Labyrinth) (rest : Bytes) :
    ∃ l', loadLoop l 0 0 (line ++ newline :: rest) =
      some (Ret.fail "the maps cols is not same\n", l') := by
  have hcopy : copyLine l 0 0 line = some (l.storeLine 0 0 line, some 100) := by
    have hspec : copyLine l 0 0 (line ++ []) =
        some (l.storeLine 0 0 line, some (0 + line.length)) :=
      copyLine_spec hclean (by simp) (by decide) (by unfold maxCols; omega)
    rwa [List.append_nil, Nat.zero_add, hlen] at hspec
  have hcut : fgets maxMap (line ++ newline :: rest) = some (line, newline :: rest) :=
    fgets_cut hclean.1 (fun h => by rw [h] at hlen; cases hlen) (by rw [hlen]; rfl) _
  have hempty : fgets maxMap (newline :: rest) = some ([newline], rest) :=
    @fgets_line [] (by simp) maxMap (by decide) rest
  rw [loadLoop, hcut]
  simp only [hcopy]
  rw [if_neg (by omega), if_neg (by omega), loadLoop, hempty]
  exact ⟨_, rfl⟩

/-! ### The round trip -/

/-- Loading what is saved succeeds and gives the same map. -/
def RoundTrips (l l₀ : Labyrinth) (old : Bytes) : Prop :=
  ∃ file l', saveMap l true old = some (Ret.ok, file) ∧
    loadMap l₀ (some file) = some (Ret.ok, l') ∧
    l'.rows = l.rows ∧ l'.cols = l.cols ∧ ∀ p, l.Inside p → l'.map p = l.map p

section

variable {l : Labyrinth} (hrows : 1 ≤ l.rows ∧ l.rows ≤ maxRows)
  (h : ∀ p, l.Inside p → l.map p ≠ newline ∧ l.map p ≠ 0)

include hrows h

/-- Rows of 100 characters are not read back: the first one and its newline are
two lines of different widths. -/
theorem not_roundTrips_wide (hcols : l.cols = 100) (l₀ : Labyrinth) (old : Bytes) :
    ¬ RoundTrips l l₀ old := by
  rintro ⟨file, l', hsave, hload, -⟩
  have hle : l.cols ≤ maxCols := hcols.le
  rw [saveMap_spec hrows.2 hle] at hsave
  cases hsave
  obtain ⟨n, hn⟩ : ∃ n, l.rows = n + 1 := ⟨l.rows - 1, by omega⟩
  have hsplit : unlines ((List.range l.rows).map l.line) =
      l.line 0 ++ newline :: unlines ((List.range n).map fun i => l.line (i + 1)) := by
    rw [hn, List.range_succ_eq_map]
    simp [unlines, Function.comp_def]
  obtain ⟨l'', hfail⟩ := loadLoop_wide (l.clean_line hle h (i := 0) (by omega) hrows.2)
    (by rw [l.length_line, hcols]) l₀ (unlines ((List.range n).map fun i => l.line (i + 1)))
  rw [loadMap, hsplit, hfail] at hload
  cases hload

theorem roundTrips_narrow (hcols : 1 ≤ l.cols ∧ l.cols ≤ 99) (l₀ : Labyrinth) (old : Bytes) :
    RoundTrips l l₀ old := by
  have hle : l.cols ≤ maxCols := le_trans hcols.2 (by decide)
  refine ⟨_, _, saveMap_spec hrows.2 hle old,
    loadLoop_lines hcols.2 ?_ ?_ (.inl rfl) ?_, ?_, rfl, ?_⟩
  · intro line hline
    obtain ⟨i, hi, rfl⟩ := List.mem_map.mp hline
    exact ⟨l.clean_line hle h (List.mem_range.mp hi) hrows.2, l.length_line i⟩
  · rw [List.length_map, List.length_range, Nat.zero_add]
    exact hrows.2
  · intro hnil
    have hlen := congrArg List.length hnil
    rw [List.length_map, List.length_range, List.length_nil] at hlen
    omega
  · simp
  · intro p hp
    have hline : ((List.range l.rows).map l.line)[p.1.val - 0]? = some (l.line p.1) := by
      rw [Nat.sub_zero, List.getElem?_map, List.getElem?_range hp.1, Option.map_some]
    refine Labyrinth.storeLines_map _ (Nat.zero_le _) hline ?_
    rw [List.getElem?_eq_getElem (by rw [l.length_line]; exact hp.2), l.line_getElem]

/-- **Saving and loading is the identity** exactly up to 99 columns. -/
theorem save_load_iff (hcols : 1 ≤ l.cols ∧ l.cols ≤ maxCols) (l₀ : Labyrinth) (old : Bytes) :
    RoundTrips l l₀ old ↔ l.cols ≤ 99 := by
  constructor
  · intro hrt
    by_contra hwide
    have hcols' : l.cols = 100 := by unfold maxCols at hcols; omega
    exact not_roundTrips_wide hrows h hcols' l₀ old hrt
  · intro hnarrow
    exact roundTrips_narrow hrows h ⟨hcols.1, hnarrow⟩ l₀ old

end

theorem field_clean (rows cols : Nat) (p : Cell) :
    (field rows cols).map p ≠ newline ∧ (field rows cols).map p ≠ 0 := by
  change dot ≠ newline ∧ dot ≠ 0
  decide

theorem save_load_two_by_three : RoundTrips (field 2 3) (field 0 0) [] :=
  (save_load_iff (l := field 2 3) (by decide) (fun p _ => field_clean 2 3 p) (by decide)
    (field 0 0) []).mpr (by decide)

/-- One row of 100 empty cells is within the limits and is not read back. -/
theorem save_load_wide_fails : ¬ RoundTrips (field 1 100) (field 0 0) [] :=
  not_roundTrips_wide (by decide) (fun p _ => field_clean 1 100 p) rfl _ _

end NjuOs.LabyrinthGame
