import NjuOs.Lib.Search
import NjuOs.LabyrinthGame.Moves
import Mathlib.Data.Fintype.Prod

/-!
`dfs` and `isConnected`.

`dfs_eq` finds the search of the library in `dfs`, over the open neighbours of a
cell, and `isConnected_iff` says what the answer means. The answer is that of the
walls alone (`connected_congr`).
-/

namespace NjuOs.LabyrinthGame

open NjuOs.Lib

/-- The character of a wall, `'#'`. -/
def wall : UInt8 := 35

/-- `bool visited[MAX_ROWS][MAX_COLS]`. -/
abbrev Visited := Cell → Bool

/-- `next[4][2]`. -/
def nextCells (row col : Int) : List (Int × Int) :=
  [(row + 1, col), (row - 1, col), (row, col - 1), (row, col + 1)]

/-- The body of the loop of `dfs`, with `search` for its recursive call. -/
def dfsTurn (labyrinth : Labyrinth) (search : Int → Int → Visited → Option Visited)
    (visited : Visited) (next : Int × Int) : Option Visited :=
  if next.1 ≥ 0 ∧ next.1 < labyrinth.rows then
    if next.2 ≥ 0 ∧ next.2 < labyrinth.cols then
      (cellAt next.1 next.2).bind fun q =>
        if !visited q then
          if labyrinth.map q ≠ wall then search next.1 next.2 visited else some visited
        else some visited
    else some visited
  else some visited

/-- `none` when the calls nest deeper than `depth`, or leave the array. -/
def dfs (labyrinth : Labyrinth) : Nat → Int → Int → Visited → Option Visited
  | 0, _, _, _ => none
  | depth + 1, row, col, visited =>
      (cellAt row col).bind fun p =>
        (nextCells row col).foldlM (dfsTurn labyrinth (dfs labyrinth depth))
          (Function.update visited p true)

/-- The first pair of loops of `isConnected`, which jumps to the search at the
first cell that is not a wall. -/
def findOpen (labyrinth : Labyrinth) : List (Nat × Nat) → Option (Option (Nat × Nat))
  | [] => some none
  | (i, j) :: rest =>
      (labyrinth.read i j).bind fun c =>
        if c ≠ wall then some (some (i, j)) else findOpen labyrinth rest

/-- The second pair of loops, which returns at a cell that the search missed. -/
def allVisited (labyrinth : Labyrinth) (visit : Visited) : List (Nat × Nat) → Option Bool
  | [] => some true
  | (i, j) :: rest =>
      (cellAt i j).bind fun p =>
        if !visit p ∧ labyrinth.map p ≠ wall then some false
        else allVisited labyrinth visit rest

def isConnected (depth : Nat) (labyrinth : Labyrinth) : Option Bool :=
  let cells := rowMajor labyrinth.rows labyrinth.cols
  (findOpen labyrinth cells).bind fun start =>
    match start with
    | none => some false
    | some (x, y) =>
        (dfs labyrinth depth x y fun _ => false).bind fun visit => allVisited labyrinth visit cells

/-- A stack with room for this many calls is enough. -/
def maxDepth : Nat := maxRows * maxCols

/-! ### Connectivity -/

/-- A cell of the used rectangle that is not a wall. -/
def Labyrinth.Open (l : Labyrinth) (p : Cell) : Prop := l.Inside p ∧ l.map p ≠ wall

/-- A path of adjacent open cells. -/
def Labyrinth.Joined (l : Labyrinth) : Cell → Cell → Prop :=
  Relation.ReflTransGen fun p q => Adjacent p q ∧ l.Open q

/-- There is an open cell, and every two of them are joined. -/
def Labyrinth.Connected (l : Labyrinth) : Prop :=
  (∃ p, l.Open p) ∧ ∀ p q, l.Open p → l.Open q → l.Joined p q

instance (l : Labyrinth) (p : Cell) : Decidable (l.Inside p) :=
  inferInstanceAs (Decidable (_ ∧ _))

instance (l : Labyrinth) (p : Cell) : Decidable (l.Open p) := inferInstanceAs (Decidable (_ ∧ _))

/-- Connectivity depends on the walls inside the used rectangle only. -/
theorem connected_congr {l l' : Labyrinth} (h : ∀ p, l'.Open p ↔ l.Open p) :
    l'.Connected ↔ l.Connected := by
  have hopen : l'.Open = l.Open := funext fun p => propext (h p)
  simp only [Labyrinth.Connected, Labyrinth.Joined, hopen]

theorem Adjacent.symm {p q : Cell} (h : Adjacent p q) : Adjacent q p := by
  rcases h with ⟨hrow, hcol⟩ | ⟨hcol, hrow⟩
  · exact .inl ⟨hrow.symm, hcol.symm⟩
  · exact .inr ⟨hcol.symm, hrow.symm⟩

/-- A path between open cells can be walked back. -/
theorem Labyrinth.Joined.symm {l : Labyrinth} {p q : Cell} (hp : l.Open p) (h : l.Joined p q) :
    l.Joined q p := by
  induction h with
  | refl => exact .refl
  | @tail b c hpath hstep ih =>
      have hb : l.Open b := by
        cases hpath with
        | refl => exact hp
        | tail _ hlast => exact hlast.2
      exact Relation.ReflTransGen.head ⟨hstep.1.symm, hb⟩ ih

/-- One cell that reaches all open cells is enough. -/
theorem connected_iff_of_open {l : Labyrinth} {p : Cell} (hp : l.Open p) :
    l.Connected ↔ ∀ q, l.Open q → l.Joined p q := by
  constructor
  · intro h q hq
    exact h.2 p q hp hq
  · intro h
    refine ⟨⟨p, hp⟩, fun q q' hq hq' => ?_⟩
    exact Relation.ReflTransGen.trans ((h q hq).symm hp) (h q' hq')

/-! ### The search -/

/-- The open cells among the four next to a cell, in the order of the loop. -/
def Labyrinth.openNext (l : Labyrinth) (p : Cell) : List Cell :=
  ((nextCells p.1 p.2).filterMap fun next => cellAt next.1 next.2).filter fun q => l.Open q

theorem cellAt_eq_some {row col : Int} {p : Cell} :
    cellAt row col = some p ↔ row = p.1 ∧ col = p.2 := by
  constructor
  · intro h
    unfold cellAt at h
    split at h
    case isTrue hin =>
      obtain rfl := Option.some.inj h
      exact ⟨(Int.toNat_of_nonneg hin.1.1).symm, (Int.toNat_of_nonneg hin.2.1).symm⟩
    case isFalse => cases h
  · rintro ⟨rfl, rfl⟩
    exact cellAt_cell p

theorem mem_openNext {l : Labyrinth} {p q : Cell} :
    q ∈ l.openNext p ↔ Adjacent p q ∧ l.Open q := by
  have hnext : q ∈ (nextCells p.1 p.2).filterMap (fun next => cellAt next.1 next.2) ↔
      Adjacent p q := by
    simp only [nextCells, List.mem_filterMap, List.mem_cons, List.not_mem_nil, or_false,
      exists_eq_or_imp, exists_eq_left, cellAt_eq_some, Adjacent, Fin.ext_iff]
    omega
  rw [Labyrinth.openNext, List.mem_filter, hnext, decide_eq_true_iff]

section

variable {l : Labyrinth} (hrows : l.rows ≤ maxRows) (hcols : l.cols ≤ maxCols)

include hrows hcols

/-- A turn of the loop goes on to the cell if it is open, and not visited. -/
theorem dfsTurn_eq (search : Int → Int → Visited → Option Visited) (visited : Visited)
    (next : Int × Int) :
    dfsTurn l search visited next =
      ((cellAt next.1 next.2).toList.filter fun q => l.Open q).foldlM
        (fun visited q => if visited q then some visited else search q.1 q.2 visited) visited := by
  by_cases hin : (next.1 ≥ 0 ∧ next.1 < l.rows) ∧ next.2 ≥ 0 ∧ next.2 < l.cols
  · obtain ⟨q, hq⟩ : ∃ q, cellAt next.1 next.2 = some q := ⟨_, dif_pos (by omega)⟩
    obtain ⟨hrow, hcol⟩ := cellAt_eq_some.mp hq
    have hinside : l.Inside q := ⟨by omega, by omega⟩
    rw [dfsTurn, if_pos hin.1, if_pos hin.2, hq, Option.bind_some, Option.toList_some, hrow, hcol]
    by_cases hwall : l.map q = wall
    · have hopen : ¬ l.Open q := fun h => h.2 hwall
      simp [hwall, hopen]
    · have hopen : l.Open q := ⟨hinside, hwall⟩
      cases hseen : visited q <;> simp [hwall, hopen, hseen]
  · have hnone : (cellAt next.1 next.2).toList.filter (fun q => l.Open q) = [] := by
      refine List.filter_eq_nil_iff.mpr fun q hq hopen => ?_
      obtain ⟨hrow, hcol⟩ := cellAt_eq_some.mp (Option.mem_toList.mp hq)
      have hinside := (of_decide_eq_true hopen).1
      unfold Labyrinth.Inside at hinside
      omega
    rw [hnone, List.foldlM_nil, dfsTurn]
    by_cases hrow : next.1 ≥ 0 ∧ next.1 < l.rows
    · rw [if_pos hrow, if_neg fun hcol => hin ⟨hrow, hcol⟩]
      rfl
    · rw [if_neg hrow]
      rfl

/-- The loop of `dfs` is one over the open cells. -/
theorem dfs_loop (search : Int → Int → Visited → Option Visited) (cells : List (Int × Int)) :
    ∀ visited : Visited, cells.foldlM (dfsTurn l search) visited =
      ((cells.filterMap fun next => cellAt next.1 next.2).filter fun q => l.Open q).foldlM
        (fun visited q => if visited q then some visited else search q.1 q.2 visited) visited := by
  induction cells with
  | nil => exact fun _ => rfl
  | cons next cells ih =>
      intro visited
      have hsplit : (next :: cells).filterMap (fun next => cellAt next.1 next.2) =
          (cellAt next.1 next.2).toList ++ cells.filterMap fun next => cellAt next.1 next.2 := by
        cases hq : cellAt next.1 next.2 <;> simp [hq]
      rw [List.foldlM_cons, dfsTurn_eq hrows hcols, hsplit, List.filter_append, List.foldlM_append]
      exact bind_congr ih

/-- **`dfs` is the search of the library** over the open neighbours. -/
theorem dfs_eq (depth : Nat) :
    ∀ (p : Cell) (visited : Visited),
      dfs l depth p.1 p.2 visited = explore l.openNext depth p visited := by
  induction depth with
  | zero => exact fun _ _ => rfl
  | succ depth ih =>
      intro p visited
      have hcalls : (fun (visited : Visited) (q : Cell) =>
          if visited q then some visited else dfs l depth q.1 q.2 visited) =
            fun visited q => if visited q then some visited
              else explore l.openNext depth q visited := by
        funext visited q
        rw [ih]
      rw [dfs, cellAt_cell, Option.bind_some, dfs_loop hrows hcols, hcalls]
      rfl

/-- The search comes back, and the cells that it marks are those a path leads to. -/
theorem dfs_spec {depth : Nat} (hdepth : maxDepth ≤ depth) (p : Cell) :
    ∃ visited : Visited, dfs l depth p.1 p.2 (fun _ => false) = some visited ∧
      ∀ q, visited q = true ↔ l.Joined p q := by
  have hcells : Fintype.card Cell = maxDepth := by
    rw [Fintype.card_prod, Fintype.card_fin, Fintype.card_fin, maxDepth]
  obtain ⟨visited, hvisited⟩ := explore_isSome_univ l.openNext (hcells.le.trans hdepth) p
  refine ⟨visited, (dfs_eq hrows hcols depth p _).trans hvisited, fun q => ?_⟩
  have hedges : (fun a b : Cell => b ∈ l.openNext a) = fun a b => Adjacent a b ∧ l.Open b := by
    funext a b
    exact propext mem_openNext
  rw [explore_iff hvisited, Reaches, hedges, Labyrinth.Joined]

/-! ### The answer -/

omit hrows hcols in
/-- The first pair of loops ends at an open cell, or there is none. -/
theorem findOpen_spec (order : List (Nat × Nat))
    (h : ∀ p ∈ order, p.1 < maxRows ∧ p.2 < maxCols) :
    (findOpen l order = some none ∧
        ∀ p : Cell, (p.1.val, p.2.val) ∈ order → l.map p = wall) ∨
      ∃ p : Cell, (p.1.val, p.2.val) ∈ order ∧ l.map p ≠ wall ∧
        findOpen l order = some (some (p.1.val, p.2.val)) := by
  induction order with
  | nil => exact .inl ⟨rfl, fun p hp => absurd hp List.not_mem_nil⟩
  | cons x order ih =>
      obtain ⟨i, j⟩ := x
      obtain ⟨hi, hj⟩ := h (i, j) List.mem_cons_self
      obtain ⟨p, rfl, rfl⟩ := exists_cell hi hj
      have hstep : findOpen l ((p.1.val, p.2.val) :: order) =
          if l.map p ≠ wall then some (some (p.1.val, p.2.val)) else findOpen l order := by
        rw [findOpen, Labyrinth.read_cell, Option.bind_some]
      by_cases hp : l.map p = wall
      · rw [hstep, if_neg (not_not_intro hp)]
        rcases ih fun q hq => h q (List.mem_cons_of_mem _ hq) with
          ⟨hfind, hall⟩ | ⟨q, hq, hopen, hfind⟩
        · refine .inl ⟨hfind, fun q hq => ?_⟩
          rcases List.mem_cons.mp hq with hq | hq
          · rw [Prod.mk.injEq] at hq
            rwa [show q = p from Prod.ext (Fin.ext hq.1) (Fin.ext hq.2)]
          · exact hall q hq
        · exact .inr ⟨q, List.mem_cons_of_mem _ hq, hopen, hfind⟩
      · exact .inr ⟨p, List.mem_cons_self, hp, by rw [hstep, if_pos hp]⟩

omit hrows hcols in
/-- The second pair of loops looks for an open cell that was missed. -/
theorem allVisited_spec (visit : Visited) (order : List (Nat × Nat))
    (h : ∀ p ∈ order, p.1 < maxRows ∧ p.2 < maxCols) :
    ∃ b, allVisited l visit order = some b ∧
      (b = true ↔ ∀ p : Cell, (p.1.val, p.2.val) ∈ order → l.map p ≠ wall → visit p = true) := by
  induction order with
  | nil => exact ⟨true, rfl, iff_of_true rfl fun p hp => absurd hp List.not_mem_nil⟩
  | cons x order ih =>
      obtain ⟨i, j⟩ := x
      obtain ⟨hi, hj⟩ := h (i, j) List.mem_cons_self
      obtain ⟨p, rfl, rfl⟩ := exists_cell hi hj
      obtain ⟨b, hb, hall⟩ := ih fun q hq => h q (List.mem_cons_of_mem _ hq)
      have hstep : allVisited l visit ((p.1.val, p.2.val) :: order) =
          if !visit p ∧ l.map p ≠ wall then some false else some b := by
        rw [allVisited, cellAt_cell, Option.bind_some, hb]
      by_cases hmissed : !visit p ∧ l.map p ≠ wall
      · refine ⟨false, by rw [hstep, if_pos hmissed], iff_of_false Bool.false_ne_true ?_⟩
        intro hvisit
        have hp := hvisit p List.mem_cons_self hmissed.2
        rw [hp] at hmissed
        exact Bool.false_ne_true hmissed.1
      · refine ⟨b, by rw [hstep, if_neg hmissed], hall.trans ⟨fun hrest q hq hopen => ?_,
          fun hvisit q hq => hvisit q (List.mem_cons_of_mem _ hq)⟩⟩
        rcases List.mem_cons.mp hq with hq | hq
        · rw [Prod.mk.injEq] at hq
          obtain rfl : q = p := Prod.ext (Fin.ext hq.1) (Fin.ext hq.2)
          cases hseen : visit q with
          | true => rfl
          | false => exact absurd ⟨by rw [hseen]; rfl, hopen⟩ hmissed
        · exact hrest q hq hopen

/-- With room for the search, `isConnected` answers for the map. -/
theorem isConnected_spec {depth : Nat} (hdepth : maxDepth ≤ depth) :
    ∃ b, isConnected depth l = some b ∧ (b = true ↔ l.Connected) := by
  have hbound : ∀ p ∈ rowMajor l.rows l.cols, p.1 < maxRows ∧ p.2 < maxCols := by
    intro p hp
    obtain ⟨hi, hj⟩ := mem_rowMajor.mp hp
    exact ⟨lt_of_lt_of_le hi hrows, lt_of_lt_of_le hj hcols⟩
  have hmem : ∀ p : Cell, (p.1.val, p.2.val) ∈ rowMajor l.rows l.cols ↔ l.Inside p :=
    fun p => mem_rowMajor
  rcases findOpen_spec (l := l) _ hbound with ⟨hfind, hwalls⟩ | ⟨p, hp, hopen, hfind⟩
  · refine ⟨false, by rw [isConnected, hfind, Option.bind_some], ?_⟩
    refine iff_of_false Bool.false_ne_true ?_
    rintro ⟨⟨p, hp⟩, -⟩
    exact hp.2 (hwalls p ((hmem p).mpr hp.1))
  · have hp' : l.Open p := ⟨(hmem p).mp hp, hopen⟩
    obtain ⟨visit, hdfs, hvisit⟩ := dfs_spec hrows hcols hdepth p
    obtain ⟨b, hb, hall⟩ := allVisited_spec (l := l) visit _ hbound
    refine ⟨b, ?_, ?_⟩
    · rw [isConnected, hfind, Option.bind_some]
      simp only
      rw [hdfs, Option.bind_some, hb]
    · rw [hall, connected_iff_of_open hp']
      constructor
      · intro h q hq
        exact (hvisit q).mp (h q ((hmem q).mpr hq.1) hq.2)
      · intro h q hq hne
        exact (hvisit q).mpr (h q ⟨(hmem q).mp hq, hne⟩)

/-- **`isConnected` decides connectivity**, and always comes back. -/
theorem isConnected_iff :
    ∃ b, (∀ depth ≥ maxDepth, isConnected depth l = some b) ∧ (b = true ↔ l.Connected) := by
  obtain ⟨b, -, hb⟩ := isConnected_spec hrows hcols (Nat.le_refl maxDepth)
  refine ⟨b, fun depth hdepth => ?_, hb⟩
  -- more room gives the same answer, as it is that of the map
  obtain ⟨b', hrun, hb'⟩ := isConnected_spec hrows hcols hdepth
  rw [hrun, Bool.eq_iff_iff.mpr (hb'.trans hb.symm)]

end

/-- A wall with a way around it. -/
def ring : Labyrinth := (field 3 3).set (1, 1) wall

theorem isConnected_ring : isConnected maxDepth ring = some true ∧ ring.Connected := by
  obtain ⟨b, hb, hconnected⟩ := isConnected_iff (l := ring) (by decide) (by decide)
  have hrun : isConnected maxDepth ring = some true := by decide
  rw [hb maxDepth (Nat.le_refl _)] at hrun
  exact ⟨(hb maxDepth (Nat.le_refl _)).trans hrun, hconnected.mp (Option.some.inj hrun)⟩

end NjuOs.LabyrinthGame
