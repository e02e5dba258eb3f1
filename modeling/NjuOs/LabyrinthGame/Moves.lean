import NjuOs.LabyrinthGame.Basic
import NjuOs.Lib.Run

/-!
What a sequence of `movePlayer` calls does to the map.

`Outcome` lists the five things a call can do and `movePlayer_outcome` says that
the code does one of them. The bound checks on `d` and `r` admit the row and the
column just behind the used rectangle, so a move can end on a cell there that
holds a stale `.` (`StepsOut`). `moves_sound_iff`: the calls of a run keep the
game sound exactly as long as none of them does.
-/

namespace NjuOs.LabyrinthGame

open NjuOs.Lib

/-! ### Searching the map -/

/-- Earlier in the order of the loops over rows and columns. -/
def Before (q p : Nat × Nat) : Prop := q.1 < p.1 ∨ q.1 = p.1 ∧ q.2 < p.2

theorem mem_rowMajor {rows cols i j : Nat} :
    (i, j) ∈ rowMajor rows cols ↔ i < rows ∧ j < cols := by
  simp [rowMajor]

theorem rowMajor_pairwise (rows cols : Nat) : (rowMajor rows cols).Pairwise Before := by
  refine List.pairwise_flatMap.mpr ⟨fun i _ => ?_, ?_⟩
  · rw [List.pairwise_map]
    exact List.pairwise_lt_range.imp fun h => .inr ⟨rfl, h⟩
  · refine List.pairwise_lt_range.imp fun h x hx y hy => .inl ?_
    obtain ⟨_, -, rfl⟩ := List.mem_map.mp hx
    obtain ⟨_, -, rfl⟩ := List.mem_map.mp hy
    exact h

/-- No cell of the used rectangle holds `c`. -/
def Labyrinth.Absent (l : Labyrinth) (c : UInt8) : Prop := ∀ p, l.Inside p → l.map p ≠ c

/-- The first cell of the used rectangle that holds `c`, row by row. -/
structure Labyrinth.First (l : Labyrinth) (c : UInt8) (p : Cell) : Prop where
  inside : l.Inside p
  map_eq : l.map p = c
  before : ∀ q : Cell, l.Inside q → Before (q.1, q.2) (p.1, p.2) → l.map q ≠ c

theorem scan_cases (l : Labyrinth) (c : UInt8) (order : List (Nat × Nat))
    (h : ∀ p ∈ order, p.1 < maxRows ∧ p.2 < maxCols) :
    (scan l c order = some ⟨-1, -1⟩ ∧ ∀ q : Cell, (q.1.val, q.2.val) ∈ order → l.map q ≠ c) ∨
      ∃ pre post, ∃ p : Cell, order = pre ++ (p.1.val, p.2.val) :: post ∧
        scan l c order = some ⟨p.1, p.2⟩ ∧ l.map p = c ∧
        ∀ q : Cell, (q.1.val, q.2.val) ∈ pre → l.map q ≠ c := by
  induction order with
  | nil => exact .inl ⟨rfl, fun q hq => absurd hq List.not_mem_nil⟩
  | cons x order ih =>
      obtain ⟨i, j⟩ := x
      obtain ⟨hi, hj⟩ := h (i, j) List.mem_cons_self
      obtain ⟨p, rfl, rfl⟩ := exists_cell hi hj
      have hstep : scan l c ((p.1.val, p.2.val) :: order) =
          if l.map p = c then some ⟨p.1, p.2⟩ else scan l c order := by
        rw [scan, Labyrinth.read_cell, Option.bind_some]
      have hcons : ∀ {xs : List (Nat × Nat)}, l.map p ≠ c →
          (∀ q : Cell, (q.1.val, q.2.val) ∈ xs → l.map q ≠ c) →
          ∀ q : Cell, (q.1.val, q.2.val) ∈ (p.1.val, p.2.val) :: xs → l.map q ≠ c := by
        intro xs hp hxs q hq
        rcases List.mem_cons.mp hq with hq | hq
        · rw [Prod.mk.injEq] at hq
          rwa [show q = p from Prod.ext (Fin.ext hq.1) (Fin.ext hq.2)]
        · exact hxs q hq
      by_cases hp : l.map p = c
      · exact .inr ⟨[], order, p, rfl, by rw [hstep, if_pos hp], hp, fun q hq => nomatch hq⟩
      · rw [hstep, if_neg hp]
        rcases ih fun p hmem => h p (List.mem_cons_of_mem _ hmem) with
          ⟨hscan, hnone⟩ | ⟨pre, post, p', horder, hscan, hp', hpre⟩
        · exact .inl ⟨hscan, hcons hp hnone⟩
        · exact .inr ⟨_ :: pre, post, p', by rw [horder, List.cons_append], hscan, hp',
            hcons hp hpre⟩

/-- The scan of the used rectangle finds the first cell with the character. -/
theorem scan_rowMajor {l : Labyrinth} (hrows : l.rows ≤ maxRows) (hcols : l.cols ≤ maxCols)
    (c : UInt8) :
    (scan l c (rowMajor l.rows l.cols) = some ⟨-1, -1⟩ ∧ l.Absent c) ∨
      ∃ p : Cell, scan l c (rowMajor l.rows l.cols) = some ⟨p.1, p.2⟩ ∧ l.First c p := by
  have hbound : ∀ p ∈ rowMajor l.rows l.cols, p.1 < maxRows ∧ p.2 < maxCols := by
    intro p hp
    obtain ⟨hi, hj⟩ := mem_rowMajor.mp hp
    exact ⟨by omega, by omega⟩
  rcases scan_cases l c _ hbound with ⟨hscan, hnone⟩ | ⟨pre, post, p, horder, hscan, hp, hpre⟩
  · exact .inl ⟨hscan, fun q hq => hnone q (mem_rowMajor.mpr hq)⟩
  · have hsorted := rowMajor_pairwise l.rows l.cols
    have hmem : (p.1.val, p.2.val) ∈ rowMajor l.rows l.cols := by rw [horder]; simp
    refine .inr ⟨p, hscan, mem_rowMajor.mp hmem, hp, fun q hq hbefore => hpre q ?_⟩
    have hq := mem_rowMajor.mpr hq
    rw [horder] at hq hsorted
    rcases List.mem_append.mp hq with hq | hq
    · exact hq
    · -- a cell from `p` on is not before `p`
      exfalso
      rcases List.mem_cons.mp hq with hq | hq
      · rw [Prod.mk.injEq] at hq
        unfold Before at hbefore
        omega
      · have hafter := (List.pairwise_cons.mp (List.pairwise_append.mp hsorted).2.1).1 _ hq
        unfold Before at hbefore hafter
        omega

/-! ### What a call can do -/

/-- The direction with first character `c` leads from `p` to `q`. -/
def Toward (c : UInt8) (p q : Cell) : Prop :=
  (c = 117 ∧ q.1.val + 1 = p.1.val ∧ q.2 = p.2) ∨ (c = 100 ∧ q.1.val = p.1.val + 1 ∧ q.2 = p.2) ∨
    (c = 108 ∧ q.1 = p.1 ∧ q.2.val + 1 = p.2.val) ∨ (c = 114 ∧ q.1 = p.1 ∧ q.2.val = p.2.val + 1)

/-- What a call with a result can do. -/
inductive Outcome (l : Labyrinth) (playerId : UInt8) (direction : Option CString) :
    Ret → Labyrinth → Prop where
  | full (habsent : l.Absent playerId) (hfull : l.Absent dot) :
      Outcome l playerId direction (Ret.fail "no empty place for player\n") l
  | placed (p : Cell) (habsent : l.Absent playerId) (hfirst : l.First dot p) :
      Outcome l playerId direction Ret.ok (l.set p playerId)
  | stayed (p : Cell) (hfirst : l.First playerId p) (hnone : direction = none) :
      Outcome l playerId direction Ret.ok l
  | blocked (p : Cell) (dir : CString) (message : String) (hfirst : l.First playerId p)
      (hsome : direction = some dir) (hblocked : ∀ q, Toward (firstChar dir) p q → l.map q ≠ dot) :
      Outcome l playerId direction (Ret.fail message) l
  | moved (p q : Cell) (dir : CString) (hfirst : l.First playerId p) (hsome : direction = some dir)
      (htoward : Toward (firstChar dir) p q) (hempty : l.map q = dot) :
      Outcome l playerId direction Ret.ok ((l.set q playerId).set p dot)

@[simp] theorem toward_up {p q : Cell} :
    Toward 117 p q ↔ q.1.val + 1 = p.1.val ∧ q.2 = p.2 := by simp [Toward]

@[simp] theorem toward_down {p q : Cell} :
    Toward 100 p q ↔ q.1.val = p.1.val + 1 ∧ q.2 = p.2 := by simp [Toward]

@[simp] theorem toward_left {p q : Cell} :
    Toward 108 p q ↔ q.1 = p.1 ∧ q.2.val + 1 = p.2.val := by simp [Toward]

@[simp] theorem toward_right {p q : Cell} :
    Toward 114 p q ↔ q.1 = p.1 ∧ q.2.val = p.2.val + 1 := by simp [Toward]

theorem toward_unique {c : UInt8} {p q q' : Cell} (h : Toward c p q) (h' : Toward c p q') :
    q = q' := by
  rcases h with ⟨rfl, h⟩ | ⟨rfl, h⟩ | ⟨rfl, h⟩ | ⟨rfl, h⟩
  · rw [toward_up] at h'
    exact Prod.ext (Fin.ext (by omega)) (h.2.trans h'.2.symm)
  · rw [toward_down] at h'
    exact Prod.ext (Fin.ext (by omega)) (h.2.trans h'.2.symm)
  · rw [toward_left] at h'
    exact Prod.ext (h.1.trans h'.1.symm) (Fin.ext (by omega))
  · rw [toward_right] at h'
    exact Prod.ext (h.1.trans h'.1.symm) (Fin.ext (by omega))

/-- The `switch` has no such direction, or it leads above the first row or to the left
of the first column. -/
def Stuck (c : UInt8) (p : Cell) : Prop :=
  (c ≠ 117 ∧ c ≠ 100 ∧ c ≠ 108 ∧ c ≠ 114) ∨ c = 117 ∧ p.1.val = 0 ∨ c = 108 ∧ p.2.val = 0

/-- The direction leads out of the array. -/
def Overruns (c : UInt8) (p : Cell) : Prop :=
  c = 100 ∧ p.1.val + 1 = maxRows ∨ c = 114 ∧ p.2.val + 1 = maxCols

theorem Toward.not_stuck {c : UInt8} {p q : Cell} (h : Toward c p q) : ¬ Stuck c p := by
  rintro (⟨hu, hd, hl, hr⟩ | ⟨rfl, h0⟩ | ⟨rfl, h0⟩)
  · rcases h with h | h | h | h
    · exact hu h.1
    · exact hd h.1
    · exact hl h.1
    · exact hr h.1
  · rw [toward_up] at h
    omega
  · rw [toward_left] at h
    omega

theorem Overruns.not_stuck {c : UInt8} {p : Cell} (h : Overruns c p) : ¬ Stuck c p := by
  unfold Stuck
  rcases h with ⟨rfl, h⟩ | ⟨rfl, h⟩ <;> simp

theorem Overruns.not_toward {c : UInt8} {p q : Cell} (h : Overruns c p) : ¬ Toward c p q := by
  have hrow := q.1.isLt
  have hcol := q.2.isLt
  rcases h with ⟨rfl, h⟩ | ⟨rfl, h⟩
  · rw [toward_down]
    omega
  · rw [toward_right]
    omega

/-- The `switch`: an error, or the location of the cell that lies in the direction,
or a location outside the array. -/
theorem nextLoc_spec {l : Labyrinth} {p : Cell} (hp : l.Inside p) (c : UInt8) :
    (∃ message, nextLoc l ⟨p.1, p.2⟩ c = .error message ∧ Stuck c p) ∨
      (∃ q : Cell, nextLoc l ⟨p.1, p.2⟩ c = .ok ⟨q.1, q.2⟩ ∧ Toward c p q) ∨
      ∃ loc, nextLoc l ⟨p.1, p.2⟩ c = .ok loc ∧ cellAt loc.row loc.col = none ∧ Overruns c p := by
  obtain ⟨hr, hc⟩ := hp
  have hrow := p.1.isLt
  have hcol := p.2.isLt
  by_cases hu : c = 117
  · subst hu
    by_cases h0 : p.1.val = 0
    · refine .inl ⟨"out side\n", ?_, .inr (.inl ⟨rfl, h0⟩)⟩
      rw [nextLoc, if_pos rfl, if_pos (show (p.1 : Int) - 1 < 0 by omega)]
    · obtain ⟨q, h1, h2⟩ := exists_cell (i := p.1 - 1) (j := p.2) (by omega) (by omega)
      refine .inr (.inl ⟨q, ?_, toward_up.mpr ⟨by omega, Fin.ext h2⟩⟩)
      rw [nextLoc, if_pos rfl, if_neg (show ¬ (p.1 : Int) - 1 < 0 by omega), h1, h2,
        Int.ofNat_sub (by omega)]
      rfl
  by_cases hd : c = 100
  · subst hd
    have hnext : nextLoc l ⟨p.1, p.2⟩ 100 = .ok ⟨p.1 + 1, p.2⟩ := by
      rw [nextLoc, if_neg hu, if_pos rfl, if_neg (show ¬ (p.1 : Int) + 1 > l.rows by omega)]
    by_cases hlast : p.1.val + 1 = maxRows
    · exact .inr (.inr ⟨_, hnext, dif_neg (by simp only; omega), .inl ⟨rfl, hlast⟩⟩)
    · obtain ⟨q, h1, h2⟩ := exists_cell (i := p.1 + 1) (j := p.2) (by omega) (by omega)
      refine .inr (.inl ⟨q, ?_, toward_down.mpr ⟨h1, Fin.ext h2⟩⟩)
      rw [hnext, h1, h2]
      rfl
  by_cases hl : c = 108
  · subst hl
    by_cases h0 : p.2.val = 0
    · refine .inl ⟨"out side\n", ?_, .inr (.inr ⟨rfl, h0⟩)⟩
      rw [nextLoc, if_neg hu, if_neg hd, if_pos rfl, if_pos (show (p.2 : Int) - 1 < 0 by omega)]
    · obtain ⟨q, h1, h2⟩ := exists_cell (i := p.1) (j := p.2 - 1) (by omega) (by omega)
      refine .inr (.inl ⟨q, ?_, toward_left.mpr ⟨Fin.ext h1, by omega⟩⟩)
      rw [nextLoc, if_neg hu, if_neg hd, if_pos rfl,
        if_neg (show ¬ (p.2 : Int) - 1 < 0 by omega), h1, h2, Int.ofNat_sub (by omega)]
      rfl
  by_cases hright : c = 114
  · subst hright
    have hnext : nextLoc l ⟨p.1, p.2⟩ 114 = .ok ⟨p.1, p.2 + 1⟩ := by
      rw [nextLoc, if_neg hu, if_neg hd, if_neg hl, if_pos rfl,
        if_neg (show ¬ (p.2 : Int) + 1 > l.cols by omega)]
    by_cases hlast : p.2.val + 1 = maxCols
    · exact .inr (.inr ⟨_, hnext, dif_neg (by simp only; omega), .inr ⟨rfl, hlast⟩⟩)
    · obtain ⟨q, h1, h2⟩ := exists_cell (i := p.1) (j := p.2 + 1) (by omega) (by omega)
      refine .inr (.inl ⟨q, ?_, toward_right.mpr ⟨Fin.ext h1, h2⟩⟩)
      rw [hnext, h1, h2]
      rfl
  · refine .inl ⟨"false direction\n", ?_, .inl ⟨hu, hd, hl, hright⟩⟩
    rw [nextLoc, if_neg hu, if_neg hd, if_neg hl, if_neg hright]

theorem Labyrinth.First.unique {l : Labyrinth} {c : UInt8} {p q : Cell} (hp : l.First c p)
    (hq : l.First c q) : p = q := by
  by_contra hne
  have hcells : ¬ (p.1.val = q.1.val ∧ p.2.val = q.2.val) := fun h =>
    hne (Prod.ext (Fin.ext h.1) (Fin.ext h.2))
  have horder : Before (p.1, p.2) (q.1, q.2) ∨ Before (q.1, q.2) (p.1, p.2) := by
    unfold Before
    omega
  rcases horder with h | h
  · exact hq.before p hp.inside h hp.map_eq
  · exact hp.before q hq.inside h hq.map_eq

/-- What a call does on any map: one of the things above, or an access behind the array. -/
theorem movePlayer_spec {l : Labyrinth} (hrows : l.rows ≤ maxRows) (hcols : l.cols ≤ maxCols)
    (playerId : UInt8) (direction : Option CString) :
    (∃ ret l', movePlayer l playerId direction = some (ret, l') ∧
        Outcome l playerId direction ret l' ∧
        ∀ p dir, l.First playerId p → direction = some dir → ¬ Overruns (firstChar dir) p) ∨
      movePlayer l playerId direction = none ∧
        ∃ p dir, l.First playerId p ∧ direction = some dir ∧ Overruns (firstChar dir) p := by
  rcases scan_rowMajor hrows hcols playerId with ⟨hscan, habsent⟩ | ⟨p, hscan, hfirst⟩
  · have hno : ∀ p dir, l.First playerId p → direction = some dir →
        ¬ Overruns (firstChar dir) p := fun p dir hp =>
      absurd hp.map_eq (habsent p hp.inside)
    rcases scan_rowMajor hrows hcols dot with ⟨hempty, hfull⟩ | ⟨q, hempty, hfirst⟩
    · exact .inl ⟨_, _, by simp [movePlayer, findPlayer, findFirstEmptySpace, hscan, hempty],
        .full habsent hfull, hno⟩
    · refine .inl ⟨_, _, ?_, .placed q habsent hfirst, hno⟩
      have hq : ¬ ((q.1 : Int) = -1 ∧ (q.2 : Int) = -1) := by omega
      simp only [movePlayer, findPlayer, findFirstEmptySpace, hscan, hempty, Option.bind_some,
        and_self, if_true, if_neg hq, Labyrinth.write_cell, Option.map_some]
  · have hp : ¬ ((p.1 : Int) = -1 ∧ (p.2 : Int) = -1) := by omega
    cases direction with
    | none =>
        refine .inl ⟨_, _, ?_, .stayed p hfirst rfl, fun _ _ _ hnone => (nomatch hnone)⟩
        simp only [movePlayer, findPlayer, hscan, Option.bind_some, if_neg hp]
    | some dir =>
        have hkeeps : ¬ Overruns (firstChar dir) p → ∀ p' dir', l.First playerId p' →
            some dir = some dir' → ¬ Overruns (firstChar dir') p' := by
          rintro h p' dir' hp' ⟨⟩
          rwa [hp'.unique hfirst]
        rcases nextLoc_spec hfirst.inside (firstChar dir) with
          ⟨message, hnext, hstuck⟩ | ⟨q, hnext, htoward⟩ | ⟨loc, hnext, hout, hover⟩
        · refine .inl ⟨_, _, ?_, .blocked p dir message hfirst rfl
            fun q hq => absurd hstuck hq.not_stuck, hkeeps fun h => h.not_stuck hstuck⟩
          simp only [movePlayer, findPlayer, hscan, Option.bind_some, if_neg hp, hnext]
        · have hin := hkeeps fun h => h.not_toward htoward
          by_cases hq : l.map q = dot
          · refine .inl ⟨_, _, ?_, .moved p q dir hfirst rfl htoward hq, hin⟩
            simp only [movePlayer, findPlayer, hscan, Option.bind_some, if_neg hp, hnext,
              Labyrinth.read_cell, hq, ne_eq, not_true_eq_false, if_false, Labyrinth.write_cell,
              Option.map_some]
          · refine .inl ⟨_, _, ?_, .blocked p dir "target loc is not empty\n" hfirst rfl
              fun q' hq' => ?_, hin⟩
            · simp only [movePlayer, findPlayer, hscan, Option.bind_some, if_neg hp, hnext,
                Labyrinth.read_cell, hq, ne_eq, not_false_eq_true, if_true]
            · rwa [toward_unique hq' htoward]
        · refine .inr ⟨?_, p, dir, hfirst, rfl, hover⟩
          simp only [movePlayer, findPlayer, hscan, Option.bind_some, if_neg hp, hnext,
            Labyrinth.read, hout, Option.map_none, Option.bind_none]

/-- **A call does one of these things**, and stays inside the array. -/
theorem movePlayer_outcome {l : Labyrinth} (hrows : l.rows ≤ 99) (hcols : l.cols ≤ 99)
    (playerId : UInt8) (direction : Option CString) :
    ∃ ret l', movePlayer l playerId direction = some (ret, l') ∧
      Outcome l playerId direction ret l' := by
  rcases movePlayer_spec (le_trans hrows (by decide)) (le_trans hcols (by decide)) playerId
    direction with ⟨ret, l', hcall, hout, -⟩ | ⟨-, p, dir, hfirst, -, hover⟩
  · exact ⟨ret, l', hcall, hout⟩
  · obtain ⟨hr, hc⟩ := hfirst.inside
    simp only [Overruns, maxRows, maxCols] at hover
    omega

/-! ### Soundness of one call -/

def IsDigit (c : UInt8) : Prop := isValidPlayer c = true

instance (c : UInt8) : Decidable (IsDigit c) := inferInstanceAs (Decidable (_ = _))

theorem IsDigit.ne_dot {c : UInt8} (h : IsDigit c) : c ≠ dot := by
  rintro rfl
  cases h

/-- Each digit occurs at most once inside the used rectangle. -/
def Labyrinth.Once (l : Labyrinth) : Prop :=
  ∀ c, IsDigit c → ∀ p q, l.Inside p → l.Inside q → l.map p = c → l.map q = c → p = q

/-- Horizontally or vertically next to each other. -/
def Adjacent (p q : Cell) : Prop :=
  (p.1 = q.1 ∧ (p.2.val + 1 = q.2.val ∨ q.2.val + 1 = p.2.val)) ∨
    (p.2 = q.2 ∧ (p.1.val + 1 = q.1.val ∨ q.1.val + 1 = p.1.val))

/-- An absent player is placed on the first empty cell. -/
def Places (l : Labyrinth) (playerId : UInt8) (l' : Labyrinth) : Prop :=
  l.Absent playerId ∧ ∃ p, l.First dot p ∧ l' = l.set p playerId

/-- A player moves to an adjacent empty cell inside the used rectangle. -/
def Moves (l : Labyrinth) (playerId : UInt8) (l' : Labyrinth) : Prop :=
  ∃ p q, l.Inside p ∧ l.map p = playerId ∧ l.Inside q ∧ l.map q = dot ∧ Adjacent p q ∧
    l' = (l.set q playerId).set p dot

/-- What a call with this result may do. -/
structure SoundResult (l : Labyrinth) (playerId : UInt8) (direction : Option CString)
    (ret : Ret) (l' : Labyrinth) : Prop where
  unchanged : ret.value = false → l' = l
  effect : ret.value = true → Places l playerId l' ∨ (direction = none ∧ l' = l) ∨
    Moves l playerId l'
  once : l'.Once
  present : ∀ c, IsDigit c → (∃ p, l.Inside p ∧ l.map p = c) → ∃ p, l'.Inside p ∧ l'.map p = c

def CallSound (l : Labyrinth) (playerId : UInt8) (direction : Option CString) : Prop :=
  ∃ ret l', movePlayer l playerId direction = some (ret, l') ∧
    SoundResult l playerId direction ret l'

/-- The player steps down from the last row, or right from the last column, onto
a stale empty cell behind it. -/
def StepsOut (l : Labyrinth) (playerId : UInt8) (direction : Option CString) : Prop :=
  ∃ p q dir, l.Inside p ∧ l.map p = playerId ∧ ¬ l.Inside q ∧ l.map q = dot ∧
    direction = some dir ∧ (firstChar dir = 100 ∧ q.1.val = p.1.val + 1 ∧ q.2 = p.2 ∨
      firstChar dir = 114 ∧ q.1 = p.1 ∧ q.2.val = p.2.val + 1)

theorem Toward.adjacent {c : UInt8} {p q : Cell} (h : Toward c p q) : Adjacent p q := by
  unfold Adjacent
  rcases h with ⟨-, h1, h2⟩ | ⟨-, h1, h2⟩ | ⟨-, h1, h2⟩ | ⟨-, h1, h2⟩
  · exact .inr ⟨h2.symm, .inr h1⟩
  · exact .inr ⟨h2.symm, .inl h1.symm⟩
  · exact .inl ⟨h1.symm, .inr h2⟩
  · exact .inl ⟨h1.symm, .inl h2.symm⟩

/-- Placing an absent player keeps the digits unique. -/
theorem Labyrinth.Once.place {l : Labyrinth} (h : l.Once) {playerId : UInt8}
    (habsent : l.Absent playerId) (p : Cell) : (l.set p playerId).Once := by
  intro c hc q q' hq hq' hmap hmap'
  by_cases hqp : q = p <;> by_cases hqp' : q' = p
  · rw [hqp, hqp']
  · rw [hqp, Labyrinth.set_self] at hmap
    rw [l.set_of_ne hqp'] at hmap'
    exact absurd (hmap'.trans hmap.symm) (habsent q' hq')
  · rw [hqp', Labyrinth.set_self] at hmap'
    rw [l.set_of_ne hqp] at hmap
    exact absurd (hmap.trans hmap'.symm) (habsent q hq)
  · rw [l.set_of_ne hqp] at hmap
    rw [l.set_of_ne hqp'] at hmap'
    exact h c hc q q' hq hq' hmap hmap'

/-- Emptying a cell keeps the digits unique. -/
theorem Labyrinth.Once.clear {l : Labyrinth} (h : l.Once) (p : Cell) : (l.set p dot).Once := by
  have hne : ∀ {c}, IsDigit c → ∀ {q}, (l.set p dot).map q = c → q ≠ p := by
    rintro c hc q hmap rfl
    exact hc.ne_dot (by rw [← hmap, Labyrinth.set_self])
  intro c hc q q' hq hq' hmap hmap'
  have hqp := hne hc hmap
  have hqp' := hne hc hmap'
  rw [l.set_of_ne hqp] at hmap
  rw [l.set_of_ne hqp'] at hmap'
  exact h c hc q q' hq hq' hmap hmap'

theorem Labyrinth.set_comm (l : Labyrinth) {p q : Cell} (h : p ≠ q) (b c : UInt8) :
    (l.set q b).set p c = (l.set p c).set q b := by
  simp only [Labyrinth.set, Labyrinth.mk.injEq, and_true]
  exact Function.update_comm h.symm b c l.map

/-- Moving a player is emptying its cell and placing it again. -/
theorem Labyrinth.Once.move {l : Labyrinth} (h : l.Once) {playerId : UInt8}
    (hid : IsDigit playerId) {p q : Cell} (hp : l.Inside p) (hmap : l.map p = playerId)
    (hne : p ≠ q) : ((l.set q playerId).set p dot).Once := by
  rw [l.set_comm hne]
  refine (h.clear p).place (fun r hr hmap' => ?_) q
  by_cases hrp : r = p
  · rw [hrp, Labyrinth.set_self] at hmap'
    exact hid.ne_dot hmap'.symm
  · rw [l.set_of_ne hrp] at hmap'
    exact hrp (h playerId hid r p hr hp hmap' hmap)

/-! ### When a call is sound -/

section

variable {l : Labyrinth} {playerId : UInt8} {direction : Option CString}

theorem SoundResult.refl (honce : l.Once) {ret : Ret}
    (h : ret.value = true → direction = none) : SoundResult l playerId direction ret l where
  unchanged _ := rfl
  effect hret := .inr (.inl ⟨h hret, rfl⟩)
  once := honce
  present _ _ hc := hc

theorem SoundResult.place (honce : l.Once) (habsent : l.Absent playerId) {p : Cell}
    (hfirst : l.First dot p) : SoundResult l playerId direction Ret.ok (l.set p playerId) where
  unchanged hret := nomatch hret
  effect _ := .inl ⟨habsent, p, hfirst, rfl⟩
  once := honce.place habsent p
  present := by
    rintro c hc ⟨q, hq, hmap⟩
    have hne : q ≠ p := by
      rintro rfl
      exact hc.ne_dot (hmap.symm.trans hfirst.map_eq)
    exact ⟨q, hq, by rw [l.set_of_ne hne, hmap]⟩

theorem SoundResult.move (honce : l.Once) (hid : IsDigit playerId) {p q : Cell} (hp : l.Inside p)
    (hmap : l.map p = playerId) (hq : l.Inside q) (hempty : l.map q = dot)
    (hadjacent : Adjacent p q) (hne : p ≠ q) :
    SoundResult l playerId direction Ret.ok ((l.set q playerId).set p dot) where
  unchanged hret := nomatch hret
  effect _ := .inr (.inr ⟨p, q, hp, hmap, hq, hempty, hadjacent, rfl⟩)
  once := honce.move hid hp hmap hne
  present := by
    rintro c hc ⟨r, hr, hrmap⟩
    by_cases hrp : r = p
    · refine ⟨q, hq, ?_⟩
      rw [Labyrinth.set_of_ne _ hne.symm, Labyrinth.set_self, ← hrmap, hrp, hmap]
    · have hrq : r ≠ q := by
        rintro rfl
        exact hc.ne_dot (hrmap.symm.trans hempty)
      exact ⟨r, hr, by rw [Labyrinth.set_of_ne _ hrp, Labyrinth.set_of_ne _ hrq, hrmap]⟩

/-- A cell outside the used rectangle that was empty is not given to a player. -/
theorem SoundResult.outside {ret : Ret} {l' : Labyrinth}
    (h : SoundResult l playerId direction ret l') (hid : IsDigit playerId) {q : Cell}
    (hq : ¬ l.Inside q) (hempty : l.map q = dot) : l'.map q ≠ playerId := by
  have hkeep : l'.map q = l.map q := by
    cases hret : ret.value with
    | false => rw [h.unchanged hret]
    | true =>
        rcases h.effect hret with ⟨-, p, hfirst, rfl⟩ | ⟨-, rfl⟩ | ⟨p, p', hp, -, hp', -, -, rfl⟩
        · have hqp : q ≠ p := fun h => hq (h ▸ hfirst.inside)
          exact l.set_of_ne hqp _
        · rfl
        · have hqp : q ≠ p := fun h => hq (h ▸ hp)
          have hqp' : q ≠ p' := fun h => hq (h ▸ hp')
          rw [Labyrinth.set_of_ne _ hqp, Labyrinth.set_of_ne _ hqp']
  rw [hkeep, hempty]
  exact hid.ne_dot.symm

theorem Labyrinth.Absent.not_stepsOut (h : l.Absent playerId) :
    ¬ StepsOut l playerId direction := by
  rintro ⟨p, q, dir, hp, hmap, -⟩
  exact h p hp hmap

/-- Only down and right lead out of the used rectangle. -/
theorem stepsOut_iff (honce : l.Once) (hid : IsDigit playerId) {p : Cell}
    (hfirst : l.First playerId p) :
    StepsOut l playerId direction ↔ ∃ q dir, direction = some dir ∧
      Toward (firstChar dir) p q ∧ ¬ l.Inside q ∧ l.map q = dot := by
  constructor
  · rintro ⟨p', q, dir, hp, hmap, hq, hempty, hsome, hdir⟩
    rw [honce playerId hid p' p hp hfirst.inside hmap hfirst.map_eq] at hdir
    refine ⟨q, dir, hsome, ?_, hq, hempty⟩
    rcases hdir with ⟨hc, h⟩ | ⟨hc, h⟩
    · exact .inr (.inl ⟨hc, h⟩)
    · exact .inr (.inr (.inr ⟨hc, h⟩))
  · rintro ⟨q, dir, hsome, htoward, hq, hempty⟩
    refine ⟨p, q, dir, hfirst.inside, hfirst.map_eq, hq, hempty, hsome, ?_⟩
    have hp := hfirst.inside
    unfold Labyrinth.Inside at hp hq
    rcases htoward with ⟨-, h1, h2⟩ | h | ⟨-, h1, h2⟩ | h
    · rw [h2] at hq
      omega
    · exact .inl h
    · rw [h1] at hq
      omega
    · exact .inr h

/-- **One call is sound** exactly when the player does not step out. -/
theorem callSound_iff (hrows : l.rows ≤ 99) (hcols : l.cols ≤ 99) (honce : l.Once)
    (hid : IsDigit playerId) :
    CallSound l playerId direction ↔ ¬ StepsOut l playerId direction := by
  obtain ⟨ret, l', hcall, hout⟩ := movePlayer_outcome hrows hcols playerId direction
  have hsound : CallSound l playerId direction ↔ SoundResult l playerId direction ret l' := by
    simp only [CallSound, hcall, Option.some.injEq, Prod.mk.injEq]
    constructor
    · rintro ⟨_, _, ⟨rfl, rfl⟩, h⟩; exact h
    · exact fun h => ⟨_, _, ⟨rfl, rfl⟩, h⟩
  rw [hsound]
  cases hout with
  | full habsent _ => exact iff_of_true (.refl honce (nomatch ·)) habsent.not_stepsOut
  | placed p habsent hfirst => exact iff_of_true (.place honce habsent hfirst) habsent.not_stepsOut
  | stayed p hfirst hnone =>
      refine iff_of_true (.refl honce fun _ => hnone) ?_
      rw [stepsOut_iff honce hid hfirst]
      rintro ⟨q, dir, hsome, -⟩
      cases hnone.symm.trans hsome
  | blocked p dir message hfirst hsome hblocked =>
      refine iff_of_true (.refl honce (nomatch ·)) ?_
      rw [stepsOut_iff honce hid hfirst]
      rintro ⟨q, dir', hsome', htoward, -, hempty⟩
      cases hsome.symm.trans hsome'
      exact hblocked q htoward hempty
  | moved p q dir hfirst hsome htoward hempty =>
      have hne : p ≠ q := by
        rintro rfl
        exact hid.ne_dot (hfirst.map_eq.symm.trans hempty)
      rw [stepsOut_iff honce hid hfirst]
      by_cases hq : l.Inside q
      · refine iff_of_true (.move honce hid hfirst.inside hfirst.map_eq hq hempty
          htoward.adjacent hne) ?_
        rintro ⟨q', dir', hsome', htoward', hq', -⟩
        cases hsome.symm.trans hsome'
        exact hq' (toward_unique htoward htoward' ▸ hq)
      · refine iff_of_false (fun hres => hres.outside hid hq hempty ?_)
          (not_not_intro ⟨q, dir, hsome, htoward, hq, hempty⟩)
        rw [Labyrinth.set_of_ne _ hne.symm, Labyrinth.set_self]

end

/-! ### Runs -/

/-- The map after a call of a run. -/
def moveStep (l : Labyrinth) (call : UInt8 × Option CString) : Option Labyrinth :=
  (movePlayer l call.1 call.2).map Prod.snd

/-- A call leaves the size of the map alone. -/
theorem Outcome.size {l l' : Labyrinth} {playerId : UInt8} {direction : Option CString} {ret : Ret}
    (h : Outcome l playerId direction ret l') : l'.rows = l.rows ∧ l'.cols = l.cols := by
  cases h <;> exact ⟨rfl, rfl⟩

/-- **Runs are sound as long as no player steps out** of the used rectangle. -/
theorem moves_sound_iff {calls : List (UInt8 × Option CString)} (hids : ∀ c ∈ calls, IsDigit c.1) :
    ∀ {l : Labyrinth}, l.rows ≤ 99 → l.cols ≤ 99 → l.Once →
      (EveryStep moveStep (fun l call => CallSound l call.1 call.2) l calls ↔
        EveryStep moveStep (fun l call => ¬ StepsOut l call.1 call.2) l calls) := by
  induction calls with
  | nil => intros; exact Iff.rfl
  | cons call calls ih =>
      intro l hrows hcols honce
      obtain ⟨playerId, direction⟩ := call
      have hid := hids (playerId, direction) List.mem_cons_self
      have hiff : CallSound l playerId direction ↔ ¬ StepsOut l playerId direction :=
        callSound_iff hrows hcols honce hid
      obtain ⟨ret, l', hcall, hout⟩ := movePlayer_outcome hrows hcols playerId direction
      obtain ⟨hrows', hcols'⟩ := hout.size
      have hstep : moveStep l (playerId, direction) = some l' := by
        rw [moveStep, hcall, Option.map_some]
      rw [everyStep_cons hstep, everyStep_cons hstep, hiff]
      refine and_congr_right fun hstay => ?_
      obtain ⟨_, _, hcall', hres⟩ := hiff.mpr hstay
      cases hcall.symm.trans hcall'
      exact ih (fun c hc => hids c (List.mem_cons_of_mem _ hc)) (hrows' ▸ hrows) (hcols' ▸ hcols)
        hres.once

/-- Two players enter an empty map. -/
theorem moves_sound_two_players :
    EveryStep moveStep (fun l call => CallSound l call.1 call.2) (field 1 2)
      [(48, none), (49, none)] := by
  have honce : (field 1 2).Once := fun c hc p _ _ _ hmap _ => absurd hmap.symm hc.ne_dot
  refine (moves_sound_iff (by simp [IsDigit, isValidPlayer]) (by decide) (by decide) honce).mpr ?_
  refine ⟨?_, fun _ _ => ⟨?_, fun _ _ => trivial⟩⟩ <;>
    · rintro ⟨p, q, dir, -, -, -, -, hsome, -⟩
      cases hsome

/-- A player on a map of one cell, with an empty cell left over behind it. -/
def staleBelow : Labyrinth := (field 1 1).set (0, 0) 48

/-- On it, moving down succeeds and leaves the used rectangle. -/
theorem moves_stale_below :
    ¬ EveryStep moveStep (fun l call => CallSound l call.1 call.2) staleBelow
      [(48, some (.single 100))] := by
  have honce : staleBelow.Once := by
    intro c _ p q hp hq _ _
    have hone : ∀ {r : Cell}, staleBelow.Inside r → r = (0, 0) := by
      rintro r ⟨h1, h2⟩
      exact Prod.ext (Fin.ext (Nat.lt_one_iff.mp h1)) (Fin.ext (Nat.lt_one_iff.mp h2))
    rw [hone hp, hone hq]
  rintro ⟨hsound, -⟩
  refine (callSound_iff (by decide) (by decide) honce (by decide)).mp hsound ?_
  refine ⟨(0, 0), (1, 0), .single 100, ⟨Nat.one_pos, Nat.one_pos⟩, ?_, ?_, ?_, rfl, .inl ?_⟩
  · exact Labyrinth.set_self ..
  · rintro ⟨h, -⟩
    exact absurd h (by decide)
  · exact Labyrinth.set_of_ne _ (by decide) _
  · decide

end NjuOs.LabyrinthGame
