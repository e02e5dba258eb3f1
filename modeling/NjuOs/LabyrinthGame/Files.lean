import NjuOs.LabyrinthGame.Load
import NjuOs.LabyrinthGame.Play

/-!
Runs of the program on a map file that is kept from one run to the next.

The front ends start a process for every key. What the memory of its map held
before is unknown, so a file stands for a map (`Holds`) when every memory gives
this map on the used rectangle. A fence keeps the players away from the cells
behind the rectangle, and then a run does to the map of the file what `movePlayer`
does to a map (`main_run`).
-/

namespace NjuOs.LabyrinthGame

open NjuOs.Lib

/-! ### Maps and files -/

/-- The two maps have the same used rectangle. -/
structure Same (l l' : Labyrinth) : Prop where
  rows : l'.rows = l.rows
  cols : l'.cols = l.cols
  map : ∀ p, l.Inside p → l'.map p = l.map p

/-- Loading the file succeeds and gives this map, whatever the memory holds. -/
def Holds (file : Bytes) (l : Labyrinth) : Prop :=
  ∀ memory, ∃ l', loadMap memory (some file) = some (Ret.ok, l') ∧ Same l l'

def Labyrinth.lines (l : Labyrinth) : List Bytes := (List.range l.rows).map l.line

theorem Labyrinth.length_lines (l : Labyrinth) : l.lines.length = l.rows := by
  rw [Labyrinth.lines, List.length_map, List.length_range]

/-- The file that is saved. -/
def Labyrinth.text (l : Labyrinth) : Bytes := unlines l.lines

/-- The last row and the last column are walls. -/
def Labyrinth.Fenced (l : Labyrinth) : Prop :=
  ∀ p, l.Inside p → p.1.val + 1 = l.rows ∨ p.2.val + 1 = l.cols → l.map p = wall

/-- A map that can be played, saved and loaded again. -/
structure Playable (l : Labyrinth) : Prop where
  rows : l.rows ≤ maxRows
  cols : l.cols ≤ 99
  clean : ∀ p, l.Inside p → l.map p ≠ newline ∧ l.map p ≠ 0
  fenced : l.Fenced
  connected : l.Connected

namespace Same

variable {l l' l'' : Labyrinth}

theorem refl (l : Labyrinth) : Same l l := ⟨rfl, rfl, fun _ _ => rfl⟩

theorem inside (h : Same l l') (p : Cell) : l'.Inside p ↔ l.Inside p := by
  rw [Labyrinth.Inside, Labyrinth.Inside, h.rows, h.cols]

theorem isOpen (h : Same l l') (p : Cell) : l'.Open p ↔ l.Open p := by
  rw [Labyrinth.Open, Labyrinth.Open, h.inside]
  refine and_congr_right fun hp => ?_
  rw [h.map p hp]

theorem absent (h : Same l l') {c : UInt8} (hc : l'.Absent c) : l.Absent c := by
  intro p hp
  rw [← h.map p hp]
  exact hc p ((h.inside p).mpr hp)

theorem first (h : Same l l') {c : UInt8} {p : Cell} (hfirst : l'.First c p) : l.First c p := by
  have hp := (h.inside p).mp hfirst.inside
  refine ⟨hp, (h.map p hp).symm.trans hfirst.map_eq, fun q hq hbefore => ?_⟩
  rw [← h.map q hq]
  exact hfirst.before q ((h.inside q).mpr hq) hbefore

/-- The same store in both. -/
theorem set (h : Same l l') (p : Cell) (c : UInt8) : Same (l.set p c) (l'.set p c) where
  rows := h.rows
  cols := h.cols
  map q hq := by
    by_cases hqp : q = p
    · rw [hqp, Labyrinth.set_self, Labyrinth.set_self]
    · rw [Labyrinth.set_of_ne _ hqp, Labyrinth.set_of_ne _ hqp]
      exact h.map q hq

/-- What is printed and saved is the used rectangle. -/
theorem lines (h : Same l l') (hrows : l.rows ≤ maxRows) (hcols : l.cols ≤ maxCols) :
    l'.lines = l.lines := by
  rw [Labyrinth.lines, Labyrinth.lines, h.rows]
  refine List.map_congr_left fun i hi => ?_
  rw [Labyrinth.line, Labyrinth.line, h.cols]
  refine List.map_congr_left fun j hj => ?_
  rw [List.mem_range] at hi hj
  obtain ⟨p, rfl, rfl⟩ := exists_cell (Nat.lt_of_lt_of_le hi hrows) (Nat.lt_of_lt_of_le hj hcols)
  rw [Labyrinth.read_cell, Labyrinth.read_cell, h.map p ⟨hi, hj⟩]

end Same

namespace Playable

variable {l l' : Labyrinth}

theorem cols_le (h : Playable l) : l.cols ≤ maxCols := h.cols.trans (by decide)

/-- There is an open cell. -/
theorem pos (h : Playable l) : 1 ≤ l.rows ∧ 1 ≤ l.cols := by
  obtain ⟨⟨p, ⟨hrow, hcol⟩, -⟩, -⟩ := h.connected
  omega

/-- Moves leave the walls alone, and store characters that can be read back. -/
theorem plays (h : Playable l) (hplays : Plays l l') : Playable l' where
  rows := hplays.rows ▸ h.rows
  cols := hplays.cols ▸ h.cols
  clean p hp := by
    rcases hplays.cell p with hsame | ⟨-, hnew⟩
    · rw [hsame]
      exact h.clean p ((hplays.inside p).mp hp)
    · exact (played_ne hnew).2
  fenced p hp hlast := by
    rw [hplays.rows, hplays.cols] at hlast
    have hwall := h.fenced p ((hplays.inside p).mp hp) hlast
    rcases hplays.cell p with hsame | ⟨hne, -⟩
    · rw [hsame, hwall]
    · exact absurd hwall hne
  connected := (connected_congr hplays.isOpen).mpr h.connected

/-- The file that is saved holds the map. -/
theorem holds_text (h : Playable l) : Holds l.text l := by
  intro memory
  obtain ⟨file, l', hsave, hload, hrows, hcols, hmap⟩ :=
    roundTrips_narrow ⟨h.pos.1, h.rows⟩ h.clean ⟨h.pos.2, h.cols⟩ memory []
  rw [saveMap_spec h.rows h.cols_le] at hsave
  cases hsave
  exact ⟨l', hload, hrows, hcols, hmap⟩

/-- A player is not at the fence, so the next cell is inside. -/
theorem toward_inside (h : Playable l) {p q : Cell} (hp : l.Inside p) (hwall : l.map p ≠ wall)
    {dir : UInt8} (htoward : Toward dir p q) : l.Inside q := by
  have hlast : ¬ (p.1.val + 1 = l.rows ∨ p.2.val + 1 = l.cols) := fun hlast =>
    hwall (h.fenced p hp hlast)
  unfold Labyrinth.Inside at hp ⊢
  rcases htoward with ⟨-, h1, h2⟩ | ⟨-, h1, h2⟩ | ⟨-, h1, h2⟩ | ⟨-, h1, h2⟩
  · rw [h2]
    omega
  · rw [h2]
    omega
  · rw [h1]
    omega
  · rw [h1]
    omega

theorem not_overruns (h : Playable l) {p : Cell} (hp : l.Inside p) (hwall : l.map p ≠ wall)
    (dir : UInt8) : ¬ Overruns dir p := by
  have hrows := h.rows
  have hcols := h.cols
  unfold Labyrinth.Inside at hp
  rintro (⟨-, hlast⟩ | ⟨-, hlast⟩)
  · exact hwall (h.fenced p hp (.inl (by omega)))
  · unfold maxCols at hlast
    omega

end Playable

/-! ### One run -/

/-- Behind a fence a call does to the map of the file what it does to the loaded map. -/
theorem Outcome.of_same {l l₁ l₁' : Labyrinth} (hsame : Same l l₁) (hl : Playable l) {c : UInt8}
    (hc : IsDigit c) {direction : Option CString} {ret : Ret}
    (h : Outcome l₁ c direction ret l₁') :
    ∃ l', Outcome l c direction ret l' ∧ Same l' l₁' := by
  have hnext : ∀ {p q : Cell} {dir : UInt8}, l.First c p → Toward dir p q → l₁.map q = l.map q := by
    intro p q dir hfirst htoward
    have hwall : l.map p ≠ wall := hfirst.map_eq ▸ hc.ne_wall
    exact hsame.map q (hl.toward_inside hfirst.inside hwall htoward)
  cases h with
  | full habsent hfull =>
      exact ⟨l, .full (hsame.absent habsent) (hsame.absent hfull), hsame⟩
  | placed p habsent hfirst =>
      exact ⟨_, .placed p (hsame.absent habsent) (hsame.first hfirst), hsame.set p c⟩
  | stayed p hfirst hnone => exact ⟨l, .stayed p (hsame.first hfirst) hnone, hsame⟩
  | blocked p dir message hfirst hsome hblocked =>
      refine ⟨l, .blocked p dir message (hsame.first hfirst) hsome fun q htoward => ?_, hsame⟩
      rw [← hnext (hsame.first hfirst) htoward]
      exact hblocked q htoward
  | moved p q dir hfirst hsome htoward hempty =>
      refine ⟨_, .moved p q dir (hsame.first hfirst) hsome htoward ?_,
        (hsame.set q c).set p dot⟩
      rw [← hnext (hsame.first hfirst) htoward, hempty]

/-- A call that fails changes nothing. -/
theorem Outcome.eq_of_fail {l l' : Labyrinth} {c : UInt8} {direction : Option CString} {ret : Ret}
    (h : Outcome l c direction ret l') (hret : ret.value = false) : l' = l := by
  cases h with
  | full | stayed | blocked => rfl
  | placed | moved => cases hret

theorem mapText_eq {l : Labyrinth} (hrows : l.rows ≤ maxRows) (hcols : l.cols ≤ maxCols) :
    mapText l = some l.text := by
  have hsave := saveMap_spec hrows hcols []
  rw [saveMap, if_pos rfl] at hsave
  obtain ⟨rows, hmap, hrest⟩ := Option.map_eq_some_iff.mp hsave
  rw [Prod.mk.injEq] at hrest
  rw [mapText, hmap, Option.map_some, hrest.2]
  rfl

/-- **A run on a file that holds a map**: the map is printed as it was, `movePlayer` is
done to it, and the file holds the result if it can be written. -/
theorem main_run {l : Labyrinth} (hl : Playable l) {file : Bytes} (hfile : Holds file l)
    {player_id : CString} {c : UInt8} (hid : player_id.bytes = [c]) (hc : IsDigit c)
    {move_num : Nat} (hnum : move_num ≤ 1) (memory : Labyrinth) (writable : Bool)
    (move : Option CString) {depth : Nat} (hdepth : maxDepth ≤ depth) :
    ∃ exit ret l' file', main depth memory (some file) writable player_id move_num move =
        some exit ∧ Outcome l c move ret l' ∧ exit.stdout = l.text ∧
      exit.success = (ret.value && writable) ∧ exit.file = some file' ∧
      Holds file' (if writable then l' else l) := by
  obtain ⟨l₁, hload, hsame⟩ := hfile memory
  have hrows : l₁.rows ≤ maxRows := hsame.rows ▸ hl.rows
  have hcols : l₁.cols ≤ maxCols := hsame.cols ▸ hl.cols_le
  -- the loaded map is connected, as it has the walls of the map
  obtain ⟨b, hb, hconnected⟩ := isConnected_spec hrows hcols hdepth
  obtain rfl : b = true := hconnected.mpr ((connected_congr hsame.isOpen).mpr hl.connected)
  have htext : l₁.text = l.text := by
    rw [Labyrinth.text, Labyrinth.text, hsame.lines hl.rows hl.cols_le]
  have hchar : charAt player_id 1 = some 0 := by rw [charAt, hid]; rfl
  have hfirst : firstChar player_id = c := by rw [firstChar, hid]; rfl
  have hvalid : ¬ ((0 : UInt8) ≠ 0 ∨ (!isValidPlayer c) = true) := by
    rw [show isValidPlayer c = true from hc]
    decide
  -- up to the call
  have hmain : main depth memory (some file) writable player_id move_num move =
      (movePlayer l₁ c move).bind fun moved =>
        if !moved.1.value then some ⟨false, l.text, moved.1.stderr ++ "Bad move\n", some file⟩
        else
          (saveMap moved.2 writable file).map fun saved =>
            if !saved.1.value then ⟨false, l.text, "Save map false\n", some file⟩
            else ⟨true, l.text, "", some saved.2⟩ := by
    unfold main
    rw [hload, Option.bind_some]
    dsimp only [Ret.ok]
    rw [if_neg (by simp), hb, Option.bind_some, if_neg (by simp), mapText_eq hrows hcols,
      Option.bind_some, hchar, Option.bind_some, hfirst, if_neg hvalid, if_neg (by omega), htext]
    rfl
  rcases movePlayer_spec hrows hcols c move with
    ⟨ret, l₁', hcall, hout, -⟩ | ⟨-, p, dir, hat, -, hover⟩
  · obtain ⟨l', hout', hsame'⟩ := hout.of_same hsame hl hc
    rw [hmain, hcall, Option.bind_some]
    dsimp only
    cases hret : ret.value with
    | false =>
        obtain rfl : l' = l := hout'.eq_of_fail hret
        refine ⟨_, ret, l', file, rfl, hout', rfl, by simp [hret], rfl, ?_⟩
        rwa [ite_self]
    | true =>
        have hplays : Plays l l' := hout'.plays hc
        have hl' : Playable l' := hl.plays hplays
        have hsaved : l₁'.text = l'.text := by
          rw [Labyrinth.text, Labyrinth.text, hsame'.lines hl'.rows hl'.cols_le]
        cases writable with
        | false =>
            exact ⟨_, ret, l', file, rfl, hout', rfl, by simp [Ret.fail], rfl, hfile⟩
        | true =>
            have hsave : saveMap l₁' true file = some (Ret.ok, l'.text) := by
              rw [saveMap_spec (hsame'.rows ▸ hl'.rows) (hsame'.cols ▸ hl'.cols_le), ← hsaved]
              rfl
            rw [hsave]
            exact ⟨_, ret, l', l'.text, rfl, hout', rfl, by simp [Ret.ok, hret], rfl,
              hl'.holds_text⟩
  · have hat' := hsame.first hat
    exact absurd hover (hl.not_overruns hat'.inside (hat'.map_eq ▸ hc.ne_wall) _)

end NjuOs.LabyrinthGame
