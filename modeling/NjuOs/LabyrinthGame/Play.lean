import NjuOs.LabyrinthGame.Connected
import NjuOs.LabyrinthGame.Load

/-!
What play does to connectivity, and what a run of the program does with a
direction that it does not know.

`moves_keep_connected`: moves leave the walls alone, so `isConnected` answers the
same before and after any number of them. `directions_rejected_iff`: only the first
character of a direction is looked at, and none when the player is not on the map,
so an unknown direction is rejected exactly when the call has nowhere to go.
-/

namespace NjuOs.LabyrinthGame

open NjuOs.Lib

/-! ### A run of the program -/

/-- How the process ends, what it has printed, and the map file then. -/
structure Exit where
  success : Bool
  stdout : Bytes
  stderr : String
  file : Option Bytes

/-- `s[i]`, for the characters of the string and its terminator. -/
def charAt (s : CString) (i : Nat) : Option UInt8 := (s.bytes ++ [0])[i]?

/-- The rows of the map, as `main` prints them. -/
def mapText (MAP : Labyrinth) : Option Bytes :=
  ((List.range MAP.rows).mapM (rowChars MAP)).map fun rows =>
    rows.flatMap fun row => row ++ [newline]

/-- `main` behind the checks of its options. `MAP` is what the memory of the map
holds before; `file` is the file at `map_path`, if it can be opened. -/
def main (depth : Nat) (MAP : Labyrinth) (file : Option Bytes) (writable : Bool)
    (player_id : CString) (move_num : Nat) (move : Option CString) : Option Exit :=
  (loadMap MAP file).bind fun (ret, MAP) =>
    if !ret.value then some ⟨false, [], ret.stderr ++ "the map is not good\n", file⟩
    else
      (isConnected depth MAP).bind fun connected =>
        if !connected then some ⟨false, [], "Map is not connected\n", file⟩
        else
          (mapText MAP).bind fun stdout =>
            (charAt player_id 1).bind fun c =>
              if c ≠ 0 ∨ !isValidPlayer (firstChar player_id) then
                some ⟨false, stdout, "Player id false\n", file⟩
              else if move_num > 1 then some ⟨false, stdout, "to many movements\n", file⟩
              else
                (movePlayer MAP (firstChar player_id) move).bind fun (ret, MAP) =>
                  if !ret.value then
                    some ⟨false, stdout, ret.stderr ++ "Bad move\n", file⟩
                  else
                    (saveMap MAP writable (file.getD [])).map fun (ret, content) =>
                      if !ret.value then ⟨false, stdout, "Save map false\n", file⟩
                      else ⟨true, stdout, "", some content⟩

/-! ### Moves and walls -/

/-- What calls make of a map: cells that change were no walls, and are empty or a
player's then. -/
structure Plays (l l' : Labyrinth) : Prop where
  rows : l'.rows = l.rows
  cols : l'.cols = l.cols
  cell : ∀ p, l'.map p = l.map p ∨ l.map p ≠ wall ∧ (IsDigit (l'.map p) ∨ l'.map p = dot)

theorem IsDigit.ne_wall {c : UInt8} (h : IsDigit c) : c ≠ wall := by
  rintro rfl
  cases h

/-- A player's cell, or an empty one, is no wall and can be read back. -/
theorem played_ne {c : UInt8} (h : IsDigit c ∨ c = dot) : c ≠ wall ∧ c ≠ newline ∧ c ≠ 0 := by
  rcases h with h | rfl
  · refine ⟨h.ne_wall, ?_, ?_⟩ <;>
      · rintro rfl
        cases h
  · decide

namespace Plays

variable {l l' l'' : Labyrinth}

theorem refl (l : Labyrinth) : Plays l l := ⟨rfl, rfl, fun _ => .inl rfl⟩

theorem trans (h : Plays l l') (h' : Plays l' l'') : Plays l l'' where
  rows := h'.rows.trans h.rows
  cols := h'.cols.trans h.cols
  cell p := by
    rcases h.cell p with hsame | ⟨hwall, hnew⟩
    · rw [← hsame]
      exact h'.cell p
    · rcases h'.cell p with hsame' | ⟨-, hnew'⟩
      · exact .inr ⟨hwall, hsame' ▸ hnew⟩
      · exact .inr ⟨hwall, hnew'⟩

/-- A cell that is no wall becomes empty, or a player's. -/
theorem set {p : Cell} {c : UInt8} (hp : l.map p ≠ wall) (hc : IsDigit c ∨ c = dot) :
    Plays l (l.set p c) where
  rows := rfl
  cols := rfl
  cell q := by
    by_cases hq : q = p
    · subst hq
      rw [Labyrinth.set_self]
      exact .inr ⟨hp, hc⟩
    · exact .inl (l.set_of_ne hq c)

theorem inside (h : Plays l l') (p : Cell) : l'.Inside p ↔ l.Inside p := by
  rw [Labyrinth.Inside, Labyrinth.Inside, h.rows, h.cols]

/-- The walls stay. -/
theorem isOpen (h : Plays l l') (p : Cell) : l'.Open p ↔ l.Open p := by
  rw [Labyrinth.Open, Labyrinth.Open, h.inside]
  refine and_congr_right fun _ => ?_
  rcases h.cell p with hsame | ⟨hwall, hnew⟩
  · rw [hsame]
  · exact iff_of_true (played_ne hnew).1 hwall

end Plays

/-- One call. -/
theorem Outcome.plays {l l' : Labyrinth} {playerId : UInt8} {direction : Option CString}
    {ret : Ret} (h : Outcome l playerId direction ret l') (hid : IsDigit playerId) :
    Plays l l' := by
  have hdot : dot ≠ wall := by decide
  cases h with
  | full _ _ => exact .refl l
  | placed p _ hfirst => exact .set (hfirst.map_eq ▸ hdot) (.inl hid)
  | stayed p _ _ => exact .refl l
  | blocked p dir message _ _ _ => exact .refl l
  | moved p q dir hfirst _ _ hempty =>
      have hmid : Plays l (l.set q playerId) := .set (hempty ▸ hdot) (.inl hid)
      refine hmid.trans (.set ?_ (.inr rfl))
      by_cases hpq : p = q
      · rw [hpq, Labyrinth.set_self]
        exact hid.ne_wall
      · rw [Labyrinth.set_of_ne _ hpq, hfirst.map_eq]
        exact hid.ne_wall

/-- Any number of calls. -/
theorem exec_plays {calls : List (UInt8 × Option CString)} (hids : ∀ c ∈ calls, IsDigit c.1) :
    ∀ {l : Labyrinth}, l.rows ≤ 99 → l.cols ≤ 99 →
      ∃ l', exec moveStep l calls = some l' ∧ Plays l l' := by
  induction calls with
  | nil => exact fun {l} _ _ => ⟨l, rfl, .refl l⟩
  | cons call calls ih =>
      intro l hrows hcols
      obtain ⟨ret, mid, hcall, hout⟩ := movePlayer_outcome hrows hcols call.1 call.2
      have hplays := hout.plays (hids call List.mem_cons_self)
      have hstep : moveStep l call = some mid := by rw [moveStep, hcall, Option.map_some]
      obtain ⟨l', hexec, hrest⟩ := ih (fun c hc => hids c (List.mem_cons_of_mem _ hc))
        (hplays.rows ▸ hrows) (hplays.cols ▸ hcols)
      exact ⟨l', (exec_cons hstep calls).trans hexec, hplays.trans hrest⟩

/-- The answer of `isConnected` is that of the open cells. -/
theorem isConnected_congr {l l' : Labyrinth} (hrows : l.rows ≤ maxRows) (hcols : l.cols ≤ maxCols)
    (hrows' : l'.rows ≤ maxRows) (hcols' : l'.cols ≤ maxCols) (h : ∀ p, l'.Open p ↔ l.Open p)
    {depth : Nat} (hdepth : maxDepth ≤ depth) : isConnected depth l' = isConnected depth l := by
  obtain ⟨b, hb, hconnected⟩ := isConnected_spec hrows hcols hdepth
  obtain ⟨b', hb', hconnected'⟩ := isConnected_spec hrows' hcols' hdepth
  have hsame : b' = b := Bool.eq_iff_iff.mpr
    (hconnected'.trans ((connected_congr h).trans hconnected.symm))
  rw [hb, hb', hsame]

/-- Loading what is saved gives a map with the same answer. -/
def ReadBackConnected (depth : Nat) (l : Labyrinth) : Prop :=
  ∀ (memory : Labyrinth) (old : Bytes), ∃ file l',
    saveMap l true old = some (Ret.ok, file) ∧ loadMap memory (some file) = some (Ret.ok, l') ∧
      isConnected depth l' = some true

theorem readBackConnected {l : Labyrinth} (hrows : l.rows ≤ 99) (hcols : l.cols ≤ 99)
    (hclean : ∀ p, l.Inside p → l.map p ≠ newline ∧ l.map p ≠ 0) {depth : Nat}
    (hdepth : maxDepth ≤ depth) (h : isConnected depth l = some true) :
    ReadBackConnected depth l := by
  have hmaxr : l.rows ≤ maxRows := le_trans hrows (by decide)
  have hmaxc : l.cols ≤ maxCols := le_trans hcols (by decide)
  -- there is an open cell, so the map is not empty
  obtain ⟨b, hb, hconnected⟩ := isConnected_spec hmaxr hmaxc hdepth
  obtain rfl : b = true := Option.some.inj (hb.symm.trans h)
  obtain ⟨⟨p, ⟨hrow, hcol⟩, -⟩, -⟩ := hconnected.mp rfl
  intro memory old
  obtain ⟨file, l', hsave, hload, hrows', hcols', hmap⟩ :=
    roundTrips_narrow ⟨by omega, hmaxr⟩ hclean ⟨by omega, hcols⟩ memory old
  refine ⟨file, l', hsave, hload, ?_⟩
  rw [isConnected_congr hmaxr hmaxc (hrows' ▸ hmaxr) (hcols' ▸ hmaxc) (fun q => ?_) hdepth, h]
  rw [Labyrinth.Open, Labyrinth.Open, Labyrinth.Inside, hrows', hcols', ← Labyrinth.Inside]
  refine and_congr_right fun hq => ?_
  rw [hmap q hq]

/-- **Play keeps connectivity**: whatever calls are made, and whether they are
accepted or not, `isConnected` answers as before. A connected map of characters
that a line can hold is still accepted when it is saved and loaded again. -/
theorem moves_keep_connected {calls : List (UInt8 × Option CString)}
    (hids : ∀ c ∈ calls, IsDigit c.1) {l : Labyrinth} (hrows : l.rows ≤ 99) (hcols : l.cols ≤ 99)
    {depth : Nat} (hdepth : maxDepth ≤ depth) :
    ∃ l', exec moveStep l calls = some l' ∧ isConnected depth l' = isConnected depth l ∧
      ((∀ p, l.Inside p → l.map p ≠ newline ∧ l.map p ≠ 0) →
        isConnected depth l = some true → ReadBackConnected depth l') := by
  obtain ⟨l', hexec, hplays⟩ := exec_plays hids hrows hcols
  have hrows' : l'.rows ≤ 99 := hplays.rows ▸ hrows
  have hcols' : l'.cols ≤ 99 := hplays.cols ▸ hcols
  have hmax : ∀ {n : Nat}, n ≤ 99 → n ≤ 100 := fun h => le_trans h (by decide)
  have hsame : isConnected depth l' = isConnected depth l :=
    isConnected_congr (hmax hrows) (hmax hcols) (hmax hrows') (hmax hcols') hplays.isOpen hdepth
  refine ⟨l', hexec, hsame, fun hclean hconnected => ?_⟩
  apply readBackConnected hrows' hcols' _ hdepth (hsame.trans hconnected)
  intro p hp
  rcases hplays.cell p with hcell | ⟨-, hnew⟩
  · rw [hcell]
    exact hclean p ((hplays.inside p).mp hp)
  · exact (played_ne hnew).2

theorem moves_keep_connected_two_players :
    ∃ l', exec moveStep (field 1 3) [(48, none), (49, none), (49, some (.single 114))] = some l' ∧
      isConnected maxDepth l' = isConnected maxDepth (field 1 3) ∧
      ((∀ p, (field 1 3).Inside p → (field 1 3).map p ≠ newline ∧ (field 1 3).map p ≠ 0) →
        isConnected maxDepth (field 1 3) = some true → ReadBackConnected maxDepth l') :=
  moves_keep_connected (by simp [IsDigit, isValidPlayer]) (by decide) (by decide) (Nat.le_refl _)

/-- A row of `loadMap` that is left as the memory was, above one with characters. -/
theorem loadMap_gap (l : Labyrinth) {file line : Bytes} (hrows : rowsOf file = [[], line]) :
    loadMap l (some file) = some (Ret.ok, { l.storeLine 1 0 line with
      rows := 2, cols := line.length }) := by
  have hloaded : loaded l file = { l.storeLine 1 0 line with rows := 2, cols := line.length } := by
    rw [loaded, widths, hrows, Labyrinth.storeLines, Labyrinth.storeLine_nil]
    rfl
  have haccepted : Accepted file := by
    rw [Accepted, widths, hrows]
    exact ⟨⟨.inl rfl, .inl rfl, trivial⟩, by simp⟩
  rcases loadMap_cases l file with ⟨-, hload⟩ | ⟨hbad, -⟩ | ⟨hbehind, -⟩
  · rw [hload, hloaded]
  · exact absurd haccepted hbad
  · exact absurd haccepted hbehind.not_accepted

/-- A memory of one character. -/
def filled (c : UInt8) : Labyrinth := ⟨fun _ => c, 0, 0⟩

/-- What an empty line and `.#.` are loaded as, into memory of NULs. -/
def gapMap : Labyrinth := { (filled 0).storeLine 1 0 (ascii ".#.") with rows := 2, cols := 3 }

/-- With NULs in its cells a connected map is saved with a row that is not read back. In another
memory this row can be walls. -/
theorem gap_rejected :
    loadMap (filled 0) (some (ascii "\n.#.\n")) = some (Ret.ok, gapMap) ∧
      gapMap.rows ≤ 99 ∧ gapMap.cols ≤ 99 ∧
      ∃ l', exec moveStep gapMap [(48, none)] = some l' ∧ isConnected maxDepth gapMap = some true ∧
        isConnected maxDepth l' = some true ∧ ¬ ReadBackConnected maxDepth l' := by
  have hrows : rowsOf (ascii "\n.#.\n") = [[], ascii ".#."] := by
    have hsplit : ascii "\n.#.\n" = [] ++ newline :: (ascii ".#." ++ newline :: []) := by decide
    rw [hsplit, rowsOf_piece (by decide) (by decide), rowsOf_line (by decide) (by decide)
      (by decide), rowsOf_nil]
    decide
  have hrows' : rowsOf ([0, 0, 0, newline] ++ ascii "0#.\n") = [[], ascii "0#."] := by
    have hsplit : [0, 0, 0, newline] ++ ascii "0#.\n" =
        [0, 0, 0] ++ newline :: (ascii "0#." ++ newline :: []) := by decide
    rw [hsplit, rowsOf_piece (by decide) (by decide), rowsOf_line (by decide) (by decide)
      (by decide), rowsOf_nil]
    decide
  refine ⟨loadMap_gap _ hrows, by decide, by decide, gapMap.set (1, 0) 48, rfl, by decide,
    by decide, fun h => ?_⟩
  obtain ⟨file, l', hsave, hload, hconnected⟩ := h (filled wall) []
  have hfile : saveMap (gapMap.set (1, 0) 48) true [] =
      some (Ret.ok, [0, 0, 0, newline] ++ ascii "0#.\n") := by decide
  obtain ⟨-, rfl⟩ := Prod.mk.inj (Option.some.inj (hsave.symm.trans hfile))
  rw [loadMap_gap _ hrows'] at hload
  obtain ⟨-, rfl⟩ := Prod.mk.inj (Option.some.inj hload)
  revert hconnected
  decide

/-! ### Unknown directions -/

/-- The directions that the program knows. -/
def directions : List Bytes := [ascii "up", ascii "down", ascii "left", ascii "right"]

/-- The call fails and changes nothing, and so does every run of the program on a
file with this map. -/
def Rejects (l : Labyrinth) (playerId : UInt8) (direction : CString) : Prop :=
  (∃ message, movePlayer l playerId (some direction) = some (Ret.fail message, l)) ∧
    ∀ memory file writable player_id move_num, ∀ depth ≥ maxDepth,
      loadMap memory (some file) = some (Ret.ok, l) → player_id.bytes = [playerId] →
        ∃ exit, main depth memory (some file) writable player_id move_num (some direction) =
          some exit ∧ exit.success = false ∧ exit.file = some file

/-- The call has nowhere to go: no cell for a player that is not on the map, or
none in the direction that the first character names, if it names one. -/
def NowhereToGo (l : Labyrinth) (playerId : UInt8) (c : UInt8) : Prop :=
  l.Absent playerId ∧ l.Absent dot ∨
    ∃ p, l.First playerId p ∧ ¬ Overruns c p ∧ ∀ q, Toward c p q → l.map q ≠ dot

section

variable {l : Labyrinth} (hrows : l.rows ≤ maxRows) (hcols : l.cols ≤ maxCols)

include hrows hcols

theorem movePlayer_fails_iff (playerId : UInt8) (direction : CString) :
    (∃ message, movePlayer l playerId (some direction) = some (Ret.fail message, l)) ↔
      NowhereToGo l playerId (firstChar direction) := by
  rcases movePlayer_spec hrows hcols playerId (some direction) with
    ⟨ret, l', hcall, hout, hin⟩ | ⟨hnone, p, dir, hfirst, hdir, hover⟩
  · rw [hcall]
    cases hout with
    | full habsent hfull => exact iff_of_true ⟨_, rfl⟩ (.inl ⟨habsent, hfull⟩)
    | placed p habsent hfirst =>
        refine iff_of_false (by rintro ⟨message, h⟩; cases h) ?_
        rintro (⟨-, hfull⟩ | ⟨q, hq, -⟩)
        · exact hfull p hfirst.inside hfirst.map_eq
        · exact habsent q hq.inside hq.map_eq
    | stayed p _ hnone => cases hnone
    | blocked p dir message hfirst hdir hblocked =>
        obtain rfl := Option.some.inj hdir
        exact iff_of_true ⟨_, rfl⟩ (.inr ⟨p, hfirst, hin p direction hfirst rfl, hblocked⟩)
    | moved p q dir hfirst hdir htoward hempty =>
        obtain rfl := Option.some.inj hdir
        refine iff_of_false (by rintro ⟨message, h⟩; cases h) ?_
        rintro (⟨habsent, -⟩ | ⟨p', hp', -, hblocked⟩)
        · exact habsent p hfirst.inside hfirst.map_eq
        · rw [hp'.unique hfirst] at hblocked
          exact hblocked q htoward hempty
  · obtain rfl := Option.some.inj hdir
    rw [hnone]
    refine iff_of_false (by rintro ⟨message, h⟩; cases h) ?_
    rintro (⟨habsent, -⟩ | ⟨p', hp', hin, -⟩)
    · exact habsent p hfirst.inside hfirst.map_eq
    · rw [hp'.unique hfirst] at hin
      exact hin hover

/-- The rows that are printed are inside the array. -/
theorem exists_mapText : ∃ text, mapText l = some text := by
  obtain ⟨text, htext⟩ : ∃ text, saveMap l true [] = some (Ret.ok, text) :=
    ⟨_, saveMap_spec hrows hcols []⟩
  rw [saveMap, if_pos rfl] at htext
  obtain ⟨rows, hmap, -⟩ := Option.map_eq_some_iff.mp htext
  exact ⟨_, by rw [mapText, hmap, Option.map_some]⟩

/-- A run whose call fails exits with failure, and does not open the file again. -/
theorem main_fails {playerId : UInt8} {direction : CString} {message : String}
    (hfails : movePlayer l playerId (some direction) = some (Ret.fail message, l))
    {memory : Labyrinth} {file : Bytes} (hload : loadMap memory (some file) = some (Ret.ok, l))
    {player_id : CString} (hid : player_id.bytes = [playerId]) (writable : Bool) (move_num : Nat)
    {depth : Nat} (hdepth : maxDepth ≤ depth) :
    ∃ exit, main depth memory (some file) writable player_id move_num (some direction) =
      some exit ∧ exit.success = false ∧ exit.file = some file := by
  obtain ⟨b, hb, -⟩ := isConnected_spec hrows hcols hdepth
  obtain ⟨text, htext⟩ := exists_mapText hrows hcols
  have hchar : charAt player_id 1 = some 0 := by rw [charAt, hid]; rfl
  have hfirst : firstChar player_id = playerId := by rw [firstChar, hid]; rfl
  unfold main
  rw [hload, Option.bind_some]
  dsimp only [Ret.ok]
  rw [if_neg (by simp), hb, Option.bind_some]
  cases b with
  | false => exact ⟨_, rfl, rfl, rfl⟩
  | true =>
      rw [if_neg (by simp), htext, Option.bind_some, hchar, Option.bind_some, hfirst]
      by_cases hbad : (0 : UInt8) ≠ 0 ∨ (!isValidPlayer playerId) = true
      · rw [if_pos hbad]
        exact ⟨_, rfl, rfl, rfl⟩
      · rw [if_neg hbad]
        by_cases hmany : move_num > 1
        · rw [if_pos hmany]
          exact ⟨_, rfl, rfl, rfl⟩
        · rw [if_neg hmany, hfails, Option.bind_some]
          exact ⟨_, rfl, rfl, rfl⟩

/-- **A direction is rejected** exactly when the call has nowhere to go. No string
is rejected for being unknown, if its first character is one of the four or the
player is not on the map. -/
theorem directions_rejected_iff (playerId : UInt8) (direction : CString) :
    Rejects l playerId direction ↔ NowhereToGo l playerId (firstChar direction) := by
  rw [← movePlayer_fails_iff hrows hcols]
  constructor
  · intro h
    exact h.1
  · rintro ⟨message, hfails⟩
    refine ⟨⟨message, hfails⟩, ?_⟩
    intro memory file writable player_id move_num depth hdepth hload hid
    exact main_fails hrows hcols hfails hload hid writable move_num hdepth

end

/-- A player on a map of one cell. -/
def onePlayer : Labyrinth := (field 1 1).set (0, 0) 48

theorem onePlayer_first : onePlayer.First 48 (0, 0) where
  inside := by decide
  map_eq := Labyrinth.set_self ..
  before q _ hq := by
    rcases hq with hq | ⟨-, hq⟩
    · exact absurd hq (Nat.not_lt_zero _)
    · exact absurd hq (Nat.not_lt_zero _)

/-- It does not move to `"x"`. -/
theorem directions_rejected_one_player : Rejects onePlayer 48 (.single 120) := by
  refine (directions_rejected_iff (by decide) (by decide) 48 (.single 120)).mpr ?_
  have hstuck : Stuck (firstChar (.single 120)) (0, 0) := .inl (by decide)
  exact .inr ⟨(0, 0), onePlayer_first, fun h => h.not_stuck hstuck,
    fun q hq => absurd hstuck hq.not_stuck⟩

/-- The string `"invalid"`. -/
def invalid : CString := ⟨ascii "invalid", by decide⟩

/-- A player that is not on the map is placed on it, whatever the direction is. -/
theorem invalid_direction_accepted :
    invalid.bytes ∉ directions ∧ ¬ Rejects (field 3 4) 49 invalid := by
  refine ⟨by decide, fun h => ?_⟩
  have hhas : ¬ (field 3 4).Absent dot := fun h => h (0, 0) (by decide) rfl
  have hnone : ∀ p, ¬ (field 3 4).First 49 p := fun p hp => by
    have hmap := hp.map_eq
    cases hmap
  rcases (movePlayer_fails_iff (by decide) (by decide) 49 invalid).mp h.1 with
    ⟨-, hfull⟩ | ⟨p, hp, -⟩
  · exact hhas hfull
  · exact hnone p hp

end NjuOs.LabyrinthGame
