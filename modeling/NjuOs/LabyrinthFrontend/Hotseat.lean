import NjuOs.LabyrinthFrontend.Basic
import NjuOs.LabyrinthGame.Rules
import NjuOs.Lib.Window

/-!
`hotseat.py`: two players at one keyboard.

Each key starts the game once for the move, and once more to show the map. What the
memory of these processes holds at their start is part of the input of a turn. The cursor
of the terminal can be hidden, and its size stays. What `print` writes on it is gone with
the next `refresh`, which after a `clear` draws the whole window.

On a terminal with room for the map, `hotseat_follows_rules` says which map the players
see after every sequence of keys, and `hotseat_rearranges` what such a sequence can make
of the map at most.
-/

namespace NjuOs.LabyrinthFrontend

open NjuOs.Lib NjuOs.LabyrinthGame

/-! ### The front end -/

def ord (c : Char) : Int := c.toNat

def player1Id : Nat := 0
def player2Id : Nat := 1

/-- The player that a key moves, and where to. -/
def controls (key : Int) : Option (Nat × CString) :=
  if key = ord 'w' then some (player1Id, up)
  else if key = ord 'a' then some (player1Id, left)
  else if key = ord 's' then some (player1Id, down)
  else if key = ord 'd' then some (player1Id, right)
  else if key = ord 'k' then some (player2Id, up)
  else if key = ord 'h' then some (player2Id, left)
  else if key = ord 'j' then some (player2Id, down)
  else if key = ord 'l' then some (player2Id, right)
  else none

/-- A key, and what the memory of the two processes of its turn holds. -/
structure Input where
  key : Int
  moveMemory : Labyrinth
  showMemory : Labyrinth

structure Game where
  stdscr : Window
  tempMapFile : Bytes
  mapState : List Bytes

/-- How the front end ends before a `q`. -/
inductive Ended
  | printed (message : String)
  | cursesError

/-- `check_player_positions`, on a file that can be read. -/
def checkPlayerPositions (mapContent : Bytes) (requiredPlayers : List Nat) : Bool :=
  requiredPlayers.all fun playerId => digit playerId ∈ mapContent

/-- `display_map` -/
def displayMap (stdscr : Window) (mapState : List Bytes) : Option Window :=
  mapState.zipIdx.foldlM (fun (w : Window) (line : Bytes × Nat) => w.addstr line.2 0 line.1)
    stdscr.clear

/-- The map and the control instructions, as they are drawn behind `get_map_state`. -/
def draw (stdscr : Window) (mapState : List Bytes) : Option Window :=
  (displayMap stdscr mapState).bind fun stdscr =>
  (stdscr.addstr (mapState.length + 2) 0 (ascii "Player 1: WASD to move")).bind fun stdscr =>
  (stdscr.addstr (mapState.length + 3) 0 (ascii "Player 2: HJKL to move")).bind fun stdscr =>
  stdscr.addstr (mapState.length + 4) 0 (ascii "Press Q to quit")

section

variable (depth : Nat) (writable : Bool)

/-- `get_map_state`, and the drawing behind it. -/
def update (memory : Labyrinth) (stdscr : Window) (tempMapFile : Bytes) :
    Option (Except Ended Game) :=
  (getMapState depth writable memory tempMapFile).map fun (tempMapFile, mapState) =>
    (draw stdscr mapState).elim (.error .cursesError) fun stdscr =>
      .ok ⟨stdscr, tempMapFile, mapState⟩

/-- The body of the loop, behind the exit. -/
def turn (s : Game) (input : Input) : Option (Except Ended Game) :=
  (match controls input.key with
    | some (playerId, direction) =>
        (movePlayer depth writable input.moveMemory s.tempMapFile playerId direction).map Prod.fst
    | none => some s.tempMapFile).bind fun tempMapFile =>
  update depth writable input.showMemory s.stdscr tempMapFile

/-- The main loop, up to the end of the game or of the keys so far. -/
def gameLoop (s : Game) : List Input → Option (Except Ended Game)
  | [] => some (.ok s)
  | input :: inputs =>
      if input.key = ord 'q' then some (.ok s)
      else
        (turn depth writable s input).bind fun
          | .ok s => gameLoop s inputs
          | .error ended => some (.error ended)

/-- `run_game`. The temporary file is a copy of the map file, and can be written if
that can. -/
def runGame (stdscr : Window) (mapFile : Bytes) (memory : Labyrinth) (inputs : List Input) :
    Option (Except Ended Game) :=
  if !checkPlayerPositions mapFile [0, 1] then
    some (.error (.printed "Error: Map must contain positions for players 0 and 1"))
  else
    (update depth writable memory stdscr.clear mapFile).bind fun
      | .ok s => gameLoop depth writable s inputs
      | .error ended => some (.error ended)

end

/-! ### The game -/

/-- What a key does to the map. On a file that cannot be written it does nothing. -/
def Turn (writable : Bool) (key : Int) (l l' : Labyrinth) : Prop :=
  match if writable then controls key else none with
  | some (playerId, direction) => Rule (digit playerId) (firstChar direction) l l'
  | none => l' = l

/-- The keys before the end of the game. -/
def keysOf (inputs : List Input) : List Int :=
  (inputs.map Input.key).takeWhile fun key => key ≠ ord 'q'

/-- The window has room for the map and for the instructions, which are up to 22 characters
long. -/
structure Fits (l : Labyrinth) (stdscr : Window) : Prop where
  rows : l.rows + 5 ≤ stdscr.height
  cols : l.cols ≤ stdscr.width
  instructions : 22 ≤ stdscr.width

/-- What the players see: the map, and behind two empty rows the instructions. -/
def screen (l : Labyrinth) : List Bytes :=
  l.lines ++ [[], [], ascii "Player 1: WASD to move", ascii "Player 2: HJKL to move",
    ascii "Press Q to quit"]

/-- The file is the map, and so is what the players see. -/
structure Shows (s : Game) (l : Labyrinth) : Prop where
  file : Holds s.tempMapFile l
  mapState : s.mapState = l.lines
  screen : s.stdscr.Shows (screen l)

/-- A map that can be played and shown, with both players. -/
structure Ready (l : Labyrinth) : Prop where
  playable : Playable l
  visible : Visible l
  present : ∀ playerId ∈ [player1Id, player2Id], ¬ l.Absent (digit playerId)

/-! ### The screen -/

theorem Fits.rearranged {movable : UInt8 → Prop} {l l' : Labyrinth} {stdscr : Window}
    (h : Fits l stdscr) (hmoved : Rearranged movable l l') : Fits l' stdscr :=
  ⟨hmoved.rows ▸ h.rows, hmoved.cols ▸ h.cols, h.instructions⟩

theorem displayMap_spec {l : Labyrinth} {stdscr : Window} (h : Fits l stdscr) :
    ∃ stdscr', displayMap stdscr l.lines = some stdscr' ∧ Fits l stdscr' ∧
      stdscr'.Shows l.lines := by
  obtain ⟨hrows, hcols, hwidth⟩ := h
  have hline : ∀ line ∈ l.lines, line.length ≤ stdscr.clear.width := by
    intro line hmem
    obtain ⟨i, -, rfl⟩ := List.mem_map.mp hmem
    rw [l.length_line i]
    exact hcols
  obtain ⟨w, hmap, hheight, hwidth', hshows⟩ := (Window.shows_clear stdscr).addLines l.lines
    (by rw [List.length_nil, l.length_lines]; exact Nat.lt_of_lt_of_le (by omega) hrows)
    (Nat.lt_of_lt_of_le (by decide) hwidth) hline
  change w.height = stdscr.height at hheight
  change w.width = stdscr.width at hwidth'
  exact ⟨w, hmap, ⟨by omega, by omega, by omega⟩, hshows⟩

/-- A map that has room is drawn, whatever stood in the window. -/
theorem draw_spec {l : Labyrinth} {stdscr : Window} (h : Fits l stdscr) :
    ∃ stdscr', draw stdscr l.lines = some stdscr' ∧ Fits l stdscr' ∧ stdscr'.Shows (screen l) := by
  obtain ⟨w, hmap, ⟨hrows, hcols, hwidth⟩, hshows⟩ := displayMap_spec h
  have htexts : (ascii "Player 1: WASD to move").length = 22 ∧
      (ascii "Player 2: HJKL to move").length = 22 ∧ (ascii "Press Q to quit").length = 15 := by
    decide
  obtain ⟨htext₁, htext₂, htext₃⟩ := htexts
  obtain ⟨w₁, hadd₁, hheight₁, hwidth₁, hshows₁⟩ := hshows.skip.skip.addstr
    (l.rows + 2) (ascii "Player 1: WASD to move")
    (by simp [l.length_lines]) (by omega) (.inl (by omega)) (by omega) (by omega)
  obtain ⟨w₂, hadd₂, hheight₂, hwidth₂, hshows₂⟩ := hshows₁.addstr
    (l.rows + 3) (ascii "Player 2: HJKL to move")
    (by simp [l.length_lines]) (by omega) (.inl (by omega)) (by omega) (by omega)
  -- the last text ends before the last cell of its row
  obtain ⟨w₃, hadd₃, hheight₃, hwidth₃, hshows₃⟩ := hshows₂.addstr
    (l.rows + 4) (ascii "Press Q to quit")
    (by simp [l.length_lines]) (by omega) (.inr (by omega)) (by omega) (by omega)
  refine ⟨w₃, ?_, ⟨by omega, by omega, by omega⟩, ?_⟩
  · rw [draw, hmap, Option.bind_some, l.length_lines, hadd₁, Option.bind_some, hadd₂,
      Option.bind_some, hadd₃]
  · simpa only [screen, List.append_assoc, List.cons_append, List.nil_append] using hshows₃

/-! ### Turns -/

theorem controls_player {key : Int} {playerId : Nat} {direction : CString}
    (h : controls key = some (playerId, direction)) : playerId ∈ [player1Id, player2Id] := by
  unfold controls at h
  split_ifs at h <;>
    · cases h
      decide

theorem player_lt {playerId : Nat} (h : playerId ∈ [player1Id, player2Id]) : playerId < 10 := by
  revert h
  simp only [List.mem_cons, List.not_mem_nil, or_false, player1Id, player2Id]
  omega

/-- The characters that the two players can move. -/
def Movable (c : UInt8) : Prop := c = digit player1Id ∨ c = digit player2Id ∨ c = dot

theorem Movable.played {c : UInt8} (h : Movable c) : IsDigit c ∨ c = dot := by
  rcases h with rfl | rfl | rfl
  · exact .inl (str_bytes (player_lt List.mem_cons_self)).2
  · exact .inl (str_bytes (player_lt (List.mem_cons_of_mem _ List.mem_cons_self))).2
  · exact .inr rfl

namespace Ready

variable {l l' : Labyrinth}

theorem rearranged (h : Ready l) (hmoved : Rearranged Movable l l') : Ready l' where
  playable := h.playable.plays (hmoved.plays fun _ => Movable.played)
  visible := h.visible.plays (hmoved.plays fun _ => Movable.played)
  present playerId hid habsent := h.present playerId hid ((hmoved.absent_iff _).mp habsent)

/-- A key moves one of the two players. -/
theorem turn (h : Ready l) {writable : Bool} {key : Int} (hturn : Turn writable key l l') :
    Rearranged Movable l l' := by
  unfold Turn at hturn
  split at hturn
  · next playerId direction hcontrols =>
    have hid : playerId ∈ [player1Id, player2Id] := by
      cases writable with
      | true => exact controls_player hcontrols
      | false => cases hcontrols
    refine (hturn.rearranged h.playable (str_bytes (player_lt hid)).2).mono fun c hc => ?_
    rcases hc with rfl | rfl
    · simp only [List.mem_cons, List.not_mem_nil, or_false] at hid
      rcases hid with rfl | rfl
      · exact .inl rfl
      · exact .inr (.inl rfl)
    · exact .inr (.inr rfl)
  · rw [hturn]
    exact .refl l

end Ready

section

variable {depth : Nat} (hdepth : maxDepth ≤ depth)

include hdepth

/-- Showing a map with player 0 leaves it. -/
theorem update_spec {l : Labyrinth} (hl : Ready l) {mapFile : Bytes} (hfile : Holds mapFile l)
    {stdscr : Window} (hfits : Fits l stdscr) (writable : Bool) (memory : Labyrinth) :
    ∃ s, update depth writable memory stdscr mapFile = some (.ok s) ∧ Fits l s.stdscr ∧
      Shows s l := by
  obtain ⟨ret, l', mapFile', hget, hout, hholds⟩ :=
    getMapState_spec hdepth hl.playable hfile hl.visible writable memory
  obtain rfl : l' = l := hout.eq_of_present (hl.present player1Id List.mem_cons_self)
  rw [ite_self] at hholds
  obtain ⟨stdscr', hdraw, hfits', hscreen⟩ := draw_spec hfits
  refine ⟨⟨stdscr', mapFile', l'.lines⟩, ?_, hfits', hholds, rfl, hscreen⟩
  rw [update, hget, Option.map_some]
  dsimp only
  rw [hdraw, Option.elim_some]

/-- One turn follows the rules. -/
theorem turn_spec {l : Labyrinth} (hl : Ready l) {s : Game} (hs : Shows s l)
    (hfits : Fits l s.stdscr) (writable : Bool) (input : Input) :
    ∃ s' l', turn depth writable s input = some (.ok s') ∧ Turn writable input.key l l' ∧
      Fits l' s'.stdscr ∧ Shows s' l' := by
  obtain ⟨mapFile, l', hmove, hturn, hfile⟩ : ∃ mapFile l',
      (match controls input.key with
        | some (playerId, direction) =>
            (movePlayer depth writable input.moveMemory s.tempMapFile playerId direction).map
              Prod.fst
        | none => some s.tempMapFile) = some mapFile ∧
      Turn writable input.key l l' ∧ Holds mapFile l' := by
    unfold Turn
    cases hcontrols : controls input.key with
    | none =>
        rw [ite_self]
        exact ⟨_, l, rfl, rfl, hs.file⟩
    | some control =>
        obtain ⟨playerId, direction⟩ := control
        have hid := controls_player hcontrols
        obtain ⟨ret, l', mapFile, hcall, hout, hholds⟩ :=
          movePlayer_spec hdepth hl.playable hs.file writable input.moveMemory (player_lt hid)
            direction
        refine ⟨mapFile, if writable then l' else l, ?_, ?_, hholds⟩
        · dsimp only
          rw [hcall, Option.map_some]
        · cases writable with
          | true => exact hout.rule (hl.present playerId hid)
          | false => rfl
  have hmoved := hl.turn hturn
  obtain ⟨s', hupdate, hfits', hs'⟩ := update_spec hdepth (hl.rearranged hmoved) hfile
    (hfits.rearranged hmoved) writable input.showMemory
  refine ⟨s', l', ?_, hturn, hfits', hs'⟩
  rw [turn, hmove, Option.bind_some, hupdate]

/-- The loop follows the rules, key by key, and nothing is lost on the way. -/
theorem gameLoop_spec (writable : Bool) (inputs : List Input) :
    ∀ {l : Labyrinth} {s : Game}, Ready l → Shows s l → Fits l s.stdscr →
      ∃ s' l', gameLoop depth writable s inputs = some (.ok s') ∧
        Chain (Turn writable) (keysOf inputs) l l' ∧ Rearranged Movable l l' ∧ Shows s' l' := by
  induction inputs with
  | nil => exact fun {l s} _ hs _ => ⟨s, l, rfl, rfl, .refl l, hs⟩
  | cons input inputs ih =>
      intro l s hl hs hfits
      by_cases hq : input.key = ord 'q'
      · refine ⟨s, l, by rw [gameLoop, if_pos hq], ?_, .refl l, hs⟩
        have hkeys : keysOf (input :: inputs) = [] := by simp [keysOf, hq]
        rw [hkeys]
        rfl
      · obtain ⟨t, m, hstep, hturn, hroom, ht⟩ := turn_spec hdepth hl hs hfits writable input
        have hmoved := hl.turn hturn
        obtain ⟨s', l', hloop, hchain, hrest, hs'⟩ := ih (hl.rearranged hmoved) ht hroom
        refine ⟨s', l', ?_, ?_, hmoved.trans hrest, hs'⟩
        · rw [gameLoop, if_neg hq, hstep, Option.bind_some]
          exact hloop
        · have hkeys : keysOf (input :: inputs) = input.key :: keysOf inputs := by
            simp [keysOf, hq]
          rw [hkeys]
          exact ⟨m, hturn, hchain⟩

/-- A map file that the front end accepts is played. -/
theorem runGame_spec {mapFile : Bytes} {l : Labyrinth} (hfile : MapFile mapFile l)
    (hl : Playable l) (hvisible : Visible l)
    (hcheck : checkPlayerPositions mapFile [player1Id, player2Id] = true) {stdscr : Window}
    (hfits : Fits l stdscr) (writable : Bool) (memory : Labyrinth) (inputs : List Input) :
    ∃ s l', runGame depth writable stdscr mapFile memory inputs = some (.ok s) ∧
      Chain (Turn writable) (keysOf inputs) l l' ∧ Rearranged Movable l l' ∧ Shows s l' := by
  have hready : Ready l := by
    refine ⟨hl, hvisible, fun playerId hid => hfile.present hl.rows hl.cols_le ?_ ?_⟩
    · have hdigit := (str_bytes (player_lt hid)).2
      exact (played_ne (.inl hdigit)).2.1
    · exact of_decide_eq_true (List.all_eq_true.mp hcheck playerId hid)
  have hclear : Fits l stdscr.clear := ⟨hfits.rows, hfits.cols, hfits.instructions⟩
  obtain ⟨t, hupdate, hroom, ht⟩ :=
    update_spec hdepth hready (hfile.holds hl) hclear writable memory
  obtain ⟨s, l', hloop, hchain, hmoved, hs⟩ := gameLoop_spec hdepth writable inputs hready ht hroom
  refine ⟨s, l', ?_, hchain, hmoved, hs⟩
  have hplayers : checkPlayerPositions mapFile [0, 1] = true := hcheck
  rw [runGame, hplayers, if_neg (by decide), hupdate, Option.bind_some]
  exact hloop

end

/-! ### Whole games -/

/-- **The players see the game that the rules give**: after every sequence of keys the
screen shows the map that the keys up to the first `q` lead to, and the file holds it. -/
theorem hotseat_follows_rules {depth : Nat} (hdepth : maxDepth ≤ depth) {mapFile : Bytes}
    {l : Labyrinth} (hfile : MapFile mapFile l) (hl : Playable l) (hvisible : Visible l)
    (hcheck : checkPlayerPositions mapFile [player1Id, player2Id] = true) {stdscr : Window}
    (hfits : Fits l stdscr) (writable : Bool) (memory : Labyrinth) (inputs : List Input) :
    ∃ s l', runGame depth writable stdscr mapFile memory inputs = some (.ok s) ∧
      Chain (Turn writable) (keysOf inputs) l l' ∧ Shows s l' := by
  obtain ⟨s, l', hrun, hchain, -, hs⟩ :=
    runGame_spec hdepth hfile hl hvisible hcheck hfits writable memory inputs
  exact ⟨s, l', hrun, hchain, hs⟩

theorem fits_corridor : Fits corridor ⟨24, 80, fun _ => space⟩ := ⟨by decide, by decide, by decide⟩

/-- Player 0 goes to the right, next to player 1. -/
theorem hotseat_corridor_right :
    ∃ s l', runGame maxDepth true ⟨24, 80, fun _ => space⟩ (ascii "0.1#\n####\n") (field 0 0)
        [⟨ord 'd', field 0 0, field 1 2⟩, ⟨ord 'q', field 0 0, field 0 0⟩] = some (.ok s) ∧
      Chain (Turn true) (keysOf [⟨ord 'd', field 0 0, field 1 2⟩, ⟨ord 'q', field 0 0, field 0 0⟩])
        corridor l' ∧ Shows s l' :=
  hotseat_follows_rules (Nat.le_refl _) corridor_mapFile corridor_playable corridor_visible
    (by decide) fits_corridor true (field 0 0) _

/-- **Play only moves the two players**: after every sequence of keys the file still
holds a connected map, in which players 0 and 1 and empty cells have changed places. -/
theorem hotseat_rearranges {depth : Nat} (hdepth : maxDepth ≤ depth) {mapFile : Bytes}
    {l : Labyrinth} (hfile : MapFile mapFile l) (hl : Playable l) (hvisible : Visible l)
    (hcheck : checkPlayerPositions mapFile [player1Id, player2Id] = true) {stdscr : Window}
    (hfits : Fits l stdscr) (writable : Bool) (memory : Labyrinth) (inputs : List Input) :
    ∃ s l', runGame depth writable stdscr mapFile memory inputs = some (.ok s) ∧
      Holds s.tempMapFile l' ∧ Rearranged Movable l l' ∧ l'.Connected := by
  obtain ⟨s, l', hrun, -, hmoved, hs⟩ :=
    runGame_spec hdepth hfile hl hvisible hcheck hfits writable memory inputs
  have hl' := hl.plays (hmoved.plays fun _ => Movable.played)
  exact ⟨s, l', hrun, hs.file, hmoved, hl'.connected⟩

theorem hotseat_corridor_left :
    ∃ s l', runGame maxDepth true ⟨24, 80, fun _ => space⟩ (ascii "0.1#\n####\n") (field 0 0)
        [⟨ord 'h', field 0 0, field 1 2⟩] = some (.ok s) ∧
      Holds s.tempMapFile l' ∧ Rearranged Movable corridor l' ∧ l'.Connected :=
  hotseat_rearranges (Nat.le_refl _) corridor_mapFile corridor_playable corridor_visible
    (by decide) fits_corridor true (field 0 0) _

end NjuOs.LabyrinthFrontend
