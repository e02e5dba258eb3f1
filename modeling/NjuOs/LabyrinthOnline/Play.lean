import NjuOs.LabyrinthOnline.Basic
import NjuOs.LabyrinthFrontend.Basic
import NjuOs.LabyrinthGame.Rules

/-!
`online.py`: the game that the connections play on one map file.

A thread starts the game behind `server.lock`, so the moves and the views of all
connections follow one another in some order. Whatever this order is, a key moves the
player of its connection and nobody else (`online_follows_rules`). The first view of
the map puts player 0 on it, if it is not there; from then on the cells are only
rearranged (`online_rearranges`).
-/

namespace NjuOs.LabyrinthOnline

open NjuOs.Lib NjuOs.LabyrinthGame NjuOs.LabyrinthFrontend

variable {U : Type} [DecidableEq U]

/-! ### The server -/

/-- The local variables of a thread. `currentMapState` has no value before the first
view; a thread that has moved shows the map before it reads a key again. -/
structure Thread where
  currentMapState : Option (List Bytes)
  moved : Bool

structure Server (U : Type) [DecidableEq U] where
  state : State U
  tempMapFile : Bytes
  threads : Nat → Thread

def Server.setThread (s : Server U) (c : Nat) (thread : Thread) : Server U :=
  { s with threads := Function.update s.threads c thread }

/-- `LabyrinthServer.__init__` -/
def start (mapFile : Bytes) : Server U where
  state := init mapFile
  tempMapFile := mapFile
  threads _ := ⟨none, false⟩

/-- The direction of a key, which is a letter of either case. -/
def directionOf (key : UInt8) : Option CString :=
  if key = 119 ∨ key = 87 then some up  -- 'w'
  else if key = 97 ∨ key = 65 then some left  -- 'a'
  else if key = 115 ∨ key = 83 then some down  -- 's'
  else if key = 100 ∨ key = 68 then some right  -- 'd'
  else none

/-- What happens on the server. `memory` is what the map of the process holds. -/
inductive Event (U : Type) where
  | act (a : Act U)
  /-- A view of the map: the first, the one behind a move, or a look for changes. -/
  | view (c : Nat) (memory : Labyrinth)
  /-- A key that does not leave the loop. -/
  | key (c : Nat) (key : UInt8) (memory : Labyrinth)

section

variable (depth : Nat) (writable : Bool)

/-- The block with `get_map_state`. -/
def view (s : Server U) (c : Nat) (memory : Labyrinth) : Option (Server U) :=
  (getMapState depth writable memory s.tempMapFile).map fun (tempMapFile, mapState) =>
    { s with tempMapFile := tempMapFile }.setThread c ⟨some mapState, false⟩

/-- The block that processes a key. -/
def processKey (s : Server U) (c : Nat) (playerId : Nat) (key : UInt8) (memory : Labyrinth) :
    Option (Server U) :=
  match directionOf key with
  | none => some s
  | some direction =>
      (movePlayer depth writable memory s.tempMapFile playerId direction).map
        fun (tempMapFile, moved) =>
          { s with tempMapFile := tempMapFile }.setThread c
            { s.threads c with moved := moved }

def serve (s : Server U) : Event U → Option (Server U)
  | .act a => (step s.state a).map fun state => { s with state := state }
  | .view c memory =>
      match s.state.clients c with
      | .active _ _ => view depth writable s c memory
      | _ => none
  | .key c key memory =>
      match s.state.clients c, s.threads c with
      | .active _ playerId, ⟨some _, false⟩ => processKey depth writable s c playerId key memory
      | _, _ => none

end

/-! ### Players of the map file -/

/-- Every player that is given away is one of the map file. -/
structure Assigned (mapFile : Bytes) (s : State U) : Prop where
  available : s.availablePlayerIds = getAvailablePlayerIds mapFile
  recorded : ∀ u i, s.players.lookup u = some i → i ∈ getAvailablePlayerIds mapFile
  active : ∀ c u i, s.clients c = .active u i → i ∈ getAvailablePlayerIds mapFile

theorem mem_getAvailablePlayerIds {mapFile : Bytes} {i : Nat} :
    i ∈ getAvailablePlayerIds mapFile ↔ i < 10 ∧ digit i ∈ mapFile := by
  rw [getAvailablePlayerIds, List.mem_filter, List.mem_range, decide_eq_true_iff, digit]

theorem assigned_init (mapFile : Bytes) : Assigned mapFile (init mapFile : State U) where
  available := rfl
  recorded u i h := (Option.some_ne_none _ (h.symm.trans (AList.lookup_empty u))).elim
  active c u i h := by cases h

namespace Assigned

variable {mapFile : Bytes} {s s' : State U}

theorem setClient (h : Assigned mapFile s) (c : Nat) {phase : Phase U}
    (hphase : ∀ u i, phase = .active u i → i ∈ getAvailablePlayerIds mapFile) :
    Assigned mapFile (s.setClient c phase) where
  available := h.available
  recorded := h.recorded
  active c' u i hc' := by
    rw [State.clients_setClient] at hc'
    split_ifs at hc'
    · exact hphase u i hc'
    · exact h.active c' u i hc'

theorem assign (h : Assigned mapFile s) (c : Nat) (username : U) :
    Assigned mapFile (assign s c username) := by
  unfold LabyrinthOnline.assign
  split
  · next playerId known =>
    refine h.setClient c fun u i heq => ?_
    cases heq
    exact h.recorded username playerId known
  · dsimp only
    split
    · exact h.setClient c fun u i heq => by cases heq
    · next playerId least =>
      have hmem := (List.mem_filter.mp (List.min?_mem least)).1
      rw [h.available] at hmem
      have hnew : Assigned mapFile
          { s with players := s.players.insert username playerId } := by
        refine ⟨h.available, fun u i hu => ?_, h.active⟩
        by_cases heq : u = username
        · rw [heq, AList.lookup_insert] at hu
          exact Option.some.inj hu ▸ hmem
        · rw [AList.lookup_insert_ne heq] at hu
          exact h.recorded u i hu
      refine hnew.setClient c fun u i heq => ?_
      cases heq
      exact hmem

theorem cleanup (h : Assigned mapFile s) (c : Nat) (username : U) :
    Assigned mapFile (cleanup s c username) := by
  have hless : Assigned mapFile { s with players := s.players.erase username } := by
    refine ⟨h.available, fun u i hu => ?_, h.active⟩
    by_cases heq : u = username
    · rw [heq] at hu
      exact (Option.some_ne_none _ (hu.symm.trans (AList.lookup_erase username s.players))).elim
    · exact h.recorded u i ((AList.lookup_erase_ne heq).symm.trans hu)
  exact hless.setClient c fun u i heq => by cases heq

theorem step {a : Act U} (h : Assigned mapFile s) (hstep : step s a = some s') :
    Assigned mapFile s' := by
  cases a with
  | connect c username =>
      simp only [LabyrinthOnline.step] at hstep
      split at hstep
      · cases hstep
        exact h.setClient c fun u i heq => by cases heq
      · cases hstep
  | assign c =>
      simp only [LabyrinthOnline.step] at hstep
      split at hstep
      · cases hstep
        exact h.assign c _
      · cases hstep
  | leave c =>
      simp only [LabyrinthOnline.step] at hstep
      split at hstep
      · cases hstep
        exact h.cleanup c _
      · cases hstep
        exact h.cleanup c _
      · cases hstep

end Assigned

/-! ### The map of a running game -/

/-- The first view of the map: player 0 is put on it, if it is not there and there is
an empty cell. -/
def Entered (writable : Bool) (l l' : Labyrinth) : Prop :=
  ∃ ret m, Outcome l (digit 0) none ret m ∧ l' = if writable then m else l

/-- What a key of a player does. On a file that cannot be written it does nothing. -/
def Keyed (writable : Bool) (playerId : Nat) (direction : CString) (l l' : Labyrinth) : Prop :=
  if writable then Rule (digit playerId) (firstChar direction) l l' else l' = l

/-- The characters of players and of empty cells. -/
def Played (c : UInt8) : Prop := IsDigit c ∨ c = dot

theorem isDigit_digit_zero : IsDigit (digit 0) := (@str_bytes 0 (by decide)).2

namespace Entered

variable {writable : Bool} {l l' l'' : Labyrinth}

theorem plays (h : Entered writable l l') : Plays l l' := by
  obtain ⟨ret, m, hout, rfl⟩ := h
  cases writable with
  | true => exact hout.plays isDigit_digit_zero
  | false => exact .refl l

/-- Who was there stays. -/
theorem present (h : Entered writable l l') {c : UInt8} (hc : c ≠ dot) (hpresent : ¬ l.Absent c) :
    ¬ l'.Absent c := by
  obtain ⟨ret, m, hout, rfl⟩ := h
  cases writable with
  | false => exact hpresent
  | true =>
      cases hout with
      | full | stayed => exact hpresent
      | placed p habsent hfirst =>
          intro habsent'
          refine hpresent fun q hq hmap => habsent' q hq ?_
          have hne : q ≠ p := by
            rintro rfl
            exact hc (hmap.symm.trans hfirst.map_eq)
          exact (l.set_of_ne hne _).trans hmap
      | blocked p dir message _ hsome _ => cases hsome
      | moved p q dir _ hsome _ _ => cases hsome

/-- Later views leave the map. -/
theorem again (h : Entered writable l l') (hmoved : Rearranged Played l' l'') {m : Labyrinth}
    (hview : Entered writable l'' m) : m = l'' := by
  cases writable with
  | false =>
      obtain ⟨ret, m', -, rfl⟩ := hview
      rfl
  | true =>
      -- player 0 is on the map, or there is no empty cell
      have hdone : ¬ l'.Absent (digit 0) ∨ l'.Absent dot := by
        obtain ⟨ret, m', hout, rfl⟩ := h
        cases hout with
        | full _ hfull => exact .inr hfull
        | placed p _ hfirst =>
            exact .inl fun habsent => habsent p hfirst.inside (Labyrinth.set_self ..)
        | stayed p hfirst _ => exact .inl fun habsent => habsent p hfirst.inside hfirst.map_eq
        | blocked p dir message _ hsome _ => cases hsome
        | moved p q dir _ hsome _ _ => cases hsome
      obtain ⟨ret, m', hout, rfl⟩ := hview
      rw [← hmoved.absent_iff, ← hmoved.absent_iff dot] at hdone
      cases hout with
      | full | stayed => rfl
      | placed p habsent hfirst =>
          rcases hdone with hpresent | hfull
          · exact absurd habsent hpresent
          · exact absurd hfirst.map_eq (hfull p hfirst.inside)
      | blocked p dir message _ hsome _ => cases hsome
      | moved p q dir _ hsome _ _ => cases hsome

end Entered

/-- Nobody has seen the map yet, or player 0 is on it and play has gone on. -/
def Stage (writable : Bool) (l₀ : Labyrinth) (s : Server U) (l : Labyrinth) : Prop :=
  (l = l₀ ∧ ∀ c, (s.threads c).currentMapState = none) ∨
    ∃ l₁, Entered writable l₀ l₁ ∧ Rearranged Played l₁ l

/-- The server plays on this map. -/
structure Running (writable : Bool) (mapFile : Bytes) (l₀ : Labyrinth) (s : Server U)
    (l : Labyrinth) : Prop where
  assigned : Assigned mapFile s.state
  file : Holds s.tempMapFile l
  stage : Stage writable l₀ s l

section

variable {writable : Bool} {mapFile : Bytes} {l₀ l : Labyrinth} {s : Server U}

theorem Stage.plays (h : Stage writable l₀ s l) : Plays l₀ l := by
  rcases h with ⟨rfl, -⟩ | ⟨l₁, hentered, hmoved⟩
  · exact .refl l
  · exact hentered.plays.trans (hmoved.plays fun _ hc => hc)

theorem Stage.present (h : Stage writable l₀ s l) {c : UInt8} (hc : c ≠ dot)
    (hpresent : ¬ l₀.Absent c) : ¬ l.Absent c := by
  rcases h with ⟨rfl, -⟩ | ⟨l₁, hentered, hmoved⟩
  · exact hpresent
  · exact fun habsent => hentered.present hc hpresent ((hmoved.absent_iff c).mp habsent)

theorem running_start (hfile : MapFile mapFile l₀) (hl : Playable l₀) :
    Running writable mapFile l₀ (start mapFile : Server U) l₀ :=
  ⟨assigned_init mapFile, hfile.holds hl, .inl ⟨rfl, fun _ => rfl⟩⟩

variable {depth : Nat} (hdepth : maxDepth ≤ depth) (hfile : MapFile mapFile l₀)
  (hl : Playable l₀) (hvisible : Visible l₀) (h : Running writable mapFile l₀ s l)

include hdepth hl hvisible h

/-- A view shows the map as it is before the view. -/
theorem Running.view (c : Nat) (memory : Labyrinth) :
    ∃ s' l', view depth writable s c memory = some s' ∧ Entered writable l l' ∧
      s'.threads c = ⟨some l.lines, false⟩ ∧ Running writable mapFile l₀ s' l' := by
  have hplays := h.stage.plays
  obtain ⟨ret, m, tempMapFile, hget, hout, hholds⟩ :=
    getMapState_spec hdepth (hl.plays hplays) h.file (hvisible.plays hplays) writable memory
  have hentered : Entered writable l (if writable then m else l) := ⟨ret, m, hout, rfl⟩
  refine ⟨{ s with tempMapFile := tempMapFile }.setThread c ⟨some l.lines, false⟩, _, ?_,
    hentered, ?_, h.assigned, hholds, ?_⟩
  · rw [LabyrinthOnline.view, hget, Option.map_some]
  · exact Function.update_self ..
  · rcases h.stage with ⟨rfl, -⟩ | ⟨l₁, hfirst, hmoved⟩
    · exact .inr ⟨_, hentered, .refl _⟩
    · refine .inr ⟨l₁, hfirst, ?_⟩
      rw [hfirst.again hmoved hentered]
      exact hmoved

include hfile

omit hvisible in
/-- A key moves the player of its connection. -/
theorem Running.processKey {c : Nat} {u : U} {playerId : Nat}
    (hclient : s.state.clients c = .active u playerId)
    (hshown : (s.threads c).currentMapState ≠ none) (key : UInt8) (memory : Labyrinth) :
    ∃ s' l', processKey depth writable s c playerId key memory = some s' ∧
      (match directionOf key with
        | some direction => Keyed writable playerId direction l l'
        | none => l' = l) ∧ Running writable mapFile l₀ s' l' := by
  obtain ⟨hid, hmem⟩ :=
    mem_getAvailablePlayerIds.mp (h.assigned.active c u playerId hclient)
  have hdigit := (str_bytes hid).2
  have hplays := h.stage.plays
  have hpresent : ¬ l.Absent (digit playerId) := h.stage.present hdigit.ne_dot
    (hfile.present hl.rows hl.cols_le (played_ne (.inl hdigit)).2.1 hmem)
  unfold LabyrinthOnline.processKey
  cases directionOf key with
  | none => exact ⟨s, l, rfl, rfl, h⟩
  | some direction =>
      obtain ⟨ret, m, tempMapFile, hcall, hout, hholds⟩ :=
        movePlayer_spec hdepth (hl.plays hplays) h.file writable memory hid direction
      have hkeyed : Keyed writable playerId direction l (if writable then m else l) := by
        cases writable with
        | true => exact hout.rule hpresent
        | false => rfl
      refine ⟨{ s with tempMapFile := tempMapFile }.setThread c
        { s.threads c with moved := ret.value && writable }, _, ?_, hkeyed, h.assigned, hholds, ?_⟩
      · dsimp only
        rw [hcall, Option.map_some]
      rcases h.stage with ⟨-, hnone⟩ | ⟨l₁, hfirst, hmoved⟩
      · exact absurd (hnone c) hshown
      · refine .inr ⟨l₁, hfirst, ?_⟩
        cases writable with
        | false => exact hmoved
        | true =>
            refine hmoved.trans ?_
            refine ((hout.rule hpresent).rearranged (hl.plays hplays) hdigit).mono fun b hb => ?_
            rcases hb with rfl | rfl
            · exact .inl hdigit
            · exact .inr rfl

/-- One event keeps the game running. -/
theorem Running.serve {e : Event U} {s' : Server U}
    (hstep : serve depth writable s e = some s') :
    ∃ l', Running writable mapFile l₀ s' l' := by
  cases e with
  | act a =>
      obtain ⟨state, hstate, rfl⟩ := Option.map_eq_some_iff.mp hstep
      exact ⟨l, h.assigned.step hstate, h.file, h.stage⟩
  | view c memory =>
      simp only [LabyrinthOnline.serve] at hstep
      split at hstep
      · obtain ⟨t, l', hview, -, -, hrunning⟩ := h.view hdepth hl hvisible c memory
        cases hview.symm.trans hstep
        exact ⟨l', hrunning⟩
      · cases hstep
  | key c key memory =>
      simp only [LabyrinthOnline.serve] at hstep
      split at hstep
      · next u playerId mapState hclient hthread =>
        have hshown : (s.threads c).currentMapState ≠ none := by
          rw [hthread]
          exact Option.some_ne_none mapState
        obtain ⟨t, l', hkey, -, hrunning⟩ :=
          h.processKey hdepth hfile hl hclient hshown key memory
        cases hkey.symm.trans hstep
        exact ⟨l', hrunning⟩
      · cases hstep

end

/-- Every state that the server comes to is one of a running game. -/
theorem exec_running {writable : Bool} {mapFile : Bytes} {l₀ : Labyrinth} {depth : Nat}
    (hdepth : maxDepth ≤ depth) (hfile : MapFile mapFile l₀) (hl : Playable l₀)
    (hvisible : Visible l₀) {events : List (Event U)} {s : Server U}
    (hexec : exec (serve depth writable) (start mapFile) events = some s) :
    ∃ l, Running writable mapFile l₀ s l := by
  have hstep : ∀ {s : Server U} {e : Event U} {s' : Server U},
      (∃ l, Running writable mapFile l₀ s l) → True → serve depth writable s e = some s' →
        ∃ l, Running writable mapFile l₀ s' l := by
    rintro s e s' ⟨l, h⟩ - hserve
    exact h.serve hdepth hfile hl hvisible hserve
  exact exec_invariant hstep ⟨l₀, running_start hfile hl⟩
    (everyStep_of_forall fun _ _ _ => trivial) hexec

/-! ### Whole games -/

/-- What the connections can do next to a file that holds the map. -/
structure Follows (depth : Nat) (writable : Bool) (s : Server U) (l : Labyrinth) : Prop where
  file : Holds s.tempMapFile l
  /-- A connection sees the map as it is; player 0 may enter it then. -/
  view : ∀ c u i, s.state.clients c = .active u i → ∀ memory, ∃ s' l',
    serve depth writable s (.view c memory) = some s' ∧ Entered writable l l' ∧
      Holds s'.tempMapFile l' ∧ s'.threads c = ⟨some l.lines, false⟩
  /-- A key moves the player of the connection. -/
  key : ∀ c u i mapState, s.state.clients c = .active u i →
    s.threads c = ⟨some mapState, false⟩ → ∀ key direction, directionOf key = some direction →
      ∀ memory, ∃ s' l', serve depth writable s (.key c key memory) = some s' ∧
        Keyed writable i direction l l' ∧ Holds s'.tempMapFile l'

/-- **Keys move their own players**: however the events of the connections follow one
another, the file holds a map, a view shows it, and a key does to it what the rule says
for the player of the connection. -/
theorem online_follows_rules {depth : Nat} (hdepth : maxDepth ≤ depth) {mapFile : Bytes}
    {l₀ : Labyrinth} (hfile : MapFile mapFile l₀) (hl : Playable l₀) (hvisible : Visible l₀)
    (writable : Bool) {events : List (Event U)} {s : Server U}
    (hexec : exec (serve depth writable) (start mapFile) events = some s) :
    ∃ l, Follows depth writable s l := by
  obtain ⟨l, h⟩ := exec_running hdepth hfile hl hvisible hexec
  refine ⟨l, h.file, fun c u i hclient memory => ?_, ?_⟩
  · obtain ⟨s', l', hview, hentered, hthread, hrunning⟩ := h.view hdepth hl hvisible c memory
    refine ⟨s', l', ?_, hentered, hrunning.file, hthread⟩
    simp only [serve, hclient]
    exact hview
  · intro c u i mapState hclient hthread key direction hdirection memory
    have hshown : (s.threads c).currentMapState ≠ none := by
      rw [hthread]
      exact Option.some_ne_none mapState
    obtain ⟨s', l', hkey, hkeyed, hrunning⟩ :=
      h.processKey hdepth hfile hl hclient hshown key memory
    rw [hdirection] at hkeyed
    refine ⟨s', l', ?_, hkeyed, hrunning.file⟩
    simp only [serve, hclient, hthread]
    exact hkey

/-- Two users connect; the second one is the first to get a player. -/
def twoUsers : List (Event Nat) :=
  [.act (.connect 0 7), .act (.connect 1 8), .act (.assign 1), .act (.assign 0)]

theorem online_corridor_view :
    ∃ s : Server Nat, exec (serve maxDepth true) (start (ascii "0.1#\n####\n")) twoUsers = some s ∧
      s.state.clients 0 = .active 7 1 ∧ ∃ l, Follows maxDepth true s l :=
  ⟨_, rfl, rfl, online_follows_rules (Nat.le_refl _) corridor_mapFile corridor_playable
    corridor_visible true (rfl : exec _ _ twoUsers = _)⟩

/-- **Play keeps the map together**: however the events follow one another, the file
holds a connected map. It is the map of the map file, to which the first view may have
added player 0, with players and empty cells rearranged, and it has the player of every
connection. -/
theorem online_rearranges {depth : Nat} (hdepth : maxDepth ≤ depth) {mapFile : Bytes}
    {l₀ : Labyrinth} (hfile : MapFile mapFile l₀) (hl : Playable l₀) (hvisible : Visible l₀)
    (writable : Bool) {events : List (Event U)} {s : Server U}
    (hexec : exec (serve depth writable) (start mapFile) events = some s) :
    ∃ l, Holds s.tempMapFile l ∧ l.Connected ∧
      (l = l₀ ∨ ∃ l₁, Entered writable l₀ l₁ ∧ Rearranged Played l₁ l) ∧
      ∀ c u i, s.state.clients c = .active u i → ¬ l.Absent (digit i) := by
  obtain ⟨l, h⟩ := exec_running hdepth hfile hl hvisible hexec
  refine ⟨l, h.file, (hl.plays h.stage.plays).connected, ?_, fun c u i hclient => ?_⟩
  · rcases h.stage with ⟨rfl, -⟩ | hplayed
    · exact .inl rfl
    · exact .inr hplayed
  · obtain ⟨hid, hmem⟩ := mem_getAvailablePlayerIds.mp (h.assigned.active c u i hclient)
    have hdigit := (str_bytes hid).2
    exact h.stage.present hdigit.ne_dot
      (hfile.present hl.rows hl.cols_le (played_ne (.inl hdigit)).2.1 hmem)

theorem online_corridor_players :
    ∃ s : Server Nat, exec (serve maxDepth true) (start (ascii "0.1#\n####\n")) twoUsers = some s ∧
      ∃ l, Holds s.tempMapFile l ∧ l.Connected ∧
        (l = corridor ∨ ∃ l₁, Entered true corridor l₁ ∧ Rearranged Played l₁ l) ∧
        ∀ c u i, s.state.clients c = .active u i → ¬ l.Absent (digit i) :=
  ⟨_, rfl, online_rearranges (Nat.le_refl _) corridor_mapFile corridor_playable
    corridor_visible true (rfl : exec _ _ twoUsers = _)⟩

end NjuOs.LabyrinthOnline
