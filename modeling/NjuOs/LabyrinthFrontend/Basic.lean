import NjuOs.LabyrinthGame.Files
import Mathlib.Tactic.IntervalCases

/-!
What the two front ends share: `get_map_state` and `move_player`.

Both start the game on the temporary map file and wait for it. A text of Python is
the list of its bytes: `text=True` reads an ASCII text as it is, but for the ends of
its lines. `movePlayer_spec` and `getMapState_spec` say what the two calls do to a
file that holds a map: the first does a move of the game, the second shows the map,
and is a run of the game for player 0 all the same.
-/

namespace NjuOs.LabyrinthFrontend

open NjuOs.Lib NjuOs.LabyrinthGame

/-! ### Texts -/

/-- The line ends of a text that `subprocess` reads. -/
def universalNewlines : Bytes → Bytes
  | [] => []
  | 13 :: 10 :: cs => newline :: universalNewlines cs
  | c :: cs => (if c = 13 then newline else c) :: universalNewlines cs

/-- The ASCII characters that `str.strip` takes away. -/
def isWhite (c : UInt8) : Bool := (9 ≤ c && c ≤ 13) || (28 ≤ c && c ≤ 32)

def strip (text : Bytes) : Bytes := ((text.dropWhile isWhite).reverse.dropWhile isWhite).reverse

/-- `str` of a number that is not negative, as an argument. -/
def str (n : Nat) : CString := ⟨decimal n, decimal_nulFree n⟩

/-- The character of a player. -/
def digit (playerId : Nat) : UInt8 := UInt8.ofNat (0x30 + playerId)

/-! ### Calls of the game -/

def up : CString := ⟨ascii "up", by decide⟩
def down : CString := ⟨ascii "down", by decide⟩
def left : CString := ⟨ascii "left", by decide⟩
def right : CString := ⟨ascii "right", by decide⟩

section

variable (depth : Nat) (writable : Bool)

/-- `subprocess.run` of the game. `memory` is what its map holds at the start. -/
def run (memory : Labyrinth) (mapFile : Bytes) (playerId : Nat) (direction : Option CString) :
    Option Exit :=
  main depth memory (some mapFile) writable (str playerId) (if direction.isSome then 1 else 0)
    direction

/-- The map file afterwards, and the lines of the map. -/
def getMapState (memory : Labyrinth) (mapFile : Bytes) : Option (Bytes × List Bytes) :=
  (run depth writable memory mapFile 0 none).map fun result =>
    (result.file.getD mapFile, (strip (universalNewlines result.stdout)).splitOn newline)

/-- The map file afterwards, and whether the game has succeeded. -/
def movePlayer (memory : Labyrinth) (mapFile : Bytes) (playerId : Nat) (direction : CString) :
    Option (Bytes × Bool) :=
  (run depth writable memory mapFile playerId (some direction)).map fun result =>
    (result.file.getD mapFile, result.success)

end

/-! ### Visible maps -/

/-- A character that is printed and is no space. -/
def IsVisible (c : UInt8) : Prop := 33 ≤ c ∧ c ≤ 126

def Visible (l : Labyrinth) : Prop := ∀ p, l.Inside p → IsVisible (l.map p)

theorem IsVisible.ne {c : UInt8} (h : IsVisible c) : isWhite c = false ∧ c ≠ newline ∧ c ≠ 13 := by
  obtain ⟨hlow, -⟩ := h
  have hhigh : ∀ {d : UInt8}, d < 33 → ¬ c ≤ d := fun hd hc =>
    UInt8.lt_irrefl _ (UInt8.lt_of_lt_of_le hd (UInt8.le_trans hlow hc))
  refine ⟨?_, ?_, ?_⟩
  · simp [isWhite, hhigh]
  · rintro rfl
    exact absurd hlow (by decide)
  · rintro rfl
    exact absurd hlow (by decide)

/-- Players and empty cells are seen. -/
theorem isVisible_played {c : UInt8} (h : IsDigit c ∨ c = dot) : IsVisible c := by
  rcases h with h | rfl
  · rw [IsDigit, isValidPlayer, Bool.and_eq_true, decide_eq_true_iff, decide_eq_true_iff] at h
    exact ⟨UInt8.le_trans (by decide) h.1, UInt8.le_trans h.2 (by decide)⟩
  · exact ⟨by decide, by decide⟩

theorem universalNewlines_eq {text : Bytes} (h : (13 : UInt8) ∉ text) :
    universalNewlines text = text := by
  induction text using universalNewlines.induct with
  | case1 => rfl
  | case2 cs ih => exact absurd List.mem_cons_self h
  | case3 c cs hne ih =>
      rw [List.mem_cons, not_or] at h
      rw [universalNewlines, if_neg (Ne.symm h.1), ih h.2]
      exact hne

/-- Nothing but the white space at the end is taken away. -/
theorem strip_append {text tail : Bytes} (hhead : ∀ c ∈ text.head?, isWhite c = false)
    (hlast : ∀ c ∈ text.getLast?, isWhite c = false) (hne : text ≠ [])
    (htail : ∀ c ∈ tail, isWhite c = true) : strip (text ++ tail) = text := by
  have hkeep : ∀ {cs : Bytes}, (∀ c ∈ cs.head?, isWhite c = false) → cs.dropWhile isWhite = cs := by
    intro cs h
    cases cs with
    | nil => rfl
    | cons c cs => rw [List.dropWhile_cons_of_neg (by rw [h c rfl]; decide)]
  have hfront : (text ++ tail).dropWhile isWhite = text ++ tail := by
    refine hkeep fun c hc => hhead c ?_
    rwa [List.head?_append_of_ne_nil _ hne] at hc
  rw [strip, hfront, List.reverse_append, List.dropWhile_append_of_pos, hkeep, List.reverse_reverse]
  · rwa [List.head?_reverse]
  · exact fun c hc => htail c (List.mem_reverse.mp hc)

theorem unlines_concat (lines : List Bytes) (line : Bytes) :
    unlines (lines ++ [line]) = unlines lines ++ line ++ [newline] := by
  rw [unlines, List.flatMap_append, List.flatMap_singleton, ← unlines, List.append_assoc]

theorem splitOn_unlines {lines : List Bytes} (h : ∀ line ∈ lines, newline ∉ line) (rest : Bytes) :
    (unlines lines ++ rest).splitOn newline = lines ++ rest.splitOn newline := by
  induction lines with
  | nil => rfl
  | cons line lines ih =>
      have hsplit : unlines (line :: lines) ++ rest =
          line ++ newline :: (unlines lines ++ rest) := by simp [unlines]
      rw [hsplit, List.splitOn_append_cons_self_of_not_mem (h line List.mem_cons_self),
        ih fun l hl => h l (List.mem_cons_of_mem _ hl), List.cons_append]

/-- What is printed in lines is read in lines. -/
theorem splitOn_strip {lines : List Bytes} (hne : lines ≠ [])
    (h : ∀ line ∈ lines, line ≠ [] ∧ ∀ c ∈ line, IsVisible c) :
    (strip (universalNewlines (unlines lines))).splitOn newline = lines := by
  obtain ⟨init, last, rfl⟩ : ∃ init last, lines = init ++ [last] :=
    ⟨_, _, (List.dropLast_append_getLast hne).symm⟩
  have hmem : last ∈ init ++ [last] := List.mem_append_right _ List.mem_cons_self
  obtain ⟨hlast, hchars⟩ := h last hmem
  have hnewline : ∀ line ∈ init ++ [last], newline ∉ line := fun line hline hc =>
    ((h line hline).2 _ hc).ne.2.1 rfl
  have hreturn : (13 : UInt8) ∉ unlines (init ++ [last]) := by
    intro hc
    obtain ⟨line, hline, hc⟩ := List.mem_flatMap.mp hc
    rcases List.mem_append.mp hc with hc | hc
    · exact ((h line hline).2 _ hc).ne.2.2 rfl
    · exact absurd (List.mem_singleton.mp hc) (by decide)
  rw [universalNewlines_eq hreturn, unlines_concat, strip_append,
    splitOn_unlines fun line hline => hnewline line (List.mem_append_left _ hline),
    List.splitOn_eq_singleton (hnewline last hmem)]
  · intro c hc
    -- the first line has a first character
    obtain ⟨line, rest, hline, hne'⟩ : ∃ line rest, init ++ [last] = line :: rest ∧ line ≠ [] := by
      cases init with
      | nil => exact ⟨last, [], rfl, hlast⟩
      | cons line init => exact ⟨line, init ++ [last], rfl, (h line List.mem_cons_self).1⟩
    obtain ⟨d, ds, rfl⟩ := List.exists_cons_of_ne_nil hne'
    have hd := ((h _ (hline ▸ List.mem_cons_self)).2 d List.mem_cons_self).ne
    have htext := unlines_concat init last
    rw [hline] at htext
    have hhead : (unlines init ++ last).head? = some d := by
      rw [← List.head?_append_of_ne_nil (unlines init ++ last) (by simp [hlast]), ← htext]
      rfl
    rw [hhead] at hc
    exact Option.some.inj hc ▸ hd.1
  · intro c hc
    rw [List.getLast?_append_of_ne_nil _ hlast] at hc
    exact (hchars c (List.mem_of_getLast? hc)).ne.1
  · simp [hlast]
  · exact fun c hc => List.mem_singleton.mp hc ▸ rfl

namespace Visible

variable {l l' : Labyrinth}

theorem plays (h : Visible l) (hplays : Plays l l') : Visible l' := by
  intro p hp
  rcases hplays.cell p with hsame | ⟨-, hcell⟩
  · rw [hsame]
    exact h p ((hplays.inside p).mp hp)
  · exact isVisible_played hcell

/-- The lines of the map are what is read of its text. -/
theorem splitOn_text (h : Visible l) (hl : Playable l) :
    (strip (universalNewlines l.text)).splitOn newline = l.lines := by
  obtain ⟨hrows, hcols⟩ := hl.pos
  refine splitOn_strip ?_ fun line hline => ?_
  · intro hnil
    have hlen := congrArg List.length hnil
    rw [l.length_lines, List.length_nil] at hlen
    omega
  · obtain ⟨i, hi, rfl⟩ := List.mem_map.mp hline
    refine ⟨?_, fun c hc => ?_⟩
    · intro hnil
      have hlen := l.length_line i
      rw [hnil, List.length_nil] at hlen
      omega
    · obtain ⟨j, hj, rfl⟩ := List.mem_map.mp hc
      rw [List.mem_range] at hi hj
      obtain ⟨p, rfl, rfl⟩ := exists_cell (Nat.lt_of_lt_of_le hi hl.rows)
        (Nat.lt_of_lt_of_le hj hl.cols_le)
      rw [Labyrinth.read_cell, Option.getD_some]
      exact h p ⟨hi, hj⟩

end Visible

/-! ### Map files -/

/-- A map file that is read as it is, and its map. -/
structure MapFile (mapFile : Bytes) (l : Labyrinth) : Prop where
  nulFree : (0 : UInt8) ∉ mapFile
  accepted : Accepted mapFile
  read : ¬ Misread mapFile
  exact : Exact mapFile l

theorem MapFile.holds {mapFile : Bytes} {l : Labyrinth} (h : MapFile mapFile l)
    (hl : Playable l) : Holds mapFile l := by
  intro memory
  have hexact := exact_loaded memory h.nulFree h.accepted h.read
  rcases loadMap_cases memory mapFile with ⟨-, hload⟩ | ⟨hbad, -⟩ | ⟨hbehind, -⟩
  · have hrows : (loaded memory mapFile).rows = l.rows := hexact.rows.trans h.exact.rows.symm
    refine ⟨_, hload, hrows, ?_, fun p hp => ?_⟩
    · -- there is a line, and its length is both widths
      obtain ⟨line, hline⟩ := List.exists_mem_of_length_pos (h.exact.rows ▸ hl.pos.1)
      rw [← hexact.cols line hline, h.exact.cols line hline]
    · obtain ⟨text, htext, hc⟩ := h.exact.cell p hp
      obtain ⟨text', htext', hc'⟩ := hexact.cell p (by
        obtain ⟨line, hline⟩ := List.exists_mem_of_length_pos (h.exact.rows ▸ hl.pos.1)
        rw [Labyrinth.Inside, hrows, ← hexact.cols line hline, h.exact.cols line hline]
        exact hp)
      obtain rfl := Option.some.inj (htext.symm.trans htext')
      exact (Option.some.inj (hc.symm.trans hc')).symm
  · exact absurd h.accepted hbad
  · exact absurd h.accepted hbehind.not_accepted

/-- A character of the file that ends no line is on the map. -/
theorem MapFile.present {mapFile : Bytes} {l : Labyrinth} (h : MapFile mapFile l)
    (hrows : l.rows ≤ maxRows) (hcols : l.cols ≤ maxCols) {c : UInt8} (hc : c ≠ newline)
    (hmem : c ∈ mapFile) : ¬ l.Absent c := by
  obtain ⟨line, hline, hcline⟩ := exists_mem_linesOf hc hmem
  obtain ⟨i, hi, rfl⟩ := List.mem_iff_getElem.mp hline
  obtain ⟨j, hj, rfl⟩ := List.mem_iff_getElem.mp hcline
  have hlen := h.exact.cols _ hline
  obtain ⟨p, hp1, hp2⟩ := exists_cell (i := i) (j := j)
    (Nat.lt_of_lt_of_le (h.exact.rows ▸ hi) hrows) (by omega)
  have hp : l.Inside p := ⟨by rw [hp1, h.exact.rows]; exact hi, by omega⟩
  intro habsent
  obtain ⟨text, htext, hcell⟩ := h.exact.cell p hp
  rw [hp1, List.getElem?_eq_getElem hi] at htext
  obtain rfl := Option.some.inj htext
  rw [hp2, List.getElem?_eq_getElem hj] at hcell
  exact habsent p hp (Option.some.inj hcell).symm

/-- Two players with an empty cell between them. -/
def corridor : Labyrinth :=
  ⟨fun p => if p.1.val = 0 then [48, dot, 49].getD p.2 wall else wall, 2, 4⟩

def corridorCells : List Cell :=
  [(0, 0), (0, 1), (0, 2), (0, 3), (1, 0), (1, 1), (1, 2), (1, 3)]

theorem corridor_forall {P : Cell → Prop} (h : corridorCells.Forall P) {p : Cell}
    (hp : corridor.Inside p) : P p := by
  refine List.forall_iff_forall_mem.mp h p ?_
  obtain ⟨⟨i, hi⟩, ⟨j, hj⟩⟩ := p
  obtain ⟨hrow, hcol⟩ := hp
  change i < 2 at hrow
  change j < 4 at hcol
  interval_cases i <;> interval_cases j <;> decide +revert

theorem corridor_mapFile : MapFile (ascii "0.1#\n####\n") corridor := by
  have hrows : rowsOf (ascii "0.1#\n####\n") = [[48, dot, 49, wall], [wall, wall, wall, wall]] := by
    have hlines : ascii "0.1#\n####\n" =
        unlines [[48, dot, 49, wall], [wall, wall, wall, wall]] := by decide
    rw [hlines]
    refine rowsOf_unlines ?_
    unfold Clean
    decide
  refine ⟨by decide, ?_, ?_, by decide, by decide, fun p hp => ?_⟩
  · rw [Accepted, widths, hrows]
    exact ⟨⟨.inl rfl, .inr rfl, trivial⟩, by decide⟩
  · unfold Misread
    decide
  · refine Option.bind_eq_some_iff.mp (corridor_forall (P := fun p =>
      ((linesOf (ascii "0.1#\n####\n"))[p.1.val]?.bind fun text => text[p.2.val]?) =
        some (corridor.map p)) ?_ hp)
    decide

theorem corridor_playable : Playable corridor where
  rows := by decide
  cols := by decide
  clean p hp := by
    refine corridor_forall (P := fun p => corridor.map p ≠ newline ∧ corridor.map p ≠ 0) ?_ hp
    decide
  fenced p hp := by
    refine corridor_forall (P := fun p => p.1.val + 1 = corridor.rows ∨
      p.2.val + 1 = corridor.cols → corridor.map p = wall) ?_ hp
    decide
  connected := by
    have hopen : ∀ p, corridor.Inside p → corridor.map p ≠ wall →
        p = (0, 0) ∨ p = (0, 1) ∨ p = (0, 2) := by
      intro p hp
      refine corridor_forall (P := fun p => corridor.map p ≠ wall →
        p = (0, 0) ∨ p = (0, 1) ∨ p = (0, 2)) ?_ hp
      decide
    have hstep : ∀ p q : Cell, Adjacent p q → corridor.Open q → corridor.Joined p q :=
      fun p q hadj hq => .single ⟨hadj, hq⟩
    have h1 : corridor.Joined (0, 0) (0, 1) := hstep _ _ (.inl ⟨rfl, .inl rfl⟩) (by decide)
    have h2 : corridor.Joined (0, 1) (0, 2) := hstep _ _ (.inl ⟨rfl, .inl rfl⟩) (by decide)
    refine (connected_iff_of_open (p := (0, 0)) (by decide)).mpr fun q hq => ?_
    rcases hopen q hq.1 hq.2 with rfl | rfl | rfl
    · exact .refl
    · exact h1
    · exact Relation.ReflTransGen.trans h1 h2

theorem corridor_visible : Visible corridor := fun p hp => by
  refine corridor_forall (P := fun p => 33 ≤ corridor.map p ∧ corridor.map p ≤ 126) ?_ hp
  decide

/-! ### What the calls do -/

theorem str_bytes {playerId : Nat} (h : playerId < 10) :
    (str playerId).bytes = [digit playerId] ∧ IsDigit (digit playerId) := by
  change decimal playerId = _ ∧ _
  decide +revert

section

variable {depth : Nat} {l : Labyrinth} {mapFile : Bytes} (hdepth : maxDepth ≤ depth)
  (hl : Playable l) (hfile : Holds mapFile l)

include hdepth hl hfile

theorem movePlayer_spec (writable : Bool) (memory : Labyrinth) {playerId : Nat}
    (hid : playerId < 10) (direction : CString) :
    ∃ ret l' mapFile', movePlayer depth writable memory mapFile playerId direction =
        some (mapFile', ret.value && writable) ∧
      Outcome l (digit playerId) (some direction) ret l' ∧
      Holds mapFile' (if writable then l' else l) := by
  obtain ⟨hbytes, hdigit⟩ := str_bytes hid
  obtain ⟨exit, ret, l', mapFile', hmain, hout, -, hsuccess, hexit, hholds⟩ :=
    main_run hl hfile hbytes hdigit (Nat.le_refl 1) memory writable (some direction) hdepth
  refine ⟨ret, l', mapFile', ?_, hout, hholds⟩
  rw [movePlayer, run, Option.isSome_some, if_pos rfl, hmain, Option.map_some, hexit, hsuccess,
    Option.getD_some]

theorem getMapState_spec (hvisible : Visible l) (writable : Bool) (memory : Labyrinth) :
    ∃ ret l' mapFile', getMapState depth writable memory mapFile = some (mapFile', l.lines) ∧
      Outcome l (digit 0) none ret l' ∧ Holds mapFile' (if writable then l' else l) := by
  obtain ⟨hbytes, hdigit⟩ := @str_bytes 0 (by decide)
  obtain ⟨exit, ret, l', mapFile', hmain, hout, hstdout, -, hexit, hholds⟩ :=
    main_run hl hfile hbytes hdigit (Nat.zero_le 1) memory writable none hdepth
  refine ⟨ret, l', mapFile', ?_, hout, hholds⟩
  rw [getMapState, run, Option.isSome_none, if_neg (by decide), hmain, Option.map_some, hexit,
    hstdout, hvisible.splitOn_text hl, Option.getD_some]

end

end NjuOs.LabyrinthFrontend
