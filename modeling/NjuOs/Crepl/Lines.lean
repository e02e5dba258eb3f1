import NjuOs.Crepl.Session

/-!
What the loop of `main` takes for the lines of its input.

An iteration reads a piece of at most 1023 bytes and drops its last character, whether
this is a newline or not. `session_lines`: the texts of a session are the pieces without
their last characters; `lines_whole_iff` says for which inputs these are its lines.
-/

namespace NjuOs.Crepl

open NjuOs.Lib

/-- What `fgets` delivers to the loop. -/
def inputPieces (stdin : Bytes) : List Bytes := pieces 1024 (by decide) stdin

/-- No line fills the buffer, and the last one ends with a newline. -/
def WholeLines (stdin : Bytes) : Prop :=
  (∀ line ∈ linesOf stdin, line.length ≤ 1022) ∧ ∀ b ∈ stdin.getLast?, b = newline

section Texts

variable {line rest stdin : Bytes}

theorem wholeLines_nil : WholeLines [] := ⟨nofun, nofun⟩

theorem wholeLines_line (h : newline ∉ line) (hlen : line.length + 1 < 1024) (rest : Bytes) :
    WholeLines (line ++ newline :: rest) ↔ WholeLines rest := by
  have hlast : (∀ b ∈ (line ++ newline :: rest).getLast?, b = newline) ↔
      ∀ b ∈ rest.getLast?, b = newline := by
    cases rest with
    | nil => simp
    | cons c cs =>
        rw [List.getLast?_append, List.getLast?_cons_cons, List.getLast?_cons, Option.some_or]
  rw [WholeLines, WholeLines, linesOf_line h, List.forall_mem_cons, hlast,
    and_iff_right (show line.length ≤ 1022 by omega)]

theorem not_wholeLines_last (h : newline ∉ line) (hne : line ≠ []) : ¬ WholeLines line := by
  intro hwhole
  have hlast := hwhole.2 _ (List.getLast_mem_getLast? hne)
  exact h (hlast ▸ List.getLast_mem hne)

theorem linesOf_long (h : newline ∉ line) (hlen : line.length + 1 = 1024) (rest : Bytes) :
    ∃ head lines, linesOf (line ++ rest) = (line ++ head) :: lines := by
  have hne : line ≠ [] := by
    rintro rfl
    cases hlen
  rcases linesOf_cut h hne rest with ⟨-, hlines⟩ | ⟨head, lines, -, hlines⟩
  · exact ⟨[], [], by rw [hlines, List.append_nil]⟩
  · exact ⟨head, lines, hlines⟩

/-- The pieces without their last characters are the lines of the input. -/
theorem map_dropLast_iff (stdin : Bytes) :
    (inputPieces stdin).map List.dropLast = linesOf stdin ↔ WholeLines stdin := by
  have hsize : 2 ≤ 1024 := by decide
  rw [inputPieces]
  induction stdin using pieces_induction hsize with
  | nil => simp [wholeLines_nil]
  | line line rest h hlen ih =>
      rw [pieces_line h hlen, linesOf_line h, List.map_cons, List.dropLast_concat,
        wholeLines_line h hlen, List.cons.injEq, and_iff_right rfl]
      exact ih
  | cut line rest h hlen ih =>
      -- the first text is shorter than the first line
      obtain ⟨head, lines, hlines⟩ := linesOf_long h hlen rest
      refine iff_of_false ?_ ?_
      · rw [pieces_cut h hlen, hlines, List.map_cons, List.cons.injEq, not_and_or]
        refine .inl fun heq => ?_
        have hlength := congrArg List.length heq
        rw [List.length_dropLast, List.length_append] at hlength
        omega
      · rintro ⟨hshort, -⟩
        have hline := hshort _ (hlines ▸ List.mem_cons_self)
        rw [List.length_append] at hline
        omega
  | last line h hne hlen =>
      refine iff_of_false ?_ (not_wholeLines_last h hne)
      rw [pieces_last h hne hlen, linesOf_last h hne, List.map_singleton, List.cons.injEq,
        not_and_or]
      refine .inl fun heq => ?_
      have hlength := congrArg List.length heq
      have hpos := List.length_pos_iff.mpr hne
      rw [List.length_dropLast] at hlength
      omega

end Texts

/-! ### Sessions -/

section Sessions

variable {F : Type} {cc : Compiler F} {s s' : State F}

/-- An iteration takes the first piece. -/
theorem iteration_piece {env : Env F} (h : iteration cc s env = some s') :
    ∃ r, s'.history = s.history ++ [r] ∧
      inputPieces s.stdin = r.buffer :: inputPieces s'.stdin ∧ r.buffer ++ s'.stdin = s.stdin := by
  obtain ⟨r, spec⟩ := iteration_spec h
  exact ⟨r, spec.history, pieces_cons spec.read, fgets_append spec.read⟩

/-- Input without a NUL that is left is read. -/
theorem exists_iteration (cc : Compiler F) (env : Env F) (hnul : (0 : UInt8) ∉ s.stdin)
    (hne : s.stdin ≠ []) : ∃ s', iteration cc s env = some s' := by
  obtain ⟨piece, rest, hread⟩ := exists_fgets 1024 hne
  have happend := fgets_append hread
  have hpiece : piece ≠ [] := by
    rintro rfl
    have hlt := fgets_length_lt (by decide) hread
    rw [← happend] at hlt
    exact absurd hlt (lt_irrefl _)
  have hnulPiece : (0 : UInt8) ∉ piece := fun h =>
    hnul (happend ▸ List.mem_append_left rest h)
  rw [iteration, hread]
  simp only [cstr_eq_self hnulPiece, if_neg hpiece]
  split
  · exact ⟨_, rfl⟩
  · exact ⟨_, rfl⟩

theorem inputPieces_eq_nil : inputPieces s.stdin = [] ↔ s.stdin = [] := by
  constructor
  · intro h
    by_contra hne
    obtain ⟨piece, rest, hread⟩ := exists_fgets 1024 hne
    rw [inputPieces, pieces_cons hread] at h
    cases h
  · intro h
    rw [h, inputPieces, pieces_nil]

/-- A session with as many iterations as there are pieces reads all of them. -/
theorem exec_pieces (envs : List (Env F)) (hnul : (0 : UInt8) ∉ s.stdin)
    (h : envs.length = (inputPieces s.stdin).length) :
    ∃ s', exec (iteration cc) s envs = some s' ∧ s'.stdin = [] ∧
      s'.history.map Report.buffer = s.history.map Report.buffer ++ inputPieces s.stdin := by
  induction envs generalizing s with
  | nil =>
      have hpieces := List.eq_nil_of_length_eq_zero h.symm
      exact ⟨s, rfl, inputPieces_eq_nil.mp hpieces, by rw [hpieces, List.append_nil]⟩
  | cons env envs ih =>
      have hne : s.stdin ≠ [] := by
        rw [Ne, ← inputPieces_eq_nil]
        intro hnil
        rw [hnil] at h
        cases h
      obtain ⟨t, hstep⟩ := exists_iteration cc env hnul hne
      obtain ⟨r, hhistory, hpieces, happend⟩ := iteration_piece hstep
      rw [hpieces] at h ⊢
      have hrest : (0 : UInt8) ∉ t.stdin := fun h => hnul (happend ▸ List.mem_append_right _ h)
      obtain ⟨s', hexec, hend, hbuffers⟩ := ih hrest (Nat.succ.inj h)
      refine ⟨s', (exec_cons hstep envs).trans hexec, hend, ?_⟩
      rw [hbuffers, hhistory, List.map_append, List.map_singleton, List.append_assoc]
      rfl

/-- At the end of the input `main` returns. -/
theorem iteration_end (h : s.stdin = []) (env : Env F) : iteration cc s env = none := by
  rw [iteration, h]
  rfl

/-- The texts of a session are the pieces of its input, without their last characters. -/
theorem session_lines (cc : Compiler F) {stdin : Bytes} (hnul : (0 : UInt8) ∉ stdin)
    (tmpc : Option Bytes) (tmpo : Option (Library F)) {envs : List (Env F)}
    (h : envs.length = (inputPieces stdin).length) :
    ∃ s, exec (iteration cc) (start stdin tmpc tmpo) envs = some s ∧
      (∀ env, iteration cc s env = none) ∧
      s.history.map Report.line = (inputPieces stdin).map List.dropLast := by
  obtain ⟨s, hexec, hend, hbuffers⟩ := @exec_pieces F cc (start stdin tmpc tmpo) envs hnul h
  have hpieces : s.history.map Report.buffer = inputPieces stdin := hbuffers
  refine ⟨s, hexec, iteration_end hend, ?_⟩
  calc s.history.map Report.line
    _ = (s.history.map Report.buffer).map lineOfBuffer := List.map_map.symm
    _ = (inputPieces stdin).map lineOfBuffer := by rw [hpieces]
    _ = (inputPieces stdin).map List.dropLast := by
        refine List.map_congr_left fun piece hpiece => ?_
        have hflatten : (inputPieces stdin).flatten = stdin := flatten_pieces _ stdin
        have hnulPiece : (0 : UInt8) ∉ piece := fun hmem =>
          hnul (hflatten ▸ List.mem_flatten_of_mem hpiece hmem)
        rw [lineOfBuffer, cstr_eq_self hnulPiece]

/-- **The texts of a session are the lines of its input** exactly when no line has more than
1022 bytes and the last one ends with a newline. -/
theorem lines_whole_iff (cc : Compiler F) {stdin : Bytes} (hnul : (0 : UInt8) ∉ stdin)
    (tmpc : Option Bytes) (tmpo : Option (Library F)) {envs : List (Env F)}
    (h : envs.length = (inputPieces stdin).length) :
    ∃ s, exec (iteration cc) (start stdin tmpc tmpo) envs = some s ∧
      (∀ env, iteration cc s env = none) ∧
      (s.history.map Report.line = linesOf stdin ↔ WholeLines stdin) := by
  obtain ⟨s, hexec, hend, hlines⟩ := session_lines cc hnul tmpc tmpo h
  refine ⟨s, hexec, hend, ?_⟩
  rw [hlines]
  exact map_dropLast_iff stdin

theorem inputPieces_two : inputPieces (ascii "int f;\n1\n") = [ascii "int f;\n", ascii "1\n"] := by
  have hlines : ascii "int f;\n1\n" = ascii "int f;" ++ newline :: (ascii "1" ++ [newline]) := rfl
  rw [inputPieces, hlines, pieces_line (by decide) (by decide), pieces_line (by decide) (by decide),
    pieces_nil]
  rfl

/-- Two lines. -/
theorem lines_whole_two :
    ∃ s, exec (iteration oneLine) (start (ascii "int f;\n1\n") none none)
        [⟨true, fun _ => .sigfpe⟩, ⟨true, fun _ => .sigfpe⟩] = some s ∧
      (∀ env, iteration oneLine s env = none) ∧
      (s.history.map Report.line = linesOf (ascii "int f;\n1\n") ↔
        WholeLines (ascii "int f;\n1\n")) :=
  lines_whole_iff oneLine (by decide) none none (by rw [inputPieces_two]; rfl)

/-- The last character of an input without a newline at its end is lost. -/
theorem last_character_dropped :
    ∃ s, exec (iteration oneLine) (start (ascii "12") none none) [⟨true, fun _ => .sigfpe⟩] =
        some s ∧
      (∀ env, iteration oneLine s env = none) ∧
      s.history.map Report.line ≠ linesOf (ascii "12") := by
  refine ⟨_, rfl, fun _ => rfl, ?_⟩
  have hshorter : [ascii "1"] ≠ [ascii "12"] := by decide
  exact hshorter

end Sessions

end NjuOs.Crepl
