import NjuOs.Lib.Bytes

/-!
Line-wise reading of a byte stream, and the texts that are printed.

`fgets` takes the next line, newline included, or as much of it as fits in the
buffer. `fgets_line` and `fgets_cut` are these two cases, and `fgets_append`
says that nothing is lost. `ascii` and `decimal` spell what `printf` prints.
-/

namespace NjuOs.Lib

/-- At most `n` bytes, up to the first newline and with it. -/
def lineOf : Nat → Bytes → Bytes
  | 0, _ => []
  | _ + 1, [] => []
  | n + 1, c :: cs => if c = newline then [c] else c :: lineOf n cs

/-- `fgets` into a buffer of `size` bytes: the bytes stored before the
terminator and the rest of the stream, or `NULL` at its end. -/
def fgets (size : Nat) (stream : Bytes) : Option (Bytes × Bytes) :=
  if stream = [] then none
  else
    let line := lineOf (size - 1) stream
    some (line, stream.drop line.length)

theorem lineOf_line {line : Bytes} (h : newline ∉ line) {n : Nat} (hn : line.length < n)
    (rest : Bytes) : lineOf n (line ++ newline :: rest) = line ++ [newline] := by
  induction line generalizing n with
  | nil => cases n with
    | zero => cases hn
    | succ n => simp [lineOf]
  | cons c cs ih => cases n with
    | zero => cases hn
    | succ n =>
        have hc : c ≠ newline := fun h' => h (h' ▸ List.mem_cons_self)
        rw [List.cons_append, lineOf, if_neg hc,
          ih (fun h' => h (List.mem_cons_of_mem _ h')) (Nat.lt_of_succ_lt_succ hn)]
        rfl

theorem lineOf_cut {line : Bytes} (h : newline ∉ line) (rest : Bytes) :
    lineOf line.length (line ++ rest) = line := by
  induction line with
  | nil => rfl
  | cons c cs ih =>
      have hc : c ≠ newline := fun h' => h (h' ▸ List.mem_cons_self)
      rw [List.length_cons, List.cons_append, lineOf, if_neg hc,
        ih fun h' => h (List.mem_cons_of_mem _ h')]

/-- A line that fits is taken whole. -/
theorem fgets_line {line : Bytes} (h : newline ∉ line) {size : Nat} (hsize : line.length + 1 < size)
    (rest : Bytes) : fgets size (line ++ newline :: rest) = some (line ++ [newline], rest) := by
  rw [fgets, if_neg (by simp), lineOf_line h (by omega)]
  simp

/-- A line that fills the buffer is cut before its newline. -/
theorem fgets_cut {line : Bytes} (h : newline ∉ line) (hne : line ≠ []) {size : Nat}
    (hsize : line.length + 1 = size) (rest : Bytes) :
    fgets size (line ++ rest) = some (line, rest) := by
  have hn : size - 1 = line.length := by omega
  rw [fgets, if_neg (by simp [hne]), hn, lineOf_cut h]
  simp

theorem lineOf_append_drop (n : Nat) (stream : Bytes) :
    lineOf n stream ++ stream.drop (lineOf n stream).length = stream := by
  induction n generalizing stream with
  | zero => rfl
  | succ n ih =>
      cases stream with
      | nil => rfl
      | cons c cs =>
          rw [lineOf]
          split_ifs
          · rfl
          · rw [List.length_cons, List.drop_succ_cons, List.cons_append, ih]

/-- What is stored and what is left are the stream. -/
theorem fgets_append {size : Nat} {stream line rest : Bytes}
    (h : fgets size stream = some (line, rest)) : line ++ rest = stream := by
  unfold fgets at h
  split_ifs at h
  cases h
  exact lineOf_append_drop _ _

theorem exists_fgets (size : Nat) {stream : Bytes} (hne : stream ≠ []) :
    ∃ line rest, fgets size stream = some (line, rest) := ⟨_, _, if_neg hne⟩

/-- Every call that stores something shortens the stream. -/
theorem fgets_length_lt {size : Nat} (hsize : 2 ≤ size) {stream line rest : Bytes}
    (h : fgets size stream = some (line, rest)) : rest.length < stream.length := by
  unfold fgets at h
  split_ifs at h with hne
  cases h
  obtain ⟨n, hn⟩ : ∃ n, size - 1 = n + 1 := ⟨size - 2, by omega⟩
  cases stream with
  | nil => exact absurd rfl hne
  | cons c cs =>
      rw [hn, lineOf, List.length_drop]
      split
      · simp
      · simp only [List.length_cons]
        omega

/-! ### Whole files -/

/-- All that one call of `fgets` after another delivers. -/
def pieces (size : Nat) (hsize : 2 ≤ size) (stream : Bytes) : List Bytes :=
  match _h : fgets size stream with
  | none => []
  | some (line, rest) => line :: pieces size hsize rest
termination_by stream.length
decreasing_by exact fgets_length_lt hsize _h

/-- The lines of a file, without their newlines; the last one may have none. -/
def linesOf : Bytes → List Bytes
  | [] => []
  | c :: cs =>
      if c = newline then [] :: linesOf cs
      else
        match linesOf cs with
        | [] => [[c]]
        | line :: lines => (c :: line) :: lines

theorem lineOf_short {stream : Bytes} (h : newline ∉ stream) {n : Nat} (hn : stream.length ≤ n) :
    lineOf n stream = stream := by
  induction stream generalizing n with
  | nil => cases n <;> rfl
  | cons c cs ih => cases n with
    | zero => cases hn
    | succ n =>
        have hc : c ≠ newline := fun h' => h (h' ▸ List.mem_cons_self)
        rw [lineOf, if_neg hc, ih (fun h' => h (List.mem_cons_of_mem _ h'))
          (Nat.le_of_succ_le_succ hn)]

/-- A last line without a newline. -/
theorem fgets_last {line : Bytes} (h : newline ∉ line) (hne : line ≠ []) {size : Nat}
    (hsize : line.length + 1 < size) : fgets size line = some (line, []) := by
  rw [fgets, if_neg hne, lineOf_short h (by omega)]
  simp

/-- A whole line, a line that is cut, or the end of a file without a newline. -/
theorem fgets_cases {size : Nat} (hsize : 2 ≤ size) {stream : Bytes} (hne : stream ≠ []) :
    (∃ line rest, stream = line ++ newline :: rest ∧ newline ∉ line ∧ line.length + 1 < size ∧
        fgets size stream = some (line ++ [newline], rest)) ∨
      (∃ line rest, stream = line ++ rest ∧ newline ∉ line ∧ line.length + 1 = size ∧
        fgets size stream = some (line, rest)) ∨
      newline ∉ stream ∧ stream.length + 1 < size ∧ fgets size stream = some (stream, []) := by
  obtain ⟨line, after, rfl, hline, hafter⟩ : ∃ line after, stream = line ++ after ∧
      newline ∉ line ∧ (after = [] ∨ ∃ rest, after = newline :: rest) := by
    clear hne
    induction stream with
    | nil => exact ⟨[], [], rfl, List.not_mem_nil, .inl rfl⟩
    | cons c cs ih =>
        by_cases hc : c = newline
        · exact ⟨[], c :: cs, rfl, List.not_mem_nil, .inr ⟨cs, by rw [hc]⟩⟩
        · obtain ⟨line, after, rfl, hline, hafter⟩ := ih
          refine ⟨c :: line, after, rfl, ?_, hafter⟩
          rw [List.mem_cons, not_or]
          exact ⟨Ne.symm hc, hline⟩
  by_cases hlong : size ≤ line.length + 1
  · have hlen : (line.take (size - 1)).length + 1 = size := by
      rw [List.length_take]
      omega
    have hcut : newline ∉ line.take (size - 1) := fun h => hline (List.mem_of_mem_take h)
    have hsplit : line ++ after = line.take (size - 1) ++ (line.drop (size - 1) ++ after) := by
      rw [← List.append_assoc, List.take_append_drop]
    have hcutne : line.take (size - 1) ≠ [] := fun h => by
      rw [h, List.length_nil] at hlen
      omega
    refine .inr (.inl ⟨_, _, hsplit, hcut, hlen, ?_⟩)
    rw [hsplit]
    exact fgets_cut hcut hcutne hlen _
  · rcases hafter with rfl | ⟨rest, rfl⟩
    · rw [List.append_nil] at hne ⊢
      exact .inr (.inr ⟨hline, by omega, fgets_last hline hne (by omega)⟩)
    · exact .inl ⟨line, rest, rfl, hline, by omega, fgets_line hline (by omega) rest⟩

section Pieces

variable {size : Nat} {hsize : 2 ≤ size}

theorem pieces_cons {stream line rest : Bytes} (h : fgets size stream = some (line, rest)) :
    pieces size hsize stream = line :: pieces size hsize rest := by
  rw [pieces]
  split
  · next hnone => cases h.symm.trans hnone
  · next hsome =>
    cases h.symm.trans hsome
    rfl

@[simp] theorem pieces_nil : pieces size hsize [] = [] := by
  rw [pieces]
  rfl

theorem pieces_line {line : Bytes} (h : newline ∉ line) (hlen : line.length + 1 < size)
    (rest : Bytes) : pieces size hsize (line ++ newline :: rest) =
      (line ++ [newline]) :: pieces size hsize rest := pieces_cons (fgets_line h hlen rest)

theorem pieces_cut {line : Bytes} (h : newline ∉ line) (hlen : line.length + 1 = size)
    (rest : Bytes) : pieces size hsize (line ++ rest) = line :: pieces size hsize rest := by
  refine pieces_cons (fgets_cut h ?_ hlen rest)
  rintro rfl
  rw [List.length_nil] at hlen
  omega

theorem pieces_last {line : Bytes} (h : newline ∉ line) (hne : line ≠ [])
    (hlen : line.length + 1 < size) : pieces size hsize line = [line] := by
  rw [pieces_cons (fgets_last h hne hlen), pieces_nil]

/-- A file is empty, or it begins with a line that fits, or with as much of a line as
fits, or it is a line without a newline. -/
@[elab_as_elim]
theorem pieces_induction (hsize : 2 ≤ size) {motive : Bytes → Prop} (nil : motive [])
    (line : ∀ line rest, newline ∉ line → line.length + 1 < size → motive rest →
      motive (line ++ newline :: rest))
    (cut : ∀ line rest, newline ∉ line → line.length + 1 = size → motive rest →
      motive (line ++ rest))
    (last : ∀ line, newline ∉ line → line ≠ [] → line.length + 1 < size → motive line)
    (stream : Bytes) : motive stream := by
  induction hn : stream.length using Nat.strong_induction_on generalizing stream with
  | _ n ih =>
    subst hn
    by_cases hne : stream = []
    · rw [hne]
      exact nil
    · rcases fgets_cases hsize hne with
        ⟨text, rest, rfl, htext, hlen, hget⟩ | ⟨text, rest, rfl, htext, hlen, hget⟩ |
          ⟨htext, hlen, -⟩
      · exact line text rest htext hlen (ih _ (fgets_length_lt hsize hget) rest rfl)
      · exact cut text rest htext hlen (ih _ (fgets_length_lt hsize hget) rest rfl)
      · exact last stream htext hne hlen

/-- The pieces are the file. -/
theorem flatten_pieces (hsize : 2 ≤ size) (stream : Bytes) :
    (pieces size hsize stream).flatten = stream := by
  induction stream using pieces_induction hsize with
  | nil => rw [pieces_nil, List.flatten_nil]
  | line line rest h hlen ih =>
      rw [pieces_line h hlen, List.flatten_cons, ih, List.append_assoc, List.singleton_append]
  | cut line rest h hlen ih => rw [pieces_cut h hlen, List.flatten_cons, ih]
  | last line h hne hlen => rw [pieces_last h hne hlen, List.flatten_singleton]

end Pieces

@[simp] theorem linesOf_nil : linesOf [] = [] := rfl

theorem linesOf_cons {c : UInt8} (hc : c ≠ newline) {cs line : Bytes} {lines : List Bytes}
    (h : linesOf cs = line :: lines) : linesOf (c :: cs) = (c :: line) :: lines := by
  rw [linesOf, if_neg hc, h]

theorem linesOf_line {line : Bytes} (h : newline ∉ line) (rest : Bytes) :
    linesOf (line ++ newline :: rest) = line :: linesOf rest := by
  induction line with
  | nil => rw [List.nil_append, linesOf, if_pos rfl]
  | cons c cs ih =>
      have hc : c ≠ newline := fun h' => h (h' ▸ List.mem_cons_self)
      exact linesOf_cons hc (ih fun h' => h (List.mem_cons_of_mem _ h'))

/-- What stands in front of the first line of the rest belongs to it. -/
theorem linesOf_append {line : Bytes} (h : newline ∉ line) {rest head : Bytes}
    {lines : List Bytes} (hrest : linesOf rest = head :: lines) :
    linesOf (line ++ rest) = (line ++ head) :: lines := by
  induction line with
  | nil => exact hrest
  | cons c cs ih =>
      have hc : c ≠ newline := fun h' => h (h' ▸ List.mem_cons_self)
      exact linesOf_cons hc (ih fun h' => h (List.mem_cons_of_mem _ h'))

theorem linesOf_last {line : Bytes} (h : newline ∉ line) (hne : line ≠ []) :
    linesOf line = [line] := by
  induction line with
  | nil => exact absurd rfl hne
  | cons c cs ih =>
      have hc : c ≠ newline := fun h' => h (h' ▸ List.mem_cons_self)
      cases cs with
      | nil => rw [linesOf, if_neg hc, linesOf_nil]
      | cons d ds => exact linesOf_cons hc (ih (fun h' => h (List.mem_cons_of_mem _ h')) (by simp))

theorem linesOf_ne_nil {stream : Bytes} (h : stream ≠ []) : linesOf stream ≠ [] := by
  cases stream with
  | nil => exact absurd rfl h
  | cons c cs =>
      by_cases hc : c = newline
      · rw [linesOf, if_pos hc]
        exact List.cons_ne_nil _ _
      · cases hcs : linesOf cs with
        | nil =>
            rw [linesOf, if_neg hc, hcs]
            exact List.cons_ne_nil _ _
        | cons line lines =>
            rw [linesOf_cons hc hcs]
            exact List.cons_ne_nil _ _

/-- A character that ends no line is in one. -/
theorem exists_mem_linesOf {c : UInt8} (hc : c ≠ newline) {stream : Bytes} (h : c ∈ stream) :
    ∃ line ∈ linesOf stream, c ∈ line := by
  induction stream with
  | nil => cases h
  | cons d cs ih =>
      by_cases hd : d = newline
      · obtain ⟨line, hline, hmem⟩ := ih (List.mem_of_ne_of_mem (fun heq => hc (heq.trans hd)) h)
        rw [linesOf, if_pos hd]
        exact ⟨line, List.mem_cons_of_mem _ hline, hmem⟩
      · cases hcs : linesOf cs with
        | nil =>
            rw [linesOf, if_neg hd, hcs]
            refine ⟨[d], List.mem_cons_self, ?_⟩
            rcases List.mem_cons.mp h with rfl | h
            · exact List.mem_cons_self
            · obtain ⟨line, hline, -⟩ := ih h
              rw [hcs] at hline
              cases hline
        | cons line lines =>
            rw [linesOf_cons hd hcs]
            rcases List.mem_cons.mp h with rfl | h
            · exact ⟨c :: line, List.mem_cons_self, List.mem_cons_self⟩
            · obtain ⟨line', hline', hmem⟩ := ih h
              rw [hcs] at hline'
              rcases List.mem_cons.mp hline' with rfl | hline'
              · exact ⟨_, List.mem_cons_self, List.mem_cons_of_mem _ hmem⟩
              · exact ⟨line', List.mem_cons_of_mem _ hline', hmem⟩

/-- An empty line is a newline. -/
theorem eq_newline_of_linesOf {stream : Bytes} {lines : List Bytes}
    (h : linesOf stream = [] :: lines) : ∃ rest, stream = newline :: rest := by
  cases stream with
  | nil => cases h
  | cons c cs =>
      by_cases hc : c = newline
      · exact ⟨cs, by rw [hc]⟩
      · cases hcs : linesOf cs with
        | nil =>
            rw [linesOf, if_neg hc, hcs] at h
            cases h
        | cons line lines' =>
            rw [linesOf_cons hc hcs] at h
            cases h

/-- A line that is cut: the first piece of it, and the rest of the file. -/
theorem linesOf_cut {line : Bytes} (h : newline ∉ line) (hne : line ≠ []) (rest : Bytes) :
    rest = [] ∧ linesOf (line ++ rest) = [line] ∨
      ∃ head lines, linesOf rest = head :: lines ∧
        linesOf (line ++ rest) = (line ++ head) :: lines := by
  by_cases hrest : rest = []
  · refine .inl ⟨hrest, ?_⟩
    rw [hrest, List.append_nil, linesOf_last h hne]
  · obtain ⟨head, lines, hlines⟩ := List.exists_cons_of_ne_nil (linesOf_ne_nil hrest)
    exact .inr ⟨head, lines, hlines, linesOf_append h hlines⟩

/-- A file has no more lines than pieces. -/
theorem length_linesOf_le {size : Nat} (hsize : 2 ≤ size) (stream : Bytes) :
    (linesOf stream).length ≤ (pieces size hsize stream).length := by
  induction stream using pieces_induction hsize with
  | nil => simp
  | line line rest h hlen ih =>
      rw [linesOf_line h, pieces_line h hlen]
      exact Nat.succ_le_succ ih
  | cut line rest h hlen ih =>
      have hne : line ≠ [] := by
        rintro rfl
        rw [List.length_nil] at hlen
        omega
      rw [pieces_cut h hlen]
      rcases linesOf_cut h hne rest with ⟨rfl, hlines⟩ | ⟨head, lines, hrest, hlines⟩
      · rw [hlines]
        simp
      · rw [hrest] at ih
        rw [hlines]
        exact Nat.le_succ_of_le ih
  | last line h hne hlen => rw [linesOf_last h hne, pieces_last h hne hlen]

theorem length_piece_lt {size : Nat} (hsize : 2 ≤ size) (stream : Bytes) :
    ∀ piece ∈ pieces size hsize stream, piece.length < size := by
  induction stream using pieces_induction hsize with
  | nil => simp
  | line line rest h hlen ih =>
      rw [pieces_line h hlen, List.forall_mem_cons]
      refine ⟨?_, ih⟩
      rwa [List.length_append, List.length_singleton]
  | cut line rest h hlen ih =>
      rw [pieces_cut h hlen, List.forall_mem_cons]
      exact ⟨by omega, ih⟩
  | last line h hne hlen =>
      rw [pieces_last h hne hlen, List.forall_mem_singleton]
      omega

/-! ### Printed texts -/

/-- The bytes of an ASCII string. -/
def ascii (s : String) : Bytes := s.toList.map fun c => UInt8.ofNat c.toNat

/-- `%d` of a number that is not negative. -/
def decimal (n : Nat) : Bytes := (Nat.toDigits 10 n).map fun c => UInt8.ofNat c.toNat

/-- The byte of a digit. -/
theorem toNat_digit {n : Nat} {c : Char} (h : c ∈ Nat.toDigits 10 n) :
    (UInt8.ofNat c.toNat).toNat = c.toNat ∧ 48 ≤ c.toNat ∧ c.toNat ≤ 57 := by
  have digit : c.isDigit := Nat.isDigit_of_mem_toDigits (by decide) (by decide) h
  obtain ⟨lower, upper⟩ := Char.isDigit_iff_toNat.mp digit
  exact ⟨UInt8.toNat_ofNat_of_lt' (upper.trans_lt (by decide)), lower, upper⟩

theorem decimal_digit {n : Nat} {b : UInt8} (h : b ∈ decimal n) : 48 ≤ b.toNat ∧ b.toNat ≤ 57 := by
  obtain ⟨c, hc, rfl⟩ := List.mem_map.mp h
  obtain ⟨value, bounds⟩ := toNat_digit hc
  rwa [value]

theorem decimal_nulFree (n : Nat) : (0 : UInt8) ∉ decimal n :=
  fun h => absurd (decimal_digit h).1 (by decide)

end NjuOs.Lib
