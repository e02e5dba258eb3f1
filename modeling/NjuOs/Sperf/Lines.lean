import Mathlib.Data.Bool.AllAny
import Mathlib.Tactic.Linarith
import NjuOs.Sperf.Table

/-!
How the scanner reads the lines `name(args) = ret <time>`.

Behind a `)` it skips spaces and then swallows one more character, which is a
`)` when two of them are adjacent. So a `)` is looked at when the number of `)`
before it in its run of `)` and spaces is even, and a line is accounted for when
a `)` that is looked at is followed by `=` (`Scanned`). `accounts_iff`: that is
exactly what it takes, for each line, for the table to be right whatever the
times are.
-/

namespace NjuOs.Sperf

open NjuOs.Lib

/-! ### Lines -/

/-- A line without its time. -/
structure Shape where
  name : Bytes
  args : Bytes
  ret : Bytes

structure Line extends Shape where
  time : Bytes

structure Shape.Valid (s : Shape) : Prop where
  length : 1 ≤ s.name.length ∧ s.name.length ≤ 31
  name : ∀ c ∈ s.name, c ≠ lparen ∧ c ≠ newline
  args : ∀ c ∈ s.args, c ≠ equals ∧ c ≠ less ∧ c ≠ newline
  ret : ∀ c ∈ s.ret, c ≠ less ∧ c ≠ newline

structure ValidTime (time : Bytes) : Prop where
  length : 1 ≤ time.length ∧ time.length ≤ 31
  chars : ∀ c ∈ time, isTimeChar c = true

instance (s : Shape) : Decidable s.Valid :=
  decidable_of_iff ((1 ≤ s.name.length ∧ s.name.length ≤ 31) ∧
      (s.name.all fun c => c ≠ lparen ∧ c ≠ newline) ∧
      (s.args.all fun c => c ≠ equals ∧ c ≠ less ∧ c ≠ newline) ∧
      s.ret.all fun c => c ≠ less ∧ c ≠ newline)
    ⟨fun ⟨hlength, hname, hargs, hret⟩ => ⟨hlength, List.all_iff_forall_prop.mp hname,
      List.all_iff_forall_prop.mp hargs, List.all_iff_forall_prop.mp hret⟩,
    fun h => ⟨h.length, List.all_iff_forall_prop.mpr h.name, List.all_iff_forall_prop.mpr h.args,
      List.all_iff_forall_prop.mpr h.ret⟩⟩

instance (time : Bytes) : Decidable (ValidTime time) :=
  decidable_of_iff ((1 ≤ time.length ∧ time.length ≤ 31) ∧ time.all isTimeChar)
    ⟨fun ⟨hlength, hchars⟩ => ⟨hlength, List.all_eq_true.mp hchars⟩,
    fun h => ⟨h.length, List.all_eq_true.mpr h.chars⟩⟩

/-- What is between `(` and `<`. -/
def Shape.middle (s : Shape) : Bytes :=
  s.args ++ [rparen, space, equals, space] ++ s.ret ++ [space]

def Line.text (l : Line) : Bytes :=
  l.name ++ lparen :: (l.middle ++ less :: (l.time ++ [greater, newline]))

/-- What the line should be counted as. -/
def Line.trace (l : Line) : SysTrace := ⟨readString l.name, atof l.time⟩

/-- Names and no other entries, each with the time of its lines, and the sum of all. -/
structure Accounts (lines : List Line) (traces : Traces) : Prop where
  entry : ∀ l ∈ lines, traces.table.time (readString l.name) =
    some ((lines.filter fun l' => l'.name = l.name).map fun l' => atof l'.time).sum
  only : ∀ t ∈ traces.table.entries, ∃ l ∈ lines, t.name = readString l.name
  total : traces.totalTime = (lines.map fun l => atof l.time).sum

/-! ### Parentheses -/

/-- A `)` in front of `pre`'s end is looked at, and `pre` ends in the spaces behind
it: the number of `)` in the run of `)` and spaces that `pre` ends with is odd. -/
def swallows (pre : Bytes) : Bool :=
  (pre.reverse.takeWhile fun c => c = rparen || c = space).count rparen % 2 = 1

/-- The scan of the arguments ends with `c`, behind `pre`. -/
def Decides (pre : Bytes) (c : UInt8) : Prop :=
  if swallows pre = true then c = equals else c = eof

/-- The first such character is a `=`, and the rest is read to its end. -/
def Scanned (text : Bytes) : Prop :=
  ∃ pre post, text = pre ++ equals :: post ∧ swallows pre = true ∧ Never Decides pre ∧ eof ∉ post

@[simp] theorem swallows_nil : swallows [] = false := rfl

theorem swallows_concat (pre : Bytes) (c : UInt8) :
    swallows (pre ++ [c]) =
      if c = rparen then !swallows pre else if c = space then swallows pre else false := by
  rw [swallows, List.reverse_append, List.reverse_singleton, List.singleton_append]
  by_cases hparen : c = rparen
  · rw [List.takeWhile_cons_of_pos (by simp [hparen]), hparen, List.count_cons_self, if_pos rfl,
      swallows]
    by_cases hodd : (pre.reverse.takeWhile fun c => c = rparen || c = space).count rparen % 2 = 1
    · have : ((pre.reverse.takeWhile fun c => c = rparen || c = space).count rparen + 1) % 2 ≠ 1 :=
        by omega
      simp [hodd, this]
    · have : ((pre.reverse.takeWhile fun c => c = rparen || c = space).count rparen + 1) % 2 = 1 :=
        by omega
      simp [hodd, this]
  · rw [if_neg hparen]
    by_cases hspace : c = space
    · rw [List.takeWhile_cons_of_pos (by simp [hspace]), List.count_cons_of_ne hparen,
        if_pos hspace, swallows]
    · rw [List.takeWhile_cons_of_neg (by simp [hparen, hspace]), if_neg hspace]
      rfl

theorem isTimeChar_ne {c d : UInt8} (hc : isTimeChar c = true) (hd : isTimeChar d = false) :
    c ≠ d := by
  rintro rfl
  rw [hc] at hd
  cases hd

/-! ### Reading -/

section Reading

variable {buffer : Bytes} {name : CString}

/-- Behind a record. -/
def Parent.clean (name : CString) : Parent := ⟨.loop .initial, [], name⟩

/-- What is left of a text in `buffer`. -/
def wrapped (text : Bytes) : Bytes := text.drop (text.length / bufferSize * bufferSize)

theorem length_wrapped (text : Bytes) : (wrapped text).length = text.length % bufferSize := by
  rw [wrapped, List.length_drop, bufferSize]
  omega

theorem wrapped_of_lt {text : Bytes} (h : text.length < bufferSize) : wrapped text = text := by
  rw [wrapped, Nat.div_eq_of_lt h, Nat.zero_mul, List.drop_zero]

theorem wrap_wrapped (text : Bytes) (c : UInt8) :
    wrap (wrapped text ++ [c]) = wrapped (text ++ [c]) := by
  have hlength := length_wrapped text
  rw [wrap, List.length_append, hlength, List.length_singleton]
  by_cases hfull : text.length % bufferSize + 1 = bufferSize
  · rw [if_pos hfull, wrapped, List.drop_of_length_le]
    rw [List.length_append, List.length_singleton, bufferSize]
    rw [bufferSize] at hfull
    omega
  · have hdiv : (text.length + 1) / bufferSize = text.length / bufferSize := by
      rw [bufferSize] at hfull ⊢
      omega
    rw [if_neg hfull, wrapped, wrapped, List.length_append, List.length_singleton, hdiv,
      List.drop_append_of_le_length]
    exact Nat.div_mul_le_self _ _

theorem step_eof (state : TraceState) :
    step ⟨.loop state, buffer, name⟩ eof = some (⟨.done, buffer, name⟩, []) := rfl

theorem step_lparen :
    step ⟨.loop .initial, buffer, name⟩ lparen =
      some (⟨.loop .processing, [], readString buffer⟩, []) := rfl

/-- A text without a parenthesis is collected. -/
theorem scan_initial {text : Bytes} (hparen : lparen ∉ text) (heof : eof ∉ text) :
    scan step (.clean name) text = some (⟨.loop .initial, wrapped text, name⟩, []) := by
  induction text using List.reverseRecOn with
  | nil => rfl
  | append_singleton text c ih =>
      rw [List.mem_append, List.mem_singleton, not_or] at hparen heof
      refine scan_concat (ih hparen.1 heof.1) ?_
      simp [step, Ne.symm hparen.2, Ne.symm heof.2, wrap_wrapped]

theorem scan_done (buffer : Bytes) (name : CString) (text : Bytes) :
    scan step ⟨.done, buffer, name⟩ text = some (⟨.done, buffer, name⟩, []) :=
  scan_stuck (fun _ => rfl) text

/-- A text with the byte 255 ends the scan. -/
theorem scan_initial_eof {text : Bytes} (hparen : lparen ∉ text) (heof : eof ∈ text) :
    ∃ buffer, scan step (.clean name) text = some (⟨.done, buffer, name⟩, []) := by
  obtain ⟨pre, post, rfl, hpre⟩ := List.eq_append_cons_of_mem heof
  refine ⟨wrapped pre, ?_⟩
  rw [scan_silent (scan_initial (fun h => hparen (List.mem_append_left _ h)) hpre),
    scan_silent_cons (step_eof .initial), scan_done]

/-- In the arguments nothing is decided. -/
theorem scan_processing {text : Bytes} (h : Never Decides text) :
    scan step ⟨.loop .processing, buffer, name⟩ text =
      some (⟨if swallows text = true then .skip else .loop .processing, buffer, name⟩, []) := by
  induction text using List.reverseRecOn with
  | nil => rfl
  | append_singleton text c ih =>
      rw [never_concat] at h
      refine scan_concat (ih h.1) ?_
      have hc := h.2
      rw [Decides] at hc
      rw [swallows_concat]
      by_cases hswallows : swallows text = true
      · rw [if_pos hswallows] at hc ⊢
        by_cases hparen : c = rparen
        · subst hparen
          simp [step, hswallows, rparen, space, equals, Parent.goto]
        · by_cases hspace : c = space
          · subst hspace
            simp [step, hswallows, hparen]
          · simp [step, hc, hparen, hspace, Parent.goto]
      · rw [if_neg hswallows] at hc ⊢
        rw [Bool.not_eq_true] at hswallows
        by_cases hparen : c = rparen
        · subst hparen
          simp [step, hswallows, hc, Parent.goto]
        · simp [step, hswallows, hc, hparen]

theorem step_swallowed_equals :
    step ⟨.skip, buffer, name⟩ equals = some (⟨.loop .final, buffer, name⟩, []) := rfl

/-- Behind the `=` everything is read over, up to the `<`. -/
theorem scan_final {text : Bytes} (hless : less ∉ text) (heof : eof ∉ text) :
    scan step ⟨.loop .final, buffer, name⟩ text = some (⟨.loop .final, buffer, name⟩, []) := by
  refine scan_ignores fun c hc => ?_
  have hne : c ≠ less := fun h => hless (h ▸ hc)
  have hne' : c ≠ eof := fun h => heof (h ▸ hc)
  simp [step, hne, hne']

theorem scan_final_eof {text : Bytes} (hless : less ∉ text) (heof : eof ∈ text) :
    scan step ⟨.loop .final, buffer, name⟩ text = some (⟨.done, buffer, name⟩, []) := by
  obtain ⟨pre, post, rfl, hpre⟩ := List.eq_append_cons_of_mem heof
  rw [scan_silent (scan_final (fun h => hless (List.mem_append_left _ h)) hpre),
    scan_silent_cons (step_eof .final), scan_done]

theorem scan_time {time : Bytes} (hchars : ∀ c ∈ time, isTimeChar c = true)
    (hfits : buffer.length + time.length ≤ bufferSize) :
    scan step ⟨.time, buffer, name⟩ time = some (⟨.time, buffer ++ time, name⟩, []) := by
  induction time generalizing buffer with
  | nil => simp
  | cons c time ih =>
      have hc := hchars c List.mem_cons_self
      have hne : c ≠ greater := isTimeChar_ne hc (by decide)
      rw [List.length_cons] at hfits
      have hroom : buffer.length < bufferSize := by omega
      have hstep : step ⟨.time, buffer, name⟩ c = some (⟨.time, buffer ++ [c], name⟩, []) := by
        simp [step, hne, hc, hroom]
      rw [scan_silent_cons hstep, ih (fun d hd => hchars d (List.mem_cons_of_mem c hd)),
        List.append_assoc, List.singleton_append]
      rw [List.length_append, List.length_singleton]
      omega

/-- A time, from its `<` to the end of the line. -/
theorem scan_timed {time : Bytes} (h : ValidTime time) :
    scan step ⟨.loop .final, [], name⟩ (less :: (time ++ [greater, newline])) =
      some (.clean name, [⟨name, atof time⟩]) := by
  have hroom : time.length < bufferSize := Nat.lt_succ_of_le h.length.2
  have hless : step ⟨.loop .final, [], name⟩ less = some (⟨.time, [], name⟩, []) := rfl
  have hgreater : step ⟨.time, time, name⟩ greater = some (⟨.newline, time, name⟩, []) := rfl
  have hnewline : step ⟨.newline, time, name⟩ newline =
      some (.clean name, [⟨name, atof time⟩]) := by
    simp [step, hroom, Parent.clean]
  rw [scan_silent_cons hless, scan_silent (scan_time h.chars (by simpa using hroom.le)),
    List.nil_append, scan_silent_cons hgreater, scan_singleton, hnewline]

end Reading

/-! ### One line -/

section Line

variable {s : Shape} {name : CString}

/-- The scanner reads the line as it is meant. -/
def Shape.Read (s : Shape) : Prop := eof ∉ s.name ∧ Scanned s.middle

theorem Shape.Valid.lparen_notMem (h : s.Valid) : lparen ∉ s.name :=
  fun hmem => (h.name _ hmem).1 rfl

theorem Shape.Valid.wrapped_name (h : s.Valid) : wrapped s.name = s.name :=
  wrapped_of_lt (Nat.lt_succ_of_le h.length.2)

theorem Shape.Valid.less_notMem (h : s.Valid) : less ∉ s.middle := by
  have hargs : less ∉ s.args := fun hmem => (h.args _ hmem).2.1 rfl
  have hret : less ∉ s.ret := fun hmem => (h.ret _ hmem).1 rfl
  have hclose : less ∉ [rparen, space, equals, space] := by decide
  simp only [Shape.middle, List.mem_append, not_or]
  exact ⟨⟨⟨hargs, hclose⟩, hret⟩, by decide⟩

/-- Up to the `(`. -/
theorem scan_name (h : s.Valid) (hname : eof ∉ s.name) (text : Bytes) :
    scan step (.clean name) (s.name ++ lparen :: text) =
      scan step ⟨.loop .processing, [], readString s.name⟩ text := by
  rw [scan_silent (scan_initial h.lparen_notMem hname), h.wrapped_name,
    scan_silent_cons step_lparen]

theorem scan_line (h : s.Valid) (hread : s.Read) {time : Bytes} (htime : ValidTime time) :
    scan step (.clean name) (Line.text ⟨s, time⟩) =
      some (.clean (readString s.name), [Line.trace ⟨s, time⟩]) := by
  obtain ⟨hname, pre, post, hmiddle, hswallows, hpre, hpost⟩ := hread
  have hless : less ∉ post := fun hmem => h.less_notMem (by simp [hmiddle, hmem])
  have hskip := @scan_processing [] (readString s.name) _ hpre
  rw [if_pos hswallows] at hskip
  rw [Line.text, scan_name h hname, hmiddle, List.append_assoc, scan_silent hskip,
    List.cons_append, scan_silent_cons step_swallowed_equals, scan_silent (scan_final hless hpost),
    scan_timed htime]
  rfl

/-- The time of a line that is read otherwise is nowhere. -/
theorem scan_line_lost (h : s.Valid) (hread : ¬ s.Read) :
    ∃ s' : Parent, (s'.control = .done ∨ Never Decides s.middle) ∧ ∀ time, ValidTime time →
      scan step (.clean name) (Line.text ⟨s, time⟩) = some (s', []) := by
  by_cases hname : eof ∈ s.name
  · obtain ⟨buffer, hdone⟩ := @scan_initial_eof name _ h.lparen_notMem hname
    exact ⟨_, .inl rfl, fun time _ => by rw [Line.text, scan_silent hdone, scan_done]⟩
  have hscanned : ¬ Scanned s.middle := fun hscanned => hread ⟨hname, hscanned⟩
  rcases exists_first (P := Decides) s.middle with hnever | ⟨pre, c, post, hmiddle, hc, hpre⟩
  · -- the scan is still in the arguments when the line ends
    refine ⟨⟨.loop .processing, [], readString s.name⟩, .inr hnever, fun time htime => ?_⟩
    have htail : ∀ c ∈ less :: (time ++ [greater, newline]), ∀ pre, ¬ Decides pre c := by
      intro c hc pre
      have hne : c ≠ equals ∧ c ≠ eof := by
        simp only [List.mem_cons, List.mem_append, List.not_mem_nil, or_false] at hc
        rcases hc with rfl | hc | rfl | rfl
        · decide
        · exact ⟨isTimeChar_ne (htime.chars c hc) (by decide),
            isTimeChar_ne (htime.chars c hc) (by decide)⟩
        · decide
        · decide
      rw [Decides]
      split
      · exact hne.1
      · exact hne.2
    have hend : swallows (s.middle ++ less :: (time ++ [greater, newline])) = false := by
      have hsplit : s.middle ++ less :: (time ++ [greater, newline]) =
          (s.middle ++ less :: (time ++ [greater])) ++ [newline] := by simp
      rw [hsplit, swallows_concat]
      rfl
    rw [Line.text, scan_name h hname, scan_processing (hnever.append htail), hend]
    rfl
  have hless : less ∉ post := fun hmem => h.less_notMem (by simp [hmiddle, hmem])
  have hreach := @scan_processing [] (readString s.name) _ hpre
  rw [Decides] at hc
  refine ⟨⟨.done, [], readString s.name⟩, .inl rfl, fun time _ => ?_⟩
  rw [Line.text, scan_name h hname, hmiddle, List.append_assoc, scan_silent hreach,
    List.cons_append]
  by_cases hswallows : swallows pre = true
  · rw [if_pos hswallows] at hc ⊢
    subst hc
    have heof : eof ∈ post := by
      by_contra hpost
      exact hscanned ⟨pre, post, hmiddle, hswallows, hpre, hpost⟩
    rw [scan_silent_cons step_swallowed_equals, scan_silent (scan_final_eof hless heof), scan_done]
  · rw [if_neg hswallows] at hc ⊢
    subst hc
    rw [scan_silent_cons (step_eof .processing), scan_done]

end Line

end NjuOs.Sperf
