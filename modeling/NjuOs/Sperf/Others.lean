import NjuOs.Sperf.Accounts
import NjuOs.Sperf.Steps

/-!
How the scanner reads the lines of `strace` that are not records.

None of them is counted: the newline that counts a line stands behind a time,
and these lines end otherwise. But nothing resets the scanner at a newline. A
block of such lines leaves its characters in `buffer`, or it leaves the scanner
behind the first `(` (`scan_block`).
-/

namespace NjuOs.Sperf

open NjuOs.Lib

section Texts

def dash : UInt8 := 0x2D

def plus : UInt8 := 0x2B

/-- `<unfinished` -/
def unfinishedText : Bytes :=
  [less, 0x75, 0x6E, 0x66, 0x69, 0x6E, 0x69, 0x73, 0x68, 0x65, 0x64]

end Texts

/-- A line that is not a record. -/
inductive Other where
  /-- `--- text ---` -/
  | signal (text : Bytes)
  /-- `+++ text +++` -/
  | exited (text : Bytes)
  /-- `name(rest = ?` -/
  | noReturn (name rest : Bytes)
  /-- `name(rest <unfinished ...>` -/
  | unfinished (name rest : Bytes)

def Other.body : Other → Bytes
  | .signal text => [dash, dash, dash] ++ text
  | .exited text => [plus, plus, plus] ++ text
  | .noReturn name rest => name ++ lparen :: rest
  | .unfinished name rest => name ++ lparen :: (rest ++ unfinishedText)

/-- The end of the line, with its newline. -/
def Other.tail : Other → Bytes
  | .signal _ => [dash, dash, dash, newline]
  | .exited _ => [plus, plus, plus, newline]
  | .noReturn _ _ => [equals, space, question, newline]
  | .unfinished _ _ => [space, dot, dot, dot, greater, newline]

def Other.text (o : Other) : Bytes := o.body ++ o.tail

/-- It is one line. -/
def Other.Valid (o : Other) : Prop := newline ∉ o.body

def blockText (block : List Other) : Bytes := block.flatMap Other.text

/-! ### Behind a parenthesis -/

section Inside

/-- The scanner is between the lines of a block, behind a `(`. -/
def Between (s : Parent) : Prop :=
  s.control = .loop .processing ∨ s.control = .loop .final ∨ s.control = .done

/-- Without a newline nothing is counted, and the name stays. -/
theorem step_inside {s s' : Parent} {c : UInt8} {out : List SysTrace}
    (hs : s.control ≠ .loop .initial) (hc : c ≠ newline) (h : step s c = some (s', out)) :
    out = [] ∧ s'.control ≠ .loop .initial ∧ s'.name = s.name := by
  cases reads_of_step h with
  | name => exact absurd rfl hs
  | named => exact absurd rfl hs
  | time => exact ⟨rfl, by simp, rfl⟩
  | record => exact absurd rfl hc
  | goto _ hinitial => exact ⟨rfl, hinitial, rfl⟩

theorem scan_inside {text : Bytes} (htext : newline ∉ text) :
    ∀ {s s' : Parent} {out : List SysTrace}, s.control ≠ .loop .initial →
      scan step s text = some (s', out) →
        out = [] ∧ s'.control ≠ .loop .initial ∧ s'.name = s.name := by
  induction text with
  | nil =>
      intro s s' out hs h
      obtain ⟨rfl, rfl⟩ := Prod.mk.inj (Option.some.inj h)
      exact ⟨rfl, hs, rfl⟩
  | cons c text ih =>
      intro s s' out hs h
      rw [List.mem_cons, not_or] at htext
      obtain ⟨t, now, rest, hnow, hscan, rfl⟩ := exists_of_scan_cons h
      obtain ⟨rfl, ht, hname⟩ := step_inside hs (Ne.symm htext.1) hnow
      obtain ⟨rfl, ht', hname'⟩ := ih htext.2 ht hscan
      exact ⟨rfl, ht', hname'.trans hname⟩

/-- The end of a line is not one of a record, wherever the scanner is. -/
theorem scan_tail (o : Other) {s : Parent} (hs : s.control ≠ .loop .initial) :
    ∃ s', scan step s o.tail = some (s', []) ∧ Between s' ∧ s'.name = s.name := by
  obtain ⟨control, buffer, name⟩ := s
  rcases control with (_ | _ | _) | _ | _ | _ | _
  case loop.initial => exact absurd rfl hs
  all_goals
    cases o <;>
      first
        | exact ⟨_, rfl, .inl rfl, rfl⟩
        | exact ⟨_, rfl, .inr (.inl rfl), rfl⟩
        | exact ⟨_, rfl, .inr (.inr rfl), rfl⟩

theorem Between.ne_initial {s : Parent} (h : Between s) : s.control ≠ .loop .initial := by
  rcases h with h | h | h <;> rw [h] <;> nofun

/-- Part of a line, to its end. -/
theorem scan_rest {body : Bytes} (hbody : newline ∉ body) (o : Other) {s : Parent}
    (hs : s.control ≠ .loop .initial) :
    scan step s (body ++ o.tail) = none ∨
      ∃ s', scan step s (body ++ o.tail) = some (s', []) ∧ Between s' ∧ s'.name = s.name := by
  cases h : scan step s body with
  | none => exact .inl (scan_append_none h _)
  | some now =>
      obtain ⟨t, out⟩ := now
      obtain ⟨rfl, ht, hname⟩ := scan_inside hbody hs h
      obtain ⟨s', htail, hs', hname'⟩ := scan_tail o ht
      exact .inr ⟨s', by rw [scan_silent h, htail], hs', hname'.trans hname⟩

theorem scan_lines_rest {block : List Other} (hblock : ∀ o ∈ block, o.Valid) :
    ∀ {s : Parent}, Between s → scan step s (blockText block) = none ∨
      ∃ s', scan step s (blockText block) = some (s', []) ∧ Between s' ∧ s'.name = s.name := by
  induction block with
  | nil => exact fun {s} hs => .inr ⟨s, rfl, hs, rfl⟩
  | cons o block ih =>
      intro s hs
      rw [List.forall_mem_cons] at hblock
      rw [blockText, List.flatMap_cons, Other.text]
      rcases scan_rest hblock.1 o hs.ne_initial with hnone | ⟨t, hline, ht, hname⟩
      · exact .inl (scan_append_none hnone _)
      · rw [scan_silent hline]
        rcases ih hblock.2 ht with hnone | ⟨s', hrest, hs', hname'⟩
        · exact .inl hnone
        · exact .inr ⟨s', hrest, hs', hname'.trans hname⟩

end Inside

/-! ### Blocks -/

section Block

theorem lparen_notMem_tail (o : Other) : lparen ∉ o.tail := by
  cases o with
  | signal => exact (by decide : lparen ∉ [dash, dash, dash, newline])
  | exited => exact (by decide : lparen ∉ [plus, plus, plus, newline])
  | noReturn => exact (by decide : lparen ∉ [equals, space, question, newline])
  | unfinished => exact (by decide : lparen ∉ [space, dot, dot, dot, greater, newline])

/-- The first parenthesis of a block, and the line it is in. -/
theorem exists_lparen {block : List Other} (h : lparen ∈ blockText block)
    (hblock : ∀ o ∈ block, o.Valid) :
    ∃ (text body : Bytes) (o : Other) (rest : List Other),
      blockText block = text ++ lparen :: (body ++ o.tail ++ blockText rest) ∧
      lparen ∉ text ∧ newline ∉ body ∧ ∀ o ∈ rest, o.Valid := by
  induction block with
  | nil => cases h
  | cons o block ih =>
      rw [List.forall_mem_cons] at hblock
      by_cases ho : lparen ∈ o.body
      · obtain ⟨text, body, hbody, htext⟩ := List.eq_append_cons_of_mem ho
        have hvalid := hblock.1
        rw [Other.Valid, hbody, List.mem_append, List.mem_cons, not_or, not_or] at hvalid
        refine ⟨text, body, o, block, ?_, htext, hvalid.2.2, hblock.2⟩
        simp [blockText, Other.text, hbody]
      · have hline : lparen ∉ o.text := by
          rw [Other.text, List.mem_append, not_or]
          exact ⟨ho, lparen_notMem_tail o⟩
        rw [blockText, List.flatMap_cons, List.mem_append] at h
        obtain ⟨text, body, o', rest, htext, hparen, hrest⟩ := ih (h.resolve_left hline) hblock.2
        refine ⟨o.text ++ text, body, o', rest, ?_, ?_, hrest⟩
        · rw [blockText, List.flatMap_cons, ← blockText, htext]
          exact (List.append_assoc _ _ _).symm
        · rw [List.mem_append, not_or]
          exact ⟨hline, hparen⟩

/-- What a block of lines behind a record can do: write outside of `buffer`, end the
scan, leave its characters in `buffer` or leave the scanner behind its first `(`. -/
inductive BlockOutcome (text : Bytes) : Prop where
  | overrun (h : ∀ name, scan step (.clean name) text = none)
  | ended (h : ∀ name, ∃ buffer name', scan step (.clean name) text =
      some (⟨.done, buffer, name'⟩, []))
  | collected (hparen : lparen ∉ text) (heof : eof ∉ text)
      (h : ∀ name, scan step (.clean name) text = some (⟨.loop .initial, wrapped text, name⟩, []))
  | inside (s : Parent) (hs : s.control = .loop .processing ∨ s.control = .loop .final)
      (hparen : lparen ∈ text) (h : ∀ name, scan step (.clean name) text = some (s, []))

theorem scan_block {block : List Other} (hblock : ∀ o ∈ block, o.Valid) :
    BlockOutcome (blockText block) := by
  by_cases hparen : lparen ∈ blockText block
  · obtain ⟨text, body, o, rest, heq, htext, hbody, hrest⟩ := exists_lparen hparen hblock
    rw [heq] at hparen ⊢
    by_cases heof : eof ∈ text
    · refine .ended fun name => ?_
      obtain ⟨buffer, hdone⟩ := @scan_initial_eof name _ htext heof
      exact ⟨buffer, name, by rw [scan_silent hdone, scan_done]⟩
    · -- the name is that of the block, whatever the name before it was
      have hstart : ∀ name, scan step (.clean name)
          (text ++ lparen :: (body ++ o.tail ++ blockText rest)) =
            scan step ⟨.loop .processing, [], readString (wrapped text)⟩
              (body ++ o.tail ++ blockText rest) := fun name => by
        rw [scan_silent (scan_initial htext heof), scan_silent_cons step_lparen]
      rcases scan_rest hbody o (s := ⟨.loop .processing, [], readString (wrapped text)⟩) nofun with
        hnone | ⟨t, hline, ht, -⟩
      · exact .overrun fun name => (hstart name).trans (scan_append_none hnone _)
      · rcases scan_lines_rest hrest ht with hnone | ⟨s, hscan, hs, -⟩
        · exact .overrun fun name => by rw [hstart, scan_silent hline, hnone]
        · have hend : ∀ name, scan step (.clean name)
              (text ++ lparen :: (body ++ o.tail ++ blockText rest)) = some (s, []) :=
            fun name => by rw [hstart, scan_silent hline, hscan]
          rcases hs with hs | hs | hs
          · exact .inside s (.inl hs) hparen hend
          · exact .inside s (.inr hs) hparen hend
          · refine .ended fun name => ⟨s.buffer, s.name, ?_⟩
            rw [hend, ← hs]
  · by_cases heof : eof ∈ blockText block
    · refine .ended fun name => ?_
      obtain ⟨buffer, hdone⟩ := @scan_initial_eof name _ hparen heof
      exact ⟨buffer, name, hdone⟩
    · exact .collected hparen heof fun name => scan_initial hparen heof

end Block

end NjuOs.Sperf
