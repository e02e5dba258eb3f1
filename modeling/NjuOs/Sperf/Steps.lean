import NjuOs.Sperf.Lines

/-!
What a step of `process_parent` can do.

Where the program goes depends on where it is and on the character only (`next`).
`Reads` has a case for each way in which something is stored, and one for the steps
that only go somewhere else; every step is one of these (`reads_of_step`).
-/

namespace NjuOs.Sperf

open NjuOs.Lib

/-- The call of `getchar` behind a character; it does not depend on what is stored. -/
def next (control : Control) (c : UInt8) : Control :=
  match control with
  | .loop state =>
      if c = eof then .done
      else match state with
        | .initial => if c ≠ lparen then .loop .initial else .loop .processing
        | .processing => if c = rparen then .skip else .loop .processing
        | .final => if c = less then .time else .loop .final
  | .skip => if c = space then .skip else if c = equals then .loop .final else .loop .processing
  | .time => if c = greater then .newline else if !isTimeChar c then .newline else .time
  | .newline => if c ≠ newline then .loop .processing else .loop .initial
  | .done => .done

theorem isTimeChar_greater : isTimeChar greater = false := rfl

/-- What a step does: it reads a name, ends it, reads a part of a time, ends a record, or
goes somewhere else. -/
inductive Reads : Parent → UInt8 → Parent → List SysTrace → Prop where
  | name {c : UInt8} {buffer : Bytes} {name : CString} (heof : c ≠ eof) (hparen : c ≠ lparen) :
      Reads ⟨.loop .initial, buffer, name⟩ c ⟨.loop .initial, wrap (buffer ++ [c]), name⟩ []
  | named {buffer : Bytes} {name : CString} :
      Reads ⟨.loop .initial, buffer, name⟩ lparen ⟨.loop .processing, [], readString buffer⟩ []
  | time {c : UInt8} {buffer : Bytes} {name : CString} (hc : isTimeChar c = true)
      (hroom : buffer.length < bufferSize) :
      Reads ⟨.time, buffer, name⟩ c ⟨.time, buffer ++ [c], name⟩ []
  | record {buffer : Bytes} {name : CString} :
      Reads ⟨.newline, buffer, name⟩ newline ⟨.loop .initial, [], name⟩ [⟨name, atof buffer⟩]
  | goto {c : UInt8} {control control' : Control} {buffer : Bytes} {name : CString}
      (hnext : next control c = control') (hinitial : control' ≠ .loop .initial)
      (hname : control = .loop .initial → control' = .done)
      (htime : ¬ (control = .time ∧ isTimeChar c = true)) :
      Reads ⟨control, buffer, name⟩ c ⟨control', buffer, name⟩ []

section Step

variable {s t : Parent} {c : UInt8} {out : List SysTrace}

theorem reads_of_step (h : step s c = some (t, out)) : Reads s c t out := by
  obtain ⟨control, buffer, name⟩ := s
  rw [step] at h
  cases control with
  | loop state =>
      cases state with
      | initial =>
          dsimp only [Parent.goto] at h
          split_ifs at h with heof hparen
          · cases h
            exact .goto (if_pos heof) (by simp) (fun _ => rfl) (by simp)
          · cases h
            exact .name heof hparen
          · cases h
            obtain rfl := not_not.mp hparen
            exact .named
      | processing =>
          dsimp only [Parent.goto] at h
          split_ifs at h with heof hparen
          · cases h
            exact .goto (if_pos heof) (by simp) (by simp) (by simp)
          · cases h
            exact .goto ((if_neg heof).trans (if_pos hparen)) (by simp) (by simp) (by simp)
          · cases h
            exact .goto ((if_neg heof).trans (if_neg hparen)) (by simp) (by simp) (by simp)
      | final =>
          dsimp only [Parent.goto] at h
          split_ifs at h with heof hless
          · cases h
            exact .goto (if_pos heof) (by simp) (by simp) (by simp)
          · cases h
            exact .goto ((if_neg heof).trans (if_pos hless)) (by simp) (by simp) (by simp)
          · cases h
            exact .goto ((if_neg heof).trans (if_neg hless)) (by simp) (by simp) (by simp)
  | skip =>
      dsimp only [Parent.goto] at h
      split_ifs at h with hspace hequals
      · cases h
        exact .goto (if_pos hspace) (by simp) (by simp) (by simp)
      · cases h
        exact .goto ((if_neg hspace).trans (if_pos hequals)) (by simp) (by simp) (by simp)
      · cases h
        exact .goto ((if_neg hspace).trans (if_neg hequals)) (by simp) (by simp) (by simp)
  | time =>
      dsimp only [Parent.goto] at h
      split_ifs at h with hgreater htime hroom
      · cases h
        refine .goto (if_pos hgreater) (by simp) (by simp) ?_
        rw [hgreater, isTimeChar_greater]
        simp
      · cases h
        refine .goto ((if_neg hgreater).trans (if_pos htime)) (by simp) (by simp) ?_
        simpa using htime
      · cases h
        exact .time (by simpa using htime) hroom
  | newline =>
      dsimp only [Parent.goto] at h
      split_ifs at h with hnewline hroom
      · cases h
        exact .goto (if_pos hnewline) (by simp) (by simp) (by simp)
      · cases h
        obtain rfl := not_not.mp hnewline
        exact .record
  | done =>
      cases h
      exact .goto rfl (by simp) (by simp) (by simp)

theorem Reads.control (h : Reads s c t out) : t.control = next s.control c := by
  cases h with
  | name heof hparen => simp [next, heof, hparen]
  | named => rfl
  | time hc _ =>
      have hgreater := isTimeChar_ne hc isTimeChar_greater
      simp [next, hgreater, hc]
  | record => rfl
  | goto hnext => exact hnext.symm

end Step

end NjuOs.Sperf
