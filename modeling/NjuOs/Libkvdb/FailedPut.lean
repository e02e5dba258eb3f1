import NjuOs.Libkvdb.Torn

/-!
`kvdb_put` when an allocation fails.

A put appends four fields to the write buffer, and each append may have to grow
it. When the growth for the first field fails, the buffer is as it was. When a
later one fails, the fields before it stay behind: `kvdb_put` returns `-1`, and
the buffer ends with a torn record (`LateFailure`). Sessions are compared by
their answers; `sameAnswers_of_view` says that the view of a handle decides them.
-/

namespace NjuOs.Libkvdb

open NjuOs.Lib

/-! ### What a caller sees of a session -/

/-- The answer of a call, with what a get stores for its caller. -/
def Call.answer (sys : Sys) (db : Kvdb) : Call → Except Fault (GetResult × Kvdb)
  | .put key value => .ok (⟨(kvdbPut sys db key value).1, []⟩, (kvdbPut sys db key value).2)
  | .flush => .ok (⟨(kvdbFlush sys db).1, []⟩, (kvdbFlush sys db).2)
  | .get key length => kvdbGet sys db key length

/-- The answers of the calls of a session. -/
def answers : Kvdb → List (Sys × Call) → Except Fault (List GetResult)
  | _, [] => .ok []
  | db, (sys, call) :: calls =>
      match call.answer sys db with
      | .error e => .error e
      | .ok (res, db) => (answers db calls).map (res :: ·)

/-- No session of calls that succeed tells the two handles apart. -/
def SameAnswers (db db' : Kvdb) : Prop :=
  ∀ calls, AllSucceed calls → answers db calls = answers db' calls

/-- The answer of a call on the view of a handle. -/
def View.answer (v : View) : Call → Except Fault (GetResult × View)
  | .put key value => .ok (⟨0, []⟩, v.put (putRecord key value))
  | .flush => .ok (⟨0, []⟩, v)
  | .get key length =>
      match log.decode v.bytes with
      | none => .error .heapOverflow
      | some rs => .ok (lookupResult (lastValue rs key) length, v.seekEnd)

/-- A call that succeeds answers as on the view, and leaves the offset in the file. -/
theorem answer_spec {sys : Sys} (hs : sys.AllOk) {db : Kvdb} (h : db.InFile) (call : Call) :
    (call.answer sys db).map (fun r => (r.1, r.2.view)) = db.view.answer call ∧
      ∀ res db', call.answer sys db = .ok (res, db') → db'.InFile := by
  cases call with
  | put key value =>
      obtain ⟨db₁, hput, hin, hview⟩ := kvdbPut_spec hs h key value
      rw [Call.answer, hput, View.answer, ← hview]
      exact ⟨rfl, by rintro _ _ ⟨⟩; exact hin⟩
  | flush =>
      obtain ⟨db₁, hflush, hin, hview⟩ := kvdbFlush_spec hs h
      rw [Call.answer, hflush, View.answer, ← hview]
      exact ⟨rfl, by rintro _ _ ⟨⟩; exact hin⟩
  | get key length =>
      have hget := kvdbGet_spec hs h key length
      rw [Call.answer, View.answer]
      cases hdecode : log.decode db.view.bytes with
      | none =>
          rw [hdecode] at hget
          rw [hget]
          exact ⟨rfl, by rintro _ _ ⟨⟩⟩
      | some rs =>
          rw [hdecode] at hget
          rw [hget]
          refine ⟨?_, by rintro _ _ ⟨⟩; exact le_rfl⟩
          simp only [Except.map, Kvdb.view_of_flushed le_rfl]
          rfl

/-- Handles with the same view answer every session alike. -/
theorem sameAnswers_of_view {db db' : Kvdb} (h : db.InFile) (h' : db'.InFile)
    (hview : db.view = db'.view) : SameAnswers db db' := by
  intro calls
  induction calls generalizing db db' with
  | nil => exact fun _ => rfl
  | cons c calls ih =>
      obtain ⟨sys, call⟩ := c
      intro hs
      have hok : sys.AllOk := hs (sys, call) List.mem_cons_self
      obtain ⟨hmap, hin⟩ := answer_spec hok h call
      obtain ⟨hmap', hin'⟩ := answer_spec hok h' call
      have hsame := hmap.trans ((congrArg (View.answer · call) hview).trans hmap'.symm)
      rw [answers, answers]
      cases hanswer : call.answer sys db with
      | error e =>
          rw [hanswer] at hsame
          cases hanswer' : call.answer sys db' with
          | error e' =>
              rw [hanswer'] at hsame
              cases hsame
              rfl
          | ok r' =>
              rw [hanswer'] at hsame
              cases hsame
      | ok r =>
          rw [hanswer] at hsame
          cases hanswer' : call.answer sys db' with
          | error e' =>
              rw [hanswer'] at hsame
              cases hsame
          | ok r' =>
              rw [hanswer'] at hsame
              obtain ⟨hres, hview'⟩ := Prod.mk.inj (Except.ok.inj hsame)
              have hlater := ih (hin r.1 r.2 hanswer) (hin' r'.1 r'.2 hanswer') hview'
                fun c hc => hs c (List.mem_cons_of_mem _ hc)
              simp only [hlater, hres]

/-! ### Growing the buffer -/

/-- The capacity that `expand_buffer` asks for. -/
def newCapacity (capacity needed : Nat) : Nat :=
  if (if capacity ≠ 0 then capacity * 2 else 4096) < needed then needed
  else if capacity ≠ 0 then capacity * 2 else 4096

/-- The capacity after an append that succeeds. -/
def grown (capacity needed : Nat) : Nat :=
  if needed > capacity then newCapacity capacity needed else capacity

/-- An append that has to grow the buffer, and cannot. -/
def GrowthFails (sys : Sys) (capacity needed : Nat) : Prop :=
  needed > capacity ∧ sys.realloc (newCapacity capacity needed) = false

instance (sys : Sys) (capacity needed : Nat) : Decidable (GrowthFails sys capacity needed) :=
  inferInstanceAs (Decidable (_ ∧ _))

theorem le_grown (capacity needed : Nat) : needed ≤ grown capacity needed := by
  unfold grown newCapacity
  split_ifs <;> omega

theorem appendToBuffer_eq (sys : Sys) (buf : WriteBuffer) (data : Bytes) :
    appendToBuffer sys buf data =
      if GrowthFails sys buf.capacity (buf.size + data.length) then none
      else some ⟨buf.data ++ data, grown buf.capacity (buf.size + data.length)⟩ := by
  unfold appendToBuffer expandBuffer GrowthFails grown newCapacity
  dsimp only
  by_cases hgrow : buf.size + data.length > buf.capacity
  · simp only [hgrow, true_and, if_true]
    generalize (if (if buf.capacity ≠ 0 then buf.capacity * 2 else 4096) < buf.size + data.length
      then buf.size + data.length
      else if buf.capacity ≠ 0 then buf.capacity * 2 else 4096) = capacity
    cases hreal : sys.realloc capacity <;> simp
  · simp [hgrow]

/-- Some append of fields with these lengths cannot grow the buffer. -/
def SomeGrowthFails (sys : Sys) : Nat → Nat → List Nat → Prop
  | _, _, [] => False
  | capacity, size, len :: lens =>
      GrowthFails sys capacity (size + len) ∨
        SomeGrowthFails sys (grown capacity (size + len)) (size + len) lens

instance decSomeGrowthFails (sys : Sys) : (capacity size : Nat) → (lens : List Nat) →
    Decidable (SomeGrowthFails sys capacity size lens)
  | _, _, [] => inferInstanceAs (Decidable False)
  | capacity, size, len :: lens =>
      have := decSomeGrowthFails sys (grown capacity (size + len)) (size + len) lens
      inferInstanceAs (Decidable (GrowthFails sys capacity (size + len) ∨
        SomeGrowthFails sys (grown capacity (size + len)) (size + len) lens))

/-- The appends succeed, or stop at a field and leave those before it behind. A
buffer that is no larger than its capacity does not grow for an empty field. -/
theorem appendFields_cases (sys : Sys) (fields : List Bytes) (buf : WriteBuffer) :
    (¬ SomeGrowthFails sys buf.capacity buf.size (fields.map List.length) ∧
      ∃ capacity, appendFields sys buf fields = (0, ⟨buf.data ++ fields.flatten, capacity⟩)) ∨
    (SomeGrowthFails sys buf.capacity buf.size (fields.map List.length) ∧
      ∃ done field rest capacity, fields = done ++ field :: rest ∧
        appendFields sys buf fields = (-1, ⟨buf.data ++ done.flatten, capacity⟩) ∧
        (buf.size ≤ buf.capacity → field ≠ [])) := by
  induction fields generalizing buf with
  | nil => exact .inl ⟨id, buf.capacity, by rw [List.flatten_nil, List.append_nil]; rfl⟩
  | cons field fields ih =>
      rw [appendFields, appendToBuffer_eq, List.map_cons, SomeGrowthFails]
      by_cases hfail : GrowthFails sys buf.capacity (buf.size + field.length)
      · rw [if_pos hfail]
        refine .inr ⟨.inl hfail, [], field, fields, buf.capacity, rfl, by simp, ?_⟩
        rintro hle rfl
        exact absurd hfail.1 (not_lt.mpr hle)
      · rw [if_neg hfail, or_iff_right hfail]
        have hsize : (⟨buf.data ++ field, grown buf.capacity (buf.size + field.length)⟩ :
            WriteBuffer).size = buf.size + field.length := List.length_append
        have hnext := ih ⟨buf.data ++ field, grown buf.capacity (buf.size + field.length)⟩
        rw [hsize] at hnext
        rcases hnext with ⟨hnone, capacity, happend⟩ |
          ⟨hsome, done, field', rest, capacity, hfields, happend, hne⟩
        · refine .inl ⟨hnone, capacity, ?_⟩
          simp only [happend, List.flatten_cons, List.append_assoc]
        · refine .inr ⟨hsome, field :: done, field', rest, capacity, by rw [hfields]; rfl, ?_,
            fun _ => hne (le_grown _ _)⟩
          simp only [happend, List.flatten_cons, List.append_assoc]

/-! ### The condition -/

/-- How much of the buffer is used when the put begins to append. -/
def startSize (buf : WriteBuffer) (key value : CString) : Nat :=
  if PutFlushes buf key value then 0 else buf.size

/-- The buffer has or gets room for the length of the key, and one of the later
three appends has to grow it and cannot. -/
def LateFailure (sys : Sys) (buf : WriteBuffer) (key value : CString) : Prop :=
  ¬ GrowthFails sys buf.capacity (startSize buf key value + 4) ∧
    SomeGrowthFails sys (grown buf.capacity (startSize buf key value + 4))
      (startSize buf key value + 4) [4, strlen32 key, strlen32 value]

theorem putFields_lengths (key value : CString) :
    (putFields key value).map List.length = [4, 4, strlen32 key, strlen32 value] := by
  simp only [putFields, List.map_cons, List.map_nil, length_le32, length_take_strlen32]

/-- The four appends of a put fail at the first, or succeed, or leave the front of
the record behind. -/
theorem appendFields_putFields (sys : Sys) (buf : WriteBuffer) (key value : CString) :
    (GrowthFails sys buf.capacity (buf.size + 4) ∧
      appendFields sys buf (putFields key value) = (-1, buf)) ∨
    ¬ GrowthFails sys buf.capacity (buf.size + 4) ∧
      ((¬ SomeGrowthFails sys (grown buf.capacity (buf.size + 4)) (buf.size + 4)
          [4, strlen32 key, strlen32 value] ∧
        (appendFields sys buf (putFields key value)).1 = 0) ∨
      (SomeGrowthFails sys (grown buf.capacity (buf.size + 4)) (buf.size + 4)
          [4, strlen32 key, strlen32 value] ∧
        ∃ n capacity, 0 < n ∧ n < (putRecord key value).encode.length ∧
          appendFields sys buf (putFields key value) =
            (-1, ⟨buf.data ++ (putRecord key value).encode.take n, capacity⟩))) := by
  rw [← putFields_flatten, putFields, appendFields, appendToBuffer_eq, length_le32]
  by_cases hfail : GrowthFails sys buf.capacity (buf.size + 4)
  · exact .inl ⟨hfail, by simp only [if_pos hfail]⟩
  · refine .inr ⟨hfail, ?_⟩
    simp only [if_neg hfail]
    have hsize : (⟨buf.data ++ le32 (strlen32 key), grown buf.capacity (buf.size + 4)⟩ :
        WriteBuffer).size = buf.size + 4 := List.length_append
    have hrest := appendFields_cases sys (putFields key value).tail
      ⟨buf.data ++ le32 (strlen32 key), grown buf.capacity (buf.size + 4)⟩
    rw [hsize, List.map_tail, putFields_lengths] at hrest
    rcases hrest with ⟨hnone, capacity, happend⟩ |
      ⟨hsome, done, field, rest, capacity, hfields, happend, hne⟩
    · exact .inl ⟨hnone, congrArg Prod.fst happend⟩
    have hsplit : putFields key value = le32 (strlen32 key) :: (done ++ field :: rest) := by
      rw [← hfields]
      rfl
    have hpos : 0 < field.length := List.length_pos_iff.mpr (hne (le_grown _ _))
    refine .inr ⟨hsome, (le32 (strlen32 key) ++ done.flatten).length, capacity, ?_, ?_, ?_⟩
    · rw [List.length_append, length_le32]
      omega
    · change _ < (putFields key value).flatten.length
      rw [hsplit]
      simp only [List.flatten_cons, List.flatten_append, List.length_append]
      omega
    · have htake : (putFields key value).flatten.take
          (le32 (strlen32 key) ++ done.flatten).length = le32 (strlen32 key) ++ done.flatten := by
        rw [hsplit]
        simp only [List.flatten_cons, List.flatten_append, ← List.append_assoc]
        rw [List.append_assoc (_ ++ done.flatten), List.take_left]
      change appendFields sys _ (putFields key value).tail = (-1, ⟨buf.data ++
        (putFields key value).flatten.take _, capacity⟩)
      rw [htake, happend, List.append_assoc]

/-- Writing succeeds; allocations may fail. -/
structure WritesOk (sys : Sys) : Prop where
  write : ∀ n, sys.write n = some n
  fdatasync : sys.fdatasync = true

section Put

variable {sys : Sys} {db : Kvdb} (hw : WritesOk sys) (h : db.InFile)

include hw h

theorem flushBuffer_writesOk :
    flushBuffer sys db = (0, ⟨db.view.bytes, db.view.pos, ⟨[], db.buffer.capacity⟩⟩) := by
  rw [flushBuffer_drains h (.inr ⟨_, hw.write _, le_rfl⟩), hw.fdatasync]
  simp

/-- A put appends its fields to the buffer, behind a flush or not. -/
theorem kvdbPut_writesOk (key value : CString) :
    ∃ db₁ : Kvdb, db₁.InFile ∧ db₁.view = db.view ∧ db₁.buffer.capacity = db.buffer.capacity ∧
      db₁.buffer.size = startSize db.buffer key value ∧
      kvdbPut sys db key value =
        ((appendFields sys db₁.buffer (putFields key value)).1,
          { db₁ with buffer := (appendFields sys db₁.buffer (putFields key value)).2 }) := by
  rw [kvdbPut_eq, putFlush, startSize]
  split_ifs with hflushes hneg hneg
  · rw [flushBuffer_writesOk hw h] at hneg
    exact absurd hneg (lt_irrefl 0)
  · rw [flushBuffer_writesOk hw h]
    exact ⟨⟨db.view.bytes, db.view.pos, ⟨[], db.buffer.capacity⟩⟩, Kvdb.view_pos_le h,
      Kvdb.view_of_flushed (Kvdb.view_pos_le h) _, rfl, rfl, rfl⟩
  · exact absurd hneg (lt_irrefl 0)
  · exact ⟨db, h, rfl, rfl, rfl, rfl⟩

/-- Without a late failure, a put that fails leaves the view as it was. -/
theorem kvdbPut_view_eq {key value : CString} (hlate : ¬ LateFailure sys db.buffer key value)
    {db' : Kvdb} (hput : kvdbPut sys db key value = (-1, db')) :
    db'.InFile ∧ db'.view = db.view := by
  obtain ⟨db₁, hin, hview, hcapacity, hsize, heq⟩ := kvdbPut_writesOk hw h key value
  have happend := appendFields_putFields sys db₁.buffer key value
  rw [hcapacity, hsize] at happend
  rcases happend with ⟨-, happend⟩ | ⟨hfirst, ⟨-, happend⟩ | ⟨hsome, -⟩⟩
  · rw [heq, happend] at hput
    cases hput
    exact ⟨hin, hview⟩
  · have hret := congrArg Prod.fst (heq.symm.trans hput)
    rw [happend] at hret
    cases hret
  · exact absurd ⟨hfirst, hsome⟩ hlate

/-- A late failure leaves the front of a record at the end of the view. -/
theorem kvdbPut_late {key value : CString} (hlate : LateFailure sys db.buffer key value) :
    ∃ db' n, kvdbPut sys db key value = (-1, db') ∧ db'.InFile ∧ 0 < n ∧
      n < (putRecord key value).encode.length ∧
      db'.view = ⟨writeAt db.view.bytes db.view.pos ((putRecord key value).encode.take n),
        db.view.pos + ((putRecord key value).encode.take n).length⟩ := by
  obtain ⟨db₁, hin, hview, hcapacity, hsize, heq⟩ := kvdbPut_writesOk hw h key value
  have happend := appendFields_putFields sys db₁.buffer key value
  rw [hcapacity, hsize] at happend
  obtain ⟨hfirst, hsome⟩ := hlate
  rcases happend with ⟨hfail, -⟩ | ⟨-, ⟨hnone, -⟩ | ⟨-, n, capacity, hpos, hlt, happend⟩⟩
  · exact absurd hfail hfirst
  · exact absurd hsome hnone
  · rw [happend] at heq
    exact ⟨_, n, heq, hin, hpos, hlt, by rw [Kvdb.view_append hin, hview]⟩

end Put

/-! ### Failed puts -/

/-- If the put fails, the file followed by the buffer encodes the same records as
before, and the put does not show in any session behind it. -/
def FailsCleanly (sys : Sys) (db : Kvdb) (key value : CString) : Prop :=
  ∀ db', kvdbPut sys db key value = (-1, db') →
    log.decode db'.view.bytes = log.decode db.view.bytes ∧ SameAnswers db' db

/-- The answers to a put and a get behind it. -/
theorem answers_put_get {db : Kvdb} (h : db.InFile) (key value key' : CString) (length : UInt64) :
    answers db [(.ideal, .put key value), (.ideal, .get key' length)] =
      (log.decode (db.view.put (putRecord key value)).bytes).elim (.error .heapOverflow)
        fun rs => .ok [⟨0, []⟩, lookupResult (lastValue rs key') length] := by
  obtain ⟨db₁, hput, hin, hview⟩ := kvdbPut_spec Sys.ideal_allOk h key value
  have hget := kvdbGet_spec Sys.ideal_allOk hin key' length
  rw [hview] at hget
  simp only [answers, Call.answer, hput, hget]
  cases log.decode (db.view.put (putRecord key value)).bytes <;> rfl

/-- Letters put at the end of a log are read back. -/
theorem lookup_letters {rs : List Record} (hr : ∀ r ∈ rs, r.Readable) {n : Nat} (hn : n < 256) :
    ∃ fs, log.decode (log.encodeAll rs ++ log.encode (putRecord default (letters n))) = some fs ∧
      (lookupResult (lastValue fs default) (.ofNat 512)).Gives (some (letters n).bytes) := by
  have hletters : (letters n).length = n := CString.length_replicate ..
  have hput : (putRecord default (letters n)).Readable :=
    putRecord_readable (show 0 < 2 ^ 32 - 1 by norm_num) (by omega)
  refine ⟨rs ++ [putRecord default (letters n)], decode_encodeAll_snoc hr hput, ?_⟩
  have hempty : (default : CString).length < 2 ^ 32 := show 0 < 2 ^ 32 by norm_num
  rw [lastValue_snoc rs hempty (by omega), if_pos rfl]
  refine (lookupResult_gives_iff ?_).mpr ?_
  · rintro _ ⟨⟩
    exact Nat.lt_of_succ_lt (letters_lt hn)
  · rintro _ ⟨⟩
    exact lt_of_eq_of_lt hletters (lt_trans hn (by norm_num))

/-- A put and a get show the torn end of a log. -/
theorem not_sameAnswers_of_torn {db db' : Kvdb} (h : db.InFile) (h' : db'.InFile)
    {rs : List Record} (hr : ∀ r ∈ rs, r.Readable) (hview : db.view = View.ofLog rs)
    {tail : Bytes} (hne : tail ≠ []) (htorn : log.front tail = .torn)
    (hview' : db'.view = ⟨log.encodeAll rs ++ tail, (log.encodeAll rs ++ tail).length⟩) :
    ¬ SameAnswers db' db := by
  obtain ⟨n, hpos, hn, hbyte, hlast⟩ := exists_letters tail rs
  obtain ⟨fs, hfs, hgives⟩ := lookup_letters hr hn
  have hsafe : ∀ r ∈ rs, log.safe r (log.encode r).length :=
    fun r hmem => (r.safe_encode_iff).mpr (hr r hmem)
  intro hsame
  have hsame := hsame [(.ideal, .put default (letters n)), (.ideal, .get default (.ofNat 512))]
    (by simp [AllSucceed, Sys.ideal_allOk])
  rw [answers_put_get h', answers_put_get h, hview, hview', View.put, View.put, View.ofLog] at hsame
  simp only [writeAt_end] at hsame
  change (log.decode (_ ++ log.encode (putRecord default (letters n)))).elim _ _ =
    (log.decode (_ ++ log.encode (putRecord default (letters n)))).elim _ _ at hsame
  rw [hfs, List.append_assoc, log.decode_encodeAll_append hsafe] at hsame
  cases hgs : log.decode (tail ++ log.encode (putRecord default (letters n))) with
  | none =>
      rw [hgs] at hsame
      cases hsame
  | some gs =>
      rw [hgs] at hsame
      -- both answers give the letters, but the torn end hides them
      have hlookup := (List.cons.inj (List.cons.inj (Except.ok.inj hsame)).2).1
      rw [← hlookup] at hgives
      exact lastValue_ne_letters hne htorn hpos hn hbyte hlast hgs
        (eq_of_lookupResult_gives (letters_lt hn) hgives)

section Put

variable {sys : Sys} {db : Kvdb} (hw : WritesOk sys) (h : db.InFile)

include hw h

/-- A late failure on a log is not clean. -/
theorem not_failsCleanly_of_late {rs : List Record} (hr : ∀ r ∈ rs, r.Readable)
    (hview : db.view = View.ofLog rs) {key value : CString}
    (hlate : LateFailure sys db.buffer key value) : ¬ FailsCleanly sys db key value := by
  obtain ⟨db', n, hput, hin, hpos, hlt, hview'⟩ := kvdbPut_late hw h hlate
  intro hclean
  obtain ⟨hdecode, hsame⟩ := hclean db' hput
  rw [hview, View.ofLog, writeAt_end, ← List.length_append] at hview'
  have htake := recordFront_take (putRecord key value) n hlt
  by_cases hsafe : (putRecord key value).Safe n
  · rw [if_pos hsafe] at htake
    have hlen : ((putRecord key value).encode.take n).length = n :=
      List.length_take_of_le (Nat.le_of_lt hlt)
    refine not_sameAnswers_of_torn h hin hr hview ?_ htake hview' hsame
    rw [← List.length_pos_iff, hlen]
    exact hpos
  · -- the front of the record is a field that the parser cannot allocate
    rw [if_neg hsafe] at htake
    rw [hview', hview, View.ofLog, decode_encodeAll hr, log.decode_encodeAll_append
      fun r hmem => (r.safe_encode_iff).mpr (hr r hmem), log.decode_of_bad htake] at hdecode
    cases hdecode

/-- **When a failed put leaves the store alone.** A put that fails without a late
failure is as if it had never been called; a late failure on a log never is. -/
theorem failed_put_iff (key value : CString) :
    (¬ LateFailure sys db.buffer key value → FailsCleanly sys db key value) ∧
      ∀ rs, (∀ r ∈ rs, r.Readable) → db.view = View.ofLog rs →
        (FailsCleanly sys db key value ↔ ¬ LateFailure sys db.buffer key value) := by
  have hclean : ¬ LateFailure sys db.buffer key value → FailsCleanly sys db key value := by
    intro hlate db' hput
    obtain ⟨hin, hview⟩ := kvdbPut_view_eq hw h hlate hput
    exact ⟨by rw [hview], sameAnswers_of_view hin h hview⟩
  refine ⟨hclean, fun rs hr hview => ⟨fun hfails hlate => ?_, hclean⟩⟩
  exact not_failsCleanly_of_late hw h hr hview hlate hfails

end Put

/-- An allocator that gives out blocks up to a size. -/
def Sys.upTo (size : Nat) : Sys := { Sys.ideal with realloc := fun n => decide (n ≤ size) }

theorem Sys.upTo_writesOk (size : Nat) : WritesOk (.upTo size) := ⟨fun _ => rfl, rfl⟩

/-- A first put for which nothing can be allocated. -/
theorem failed_put_first :
    FailsCleanly (.upTo 0) ⟨[], 0, ⟨[], 0⟩⟩ (.single 107) (.single 118) :=
  (@failed_put_iff (.upTo 0) ⟨[], 0, ⟨[], 0⟩⟩ (Sys.upTo_writesOk 0) le_rfl (.single 107)
    (.single 118)).1 fun hlate => hlate.1 (by decide)

/-- A value of 4089 bytes put into a new store, when only 4096 bytes can be allocated:
the eight bytes of the lengths stay behind. -/
theorem failed_put_torn :
    ¬ FailsCleanly (.upTo 4096) ⟨[], 0, ⟨[], 0⟩⟩ default (.replicate 4089 97) := by
  have hvalue : strlen32 (.replicate 4089 97) = 4089 := by
    rw [strlen32, CString.length_replicate]
    rfl
  refine @not_failsCleanly_of_late (.upTo 4096) ⟨[], 0, ⟨[], 0⟩⟩ (Sys.upTo_writesOk 4096) le_rfl []
    (by simp) rfl default (.replicate 4089 97) ?_
  have hstart : startSize ⟨[], 0⟩ default (.replicate 4089 97) = 0 := by
    rw [startSize]
    split <;> rfl
  rw [LateFailure, hstart, hvalue]
  exact ⟨by decide, by decide⟩

end NjuOs.Libkvdb
