import NjuOs.Libkvdb.Retry

/-!
What `kvdb_close` may lose.

A put that returns `0` has its record in the buffer, and from then on the record
is in the file or in the buffer, whatever writes and allocations fail (`Kept`).
`kvdb_close` flushes a last time and does not look at the outcome: when that
write does not transfer the buffer, the records in it are gone, and the call
still returns `0`.
-/

namespace NjuOs.Libkvdb

open NjuOs.Lib

/-- The records whose put returned `0`, in order. -/
def accepted : Kvdb → List (Sys × Call) → List Record
  | _, [] => []
  | db, (sys, call) :: calls =>
      match call.exec sys db with
      | .error _ => []
      | .ok (ret, db) => (if ret = 0 then putsOf [call] else []) ++ accepted db calls

/-- If `kvdb_close` returns `0`, the file holds the images of the records. -/
def CloseKeeps (sys : Sys) (db : Kvdb) (rs : List Record) : Prop :=
  (kvdbClose sys db).1 = 0 → log.Occur rs (kvdbClose sys db).2

/-! ### The invariant -/

/-- The file is written at its end only, and holds some of the records; the buffer
holds the others. -/
structure Kept (db : Kvdb) (rs : List Record) : Prop where
  atEnd : db.offset = db.file.length
  records : ∃ written waiting, rs = written ++ waiting ∧ log.Occur written db.file ∧
    log.Occur waiting db.buffer.data

section Kept

variable {sys : Sys} {db : Kvdb} {rs : List Record} (h : Kept db rs)

include h

theorem Kept.inFile : db.InFile := le_of_eq h.atEnd

/-- After a flush that drains the buffer all records are in the file. -/
theorem Kept.flush_occur (hdrains : Drains sys db.buffer.data) :
    log.Occur rs (flushBuffer sys db).2.file := by
  obtain ⟨written, waiting, rfl, hwritten, hwaiting⟩ := h.records
  rw [flushBuffer_drains h.inFile hdrains, Kvdb.view, h.atEnd, writeAt_end]
  exact hwritten.append hwaiting

theorem Kept.flush : Kept (flushBuffer sys db).2 rs := by
  by_cases hdrains : Drains sys db.buffer.data
  · have hoccur := h.flush_occur hdrains
    rw [flushBuffer_drains h.inFile hdrains] at hoccur ⊢
    refine ⟨?_, rs, [], (List.append_nil rs).symm, hoccur, log.occur_nil []⟩
    simp only [Kvdb.view, h.atEnd, writeAt_end, List.length_append]
  · obtain ⟨written, waiting, hrs, hwritten, hwaiting⟩ := h.records
    rw [flushBuffer_keeps h.inFile hdrains]
    simp only [h.atEnd, writeAt_end]
    exact ⟨List.length_append.symm, written, waiting, hrs, hwritten.append_right _, hwaiting⟩

/-- Bytes at the end of the buffer disturb no record. -/
theorem Kept.append (data : Bytes) (capacity : Nat) :
    Kept { db with buffer := ⟨db.buffer.data ++ data, capacity⟩ } rs := by
  obtain ⟨written, waiting, hrs, hwritten, hwaiting⟩ := h.records
  exact ⟨h.atEnd, written, waiting, hrs, hwritten, hwaiting.append_right data⟩

theorem Kept.append_record (r : Record) (capacity : Nat) :
    Kept { db with buffer := ⟨db.buffer.data ++ r.encode, capacity⟩ } (rs ++ [r]) := by
  obtain ⟨written, waiting, rfl, hwritten, hwaiting⟩ := h.records
  exact ⟨h.atEnd, written, waiting ++ [r], List.append_assoc .., hwritten,
    hwaiting.append (log.occur_singleton r)⟩

/-- A put that returns `0` adds its record; one that fails may leave bytes behind. -/
theorem Kept.put (key value : CString) :
    Kept (kvdbPut sys db key value).2
      (rs ++ if (kvdbPut sys db key value).1 = 0 then [putRecord key value] else []) := by
  have hflushed : Kept (putFlush sys db key value).2 rs := by
    rw [putFlush]
    split
    · exact h.flush
    · exact h
  rw [kvdbPut_eq]
  generalize putFlush sys db key value = flushed at hflushed ⊢
  by_cases hneg : flushed.1 < 0
  · simp only [if_pos hneg]
    rw [if_neg (show ¬ (-1 : Int) = 0 by decide), List.append_nil]
    exact hflushed
  · simp only [if_neg hneg]
    rcases appendFields_cases sys (putFields key value) flushed.2.buffer with
      ⟨-, capacity, happend⟩ | ⟨-, done, field, rest, capacity, -, happend, -⟩
    · rw [happend, if_pos rfl, putFields_flatten]
      exact hflushed.append_record _ capacity
    · rw [happend, if_neg (show ¬ (-1 : Int) = 0 by decide), List.append_nil]
      exact hflushed.append _ capacity

/-- A get moves the offset to the end of the file, or does not move it. -/
theorem Kept.get (hreads : sys.ReadsOk) {key : CString} {length : UInt64} {res : GetResult}
    {db' : Kvdb} (hget : kvdbGet sys db key length = .ok (res, db')) : Kept db' rs := by
  have hflushed : Kept (flushBuffer sys db).2 rs := h.flush
  unfold kvdbGet at hget
  dsimp only at hget
  generalize flushBuffer sys db = flushed at hflushed hget
  split_ifs at hget with hneg hseek
  · cases hget
    exact hflushed
  · cases hget
    exact hflushed
  · have hparse := parseLoop_spec hreads flushed.2.file (flushed.2.file.length + 1) 0 []
      (Nat.zero_le _) (by omega)
    rw [hparse] at hget
    cases hdecode : log.decode (flushed.2.file.drop 0) with
    | none =>
        rw [hdecode] at hget
        cases hget
    | some fs =>
        rw [hdecode] at hget
        cases hget
        exact ⟨rfl, hflushed.records⟩

theorem Kept.exec (hreads : sys.ReadsOk) {call : Call} {ret : Int} {db' : Kvdb}
    (hexec : call.exec sys db = .ok (ret, db')) :
    Kept db' (rs ++ if ret = 0 then putsOf [call] else []) := by
  cases call with
  | put key value =>
      have hput : Kept (kvdbPut sys db key value).2 _ := h.put key value
      rw [Except.ok.inj hexec] at hput
      exact hput
  | flush =>
      have hflush : Kept (flushBuffer sys db).2 rs := h.flush
      rw [show flushBuffer sys db = (ret, db') from Except.ok.inj hexec] at hflush
      rw [show putsOf [.flush] = [] from rfl, ite_self, List.append_nil]
      exact hflush
  | get key length =>
      rw [show putsOf [.get key length] = [] from rfl, ite_self, List.append_nil]
      rw [Call.exec] at hexec
      cases hget : kvdbGet sys db key length with
      | error e =>
          rw [hget] at hexec
          cases hexec
      | ok r =>
          rw [hget] at hexec
          cases hexec
          exact h.get hreads hget

end Kept

/-- In a session, every record whose put returned `0` is in the file or in the buffer. -/
theorem Kept.run {calls : List (Sys × Call)} (hreads : ∀ c ∈ calls, c.1.ReadsOk) :
    ∀ {db db' : Kvdb} {rs : List Record}, Kept db rs → run db calls = .ok db' →
      Kept db' (rs ++ accepted db calls) := by
  induction calls with
  | nil =>
      rintro db db' rs h ⟨⟩
      rw [accepted, List.append_nil]
      exact h
  | cons c calls ih =>
      obtain ⟨sys, call⟩ := c
      intro db db' rs h hrun
      rw [Libkvdb.run] at hrun
      rw [accepted]
      cases hexec : call.exec sys db with
      | error e =>
          rw [hexec] at hrun
          cases hrun
      | ok r =>
          rw [hexec] at hrun
          have hstep := h.exec (hreads _ List.mem_cons_self) hexec
          have hrest := ih (fun c hc => hreads c (List.mem_cons_of_mem _ hc)) hstep hrun
          rwa [List.append_assoc] at hrest

theorem kept_open {sys : Sys} {db : Kvdb} (hopen : kvdbOpen sys [] = some db) : Kept db [] := by
  rw [kvdbOpen] at hopen
  split_ifs at hopen
  cases hopen
  exact ⟨rfl, [], [], rfl, log.occur_nil [], log.occur_nil []⟩

/-! ### Sessions without a failure before the end -/

theorem View.eq_of_run_ofLog (calls : List Call) :
    ∀ {rs : List Record} {v : View}, (View.ofLog rs).run calls = some v →
      v = View.ofLog (rs ++ putsOf calls) := by
  induction calls with
  | nil =>
      rintro rs v ⟨⟩
      rw [putsOf, List.filterMap_nil, List.append_nil]
  | cons call calls ih =>
      intro rs v hrun
      cases call with
      | put key value =>
          have hputs : rs ++ putsOf (.put key value :: calls) =
              (rs ++ [putRecord key value]) ++ putsOf calls := by simp [putsOf]
          rw [View.run, View.exec, View.put_ofLog, Option.bind_some] at hrun
          rw [hputs]
          exact ih hrun
      | flush => exact ih hrun
      | get key length =>
          rw [View.run, View.exec] at hrun
          cases hdecode : log.decode (View.ofLog rs).bytes with
          | none =>
              rw [hdecode] at hrun
              cases hrun
          | some fs =>
              rw [hdecode] at hrun
              exact ih hrun

/-- When nothing fails, every put returns `0`. -/
theorem accepted_of_allSucceed {calls : List (Sys × Call)} (hs : AllSucceed calls) :
    ∀ {db db' : Kvdb}, db.InFile → run db calls = .ok db' →
      accepted db calls = putsOf (calls.map Prod.snd) := by
  induction calls with
  | nil => exact fun _ _ => rfl
  | cons c calls ih =>
      obtain ⟨sys, call⟩ := c
      intro db db' hin hrun
      have hok : sys.AllOk := hs (sys, call) List.mem_cons_self
      have ih := @ih fun c hc => hs c (List.mem_cons_of_mem _ hc)
      rw [run] at hrun
      rw [accepted]
      cases call with
      | put key value =>
          obtain ⟨db₁, hput, hin₁, -⟩ := kvdbPut_spec hok hin key value
          rw [Call.exec, hput] at hrun ⊢
          exact congrArg (putRecord key value :: ·) (ih hin₁ hrun)
      | flush =>
          obtain ⟨db₁, hflush, hin₁, -⟩ := kvdbFlush_spec hok hin
          rw [Call.exec, hflush] at hrun ⊢
          exact ih hin₁ hrun
      | get key length =>
          have hget := kvdbGet_spec hok hin key length
          cases hdecode : log.decode db.view.bytes with
          | none =>
              rw [hdecode] at hget
              rw [Call.exec, hget] at hrun
              cases hrun
          | some fs =>
              rw [hdecode] at hget
              rw [Call.exec, hget] at hrun ⊢
              simp only [Except.map, show putsOf [.get key length] = [] from rfl, ite_self,
                List.nil_append]
              exact ih le_rfl hrun

/-- The file and the buffer of such a session are the image of the puts. -/
theorem view_of_allSucceed {sys : Sys} {db₀ db : Kvdb} (hopen : kvdbOpen sys [] = some db₀)
    {calls : List (Sys × Call)} (hs : AllSucceed calls) (hrun : run db₀ calls = .ok db) :
    db.view = View.ofLog (accepted db₀ calls) := by
  have hin : db₀.InFile := (kept_open hopen).inFile
  have hview : db₀.view = View.ofLog [] := by
    rw [kvdbOpen] at hopen
    split_ifs at hopen
    cases hopen
    rfl
  have hspec := run_spec calls hs hin
  rw [accepted_of_allSucceed hs hin hrun]
  cases hv : db₀.view.run (calls.map Prod.snd) with
  | none =>
      rw [hv, hrun] at hspec
      cases hspec
  | some v =>
      rw [hv, hrun] at hspec
      obtain ⟨db', hdb', -, rfl⟩ := hspec
      cases hdb'
      rw [hview] at hv
      exact View.eq_of_run_ofLog _ hv

/-- What a write that is too short leaves behind is shorter than the buffer. -/
theorem length_leftBehind_lt {sys : Sys} {data : Bytes} (h : ¬ Drains sys data) :
    (leftBehind sys data).length < data.length := by
  obtain ⟨hne, hshort⟩ := not_or.mp h
  have hpos : 0 < data.length := List.length_pos_iff.mpr hne
  unfold leftBehind
  cases hwrite : sys.write data.length with
  | none => exact hpos
  | some n =>
      by_cases hlt : n < data.length
      · simp only [hlt, if_true, List.length_take]
        omega
      · exact absurd ⟨n, hwrite, Nat.le_of_not_lt hlt⟩ hshort

/-- **When a close that returns `0` has kept the records.** In any session on a new
file whose reads succeed, the file holds every record whose put returned `0` if the
flush of `kvdb_close` transfers the buffer; and if no call before failed, only then. -/
theorem close_keeps_iff {sysOpen sysClose : Sys} {db₀ db : Kvdb}
    (hopen : kvdbOpen sysOpen [] = some db₀) {calls : List (Sys × Call)}
    (hreads : ∀ c ∈ calls, c.1.ReadsOk) (hrun : run db₀ calls = .ok db) :
    (Drains sysClose db.buffer.data → CloseKeeps sysClose db (accepted db₀ calls)) ∧
      (AllSucceed calls → (CloseKeeps sysClose db (accepted db₀ calls) ↔
        sysClose.closeFile = false ∨ Drains sysClose db.buffer.data)) := by
  have hkept : Kept db (accepted db₀ calls) := (kept_open hopen).run hreads hrun
  have hdrained : Drains sysClose db.buffer.data → CloseKeeps sysClose db (accepted db₀ calls) :=
    fun hdrains _ => hkept.flush_occur hdrains
  refine ⟨hdrained, fun hs => ⟨fun hkeeps => ?_, ?_⟩⟩
  · by_contra hlost
    obtain ⟨hclose, hdrains⟩ := not_or.mp hlost
    have hoccur := (hkeeps (if_pos (Bool.eq_true_of_not_eq_false hclose))).length_le
    have hview := congrArg (fun v => v.bytes.length) (view_of_allSucceed hopen hs hrun)
    simp only [kvdbClose, flushBuffer_keeps hkept.inFile hdrains] at hoccur
    simp only [Kvdb.view, View.ofLog] at hview
    rw [hkept.atEnd, writeAt_end, List.length_append] at hoccur hview
    have hshort := length_leftBehind_lt hdrains
    omega
  · rintro (hclose | hdrains)
    · intro hzero
      rw [kvdbClose, hclose] at hzero
      exact absurd hzero (show ¬ (-1 : Int) = 0 by decide)
    · exact hdrained hdrains

/-- A session that flushes, and closes with nothing in the buffer. -/
theorem close_keeps_flushed :
    ∃ db₀ db, kvdbOpen .ideal [] = some db₀ ∧
      run db₀ [(.ideal, .put (.single 107) (.single 118)), (.ideal, .flush)] = .ok db ∧
      CloseKeeps (.writing none) db
        (accepted db₀ [(.ideal, .put (.single 107) (.single 118)), (.ideal, .flush)]) := by
  have hopen : kvdbOpen .ideal [] = some ⟨[], 0, ⟨[], 0⟩⟩ := rfl
  have hrun : run ⟨[], 0, ⟨[], 0⟩⟩
      [(.ideal, .put (.single 107) (.single 118)), (.ideal, .flush)] =
        .ok ⟨(putRecord (.single 107) (.single 118)).encode, 10, ⟨[], 4096⟩⟩ := rfl
  refine ⟨_, _, hopen, hrun, (close_keeps_iff hopen ?_ hrun).1 (.inl rfl)⟩
  simpa using Sys.ideal_allOk.readsOk

/-- A put that returns `0`, a close whose write fails and that returns `0`: the
file is empty. -/
theorem close_loses :
    ∃ db₀ db, kvdbOpen .ideal [] = some db₀ ∧
      run db₀ [(.ideal, .put (.single 107) (.single 118))] = .ok db ∧
      accepted db₀ [(.ideal, .put (.single 107) (.single 118))] =
        [putRecord (.single 107) (.single 118)] ∧
      ¬ CloseKeeps (.writing none) db
        (accepted db₀ [(.ideal, .put (.single 107) (.single 118))]) := by
  refine ⟨_, _, rfl, rfl, rfl, fun hkeeps => ?_⟩
  exact absurd (hkeeps rfl).length_le (by decide)

end NjuOs.Libkvdb
