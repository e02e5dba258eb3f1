import NjuOs.Libkvdb.FailedPut

/-!
Flushes that fail, and are tried again.

`flush_buffer` takes any count but the whole one for a failure and keeps the
buffer, but the bytes that were transferred are in the file and the offset is
behind them: the next flush writes the buffer from its start again. What a run
of failed flushes and a successful one adds to the file is therefore what each
short write left behind and then the buffer (`retried_adds`). A failing
`fdatasync` does no harm, since the buffer is empty by then.
-/

namespace NjuOs.Libkvdb

open NjuOs.Lib

/-! ### Retries -/

/-- Flushes that return `-1`, one after the other, and then one that returns `0`. -/
def retried : Kvdb → List Sys → Sys → Option Kvdb
  | db, [], last =>
      if (flushBuffer last db).1 = 0 then some (flushBuffer last db).2 else none
  | db, sys :: fails, last =>
      if (flushBuffer sys db).1 = -1 then retried (flushBuffer sys db).2 fails last else none

/-- With an empty buffer there is nothing to retry. -/
theorem retried_flushed {db db' : Kvdb} {fails : List Sys} {last : Sys}
    (hempty : db.buffer.data = []) (h : retried db fails last = some db') :
    fails = [] ∧ db' = db := by
  have hflush : ∀ sys, flushBuffer sys db = (0, db) := fun sys => by
    rw [flushBuffer, WriteBuffer.size, hempty]
    rfl
  cases fails with
  | nil =>
      rw [retried, hflush, if_pos rfl] at h
      exact ⟨rfl, (Option.some.inj h).symm⟩
  | cons sys fails =>
      rw [retried, hflush, if_neg (show ¬ (0 : Int) = -1 by decide)] at h
      cases h

/-- What the flushes add to the file: what the short writes left behind, and then
the buffer. -/
theorem retried_adds {fails : List Sys} {last : Sys} {db' : Kvdb} :
    ∀ {db : Kvdb}, db.InFile → retried db fails last = some db' →
      db'.file = writeAt db.file db.offset
          ((fails.flatMap fun sys => leftBehind sys db.buffer.data) ++ db.buffer.data) ∧
        db'.offset = db.offset +
          ((fails.flatMap fun sys => leftBehind sys db.buffer.data) ++ db.buffer.data).length := by
  induction fails with
  | nil =>
      intro db hin h
      rw [retried] at h
      split_ifs at h with hzero
      cases h
      by_cases hdrains : Drains last db.buffer.data
      · rw [flushBuffer_drains hin hdrains]
        exact ⟨rfl, rfl⟩
      · rw [flushBuffer_keeps hin hdrains] at hzero
        exact absurd hzero (show ¬ (-1 : Int) = 0 by decide)
  | cons sys fails ih =>
      intro db hin h
      rw [retried] at h
      split_ifs at h with hfailed
      rw [List.flatMap_cons]
      by_cases hdrains : Drains sys db.buffer.data
      · -- `fdatasync` failed behind a whole write
        rw [flushBuffer_drains hin hdrains] at h
        obtain ⟨rfl, rfl⟩ := retried_flushed rfl h
        rw [leftBehind_of_drains hdrains]
        exact ⟨rfl, rfl⟩
      · rw [flushBuffer_keeps hin hdrains] at h
        have hin₁ : (⟨writeAt db.file db.offset (leftBehind sys db.buffer.data),
            db.offset + (leftBehind sys db.buffer.data).length, db.buffer⟩ : Kvdb).InFile := by
          rw [Kvdb.InFile, length_writeAt hin]
          exact le_max_right _ _
        obtain ⟨hfile, hoffset⟩ := ih hin₁ h
        rw [hfile, hoffset, writeAt_writeAt hin, List.append_assoc]
        refine ⟨rfl, ?_⟩
        rw [@List.length_append _ (leftBehind sys db.buffer.data), Nat.add_assoc]

/-- The file got the image of the records at the offset, and nothing else, and it
is parsed as these records. -/
def AddsRecords (db db' : Kvdb) (rs : List Record) : Prop :=
  db'.file = writeAt db.file db.offset (log.encodeAll rs) ∧
    db'.offset = db.offset + (log.encodeAll rs).length ∧
    log.decode (log.encodeAll rs) = some rs

/-- **When a flush can be retried.** After flushes that failed, a flush that returns
`0` has added the buffered records to the file, each once and in order, exactly
when no failed flush wrote a part of the buffer, and no record has a field that
the parser cannot allocate. -/
theorem retried_adds_records_iff {db db' : Kvdb} (hin : db.InFile) {rs : List Record}
    (hbuffer : db.buffer.data = log.encodeAll rs) {fails : List Sys} {last : Sys}
    (h : retried db fails last = some db') :
    AddsRecords db db' rs ↔
      (∀ sys ∈ fails, ∀ n, sys.write db.buffer.size = some n → n = 0 ∨ db.buffer.size ≤ n) ∧
        ∀ r ∈ rs, r.Readable := by
  obtain ⟨hfile, hoffset⟩ := retried_adds hin h
  have hleft : (∀ sys ∈ fails, ∀ n, sys.write db.buffer.size = some n →
      n = 0 ∨ db.buffer.size ≤ n) ↔
        (fails.flatMap fun sys => leftBehind sys db.buffer.data) = [] := by
    rw [List.flatMap_eq_nil_iff]
    exact forall_congr' fun sys => imp_congr_right fun _ => leftBehind_eq_nil_iff.symm
  rw [hleft, ← decode_encodeAll_iff]
  constructor
  · rintro ⟨-, hoffset', hdecode⟩
    refine ⟨List.length_eq_zero_iff.mp ?_, hdecode⟩
    have hlen := congrArg List.length hbuffer
    rw [List.length_append] at hoffset
    omega
  · rintro ⟨hnil, hdecode⟩
    rw [hnil, List.nil_append, hbuffer] at hfile hoffset
    exact ⟨hfile, hoffset, hdecode⟩

/-- A kernel whose `write` answers the same to every count. -/
def Sys.writing (answer : Option Nat) : Sys := { Sys.ideal with write := fun _ => answer }

/-- A handle on an empty file with the records in its buffer. -/
def buffered (rs : List Record) : Kvdb := ⟨[], 0, ⟨log.encodeAll rs, 4096⟩⟩

/-- A flush whose write fails, one whose `fdatasync` fails, and one that does nothing. -/
theorem retried_adds_records_after_errors :
    AddsRecords (buffered [putRecord (.single 107) (.single 118)])
      ⟨log.encodeAll [putRecord (.single 107) (.single 118)], 10, ⟨[], 4096⟩⟩
      [putRecord (.single 107) (.single 118)] := by
  have hretried : retried (buffered [putRecord (.single 107) (.single 118)])
      [.writing none, { Sys.ideal with fdatasync := false }] .ideal =
        some ⟨log.encodeAll [putRecord (.single 107) (.single 118)], 10, ⟨[], 4096⟩⟩ := rfl
  refine (retried_adds_records_iff le_rfl rfl hretried).mpr ⟨?_, by decide⟩
  intro sys hsys n hn
  rcases List.mem_pair.mp hsys with rfl | rfl
  · cases hn
  · cases hn
    exact .inr le_rfl

/-- A write of four bytes, and then a whole one: the four bytes are there twice. -/
theorem retried_repeats :
    ∃ db', retried (buffered [putRecord (.single 107) (.single 118)]) [.writing (some 4)] .ideal =
        some db' ∧
      ¬ AddsRecords (buffered [putRecord (.single 107) (.single 118)]) db'
        [putRecord (.single 107) (.single 118)] :=
  ⟨_, rfl, fun h => absurd h.2.1 (by decide)⟩

end NjuOs.Libkvdb
