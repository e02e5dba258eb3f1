import NjuOs.Libkvdb.Reopen
import NjuOs.Lib.Run
import Mathlib.Logic.Function.Basic

/-!
Several handles on one file.

Each handle has a descriptor and a write buffer of its own, and only the file is
shared. `readers_see_prefix`: while one handle puts, the others read a prefix of what
it has put, which only grows, and the handle that puts reads all of it; no order of the
calls makes a reader disturb the writer.
-/

namespace NjuOs.Libkvdb

open NjuOs.Lib

/-! ### Handles that share a file -/

/-- What a handle has besides the file. -/
structure Descriptor where
  offset : Nat
  buffer : WriteBuffer

structure Shared where
  file : Bytes
  handles : Nat → Descriptor

def Shared.handle (s : Shared) (i : Nat) : Kvdb :=
  ⟨s.file, (s.handles i).offset, (s.handles i).buffer⟩

def Shared.store (s : Shared) (i : Nat) (db : Kvdb) : Shared where
  file := db.file
  handles := Function.update s.handles i ⟨db.offset, db.buffer⟩

/-- A call on one of the handles, with the answers of the kernel and the allocator. -/
structure Event where
  handle : Nat
  sys : Sys
  call : Call

/-- `none` when the call faults. -/
def sharedStep (s : Shared) (e : Event) : Option Shared :=
  match e.call.exec e.sys (s.handle e.handle) with
  | .error _ => none
  | .ok (_, db) => some (s.store e.handle db)

/-- Every handle is opened on a new file. -/
def Shared.opened : Shared := ⟨[], fun _ => ⟨0, ⟨[], 0⟩⟩⟩

/-- The handle that puts. -/
def writer : Nat := 0

/-- A call that succeeds, and puts on the handle for it only. -/
structure Event.Allowed (e : Event) : Prop where
  allOk : e.sys.AllOk
  short : e.call.Short
  reads : e.handle ≠ writer → putsOf [e.call] = []

/-- The records that the writer puts. -/
def written (events : List Event) : List Record :=
  putsOf ((events.filter fun e => e.handle = writer).map Event.call)

theorem Shared.handle_store_self (s : Shared) (i : Nat) (db : Kvdb) :
    (s.store i db).handle i = db := by
  simp [Shared.handle, Shared.store]

theorem Shared.handles_store_self (s : Shared) (i : Nat) (db : Kvdb) :
    (s.store i db).handles i = ⟨db.offset, db.buffer⟩ := Function.update_self ..

/-- The other handles see the new file. -/
theorem Shared.handles_store_of_ne (s : Shared) {i j : Nat} (h : j ≠ i) (db : Kvdb) :
    (s.store i db).handles j = s.handles j := Function.update_of_ne h ..

theorem written_cons (e : Event) (events : List Event) :
    written (e :: events) =
      (if e.handle = writer then putsOf [e.call] else []) ++ written events := by
  by_cases h : e.handle = writer
  · rw [if_pos h, written, List.filter_cons_of_pos (by simpa using h), List.map_cons,
      ← List.singleton_append, putsOf_append, ← written]
  · rw [if_neg h, written, List.filter_cons_of_neg (by simpa using h), List.nil_append, written]

theorem written_append (events events' : List Event) :
    written (events ++ events') = written events ++ written events' := by
  rw [written, List.filter_append, List.map_append, putsOf_append, ← written, ← written]

/-! ### What is in the file, and what is still in the buffer -/

/-- The file is a log, the writer stands at its end, and nobody else has anything to
write. -/
structure Snapshot (s : Shared) (durable pending : List Record) : Prop where
  file : s.file = log.encodeAll durable
  offset : (s.handles writer).offset = s.file.length
  buffer : (s.handles writer).buffer.data = log.encodeAll pending
  readers : ∀ i, i ≠ writer → (s.handles i).offset ≤ s.file.length ∧
    (s.handles i).buffer.data = []

theorem snapshot_opened : Snapshot .opened [] [] :=
  ⟨rfl, rfl, rfl, fun _ _ => ⟨Nat.le_refl _, rfl⟩⟩

namespace Snapshot

variable {s : Shared} {durable pending : List Record}

theorem inFile (h : Snapshot s durable pending) (i : Nat) : (s.handle i).InFile := by
  by_cases hi : i = writer
  · subst hi
    exact h.offset.le
  · exact (h.readers i hi).1

/-- The view of the writer is the whole log. -/
theorem view_writer (h : Snapshot s durable pending) :
    (s.handle writer).view = View.ofLog (durable ++ pending) := by
  have hend : writeAt s.file (s.handles writer).offset (s.handles writer).buffer.data =
      log.encodeAll (durable ++ pending) := by
    rw [h.offset, h.buffer, writeAt_end, h.file]
    exact (log.encodeAll_append ..).symm
  rw [Kvdb.view, Shared.handle, hend, View.ofLog]
  congr 1
  rw [h.offset, h.buffer, h.file, log.encodeAll_append, List.length_append]

/-- The view of a reader is the file. -/
theorem view_reader (h : Snapshot s durable pending) {i : Nat} (hi : i ≠ writer) :
    (s.handle i).view = ⟨log.encodeAll durable, (s.handles i).offset⟩ := by
  obtain ⟨hoffset, hbuffer⟩ := h.readers i hi
  rw [Kvdb.view, Shared.handle, hbuffer, writeAt_nil hoffset, h.file]
  rfl

/-- The writer writes its buffer to the file. -/
theorem flushed (h : Snapshot s durable pending) (capacity : Nat) :
    Snapshot (s.store writer ⟨log.encodeAll (durable ++ pending),
      (log.encodeAll (durable ++ pending)).length, ⟨[], capacity⟩⟩) (durable ++ pending) [] where
  file := rfl
  offset := by
    rw [s.handles_store_self]
    rfl
  buffer := by
    rw [s.handles_store_self]
    rfl
  readers i hi := by
    obtain ⟨hoffset, hbuffer⟩ := h.readers i hi
    rw [s.handles_store_of_ne hi]
    refine ⟨hoffset.trans ?_, hbuffer⟩
    rw [h.file]
    simp [Shared.store]

/-- The writer puts a record into its buffer. -/
theorem buffered (h : Snapshot s durable pending) (r : Record) (capacity : Nat) :
    Snapshot (s.store writer { s.handle writer with
      buffer := ⟨(s.handles writer).buffer.data ++ r.encode, capacity⟩ })
        durable (pending ++ [r]) where
  file := h.file
  offset := by
    rw [s.handles_store_self]
    exact h.offset
  buffer := by
    rw [s.handles_store_self, h.buffer]
    simp [log]
  readers i hi := by
    rw [s.handles_store_of_ne hi]
    exact h.readers i hi

/-- A reader that goes to the end of the file. -/
theorem moved (h : Snapshot s durable pending) {i : Nat} (hi : i ≠ writer) {offset : Nat}
    (hoffset : offset ≤ s.file.length) (capacity : Nat) :
    Snapshot (s.store i ⟨s.file, offset, ⟨[], capacity⟩⟩) durable pending where
  file := h.file
  offset := by
    rw [s.handles_store_of_ne hi.symm]
    exact h.offset
  buffer := by
    rw [s.handles_store_of_ne hi.symm]
    exact h.buffer
  readers j hj := by
    by_cases hji : j = i
    · subst hji
      rw [s.handles_store_self]
      exact ⟨hoffset, rfl⟩
    · rw [s.handles_store_of_ne hji]
      exact h.readers j hj

/-! ### Calls -/

section

variable {sys : Sys}

/-- A put of the writer: the buffer goes to the file first, or it does not. -/
theorem put (h : Snapshot s durable pending) (hs : sys.AllOk) (key value : CString) :
    ∃ s' more rest, sharedStep s ⟨writer, sys, .put key value⟩ = some s' ∧
      pending = more ++ rest ∧
      Snapshot s' (durable ++ more) (rest ++ [putRecord key value]) := by
  obtain ⟨s₁, more, rest, hflush, hsplit, hsnap⟩ : ∃ s₁ more rest,
      putFlush sys (s.handle writer) key value = (0, s₁.handle writer) ∧
        pending = more ++ rest ∧ Snapshot s₁ (durable ++ more) rest ∧
        ∀ db, s.store writer db = s₁.store writer db := by
    have hover : ∀ db db', s.store writer db' = (s.store writer db).store writer db' :=
      fun db db' => by simp [Shared.store]
    rw [putFlush]
    split
    · refine ⟨_, pending, [], ?_, (List.append_nil _).symm,
        h.flushed (s.handle writer).buffer.capacity, hover _⟩
      rw [flushBuffer_spec hs (h.inFile writer), h.view_writer, Shared.handle_store_self]
      rfl
    · refine ⟨s, [], pending, rfl, rfl, ?_, fun _ => rfl⟩
      rwa [List.append_nil]
  obtain ⟨capacity, happend⟩ :=
    appendFields_spec hs (putFields key value) (s₁.handle writer).buffer
  refine ⟨_, more, rest, ?_, hsplit, hsnap.1.buffered (putRecord key value) capacity⟩
  rw [sharedStep, Call.exec, kvdbPut_eq, hflush, happend, putFields_flatten]
  simp only [Int.lt_irrefl, if_false]
  rw [hsnap.2]
  rfl

/-- A flush of the writer. -/
theorem flush (h : Snapshot s durable pending) (hs : sys.AllOk) :
    ∃ s', sharedStep s ⟨writer, sys, .flush⟩ = some s' ∧ Snapshot s' (durable ++ pending) [] := by
  refine ⟨_, ?_, h.flushed (s.handle writer).buffer.capacity⟩
  rw [sharedStep, Call.exec, kvdbFlush, flushBuffer_spec hs (h.inFile writer), h.view_writer]
  rfl

variable (hreadable : ∀ r ∈ durable ++ pending, r.Readable)

include hreadable

/-- What the writer reads. -/
theorem get_writer (h : Snapshot s durable pending) (hs : sys.AllOk) (key : CString)
    (length : UInt64) :
    kvdbGet sys (s.handle writer) key length =
      .ok (lookupResult (lastValue (durable ++ pending) key) length,
        ⟨log.encodeAll (durable ++ pending), (log.encodeAll (durable ++ pending)).length,
          ⟨[], (s.handle writer).buffer.capacity⟩⟩) := by
  rw [kvdbGet_spec hs (h.inFile writer), h.view_writer, View.ofLog, decode_encodeAll hreadable]

/-- What a reader reads. -/
theorem get_reader (h : Snapshot s durable pending) (hs : sys.AllOk) {i : Nat} (hi : i ≠ writer)
    (key : CString) (length : UInt64) :
    kvdbGet sys (s.handle i) key length =
      .ok (lookupResult (lastValue durable key) length,
        ⟨s.file, s.file.length, ⟨[], (s.handle i).buffer.capacity⟩⟩) := by
  have hdurable : ∀ r ∈ durable, r.Readable := fun r hr =>
    hreadable r (List.mem_append_left _ hr)
  rw [kvdbGet_spec hs (h.inFile i), h.view_reader hi, decode_encodeAll hdurable, h.file]

/-- One call: records go from the buffer to the file, in their order, and a put adds
one behind them. -/
theorem step (h : Snapshot s durable pending) {e : Event} (he : e.Allowed) :
    ∃ s' more rest, sharedStep s e = some s' ∧
      pending ++ (if e.handle = writer then putsOf [e.call] else []) = more ++ rest ∧
        Snapshot s' (durable ++ more) rest := by
  obtain ⟨i, sys, call⟩ := e
  have hs : sys.AllOk := he.allOk
  by_cases hi : i = writer
  · obtain rfl := hi
    rw [if_pos rfl]
    cases call with
    | put key value =>
        obtain ⟨s', more, rest, hstep, hsplit, hsnap⟩ := h.put hs key value
        refine ⟨s', more, rest ++ [putRecord key value], hstep, ?_, hsnap⟩
        rw [hsplit, List.append_assoc]
        rfl
    | flush =>
        obtain ⟨s', hstep, hsnap⟩ := h.flush hs
        exact ⟨s', pending, [], hstep, rfl, hsnap⟩
    | get key length =>
        refine ⟨_, pending, [], ?_, rfl, h.flushed (s.handle writer).buffer.capacity⟩
        rw [sharedStep, Call.exec, h.get_writer hreadable hs]
        rfl
  · rw [if_neg hi]
    obtain ⟨offset, hoffset, hstep⟩ : ∃ offset ≤ s.file.length,
        sharedStep s ⟨i, sys, call⟩ =
          some (s.store i ⟨s.file, offset, ⟨[], (s.handle i).buffer.capacity⟩⟩) := by
      cases call with
      | put key value => cases he.reads hi
      | flush =>
          refine ⟨_, (h.readers i hi).1, ?_⟩
          rw [sharedStep, Call.exec, kvdbFlush, flushBuffer_spec hs (h.inFile i),
            h.view_reader hi, ← h.file]
      | get key length =>
          refine ⟨_, Nat.le_refl _, ?_⟩
          rw [sharedStep, Call.exec, h.get_reader hreadable hs hi]
          rfl
    refine ⟨_, [], pending, hstep, List.append_nil _, ?_⟩
    rw [List.append_nil]
    exact h.moved hi hoffset _

end

end Snapshot

/-! ### Runs -/

/-- The records that short strings make can be read. -/
theorem written_readable {events : List Event} (h : ∀ e ∈ events, e.Allowed) :
    ∀ r ∈ written events, r.Readable := by
  refine Call.Short.readable fun call hcall => ?_
  obtain ⟨e, he, rfl⟩ := List.mem_map.mp hcall
  exact (h e (List.mem_filter.mp he).1).short

/-- Any order of calls. -/
theorem Snapshot.run {events : List Event} (hevents : ∀ e ∈ events, e.Allowed) :
    ∀ {s : Shared} {durable pending : List Record}, Snapshot s durable pending →
      (∀ r ∈ durable ++ pending, r.Readable) →
        ∃ s' more rest, exec sharedStep s events = some s' ∧
          pending ++ written events = more ++ rest ∧ Snapshot s' (durable ++ more) rest := by
  induction events with
  | nil =>
      intro s durable pending h _
      refine ⟨s, [], pending, rfl, List.append_nil _, ?_⟩
      rwa [List.append_nil]
  | cons e events ih =>
      intro s durable pending h hreadable
      obtain ⟨he, hrest⟩ := List.forall_mem_cons.mp hevents
      obtain ⟨t, more, rest, hstep, hsplit, ht⟩ := h.step hreadable he
      have hnew : ∀ r ∈ (durable ++ more) ++ rest, r.Readable := by
        have hput : ∀ r ∈ written [e], r.Readable :=
          written_readable (List.forall_mem_singleton.mpr he)
        rw [written_cons, show written [] = [] from rfl, List.append_nil] at hput
        rw [List.append_assoc, ← hsplit, ← List.append_assoc, List.forall_mem_append]
        exact ⟨hreadable, hput⟩
      obtain ⟨s', more', rest', hexec, hsplit', hs'⟩ := ih hrest ht hnew
      refine ⟨s', more ++ more', rest', (exec_cons hstep events).trans hexec, ?_, ?_⟩
      · rw [written_cons, ← List.append_assoc, hsplit, List.append_assoc, hsplit',
          List.append_assoc]
      · rwa [← List.append_assoc]

/-- What the handles read of a log of which this much is in the file. -/
structure Reads (s : Shared) (durable pending : List Record) : Prop where
  readers : ∀ i, i ≠ writer → ∀ sys : Sys, sys.AllOk → ∀ key length, ∃ db,
    kvdbGet sys (s.handle i) key length = .ok (lookupResult (lastValue durable key) length, db) ∧
      db.file = s.file
  writer : ∀ sys : Sys, sys.AllOk → ∀ key length, ∃ db,
    kvdbGet sys (s.handle writer) key length =
      .ok (lookupResult (lastValue (durable ++ pending) key) length, db)

theorem Snapshot.reads {s : Shared} {durable pending : List Record}
    (h : Snapshot s durable pending) (hreadable : ∀ r ∈ durable ++ pending, r.Readable) :
    Reads s durable pending where
  readers _ hi _ hs key length := ⟨_, h.get_reader hreadable hs hi key length, rfl⟩
  writer _ hs key length := ⟨_, h.get_writer hreadable hs key length⟩

/-- **Readers see a prefix.** One handle puts, and any number of others read, in any
order. At any two moments of a run, each reader gets the last values of a prefix of the
records put so far, the later prefix extends the earlier one, and the handle that puts
gets the last values of all of them. -/
theorem readers_see_prefix {events later : List Event} (hevents : ∀ e ∈ events, e.Allowed)
    (hlater : ∀ e ∈ later, e.Allowed) :
    ∃ s s' durable pending durable' pending', exec sharedStep .opened events = some s ∧
      exec sharedStep s later = some s' ∧ durable ++ pending = written events ∧
        durable' ++ pending' = written (events ++ later) ∧ durable <+: durable' ∧
          Reads s durable pending ∧ Reads s' durable' pending' := by
  obtain ⟨s, durable, pending, hexec, hsplit, hs⟩ :=
    snapshot_opened.run hevents (fun r hr => absurd hr List.not_mem_nil)
  rw [List.nil_append] at hsplit hs
  have hreadable := written_readable hevents
  rw [hsplit] at hreadable
  obtain ⟨s', more, pending', hexec', hsplit', hs'⟩ := hs.run hlater hreadable
  have hall : (durable ++ more) ++ pending' = written (events ++ later) := by
    rw [written_append, hsplit, List.append_assoc, ← hsplit', List.append_assoc]
  refine ⟨s, s', durable, pending, durable ++ more, pending', hexec, hexec', hsplit.symm, hall,
    List.prefix_append durable more, hs.reads hreadable, hs'.reads ?_⟩
  rw [hall]
  exact written_readable fun e he => (List.mem_append.mp he).elim (hevents e) (hlater e)

/-- A record is put, read elsewhere, and flushed. -/
theorem readers_see_prefix_put :
    ∃ s s' durable pending durable' pending',
      exec sharedStep .opened [⟨writer, .ideal, .put (.single 107) (.single 49)⟩] = some s ∧
        exec sharedStep s [⟨1, .ideal, .get (.single 107) 8⟩, ⟨writer, .ideal, .flush⟩] = some s' ∧
          durable ++ pending =
            written [⟨writer, .ideal, .put (.single 107) (.single 49)⟩] ∧
          durable' ++ pending' = written ([⟨writer, .ideal, .put (.single 107) (.single 49)⟩] ++
            [⟨1, .ideal, .get (.single 107) 8⟩, ⟨writer, .ideal, .flush⟩]) ∧
          durable <+: durable' ∧ Reads s durable pending ∧ Reads s' durable' pending' := by
  have hshort : (CString.single 107).length < 2 ^ 31 - 1 := by decide
  refine readers_see_prefix (fun e he => ?_) fun e he => ?_
  · obtain rfl := List.mem_singleton.mp he
    exact ⟨Sys.ideal_allOk, ⟨hshort, by decide⟩, fun h => absurd rfl h⟩
  · rcases List.mem_cons.mp he with rfl | he
    · exact ⟨Sys.ideal_allOk, hshort, fun _ => rfl⟩
    · obtain rfl := List.mem_singleton.mp he
      exact ⟨Sys.ideal_allOk, trivial, fun _ => rfl⟩

end NjuOs.Libkvdb
