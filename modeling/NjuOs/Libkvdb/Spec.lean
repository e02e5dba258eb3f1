import NjuOs.Libkvdb.Log

/-!
What the writing calls of `libkvdb` do when the kernel and the allocator do not
fail.

A handle is seen through its `view`: the file once the write buffer is written
out at the descriptor's offset, and the offset after that. In these terms
`kvdb_put` writes the record's image at the view's position whether or not it
flushes on the way (`kvdbPut_spec`), and `kvdb_flush` does nothing
(`kvdbFlush_spec`). What one flush does is said for every answer of `write`
(`flushBuffer_drains`, `flushBuffer_keeps`).
-/

namespace NjuOs.Libkvdb

open NjuOs.Lib

/-! ### `writeAt` -/

theorem writeAt_eq {file : Bytes} {offset : Nat} (h : offset ≤ file.length) (data : Bytes) :
    writeAt file offset data = file.take offset ++ data ++ file.drop (offset + data.length) := by
  simp [writeAt, List.rightpad, Nat.sub_eq_zero_of_le h]

theorem length_writeAt {file : Bytes} {offset : Nat} (h : offset ≤ file.length) (data : Bytes) :
    (writeAt file offset data).length = max file.length (offset + data.length) := by
  rw [writeAt_eq h]
  simp only [List.length_append, List.length_take, List.length_drop]
  omega

@[simp] theorem writeAt_nil {file : Bytes} {offset : Nat} (h : offset ≤ file.length) :
    writeAt file offset [] = file := by
  simp [writeAt_eq h]

/-- Writing at the end appends. -/
@[simp] theorem writeAt_end (file data : Bytes) : writeAt file file.length data = file ++ data := by
  rw [writeAt_eq le_rfl]
  simp

/-- Two writes in a row are one. -/
theorem writeAt_writeAt {file : Bytes} {offset : Nat} (h : offset ≤ file.length) (d e : Bytes) :
    writeAt (writeAt file offset d) (offset + d.length) e = writeAt file offset (d ++ e) := by
  have hle : offset + d.length ≤ (writeAt file offset d).length := by
    rw [length_writeAt h]; omega
  have hmin : min offset file.length = offset := Nat.min_eq_left h
  rw [writeAt_eq hle, writeAt_eq h, writeAt_eq h]
  have htake : (file.take offset ++ d ++ file.drop (offset + d.length)).take (offset + d.length) =
      file.take offset ++ d := by
    rw [List.take_append_of_le_length (by simp [hmin]), List.take_of_length_le (by simp [hmin])]
  have hdrop : (file.take offset ++ d ++ file.drop (offset + d.length)).drop
      (offset + d.length + e.length) = file.drop (offset + (d ++ e).length) := by
    rw [List.drop_append, List.drop_of_length_le (by simp [hmin]), List.nil_append,
      List.drop_drop]
    congr 1
    simp only [List.length_append, List.length_take, hmin]
    omega
  rw [htake, hdrop, List.append_assoc (file.take offset)]

/-! ### The view of a handle -/

/-- A file and a position in it. -/
structure View where
  bytes : Bytes
  pos : Nat
deriving DecidableEq

def Kvdb.view (db : Kvdb) : View :=
  ⟨writeAt db.file db.offset db.buffer.data, db.offset + db.buffer.data.length⟩

/-- The offset lies inside the file: the kernel never moves it past the end. -/
def Kvdb.InFile (db : Kvdb) : Prop := db.offset ≤ db.file.length

/-- A record written at the position. -/
def View.put (v : View) (r : Record) : View :=
  ⟨writeAt v.bytes v.pos r.encode, v.pos + r.encode.length⟩

def View.seekEnd (v : View) : View := ⟨v.bytes, v.bytes.length⟩

/-- With an empty buffer the view is the file itself. -/
theorem Kvdb.view_of_flushed {file : Bytes} {offset : Nat} (h : offset ≤ file.length)
    (capacity : Nat) : (⟨file, offset, ⟨[], capacity⟩⟩ : Kvdb).view = ⟨file, offset⟩ := by
  rw [Kvdb.view, writeAt_nil h]
  rfl

theorem Kvdb.view_pos_le {db : Kvdb} (h : db.InFile) : db.view.pos ≤ db.view.bytes.length := by
  rw [Kvdb.view, length_writeAt h]
  exact le_max_right _ _

/-! ### One flush -/

/-- The write of a flush transfers the whole buffer, or there is nothing to write. -/
def Drains (sys : Sys) (data : Bytes) : Prop :=
  data = [] ∨ ∃ n, sys.write data.length = some n ∧ data.length ≤ n

/-- What the write of a flush leaves in the file when it does not transfer the
whole buffer. -/
def leftBehind (sys : Sys) (data : Bytes) : Bytes :=
  match sys.write data.length with
  | some n => if n < data.length then data.take n else []
  | none => []

theorem leftBehind_eq_nil_iff {sys : Sys} {data : Bytes} :
    leftBehind sys data = [] ↔
      ∀ n, sys.write data.length = some n → n = 0 ∨ data.length ≤ n := by
  unfold leftBehind
  cases hwrite : sys.write data.length with
  | none => simp
  | some n =>
      by_cases hlt : n < data.length
      · have hne : data ≠ [] := List.ne_nil_of_length_pos (Nat.zero_lt_of_lt hlt)
        simp [hlt, hne]
      · simp [hlt, Nat.le_of_not_lt hlt]

theorem leftBehind_of_drains {sys : Sys} {data : Bytes} (h : Drains sys data) :
    leftBehind sys data = [] := by
  rw [leftBehind_eq_nil_iff]
  intro n hn
  rcases h with rfl | ⟨m, hm, hle⟩
  · exact .inr (Nat.zero_le n)
  · cases hn.symm.trans hm
    exact .inr hle

section Flush

variable {sys : Sys} {db : Kvdb} (h : db.InFile)

include h

/-- A flush that drains the buffer writes it at the offset; then `fdatasync` may fail. -/
theorem flushBuffer_drains (hdrains : Drains sys db.buffer.data) :
    flushBuffer sys db = (if db.buffer.data ≠ [] ∧ sys.fdatasync = false then -1 else 0,
      ⟨db.view.bytes, db.view.pos, ⟨[], db.buffer.capacity⟩⟩) := by
  obtain ⟨file, offset, ⟨data, capacity⟩⟩ := db
  cases data with
  | nil =>
      rw [Kvdb.view_of_flushed h]
      simp [flushBuffer, WriteBuffer.size]
  | cons b bs =>
      obtain ⟨n, hn, hle⟩ := hdrains.resolve_left (List.cons_ne_nil b bs)
      have htake : (b :: bs).take n = b :: bs := List.take_of_length_le hle
      change sys.write (bs.length + 1) = some n at hn
      cases hsync : sys.fdatasync <;>
        simp [flushBuffer, WriteBuffer.size, Kvdb.view, hn, htake, hsync]

/-- A flush that does not drain the buffer fails and keeps it. -/
theorem flushBuffer_keeps (hdrains : ¬ Drains sys db.buffer.data) :
    flushBuffer sys db =
      (-1, ⟨writeAt db.file db.offset (leftBehind sys db.buffer.data),
        db.offset + (leftBehind sys db.buffer.data).length, db.buffer⟩) := by
  obtain ⟨file, offset, ⟨data, capacity⟩⟩ := db
  have hfile : offset ≤ file.length := h
  obtain ⟨hne, hshort⟩ := not_or.mp hdrains
  have hsize : ¬ data.length = 0 := fun hnil => hne (List.length_eq_zero_iff.mp hnil)
  cases hwrite : sys.write data.length with
  | none => simp [flushBuffer, WriteBuffer.size, leftBehind, hwrite, hsize, hfile]
  | some n =>
      have hlt : n < data.length := by
        by_contra hle
        exact hshort ⟨n, hwrite, Nat.le_of_not_lt hle⟩
      have hmin : ¬ min n data.length = data.length := by omega
      simp [flushBuffer, WriteBuffer.size, leftBehind, hwrite, hsize, hlt, hmin]

end Flush

/-! ### The two halves of a put -/

/-- The fields that a put appends. -/
def putFields (key value : CString) : List Bytes :=
  [le32 (strlen32 key), le32 (strlen32 value), (key.take (strlen32 key)).bytes,
    (value.take (strlen32 value)).bytes]

/-- The put flushes the buffer before it appends. -/
def PutFlushes (buf : WriteBuffer) (key value : CString) : Prop :=
  buf.size + (4 + 4 + strlen32 key + strlen32 value) > buf.capacity ∨ buf.size > 8192

instance (buf : WriteBuffer) (key value : CString) : Decidable (PutFlushes buf key value) :=
  inferInstanceAs (Decidable (_ ∨ _))

/-- The first half of a put: the outcome of the flush, if there is one. -/
def putFlush (sys : Sys) (db : Kvdb) (key value : CString) : Int × Kvdb :=
  if PutFlushes db.buffer key value then flushBuffer sys db else (0, db)

/-- The second half appends the fields. -/
theorem kvdbPut_eq (sys : Sys) (db : Kvdb) (key value : CString) :
    kvdbPut sys db key value =
      if (putFlush sys db key value).1 < 0 then (-1, (putFlush sys db key value).2)
      else
        ((appendFields sys (putFlush sys db key value).2.buffer (putFields key value)).1,
          { (putFlush sys db key value).2 with
            buffer := (appendFields sys (putFlush sys db key value).2.buffer
              (putFields key value)).2 }) := rfl

theorem length_take_strlen32 (s : CString) : (s.take (strlen32 s)).bytes.length = strlen32 s := by
  have hle : strlen32 s ≤ s.length := Nat.mod_le _ _
  exact List.length_take_of_le hle

theorem putFields_flatten (key value : CString) :
    (putFields key value).flatten = (putRecord key value).encode := by
  have hk : (putRecord key value).key.length = strlen32 key := length_take_strlen32 key
  have hv : (putRecord key value).value.length = strlen32 value := length_take_strlen32 value
  rw [Record.encode, hk, hv]
  simp [putFields, putRecord]

/-! ### Calls that succeed -/

section Calls

variable {sys : Sys} {db : Kvdb}

theorem flushBuffer_spec (hs : sys.AllOk) (h : db.InFile) :
    flushBuffer sys db = (0, ⟨db.view.bytes, db.view.pos, ⟨[], db.buffer.capacity⟩⟩) := by
  rw [flushBuffer_drains h (.inr ⟨_, hs.write _, le_rfl⟩), hs.fdatasync]
  simp

theorem appendToBuffer_spec (hs : sys.AllOk) (buf : WriteBuffer) (data : Bytes) :
    ∃ capacity, appendToBuffer sys buf data = some ⟨buf.data ++ data, capacity⟩ := by
  simp only [appendToBuffer, expandBuffer, hs.realloc, if_true]
  split <;> exact ⟨_, rfl⟩

theorem appendFields_spec (hs : sys.AllOk) (fields : List Bytes) (buf : WriteBuffer) :
    ∃ capacity, appendFields sys buf fields = (0, ⟨buf.data ++ fields.flatten, capacity⟩) := by
  induction fields generalizing buf with
  | nil => exact ⟨buf.capacity, by simp [appendFields]⟩
  | cons field fields ih =>
      obtain ⟨c, hc⟩ := appendToBuffer_spec hs buf field
      obtain ⟨c', hc'⟩ := ih ⟨buf.data ++ field, c⟩
      exact ⟨c', by simp [appendFields, hc, hc', List.append_assoc]⟩

/-- Appending bytes to the buffer writes them at the view's position. -/
theorem Kvdb.view_append (h : db.InFile) (data : Bytes) (capacity : Nat) :
    ({ db with buffer := ⟨db.buffer.data ++ data, capacity⟩ } : Kvdb).view =
      ⟨writeAt db.view.bytes db.view.pos data, db.view.pos + data.length⟩ := by
  simp only [Kvdb.view, writeAt_writeAt h, List.length_append, Nat.add_assoc]

/-- A put writes the record's image at the position of the view. -/
theorem kvdbPut_spec (hs : sys.AllOk) (h : db.InFile) (key value : CString) :
    ∃ db', kvdbPut sys db key value = (0, db') ∧ db'.InFile ∧
      db'.view = db.view.put (putRecord key value) := by
  obtain ⟨db₁, hflush, hin, hview⟩ : ∃ db₁ : Kvdb,
      putFlush sys db key value = (0, db₁) ∧ db₁.InFile ∧ db₁.view = db.view := by
    rw [putFlush]
    split
    · exact ⟨_, flushBuffer_spec hs h, Kvdb.view_pos_le h,
        Kvdb.view_of_flushed (Kvdb.view_pos_le h) _⟩
    · exact ⟨db, rfl, h, rfl⟩
  obtain ⟨c, hc⟩ := appendFields_spec hs (putFields key value) db₁.buffer
  refine ⟨{ db₁ with buffer := ⟨db₁.buffer.data ++ (putRecord key value).encode, c⟩ }, ?_, hin, ?_⟩
  · rw [kvdbPut_eq, hflush, hc, putFields_flatten]
    rfl
  · rw [Kvdb.view_append hin, hview]
    rfl

theorem kvdbFlush_spec (hs : sys.AllOk) (h : db.InFile) :
    ∃ db', kvdbFlush sys db = (0, db') ∧ db'.InFile ∧ db'.view = db.view :=
  ⟨_, flushBuffer_spec hs h, Kvdb.view_pos_le h, Kvdb.view_of_flushed (Kvdb.view_pos_le h) _⟩

end Calls

end NjuOs.Libkvdb
