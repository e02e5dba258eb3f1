import NjuOs.Lib.Bytes
import Mathlib.Algebra.Order.Group.Int

/-!
`libkvdb`: the log-structured key-value store of `kvdb.c`.

A handle (`Kvdb`) is the file behind its descriptor, the descriptor's POSIX
offset and the write buffer. Every library call takes a `Sys`: what the kernel
and the allocator answer during that call. Calls return the C return value and
the new handle. Reading the log can store outside an allocated block, because
`malloc(key_len + 1)` is computed in `uint32_t`; the parse loop reports this as
a `Fault` instead of inventing a result for it.

`read` retried after `EINTR` has no effect, so `Sys.read` is the answer of the
first call that is not interrupted. The `path` string is only freed and has no
counterpart here.
-/

namespace NjuOs.Libkvdb

open NjuOs.Lib

/-- What the kernel and the allocator answer during one library call. -/
structure Sys where
  /-- `write` of a count: the bytes written, or an error. -/
  write : Nat → Option Nat
  fdatasync : Bool
  lseek : Bool
  /-- `read` at an offset of a count: the most bytes transferred, or an error. -/
  read : Nat → Nat → Option Nat
  /-- `realloc` of the write buffer to a capacity. -/
  realloc : Nat → Bool
  /-- The allocations made for the record that starts at an offset. -/
  mallocKey : Nat → Bool
  mallocValue : Nat → Bool
  reallocEntries : Nat → Bool
  openFile : Bool
  strdup : Bool
  closeFile : Bool

/-- Every system call and every allocation succeeds; reads may still be short. -/
structure Sys.AllOk (sys : Sys) : Prop where
  write : ∀ n, sys.write n = some n
  fdatasync : sys.fdatasync = true
  lseek : sys.lseek = true
  read : ∀ offset n, sys.read offset n ≠ none
  realloc : ∀ n, sys.realloc n = true
  mallocKey : ∀ offset, sys.mallocKey offset = true
  mallocValue : ∀ offset, sys.mallocValue offset = true
  reallocEntries : ∀ offset, sys.reallocEntries offset = true
  openFile : sys.openFile = true
  strdup : sys.strdup = true
  closeFile : sys.closeFile = true

/-- A kernel and an allocator that never fail and never read short. -/
def Sys.ideal : Sys where
  write := some
  fdatasync := true
  lseek := true
  read _ n := some n
  realloc _ := true
  mallocKey _ := true
  mallocValue _ := true
  reallocEntries _ := true
  openFile := true
  strdup := true
  closeFile := true

theorem Sys.ideal_allOk : Sys.ideal.AllOk := by
  constructor <;> simp [Sys.ideal]

/-- `struct write_buffer`: the used bytes of the allocation and its capacity. -/
structure WriteBuffer where
  data : Bytes
  capacity : Nat
deriving DecidableEq

def WriteBuffer.size (buf : WriteBuffer) : Nat := buf.data.length

/-- `struct kvdb_t`, with the descriptor replaced by the file and its offset. -/
structure Kvdb where
  file : Bytes
  offset : Nat
  buffer : WriteBuffer
deriving DecidableEq

/-- POSIX `write` at an offset: a gap is filled with zeros, the bytes there are
overwritten, the rest of the file stays. -/
def writeAt (file : Bytes) (offset : Nat) (data : Bytes) : Bytes :=
  (file.rightpad offset 0).take offset ++ data ++ file.drop (offset + data.length)

/-! ### Writing -/

def flushBuffer (sys : Sys) (db : Kvdb) : Int × Kvdb :=
  if db.buffer.size = 0 then (0, db)
  else
    match sys.write db.buffer.size with
    | none => (-1, db)
    | some n =>
        let chunk := db.buffer.data.take n
        let db := { db with
          file := writeAt db.file db.offset chunk, offset := db.offset + chunk.length }
        if chunk.length ≠ db.buffer.size then (-1, db)
        else
          (if sys.fdatasync then 0 else -1, { db with buffer := { db.buffer with data := [] } })

/-- `none` is the return value `-1`; the buffer is then untouched. -/
def expandBuffer (sys : Sys) (buf : WriteBuffer) (minCapacity : Nat) : Option WriteBuffer :=
  let newCapacity := if buf.capacity ≠ 0 then buf.capacity * 2 else 4096
  let newCapacity := if newCapacity < minCapacity then minCapacity else newCapacity
  if sys.realloc newCapacity then some { buf with capacity := newCapacity } else none

def appendToBuffer (sys : Sys) (buf : WriteBuffer) (data : Bytes) : Option WriteBuffer :=
  let needed := buf.size + data.length
  let buf := if needed > buf.capacity then expandBuffer sys buf needed else some buf
  buf.map fun buf => { buf with data := buf.data ++ data }

/-- The chain `append_to_buffer(..) || append_to_buffer(..) || ..` of `kvdb_put`:
it stops at the first failure and keeps what was appended before it. -/
def appendFields (sys : Sys) : WriteBuffer → List Bytes → Int × WriteBuffer
  | buf, [] => (0, buf)
  | buf, field :: fields =>
      match appendToBuffer sys buf field with
      | none => (-1, buf)
      | some buf => appendFields sys buf fields

/-- `uint32_t key_len = strlen(key)`. -/
def strlen32 (s : CString) : Nat := s.length % 2 ^ 32

def kvdbPut (sys : Sys) (db : Kvdb) (key value : CString) : Int × Kvdb :=
  let keyLen := strlen32 key
  let valueLen := strlen32 value
  let totalSize := 4 + 4 + keyLen + valueLen
  let flushed :=
    if db.buffer.size + totalSize > db.buffer.capacity ∨ db.buffer.size > 8192 then
      flushBuffer sys db
    else (0, db)
  if flushed.1 < 0 then (-1, flushed.2)
  else
    let appended := appendFields sys flushed.2.buffer
      [le32 keyLen, le32 valueLen, (key.take keyLen).bytes, (value.take valueLen).bytes]
    (appended.1, { flushed.2 with buffer := appended.2 })

def kvdbFlush (sys : Sys) (db : Kvdb) : Int × Kvdb := flushBuffer sys db

/-! ### Reading -/

/-- The outcome of `read_exact`: its value, the bytes it stored, the offset after it. -/
structure ReadExact where
  ret : Int
  data : Bytes
  offset : Nat
deriving DecidableEq

def readExactLoop (sys : Sys) (file : Bytes) (count : Nat) : Nat → Nat → Bytes → ReadExact
  | 0, offset, data => ⟨data.length, data, offset⟩
  | fuel + 1, offset, data =>
      if data.length < count then
        match sys.read offset (count - data.length) with
        | none => ⟨-1, data, offset⟩
        | some n =>
            -- a read that is not at the end of the file transfers at least one byte
            let chunk := (file.drop offset).take (min (max n 1) (count - data.length))
            if chunk.length = 0 then ⟨data.length, data, offset⟩
            else readExactLoop sys file count fuel (offset + chunk.length) (data ++ chunk)
      else ⟨data.length, data, offset⟩

/-- `count` passes are enough: every pass but the last stores a byte. -/
def readExact (sys : Sys) (file : Bytes) (offset count : Nat) : ReadExact :=
  readExactLoop sys file count count offset []

/-- What the parse loop does outside its own control flow. -/
inductive Fault where
  | heapOverflow
  | outOfFuel
deriving DecidableEq, Repr

/-- `malloc(len + 1)` in `uint32_t`, `read_exact` of `len` bytes into the block,
and the terminator at index `len`. `none` is a `break` of the parse loop. -/
def readString (sys : Sys) (file : Bytes) (malloc : Bool) (offset len : Nat) :
    Except Fault (Option Bytes × Nat) :=
  let block := (len + 1) % 2 ^ 32
  if malloc = false then .ok (none, offset)
  else
    let r := readExact sys file offset len
    if block < r.data.length then .error .heapOverflow
    else if r.ret ≠ len then .ok (none, r.offset)
    else if block ≤ len then .error .heapOverflow
    else .ok (some r.data, r.offset)

/-- `struct entry`: the bytes of `key` and of `value`; `value_len` is the length
of the latter, and `key_len` is never read. -/
abbrev Entry := Bytes × Bytes

/-- The reads of one pass of the parse loop; `none` is a `break`. -/
def readRecord (sys : Sys) (file : Bytes) (offset : Nat) : Except Fault (Option Entry × Nat) :=
  let rk := readExact sys file offset 4
  if rk.ret ≠ 4 then .ok (none, rk.offset)
  else
    let rv := readExact sys file rk.offset 4
    if rv.ret ≠ 4 then .ok (none, rv.offset)
    else
      match readString sys file (sys.mallocKey offset) rv.offset (fromLe rk.data) with
      | .error e => .error e
      | .ok (none, offset) => .ok (none, offset)
      | .ok (some key, offset') =>
          match readString sys file (sys.mallocValue offset) offset' (fromLe rv.data) with
          | .error e => .error e
          | .ok (none, offset) => .ok (none, offset)
          | .ok (some value, offset) => .ok (some (key, value), offset)

/-- The loop over `entries`: the first entry whose key is `strcmp`-equal gets the
value. `none` is `found == 0`. -/
def updateEntry (key value : Bytes) : List Entry → Option (List Entry)
  | [] => none
  | e :: es =>
      if cstr e.1 = cstr key then some ((e.1, value) :: es)
      else (updateEntry key value es).map (e :: ·)

/-- The `while (1)` loop of `kvdb_get`, from an offset and the entries so far. -/
def parseLoop (sys : Sys) (file : Bytes) :
    Nat → Nat → List Entry → Except Fault (List Entry × Nat)
  | 0, _, _ => .error .outOfFuel
  | fuel + 1, offset, entries =>
      match readRecord sys file offset with
      | .error e => .error e
      | .ok (none, offset) => .ok (entries, offset)
      | .ok (some (key, value), offset') =>
          match updateEntry key value entries with
          | some entries => parseLoop sys file fuel offset' entries
          | none =>
              if sys.reallocEntries offset then
                parseLoop sys file fuel offset' (entries ++ [(key, value)])
              else .ok (entries, offset')

/-- Conversion of a `ssize_t` to the `int` that `kvdb_get` returns. -/
def toInt (n : Nat) : Int := Int.bmod n (2 ^ 32)

/-- What `kvdb_get` gives its caller: the return value and the bytes stored
through `buf`, from index 0 on. -/
structure GetResult where
  ret : Int
  stored : Bytes
deriving DecidableEq

/-- The lookup loop and the copy; `length - 1` is `size_t` arithmetic. -/
def copyOut (key : CString) (length : UInt64) : List Entry → GetResult
  | [] => ⟨-1, []⟩
  | e :: es =>
      if cstr e.1 = key.bytes then
        let toCopy := if e.2.length > (length - 1).toNat then (length - 1).toNat else e.2.length
        ⟨toInt toCopy, e.2.take toCopy ++ [0]⟩
      else copyOut key length es

def kvdbGet (sys : Sys) (db : Kvdb) (key : CString) (length : UInt64) :
    Except Fault (GetResult × Kvdb) :=
  let flushed := flushBuffer sys db
  if flushed.1 < 0 then .ok (⟨-1, []⟩, flushed.2)
  else if sys.lseek = false then .ok (⟨-1, []⟩, flushed.2)
  else
    match parseLoop sys flushed.2.file (flushed.2.file.length + 1) 0 [] with
    | .error e => .error e
    | .ok (entries, offset) =>
        .ok (copyOut key length entries, { flushed.2 with offset := offset })

/-! ### Sessions -/

/-- `kvdb_open` on a file with the given contents (empty when it is created);
`none` is the return value `-1`. -/
def kvdbOpen (sys : Sys) (file : Bytes) : Option Kvdb :=
  if sys.openFile = false then none
  else if sys.strdup = false then none
  else some ⟨file, 0, ⟨[], 0⟩⟩

/-- `kvdb_close`: the return value and the file that is left. The outcome of the
flush is ignored. -/
def kvdbClose (sys : Sys) (db : Kvdb) : Int × Bytes :=
  (if sys.closeFile then 0 else -1, (flushBuffer sys db).2.file)

/-- A call on an open handle. -/
inductive Call where
  | put (key value : CString)
  | flush
  | get (key : CString) (length : UInt64)

/-- The return value of a call and the handle after it. -/
def Call.exec (sys : Sys) (db : Kvdb) : Call → Except Fault (Int × Kvdb)
  | .put key value => .ok (kvdbPut sys db key value)
  | .flush => .ok (kvdbFlush sys db)
  | .get key length => (kvdbGet sys db key length).map fun r => (r.1.ret, r.2)

/-- A sequence of calls on one handle, each with its own kernel answers. -/
def run : Kvdb → List (Sys × Call) → Except Fault Kvdb
  | db, [] => .ok db
  | db, (sys, call) :: calls =>
      match call.exec sys db with
      | .error e => .error e
      | .ok (_, db) => run db calls

end NjuOs.Libkvdb
