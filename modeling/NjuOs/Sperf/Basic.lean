import Mathlib.Data.Rat.Init
import Mathlib.Algebra.Order.Ring.Rat
import Mathlib.Data.List.Sort
import NjuOs.Lib.Bytes
import NjuOs.Lib.Scanner

/-!
`sperf`: the parent that reads the output of `strace -T` and adds up the times.

`process_parent` reads a character at a time, at four calls of `getchar`; where
the program is between two of them is a `Control`. What `scan` emits are the
arguments of `update_trace`. A `char` is signed, so the byte 255 ends the main
loop as the end of the input does; behind the end of the input the loops stop
without another update.

Times are rational numbers. Writing outside of `buffer` or of `sys_trace` is
`none`. The answers of `update_time` are a parameter, as they decide after which
records the table is sorted, and so is what `qsort` does (`Host`).
-/

namespace NjuOs.Sperf

open NjuOs.Lib

/-! ### Characters -/

section Chars

def equals : UInt8 := 0x3D

def less : UInt8 := 0x3C

def greater : UInt8 := 0x3E

/-- A `char` that is equal to `EOF`. -/
def eof : UInt8 := 0xFF

def isDigit (c : UInt8) : Bool := 0x30 ≤ c && c ≤ 0x39

/-- The characters that are stored as part of a time. -/
def isTimeChar (c : UInt8) : Bool := c = dot || isDigit c

end Chars

/-- The number that some digits spell. -/
def digits (bs : Bytes) : Nat := bs.foldl (fun n b => 10 * n + (b.toNat - 0x30)) 0

/-- `atof` of digits and dots: it stops at the second dot. -/
def atof (bs : Bytes) : ℚ :=
  let rest := bs.dropWhile isDigit
  let fraction := if rest.head? = some dot then rest.tail.takeWhile isDigit else []
  digits (bs.takeWhile isDigit) + digits fraction / 10 ^ fraction.length

/-! ### The trace -/

structure SysTrace where
  name : CString
  time : ℚ

/-- The length of `sys_trace`. -/
def maxTraces : Nat := 400

def findTrace (sysTrace : List SysTrace) (name : CString) : Option Nat :=
  sysTrace.findIdx? fun t => t.name = name

/-- `ptrace->time += time`. -/
def addTime (sysTrace : List SysTrace) (ptrace : Nat) (time : ℚ) : List SysTrace :=
  sysTrace.modify ptrace fun t => { t with time := t.time + time }

def traceCompar (a b : SysTrace) : Bool := a.time < b.time

/-- A call of `qsort` with `trace_compar`. The comparison is not one that obliges `qsort` to any
order; the elements stay the same. -/
structure Qsort where
  sort : List SysTrace → List SysTrace
  perm : ∀ sysTrace, (sort sysTrace).Perm sysTrace

/-- A merge sort that prefers the element on the left unless the comparison is positive. -/
def Qsort.merge : Qsort where
  sort sysTrace := sysTrace.mergeSort fun a b => !traceCompar a b
  perm sysTrace := List.mergeSort_perm sysTrace _

/-- What the program gets from outside: the answers of `update_time`, and what `qsort` does when
so many records were counted before. -/
structure Host where
  updateTime : Nat → Bool
  qsort : Nat → Qsort

def Host.merging (updateTime : Nat → Bool) : Host := ⟨updateTime, fun _ => Qsort.merge⟩

/-- The used part of `sys_trace`. -/
structure Table where
  entries : List SysTrace
  distinct : (entries.map SysTrace.name).Nodup
  bounded : entries.length ≤ maxTraces

theorem names_addTime (sysTrace : List SysTrace) (ptrace : Nat) (time : ℚ) :
    (addTime sysTrace ptrace time).map SysTrace.name = sysTrace.map SysTrace.name := by
  rw [addTime]
  induction sysTrace generalizing ptrace with
  | nil => simp
  | cons t sysTrace ih => cases ptrace <;> simp [ih]

theorem findTrace_eq_none {sysTrace : List SysTrace} {name : CString} :
    findTrace sysTrace name = none ↔ name ∉ sysTrace.map SysTrace.name := by
  simp [findTrace, List.findIdx?_eq_none_iff]

def Table.empty : Table := ⟨[], List.nodup_nil, Nat.zero_le _⟩

def Table.addTime (table : Table) (ptrace : Nat) (time : ℚ) : Table where
  entries := Sperf.addTime table.entries ptrace time
  distinct := names_addTime table.entries ptrace time ▸ table.distinct
  bounded := by
    rw [Sperf.addTime, List.length_modify]
    exact table.bounded

/-- A new entry behind the last one. -/
def Table.push (table : Table) (name : CString) (hnew : findTrace table.entries name = none)
    (hroom : table.entries.length < maxTraces) : Table where
  entries := table.entries ++ [⟨name, 0⟩]
  distinct := by
    rw [List.map_append]
    exact List.nodup_append'.mpr ⟨table.distinct, List.nodup_singleton _, by
      simpa using findTrace_eq_none.mp hnew⟩
  bounded := by
    rw [List.length_append]
    exact hroom

def Table.sort (qsort : Qsort) (table : Table) : Table where
  entries := qsort.sort table.entries
  distinct := ((qsort.perm table.entries).map _).nodup_iff.mpr table.distinct
  bounded := (qsort.perm table.entries).length_eq ▸ table.bounded

/-- `sys_trace` and `total_time`, and how often `update_time` was called. -/
structure Traces where
  table : Table
  totalTime : ℚ
  updates : Nat

def Traces.start : Traces := ⟨Table.empty, 0, 0⟩

def updateTrace (traces : Traces) (t : SysTrace) : Option Traces :=
  match hfind : findTrace traces.table.entries t.name with
  | some ptrace =>
      some { traces with
        table := traces.table.addTime ptrace t.time, totalTime := traces.totalTime + t.time }
  | none =>
      if hroom : traces.table.entries.length < maxTraces then
        some { traces with
          table := (traces.table.push t.name hfind hroom).addTime traces.table.entries.length t.time
          totalTime := traces.totalTime + t.time }
      else none

/-- `display_trace`, of which only the sorting stays. -/
def displayTrace (qsort : Qsort) (traces : Traces) : Traces :=
  { traces with table := traces.table.sort qsort }

/-- A record is counted, and the table is displayed if the timer says so. -/
def record (host : Host) (traces : Traces) (t : SysTrace) : Option Traces :=
  (updateTrace traces t).map fun traces =>
    let traces' := { traces with updates := traces.updates + 1 }
    if host.updateTime traces.updates then displayTrace (host.qsort traces.updates) traces'
    else traces'

/-! ### The scanner -/

inductive TraceState where
  | initial | processing | final
deriving DecidableEq, Repr

/-- The call of `getchar` that the program is at. -/
inductive Control where
  /-- `while ((c = getchar()) != EOF)` -/
  | loop (state : TraceState)
  /-- `SKIP_WHITESPACE()` -/
  | skip
  /-- `while ((c = getchar()) != '>')` -/
  | time
  /-- `if ((c = getchar()) != '\n')` -/
  | newline
  /-- Behind the main loop. -/
  | done
deriving DecidableEq, Repr

/-- The locals of `process_parent`: `buffer` is what lies below `buffer_pos`, and
`name` is `current_trace.name`. -/
structure Parent where
  control : Control
  buffer : Bytes
  name : CString
deriving DecidableEq

/-- The length of `buffer`. -/
def bufferSize : Nat := 32

/-- `if (buffer_pos == 32) buffer_pos = 0;` -/
def wrap (buffer : Bytes) : Bytes := if buffer.length = bufferSize then [] else buffer

def Parent.goto (s : Parent) (control : Control) : Parent := { s with control }

/-- What the program does with a character, up to its next `getchar`. -/
def step (s : Parent) (c : UInt8) : Option (Parent × List SysTrace) :=
  match s.control with
  | .loop state =>
      if c = eof then some (s.goto .done, [])
      else match state with
        | .initial =>
            if c ≠ lparen then some ({ s with buffer := wrap (s.buffer ++ [c]) }, [])
            else some (⟨.loop .processing, [], readString s.buffer⟩, [])
        | .processing =>
            if c = rparen then some (s.goto .skip, []) else some (s, [])
        | .final =>
            if c = less then some (s.goto .time, []) else some (s, [])
  | .skip =>
      if c = space then some (s, [])
      else if c = equals then some (s.goto (.loop .final), [])
      else some (s.goto (.loop .processing), [])
  | .time =>
      if c = greater then some (s.goto .newline, [])
      else if !isTimeChar c then some (s.goto .newline, [])
      else if s.buffer.length < bufferSize then some ({ s with buffer := s.buffer ++ [c] }, [])
      else none
  | .newline =>
      if c ≠ newline then some (s.goto (.loop .processing), [])
      else if s.buffer.length < bufferSize then
        some (⟨.loop .initial, [], s.name⟩, [⟨s.name, atof s.buffer⟩])
      else none
  | .done => some (s, [])

/-- The name is not read before it is set. -/
def Parent.start : Parent := ⟨.loop .initial, [], default⟩

/-- `sys_trace` and `total_time` when `process_parent` returns. -/
def processParent (host : Host) (input : Bytes) : Option Traces :=
  (scan step Parent.start input).bind fun out =>
    (out.2.foldlM (record host) Traces.start).map fun traces =>
      displayTrace (host.qsort traces.updates) traces

end NjuOs.Sperf
