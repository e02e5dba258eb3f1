import NjuOs.Lib.Linked
import NjuOs.Lib.Tiling
import NjuOs.Lib.Run

/-!
`mymalloc` and `myfree`, as the interleaved steps of any number of threads.

A thread is named by its id. A step is an unlocked read, a lock operation or
the section behind it up to the next lock operation, as the code runs under
sequential consistency. Memory is seen through the block headers; the callers
write to their payloads only. What `vmalloc` answers is part of the label of the
step that calls it.

`heapLock` and `globalLock` name the thread that has the lock, where the code
has a flag. `regions`, `blocks` and `grants` are records of what happened:
the regions that `vmalloc` gave out, the addresses where a header was set up and
the pointers that were returned. Steps do not read them, with one exception: a
search of a list gives up after more passes than there are headers, because then
the list is cyclic and the loop in C does not end either.
-/

namespace NjuOs.Mymalloc

open NjuOs.Lib

/-! ### Arithmetic -/

/-- The range of `size_t`, 2^64. -/
def sizeMod : Nat := 18446744073709551616

/-- `STRUCTSIZE`. -/
def structSize : Nat := 24

def maxThreads : Nat := 64

def initialChunkSize : Nat := 4 * 4096

/-- The payload of a block that a refill carves. -/
def blockSize : Nat := 4096

/-- `(n + 7) & ~7`. -/
def align8 (n : Nat) : Nat := (n + 7) % sizeMod / 8 * 8

/-- `a - b` in `size_t`. -/
def sub64 (a b : Nat) : Nat := (a + (sizeMod - b % sizeMod)) % sizeMod

/-- `((size + STRUCTSIZE + 4095) / 4096) * 4096`. -/
def alignedLength (size : Nat) : Nat := (size + structSize + 4095) % sizeMod / 4096 * 4096

/-- The index in `thread_heaps` of a thread's heap. -/
def heapOf (tid : Nat) : Nat := tid % maxThreads

/-- The block that is split off behind `size` bytes of `curr`, if it is: its
address and its length. -/
def splitRemain (curr size length : Nat) : Option (Nat × Nat) :=
  if length > (size + structSize) % sizeMod then
    let newRemain := align8 (curr + structSize + size)
    let remaining := sub64 (curr + structSize + length) newRemain
    if remaining ≥ structSize then some (newRemain, remaining - structSize) else none
  else none

/-! ### State -/

/-- `struct block`. -/
structure Block where
  length : Nat
  next : Nat
  ownerTid : Nat
deriving DecidableEq, Repr

/-- Where a thread is in `mymalloc`, with its locals: `curr`, `remain` and
`new_remain` are addresses of headers. Each constructor stands before the action
it names. -/
inductive Pc where
  | idle
  /-- `curr = heap->head;` -/
  | readHead
  /-- `if (heap->head == NULL)`, outside the lock. -/
  | testHead (curr : Nat)
  | lockRefill (curr : Nat)
  /-- The section behind the heap lock, up to the global one. -/
  | refill (curr : Nat)
  | lockPushRemain (curr remain : Nat)
  | pushRemain (curr remain : Nat)
  | unlockPushRemain (curr : Nat)
  | unlockRefill (curr : Nat)
  | lockLocal (curr : Nat)
  /-- The search of the local list and what follows a hit, up to the unlock. -/
  | scanLocal (curr : Nat)
  /-- `spin_unlock(&heap->lock); return ret;` -/
  | returnLocal (curr : Nat)
  | unlockLocal
  | lockGlobal
  /-- The search of the global list and what follows a hit, up to the heap lock. -/
  | scanGlobal
  | lockSplit (curr newRemain : Nat)
  | pushSplit (curr newRemain : Nat)
  | unlockSplit (curr : Nat)
  /-- `curr->length = size;` -/
  | setLength (curr : Nat)
  /-- `spin_unlock(&global_lock); if (ret) return ret;` -/
  | unlockGlobal (ret : Option Nat)
  /-- The fallback to a page-rounded block. -/
  | fallback
deriving DecidableEq, Repr

/-- A thread: the size it asked for, the local `size`, and where it is. -/
structure Thread where
  request : Nat
  size : Nat
  pc : Pc
deriving DecidableEq, Repr

/-- A pointer that was returned: the block in front of it, and the size asked for. -/
structure Grant where
  block : Nat
  request : Nat
deriving DecidableEq, Repr

def Grant.ptr (g : Grant) : Nat := g.block + structSize

structure State where
  mem : Nat → Block
  /-- `thread_heaps[i].head`. -/
  head : Nat → Nat
  heapLock : Nat → Option Nat
  globalFreeList : Nat
  globalLock : Option Nat
  threads : Nat → Thread
  regions : List Region
  blocks : List Nat
  grants : List Grant

/-- Before the first call. -/
def init : State where
  mem _ := ⟨0, 0, 0⟩
  head _ := 0
  heapLock _ := none
  globalFreeList := 0
  globalLock := none
  threads _ := ⟨0, 0, .idle⟩
  regions := []
  blocks := []
  grants := []

/-- The successor of a header in its list. -/
def State.next (s : State) (b : Nat) : Nat := (s.mem b).next

def State.setPc (s : State) (tid : Nat) (pc : Pc) : State :=
  { s with threads := Function.update s.threads tid { s.threads tid with pc := pc } }

def State.setLength (s : State) (b length : Nat) : State :=
  { s with mem := Function.update s.mem b { s.mem b with length := length } }

def State.setNext (s : State) (b next : Nat) : State :=
  { s with mem := Function.update s.mem b { s.mem b with next := next } }

def State.setOwner (s : State) (b tid : Nat) : State :=
  { s with mem := Function.update s.mem b { s.mem b with ownerTid := tid } }

def State.setHead (s : State) (heap b : Nat) : State :=
  { s with head := Function.update s.head heap b }

/-- The thread returns the pointer behind the header of `b`. -/
def State.ret (s : State) (tid b : Nat) : State :=
  { s.setPc tid .idle with grants := s.grants ++ [⟨b, (s.threads tid).request⟩] }

/-! ### Steps -/

/-- A search of a list for a block of at least `size` bytes, from `curr` on: the
block that precedes the hit, and the hit. -/
def State.search (s : State) (curr size : Nat) : Option (Nat × Nat) :=
  seek 0 s.next (fun b => decide (size ≤ (s.mem b).length)) (s.blocks.length + 1) 0 curr

/-- The loop that carves a chunk into blocks of `blockSize` and pushes them. -/
def carve (heap tid limit : Nat) : Nat → Nat → State → State × Nat
  | 0, current, s => (s, current)
  | fuel + 1, current, s =>
      if current + structSize + blockSize ≤ limit then
        carve heap tid limit fuel (current + structSize + blockSize)
          { s with
            mem := Function.update s.mem current (Block.mk blockSize (s.head heap) tid)
            head := Function.update s.head heap current
            blocks := s.blocks ++ [current] }
      else (s, current)

/-- What the refill does with the chunk that `vmalloc` gave it. -/
def refillChunk (s : State) (tid curr chunk : Nat) : State :=
  let s : State := { s with regions := s.regions ++ [⟨chunk, initialChunkSize⟩] }
  let limit := chunk + initialChunkSize
  let carved := carve (heapOf tid) tid limit (initialChunkSize / blockSize) chunk s
  let s := carved.1
  let remain := carved.2
  if limit - remain ≥ structSize then
    let s := { s with blocks := s.blocks ++ [remain] }
    let s := (s.setLength remain (limit - remain - structSize)).setOwner remain tid
    s.setPc tid (.lockPushRemain curr remain)
  else s.setPc tid (.unlockRefill curr)

/-- A hit in the local list: take it out, and push what is split off. -/
def takeLocal (s : State) (tid prev curr : Nat) : State :=
  let heap := heapOf tid
  let size := (s.threads tid).size
  let s := if prev ≠ 0 then s.setNext prev (s.next curr) else s.setHead heap (s.next curr)
  let s :=
    match splitRemain curr size (s.mem curr).length with
    | none => s
    | some (newRemain, length) =>
        { s with
          mem := Function.update
            (Function.update s.mem newRemain (Block.mk length (s.head heap) tid)) curr
            { s.mem curr with length := size }
          head := Function.update s.head heap newRemain
          blocks := s.blocks ++ [newRemain] }
  s.setPc tid (.returnLocal curr)

/-- A hit in the global list: take it out, and set up what is split off. -/
def takeGlobal (s : State) (tid prev curr : Nat) : State :=
  let size := (s.threads tid).size
  let s :=
    if prev ≠ 0 then s.setNext prev (s.next curr) else { s with globalFreeList := s.next curr }
  let s := s.setOwner curr tid
  match splitRemain curr size (s.mem curr).length with
  | none => s.setPc tid (.unlockGlobal (some curr))
  | some (newRemain, length) =>
      ({ s with blocks := s.blocks ++ [newRemain] }.setLength newRemain length).setPc tid
        (.lockSplit curr newRemain)

/-- A step of a thread inside `mymalloc`; `vm` is the answer of `vmalloc`, null
when it fails, in the steps that call it. A lock is only passed when it is free. -/
def threadStep (s : State) (tid vm : Nat) : Option State :=
  let heap := heapOf tid
  let size := (s.threads tid).size
  match (s.threads tid).pc with
  | .idle => none
  | .readHead => some (s.setPc tid (.testHead (s.head heap)))
  | .testHead curr =>
      some (s.setPc tid (if s.head heap = 0 then .lockRefill curr else .lockLocal curr))
  | .lockRefill curr =>
      if s.heapLock heap = none then
        some ({ s with heapLock := Function.update s.heapLock heap (some tid) }.setPc tid
          (.refill curr))
      else none
  | .refill curr =>
      if s.head heap = 0 ∧ vm ≠ 0 then some (refillChunk s tid curr vm)
      else some (s.setPc tid (.unlockRefill curr))
  | .lockPushRemain curr remain =>
      if s.globalLock = none then
        some ({ s with globalLock := some tid }.setPc tid (.pushRemain curr remain))
      else none
  | .pushRemain curr remain =>
      some ({ s.setNext remain s.globalFreeList with globalFreeList := remain }.setPc tid
        (.unlockPushRemain curr))
  | .unlockPushRemain curr => some ({ s with globalLock := none }.setPc tid (.unlockRefill curr))
  | .unlockRefill curr =>
      some ({ s with heapLock := Function.update s.heapLock heap none }.setPc tid (.lockLocal curr))
  | .lockLocal curr =>
      if s.heapLock heap = none then
        some ({ s with heapLock := Function.update s.heapLock heap (some tid) }.setPc tid
          (.scanLocal curr))
      else none
  | .scanLocal curr =>
      (s.search curr size).map fun hit =>
        if hit.2 = 0 then s.setPc tid .unlockLocal else takeLocal s tid hit.1 hit.2
  | .returnLocal curr =>
      some ({ s with heapLock := Function.update s.heapLock heap none }.ret tid curr)
  | .unlockLocal =>
      some ({ s with heapLock := Function.update s.heapLock heap none }.setPc tid .lockGlobal)
  | .lockGlobal =>
      if s.globalLock = none then some ({ s with globalLock := some tid }.setPc tid .scanGlobal)
      else none
  | .scanGlobal =>
      (s.search s.globalFreeList size).map fun hit =>
        if hit.2 = 0 then s.setPc tid (.unlockGlobal none) else takeGlobal s tid hit.1 hit.2
  | .lockSplit curr newRemain =>
      if s.heapLock heap = none then
        some ({ s with heapLock := Function.update s.heapLock heap (some tid) }.setPc tid
          (.pushSplit curr newRemain))
      else none
  | .pushSplit curr newRemain =>
      some (((s.setNext newRemain (s.head heap)).setHead heap newRemain).setPc tid
        (.unlockSplit curr))
  | .unlockSplit curr =>
      some ({ s with heapLock := Function.update s.heapLock heap none }.setPc tid (.setLength curr))
  | .setLength curr => some ((s.setLength curr size).setPc tid (.unlockGlobal (some curr)))
  | .unlockGlobal none => some ({ s with globalLock := none }.setPc tid .fallback)
  | .unlockGlobal (some curr) => some ({ s with globalLock := none }.ret tid curr)
  | .fallback =>
      if vm = 0 then some (s.setPc tid .idle)
      else
        let length := alignedLength size
        let s : State := { s with
          mem := Function.update s.mem vm (Block.mk (sub64 length structSize) 0 tid)
          regions := s.regions ++ [⟨vm, length⟩]
          blocks := s.blocks ++ [vm] }
        some (s.ret tid vm)

inductive Act where
  /-- A thread calls `mymalloc(size)`. -/
  | malloc (tid size : Nat)
  /-- A thread calls `myfree(ptr)`. -/
  | free (tid ptr : Nat)
  | run (tid vm : Nat)
deriving DecidableEq, Repr

/-- `mymalloc(0)` returns null at once, and `myfree` does nothing. -/
def step (s : State) : Act → Option State
  | .malloc tid size =>
      if (s.threads tid).pc ≠ .idle then none
      else if size = 0 then some s
      else some { s with
        threads := Function.update s.threads tid (Thread.mk size (align8 size) .readHead) }
  | .free tid _ => if (s.threads tid).pc ≠ .idle then none else some s
  | .run tid vm => threadStep s tid vm

def Act.tid : Act → Nat
  | .malloc tid _ | .free tid _ | .run tid _ => tid

/-! ### What `vmalloc` may answer -/

/-- Null, or a page-aligned region apart from all earlier ones. A request for no
bytes is answered with null. -/
def State.VmallocOk (s : State) (vm length : Nat) : Prop :=
  vm = 0 ∨ 0 < length ∧ vm % 4096 = 0 ∧ vm + length ≤ sizeMod ∧
    ∀ r ∈ s.regions, Region.Apart ⟨vm, length⟩ r

instance (s : State) (vm length : Nat) : Decidable (s.VmallocOk vm length) :=
  inferInstanceAs (Decidable (_ ∨ _))

/-- The length that the next step of a thread asks `vmalloc` for, if it does. -/
def State.vmallocAt (s : State) (tid : Nat) : Option Nat :=
  match (s.threads tid).pc with
  | .refill _ => if s.head (heapOf tid) = 0 then some initialChunkSize else none
  | .fallback => some (alignedLength (s.threads tid).size)
  | _ => none

/-- The answer of `vmalloc` in this step, if it is called, is one it may give. -/
def Act.Fresh (s : State) : Act → Prop
  | .run tid vm => ∀ length ∈ s.vmallocAt tid, s.VmallocOk vm length
  | _ => True

instance (s : State) : (a : Act) → Decidable (a.Fresh s)
  | .malloc _ _ => inferInstanceAs (Decidable True)
  | .free _ _ => inferInstanceAs (Decidable True)
  | .run _ _ => inferInstanceAs (Decidable (∀ _ ∈ _, _))

/-! ### The pieces of a step -/

def State.pc (s : State) (tid : Nat) : Pc := (s.threads tid).pc

/-- Three blocks fit in a chunk. -/
theorem carve_chunk (heap tid chunk : Nat) (s : State) :
    carve heap tid (chunk + initialChunkSize) 4 chunk s =
      ({ s with
        mem := Function.update (Function.update (Function.update s.mem
          chunk (Block.mk 4096 (s.head heap) tid))
          (chunk + 4120) (Block.mk 4096 chunk tid))
          (chunk + 8240) (Block.mk 4096 (chunk + 4120) tid)
        head := Function.update s.head heap (chunk + 8240)
        blocks := s.blocks ++ [chunk, chunk + 4120, chunk + 8240] }, chunk + 12360) := by
  simp only [carve, structSize, blockSize, initialChunkSize, Nat.reduceMul, Nat.add_assoc,
    Nat.reduceAdd, Nat.add_le_add_iff_left, Nat.reduceLeDiff, if_true, if_false,
    Function.update_idem, Function.update_self, List.append_assoc, List.cons_append,
    List.nil_append]

/-- A refill carves three blocks and leaves a shorter one for the global list. -/
theorem refillChunk_eq (s : State) (tid curr chunk : Nat) :
    refillChunk s tid curr chunk =
      { s with
        regions := s.regions ++ [⟨chunk, 16384⟩]
        mem := Function.update (Function.update (Function.update (Function.update s.mem
          chunk (Block.mk 4096 (s.head (heapOf tid)) tid))
          (chunk + 4120) (Block.mk 4096 chunk tid))
          (chunk + 8240) (Block.mk 4096 (chunk + 4120) tid))
          (chunk + 12360) (Block.mk 4000 (s.mem (chunk + 12360)).next tid)
        head := Function.update s.head (heapOf tid) (chunk + 8240)
        blocks := s.blocks ++ [chunk, chunk + 4120, chunk + 8240, chunk + 12360]
        threads := Function.update s.threads tid
          { s.threads tid with pc := .lockPushRemain curr (chunk + 12360) } } := by
  have hfuel : initialChunkSize / blockSize = 4 := rfl
  have hsub : chunk + initialChunkSize - (chunk + 12360) = 4024 := by
    rw [initialChunkSize]
    omega
  have hge : 4024 ≥ structSize := by decide
  have hlen : 4024 - structSize = 4000 := rfl
  have hnext : ∀ {b c d : Block}, Function.update (Function.update (Function.update s.mem chunk b)
      (chunk + 4120) c) (chunk + 8240) d (chunk + 12360) = s.mem (chunk + 12360) := by
    intro b c d
    rw [Function.update_of_ne (by omega), Function.update_of_ne (by omega),
      Function.update_of_ne (by omega)]
  simp only [refillChunk, hfuel, carve_chunk, hsub, if_pos hge, hlen, State.setLength,
    State.setOwner, State.setPc, Function.update_self, Function.update_idem, List.append_assoc,
    List.cons_append, List.nil_append, hnext]
  rfl

theorem takeLocal_threads (s : State) (tid prev curr : Nat) :
    (takeLocal s tid prev curr).threads =
      Function.update s.threads tid { s.threads tid with pc := .returnLocal curr } := by
  unfold takeLocal
  dsimp only
  split <;> split <;> rfl

theorem takeLocal_frame (s : State) (tid prev curr : Nat) :
    (takeLocal s tid prev curr).heapLock = s.heapLock ∧
      (takeLocal s tid prev curr).globalLock = s.globalLock ∧
      (takeLocal s tid prev curr).grants = s.grants := by
  unfold takeLocal
  dsimp only
  split <;> split <;> exact ⟨rfl, rfl, rfl⟩

theorem takeLocal_head_other (s : State) (tid prev curr : Nat) {heap : Nat}
    (hne : heap ≠ heapOf tid) : (takeLocal s tid prev curr).head heap = s.head heap := by
  unfold takeLocal
  dsimp only
  split <;> split <;> simp [State.setPc, State.setNext, State.setHead, hne]

theorem takeGlobal_head (s : State) (tid prev curr : Nat) :
    (takeGlobal s tid prev curr).head = s.head := by
  unfold takeGlobal
  dsimp only
  split <;> split <;> rfl

theorem takeGlobal_frame (s : State) (tid prev curr : Nat) :
    (takeGlobal s tid prev curr).heapLock = s.heapLock ∧
      (takeGlobal s tid prev curr).globalLock = s.globalLock ∧
      (takeGlobal s tid prev curr).grants = s.grants := by
  unfold takeGlobal
  dsimp only
  split <;> split <;> exact ⟨rfl, rfl, rfl⟩

theorem takeGlobal_threads (s : State) (tid prev curr : Nat) :
    ∃ pc, (takeGlobal s tid prev curr).threads =
        Function.update s.threads tid { s.threads tid with pc := pc } ∧
      (pc = .unlockGlobal (some curr) ∨ ∃ newRemain, pc = .lockSplit curr newRemain) := by
  unfold takeGlobal
  dsimp only
  split <;> split <;> first
    | exact ⟨_, rfl, .inl rfl⟩
    | exact ⟨_, rfl, .inr ⟨_, rfl⟩⟩

end NjuOs.Mymalloc
