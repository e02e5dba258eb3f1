import NjuOs.Mymalloc.Tiled

/-!
Does `mymalloc` look at all free blocks before it asks for more?

`curr` is read before the refill, and the line that would read it again behind the
lock is a comment. A call that refills its heap searches it from a null pointer,
and finds none of the blocks that it has just put there. Every other call that
comes to the fallback has seen its whole heap and the whole global list
(`free_first_iff`).
-/

namespace NjuOs.Mymalloc

open NjuOs.Lib

/-- No block in a list has so many bytes. -/
def State.NoFitIn (s : State) (f : FreeList) (size : Nat) : Prop :=
  ∀ b, s.At (.list f) b → s.length b < size

/-- Neither the heap of the thread nor the global list has a block for the size. -/
def State.NoFit (s : State) (t size : Nat) : Prop :=
  s.NoFitIn (.heap (heapOf t)) size ∧ s.NoFitIn .global size

/-- A call that begins in `s₀` finds its heap empty, and `vmalloc` gives it a chunk:
that is what the call asks for in its fourth step. -/
def Refilled (s₀ : State) (t : Nat) (acts : List Act) : Prop :=
  s₀.head (heapOf t) = 0 ∧ ∃ chunk, chunk ≠ 0 ∧ acts[3]? = some (.run t chunk)

/-- A call that is at its fallback, or has returned null: no free block has room for
the size, and null means that `vmalloc` has just failed. -/
structure FreeFirst (s₀ s : State) (t size : Nat) (acts : List Act) : Prop where
  noFit : s.NoFit t (align8 size)
  failed : s.pc t = .idle → ∃ before u, acts = before ++ [.run t 0] ∧
    Runs step Sequential s₀ (.malloc t size :: before) u ∧ u.pc t = .fallback

/-! ### Complete searches -/

/-- A search that begins with the list and finds nothing has seen all of it. -/
theorem HeapOk.noFitIn {lossy : Prop} {l : Blocks} {s : State} (h : HeapOk lossy l s)
    {f : FreeList} {size last : Nat} (hmiss : s.search (s.first f) size = some (last, 0)) :
    s.NoFitIn f size := by
  obtain ⟨L, hL, hmem⟩ := h.list f
  have hfuel : L.length < s.blocks.length + 1 := Nat.lt_succ_of_le (h.length_le hL hmem)
  intro b hb
  have hbL : b ∈ L := hL.onList_iff.mp hb
  rcases @seek_cases _ 0 s.next _ (fun b => decide (size ≤ (s.mem b).length)) L _ 0 (s.first f) hL
    hfuel with
    ⟨-, -, hall⟩ | ⟨pre, c, post, rfl, -, -, hseek⟩
  · exact Nat.not_le.mp (of_decide_eq_false (hall b hbL))
  · rw [State.search, hseek] at hmiss
    cases hmiss
    exact absurd rfl (hL.ne_null 0 (by simp))

/-! ### The way to the fallback -/

/-- The heap of the thread is what a refill with this chunk made it. -/
structure FreshHeap (s : State) (t chunk : Nat) : Prop where
  list : Linked 0 s.next (s.head (heapOf t)) [chunk + 8240, chunk + 4120, chunk]
  length : ∀ b ∈ [chunk + 8240, chunk + 4120, chunk], s.length b = blockSize

/-- What the call knows of its heap behind the search: nothing fits, or it is fresh
and was not searched. The chunk is null when there was no refill. -/
def Searched (s : State) (t size chunk : Nat) : Prop :=
  if chunk = 0 then s.NoFitIn (.heap (heapOf t)) size else FreshHeap s t chunk

/-- And what it knows before the search: `curr` is the head of its heap, or the heap
is fresh and `curr` null. -/
def Searching (s : State) (t curr chunk : Nat) : Prop :=
  if chunk = 0 then curr = s.head (heapOf t) else curr = 0 ∧ FreshHeap s t chunk

/-- The answer of `vmalloc` to the refill, null when there is none. -/
structure Answer (s₀ : State) (t : Nat) (past : List Act) (chunk : Nat) : Prop where
  refill : s₀.head (heapOf t) = 0 → past[3]? = some (.run t chunk)
  none : s₀.head (heapOf t) ≠ 0 → chunk = 0

/-- Where a call that began in `s₀` has come, behind its steps so far. -/
def Way (s₀ : State) (t size : Nat) (past : List Act) (s : State) : Prop :=
  match s.pc t with
  | .readHead => past.length = 0 ∧ s.head (heapOf t) = s₀.head (heapOf t)
  | .testHead curr => past.length = 1 ∧ s.head (heapOf t) = s₀.head (heapOf t) ∧
      curr = s.head (heapOf t)
  | .lockRefill curr => past.length = 2 ∧ s₀.head (heapOf t) = 0 ∧ s.head (heapOf t) = 0 ∧ curr = 0
  | .refill curr => past.length = 3 ∧ s₀.head (heapOf t) = 0 ∧ s.head (heapOf t) = 0 ∧ curr = 0
  | .lockPushRemain curr remain | .pushRemain curr remain => ∃ chunk, Answer s₀ t past chunk ∧
      chunk ≠ 0 ∧ remain = chunk + 12360 ∧ Searching s t curr chunk
  | .unlockPushRemain curr | .unlockRefill curr | .lockLocal curr | .scanLocal curr =>
      ∃ chunk, Answer s₀ t past chunk ∧ Searching s t curr chunk
  | .unlockLocal | .lockGlobal | .scanGlobal =>
      ∃ chunk, Answer s₀ t past chunk ∧ Searched s t size chunk
  | .unlockGlobal none | .fallback =>
      ∃ chunk, Answer s₀ t past chunk ∧ Searched s t size chunk ∧ s.NoFitIn .global size
  -- the call has a block, or has returned
  | _ => True

theorem Answer.append {s₀ : State} {t chunk : Nat} {past : List Act}
    (h : Answer s₀ t past chunk) (a : Act) : Answer s₀ t (past ++ [a]) chunk where
  refill hempty := by
    have hthird := h.refill hempty
    rw [List.getElem?_append_left (List.getElem?_eq_some_iff.mp hthird).1]
    exact hthird
  none := h.none

/-- The fourth step of a call that found its heap empty is the refill. -/
theorem answer_refill {s₀ : State} {t vm : Nat} {past : List Act} (hpast : past.length = 3)
    (hempty : s₀.head (heapOf t) = 0) : Answer s₀ t (past ++ [.run t vm]) vm where
  refill _ := by rw [← hpast, List.getElem?_concat_length]
  none h := absurd hempty h

theorem Answer.refilled_iff {s₀ : State} {t chunk : Nat} {past : List Act}
    (h : Answer s₀ t past chunk) : Refilled s₀ t past ↔ chunk ≠ 0 := by
  by_cases hempty : s₀.head (heapOf t) = 0
  · simp [Refilled, hempty, h.refill hempty]
  · simp [Refilled, hempty, h.none hempty]

/-! ### Every step of the call -/

section Steps

variable {s₀ s s' : State} {t size : Nat} {past : List Act} {l : Blocks}

/-- A refill leaves its three blocks in the heap, and the rest of the chunk outside. -/
theorem freshHeap_refillChunk (curr chunk : Nat) (hhead : s.head (heapOf t) = 0)
    (hne : chunk ≠ 0) : FreshHeap (refillChunk s t curr chunk) t chunk := by
  rw [refillChunk_eq]
  constructor
  case list => simp [Linked, State.next, hhead, hne]
  case length => simp [State.length, blockSize]

/-- The rest is pushed, and the three blocks stay as they are. -/
theorem FreshHeap.pushRemain {chunk : Nat} (h : FreshHeap s t chunk) (next : Nat) :
    FreshHeap { s.setNext (chunk + 12360) next with globalFreeList := chunk + 12360 } t chunk := by
  have hmem : ∀ b ∈ [chunk + 8240, chunk + 4120, chunk],
      (s.setNext (chunk + 12360) next).mem b = s.mem b := by
    intro b hb
    apply Function.update_of_ne
    rintro rfl
    simp at hb
  constructor
  case list =>
    refine h.list.congr fun b hb => ?_
    rw [State.next, hmem b hb, State.next]
  case length =>
    intro b hb
    rw [State.length, hmem b hb]
    exact h.length b hb

/-- Locks and program counters are not part of the lists. -/
structure SameLists (s s' : State) : Prop where
  mem : s'.mem = s.mem
  head : s'.head = s.head
  global : s'.globalFreeList = s.globalFreeList

theorem SameLists.next (h : SameLists s s') : s'.next = s.next := by
  funext b
  rw [State.next, h.mem, State.next]

theorem SameLists.noFitIn (h : SameLists s s') {f : FreeList} (hfit : s.NoFitIn f size) :
    s'.NoFitIn f size := by
  have hfirst : s'.first f = s.first f := by
    cases f with
    | heap n => exact congrFun h.head n
    | global => exact h.global
  intro b hb
  rw [State.At, h.next, hfirst] at hb
  rw [State.length, h.mem]
  exact hfit b hb

theorem SameLists.freshHeap (h : SameLists s s') {chunk : Nat} (hfresh : FreshHeap s t chunk) :
    FreshHeap s' t chunk where
  list := by
    rw [h.next, h.head]
    exact hfresh.list
  length b hb := by
    rw [State.length, h.mem]
    exact hfresh.length b hb

theorem SameLists.searched (h : SameLists s s') {chunk : Nat}
    (hsearched : Searched s t size chunk) : Searched s' t size chunk := by
  unfold Searched at *
  split at hsearched
  case isTrue hchunk =>
    rw [if_pos hchunk]
    exact h.noFitIn hsearched
  case isFalse hchunk =>
    rw [if_neg hchunk]
    exact h.freshHeap hsearched

theorem SameLists.searching (h : SameLists s s') {curr chunk : Nat}
    (hsearching : Searching s t curr chunk) : Searching s' t curr chunk := by
  unfold Searching at *
  split at hsearching
  case isTrue hchunk =>
    rw [if_pos hchunk, h.head]
    exact hsearching
  case isFalse hchunk =>
    rw [if_neg hchunk]
    exact ⟨hsearching.1, h.freshHeap hsearching.2⟩

/-- The search of the heap finds nothing. -/
theorem Searching.searched {curr chunk last : Nat} (h : Searching s t curr chunk)
    {lossy : Prop} (hok : HeapOk lossy l s) (hmiss : s.search curr size = some (last, 0)) :
    Searched s t size chunk := by
  rw [Searching] at h
  rw [Searched]
  by_cases hchunk : chunk = 0
  · rw [if_pos hchunk] at h ⊢
    rw [h] at hmiss
    exact hok.noFitIn hmiss
  · rw [if_neg hchunk] at h ⊢
    exact h.2

theorem SameLists.goes (op : LockOp) (pc : Pc) : SameLists s ((s.lockOp t op).setPc t pc) :=
  ⟨s.lockOp_mem t op, s.lockOp_head t op, s.lockOp_globalFreeList t op⟩

/-- The moves between the lists: what a search has not seen is noted where it ends. -/
theorem Way.goes {vm : Nat} {op : LockOp} {pc pc' : Pc} (h : Way s₀ t size past s)
    (hok : HeapOk False l s) (hsize : (s.threads t).size = size) (hpc : s.pc t = pc)
    (hgoes : Goes s t vm op pc pc') :
    Way s₀ t size (past ++ [.run t vm]) ((s.lockOp t op).setPc t pc') := by
  have hlen : (past ++ [Act.run t vm]).length = past.length + 1 := List.length_append
  have hsame : SameLists s ((s.lockOp t op).setPc t pc') := .goes op pc'
  have hpc' : ((s.lockOp t op).setPc t pc').pc t = pc' := by simp [State.pc, State.setPc]
  rw [Way, hpc] at h
  rw [Way, hpc']
  generalize (s.lockOp t op).setPc t pc' = s' at hsame
  cases hgoes with
  | readHead =>
      rw [hsame.head]
      exact ⟨hlen.trans (congrArg (· + 1) h.1), h.2, rfl⟩
  | empty hempty =>
      obtain ⟨hpast, hhead, hcurr⟩ := h
      rw [hsame.head]
      exact ⟨hlen.trans (congrArg (· + 1) hpast), hhead ▸ hempty, hempty, hcurr.trans hempty⟩
  | filled hfilled =>
      obtain ⟨-, hhead, hcurr⟩ := h
      refine ⟨0, ⟨fun h => absurd (hhead.trans h) hfilled, fun _ => rfl⟩, ?_⟩
      rw [Searching, if_pos rfl, hsame.head]
      exact hcurr
  | lockRefill =>
      rw [hsame.head]
      exact ⟨hlen.trans (congrArg (· + 1) h.1), h.2⟩
  | noRefill hcall =>
      obtain ⟨hpast, hstart, hempty, rfl⟩ := h
      obtain rfl : vm = 0 := by_contra fun hvm => hcall ⟨hempty, hvm⟩
      refine ⟨0, answer_refill hpast hstart, ?_⟩
      rw [Searching, if_pos rfl, hsame.head]
      exact hempty.symm
  | lockPushRemain =>
      obtain ⟨chunk, hanswer, hne, hremain, hsearching⟩ := h
      exact ⟨chunk, hanswer.append _, hne, hremain, hsame.searching hsearching⟩
  | unlockPushRemain | unlockRefill | lockLocal =>
      obtain ⟨chunk, hanswer, hsearching⟩ := h
      exact ⟨chunk, hanswer.append _, hsame.searching hsearching⟩
  | missLocal hmiss =>
      obtain ⟨chunk, hanswer, hsearching⟩ := h
      rw [hsize] at hmiss
      exact ⟨chunk, hanswer.append _, hsame.searched (hsearching.searched hok hmiss)⟩
  | unlockLocal | lockGlobal =>
      obtain ⟨chunk, hanswer, hsearched⟩ := h
      exact ⟨chunk, hanswer.append _, hsame.searched hsearched⟩
  | missGlobal hmiss =>
      obtain ⟨chunk, hanswer, hsearched⟩ := h
      rw [hsize] at hmiss
      have hglobal : s.NoFitIn .global size := hok.noFitIn hmiss
      exact ⟨chunk, hanswer.append _, hsame.searched hsearched, hsame.noFitIn hglobal⟩
  | unlockGlobal =>
      obtain ⟨chunk, hanswer, hsearched, hglobal⟩ := h
      exact ⟨chunk, hanswer.append _, hsame.searched hsearched, hsame.noFitIn hglobal⟩
  | lockSplit | unlockSplit | failed => trivial

theorem Way.step {vm : Nat} (h : Way s₀ t size past s) (hok : HeapOk False l s)
    (hsize : (s.threads t).size = size) (hstep : threadStep s t vm = some s') :
    Way s₀ t size (past ++ [.run t vm]) s' := by
  obtain ⟨pc, hpc, htaken⟩ := exists_taken hstep
  cases htaken with
  | goes hgoes => exact h.goes hok hsize hpc hgoes
  | @refill curr hempty hvm =>
      have hfresh := freshHeap_refillChunk curr vm hempty hvm
      have hpc' : (refillChunk s t curr vm).pc t = .lockPushRemain curr (vm + 12360) := by
        rw [refillChunk_eq, State.pc]
        simp
      generalize refillChunk s t curr vm = s' at hfresh hpc' ⊢
      rw [Way, hpc] at h
      rw [Way, hpc']
      obtain ⟨hpast, hstart, -, rfl⟩ := h
      refine ⟨vm, answer_refill hpast hstart, hvm, rfl, ?_⟩
      rw [Searching, if_neg hvm]
      exact ⟨rfl, hfresh⟩
  | @pushRemain curr remain =>
      rw [Way, hpc] at h
      obtain ⟨chunk, hanswer, hne, rfl, hsearching⟩ := h
      rw [Searching, if_neg hne] at hsearching
      obtain ⟨rfl, hfresh⟩ := hsearching
      have hpc' : ({ s.setNext (chunk + 12360) s.globalFreeList with
          globalFreeList := chunk + 12360 }.setPc t (.unlockPushRemain 0)).pc t =
          .unlockPushRemain 0 := by simp [State.pc, State.setPc]
      rw [Way, hpc']
      refine ⟨chunk, hanswer.append _, ?_⟩
      rw [Searching, if_neg hne]
      have hfresh' := hfresh.pushRemain s.globalFreeList
      exact ⟨rfl, hfresh'.list, hfresh'.length⟩
  -- the call has a block
  | takeLocal => simp [Way, State.pc, takeLocal_threads]
  | @takeGlobal prev b =>
      obtain ⟨pc', hthreads, rfl | ⟨newRemain, rfl⟩⟩ := takeGlobal_threads s t prev b
      · simp [Way, State.pc, hthreads]
      · simp [Way, State.pc, hthreads]
  | pushSplit | setLength | returns | fallback => simp [Way, State.pc, State.ret, State.setPc]

/-- A step that returns null is the fallback, when `vmalloc` fails. -/
theorem returns_null {vm : Nat} (hstep : threadStep s t vm = some s') (hidle : s'.pc t = .idle)
    (hgrants : s'.grants = s.grants) : s.pc t = .fallback ∧ vm = 0 ∧ SameLists s s' := by
  obtain ⟨pc, hpc, htaken⟩ := exists_taken hstep
  cases htaken with
  | @goes op _ pc' hgoes =>
      obtain rfl : pc' = .idle := by simpa [State.pc, State.setPc] using hidle
      cases hgoes with
      | failed hvm => exact ⟨hpc, hvm, .goes .keep .idle⟩
  | refill =>
      rw [refillChunk_eq] at hidle
      simp [State.pc] at hidle
  | takeLocal => simp [State.pc, takeLocal_threads] at hidle
  | @takeGlobal prev b =>
      obtain ⟨pc', hthreads, rfl | ⟨newRemain, rfl⟩⟩ := takeGlobal_threads s t prev b
      · simp [State.pc, hthreads] at hidle
      · simp [State.pc, hthreads] at hidle
  | pushRemain | pushSplit | setLength => simp [State.pc, State.setPc] at hidle
  -- something was returned
  | returns | fallback => simp [State.ret] at hgrants

end Steps

/-! ### The call -/

section Call

variable {s₀ s : State} {t size : Nat} {acts : List Act}

/-- What is known of a call on its way. -/
structure Calling (s₀ : State) (t size : Nat) (past : List Act) (s : State) : Prop where
  ledger : ∃ l, Represents False l s
  alone : AloneInv s
  rounded : (s.threads t).size = size
  grants : s₀.grants <+: s.grants
  way : Way s₀ t size past s

theorem Calling.step {s' : State} {past : List Act} {vm : Nat} (h : Calling s₀ t size past s)
    (ha : Sequential s (.run t vm)) (hstep : Mymalloc.step s (.run t vm) = some s') :
    Calling s₀ t size (past ++ [.run t vm]) s' := by
  obtain ⟨l, hrep⟩ := h.ledger
  have hrecords := threadStep_records hstep
  constructor
  case ledger => exact hrep.step ha.1 (h.alone.cursorOk _) hstep
  case alone => exact h.alone.step ha.2 hstep
  case rounded =>
    obtain ⟨pc', hthreads⟩ := hrecords.threads
    rw [hthreads, Function.update_self]
    exact h.rounded
  case grants =>
    rcases hrecords.grants with hsame | ⟨b, hnew, -⟩
    · rw [hsame]
      exact h.grants
    · rw [hnew]
      exact h.grants.trans (List.prefix_append _ _)
  case way => exact h.way.step hrep.toHeapOk h.rounded hstep

/-- A call begins. -/
theorem calling_malloc {acts₀ : List Act} {s₁ : State}
    (hruns₀ : Runs Mymalloc.step Sequential init acts₀ s₀) (hidle : s₀.pc t = .idle)
    (hsize : size ≠ 0) (ha : Sequential s₀ (.malloc t size))
    (hstep : Mymalloc.step s₀ (.malloc t size) = some s₁) :
    Calling s₀ t (align8 size) [] s₁ ∧ s₁.pc t = .readHead := by
  obtain ⟨hledger, halone⟩ := sequential_represents (hruns₀.append (.cons ha hstep (.nil s₁)))
  rw [State.pc] at hidle
  simp only [Mymalloc.step, hidle, ne_eq, not_true_eq_false, if_false, if_neg hsize] at hstep
  obtain rfl := Option.some.inj hstep
  have hpc : (Function.update s₀.threads t ⟨size, align8 size, .readHead⟩ t).pc = .readHead := by
    rw [Function.update_self]
  refine ⟨⟨hledger, halone, ?_, List.prefix_rfl, ?_⟩, hpc⟩
  · simp
  · rw [Way, State.pc, hpc]
    exact ⟨rfl, rfl⟩

theorem calling_runs {acts₀ : List Act} (hruns₀ : Runs step Sequential init acts₀ s₀)
    (hidle : s₀.pc t = .idle) (hsize : size ≠ 0) (hcall : ∀ a ∈ acts, ∃ vm, a = .run t vm)
    (hruns : Runs step Sequential s₀ (.malloc t size :: acts) s) :
    Calling s₀ t (align8 size) acts s := by
  obtain ⟨ha, s₁, hstep, hrest⟩ := Runs.cons_iff.mp hruns
  have hall := hrest.and (everyStep_of_forall fun a hmem _ => hcall a hmem)
  refine Runs.history (Calling s₀ t (align8 size)) ?_ hall
    (calling_malloc hruns₀ hidle hsize ha hstep).1
  rintro past u a u' hu ⟨hseq, vm, rfl⟩ hstep
  exact hu.step hseq hstep

/-- At the fallback, what does not fit is what the search did not see. -/
theorem Calling.noFit_iff (h : Calling s₀ t size acts s) (hpc : s.pc t = .fallback) :
    ∃ chunk, Answer s₀ t acts chunk ∧ (s.NoFit t size ↔ ¬ (chunk ≠ 0 ∧ size ≤ blockSize)) := by
  have hway := h.way
  rw [Way, hpc] at hway
  obtain ⟨chunk, hanswer, hsearched, hglobal⟩ := hway
  refine ⟨chunk, hanswer, ?_⟩
  rw [Searched] at hsearched
  by_cases hchunk : chunk = 0
  · rw [if_pos hchunk] at hsearched
    exact iff_of_true ⟨hsearched, hglobal⟩ fun h => h.1 hchunk
  · rw [if_neg hchunk] at hsearched
    have hmem : ∀ b, s.At (.list (.heap (heapOf t))) b ↔
        b ∈ [chunk + 8240, chunk + 4120, chunk] := fun b => hsearched.list.onList_iff
    constructor
    · rintro hfit ⟨-, hle⟩
      have hhead := List.mem_cons_self (a := chunk + 8240) (l := [chunk + 4120, chunk])
      have hlt := hfit.1 _ ((hmem _).mpr hhead)
      rw [hsearched.length _ hhead] at hlt
      omega
    · intro hlarge
      refine ⟨fun b hb => ?_, hglobal⟩
      rw [hsearched.length b ((hmem b).mp hb)]
      exact Nat.not_le.mp fun hle => hlarge ⟨hchunk, hle⟩

theorem SameLists.noFit_iff {s' : State} (h : SameLists s s') :
    s'.NoFit t size ↔ s.NoFit t size :=
  ⟨fun hfit => ⟨SameLists.noFitIn ⟨h.mem.symm, h.head.symm, h.global.symm⟩ hfit.1,
      SameLists.noFitIn ⟨h.mem.symm, h.head.symm, h.global.symm⟩ hfit.2⟩,
    fun hfit => ⟨h.noFitIn hfit.1, h.noFitIn hfit.2⟩⟩

/-- **Free memory is used first** exactly in the calls that did not refill their heap,
or ask for more than a block of a refill. -/
theorem free_first_iff {acts₀ : List Act} (hruns₀ : Runs step Sequential init acts₀ s₀)
    (hidle : ∀ u, s₀.pc u = .idle) (hsize : size ≠ 0) (hcall : ∀ a ∈ acts, ∃ vm, a = .run t vm)
    (hruns : Runs step Sequential s₀ (.malloc t size :: acts) s)
    (hreach : s.pc t = .fallback ∨ s.pc t = .idle ∧ s.grants = s₀.grants) :
    FreeFirst s₀ s t size acts ↔ ¬ (Refilled s₀ t acts ∧ align8 size ≤ blockSize) := by
  rcases hreach with hpc | ⟨hpc, hgrants⟩
  · obtain ⟨chunk, hanswer, hiff⟩ :=
      (calling_runs hruns₀ (hidle t) hsize hcall hruns).noFit_iff hpc
    rw [hanswer.refilled_iff, ← hiff]
    refine ⟨FreeFirst.noFit, fun hfit => ⟨hfit, fun hdone => ?_⟩⟩
    rw [hpc] at hdone
    cases hdone
  · -- null was returned, by the last step
    rcases List.eq_nil_or_concat acts with rfl | ⟨before, a, rfl⟩
    · obtain ⟨ha, s₁, hstep, hrest⟩ := Runs.cons_iff.mp hruns
      obtain rfl := Runs.nil_iff.mp hrest
      have hread := (calling_malloc hruns₀ (hidle t) hsize ha hstep).2
      rw [hpc] at hread
      cases hread
    · obtain ⟨vm, rfl⟩ := hcall a (by simp)
      rw [List.concat_eq_append] at hruns hcall ⊢
      rw [← List.cons_append] at hruns
      obtain ⟨u, hbefore, hlast⟩ := hruns.of_append
      obtain ⟨-, s', hstep, hnil⟩ := Runs.cons_iff.mp hlast
      obtain rfl := Runs.nil_iff.mp hnil
      have hcalling := calling_runs hruns₀ (hidle t) hsize
        (fun a ha => hcall a (List.mem_append_left _ ha)) hbefore
      have hsame : s'.grants = u.grants := by
        rcases (threadStep_records hstep).grants with hsame | ⟨b, hnew, -⟩
        · exact hsame
        · have hlen := hcalling.grants.length_le
          rw [← hgrants, hnew, List.length_append, List.length_singleton] at hlen
          omega
      obtain ⟨hfallback, rfl, hlists⟩ := returns_null hstep hpc hsame
      obtain ⟨chunk, hanswer, hiff⟩ := hcalling.noFit_iff hfallback
      rw [(hanswer.append _).refilled_iff, ← hiff, ← hlists.noFit_iff]
      exact ⟨FreeFirst.noFit, fun hfit => ⟨hfit, fun _ => ⟨before, u, rfl, hbefore, hfallback⟩⟩⟩

end Call

/-- The first call, whose refill gets nothing: there is nothing to overlook. -/
theorem free_first_barren :
    ∃ s, Runs step Sequential init (.malloc 1 8 :: List.replicate 11 (.run 1 0)) s ∧
      s.pc 1 = .fallback ∧ FreeFirst init s 1 8 (List.replicate 11 (.run 1 0)) := by
  obtain ⟨s, hbarren, hthreads, -⟩ := barren_runs 1 (by decide : 8 ≠ 0)
  have hcall : ∀ a ∈ List.replicate 11 (Act.run 1 0), ∃ vm, a = .run 1 vm :=
    fun a ha => ⟨0, (List.mem_replicate.mp ha).2⟩
  have hruns : Runs step Sequential init (.malloc 1 8 :: List.replicate 11 (.run 1 0)) s :=
    hbarren.and (everyStep_alone (fun _ => rfl) fun a ha => ⟨1, hcall a ha⟩)
  have hpc : s.pc 1 = .fallback := by rw [State.pc, hthreads, Function.update_self]
  refine ⟨s, hruns, hpc, (free_first_iff (Runs.nil init) (fun _ => rfl) (by decide) hcall hruns
    (.inl hpc)).mpr ?_⟩
  rintro ⟨⟨-, chunk, hne, hanswer⟩, -⟩
  cases hanswer
  exact hne rfl

/-- The steps of the first call up to its fallback, when it refills its heap. -/
def overlookingSteps (t chunk : Nat) : List Act :=
  [.run t 0, .run t 0, .run t 0, .run t chunk] ++ List.replicate 10 (.run t 0)

/-- A search of one block that is too small. -/
theorem search_one {s : State} {b size : Nat} (hne : b ≠ 0) (hnext : s.next b = 0)
    (hsmall : (s.mem b).length < size) (hblocks : s.blocks ≠ []) :
    s.search b size = some (b, 0) := by
  obtain ⟨c, blocks, hcons⟩ := List.exists_cons_of_ne_nil hblocks
  rw [State.search, hcons, List.length_cons, seek, if_neg hne, if_neg (by simpa using hsmall),
    hnext]
  rfl

/-- The first call, for 4096 bytes: three blocks of that size are in the heap when it
asks for a region. -/
theorem fresh_blocks_overlooked :
    ∃ s, Runs step Sequential init (.malloc 1 4096 :: overlookingSteps 1 65536) s ∧
      s.pc 1 = .fallback ∧ ¬ FreeFirst init s 1 4096 (overlookingSteps 1 65536) := by
  have hround : align8 4096 = 4096 := by decide
  obtain ⟨s₁, hruns₁, hthreads₁, -, hglobal₁, hlist₁, -, hlinked₁, hlen₁, hremain₁, -, hblocks₁⟩ :=
    @refill_runs init 1 4096 65536 rfl (by decide) rfl rfl (by decide) (by decide)
  rw [hround] at hthreads₁
  obtain ⟨s₂, hruns₂, hthreads₂, hhead₂, hlock₂, hglobal₂, hlist₂, -, -, hmem₂, hblocks₂⟩ :=
    push_runs (by rw [hthreads₁, Function.update_self]) hglobal₁
  have hmiss : s₂.search s₂.globalFreeList 4096 = some (77896, 0) := by
    rw [hlist₂]
    apply search_one
    · decide
    · rw [State.next, hmem₂, Function.update_self, hlist₁]
      rfl
    · rw [hmem₂, Function.update_self, hremain₁]
      decide
    · rw [hblocks₂]
      exact hblocks₁
  have hpass := pass_runs (by rw [hthreads₂, Function.update_self]) hmiss
    (by rw [hlock₂, Function.update_self]) hglobal₂
  refine ⟨_, (hruns₁.append (hruns₂.append hpass)).and (everyStep_alone (fun _ => rfl) ?_), ?_,
    fun h => ?_⟩
  · simp
  · simp [State.pc]
  · -- the block that was carved last is in the heap
    have hb : 73776 ∈ [73776, 69656, 65536] := by decide
    have hmem : ∀ c ∈ [73776, 69656, 65536], s₂.mem c = s₁.mem c := by
      intro c hc
      have hne : c ≠ 77896 := by
        rintro rfl
        revert hc
        decide
      rw [hmem₂, Function.update_of_ne hne]
    have hlinked₂ : Linked 0 s₂.next (s₂.head (heapOf 1)) [73776, 69656, 65536] := by
      rw [hhead₂]
      exact hlinked₁.congr fun c hc => by rw [State.next, hmem c hc, State.next]
    have hlt := h.noFit.1 73776 (hlinked₂.onList_iff.mpr hb)
    have hlen : (s₂.mem 73776).length = 4096 := by
      rw [hmem _ hb]
      exact hlen₁ _ hb
    rw [hround, State.length, hlen] at hlt
    exact Nat.lt_irrefl _ hlt

end NjuOs.Mymalloc
