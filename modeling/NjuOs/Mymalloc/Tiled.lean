import NjuOs.Mymalloc.Deadlock
import NjuOs.Mymalloc.Steps

/-!
The heap between calls that run one after another.

`heap_tiled`: whatever calls are made, and however often `vmalloc` fails, the
blocks tile the regions, each block is in one list or with one caller, and the
lists end. No block is lost, because a thread that is alone finds its `curr` at
the head of its heap, or null (`CursorInv`). `call_progress`: such a call never
gets stuck.
-/

namespace NjuOs.Mymalloc

open NjuOs.Lib

/-- A call starts when no other one is going on. -/
def Act.Alone (s : State) : Act → Prop
  | .malloc _ _ | .free _ _ => ∀ t, s.pc t = .idle
  | .run _ _ => True

/-- The calls run one after another, and `vmalloc` answers as it may. -/
def Sequential (s : State) (a : Act) : Prop := a.Fresh s ∧ a.Alone s

/-! ### The cursor of a thread that is alone -/

/-- `curr` up to the search of the local list: null once the list was found
empty, and the head of the list otherwise. -/
def CursorInv (s : State) (t : Nat) : Prop :=
  match s.pc t with
  | .testHead curr | .lockLocal curr | .scanLocal curr => curr = 0 ∨ curr = s.head (heapOf t)
  | .lockRefill curr | .refill curr | .lockPushRemain curr _ | .pushRemain curr _
  | .unlockPushRemain curr | .unlockRefill curr => curr = 0
  | _ => True

/-- At most one thread is inside `mymalloc`, and it has its cursor in the right place. -/
structure AloneInv (s : State) : Prop where
  alone : ∀ t t', s.pc t ≠ .idle → s.pc t' ≠ .idle → t = t'
  cursor : ∀ t, CursorInv s t

theorem threadStep_cursor {s s' : State} {t vm : Nat} (h : CursorInv s t)
    (hstep : threadStep s t vm = some s') : CursorInv s' t := by
  obtain ⟨pc, hpc, htaken⟩ := exists_taken hstep
  rw [CursorInv, hpc] at h
  cases htaken with
  | @goes op _ pc' hgoes =>
      have hpc' : ((s.lockOp t op).setPc t pc').pc t = pc' := by simp [State.pc, State.setPc]
      have hhead : ((s.lockOp t op).setPc t pc').head = s.head := s.lockOp_head t op
      rw [CursorInv, hpc', hhead]
      cases hgoes with
      | readHead => exact .inr rfl
      | empty hempty => exact h.elim id fun hcurr => hcurr.trans hempty
      | unlockRefill => exact .inl h
      | _ => first
          | exact h
          | trivial
  | refill =>
      rw [refillChunk_eq]
      simpa [CursorInv, State.pc] using h
  | pushRemain => simpa [CursorInv, State.pc, State.setPc, State.setNext] using h
  | takeLocal => simp [CursorInv, State.pc, takeLocal_threads]
  | @takeGlobal prev b =>
      obtain ⟨pc', hthreads, rfl | ⟨_, rfl⟩⟩ := takeGlobal_threads s t prev b <;>
        simp [CursorInv, State.pc, hthreads]
  | pushSplit | setLength | returns | fallback =>
      simp [CursorInv, State.pc, State.ret, State.setPc]

theorem step_cursor {s s' : State} {a : Act} (h : CursorInv s a.tid)
    (hstep : step s a = some s') : CursorInv s' a.tid := by
  rcases step_cases hstep with rfl | ⟨tid, size, rfl, -, rfl⟩ | ⟨tid, vm, rfl, hrun⟩
  · exact h
  · simp [CursorInv, State.pc, Act.tid]
  · exact threadStep_cursor h hrun

theorem CursorInv.of_idle {s : State} {t : Nat} (h : s.pc t = .idle) : CursorInv s t := by
  rw [CursorInv, h]
  trivial

theorem aloneInv_init : AloneInv init where
  alone _ _ h := absurd rfl h
  cursor _ := .of_idle rfl

/-- The steps of one call leave the other threads where they are. -/
theorem AloneInv.step {s s' : State} {a : Act} (h : AloneInv s) (ha : a.Alone s)
    (hstep : step s a = some s') : AloneInv s' := by
  obtain ⟨pc', hmove⟩ := step_locks hstep
  -- nobody but the thread that steps is inside a call
  have hothers : ∀ u, u ≠ a.tid → s'.pc u = .idle := by
    intro u hu
    rw [hmove.pc_other u hu]
    cases a with
    | malloc tid size | free tid ptr => exact ha u
    | run tid vm =>
        by_contra hbusy
        refine hu (h.alone u tid hbusy fun hidle => ?_)
        rw [State.pc] at hidle
        simp [Mymalloc.step, threadStep, hidle] at hstep
  constructor
  case alone =>
    intro t t' ht ht'
    rw [not_imp_comm.mp (hothers t) ht, not_imp_comm.mp (hothers t') ht']
  case cursor =>
    intro t
    by_cases ht : t = a.tid
    · subst ht
      exact step_cursor (h.cursor a.tid) hstep
    · exact .of_idle (hothers t ht)

theorem AloneInv.cursorOk {s : State} (h : AloneInv s) (a : Act) : a.CursorOk False s := by
  cases a with
  | malloc | free => trivial
  | run tid vm =>
      intro curr hpc
      have hcursor := h.cursor tid
      rw [CursorInv, hpc] at hcursor
      exact hcursor.imp_right .inl

/-- After a sequential run a ledger without lost blocks says all of the state. -/
theorem sequential_represents {acts : List Act} {s : State}
    (hruns : Runs step Sequential init acts s) :
    (∃ l, Represents False l s) ∧ AloneInv s := by
  refine hruns.invariant (fun s => (∃ l, Represents False l s) ∧ AloneInv s) ?_
    ⟨⟨_, represents_init False⟩, aloneInv_init⟩
  rintro s a s' ⟨⟨l, hrep⟩, halone⟩ ⟨hfresh, ha⟩ hstep
  exact ⟨hrep.step hfresh (halone.cursorOk a) hstep, halone.step ha hstep⟩

/-! ### What holds between calls -/

/-- Where a block can be between calls. -/
inductive Site where
  | list (f : FreeList)
  /-- The caller that got the pointer number `i`. -/
  | caller (i : Nat)
deriving DecidableEq, Repr

def State.At (s : State) : Site → Nat → Prop
  | .list f, b => OnList 0 s.next (s.first f) b
  | .caller i, b => (s.grants[i]?).map Grant.block = some b

/-- The blocks tile the regions, and the lists and the callers share them out. -/
structure HeapTiled (s : State) : Prop where
  tiled : Tiling s.regions (fun b => ∃ site, s.At site b) (fun b => structSize + s.length b)
  onePlace : ∀ b site site', s.At site b → s.At site' b → site = site'
  lists : ∀ f, ∃ L, Linked 0 s.next (s.first f) L
  aligned : ∀ b site, s.At site b → 8 ∣ b ∧ 8 ∣ s.length b

theorem HeapOk.at_list {lossy : Prop} {l : Blocks} {s : State} (h : HeapOk lossy l s)
    {f : FreeList} {b : Nat} : s.At (.list f) b ↔ l.place b = some (.free f) := by
  obtain ⟨L, hL, hmem⟩ := h.list f
  rw [State.At, hL.onList_iff, hmem]

theorem HeapOk.at_caller {lossy : Prop} {l : Blocks} {s : State} (h : HeapOk lossy l s) {b : Nat} :
    (∃ i, s.At (.caller i) b) ↔ l.place b = some .out := by
  simp only [h.out, State.At, ← List.getElem?_map, List.mem_iff_getElem?]

/-- Between calls no block is in the hands of a thread. -/
theorem Represents.heapTiled {l : Blocks} {s : State} (hrep : Represents False l s)
    (hidle : ∀ t, s.pc t = .idle) : HeapTiled s := by
  have hok := hrep.toHeapOk
  -- all blocks are in lists or with callers
  have hplace : ∀ b p, l.place b = some p → (∃ f, p = .free f) ∨ p = .out := by
    intro b p hb
    cases p with
    | free f => exact .inl ⟨f, rfl⟩
    | out => exact .inr rfl
    | lost => exact absurd hb (hok.kept id b)
    | held t =>
        have := ((hrep.threads t).held b).mp hb
        rw [← State.pc, hidle t] at this
        cases this
  have hsite : ∀ b, (∃ site, s.At site b) ↔ l.place b ≠ none := by
    intro b
    rw [Option.ne_none_iff_exists']
    constructor
    · rintro ⟨f | i, hb⟩
      · exact ⟨_, hok.at_list.mp hb⟩
      · exact ⟨_, hok.at_caller.mp ⟨i, hb⟩⟩
    · rintro ⟨p, hb⟩
      rcases hplace b p hb with ⟨f, rfl⟩ | rfl
      · exact ⟨_, hok.at_list.mpr hb⟩
      · obtain ⟨i, hi⟩ := hok.at_caller.mpr hb
        exact ⟨_, hi⟩
  have hlength : ∀ b, l.place b ≠ none → s.length b = l.size b := by
    intro b hb
    obtain ⟨p, hp⟩ := Option.ne_none_iff_exists'.mp hb
    rcases hplace b p hp with ⟨f, rfl⟩ | rfl
    · exact hok.freeLength b f hp
    · exact hok.outLength b hp
  constructor
  case tiled =>
    rw [hok.regions]
    exact l.tiling.congr hsite fun b hb => by rw [hlength b hb]
  case onePlace =>
    rintro b (f | i) (f' | i') hb hb'
    · have := (hok.at_list.mp hb).symm.trans (hok.at_list.mp hb')
      simpa using this
    · have := (hok.at_list.mp hb).symm.trans (hok.at_caller.mp ⟨i', hb'⟩)
      simp at this
    · have := (hok.at_caller.mp ⟨i, hb⟩).symm.trans (hok.at_list.mp hb')
      simp at this
    · -- the blocks of two grants differ
      rw [State.At, ← List.getElem?_map] at hb hb'
      have hlt := (List.getElem?_eq_some_iff.mp hb).1
      rw [(List.getElem?_inj hlt hok.grants).mp (hb.trans hb'.symm)]
  case lists =>
    intro f
    obtain ⟨L, hL, -⟩ := hok.list f
    exact ⟨L, hL⟩
  case aligned =>
    intro b site hb
    have hne := (hsite b).mp ⟨site, hb⟩
    rw [hlength b hne]
    exact l.aligned b hne

/-- **The heap stays tiled**: between calls that run one after another, in whatever
order the threads make them, for whatever sizes and whenever `vmalloc` fails. -/
theorem heap_tiled {acts : List Act} {s : State} (hruns : Runs step Sequential init acts s)
    (hidle : ∀ t, s.pc t = .idle) : HeapTiled s := by
  obtain ⟨⟨l, hrep⟩, -⟩ := sequential_represents hruns
  exact hrep.heapTiled hidle

/-! ### Progress -/

/-- A thread inside a call goes on, unless it waits for a lock. -/
theorem exists_threadStep {lossy : Prop} {l : Blocks} {s : State} (h : Represents lossy l s)
    {t vm : Nat} (hcursor : (Act.run t vm).CursorOk lossy s)
    (hfree : ∀ lock, s.wants t = some lock → s.holder lock = none) (hbusy : s.pc t ≠ .idle) :
    ∃ s', threadStep s t vm = some s' := by
  have hsearch : ∀ f curr, CursorOk lossy s f curr →
      ∃ hit, s.search curr (s.threads t).size = some hit := by
    intro f curr hcursor
    rcases h.search hcursor (s.threads t).size with ⟨last, h⟩ | ⟨_, b, _, prev, -, -, -, h, -⟩
    · exact ⟨_, h⟩
    · exact ⟨_, h⟩
  suffices htaken : ∃ s', Taken s t vm (s.pc t) s' from
    htaken.imp fun _ h => threadStep_iff.mpr h
  cases hpc : s.pc t
  all_goals simp only [State.wants, Act.CursorOk, hpc] at hbusy hfree hcursor
  case idle => exact absurd rfl hbusy
  case readHead => exact ⟨_, .goes .readHead trivial⟩
  case testHead curr =>
    by_cases hhead : s.head (heapOf t) = 0
    · exact ⟨_, .goes (.empty hhead) trivial⟩
    · exact ⟨_, .goes (.filled hhead) trivial⟩
  case refill curr =>
    by_cases hcall : s.head (heapOf t) = 0 ∧ vm ≠ 0
    · exact ⟨_, .refill hcall.1 hcall.2⟩
    · exact ⟨_, .goes (.noRefill hcall) trivial⟩
  case pushRemain curr remain => exact ⟨_, .pushRemain⟩
  case scanLocal curr =>
    obtain ⟨⟨last, b⟩, hsearch⟩ := hsearch _ curr (hcursor curr rfl)
    by_cases hb : b = 0
    · exact ⟨_, .goes (.missLocal (hb ▸ hsearch)) trivial⟩
    · exact ⟨_, .takeLocal hb hsearch⟩
  case scanGlobal =>
    obtain ⟨⟨last, b⟩, hsearch⟩ := hsearch .global s.globalFreeList (.inr (.inl rfl))
    by_cases hb : b = 0
    · exact ⟨_, .goes (.missGlobal (hb ▸ hsearch)) trivial⟩
    · exact ⟨_, .takeGlobal hb hsearch⟩
  case pushSplit curr newRemain => exact ⟨_, .pushSplit⟩
  case setLength curr => exact ⟨_, .setLength⟩
  case returnLocal curr => exact ⟨_, .returns .fromLocal⟩
  case unlockGlobal ret =>
    cases ret with
    | none => exact ⟨_, .goes .unlockGlobal trivial⟩
    | some curr => exact ⟨_, .returns .fromGlobal⟩
  case fallback =>
    by_cases hvm : vm = 0
    · exact ⟨_, .goes (.failed hvm) trivial⟩
    · exact ⟨_, .fallback hvm⟩
  -- the locks
  case lockRefill curr => exact ⟨_, .goes .lockRefill (hfree _ rfl)⟩
  case lockLocal curr => exact ⟨_, .goes .lockLocal (hfree _ rfl)⟩
  case lockSplit curr newRemain => exact ⟨_, .goes .lockSplit (hfree _ rfl)⟩
  case lockPushRemain curr remain => exact ⟨_, .goes .lockPushRemain (hfree _ rfl)⟩
  case lockGlobal => exact ⟨_, .goes .lockGlobal (hfree _ rfl)⟩
  case unlockPushRemain curr => exact ⟨_, .goes .unlockPushRemain trivial⟩
  case unlockRefill curr => exact ⟨_, .goes .unlockRefill trivial⟩
  case unlockLocal => exact ⟨_, .goes .unlockLocal trivial⟩
  case unlockSplit curr => exact ⟨_, .goes .unlockSplit trivial⟩

/-- A call that is alone never waits for a lock, and its searches end. -/
theorem call_progress {acts : List Act} {s : State} (hruns : Runs step Sequential init acts s)
    {t : Nat} (hbusy : s.pc t ≠ .idle) (vm : Nat) : ∃ s', step s (.run t vm) = some s' := by
  obtain ⟨⟨l, hrep⟩, halone⟩ := sequential_represents hruns
  have hlocks : LockInv s := hruns.invariant _ (fun h _ hstep => step_lockInv h hstep) lockInv_init
  refine exists_threadStep hrep (halone.cursorOk (.run t vm)) (fun lock hwants => ?_) hbusy
  refine Option.eq_none_iff_forall_ne_some.mpr fun u hholds => ?_
  -- only this thread could have the lock, and it does not wait for its own
  obtain rfl := halone.alone u t (hlocks.busy_of_holder hholds) hbusy
  exact hlocks.not_own hholds hwants

/-! ### A sequential run -/

/-- A call, whose steps nobody interrupts. -/
theorem everyStep_alone {s : State} (hidle : ∀ t, s.pc t = .idle) {t size : Nat} {acts : List Act}
    (hrun : ∀ a ∈ acts, ∃ t vm, a = .run t vm) :
    EveryStep step Act.Alone s (.malloc t size :: acts) := by
  refine ⟨hidle, fun s' _ => everyStep_of_forall fun a ha _ => ?_⟩
  obtain ⟨t, vm, rfl⟩ := hrun a ha
  trivial

/-- Two threads that share a heap, one after the other. -/
theorem twoCalls_runs :
    ∃ s, Runs step Sequential init (firstActs 1 ++ hitActs 65 3968) s ∧
      (∀ t, s.pc t = .idle) ∧ s.grants = [⟨77896, 8⟩, ⟨77928, 3968⟩] := by
  obtain ⟨s₁, hruns₁, hthreads₁, hlock₁, hhead₁, hlen₁, hnext₁, hgrants₁⟩ := first_runs 1
  have hidle₁ : ∀ t, s₁.pc t = .idle := by
    intro t
    rw [State.pc, hthreads₁]
    by_cases ht : t = 1
    · rw [ht, Function.update_self]
    · rw [Function.update_of_ne ht]
      rfl
  have hread := read_runs 3968 (hidle₁ 65) (by decide)
  have hheap : heapOf 65 = heapOf 1 := rfl
  rw [hheap, hhead₁] at hread
  obtain ⟨s₂, htake, -, -, -, -, -, hthreads₂, hgrants₂⟩ :=
    @take_runs { s₁ with
        threads := Function.update s₁.threads 65 (.mk 3968 (align8 3968) (.testHead 77928)) }
      65 77928 3968 (by simp [align8, sizeMod]) (by simp [hheap, hhead₁])
      (by decide) hlen₁ (by decide) hlock₁
  refine ⟨s₂, (hruns₁.and (everyStep_alone (fun _ => rfl) ?_)).append
    ((hread.append htake).and (everyStep_alone hidle₁ ?_)), fun t => ?_, ?_⟩
  · simp
  · simp
  · rw [State.pc, hthreads₂]
    by_cases ht : t = 65
    · rw [ht, Function.update_self]
    · simpa [ht, State.pc] using hidle₁ t
  · rw [hgrants₂, hgrants₁]
    rfl

theorem heap_tiled_two :
    ∃ s, Runs step Sequential init (firstActs 1 ++ hitActs 65 3968) s ∧
      s.grants = [⟨77896, 8⟩, ⟨77928, 3968⟩] ∧ HeapTiled s := by
  obtain ⟨s, hruns, hidle, hgrants⟩ := twoCalls_runs
  exact ⟨s, hruns, hgrants, heap_tiled hruns hidle⟩

end NjuOs.Mymalloc
