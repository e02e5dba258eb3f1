import NjuOs.Mymalloc.Calls
import NjuOs.Mymalloc.Taken

/-!
Deadlocks between the heap locks and the global lock.

`LockInv` ties each lock to the thread whose program counter holds it. A refill
takes the global lock inside a heap lock and a split of a global block takes a
heap lock inside the global one. `no_deadlock_iff`: threads with ids of some set
never deadlock exactly when no two ids of the set share a heap.
-/

namespace NjuOs.Mymalloc

open NjuOs.Lib

/-! ### Who holds which lock -/

/-- The section that a heap lock protects. -/
def Pc.holdsHeap : Pc → Bool
  | .refill _ | .lockPushRemain _ _ | .pushRemain _ _ | .unlockPushRemain _ | .unlockRefill _
  | .scanLocal _ | .returnLocal _ | .unlockLocal | .pushSplit _ _ | .unlockSplit _ => true
  | _ => false

/-- The section that the global lock protects. -/
def Pc.holdsGlobal : Pc → Bool
  | .pushRemain _ _ | .unlockPushRemain _ | .scanGlobal | .lockSplit _ _ | .pushSplit _ _
  | .unlockSplit _ | .setLength _ | .unlockGlobal _ => true
  | _ => false

/-- A lock names the one thread that is in its section. -/
def HeldBy (lock : Option Nat) (holds : Nat → Prop) : Prop := ∀ t, lock = some t ↔ holds t

/-- One thread moves: it stays on its side of the lock, takes it, or gives it back. -/
theorem HeldBy.move {lock lock' : Option Nat} {holds holds' : Nat → Prop}
    (h : HeldBy lock holds) (tid : Nat) (hothers : ∀ t, t ≠ tid → (holds' t ↔ holds t))
    (hmove : (lock' = lock ∧ (holds' tid ↔ holds tid)) ∨
      (lock = none ∧ lock' = some tid ∧ holds' tid) ∨
      (holds tid ∧ lock' = none ∧ ¬ holds' tid)) : HeldBy lock' holds' := by
  intro t
  rcases hmove with ⟨rfl, hself⟩ | ⟨rfl, rfl, hself⟩ | ⟨hheld, rfl, hself⟩
  · by_cases ht : t = tid
    · rw [ht, hself]; exact h tid
    · rw [hothers t ht]; exact h t
  · by_cases ht : t = tid
    · simp [ht, hself]
    · rw [hothers t ht, ← h t]
      simp [Ne.symm ht]
  · by_cases ht : t = tid
    · simp [ht, hself]
    · rw [hothers t ht, ← h t, (h tid).mpr hheld]
      simp [Ne.symm ht]

structure LockInv (s : State) : Prop where
  heap : ∀ h, HeldBy (s.heapLock h) fun t => heapOf t = h ∧ (s.pc t).holdsHeap = true
  global : HeldBy s.globalLock fun t => (s.pc t).holdsGlobal = true

theorem lockInv_init : LockInv init where
  heap h t := by simp [init, State.pc, Pc.holdsHeap]
  global t := by simp [init, State.pc, Pc.holdsGlobal]

/-- What a step does to the program counters and the locks. -/
structure LockStep (s s' : State) (tid : Nat) (pc' : Pc) : Prop where
  threads : ∃ thread : Thread, s'.threads = Function.update s.threads tid thread ∧ thread.pc = pc'
  heap : (s'.heapLock = s.heapLock ∧ pc'.holdsHeap = (s.pc tid).holdsHeap) ∨
    (s.heapLock (heapOf tid) = none ∧ pc'.holdsHeap = true ∧
      s'.heapLock = Function.update s.heapLock (heapOf tid) (some tid)) ∨
    ((s.pc tid).holdsHeap = true ∧ pc'.holdsHeap = false ∧
      s'.heapLock = Function.update s.heapLock (heapOf tid) none)
  global : (s'.globalLock = s.globalLock ∧ pc'.holdsGlobal = (s.pc tid).holdsGlobal) ∨
    (s.globalLock = none ∧ pc'.holdsGlobal = true ∧ s'.globalLock = some tid) ∨
    ((s.pc tid).holdsGlobal = true ∧ pc'.holdsGlobal = false ∧ s'.globalLock = none)

theorem LockStep.pc_self {s s' : State} {tid : Nat} {pc' : Pc} (h : LockStep s s' tid pc') :
    s'.pc tid = pc' := by
  obtain ⟨thread, hthreads, hpc⟩ := h.threads
  rw [State.pc, hthreads, Function.update_self, hpc]

theorem LockStep.pc_other {s s' : State} {tid : Nat} {pc' : Pc} (h : LockStep s s' tid pc') :
    ∀ t, t ≠ tid → s'.pc t = s.pc t := by
  obtain ⟨thread, hthreads, -⟩ := h.threads
  intro t ht
  rw [State.pc, hthreads, Function.update_of_ne ht, State.pc]

theorem LockStep.lockInv {s s' : State} {tid : Nat} {pc' : Pc} (h : LockStep s s' tid pc')
    (hinv : LockInv s) : LockInv s' := by
  have hself := h.pc_self
  have hother := h.pc_other
  constructor
  case heap =>
    intro n
    refine (hinv.heap n).move tid (fun t ht => by rw [hother t ht]) ?_
    rw [hself]
    by_cases hn : heapOf tid = n
    · subst hn
      rcases h.heap with ⟨hl, hp⟩ | ⟨hfree, hp, hl⟩ | ⟨hheld, hp, hl⟩
      · exact .inl ⟨by rw [hl], by rw [hp]⟩
      · exact .inr (.inl ⟨hfree, by rw [hl, Function.update_self], rfl, hp⟩)
      · exact .inr (.inr ⟨⟨rfl, hheld⟩, by rw [hl, Function.update_self], by simp [hp]⟩)
    · refine .inl ⟨?_, by simp [hn]⟩
      rcases h.heap with ⟨hl, -⟩ | ⟨-, -, hl⟩ | ⟨-, -, hl⟩
      · rw [hl]
      · rw [hl, Function.update_of_ne (Ne.symm hn)]
      · rw [hl, Function.update_of_ne (Ne.symm hn)]
  case global =>
    refine hinv.global.move tid (fun t ht => by rw [hother t ht]) ?_
    rw [hself]
    rcases h.global with ⟨hl, hp⟩ | ⟨hfree, hp, hl⟩ | ⟨hheld, hp, hl⟩
    · exact .inl ⟨hl, by rw [hp]⟩
    · exact .inr (.inl ⟨hfree, hl, hp⟩)
    · exact .inr (.inr ⟨hheld, hl, by simp [hp]⟩)

section

variable {s s' : State} {tid : Nat} {pc pc' : Pc} (hpc : s.pc tid = pc)
  (hthreads : s'.threads = Function.update s.threads tid { s.threads tid with pc := pc' })

include hpc hthreads

/-- The thread stays in the sections where it is. -/
theorem LockStep.stay (hheap : s'.heapLock = s.heapLock) (hglobal : s'.globalLock = s.globalLock)
    (hin : pc'.holdsHeap = pc.holdsHeap) (hin' : pc'.holdsGlobal = pc.holdsGlobal) :
    LockStep s s' tid pc' := by
  subst hpc
  exact ⟨⟨_, hthreads, rfl⟩, .inl ⟨hheap, hin⟩, .inl ⟨hglobal, hin'⟩⟩

theorem LockStep.lockHeap (hfree : s.heapLock (heapOf tid) = none)
    (hheap : s'.heapLock = Function.update s.heapLock (heapOf tid) (some tid))
    (hglobal : s'.globalLock = s.globalLock) (hin : pc'.holdsHeap = true)
    (hin' : pc'.holdsGlobal = pc.holdsGlobal) : LockStep s s' tid pc' := by
  subst hpc
  exact ⟨⟨_, hthreads, rfl⟩, .inr (.inl ⟨hfree, hin, hheap⟩), .inl ⟨hglobal, hin'⟩⟩

theorem LockStep.unlockHeap (hheap : s'.heapLock = Function.update s.heapLock (heapOf tid) none)
    (hglobal : s'.globalLock = s.globalLock) (hin : pc.holdsHeap = true)
    (hout : pc'.holdsHeap = false) (hin' : pc'.holdsGlobal = pc.holdsGlobal) :
    LockStep s s' tid pc' := by
  subst hpc
  exact ⟨⟨_, hthreads, rfl⟩, .inr (.inr ⟨hin, hout, hheap⟩), .inl ⟨hglobal, hin'⟩⟩

theorem LockStep.lockGlobal (hfree : s.globalLock = none) (hheap : s'.heapLock = s.heapLock)
    (hglobal : s'.globalLock = some tid) (hin : pc'.holdsHeap = pc.holdsHeap)
    (hin' : pc'.holdsGlobal = true) : LockStep s s' tid pc' := by
  subst hpc
  exact ⟨⟨_, hthreads, rfl⟩, .inl ⟨hheap, hin⟩, .inr (.inl ⟨hfree, hin', hglobal⟩)⟩

theorem LockStep.unlockGlobal (hheap : s'.heapLock = s.heapLock) (hglobal : s'.globalLock = none)
    (hin : pc'.holdsHeap = pc.holdsHeap) (hin' : pc.holdsGlobal = true)
    (hout : pc'.holdsGlobal = false) : LockStep s s' tid pc' := by
  subst hpc
  exact ⟨⟨_, hthreads, rfl⟩, .inl ⟨hheap, hin⟩, .inr (.inr ⟨hin', hout, hglobal⟩)⟩

end

/-- Every step of a thread is such a move. -/
theorem threadStep_locks {s s' : State} {tid vm : Nat} (hstep : threadStep s tid vm = some s') :
    ∃ pc', LockStep s s' tid pc' := by
  obtain ⟨pc, hpc, htaken⟩ := exists_taken hstep
  cases htaken with
  | @goes op _ pc' hgoes henabled =>
      refine ⟨pc', ?_⟩
      cases op with
      | keep => cases hgoes <;> exact .stay hpc rfl rfl rfl rfl rfl
      | lockHeap => cases hgoes <;> exact .lockHeap hpc rfl henabled rfl rfl rfl rfl
      | unlockHeap => cases hgoes <;> exact .unlockHeap hpc rfl rfl rfl rfl rfl rfl
      | lockGlobal => cases hgoes <;> exact .lockGlobal hpc rfl henabled rfl rfl rfl rfl
      | unlockGlobal => cases hgoes <;> exact .unlockGlobal hpc rfl rfl rfl rfl rfl rfl
  | returns hreturns =>
      cases hreturns with
      | fromLocal => exact ⟨_, .unlockHeap hpc rfl rfl rfl rfl rfl rfl⟩
      | fromGlobal => exact ⟨_, .unlockGlobal hpc rfl rfl rfl rfl rfl rfl⟩
  | refill =>
      rw [refillChunk_eq]
      exact ⟨_, .stay hpc rfl rfl rfl rfl rfl⟩
  | @takeLocal _ prev b =>
      obtain ⟨hheap, hglobal, -⟩ := takeLocal_frame s tid prev b
      exact ⟨_, .stay hpc (takeLocal_threads ..) hheap hglobal rfl rfl⟩
  | @takeGlobal prev b =>
      obtain ⟨hheap, hglobal, -⟩ := takeGlobal_frame s tid prev b
      obtain ⟨pc', hthreads, rfl | ⟨newRemain, rfl⟩⟩ := takeGlobal_threads s tid prev b
      · exact ⟨_, .stay hpc hthreads hheap hglobal rfl rfl⟩
      · exact ⟨_, .stay hpc hthreads hheap hglobal rfl rfl⟩
  | pushRemain | pushSplit | setLength | fallback => exact ⟨_, .stay hpc rfl rfl rfl rfl rfl⟩

theorem step_locks {s s' : State} {a : Act} (hstep : step s a = some s') :
    ∃ pc', LockStep s s' a.tid pc' := by
  rcases step_cases hstep with rfl | ⟨tid, size, rfl, hidle, rfl⟩ | ⟨tid, vm, rfl, hrun⟩
  · exact ⟨_, ⟨_, (Function.update_eq_self a.tid s'.threads).symm, rfl⟩, .inl ⟨rfl, rfl⟩,
      .inl ⟨rfl, rfl⟩⟩
  · exact ⟨_, ⟨_, rfl, rfl⟩, .inl ⟨rfl, by rw [Act.tid, hidle]; rfl⟩,
      .inl ⟨rfl, by rw [Act.tid, hidle]; rfl⟩⟩
  · exact threadStep_locks hrun

theorem step_lockInv {s s' : State} {a : Act} (h : LockInv s) (hstep : step s a = some s') :
    LockInv s' := by
  obtain ⟨pc', hmove⟩ := step_locks hstep
  exact hmove.lockInv h

/-! ### Deadlock -/

/-- The spinlocks of the allocator. -/
inductive Lock where
  | heap (h : Nat)
  | global
deriving DecidableEq, Repr

def State.holder (s : State) : Lock → Option Nat
  | .heap h => s.heapLock h
  | .global => s.globalLock

/-- The lock that the next step of a thread takes. -/
def State.wants (s : State) (tid : Nat) : Option Lock :=
  match s.pc tid with
  | .lockRefill _ | .lockLocal _ | .lockSplit _ _ => some (.heap (heapOf tid))
  | .lockPushRemain _ _ | .lockGlobal => some .global
  | _ => none

/-- Some threads each hold a lock and spin on one that another of them holds. -/
def State.Deadlock (s : State) : Prop :=
  ∃ ts : List Nat, ts ≠ [] ∧ ∀ t ∈ ts, (∃ lock, s.holder lock = some t) ∧
    ∃ lock t', s.wants t = some lock ∧ t' ∈ ts ∧ t' ≠ t ∧ s.holder lock = some t'

/-- A thread that holds a lock and wants one is in a refill or in a split. -/
theorem LockInv.nested {s : State} (h : LockInv s) {t : Nat} {lock lock' : Lock}
    (hholds : s.holder lock = some t) (hwants : s.wants t = some lock') :
    ((∃ curr remain, s.pc t = .lockPushRemain curr remain) ∧ lock' = .global) ∨
      ((∃ curr remain, s.pc t = .lockSplit curr remain) ∧ lock' = .heap (heapOf t)) := by
  have hsection : (s.pc t).holdsHeap = true ∨ (s.pc t).holdsGlobal = true := by
    cases lock with
    | heap n => exact .inl ((h.heap n t).mp hholds).2
    | global => exact .inr ((h.global t).mp hholds)
  unfold State.wants at hwants
  split at hwants <;> cases hwants
  all_goals
    rename_i hpc
    rw [hpc] at hsection
  case h_3 => exact .inr ⟨⟨_, _, hpc⟩, rfl⟩
  case h_4 => exact .inl ⟨⟨_, _, hpc⟩, rfl⟩
  all_goals simp [Pc.holdsHeap, Pc.holdsGlobal] at hsection

/-- A thread that has a lock is inside a call. -/
theorem LockInv.busy_of_holder {s : State} (h : LockInv s) {t : Nat} {lock : Lock}
    (hholds : s.holder lock = some t) : s.pc t ≠ .idle := by
  intro hidle
  cases lock with
  | heap n =>
      have hsection := ((h.heap n t).mp hholds).2
      rw [hidle] at hsection
      cases hsection
  | global =>
      have hsection : (s.pc t).holdsGlobal = true := (h.global t).mp hholds
      rw [hidle] at hsection
      cases hsection

/-- A thread does not wait for a lock that it has. -/
theorem LockInv.not_own {s : State} (h : LockInv s) {t : Nat} {lock : Lock}
    (hholds : s.holder lock = some t) (hwants : s.wants t = some lock) : False := by
  rcases h.nested hholds hwants with ⟨⟨curr, remain, hpc⟩, rfl⟩ | ⟨⟨curr, remain, hpc⟩, rfl⟩
  · have hsection : (s.pc t).holdsGlobal = true := (h.global t).mp hholds
    rw [hpc] at hsection
    cases hsection
  · have hsection := ((h.heap _ t).mp hholds).2
    rw [hpc] at hsection
    cases hsection

/-- Threads that share no heap do not deadlock. -/
theorem LockInv.no_deadlock {s : State} (h : LockInv s)
    (hheaps : ∀ t t', s.pc t ≠ .idle → s.pc t' ≠ .idle → heapOf t = heapOf t' → t = t') :
    ¬ s.Deadlock := by
  rintro ⟨ts, hne, hts⟩
  -- nobody waits for a heap lock: it would have to be its own
  have hglobal : ∀ t ∈ ts, ∃ curr remain, s.pc t = .lockPushRemain curr remain := by
    intro t ht
    obtain ⟨⟨lock, hholds⟩, lock', t', hwants, -, hne', hholds'⟩ := hts t ht
    rcases h.nested hholds hwants with ⟨hpc, -⟩ | ⟨⟨curr, remain, hpc⟩, rfl⟩
    · exact hpc
    · exfalso
      obtain ⟨hheap, hsection⟩ := (h.heap _ t').mp hholds'
      refine hne' (hheaps t' t (fun hidle => ?_) (by simp [hpc]) hheap)
      rw [hidle] at hsection
      cases hsection
  obtain ⟨t, ht⟩ := List.exists_mem_of_ne_nil ts hne
  obtain ⟨⟨lock, hholds⟩, lock', t', hwants, ht', -, hholds'⟩ := hts t ht
  obtain ⟨curr, remain, hpc⟩ := hglobal t ht
  obtain ⟨curr', remain', hpc'⟩ := hglobal t' ht'
  -- the holder of the global lock is not waiting for it
  rw [State.wants, hpc] at hwants
  cases hwants
  have hsection : (s.pc t').holdsGlobal = true := (h.global t').mp hholds'
  rw [hpc'] at hsection
  cases hsection

/-! ### Two threads that share a heap -/

/-- One thread refills the heap and goes on to the split of the remainder, while
the other one takes the three blocks of the refill and refills the heap again. -/
def collideActs (t t' : Nat) : List Act :=
  toSplitActs t ++ (List.replicate 3 (hitActs t' blockSize)).flatten ++
    refillActs t' 8 131072

/-- A thread empties its heap, block after block. -/
theorem drain_runs {s : State} {t : Nat} {L : List Nat} (hidle : s.pc t = .idle)
    (hlist : Linked 0 s.next (s.head (heapOf t)) L) (hlen : ∀ b ∈ L, (s.mem b).length = blockSize)
    (hfree : s.heapLock (heapOf t) = none) :
    ∃ s', Runs step Act.Fresh s (List.replicate L.length (hitActs t blockSize)).flatten s' ∧
      s'.head (heapOf t) = 0 ∧ s'.pc t = .idle ∧ s'.heapLock = s.heapLock ∧
      s'.globalLock = s.globalLock ∧ s'.regions = s.regions ∧ ∀ u, u ≠ t → s'.pc u = s.pc u := by
  induction L generalizing s with
  | nil => exact ⟨s, Runs.nil s, hlist, hidle, rfl, rfl, rfl, fun _ _ => rfl⟩
  | cons b L ih =>
      obtain ⟨hhead, hb, htail⟩ := hlist
      have hread := read_runs blockSize hidle (by decide)
      rw [hhead] at hread
      obtain ⟨s₁, htake, hmem, hhead₁, hheap₁, hglobal₁, hregions₁, hthreads₁, -⟩ :=
        @take_runs { s with
            threads := Function.update s.threads t
              (.mk blockSize (align8 blockSize) (.testHead b)) }
          t b blockSize (Function.update_self ..) (hhead ▸ hb) hb (hlen b List.mem_cons_self)
          (by decide) hfree
      have hidle₁ : s₁.pc t = .idle := by rw [State.pc, hthreads₁, Function.update_self]
      have hlist₁ : Linked 0 s₁.next (s₁.head (heapOf t)) L := by
        rw [hhead₁, Function.update_self]
        exact htail.congr fun c _ => by rw [State.next, hmem, State.next]
      obtain ⟨s', hruns, hempty, hidle', hheap, hglobal, hregions, hothers⟩ :=
        ih hidle₁ hlist₁ (fun c hc => by rw [hmem]; exact hlen c (List.mem_cons_of_mem _ hc))
          (by rw [hheap₁, hfree])
      refine ⟨s', (hread.append htake).append hruns, hempty, hidle', hheap.trans hheap₁,
        hglobal.trans hglobal₁, hregions.trans hregions₁, fun u hu => ?_⟩
      rw [hothers u hu, State.pc, hthreads₁, Function.update_of_ne hu]
      simp only [Function.update_of_ne hu, State.pc]

/-- The second thread holds the heap lock and waits for the global one, which the
first thread holds while it waits for the heap lock. -/
theorem collide_deadlock {t t' : Nat} (hheap : heapOf t' = heapOf t) (hne : t' ≠ t) :
    ∃ s, Runs step Act.Fresh init (collideActs t t') s ∧ s.Deadlock := by
  obtain ⟨s₁, hruns₁, hthreads₁, hlock₁, hglobal₁, hregions₁, hlinked₁, hlen₁, -⟩ := toSplit_runs t
  have hidle₁ : s₁.pc t' = .idle := by
    rw [State.pc, hthreads₁, Function.update_of_ne hne]
    rfl
  rw [← hheap] at hlock₁ hlinked₁
  obtain ⟨s₂, hruns₂, hempty₂, hidle₂, hlock₂, hglobal₂, hregions₂, hothers₂⟩ :=
    drain_runs hidle₁ hlinked₁ hlen₁ hlock₁
  have hok : s₂.VmallocOk 131072 initialChunkSize := by
    rw [State.VmallocOk, hregions₂, hregions₁]
    decide
  obtain ⟨s₃, hruns₃, hthreads₃, hlock₃, hglobal₃, -⟩ :=
    refill_runs 8 hidle₂ (by decide) hempty₂ (by rw [hlock₂, hlock₁]) (by decide) hok
  have hpc' : s₃.pc t' = .lockPushRemain 0 143432 := by
    rw [State.pc, hthreads₃, Function.update_self]
  have hpc : s₃.pc t = .lockSplit 77896 77928 := by
    rw [State.pc, hthreads₃, Function.update_of_ne hne.symm, ← State.pc, hothers₂ t hne.symm,
      State.pc, hthreads₁, Function.update_self]
  have hheapHeld : s₃.heapLock (heapOf t) = some t' := by
    rw [hlock₃, ← hheap, Function.update_self]
  have hglobalHeld : s₃.globalLock = some t := by rw [hglobal₃, hglobal₂, hglobal₁]
  refine ⟨s₃, (hruns₁.append hruns₂).append hruns₃, [t, t'], List.cons_ne_nil _ _, ?_⟩
  rintro u (_ | ⟨_, _ | ⟨_, ⟨⟩⟩⟩)
  · exact ⟨⟨.global, hglobalHeld⟩, .heap (heapOf t), t', by rw [State.wants, hpc], by simp, hne,
      hheapHeld⟩
  · exact ⟨⟨.heap (heapOf t), hheapHeld⟩, .global, t, by rw [State.wants, hpc'], by simp, hne.symm,
      hglobalHeld⟩

theorem refillActs_tid {t size chunk : Nat} {a : Act} (ha : a ∈ refillActs t size chunk) :
    a.tid = t := by
  simp only [refillActs, List.mem_cons, List.not_mem_nil, or_false] at ha
  rcases ha with rfl | rfl | rfl | rfl | rfl <;> rfl

theorem toSplitActs_tid {t : Nat} {a : Act} (ha : a ∈ toSplitActs t) : a.tid = t := by
  rcases List.mem_append.mp ha with ha | ha
  · exact refillActs_tid ha
  · rw [List.eq_of_mem_replicate ha]
    rfl

theorem hitActs_tid {t size : Nat} {a : Act} (ha : a ∈ hitActs t size) : a.tid = t := by
  simp only [hitActs, List.mem_append, List.mem_cons, List.not_mem_nil, or_false,
    List.mem_replicate] at ha
  rcases ha with (rfl | rfl) | ⟨-, rfl⟩ <;> rfl

theorem collideActs_tid {t t' : Nat} {a : Act} (ha : a ∈ collideActs t t') :
    a.tid = t ∨ a.tid = t' := by
  simp only [collideActs, List.mem_append, List.mem_flatten, List.mem_replicate] at ha
  rcases ha with (ha | ⟨_, ⟨-, rfl⟩, ha⟩) | ha
  · exact .inl (toSplitActs_tid ha)
  · exact .inr (hitActs_tid ha)
  · exact .inr (refillActs_tid ha)

/-- Threads of `ids` take the steps, and `vmalloc` answers as it may. -/
def Allowed (ids : Nat → Prop) (s : State) (a : Act) : Prop := a.Fresh s ∧ ids a.tid

/-- Threads outside of `ids` stay outside of `mymalloc`. -/
theorem step_busy {ids : Nat → Prop} {s s' : State} {a : Act}
    (h : ∀ t, s.pc t ≠ .idle → ids t) (ha : ids a.tid) (hstep : step s a = some s') :
    ∀ t, s'.pc t ≠ .idle → ids t := by
  obtain ⟨pc', hmove⟩ := step_locks hstep
  intro t hbusy
  by_cases ht : t = a.tid
  · rwa [ht]
  · exact h t (by rwa [← hmove.pc_other t ht])

/-- **The locks are safe exactly for threads that share no heap**: threads with ids
of some set never deadlock if and only if no two of the ids are equal modulo
`maxThreads`. -/
theorem no_deadlock_iff (ids : Nat → Prop) :
    (∀ acts s, Runs step (Allowed ids) init acts s → ¬ s.Deadlock) ↔
      ∀ t t', ids t → ids t' → heapOf t = heapOf t' → t = t' := by
  constructor
  · intro hsafe t t' ht ht' hheap
    by_contra hne
    obtain ⟨s, hruns, hdead⟩ := collide_deadlock hheap.symm (Ne.symm hne)
    refine hsafe _ s (hruns.and (everyStep_of_forall fun a ha _ => ?_)) hdead
    rcases collideActs_tid ha with h | h <;> rwa [h]
  · intro hheaps acts s hruns
    obtain ⟨hlocks, hids⟩ := hruns.invariant
      (fun s => LockInv s ∧ ∀ t, s.pc t ≠ .idle → ids t)
      (fun ⟨hlocks, hids⟩ ha hstep => ⟨step_lockInv hlocks hstep, step_busy hids ha.2 hstep⟩)
      ⟨lockInv_init, fun t h => absurd rfl h⟩
    exact hlocks.no_deadlock fun t t' ht ht' => hheaps t t' (hids t ht) (hids t' ht')

/-- Two threads whose ids differ by 64. -/
theorem deadlock_1_65 : ∃ s, Runs step Act.Fresh init (collideActs 1 65) s ∧ s.Deadlock :=
  collide_deadlock rfl (by decide)

end NjuOs.Mymalloc
