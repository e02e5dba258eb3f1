import Mathlib.Algebra.Order.BigOperators.Group.Finset
import NjuOs.Mymalloc.Double

/-!
Calls come to their ends.

A call takes at most 19 steps, the spinning apart (`threadStep_rest`). So after some steps nobody
is left inside `mymalloc`, or all who are spin. `Deadlock.step`: threads in a deadlock stay in it.
`calls_complete_iff`: the calls of threads with ids of some set always come to their ends exactly
when no two of the ids share a heap.
-/

namespace NjuOs.Mymalloc

open NjuOs.Lib

/-! ### Steps that are left -/

/-- The most steps that a call has left. -/
def Pc.rest : Pc → Nat
  | .idle => 0
  | .fallback | .returnLocal _ => 1
  | .unlockGlobal _ => 2
  | .setLength _ => 3
  | .unlockSplit _ => 4
  | .pushSplit _ _ => 5
  | .lockSplit _ _ => 6
  | .scanGlobal => 7
  | .lockGlobal => 8
  | .unlockLocal => 9
  | .scanLocal _ => 10
  | .lockLocal _ => 11
  | .unlockRefill _ => 12
  | .unlockPushRemain _ => 13
  | .pushRemain _ _ => 14
  | .lockPushRemain _ _ => 15
  | .refill _ => 16
  | .lockRefill _ => 17
  | .testHead _ => 18
  | .readHead => 19

theorem Pc.rest_le (pc : Pc) : pc.rest ≤ 19 := by cases pc <;> simp [rest]

section Rest

variable {s s' : State} {t vm : Nat}

theorem State.pc_setPc (pc : Pc) : (s.setPc t pc).pc t = pc := by simp [State.pc, State.setPc]

/-- Every step is one less to take. -/
theorem threadStep_rest (hstep : threadStep s t vm = some s') : (s'.pc t).rest < (s.pc t).rest := by
  obtain ⟨pc, hpc, htaken⟩ := exists_taken hstep
  rw [hpc]
  cases htaken with
  | goes hgoes =>
      rw [State.pc_setPc]
      cases hgoes <;> simp [Pc.rest]
  | refill =>
      rw [refillChunk_eq]
      simp [State.pc, Pc.rest]
  | pushRemain | pushSplit | setLength =>
      rw [State.pc_setPc]
      simp [Pc.rest]
  | takeLocal => simp [State.pc, takeLocal_threads, Pc.rest]
  | @takeGlobal prev b =>
      obtain ⟨pc', hthreads, rfl | ⟨newRemain, rfl⟩⟩ := takeGlobal_threads s t prev b
      · simp [State.pc, hthreads, Pc.rest]
      · simp [State.pc, hthreads, Pc.rest]
  | returns hreturns => cases hreturns <;> simp [State.ret, State.pc, State.setPc, Pc.rest]
  | fallback => simp [State.ret, State.pc, State.setPc, Pc.rest]

/-- A step inside a call. -/
def Inside (s : State) (a : Act) : Prop := a.Fresh s ∧ ∃ tid vm, a = .run tid vm

/-- Such a step is one of a thread inside `mymalloc`. -/
theorem Inside.busy {a : Act} (h : Inside s a) (hstep : step s a = some s') :
    s.pc a.tid ≠ .idle := by
  obtain ⟨-, tid, vm, rfl⟩ := h
  intro hidle
  rw [Act.tid, State.pc] at hidle
  rw [step, threadStep] at hstep
  simp only [hidle] at hstep
  cases hstep

/-- The steps that the calls of some threads have left. -/
def State.rest (s : State) (ts : Finset Nat) : Nat := ∑ t ∈ ts, (s.pc t).rest

theorem State.rest_lt {ts : Finset Nat} (hbusy : ∀ t, s.pc t ≠ .idle → t ∈ ts) {a : Act}
    (ha : Inside s a) (hstep : step s a = some s') : s'.rest ts < s.rest ts := by
  have hmem := hbusy _ (ha.busy hstep)
  obtain ⟨pc', hmove⟩ := step_locks hstep
  obtain ⟨-, tid, vm, rfl⟩ := ha
  have hself := threadStep_rest hstep
  refine Finset.sum_lt_sum (fun t _ => ?_) ⟨tid, hmem, hself⟩
  by_cases ht : t = tid
  · rw [ht]
    exact hself.le
  · rw [hmove.pc_other t ht]

theorem State.rest_le (s : State) (ts : Finset Nat) : s.rest ts ≤ 19 * ts.card := by
  have hle := Finset.sum_le_card_nsmul ts (fun t => (s.pc t).rest) 19 fun t _ => (s.pc t).rest_le
  exact hle.trans (Nat.mul_comm _ _).le

end Rest

/-- Nobody can take a step: all who are inside `mymalloc` spin. -/
def Stuck (s : State) : Prop := ∀ a s', Inside s a → step s a ≠ some s'

/-- Nobody is inside `mymalloc`. -/
structure Idle (s : State) : Prop where
  threads : ∀ t, s.pc t = .idle
  heap : ∀ h, s.heapLock h = none
  global : s.globalLock = none

theorem LockInv.idle {s : State} (h : LockInv s) (hidle : ∀ t, s.pc t = .idle) : Idle s where
  threads := hidle
  heap n := Option.eq_none_iff_forall_ne_some.mpr fun t ht =>
    @LockInv.busy_of_holder s h t (.heap n) ht (hidle t)
  global := Option.eq_none_iff_forall_ne_some.mpr fun t ht =>
    @LockInv.busy_of_holder s h t .global ht (hidle t)

/-! ### Deadlocks stay -/

section Deadlock

variable {s s' : State} {t u vm : Nat} {lock : Lock}

/-- A thread waits for a lock that somebody has. -/
theorem threadStep_blocked (hwants : s.wants t = some lock) (hheld : s.holder lock ≠ none) :
    threadStep s t vm = none := by
  refine Option.eq_none_iff_forall_ne_some.mpr fun s' hstep => ?_
  obtain ⟨pc, hpc, htaken⟩ := exists_taken hstep
  rw [State.wants, hpc] at hwants
  cases htaken with
  | goes hgoes henabled =>
      cases hgoes <;> cases hwants <;> exact hheld henabled
  | returns hreturns => cases hreturns <;> cases hwants
  | refill | pushRemain | takeLocal | takeGlobal | pushSplit | setLength | fallback => cases hwants

/-- Another thread leaves a lock where it is. -/
theorem LockInv.holder_other (h : LockInv s) {pc' : Pc} (hmove : LockStep s s' u pc')
    (hne : t ≠ u) (hholds : s.holder lock = some t) : s'.holder lock = some t := by
  cases lock with
  | heap n =>
      rw [State.holder] at hholds ⊢
      rcases hmove.heap with ⟨hsame, -⟩ | ⟨hfree, -, htaken⟩ | ⟨hheld, -, hgiven⟩
      · rwa [hsame]
      · rw [htaken, Function.update_of_ne, hholds]
        rintro rfl
        cases hfree.symm.trans hholds
      · rw [hgiven, Function.update_of_ne, hholds]
        rintro rfl
        have hown := (h.heap (heapOf u) u).mpr ⟨rfl, hheld⟩
        exact hne (Option.some.inj (hholds.symm.trans hown))
  | global =>
      rw [State.holder] at hholds ⊢
      rcases hmove.global with ⟨hsame, -⟩ | ⟨hfree, -, -⟩ | ⟨hheld, -, -⟩
      · rwa [hsame]
      · cases hfree.symm.trans hholds
      · have hown := (h.global u).mpr hheld
        exact absurd (Option.some.inj (hholds.symm.trans hown)) hne

/-- Threads in a deadlock stay in it, whatever the others do. -/
theorem State.Deadlock.step (hdead : s.Deadlock) (h : LockInv s) {a : Act} (ha : Inside s a)
    (hstep : step s a = some s') : s'.Deadlock := by
  obtain ⟨ts, hne, hts⟩ := hdead
  obtain ⟨pc', hmove⟩ := step_locks hstep
  obtain ⟨-, u, vm, rfl⟩ := ha
  have hother : ∀ t ∈ ts, t ≠ u := by
    rintro t ht rfl
    obtain ⟨-, lock, t', hwants, -, -, hholds⟩ := hts t ht
    have hblocked : threadStep s t vm = none :=
      threadStep_blocked hwants (hholds ▸ Option.some_ne_none t')
    exact Option.some_ne_none s' (hstep.symm.trans hblocked)
  refine ⟨ts, hne, fun t ht => ?_⟩
  obtain ⟨⟨held, hheld⟩, lock, t', hwants, ht', hne', hholds⟩ := hts t ht
  refine ⟨⟨held, h.holder_other hmove (hother t ht) hheld⟩, lock, t', ?_, ht', hne',
    h.holder_other hmove (hother t' ht') hholds⟩
  rwa [State.wants, hmove.pc_other t (hother t ht)]

theorem State.Deadlock.not_idle (hdead : s.Deadlock) : ¬ Idle s := by
  rintro ⟨hidle, -, -⟩
  obtain ⟨ts, hne, hts⟩ := hdead
  obtain ⟨t, ht⟩ := List.exists_mem_of_ne_nil ts hne
  obtain ⟨-, lock, t', hwants, -⟩ := hts t ht
  rw [State.wants, hidle t] at hwants
  cases hwants

end Deadlock

/-! ### Threads that share no heap -/

section Unshared

variable {ids : Nat → Prop} {s s' : State}

/-- What runs of threads that share no heap keep. -/
structure Steady (ids : Nat → Prop) (s : State) : Prop where
  ledger : ∃ l, Represents True l s
  own : OwnInv ids s
  locks : LockInv s

theorem steady_init (ids : Nat → Prop) : Steady ids init :=
  ⟨⟨_, represents_init True⟩, ownInv_init ids, lockInv_init⟩

theorem Inside.allowed (h : OwnInv ids s) {a : Act} (ha : Inside s a) (hstep : step s a = some s') :
    Allowed ids s a := ⟨ha.1, h.busy _ (ha.busy hstep)⟩

variable (hheaps : ∀ t t', ids t → ids t' → heapOf t = heapOf t' → t = t')

include hheaps

theorem Steady.step (h : Steady ids s) {a : Act} (ha : Allowed ids s a)
    (hstep : step s a = some s') : Steady ids s' := by
  obtain ⟨l, hrep⟩ := h.ledger
  have hcursor : a.OnHeap s := (h.own.cursor _).onHeap
  exact ⟨hrep.step ha.1 hcursor.cursorOk hstep, h.own.step hheaps ha.2 hstep,
    step_lockInv h.locks hstep⟩

/-- Nobody waits for a heap lock. -/
theorem Steady.heap_free (h : Steady ids s) {t n : Nat} (hwants : s.wants t = some (.heap n)) :
    s.heapLock n = none := by
  refine Option.eq_none_iff_forall_ne_some.mpr fun u hu => ?_
  have hn : n = heapOf t := by
    rw [State.wants] at hwants
    split at hwants <;> cases hwants <;> rfl
  have hheld : s.holder (.heap n) = some u := hu
  have hbusy : s.pc t ≠ .idle := fun hidle => by
    rw [State.wants, hidle] at hwants
    cases hwants
  obtain rfl := hheaps u t (h.own.busy u (h.locks.busy_of_holder hheld)) (h.own.busy t hbusy)
    (((h.locks.heap n u).mp hu).1.trans hn)
  exact h.locks.not_own hheld hwants

/-- When nobody can go on, all calls are over: the holder of the global lock never waits. -/
theorem Steady.idle_of_stuck (h : Steady ids s) (hstuck : Stuck s) : Idle s := by
  obtain ⟨l, hrep⟩ := h.ledger
  have hwaits : ∀ t, s.pc t ≠ .idle → s.wants t = some .global ∧ s.globalLock ≠ none := by
    intro t hbusy
    by_contra hgoes
    have hcursor : (Act.run t 0).OnHeap s := (h.own.cursor t).onHeap
    obtain ⟨s', hstep⟩ := @exists_threadStep True l s hrep t 0 hcursor.cursorOk (by
      intro lock hwants
      cases lock with
      | heap n => exact h.heap_free hheaps hwants
      | global => exact not_not.mp fun hheld => hgoes ⟨hwants, hheld⟩) hbusy
    exact hstuck (.run t 0) s' ⟨fun _ _ => .inl rfl, t, 0, rfl⟩ hstep
  refine h.locks.idle fun t => ?_
  by_contra hbusy
  obtain ⟨u, hu⟩ := Option.ne_none_iff_exists'.mp (hwaits t hbusy).2
  have hheld : s.holder .global = some u := hu
  exact h.locks.not_own hheld (hwaits u (h.locks.busy_of_holder hheld)).1

end Unshared

/-- Only threads that have called are inside `mymalloc`. -/
theorem busy_of_runs {P : State → Act → Prop} {acts : List Act} {s : State}
    (hruns : Runs step P init acts s) :
    ∀ t, s.pc t ≠ .idle → t ∈ (acts.map Act.tid).toFinset := by
  have hcalled : EveryStep step (fun _ a => a.tid ∈ (acts.map Act.tid).toFinset) init acts :=
    everyStep_of_forall fun a ha _ => List.mem_toFinset.mpr (List.mem_map_of_mem ha)
  exact (hruns.and hcalled).invariant
    (fun s => ∀ t, s.pc t ≠ .idle → t ∈ (acts.map Act.tid).toFinset)
    (fun h ha hstep => step_busy h ha.2 hstep) fun t h => absurd rfl h

/-- Steps inside the calls of some threads are not more than these have left. -/
theorem length_inside_le {ts : Finset Nat} {s s' : State} (hbusy : ∀ t, s.pc t ≠ .idle → t ∈ ts)
    {later : List Act} (hlater : Runs step Inside s later s') : later.length ≤ 19 * ts.card := by
  have hle := hlater.length_le (fun s => ∀ t, s.pc t ≠ .idle → t ∈ ts)
    (fun h ha hstep => step_busy h (h _ (ha.busy hstep)) hstep)
    (fun h ha hstep => State.rest_lt h ha hstep) hbusy
  exact (Nat.le_of_add_right_le hle).trans (s.rest_le ts)

/-- **Calls come to their ends exactly for threads that share no heap**: when no new calls
begin, threads with ids of some set take a bounded number of steps, the spinning apart, and in
every case all calls are over behind them, if and only if no two of the ids are equal
modulo `maxThreads`. -/
theorem calls_complete_iff (ids : Nat → Prop) :
    (∀ acts s, Runs step (Allowed ids) init acts s → ∀ later s', Runs step Inside s later s' →
        later.length ≤ 19 * acts.length ∧ (Stuck s' → Idle s')) ↔
      ∀ t t', ids t → ids t' → heapOf t = heapOf t' → t = t' := by
  constructor
  · intro hcomplete t t' ht ht' hheap
    by_contra hne
    obtain ⟨s, hruns, hdead⟩ := collide_deadlock hheap.symm (Ne.symm hne)
    have hallowed : Runs step (Allowed ids) init (collideActs t t') s := by
      refine hruns.and (everyStep_of_forall fun a ha _ => ?_)
      rcases collideActs_tid ha with h | h <;> rwa [h]
    have hlocks : LockInv s :=
      hruns.invariant LockInv (fun h _ hstep => step_lockInv h hstep) lockInv_init
    -- the deadlock is there as long as anybody can go on
    obtain ⟨later, s', hlater, hstuck⟩ := Runs.exists_stuck
      (fun s => ∀ u, s.pc u ≠ .idle → u ∈ ((collideActs t t').map Act.tid).toFinset)
      (fun h ha hstep => step_busy h (h _ (ha.busy hstep)) hstep)
      (fun h ha hstep => State.rest_lt h ha hstep) (busy_of_runs hruns)
    obtain ⟨-, hdead'⟩ := hlater.invariant (fun s => LockInv s ∧ s.Deadlock)
      (fun h ha hstep => ⟨step_lockInv h.1 hstep, h.2.step h.1 ha hstep⟩) ⟨hlocks, hdead⟩
    exact hdead'.not_idle ((hcomplete _ s hallowed later s' hlater).2 hstuck)
  · intro hheaps acts s hruns later s' hlater
    have hsteady : Steady ids s := hruns.invariant (Steady ids)
      (fun h ha hstep => h.step hheaps ha hstep) (steady_init ids)
    have hsteady' : Steady ids s' := hlater.invariant (Steady ids)
      (fun h ha hstep => h.step hheaps (ha.allowed h.own hstep) hstep) hsteady
    refine ⟨(length_inside_le (busy_of_runs hruns) hlater).trans ?_,
      hsteady'.idle_of_stuck hheaps⟩
    have hcard := List.toFinset_card_le (acts.map Act.tid)
    rw [List.length_map] at hcard
    exact Nat.mul_le_mul_left 19 hcard

end NjuOs.Mymalloc
