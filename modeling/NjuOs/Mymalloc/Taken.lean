import NjuOs.Mymalloc.Basic

/-!
The steps of a thread, by what they do.

Most steps leave memory and the lists as they are, and pass at most a lock
(`Goes`). The others change a list or return. `threadStep_iff`: these are all of
them, so what a step can do is said here once.
-/

namespace NjuOs.Mymalloc

/-- What a step does with the two locks of its thread. -/
inductive LockOp where
  | keep
  | lockHeap
  | unlockHeap
  | lockGlobal
  | unlockGlobal

/-- A lock is only taken when it is free. -/
def LockOp.Enabled (s : State) (tid : Nat) : LockOp → Prop
  | .lockHeap => s.heapLock (heapOf tid) = none
  | .lockGlobal => s.globalLock = none
  | _ => True

def State.lockOp (s : State) (tid : Nat) : LockOp → State
  | .keep => s
  | .lockHeap => { s with heapLock := Function.update s.heapLock (heapOf tid) (some tid) }
  | .unlockHeap => { s with heapLock := Function.update s.heapLock (heapOf tid) none }
  | .lockGlobal => { s with globalLock := some tid }
  | .unlockGlobal => { s with globalLock := none }

section LockOp

variable (s : State) (t : Nat) (op : LockOp)

@[simp] theorem State.lockOp_threads : (s.lockOp t op).threads = s.threads := by cases op <;> rfl

theorem State.lockOp_setPc_threads (pc : Pc) : ((s.lockOp t op).setPc t pc).threads =
    Function.update s.threads t { s.threads t with pc := pc } := by
  rw [State.setPc, s.lockOp_threads]

@[simp] theorem State.lockOp_mem : (s.lockOp t op).mem = s.mem := by cases op <;> rfl

@[simp] theorem State.lockOp_head : (s.lockOp t op).head = s.head := by cases op <;> rfl

@[simp] theorem State.lockOp_globalFreeList :
    (s.lockOp t op).globalFreeList = s.globalFreeList := by cases op <;> rfl

@[simp] theorem State.lockOp_regions : (s.lockOp t op).regions = s.regions := by cases op <;> rfl

@[simp] theorem State.lockOp_blocks : (s.lockOp t op).blocks = s.blocks := by cases op <;> rfl

@[simp] theorem State.lockOp_grants : (s.lockOp t op).grants = s.grants := by cases op <;> rfl

end LockOp

/-- The moves that leave memory and the lists as they are. -/
inductive Goes (s : State) (t vm : Nat) : LockOp → Pc → Pc → Prop where
  | readHead : Goes s t vm .keep .readHead (.testHead (s.head (heapOf t)))
  | empty {curr : Nat} (hhead : s.head (heapOf t) = 0) :
      Goes s t vm .keep (.testHead curr) (.lockRefill curr)
  | filled {curr : Nat} (hhead : s.head (heapOf t) ≠ 0) :
      Goes s t vm .keep (.testHead curr) (.lockLocal curr)
  | lockRefill {curr : Nat} : Goes s t vm .lockHeap (.lockRefill curr) (.refill curr)
  /-- Another thread has refilled the heap, or `vmalloc` fails. -/
  | noRefill {curr : Nat} (hcall : ¬ (s.head (heapOf t) = 0 ∧ vm ≠ 0)) :
      Goes s t vm .keep (.refill curr) (.unlockRefill curr)
  | lockPushRemain {curr remain : Nat} :
      Goes s t vm .lockGlobal (.lockPushRemain curr remain) (.pushRemain curr remain)
  | unlockPushRemain {curr : Nat} :
      Goes s t vm .unlockGlobal (.unlockPushRemain curr) (.unlockRefill curr)
  | unlockRefill {curr : Nat} : Goes s t vm .unlockHeap (.unlockRefill curr) (.lockLocal curr)
  | lockLocal {curr : Nat} : Goes s t vm .lockHeap (.lockLocal curr) (.scanLocal curr)
  | missLocal {curr last : Nat} (hmiss : s.search curr (s.threads t).size = some (last, 0)) :
      Goes s t vm .keep (.scanLocal curr) .unlockLocal
  | unlockLocal : Goes s t vm .unlockHeap .unlockLocal .lockGlobal
  | lockGlobal : Goes s t vm .lockGlobal .lockGlobal .scanGlobal
  | missGlobal {last : Nat}
      (hmiss : s.search s.globalFreeList (s.threads t).size = some (last, 0)) :
      Goes s t vm .keep .scanGlobal (.unlockGlobal none)
  | lockSplit {curr newRemain : Nat} :
      Goes s t vm .lockHeap (.lockSplit curr newRemain) (.pushSplit curr newRemain)
  | unlockSplit {curr : Nat} : Goes s t vm .unlockHeap (.unlockSplit curr) (.setLength curr)
  | unlockGlobal : Goes s t vm .unlockGlobal (.unlockGlobal none) .fallback
  /-- The second `vmalloc` fails, and null is returned. -/
  | failed (hvm : vm = 0) : Goes s t vm .keep .fallback .idle

/-- The return of a block, which frees the lock of its list. -/
inductive Returns (curr : Nat) : LockOp → Pc → Prop where
  | fromLocal : Returns curr .unlockHeap (.returnLocal curr)
  | fromGlobal : Returns curr .unlockGlobal (.unlockGlobal (some curr))

/-- All steps of thread `t`, from its program counter to the new state. -/
inductive Taken (s : State) (t vm : Nat) : Pc → State → Prop where
  | goes {op : LockOp} {pc pc' : Pc} (hgoes : Goes s t vm op pc pc') (henabled : op.Enabled s t) :
      Taken s t vm pc ((s.lockOp t op).setPc t pc')
  | refill {curr : Nat} (hempty : s.head (heapOf t) = 0) (hvm : vm ≠ 0) :
      Taken s t vm (.refill curr) (refillChunk s t curr vm)
  | pushRemain {curr remain : Nat} :
      Taken s t vm (.pushRemain curr remain) ({ s.setNext remain s.globalFreeList with
        globalFreeList := remain }.setPc t (.unlockPushRemain curr))
  | takeLocal {curr prev b : Nat} (hb : b ≠ 0)
      (hsearch : s.search curr (s.threads t).size = some (prev, b)) :
      Taken s t vm (.scanLocal curr) (takeLocal s t prev b)
  | takeGlobal {prev b : Nat} (hb : b ≠ 0)
      (hsearch : s.search s.globalFreeList (s.threads t).size = some (prev, b)) :
      Taken s t vm .scanGlobal (takeGlobal s t prev b)
  | pushSplit {curr newRemain : Nat} :
      Taken s t vm (.pushSplit curr newRemain) (((s.setNext newRemain
        (s.head (heapOf t))).setHead (heapOf t) newRemain).setPc t (.unlockSplit curr))
  | setLength {curr : Nat} :
      Taken s t vm (.setLength curr)
        ((s.setLength curr (s.threads t).size).setPc t (.unlockGlobal (some curr)))
  | returns {op : LockOp} {pc : Pc} {curr : Nat} (hreturns : Returns curr op pc) :
      Taken s t vm pc ((s.lockOp t op).ret t curr)
  | fallback (hvm : vm ≠ 0) :
      Taken s t vm .fallback (State.ret { s with
        mem := Function.update s.mem vm
          (Block.mk (sub64 (alignedLength (s.threads t).size) structSize) 0 t)
        regions := s.regions ++ [⟨vm, alignedLength (s.threads t).size⟩]
        blocks := s.blocks ++ [vm] } t vm)

variable {s s' : State} {t vm : Nat}

theorem Taken.of_threadStep (hstep : threadStep s t vm = some s') : Taken s t vm (s.pc t) s' := by
  cases hpc : s.pc t
  all_goals
    rw [State.pc] at hpc
    simp only [threadStep, hpc] at hstep
  case idle => cases hstep
  case readHead =>
    cases hstep
    exact .goes .readHead trivial
  case testHead curr =>
    cases hstep
    split
    case isTrue hhead => exact .goes (.empty hhead) trivial
    case isFalse hhead => exact .goes (.filled hhead) trivial
  case lockRefill curr =>
    split at hstep <;> cases hstep
    exact .goes .lockRefill ‹_›
  case refill curr =>
    split at hstep
    case isTrue hcall =>
      obtain rfl := Option.some.inj hstep
      exact .refill hcall.1 hcall.2
    case isFalse hcall =>
      cases hstep
      exact .goes (.noRefill hcall) trivial
  case lockPushRemain curr remain =>
    split at hstep <;> cases hstep
    exact .goes .lockPushRemain ‹_›
  case pushRemain curr remain =>
    cases hstep
    exact .pushRemain
  case unlockPushRemain curr =>
    cases hstep
    exact .goes .unlockPushRemain trivial
  case unlockRefill curr =>
    cases hstep
    exact .goes .unlockRefill trivial
  case lockLocal curr =>
    split at hstep <;> cases hstep
    exact .goes .lockLocal ‹_›
  case scanLocal curr =>
    obtain ⟨⟨last, b⟩, hsearch, rfl⟩ := Option.map_eq_some_iff.mp hstep
    split
    case isTrue hb =>
      subst hb
      exact .goes (.missLocal hsearch) trivial
    case isFalse hb => exact .takeLocal hb hsearch
  case returnLocal curr =>
    cases hstep
    exact .returns .fromLocal
  case unlockLocal =>
    cases hstep
    exact .goes .unlockLocal trivial
  case lockGlobal =>
    split at hstep <;> cases hstep
    exact .goes .lockGlobal ‹_›
  case scanGlobal =>
    obtain ⟨⟨last, b⟩, hsearch, rfl⟩ := Option.map_eq_some_iff.mp hstep
    split
    case isTrue hb =>
      subst hb
      exact .goes (.missGlobal hsearch) trivial
    case isFalse hb => exact .takeGlobal hb hsearch
  case lockSplit curr newRemain =>
    split at hstep <;> cases hstep
    exact .goes .lockSplit ‹_›
  case pushSplit curr newRemain =>
    cases hstep
    exact .pushSplit
  case unlockSplit curr =>
    cases hstep
    exact .goes .unlockSplit trivial
  case setLength curr =>
    cases hstep
    exact .setLength
  case unlockGlobal ret =>
    cases ret with
    | none =>
        cases hstep
        exact .goes .unlockGlobal trivial
    | some curr =>
        cases hstep
        exact .returns .fromGlobal
  case fallback =>
    split at hstep
    case isTrue hvm =>
      cases hstep
      exact .goes (.failed hvm) trivial
    case isFalse hvm =>
      obtain rfl := Option.some.inj hstep
      exact .fallback hvm

/-- A thread takes exactly these steps. -/
theorem threadStep_iff : threadStep s t vm = some s' ↔ Taken s t vm (s.pc t) s' := by
  constructor
  · exact Taken.of_threadStep
  · intro h
    generalize hpc : s.pc t = pc at h
    rw [State.pc] at hpc
    cases h with
    | goes hgoes henabled =>
        cases hgoes <;> simp_all [threadStep, LockOp.Enabled, State.lockOp]
    | returns hreturns => cases hreturns <;> simp [threadStep, hpc, State.lockOp]
    | refill hempty hvm => simp [threadStep, hpc, hempty, hvm]
    | takeLocal hb hsearch => simp [threadStep, hpc, hsearch, hb]
    | takeGlobal hb hsearch => simp [threadStep, hpc, hsearch, hb]
    | fallback hvm => simp [threadStep, hpc, hvm]
    | pushRemain | pushSplit | setLength => simp [threadStep, hpc]

theorem exists_taken (hstep : threadStep s t vm = some s') :
    ∃ pc, s.pc t = pc ∧ Taken s t vm pc s' :=
  ⟨_, rfl, threadStep_iff.mp hstep⟩

/-- A call begins, or returns at once, or a thread inside `mymalloc` takes a step. -/
theorem step_cases {a : Act} (hstep : step s a = some s') :
    s' = s ∨
      (∃ tid size, a = .malloc tid size ∧ s.pc tid = .idle ∧ s' = { s with
        threads := Function.update s.threads tid ⟨size, align8 size, .readHead⟩ }) ∨
      ∃ tid vm, a = .run tid vm ∧ threadStep s tid vm = some s' := by
  cases a with
  | malloc tid size =>
      rw [step] at hstep
      split at hstep
      case isTrue => cases hstep
      case isFalse hbusy =>
        split at hstep <;> cases hstep
        · exact .inl rfl
        · exact .inr (.inl ⟨tid, size, rfl, not_not.mp hbusy, rfl⟩)
  | free tid ptr =>
      rw [step] at hstep
      split at hstep <;> cases hstep
      exact .inl rfl
  | run tid vm => exact .inr (.inr ⟨tid, vm, rfl, hstep⟩)

end NjuOs.Mymalloc
