import NjuOs.Httpd.Close
import Mathlib.Data.Finset.Card

/-!
How many handlers there are at a time.

`thread_count` is the number of handlers that have been created and are not past
their decrement, except between `pthread_create` and `thread_count++`, where it
is one less. That window is part of the critical section of the main thread, so
no handler can leave in it and the counter stays between 0 and `MAX_THREADS`.
The main thread waits while the counter is at the limit or while a handler that
has counted down is about to signal.
-/

namespace NjuOs.Httpd

open NjuOs.Lib

/-! ### What is counted -/

/-- The handler has executed `thread_count--`. -/
def HandlerPc.past : HandlerPc → Bool
  | .signal | .unlock | .done => true
  | _ => false

/-- The handler has locked the mutex. -/
def HandlerPc.critical : HandlerPc → Bool
  | .decrement | .signal | .unlock => true
  | _ => false

/-- The main thread has locked the mutex. -/
def MainPc.critical : MainPc → Bool
  | .test _ _ | .malloc _ _ | .create _ _ | .count | .unlock => true
  | _ => false

/-- The handlers that `pthread_create` has started and `thread_count++` has not counted. -/
def MainPc.uncounted : MainPc → Nat
  | .count => 1
  | _ => 0

/-- Handler `c` is still to decrement. -/
def State.owes (s : State) (c : Nat) : Bool := (s.handlers c).any fun h => !h.pc.past

/-- The handlers that are created and not past their decrement. -/
def State.owing (s : State) : Finset Nat := (Finset.range s.accepted).filter fun c => s.owes c

/-- The main thread blocks on the condition. -/
def MainPc.blocks : MainPc → Bool
  | .waiting _ _ => true
  | _ => false

/-- The step is one of handler `c` and lowers `thread_count`. -/
def decrements (c : Nat) (s : State) : Act → Bool
  | .handler c' exit =>
      c' = c && (handlerStep s c' exit).any fun s' => s'.threadCount < s.threadCount
  | .main _ | .output _ _ | .scriptEnd _ => false

/-! ### The steps of a handler -/

/-- What a step of handler `c` does to the state that it shares with the others. -/
inductive HandlerMove (c : Nat) (s s' : State) : HandlerPc → HandlerPc → Prop where
  | quiet {pc pc' : HandlerPc} : pc.critical = false → pc'.critical = false → pc.past = false →
      pc'.past = false → s'.mutex = s.mutex → s'.threadCount = s.threadCount → s'.main = s.main →
      HandlerMove c s s' pc pc'
  | lock : s.mutex = none → s'.mutex = some (.handler c) → s'.threadCount = s.threadCount →
      s'.main = s.main → HandlerMove c s s' .lock .decrement
  | decrement : s'.mutex = s.mutex → s'.threadCount = s.threadCount - 1 → s'.main = s.main →
      HandlerMove c s s' .decrement .signal
  | signal : s'.mutex = s.mutex → s'.threadCount = s.threadCount → s'.main = s.main.signal →
      HandlerMove c s s' .signal .unlock
  | unlock : s'.mutex = none → s'.threadCount = s.threadCount → s'.main = s.main →
      HandlerMove c s s' .unlock .done

/-- Handler `c` moves, and no other. -/
def Moves (c : Nat) (s s' : State) : Prop :=
  ∃ fd pc pc', s.handlers c = some ⟨fd, pc⟩ ∧
    s'.handlers = Function.update s.handlers c (some ⟨fd, pc'⟩) ∧ s'.accepted = s.accepted ∧
    HandlerMove c s s' pc pc'

/-- A handler goes on and leaves the counter, the mutex and the main thread alone. -/
theorem HandlerMove.goto {s t s' : State} {c fd : Nat} {pc pc' : HandlerPc}
    (hc : s.handlers c = some ⟨fd, pc⟩) (hstep : some (t.setHandler c ⟨fd, pc'⟩) = some s')
    (hsame : t.handlers = s.handlers ∧ t.accepted = s.accepted ∧ t.mutex = s.mutex ∧
      t.threadCount = s.threadCount ∧ t.main = s.main)
    (hcritical : pc.critical = false ∧ pc'.critical = false)
    (hpast : pc.past = false ∧ pc'.past = false) : Moves c s s' := by
  obtain ⟨hhandlers, haccepted, hmutex, hcount, hmain⟩ := hsame
  cases hstep
  exact ⟨fd, pc, pc', hc, by rw [← hhandlers]; rfl, haccepted,
    .quiet hcritical.1 hcritical.2 hpast.1 hpast.2 hmutex hcount hmain⟩

theorem handlerStep_move {s s' : State} {c : Nat} {exit : Option Exit}
    (hstep : handlerStep s c exit = some s') : Moves c s s' := by
  cases hc : s.handlers c with
  | none => simp [handlerStep, hc] at hstep
  | some hd =>
  obtain ⟨fd, pc⟩ := hd
  simp only [handlerStep, hc] at hstep
  split at hstep <;>
    -- all but the critical section of the handler, and but `read` and `waitpid`
    try exact HandlerMove.goto hc hstep ⟨rfl, rfl, rfl, rfl, rfl⟩ ⟨rfl, rfl⟩ ⟨rfl, rfl⟩
  case h_16 | h_18 | h_19 =>
    exact HandlerMove.goto hc (Option.ite_none_left_eq_some.mp hstep).2 ⟨rfl, rfl, rfl, rfl, rfl⟩
      ⟨rfl, rfl⟩ ⟨rfl, rfl⟩
  case h_21 =>
    obtain ⟨t, ht, hgoto⟩ := Option.bind_eq_some_iff.mp hstep
    obtain ⟨hfree, rfl⟩ := State.lockMutex_eq_some.mp ht
    cases hgoto
    exact ⟨fd, .lock, .decrement, hc, rfl, rfl, .lock hfree rfl rfl rfl⟩
  case h_22 =>
    cases hstep
    exact ⟨fd, .decrement, .signal, hc, rfl, rfl, .decrement rfl rfl rfl⟩
  case h_23 =>
    cases hstep
    exact ⟨fd, .signal, .unlock, hc, rfl, rfl, .signal rfl rfl rfl⟩
  case h_24 =>
    cases hstep
    exact ⟨fd, .unlock, .done, hc, rfl, rfl, .unlock rfl rfl rfl⟩
  case h_25 => cases hstep

theorem HandlerPc.afterRead_outside (r total n : Nat) :
    (afterRead r total n).critical = false ∧ (afterRead r total n).past = false := by
  rcases afterRead_eq r total n with heq | heq <;> rw [heq]
  · exact ⟨rfl, rfl⟩
  · exact ⟨rfl, rfl⟩

theorem outputStep_move {s s' : State} {c n : Nat} (hstep : outputStep s c n = some s') :
    Moves c s s' := by
  obtain ⟨fd, r, total, d, hc, -, rfl⟩ := outputStep_eq_some.mp hstep
  obtain ⟨hcritical, hpast⟩ := HandlerPc.afterRead_outside r total n
  exact HandlerMove.goto hc rfl ⟨rfl, rfl, rfl, rfl, rfl⟩ ⟨rfl, hcritical⟩ ⟨rfl, hpast⟩

/-! ### The set of handlers that are still to decrement -/

theorem State.owes_eq {s : State} {c : Nat} {h : Handler} (hc : s.handlers c = some h) :
    s.owes c = !h.pc.past := by rw [State.owes, hc, Option.any_some]

theorem State.mem_owing {s : State} {c : Nat} : c ∈ s.owing ↔ c < s.accepted ∧ s.owes c = true := by
  rw [State.owing, Finset.mem_filter, Finset.mem_range]

theorem State.owing_congr {s s' : State} (haccepted : s'.accepted = s.accepted)
    (howes : ∀ c, s'.owes c = s.owes c) : s'.owing = s.owing := by
  ext c
  rw [State.mem_owing, State.mem_owing, haccepted, howes]

theorem State.owes_update {s s' : State} {c : Nat} {h : Handler}
    (hhandlers : s'.handlers = Function.update s.handlers c (some h)) (c' : Nat) :
    s'.owes c' = if c' = c then !h.pc.past else s.owes c' := by
  rw [State.owes, hhandlers]
  split_ifs with heq
  · rw [heq, Function.update_self, Option.any_some]
  · rw [Function.update_of_ne heq, State.owes]

section Update

variable {s s' : State} {c fd : Nat} {pc pc' : HandlerPc}

theorem State.owing_same (hc : s.handlers c = some ⟨fd, pc⟩)
    (hhandlers : s'.handlers = Function.update s.handlers c (some ⟨fd, pc'⟩))
    (haccepted : s'.accepted = s.accepted) (hpast : pc'.past = pc.past) : s'.owing = s.owing := by
  refine State.owing_congr haccepted fun c' => ?_
  rw [State.owes_update hhandlers]
  split_ifs with heq
  · rw [heq, State.owes_eq hc, hpast]
  · rfl

/-- A handler counts down. -/
theorem State.owing_erase (hhandlers : s'.handlers = Function.update s.handlers c (some ⟨fd, pc'⟩))
    (haccepted : s'.accepted = s.accepted) (hpast : pc'.past = true) :
    s'.owing = s.owing.erase c := by
  ext c'
  rw [Finset.mem_erase, State.mem_owing, State.mem_owing, haccepted, State.owes_update hhandlers]
  split_ifs with heq
  · simp [heq, hpast]
  · simp [heq]

/-- A handler is created. -/
theorem State.owing_insert (hhandlers : s'.handlers = Function.update s.handlers c (some ⟨fd, pc'⟩))
    (haccepted : s'.accepted = s.accepted) (hlt : c < s.accepted) (hpast : pc'.past = false) :
    s'.owing = insert c s.owing := by
  ext c'
  rw [Finset.mem_insert, State.mem_owing, State.mem_owing, haccepted, State.owes_update hhandlers]
  split_ifs with heq
  · simp [heq, hpast, hlt]
  · simp [heq]

end Update

/-! ### The invariant -/

/-- The main thread has found room for one more handler. -/
def MainPc.adds : MainPc → Bool
  | .malloc _ _ | .create _ _ | .count => true
  | _ => false

structure Counted (s : State) : Prop where
  fresh : ∀ c, s.accepted ≤ c → s.handlers c = none
  carried : ∀ fd c, s.main.carries = some (fd, c) → c < s.accepted ∧ s.handlers c = none
  mainHolds : s.main.critical = true → s.mutex = some .main
  handlerHolds : ∀ c h, s.handlers c = some h → h.pc.critical = true →
    s.mutex = some (.handler c)
  count : (s.owing.card : Int) = s.threadCount + s.main.uncounted
  room : s.main.adds = true → s.threadCount < maxThreads
  limit : 0 ≤ s.threadCount ∧ s.threadCount ≤ maxThreads
  waits : s.main.blocks = true →
    s.threadCount = maxThreads ∨ ∃ c fd, s.handlers c = some ⟨fd, .signal⟩

theorem counted_init : Counted init where
  fresh _ _ := rfl
  carried _ _ h := (Option.some_ne_none _ h.symm).elim
  mainHolds h := (Bool.false_ne_true h).elim
  handlerHolds _ _ h := (Option.some_ne_none _ h.symm).elim
  count := rfl
  room h := (Bool.false_ne_true h).elim
  limit := by decide
  waits h := (Bool.false_ne_true h).elim

/-- While a handler is in its critical section, the main thread is in none. -/
theorem Counted.main_outside {s : State} (h : Counted s) {c : Nat} {hd : Handler}
    (hc : s.handlers c = some hd) (hcritical : hd.pc.critical = true) :
    s.main.critical = false := by
  have holds := h.handlerHolds c hd hc hcritical
  by_contra hmain
  have := h.mainHolds (Bool.eq_true_of_not_eq_false hmain)
  exact absurd (holds.symm.trans this) (by simp)

theorem MainPc.uncounted_of_outside {pc : MainPc} (h : pc.critical = false) : pc.uncounted = 0 := by
  cases pc <;> first | rfl | exact (Bool.false_ne_true h.symm).elim

/-! ### Steps of the handlers -/

/-- The handlers other than the one that moves, and the connection that the main
thread carries. -/
theorem Counted.handler_frame {s s' : State} (h : Counted s) {c fd : Nat} {pc pc' : HandlerPc}
    (hc : s.handlers c = some ⟨fd, pc⟩)
    (hhandlers : s'.handlers = Function.update s.handlers c (some ⟨fd, pc'⟩))
    (haccepted : s'.accepted = s.accepted) (hmain : s'.main.carries = s.main.carries) :
    (∀ c, s'.accepted ≤ c → s'.handlers c = none) ∧
      ∀ fd c, s'.main.carries = some (fd, c) → c < s'.accepted ∧ s'.handlers c = none := by
  have others : ∀ c', s.handlers c' = none → s'.handlers c' = none := by
    intro c' hnone
    have hne : c' ≠ c := by
      rintro rfl
      exact Option.some_ne_none _ (hc.symm.trans hnone)
    rw [hhandlers, Function.update_of_ne hne, hnone]
  rw [haccepted, hmain]
  exact ⟨fun c' hle => others c' (h.fresh c' hle),
    fun fd' c' hcarry => ⟨(h.carried fd' c' hcarry).1, others c' (h.carried fd' c' hcarry).2⟩⟩

/-- Nobody else holds the mutex when a handler has it. -/
theorem handlerHolds_update {s s' : State} {c fd : Nat} {pc' : HandlerPc}
    (hhandlers : s'.handlers = Function.update s.handlers c (some ⟨fd, pc'⟩))
    (hothers : ∀ c' hd, c' ≠ c → s.handlers c' = some hd → hd.pc.critical = true →
      s'.mutex = some (.handler c'))
    (hself : pc'.critical = true → s'.mutex = some (.handler c)) (c' : Nat) (hd : Handler)
    (hc' : s'.handlers c' = some hd) (hcritical : hd.pc.critical = true) :
    s'.mutex = some (.handler c') := by
  by_cases hne : c' = c
  · subst hne
    rw [hhandlers, Function.update_self] at hc'
    cases hc'
    exact hself hcritical
  · rw [hhandlers, Function.update_of_ne hne] at hc'
    exact hothers c' hd hne hc' hcritical

/-- A handler that is about to signal stays there when another one moves. -/
theorem waits_update {s s' : State} {c fd : Nat} {pc pc' : HandlerPc}
    (hc : s.handlers c = some ⟨fd, pc⟩)
    (hhandlers : s'.handlers = Function.update s.handlers c (some ⟨fd, pc'⟩))
    (hpc : pc ≠ .signal) (h : ∃ c fd, s.handlers c = some ⟨fd, .signal⟩) :
    ∃ c fd, s'.handlers c = some ⟨fd, .signal⟩ := by
  obtain ⟨c', fd', hc'⟩ := h
  have hne : c' ≠ c := by
    rintro rfl
    exact hpc (congrArg Handler.pc (Option.some.inj (hc.symm.trans hc')))
  exact ⟨c', fd', by rw [hhandlers, Function.update_of_ne hne, hc']⟩

theorem MainPc.critical_signal (pc : MainPc) : pc.signal.critical = pc.critical := by
  cases pc <;> rfl

theorem MainPc.adds_of_critical {pc : MainPc} (h : pc.adds = true) : pc.critical = true := by
  cases pc <;> first | rfl | exact (Bool.false_ne_true h).elim

/-- A step of a handler into, in or out of its critical section. -/
theorem Counted.critical_step {s s' : State} (h : Counted s) {c fd : Nat} {pc pc' : HandlerPc}
    (hc : s.handlers c = some ⟨fd, pc⟩)
    (hhandlers : s'.handlers = Function.update s.handlers c (some ⟨fd, pc'⟩))
    (haccepted : s'.accepted = s.accepted) (houtside : s.main.critical = false)
    (halone : ∀ c' hd, c' ≠ c → s.handlers c' = some hd → hd.pc.critical = false)
    (hmain : s'.main = s.main ∨ s'.main = s.main.signal)
    (hmutex : pc'.critical = true → s'.mutex = some (.handler c))
    (hcount : (s'.owing.card : Int) = s'.threadCount)
    (hlimit : 0 ≤ s'.threadCount ∧ s'.threadCount ≤ maxThreads)
    (hwaits : s'.main.blocks = true →
      s'.threadCount = maxThreads ∨ ∃ c fd, s'.handlers c = some ⟨fd, .signal⟩) : Counted s' := by
  have carries : s'.main.carries = s.main.carries := by
    rcases hmain with h | h <;> rw [h]
    exact MainPc.carries_signal _
  have outside : s'.main.critical = false := by
    rcases hmain with h | h <;> rw [h]
    · exact houtside
    · rw [MainPc.critical_signal, houtside]
  obtain ⟨fresh, carried⟩ := h.handler_frame hc hhandlers haccepted carries
  refine ⟨fresh, carried, ?_, ?_, ?_, ?_, hlimit, hwaits⟩
  · exact fun hcritical => (Bool.false_ne_true (outside.symm.trans hcritical)).elim
  · refine handlerHolds_update hhandlers (fun c' hd hne hc' hcritical => ?_) hmutex
    exact (Bool.false_ne_true ((halone c' hd hne hc').symm.trans hcritical)).elim
  · rw [hcount, MainPc.uncounted_of_outside outside]
    exact (Int.add_zero _).symm
  · intro hadds
    exact (Bool.false_ne_true (outside.symm.trans (MainPc.adds_of_critical hadds))).elim

/-- A handler that holds the mutex is the only one in a critical section. -/
theorem Counted.alone {s : State} (h : Counted s) {c : Nat} (holds : s.mutex = some (.handler c))
    (c' : Nat) (hd : Handler) (hne : c' ≠ c) (hc' : s.handlers c' = some hd) :
    hd.pc.critical = false := by
  by_contra hcritical
  have := h.handlerHolds c' hd hc' (Bool.eq_true_of_not_eq_false hcritical)
  exact hne (Thread.handler.inj (Option.some.inj (this.symm.trans holds)))

theorem Counted.count_outside {s : State} (h : Counted s) (houtside : s.main.critical = false) :
    (s.owing.card : Int) = s.threadCount := by
  rw [h.count, MainPc.uncounted_of_outside houtside]
  exact Int.add_zero _

/-- `thread_count--` of a handler. -/
theorem Counted.decrement {s s' : State} (h : Counted s) {c fd : Nat}
    (hc : s.handlers c = some ⟨fd, .decrement⟩)
    (hhandlers : s'.handlers = Function.update s.handlers c (some ⟨fd, .signal⟩))
    (haccepted : s'.accepted = s.accepted) (hcount : s'.threadCount = s.threadCount - 1) :
    (s'.owing.card : Int) = s'.threadCount ∧ 0 ≤ s'.threadCount := by
  have mem : c ∈ s.owing := by
    refine State.mem_owing.mpr ⟨?_, State.owes_eq hc⟩
    by_contra hle
    exact Option.some_ne_none _ (hc.symm.trans (h.fresh c (not_lt.mp hle)))
  have pos := Finset.card_pos.mpr ⟨c, mem⟩
  have before := h.count_outside (h.main_outside hc rfl)
  rw [State.owing_erase hhandlers haccepted rfl, Finset.card_erase_of_mem mem, hcount, ← before]
  omega

theorem Counted.moves {s s' : State} (h : Counted s) {c : Nat} (hmoves : Moves c s s') :
    Counted s' := by
  obtain ⟨fd, pc, pc', hc, hhandlers, haccepted, move⟩ := hmoves
  cases move with
  | quiet hcritical hcritical' hpast hpast' hmutex hcount hmain =>
      obtain ⟨fresh, carried⟩ := h.handler_frame hc hhandlers haccepted (by rw [hmain])
      have owing := State.owing_same hc hhandlers haccepted (hpast'.trans hpast.symm)
      have hsignal : pc ≠ .signal := by
        rintro rfl
        exact Bool.false_ne_true hcritical.symm
      refine ⟨fresh, carried, ?_, ?_, ?_, ?_, ?_, ?_⟩
      · rw [hmain, hmutex]
        exact h.mainHolds
      · refine handlerHolds_update hhandlers (fun c' hd _ => ?_) fun hpc => ?_
        · rw [hmutex]
          exact h.handlerHolds c' hd
        · exact absurd (hcritical'.symm.trans hpc) Bool.false_ne_true
      · rw [owing, hcount, hmain]
        exact h.count
      · rw [hmain, hcount]
        exact h.room
      · rw [hcount]
        exact h.limit
      · rw [hmain, hcount]
        exact fun hblocks => (h.waits hblocks).imp_right (waits_update hc hhandlers hsignal)
  | lock hfree hmutex hcount hmain =>
      have outside : s.main.critical = false := by
        by_contra hcritical
        have := h.mainHolds (Bool.eq_true_of_not_eq_false hcritical)
        exact Option.some_ne_none _ (this.symm.trans hfree)
      have alone : ∀ c' hd, c' ≠ c → s.handlers c' = some hd → hd.pc.critical = false := by
        intro c' hd _ hc'
        by_contra hcritical
        have := h.handlerHolds c' hd hc' (Bool.eq_true_of_not_eq_false hcritical)
        exact Option.some_ne_none _ (this.symm.trans hfree)
      apply h.critical_step hc hhandlers haccepted outside alone (.inl hmain) fun _ => hmutex
      · rw [State.owing_same hc hhandlers haccepted rfl, hcount, h.count_outside outside]
      · rw [hcount]
        exact h.limit
      · rw [hmain, hcount]
        exact fun hblocks =>
          (h.waits hblocks).imp_right (waits_update hc hhandlers HandlerPc.noConfusion)
  | decrement hmutex hcount hmain =>
      have holds := h.handlerHolds c _ hc rfl
      obtain ⟨card, nonneg⟩ := h.decrement hc hhandlers haccepted hcount
      apply h.critical_step hc hhandlers haccepted (h.main_outside hc rfl) (h.alone holds)
        (.inl hmain) (fun _ => hmutex.trans holds) card
      · exact ⟨nonneg, by rw [hcount]; exact (Int.sub_le_self _ Int.one_nonneg).trans h.limit.2⟩
      · exact fun _ => .inr ⟨c, fd, by rw [hhandlers, Function.update_self]⟩
  | signal hmutex hcount hmain =>
      have holds := h.handlerHolds c _ hc rfl
      have outside := h.main_outside hc rfl
      apply h.critical_step hc hhandlers haccepted outside (h.alone holds) (.inr hmain)
        fun _ => hmutex.trans holds
      · rw [State.owing_same hc hhandlers haccepted rfl, hcount, h.count_outside outside]
      · rw [hcount]
        exact h.limit
      · rw [hmain]
        intro hblocks
        cases hpc : s.main <;> rw [hpc] at hblocks <;> exact (Bool.false_ne_true hblocks).elim
  | unlock hmutex hcount hmain =>
      have holds := h.handlerHolds c _ hc rfl
      have outside := h.main_outside hc rfl
      apply h.critical_step hc hhandlers haccepted outside (h.alone holds) (.inl hmain)
        fun hcritical => (Bool.false_ne_true hcritical).elim
      · rw [State.owing_same hc hhandlers haccepted rfl, hcount, h.count_outside outside]
      · rw [hcount]
        exact h.limit
      · rw [hmain, hcount]
        exact fun hblocks =>
          (h.waits hblocks).imp_right (waits_update hc hhandlers HandlerPc.noConfusion)

/-! ### Steps of the main thread -/

/-- No handler is in its critical section unless it holds the mutex. -/
theorem Counted.idle {s : State} (h : Counted s)
    (hmutex : s.mutex = none ∨ s.mutex = some .main) (c : Nat) (hd : Handler)
    (hc : s.handlers c = some hd) : hd.pc.critical = false := by
  by_contra hcritical
  have holds := h.handlerHolds c hd hc (Bool.eq_true_of_not_eq_false hcritical)
  rcases hmutex with hmutex | hmutex
  · exact Option.some_ne_none _ (holds.symm.trans hmutex)
  · exact absurd (holds.symm.trans hmutex) (by simp)

/-- A step of the main thread that creates no handler. -/
theorem Counted.main_step {s s' : State} (h : Counted s) (hhandlers : s'.handlers = s.handlers)
    (haccepted : s'.accepted = s.accepted)
    (hcarries : s'.main.carries = s.main.carries ∨ s'.main.carries = none)
    (hholds : s'.main.critical = true → s'.mutex = some .main)
    (hmutex : s'.mutex = s.mutex ∨ s.mutex = none ∨ s.mutex = some .main)
    (hcount : s'.threadCount + s'.main.uncounted = s.threadCount + s.main.uncounted)
    (hroom : s'.main.adds = true → s'.threadCount < maxThreads)
    (hlimit : 0 ≤ s'.threadCount ∧ s'.threadCount ≤ maxThreads)
    (hwaits : s'.main.blocks = true → s'.threadCount = maxThreads) : Counted s' where
  fresh c hle := by
    rw [hhandlers]
    exact h.fresh c (haccepted ▸ hle)
  carried fd c hcarry := by
    rw [haccepted, hhandlers]
    rcases hcarries with heq | heq
    · exact h.carried fd c (heq ▸ hcarry)
    · exact (Option.some_ne_none _ (hcarry.symm.trans heq)).elim
  mainHolds := hholds
  handlerHolds c hd hc hcritical := by
    rw [hhandlers] at hc
    rcases hmutex with heq | hidle
    · rw [heq]
      exact h.handlerHolds c hd hc hcritical
    · exact (Bool.false_ne_true ((h.idle hidle c hd hc).symm.trans hcritical)).elim
  count := by
    have owes : ∀ c, s'.owes c = s.owes c := fun c => by rw [State.owes, hhandlers, State.owes]
    rw [hcount, ← h.count, State.owing_congr haccepted owes]
  room := hroom
  limit := hlimit
  waits hblocks := .inl (hwaits hblocks)

/-- A step of the main thread to a point where it neither has room to add a handler
nor waits for it. -/
theorem Counted.main_passes {s s' : State} (h : Counted s) (hhandlers : s'.handlers = s.handlers)
    (haccepted : s'.accepted = s.accepted)
    (hcarries : s'.main.carries = s.main.carries ∨ s'.main.carries = none)
    (hholds : s'.main.critical = true → s'.mutex = some .main)
    (hmutex : s'.mutex = s.mutex ∨ s.mutex = none ∨ s.mutex = some .main)
    (hcount : s'.threadCount + s'.main.uncounted = s.threadCount + s.main.uncounted)
    (hlimit : 0 ≤ s'.threadCount ∧ s'.threadCount ≤ maxThreads)
    (hadds : s'.main.adds = false) (hblocks : s'.main.blocks = false) : Counted s' := by
  apply h.main_step hhandlers haccepted hcarries hholds hmutex hcount ?_ hlimit
  · exact fun hblocks' => (Bool.false_ne_true (hblocks.symm.trans hblocks')).elim
  · exact fun hadds' => (Bool.false_ne_true (hadds.symm.trans hadds')).elim

/-- `accept` gives a new connection. -/
theorem Counted.accept {s s' : State} (h : Counted s) (hmain : s.main = .accept) {fd : Nat}
    (hhandlers : s'.handlers = s.handlers) (haccepted : s'.accepted = s.accepted + 1)
    (hmain' : s'.main = .lock fd s.accepted) (hmutex : s'.mutex = s.mutex)
    (hcount : s'.threadCount = s.threadCount) : Counted s' := by
  have owing : s'.owing = s.owing := by
    ext c
    have owes : s'.owes c = s.owes c := by rw [State.owes, hhandlers, State.owes]
    rw [State.mem_owing, State.mem_owing, haccepted, owes]
    refine and_congr_left fun hc => ⟨fun hlt => ?_, Nat.lt_succ_of_lt⟩
    by_contra hle
    rw [State.owes, h.fresh c (not_lt.mp hle)] at hc
    exact Bool.false_ne_true hc
  constructor
  case fresh =>
    intro c hle
    rw [hhandlers]
    exact h.fresh c (by omega)
  case carried =>
    intro fd' c hcarry
    rw [hmain'] at hcarry
    cases hcarry
    rw [hhandlers, haccepted]
    exact ⟨Nat.lt_succ_self _, h.fresh _ le_rfl⟩
  case mainHolds =>
    intro hcritical
    rw [hmain'] at hcritical
    exact (Bool.false_ne_true hcritical).elim
  case handlerHolds =>
    rw [hhandlers, hmutex]
    exact h.handlerHolds
  case count =>
    rw [owing, hcount, hmain', h.count, hmain]
    rfl
  case room =>
    intro hadds
    rw [hmain'] at hadds
    exact (Bool.false_ne_true hadds).elim
  case limit => rw [hcount]; exact h.limit
  case waits =>
    intro hblocks
    rw [hmain'] at hblocks
    exact (Bool.false_ne_true hblocks).elim

/-- `pthread_create` starts a handler. -/
theorem Counted.create {s s' : State} (h : Counted s) {fd c : Nat} (hmain : s.main = .create fd c)
    (hhandlers : s'.handlers = Function.update s.handlers c (some ⟨fd, .recv⟩))
    (haccepted : s'.accepted = s.accepted) (hmain' : s'.main = .count)
    (hmutex : s'.mutex = s.mutex) (hcount : s'.threadCount = s.threadCount) : Counted s' := by
  obtain ⟨hlt, hnone⟩ := h.carried fd c (by rw [hmain]; rfl)
  have holds := h.mainHolds (by rw [hmain]; rfl)
  have notMem : c ∉ s.owing := by
    intro hmem
    have := (State.mem_owing.mp hmem).2
    rw [State.owes, hnone] at this
    exact Bool.false_ne_true this
  have old : ∀ c', c' ≠ c → s'.handlers c' = s.handlers c' := by
    intro c' hne
    rw [hhandlers, Function.update_of_ne hne]
  constructor
  case fresh =>
    intro c' hle
    rw [haccepted] at hle
    rw [old c' (by omega)]
    exact h.fresh c' hle
  case carried =>
    intro fd' c' hcarry
    rw [hmain'] at hcarry
    exact (Option.some_ne_none _ hcarry.symm).elim
  case mainHolds => exact fun _ => hmutex.trans holds
  case handlerHolds =>
    refine handlerHolds_update hhandlers (fun c' hd _ hc' hcritical => ?_)
      fun hcritical => (Bool.false_ne_true hcritical).elim
    exact (Bool.false_ne_true ((h.idle (.inr holds) c' hd hc').symm.trans hcritical)).elim
  case count =>
    have before : (s.owing.card : Int) = s.threadCount := by
      rw [h.count, hmain]
      exact Int.add_zero _
    rw [State.owing_insert hhandlers haccepted hlt rfl, Finset.card_insert_of_notMem notMem, hcount,
      hmain', Int.natCast_add, before]
    rfl
  case room =>
    intro _
    rw [hcount]
    exact h.room (by rw [hmain]; rfl)
  case limit => rw [hcount]; exact h.limit
  case waits =>
    intro hblocks
    rw [hmain'] at hblocks
    exact (Bool.false_ne_true hblocks).elim

theorem Counted.mainStep {s s' : State} (h : Counted s) {ok : Bool}
    (hstep : mainStep s ok = some s') : Counted s' := by
  have holds := h.mainHolds
  have room := h.room
  cases mainStep_move hstep with
  | refused => exact h
  | accept hmain => exact h.accept hmain rfl rfl rfl rfl rfl
  | lock hmain hfree =>
      refine h.main_passes rfl rfl (.inl ?_) (fun _ => rfl) (.inr (.inl hfree)) ?_ h.limit rfl rfl
      · rcases hmain with hmain | hmain <;> rw [hmain] <;> rfl
      · rcases hmain with hmain | hmain <;> rw [hmain] <;> rfl
  | wait hmain full =>
      rw [hmain] at holds
      exact h.main_step rfl rfl (.inl (by rw [hmain]; rfl))
        (fun hcritical => (Bool.false_ne_true hcritical).elim) (.inr (.inr (holds rfl)))
        (by rw [hmain]; rfl) (fun hadds => (Bool.false_ne_true hadds).elim) h.limit
        (fun _ => le_antisymm h.limit.2 full)
  | enter hmain free =>
      rw [hmain] at holds
      exact h.main_step rfl rfl (.inl (by rw [hmain]; rfl)) (fun _ => holds rfl) (.inl rfl)
        (by rw [hmain]; rfl) (fun _ => free) h.limit
        (fun hblocks => (Bool.false_ne_true hblocks).elim)
  | wake hmain =>
      exact h.main_passes rfl rfl (.inl (by rw [hmain]; rfl))
        (fun hcritical => (Bool.false_ne_true hcritical).elim) (.inl rfl) (by rw [hmain]; rfl)
        h.limit rfl rfl
  | allocated hmain =>
      rw [hmain] at holds room
      exact h.main_step rfl rfl (.inl (by rw [hmain]; rfl)) (fun _ => holds rfl) (.inl rfl)
        (by rw [hmain]; rfl) (fun _ => room rfl) h.limit
        (fun hblocks => (Bool.false_ne_true hblocks).elim)
  | drop hmain =>
      have locked : s.mutex = some .main := by
        refine holds ?_
        rcases hmain with hmain | hmain <;> rw [hmain] <;> rfl
      refine h.main_passes rfl rfl (.inr rfl) (fun _ => locked) (.inl rfl) ?_ h.limit rfl rfl
      rcases hmain with hmain | hmain <;> rw [hmain] <;> rfl
  | create hmain => exact h.create hmain rfl rfl rfl rfl rfl
  | count hmain =>
      rw [hmain] at holds room
      exact h.main_passes rfl rfl (.inr rfl) (fun _ => holds rfl) (.inl rfl)
        (by rw [hmain]; exact Int.add_zero _)
        ⟨Int.add_nonneg h.limit.1 Int.one_nonneg, room rfl⟩ rfl rfl
  | unlock hmain =>
      rw [hmain] at holds
      exact h.main_passes rfl rfl (.inr rfl) (fun hcritical => (Bool.false_ne_true hcritical).elim)
        (.inr (.inr (holds rfl))) (by rw [hmain]; rfl) h.limit rfl rfl

theorem Counted.step {s s' : State} (h : Counted s) {a : Act} (hstep : step s a = some s') :
    Counted s' := by
  cases a with
  | main ok => exact h.mainStep hstep
  | handler c exit => exact h.moves (handlerStep_move hstep)
  | output c n => exact h.moves (outputStep_move hstep)
  | scriptEnd c =>
      obtain ⟨-, rfl⟩ := endStep_eq_some.mp hstep
      exact ⟨h.fresh, h.carried, h.mainHolds, h.handlerHolds, h.count, h.room, h.limit, h.waits⟩

/-! ### Runs -/

/-- 1 for a handler that is past its decrement. -/
def State.pastCount (c : Nat) (s : State) : Nat :=
  (s.handlers c).elim 0 fun h => h.pc.past.toNat

theorem State.pastCount_of_some {s : State} {c : Nat} {h : Handler} (hc : s.handlers c = some h) :
    s.pastCount c = h.pc.past.toNat := by rw [State.pastCount, hc, Option.elim_some]

/-- The main thread only adds handlers, at their beginning. -/
theorem mainStep_handlers {s s' : State} {ok : Bool} (hstep : mainStep s ok = some s') :
    s'.handlers = s.handlers ∨ ∃ fd c, s.main = .create fd c ∧
      s'.handlers = Function.update s.handlers c (some ⟨fd, .recv⟩) := by
  cases mainStep_move hstep with
  | create hmain => exact .inr ⟨_, _, hmain, rfl⟩
  | _ => exact .inl rfl

theorem pastCount_outputStep {c c' n : Nat} {s s' : State}
    (hstep : outputStep s c' n = some s') : s'.pastCount c = s.pastCount c := by
  obtain ⟨fd, r, total, d, hc, -, rfl⟩ := outputStep_eq_some.mp hstep
  simp only [State.pastCount, State.setHandler, Function.update_apply]
  split_ifs with heq
  · rw [heq, hc, Option.elim_some, (HandlerPc.afterRead_outside r total n).2]
    rfl
  · rfl

/-- Only the step of handler `c` at its decrement lowers the counter for `c`. -/
theorem pastCount_step {c : Nat} {s s' : State} {a : Act} (h : Counted s)
    (hstep : step s a = some s') :
    s'.pastCount c = s.pastCount c + if decrements c s a then 1 else 0 := by
  cases a with
  | main ok =>
      rcases mainStep_handlers hstep with heq | ⟨fd, c', hmain, heq⟩
      · rw [State.pastCount, heq]
        rfl
      · have hnone := (h.carried fd c' (by rw [hmain]; rfl)).2
        rw [State.pastCount, State.pastCount, heq, Function.update_apply]
        split_ifs with hsame hdec
        · exact (Bool.false_ne_true hdec).elim
        · rw [hsame, hnone]
          rfl
        · exact (Bool.false_ne_true ‹_›).elim
        · rfl
  | handler c' exit =>
      obtain ⟨fd, pc, pc', hc, hhandlers, -, move⟩ := handlerStep_move hstep
      by_cases hsame : c' = c
      · subst hsame
        have before := State.pastCount_of_some hc
        have after : s'.pastCount c' = pc'.past.toNat :=
          State.pastCount_of_some (by rw [hhandlers, Function.update_self])
        have lowers :
            decrements c' s (.handler c' exit) = decide (s'.threadCount < s.threadCount) := by
          simp only [decrements, decide_true, Bool.true_and]
          exact congrArg (Option.any _) hstep
        rw [before, after, lowers]
        cases move with
        | quiet _ _ hpast hpast' _ hcount _ => simp [hpast, hpast', hcount]
        | lock _ _ hcount _ => simp [HandlerPc.past, hcount]
        | decrement _ hcount _ =>
            have lower : s'.threadCount < s.threadCount := by
              rw [hcount]
              exact Int.sub_lt_self _ Int.one_pos
            simp [HandlerPc.past, lower]
        | signal _ hcount _ => simp [HandlerPc.past, hcount]
        | unlock _ hcount _ => simp [HandlerPc.past, hcount]
      · have other : decrements c s (.handler c' exit) = false := by
          simp only [decrements, decide_eq_false hsame, Bool.false_and]
        rw [State.pastCount, State.pastCount, hhandlers, Function.update_of_ne (Ne.symm hsame),
          other]
        rfl
  | output c' n => exact pastCount_outputStep hstep
  | scriptEnd c' =>
      obtain ⟨-, rfl⟩ := endStep_eq_some.mp hstep
      rfl

/-- In every run, `thread_count` counts the handlers that are still to
decrement, is in its bounds, and is lowered once by each handler; the accept loop
waits only while all slots are taken or a signal is on its way. -/
theorem worker_limit (acts : List Act) (s : State) (run : exec step init acts = some s) :
    (s.owing.card : Int) = s.threadCount + s.main.uncounted ∧
      0 ≤ s.threadCount ∧ s.threadCount ≤ maxThreads ∧
      (∀ c h, s.handlers c = some h →
        countSteps step (decrements c) init acts = if h.pc.past then 1 else 0) ∧
      (s.main.blocks = true →
        s.owing.card = maxThreads ∨ ∃ c fd, s.handlers c = some ⟨fd, .signal⟩) := by
  have inv : Counted s := exec_invariant (P := fun _ _ => True) (fun hs _ hstep => hs.step hstep)
    counted_init (everyStep_of_forall fun _ _ _ => trivial) run
  refine ⟨inv.count, inv.limit.1, inv.limit.2, fun c h hc => ?_, fun hblocks => ?_⟩
  · have measured : s.pastCount c =
        init.pastCount c + countSteps step (decrements c) init acts :=
      exec_countSteps (fun hs hstep => Counted.step hs hstep)
        (fun hs hstep => pastCount_step hs hstep) counted_init run
    rw [State.pastCount_of_some hc] at measured
    have start : init.pastCount c = 0 := rfl
    rw [start, Nat.zero_add] at measured
    rw [← measured]
    cases h.pc.past <;> rfl
  · refine (inv.waits hblocks).imp_left fun hfull => ?_
    have outside : s.main.critical = false := by
      cases hpc : s.main <;> rw [hpc] at hblocks
      case waiting => rfl
      all_goals exact (Bool.false_ne_true hblocks).elim
    have := inv.count_outside outside
    rw [hfull] at this
    exact Int.ofNat.inj this

theorem worker_limit_one_connection :
    ∃ acts s, exec step init acts = some s ∧
      (s.owing.card : Int) = s.threadCount + s.main.uncounted ∧
      0 ≤ s.threadCount ∧ s.threadCount ≤ maxThreads ∧
      (∀ c h, s.handlers c = some h →
        countSteps step (decrements c) init acts = if h.pc.past then 1 else 0) ∧
      (s.main.blocks = true →
        s.owing.card = maxThreads ∨ ∃ c fd, s.handlers c = some ⟨fd, .signal⟩) := by
  obtain ⟨s, run⟩ : ∃ s, exec step init (List.replicate 7 (.main true)) = some s := ⟨_, rfl⟩
  exact ⟨_, s, run, worker_limit _ s run⟩

/-- Five connections: the main thread waits for the fifth, and handler 0 leaves
because `recv` failed and has counted down. -/
def leavingRun : List Act :=
  List.replicate 31 (.main true) ++
    [.handler 0 (some .recvFailed), .handler 0 none, .handler 0 none, .handler 0 none,
      .handler 0 none]

/-- Between `pthread_create` and `thread_count++` a handler is not counted, and
between `thread_count--` and the signal the main thread is blocked with a free slot. -/
theorem worker_limit_windows :
    (∃ s, exec step init (List.replicate 5 (.main true)) = some s ∧
      s.owing.card = 1 ∧ s.threadCount = 0) ∧
    ∃ s, exec step init leavingRun = some s ∧ s.main.blocks = true ∧ s.owing.card = 3 :=
  ⟨⟨_, rfl, rfl, rfl⟩, ⟨_, rfl, rfl, rfl⟩⟩

end NjuOs.Httpd
