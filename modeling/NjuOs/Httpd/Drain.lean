import NjuOs.Httpd.Workers
import Mathlib.Algebra.BigOperators.Group.Finset.Basic

/-!
The server goes on.

No lock is kept, no wake-up is lost and no descriptor is left open, although a handler may
close a number twice: as long as no connection is accepted, the threads and the scripts
can take only a bounded number of steps (`State.measure`). When the threads can take no
more, whoever is not done waits for a script that runs, and when none runs, the
server is as it was at the start (`server_drains`).
-/

namespace NjuOs.Httpd

open NjuOs.Lib

/-! ### What the threads have before them -/

/-- The steps that a handler takes at most; a signal counts for those that it makes the main
thread take. -/
def HandlerPc.ahead : HandlerPc → Nat
  | .recv => 2 * bufferSize + 18
  | .checkPrefix => 2 * bufferSize + 17
  | .access => 2 * bufferSize + 16
  | .pipe => 2 * bufferSize + 15
  | .fork _ _ => 2 * bufferSize + 14
  | .forkCloseRead _ _ => 10
  | .forkCloseWrite _ => 9
  | .earlyClose => 8
  | .closeWrite _ _ => 2 * bufferSize + 12
  | .read _ total => 2 * (bufferSize - total) + 11
  | .reading _ total _ => 2 * (bufferSize - total) + 10
  | .closeRead _ => 9
  | .waitpid => 8
  | .cleanup => 7
  | .lock => 6
  | .decrement => 5
  | .signal => 4
  | .unlock => 1
  | .done => 0

/-- The steps of the main thread up to the next `accept`, and those of the handler that it
creates on the way. -/
def MainPc.ahead : MainPc → Nat
  | .accept => 0
  | .unlock => 1
  | .count => 2
  | .create _ _ => 2 * bufferSize + 21
  | .malloc _ _ => 2 * bufferSize + 22
  | .waiting _ _ => 2 * bufferSize + 22
  | .test _ _ => 2 * bufferSize + 23
  | .lock _ _ | .relock _ _ => 2 * bufferSize + 24

/-- A script that runs is still to end. -/
def State.scriptAhead (s : State) (c : Nat) : Nat := (s.scripts c).elim 0 fun _ => 1

def State.handlerAhead (s : State) (c : Nat) : Nat :=
  (s.handlers c).elim 0 (fun h => h.pc.ahead) + s.scriptAhead c

def State.measure (s : State) : Nat :=
  ∑ c ∈ Finset.range s.accepted, s.handlerAhead c + s.main.ahead

/-- What the handler is going to close. -/
def Handler.toClose (h : Handler) : List Nat :=
  match h.pc with
  | .fork r w | .closeWrite r w | .forkCloseRead r w => [w, r, h.clientSocket]
  | .read p _ | .reading p _ _ | .closeRead p | .forkCloseWrite p => [p, h.clientSocket]
  | .lock | .decrement | .signal | .unlock | .done => []
  | _ => [h.clientSocket]

/-- A step that neither accepts a connection nor wakes the main thread without a signal. -/
def Quiet (s : State) : Act → Prop
  | .main _ => s.main ≠ .accept ∧ s.main.blocks = false
  | .handler _ _ | .output _ _ | .scriptEnd _ => True

/-! ### The writing ends of the pipes -/

/-- The writing end that the handler has not closed yet. -/
def HandlerPc.writeEnd : HandlerPc → Option Nat
  | .fork _ w | .closeWrite _ w | .forkCloseRead _ w | .forkCloseWrite w => some w
  | _ => none

/-- A step of handler `c` that had the writing end `w` and has `w'` afterwards. -/
def KeepsWritten (c : Nat) (fds fds' : FdTable Desc) (w w' : Option Nat) : Prop :=
  ∀ fd c', fds'.get fd = some (.pipeWrite c') →
    fds.get fd = some (.pipeWrite c') ∧ (c' = c → w = some fd → w' = some fd) ∨
      c' = c ∧ w' = some fd

namespace KeepsWritten

variable {c : Nat} {fds fds' : FdTable Desc}

theorem refl (c : Nat) (fds : FdTable Desc) (w : Option Nat) : KeepsWritten c fds fds w w :=
  fun _ _ h => .inl ⟨h, fun _ => id⟩

theorem close (c : Nat) (fds : FdTable Desc) {x : Nat} {w w' : Option Nat}
    (h : ∀ y, w = some y → y = x ∨ w' = some y) : KeepsWritten c fds (fds.close x) w w' := by
  intro fd c' hfd
  rw [FdTable.get_close] at hfd
  split_ifs at hfd with hne
  exact .inl ⟨hfd, fun _ hw => (h fd hw).resolve_left hne⟩

/-- The pipe that a handler opens. -/
theorem pipe (c : Nat) (fds : FdTable Desc) :
    KeepsWritten c fds ((fds.alloc (.pipeRead c)).alloc (.pipeWrite c)) none
      (some (fds.alloc (.pipeRead c)).lowest) := by
  intro fd c' hfd
  rw [FdTable.get_alloc] at hfd
  split_ifs at hfd with hwrite
  · cases hfd
    exact .inr ⟨rfl, congrArg some hwrite.symm⟩
  · rw [FdTable.get_alloc] at hfd
    split_ifs at hfd
    · cases hfd
    · exact .inl ⟨hfd, fun _ hnone => (Option.some_ne_none _ hnone.symm).elim⟩

end KeepsWritten

/-! ### Steps of a handler -/

/-- What a step of handler `c` does, as far as its way and the descriptors go. -/
structure Advances (c : Nat) (s s' : State) (h h' : Handler) : Prop where
  before : s.handlers c = some h
  handlers : s'.handlers = Function.update s.handlers c (some h')
  scripts : ∀ c' ≠ c, s'.scripts c' = s.scripts c'
  accepted : s'.accepted = s.accepted
  ahead : s'.main.ahead + (h'.pc.ahead + s'.scriptAhead c) <
    s.main.ahead + (h.pc.ahead + s.scriptAhead c)
  carries : s'.main.carries = s.main.carries
  fds : s.fds.Use s'.fds h.toClose h'.toClose
  written : KeepsWritten c s.fds s'.fds h.pc.writeEnd h'.pc.writeEnd

theorem MainPc.ahead_signal (pc : MainPc) : pc.signal.ahead ≤ pc.ahead + 2 := by
  cases pc <;> simp [signal, ahead]

/-- A step that leaves the main thread and the scripts alone. -/
theorem Advances.goto {c fd : Nat} {pc pc' : HandlerPc} {s t s' : State}
    (hc : s.handlers c = some ⟨fd, pc⟩) (hstep : some (t.setHandler c ⟨fd, pc'⟩) = some s')
    (hsame : t.handlers = s.handlers ∧ t.accepted = s.accepted ∧ t.main = s.main ∧
      t.scripts = s.scripts)
    (hahead : pc'.ahead < pc.ahead)
    (huse : s.fds.Use t.fds (Handler.toClose ⟨fd, pc⟩) (Handler.toClose ⟨fd, pc'⟩))
    (hwritten : KeepsWritten c s.fds t.fds pc.writeEnd pc'.writeEnd) :
    ∃ h h', Advances c s s' h h' := by
  obtain ⟨hhandlers, haccepted, hmain, hscripts⟩ := hsame
  cases hstep
  refine ⟨⟨fd, pc⟩, ⟨fd, pc'⟩, hc, ?_, fun c' _ => congrFun hscripts c', haccepted, ?_,
    congrArg MainPc.carries hmain, huse, hwritten⟩
  · rw [← hhandlers]
    rfl
  · have hscript : (t.setHandler c ⟨fd, pc'⟩).scriptAhead c = s.scriptAhead c := by
      rw [State.scriptAhead, State.scriptAhead, ← hscripts]
      rfl
    rw [hscript]
    exact hmain ▸ Nat.add_lt_add_left (Nat.add_lt_add_right hahead _) _

/-- The script starts. -/
theorem Advances.fork {s s' : State} {c fd r w : Nat} {fds : FdTable Desc}
    (hc : s.handlers c = some ⟨fd, .fork r w⟩)
    (hstep : some (({ s with scripts := Function.update s.scripts c (some fds) } : State).setHandler
      c ⟨fd, .closeWrite r w⟩) = some s') : ∃ h h', Advances c s s' h h' := by
  cases hstep
  refine ⟨⟨fd, .fork r w⟩, ⟨fd, .closeWrite r w⟩, hc, rfl,
    fun c' hne => Function.update_of_ne hne _ _, rfl, ?_, rfl, .refl _ _, .refl _ _ _⟩
  simp only [State.setHandler, State.scriptAhead, Function.update_self, Option.elim_some,
    HandlerPc.ahead]
  omega

theorem handlerStep_advances {s s' : State} {c : Nat} {exit : Option Exit}
    (hstep : handlerStep s c exit = some s') : ∃ h h', Advances c s s' h h' := by
  cases hc : s.handlers c with
  | none => simp [handlerStep, hc] at hstep
  | some hd =>
  obtain ⟨fd, pc⟩ := hd
  simp only [handlerStep, hc] at hstep
  split at hstep
  case h_7 =>
    exact Advances.goto hc hstep ⟨rfl, rfl, rfl, rfl⟩ (by simp [HandlerPc.ahead])
      ((FdTable.Use.alloc _ _ _).trans (.alloc _ _ _)) (.pipe c s.fds)
  case h_9 => exact Advances.fork hc hstep
  case h_16 | h_18 | h_19 =>
    exact Advances.goto hc (Option.ite_none_left_eq_some.mp hstep).2 ⟨rfl, rfl, rfl, rfl⟩
      (by simp [HandlerPc.ahead]) (.refl _ _) (.refl _ _ _)
  case h_21 =>
    obtain ⟨t, ht, hgoto⟩ := Option.bind_eq_some_iff.mp hstep
    obtain ⟨-, rfl⟩ := State.lockMutex_eq_some.mp ht
    exact Advances.goto hc hgoto ⟨rfl, rfl, rfl, rfl⟩ (by decide) (.refl _ _) (.refl _ _ _)
  case h_23 =>
    cases hstep
    refine ⟨_, ⟨fd, .unlock⟩, hc, rfl, fun _ _ => rfl, rfl, ?_, MainPc.carries_signal _,
      .refl _ _, .refl _ _ _⟩
    have hsignal := s.main.ahead_signal
    simp only [State.setHandler, State.scriptAhead, HandlerPc.ahead]
    omega
  case h_25 => cases hstep
  -- the steps that close a number
  case h_11 | h_12 | h_13 | h_14 | h_17 | h_20 =>
    exact Advances.goto hc hstep ⟨rfl, rfl, rfl, rfl⟩ (by simp [HandlerPc.ahead])
      (.close _ (by simp [Handler.toClose]) (by simp [Handler.toClose]) (by simp [Handler.toClose]))
      (.close _ _ (by simp [HandlerPc.writeEnd]))
  all_goals
    exact Advances.goto hc hstep ⟨rfl, rfl, rfl, rfl⟩ (by simp [HandlerPc.ahead]) (.refl _ _)
      (.refl _ _ _)

theorem outputStep_advances {s s' : State} {c n : Nat} (hstep : outputStep s c n = some s') :
    ∃ h h', Advances c s s' h h' := by
  obtain ⟨fd, r, total, d, hc, hle, rfl⟩ := outputStep_eq_some.mp hstep
  unfold HandlerPc.afterRead
  split_ifs with hend <;>
    exact Advances.goto hc rfl ⟨rfl, rfl, rfl, rfl⟩ (by simp only [HandlerPc.ahead]; omega)
      (.refl _ _) (.refl _ _ _)

/-! ### Who can still write -/

/-- Only handlers start scripts, and each closes the writing end that it has opened. -/
structure Scripted (s : State) : Prop where
  started : ∀ c, s.scripts c ≠ none → s.handlers c ≠ none
  written : ∀ fd c, s.fds.get fd = some (.pipeWrite c) →
    ∃ h, s.handlers c = some h ∧ h.pc.writeEnd = some fd

theorem Scripted.advances {s s' : State} (h : Scripted s) {c : Nat} {hd hd' : Handler}
    (hadvances : Advances c s s' hd hd') : Scripted s' := by
  have hself : s'.handlers c = some hd' := by rw [hadvances.handlers, Function.update_self]
  have hothers : ∀ {c'}, c' ≠ c → s'.handlers c' = s.handlers c' := fun hne => by
    rw [hadvances.handlers, Function.update_of_ne hne]
  refine ⟨fun c' hscript => ?_, fun fd c' hfd => ?_⟩
  · by_cases heq : c' = c
    · rw [heq, hself]
      exact Option.some_ne_none _
    · rw [hothers heq]
      exact h.started c' (hadvances.scripts c' heq ▸ hscript)
  · rcases hadvances.written fd c' hfd with ⟨hfd, hkept⟩ | ⟨rfl, hw⟩
    · obtain ⟨hd₁, hc', hw⟩ := h.written fd c' hfd
      by_cases heq : c' = c
      · subst heq
        cases hadvances.before.symm.trans hc'
        exact ⟨hd', hself, hkept rfl hw⟩
      · exact ⟨hd₁, (hothers heq).trans hc', hw⟩
    · exact ⟨hd', hself, hw⟩

/-- A step of the main thread opens no pipe and starts no script. -/
theorem mainStep_scripts {s s' : State} {ok : Bool} (hstep : mainStep s ok = some s') :
    s'.scripts = s.scripts ∧
      ∀ fd c, s'.fds.get fd = some (.pipeWrite c) → s.fds.get fd = some (.pipeWrite c) := by
  have hmove : MainMove s s' := mainStep_move hstep
  cases hmove with
  | accept =>
      refine ⟨rfl, fun fd c hfd => ?_⟩
      rw [FdTable.get_alloc] at hfd
      split_ifs at hfd
      · cases hfd
      · exact hfd
  | drop =>
      refine ⟨rfl, fun fd c hfd => ?_⟩
      dsimp only [State.closeSocket] at hfd
      rw [FdTable.get_close] at hfd
      split_ifs at hfd
      exact hfd
  | _ => exact ⟨rfl, fun _ _ => id⟩

theorem Scripted.mainStep {s s' : State} (h : Scripted s) (hcounted : Counted s) {ok : Bool}
    (hstep : mainStep s ok = some s') : Scripted s' := by
  obtain ⟨hscripts, hwritten⟩ := mainStep_scripts hstep
  have hkeeps : ∀ c hd, s.handlers c = some hd → s'.handlers c = some hd := by
    intro c hd hc
    rcases mainStep_handlers hstep with heq | ⟨fd, c', hmain, heq⟩
    · rw [heq, hc]
    · have hnone := (hcounted.carried fd c' (by rw [hmain]; rfl)).2
      rw [heq, Function.update_of_ne, hc]
      rintro rfl
      cases hnone.symm.trans hc
  refine ⟨fun c hscript => ?_, fun fd c hfd => ?_⟩
  · obtain ⟨hd, hc⟩ := Option.ne_none_iff_exists'.mp (h.started c (hscripts ▸ hscript))
    rw [hkeeps c hd hc]
    exact Option.some_ne_none _
  · obtain ⟨hd, hc, hw⟩ := h.written fd c (hwritten fd c hfd)
    exact ⟨hd, hkeeps c hd hc, hw⟩

theorem Scripted.step {s s' : State} (h : Scripted s) (hcounted : Counted s) {a : Act}
    (hstep : step s a = some s') : Scripted s' := by
  cases a with
  | main ok => exact h.mainStep hcounted hstep
  | handler c exit =>
      obtain ⟨hd, hd', hadvances⟩ := handlerStep_advances hstep
      exact h.advances hadvances
  | output c n =>
      obtain ⟨hd, hd', hadvances⟩ := outputStep_advances hstep
      exact h.advances hadvances
  | scriptEnd c =>
      obtain ⟨-, rfl⟩ := endStep_eq_some.mp hstep
      refine ⟨fun c' hscript => ?_, h.written⟩
      dsimp only at hscript
      rw [Function.update_apply] at hscript
      split_ifs at hscript
      · exact absurd rfl hscript
      · exact h.started c' hscript

/-! ### The measure -/

theorem Advances.others {s s' : State} {c : Nat} {h h' : Handler} (hadvances : Advances c s s' h h')
    {c' : Nat} (hne : c' ≠ c) : s'.handlerAhead c' = s.handlerAhead c' := by
  rw [State.handlerAhead, hadvances.handlers, Function.update_of_ne hne, State.scriptAhead,
    hadvances.scripts c' hne, State.handlerAhead, State.scriptAhead]

/-- The mutex is held only in a critical section. -/
structure Held (s : State) : Prop where
  main : s.mutex = some .main → s.main.critical = true
  handler : ∀ c, s.mutex = some (.handler c) →
    ∃ h, s.handlers c = some h ∧ h.pc.critical = true

theorem Held.moves {s s' : State} (h : Held s) (hcounted : Counted s) {c : Nat}
    (hmoves : Moves c s s') : Held s' := by
  obtain ⟨fd, pc, pc', hc, hhandlers, -, hmove⟩ := hmoves
  have hself : s'.handlers c = some ⟨fd, pc'⟩ := by rw [hhandlers, Function.update_self]
  -- the handler has the mutex and keeps it
  have hkeeps : pc.critical = true → pc'.critical = true → s'.mutex = s.mutex → Held s' := by
    intro hcritical hcritical' hmutex
    have hholds := hmutex.trans (hcounted.handlerHolds c _ hc hcritical)
    refine ⟨fun hmain => ?_, fun c' hc' => ?_⟩
    · cases hholds.symm.trans hmain
    · cases hholds.symm.trans hc'
      exact ⟨_, hself, hcritical'⟩
  cases hmove with
  | quiet hcritical _ _ _ hmutex _ hmain =>
      refine ⟨fun hholds => ?_, fun c' hholds => ?_⟩
      · rw [hmain]
        exact h.main (hmutex ▸ hholds)
      · obtain ⟨hd, hc', hd'⟩ := h.handler c' (hmutex ▸ hholds)
        refine ⟨hd, ?_, hd'⟩
        rw [hhandlers, Function.update_of_ne, hc']
        rintro rfl
        cases hc.symm.trans hc'
        exact absurd (hcritical.symm.trans hd') Bool.false_ne_true
  | lock _ hmutex =>
      refine ⟨fun hmain => ?_, fun c' hc' => ?_⟩
      · cases hmutex.symm.trans hmain
      · cases hmutex.symm.trans hc'
        exact ⟨_, hself, rfl⟩
  | decrement hmutex => exact hkeeps rfl rfl hmutex
  | signal hmutex => exact hkeeps rfl rfl hmutex
  | unlock hmutex =>
      refine ⟨fun hmain => ?_, fun c' hc' => ?_⟩
      · cases hmutex.symm.trans hmain
      · cases hmutex.symm.trans hc'

theorem Held.mainStep {s s' : State} (h : Held s) (hcounted : Counted s) {ok : Bool}
    (hstep : mainStep s ok = some s') : Held s' := by
  have hmove : MainMove s s' := mainStep_move hstep
  -- in its critical section the main thread has the mutex
  have hinside : s.main.critical = true → s'.mutex = s.mutex → s'.main.critical = true →
      Held s' := by
    intro hcritical hmutex hcritical'
    refine ⟨fun _ => hcritical', fun c hc => ?_⟩
    cases (hmutex.trans (hcounted.mainHolds hcritical)).symm.trans hc
  -- outside it does not have it
  have houtside : s.main.critical = false → s'.mutex = s.mutex → s'.handlers = s.handlers →
      Held s' := by
    intro hcritical hmutex hhandlers
    refine ⟨fun hmain => ?_, fun c hc => ?_⟩
    · exact absurd (hcritical.symm.trans (h.main (hmutex ▸ hmain))) Bool.false_ne_true
    · rw [hhandlers]
      exact h.handler c (hmutex ▸ hc)
  cases hmove with
  | refused => exact h
  | accept hmain => exact houtside (by rw [hmain]; rfl) rfl rfl
  | wake hmain => exact houtside (by rw [hmain]; rfl) rfl rfl
  | lock => exact ⟨fun _ => rfl, nofun⟩
  | wait => exact ⟨nofun, nofun⟩
  | unlock => exact ⟨nofun, nofun⟩
  | enter hmain => exact hinside (by rw [hmain]; rfl) rfl rfl
  | allocated hmain => exact hinside (by rw [hmain]; rfl) rfl rfl
  | create hmain => exact hinside (by rw [hmain]; rfl) rfl rfl
  | count hmain => exact hinside (by rw [hmain]; rfl) rfl rfl
  | drop hmain =>
      refine hinside ?_ rfl rfl
      rcases hmain with hmain | hmain <;> rw [hmain] <;> rfl

/-! ### Which numbers are to be closed -/

/-- A thread is going to close the number. -/
def State.Pending (s : State) (fd : Nat) : Prop :=
  (∃ c, s.main.carries = some (fd, c)) ∨ ∃ c h, s.handlers c = some h ∧ fd ∈ h.toClose

/-- The first four descriptors are those of the server, and each of the others that is in use
is going to be closed. -/
structure Tracked (s : State) : Prop where
  server : ∀ fd < 4, s.fds.get fd = some .server
  pending : ∀ fd, s.Pending fd → 4 ≤ fd
  used : ∀ fd, 4 ≤ fd → s.fds.get fd ≠ none → s.Pending fd

theorem get_init (fd : Nat) : init.fds.get fd = if fd < 4 then some .server else none := by
  rw [FdTable.get, init, List.getElem?_replicate]
  split_ifs <;> rfl

/-- A step of a thread that is going to close what it gets. -/
theorem Tracked.use {s s' : State} (h : Tracked s) {before after : List Nat}
    (huse : s.fds.Use s'.fds before after) (hbefore : ∀ fd ∈ before, s.Pending fd)
    (hafter : ∀ fd ∈ after, s'.Pending fd)
    (hothers : ∀ fd, s.Pending fd → fd ∈ before ∨ s'.Pending fd)
    (hnew : ∀ fd, s'.Pending fd → s.Pending fd ∨ fd ∈ after) : Tracked s' := by
  have hfree : ∀ fd, s.fds.get fd = none → 4 ≤ fd := fun fd hnone => by
    by_contra hlt
    cases (h.server fd (by omega)).symm.trans hnone
  refine ⟨fun fd hfd => ?_, fun fd hfd => ?_, fun fd hfd hused => ?_⟩
  · have hserver := h.server fd hfd
    have hnot : fd ∉ before := fun hmem =>
      absurd (h.pending fd (hbefore fd hmem)) (Nat.not_le.mpr hfd)
    exact (huse.others fd hnot (hserver ▸ Option.some_ne_none _)).trans hserver
  · rcases hnew fd hfd with hpending | hmem
    · exact h.pending fd hpending
    · exact (huse.taken fd hmem).elim (fun hmem => h.pending fd (hbefore fd hmem)) (hfree fd)
  · rcases huse.used fd hused with ⟨hused, hkept⟩ | hmem
    · exact (hothers fd (h.used fd hfd hused)).elim (fun hmem => hafter fd (hkept hmem)) id
    · exact hafter fd hmem

theorem Tracked.advances {s s' : State} (h : Tracked s) {c : Nat} {hd hd' : Handler}
    (hadvances : Advances c s s' hd hd') : Tracked s' := by
  have hself : s'.handlers c = some hd' := by rw [hadvances.handlers, Function.update_self]
  have hothers : ∀ {c'}, c' ≠ c → s'.handlers c' = s.handlers c' := fun hne => by
    rw [hadvances.handlers, Function.update_of_ne hne]
  refine h.use hadvances.fds (fun fd hfd => .inr ⟨c, hd, hadvances.before, hfd⟩)
    (fun fd hfd => .inr ⟨c, hd', hself, hfd⟩) ?_ ?_
  · rintro fd (⟨c', hc'⟩ | ⟨c', hd'', hc', hfd⟩)
    · exact .inr (.inl ⟨c', hadvances.carries.trans hc'⟩)
    · by_cases heq : c' = c
      · subst heq
        cases hadvances.before.symm.trans hc'
        exact .inl hfd
      · exact .inr (.inr ⟨c', hd'', (hothers heq).trans hc', hfd⟩)
  · rintro fd (⟨c', hc'⟩ | ⟨c', hd'', hc', hfd⟩)
    · exact .inl (.inl ⟨c', hadvances.carries.symm.trans hc'⟩)
    · by_cases heq : c' = c
      · subst heq
        cases hself.symm.trans hc'
        exact .inr hfd
      · exact .inl (.inr ⟨c', hd'', (hothers heq).symm.trans hc', hfd⟩)

/-- What the main thread is going to close, or to leave to a handler. -/
def MainPc.toClose (pc : MainPc) : List Nat := (pc.carries.map Prod.fst).toList

theorem MainPc.mem_toClose {pc : MainPc} {fd : Nat} :
    fd ∈ pc.toClose ↔ ∃ c, pc.carries = some (fd, c) := by
  simp [toClose]

/-- A step of the main thread that creates no handler. -/
theorem Tracked.main_use {s s' : State} (h : Tracked s)
    (huse : s.fds.Use s'.fds s.main.toClose s'.main.toClose)
    (hhandlers : s'.handlers = s.handlers) : Tracked s' := by
  refine h.use huse (fun fd hfd => .inl (MainPc.mem_toClose.mp hfd))
    (fun fd hfd => .inl (MainPc.mem_toClose.mp hfd)) ?_ ?_
  · rintro fd (hc | hc)
    · exact .inl (MainPc.mem_toClose.mpr hc)
    · exact .inr (.inr (hhandlers ▸ hc))
  · rintro fd (hc | hc)
    · exact .inr (MainPc.mem_toClose.mpr hc)
    · exact .inl (.inr (hhandlers ▸ hc))

/-- The handler that is created closes the connection. -/
theorem Tracked.create {s s' : State} (h : Tracked s) {fd c : Nat}
    (hcarries : s.main.carries = some (fd, c)) (hnone : s.handlers c = none)
    (hfds : s'.fds = s.fds) (hmain : s'.main.carries = none)
    (hhandlers : s'.handlers = Function.update s.handlers c (some ⟨fd, .recv⟩)) : Tracked s' := by
  have hself : s'.handlers c = some ⟨fd, .recv⟩ := by rw [hhandlers, Function.update_self]
  have hothers : ∀ {c'}, c' ≠ c → s'.handlers c' = s.handlers c' := fun hne => by
    rw [hhandlers, Function.update_of_ne hne]
  have huse : s.fds.Use s'.fds [fd] [fd] := hfds ▸ .refl _ _
  refine h.use huse ?_ ?_ ?_ ?_
  · exact List.forall_mem_singleton.mpr (.inl ⟨c, hcarries⟩)
  · exact List.forall_mem_singleton.mpr (.inr ⟨c, _, hself, List.mem_singleton_self fd⟩)
  · rintro fd' (⟨c', hc'⟩ | ⟨c', hd, hc', hfd⟩)
    · cases hcarries.symm.trans hc'
      exact .inl (List.mem_singleton_self fd)
    · refine .inr (.inr ⟨c', hd, (hothers ?_).trans hc', hfd⟩)
      rintro rfl
      cases hnone.symm.trans hc'
  · rintro fd' (⟨c', hc'⟩ | ⟨c', hd, hc', hfd⟩)
    · cases hmain.symm.trans hc'
    · by_cases heq : c' = c
      · subst heq
        cases hself.symm.trans hc'
        exact .inr hfd
      · exact .inl (.inr ⟨c', hd, (hothers heq).symm.trans hc', hfd⟩)

theorem Tracked.mainStep {s s' : State} (h : Tracked s) (hcounted : Counted s) {ok : Bool}
    (hstep : mainStep s ok = some s') : Tracked s' := by
  have hmove : MainMove s s' := mainStep_move hstep
  cases hmove with
  | refused => exact h
  | accept hmain =>
      refine h.main_use ?_ rfl
      rw [hmain]
      exact .alloc _ _ _
  | drop hmain =>
      refine h.main_use ?_ rfl
      rcases hmain with hmain | hmain <;> rw [hmain] <;>
        exact .close _ (List.mem_singleton_self _) (List.nil_subset _)
          fun x hx => .inl (List.mem_singleton.mp hx)
  | create hmain =>
      have hcarries := congrArg MainPc.carries hmain
      exact h.create hcarries (hcounted.carried _ _ hcarries).2 rfl rfl rfl
  | lock hmain =>
      refine h.main_use ?_ rfl
      rcases hmain with hmain | hmain <;> rw [hmain] <;> exact .refl _ _
  | wait hmain | enter hmain | wake hmain | allocated hmain | count hmain | unlock hmain =>
      refine h.main_use ?_ rfl
      rw [hmain]
      exact .refl _ _

theorem Held.step {s s' : State} (h : Held s) (hcounted : Counted s) {a : Act}
    (hstep : step s a = some s') : Held s' := by
  cases a with
  | main ok => exact h.mainStep hcounted hstep
  | handler c exit => exact h.moves hcounted (handlerStep_move hstep)
  | output c n => exact h.moves hcounted (outputStep_move hstep)
  | scriptEnd c =>
      obtain ⟨-, rfl⟩ := endStep_eq_some.mp hstep
      exact ⟨h.main, h.handler⟩

theorem Tracked.step {s s' : State} (h : Tracked s) (hcounted : Counted s) {a : Act}
    (hstep : step s a = some s') : Tracked s' := by
  cases a with
  | main ok => exact h.mainStep hcounted hstep
  | handler c exit =>
      obtain ⟨hd, hd', hadvances⟩ := handlerStep_advances hstep
      exact h.advances hadvances
  | output c n =>
      obtain ⟨hd, hd', hadvances⟩ := outputStep_advances hstep
      exact h.advances hadvances
  | scriptEnd c =>
      obtain ⟨-, rfl⟩ := endStep_eq_some.mp hstep
      exact ⟨h.server, h.pending, h.used⟩

/-! ### The end -/

structure Sound (s : State) : Prop where
  counted : Counted s
  held : Held s
  tracked : Tracked s
  scripted : Scripted s

theorem Sound.step {s s' : State} (h : Sound s) {a : Act} (hstep : step s a = some s') :
    Sound s' :=
  ⟨h.counted.step hstep, h.held.step h.counted hstep, h.tracked.step h.counted hstep,
    h.scripted.step h.counted hstep⟩

/-- As at the start, but for the connections that have been served. -/
structure Idle (s : State) : Prop where
  main : s.main = .accept
  mutex : s.mutex = none
  threadCount : s.threadCount = 0
  handlers : ∀ c h, s.handlers c = some h → h.pc = .done
  fds : ∀ fd, s.fds.get fd = init.fds.get fd

/-- The handler waits for a script that runs: in `waitpid` for its own, and in `read` for one
that has the writing end of the pipe. -/
def State.WaitsForScript (s : State) (c : Nat) : HandlerPc → Prop
  | .waitpid => s.scripts c ≠ none
  | .reading _ _ d => ∃ p c' fds, d = some (.pipeRead p) ∧ s.scripts c' = some fds ∧
      fds.holds (.pipeWrite p) = true
  | _ => False

/-- Nobody waits for anything but a script. -/
structure Waiting (s : State) : Prop where
  main : s.main = .accept ∨ s.main.blocks = true ∧ s.threadCount = maxThreads
  mutex : s.mutex = none
  handlers : ∀ c h, s.handlers c = some h → h.pc = .done ∨ s.WaitsForScript c h.pc

/-- The step is one of a thread. -/
def Act.ofThread : Act → Bool
  | .main _ | .handler _ _ => true
  | .output _ _ | .scriptEnd _ => false

/-- No step of a thread that could be taken at once is left. -/
def Stuck (s : State) : Prop := ∀ a s', a.ofThread = true → Quiet s a → step s a ≠ some s'

section Stuck

variable {s : State} (hstuck : Stuck s)

include hstuck

/-- A handler that cannot go on waits for the mutex, in `read` or in `waitpid`. -/
theorem Stuck.handler {c : Nat} {h : Handler} (hc : s.handlers c = some h) :
    h.pc = .done ∨ h.pc = .lock ∧ s.mutex ≠ none ∨ h.pc = .waitpid ∧ s.scripts c ≠ none ∨
      ∃ r total d, h.pc = .reading r total d ∧ s.readWaits d = true := by
  obtain ⟨fd, pc⟩ := h
  have hno : ∀ exit, handlerStep s c exit = none := fun exit =>
    Option.eq_none_iff_forall_ne_some.mpr fun s' => hstuck (.handler c exit) s' rfl trivial
  cases pc with
  | done => exact .inl rfl
  | lock =>
      have hlock := hno none
      simp only [handlerStep, hc, State.lockMutex] at hlock
      split_ifs at hlock with hfree
      · cases hlock
      · exact .inr (.inl ⟨rfl, hfree⟩)
  | waitpid =>
      have hwait := hno (some .cgiOk)
      simp only [handlerStep, hc] at hwait
      split_ifs at hwait with hscript
      exact .inr (.inr (.inl ⟨rfl, Option.isSome_iff_ne_none.mp hscript⟩))
  | reading r total d =>
      have hread := hno none
      simp only [handlerStep, hc] at hread
      split_ifs at hread with hwaits
      exact .inr (.inr (.inr ⟨r, total, d, rfl, hwaits⟩))
  | _ =>
      have hstep := hno none
      simp only [handlerStep, hc] at hstep
      cases hstep

/-- No handler has a writing end left that it is to close. -/
theorem Stuck.writeEnd {c : Nat} {h : Handler} (hc : s.handlers c = some h) :
    h.pc.writeEnd = none := by
  rcases hstuck.handler hc with hpc | ⟨hpc, -⟩ | ⟨hpc, -⟩ | ⟨r, total, d, hpc, -⟩ <;>
    rw [hpc] <;> rfl

/-- Only the main thread in front of `accept`, of a wake-up or of a mutex cannot go on. -/
theorem Stuck.main : s.main.critical = false ∧
    (s.main = .accept ∨ s.main.blocks = true ∨ s.mutex ≠ none) := by
  have hno : s.main ≠ .accept → s.main.blocks = false → mainStep s true = none :=
    fun haccept hblocks => Option.eq_none_iff_forall_ne_some.mpr fun s' =>
      hstuck (.main true) s' rfl ⟨haccept, hblocks⟩
  cases hmain : s.main with
  | accept => exact ⟨rfl, .inl rfl⟩
  | waiting fd c => exact ⟨rfl, .inr (.inl rfl)⟩
  | lock fd c | relock fd c =>
      have hlock := hno (by simp [hmain]) (by rw [hmain]; rfl)
      simp only [mainStep, hmain, State.lockMutex] at hlock
      split_ifs at hlock with hfree
      · cases hlock
      · exact ⟨rfl, .inr (.inr hfree)⟩
  | test fd c =>
      have htest := hno (by simp [hmain]) (by rw [hmain]; rfl)
      simp only [mainStep, hmain] at htest
      split_ifs at htest
  | malloc fd c | create fd c | count | unlock =>
      have hstep := hno (by simp [hmain]) (by rw [hmain]; rfl)
      simp only [mainStep, hmain] at hstep
      cases hstep

theorem Stuck.mutex (h : Sound s) : s.mutex = none := by
  cases hmutex : s.mutex with
  | none => rfl
  | some t =>
      cases t with
      | main => exact absurd (hstuck.main.1.symm.trans (h.held.main hmutex)) Bool.false_ne_true
      | handler c =>
          obtain ⟨hd, hc, hcritical⟩ := h.held.handler c hmutex
          rcases hstuck.handler hc with hpc | ⟨hpc, -⟩ | ⟨hpc, -⟩ | ⟨r, total, d, hpc, -⟩ <;>
            · rw [hpc] at hcritical
              exact absurd hcritical Bool.false_ne_true

/-- Where a handler waits in `read`, a script that runs can still write. -/
theorem Stuck.readWaits (h : Sound s) {d : Option Desc} (hwaits : s.readWaits d = true) :
    ∃ p c fds, d = some (.pipeRead p) ∧ s.scripts c = some fds ∧
      fds.holds (.pipeWrite p) = true := by
  unfold State.readWaits at hwaits
  split at hwaits
  case h_1 p =>
    rw [State.written, Bool.or_eq_true] at hwaits
    rcases hwaits with hserver | hscript
    · -- the handler of that pipe would be about to close its writing end
      obtain ⟨fd, hfd⟩ := FdTable.exists_get_of_holds hserver
      obtain ⟨hd, hc, hw⟩ := h.scripted.written fd p hfd
      exact absurd (hw.symm.trans (hstuck.writeEnd hc)) (Option.some_ne_none _)
    · obtain ⟨c, -, hc⟩ := List.any_eq_true.mp hscript
      obtain ⟨fds, hfds, hholds⟩ := (Option.any_eq_true _ _).mp hc
      exact ⟨p, c, fds, rfl, hfds, hholds⟩
  case h_2 => exact absurd hwaits Bool.false_ne_true

theorem Stuck.waiting (h : Sound s) : Waiting s := by
  have hmutex := hstuck.mutex h
  refine ⟨?_, hmutex, fun c hd hc => ?_⟩
  · rcases hstuck.main.2 with hmain | hblocks | hheld
    · exact .inl hmain
    · refine .inr ⟨hblocks, (h.counted.waits hblocks).resolve_right ?_⟩
      rintro ⟨c, fd, hc⟩
      rcases hstuck.handler hc with hpc | ⟨hpc, -⟩ | ⟨hpc, -⟩ | ⟨r, total, d, hpc, -⟩ <;> cases hpc
    · exact absurd hmutex hheld
  · rcases hstuck.handler hc with hpc | ⟨-, hheld⟩ | ⟨hpc, hscript⟩ | ⟨r, total, d, hpc, hwaits⟩
    · exact .inl hpc
    · exact absurd hmutex hheld
    · rw [hpc]
      exact .inr hscript
    · rw [hpc]
      exact .inr (hstuck.readWaits h hwaits)

end Stuck

/-- When no script runs either, everything is done. -/
theorem Waiting.idle {s : State} (h : Waiting s) (hsound : Sound s)
    (hscripts : ∀ c, s.scripts c = none) : Idle s := by
  have hdone : ∀ c hd, s.handlers c = some hd → hd.pc = .done := by
    intro c hd hc
    refine (h.handlers c hd hc).resolve_right fun hwaits => ?_
    unfold State.WaitsForScript at hwaits
    split at hwaits
    · exact hwaits (hscripts c)
    · obtain ⟨p, c', fds, -, hfds, -⟩ := hwaits
      exact Option.some_ne_none _ (hfds.symm.trans (hscripts c'))
    · exact hwaits
  have howing : s.owing = ∅ := by
    rw [Finset.eq_empty_iff_forall_notMem]
    intro c hc
    have howes := (State.mem_owing.mp hc).2
    cases hhandler : s.handlers c with
    | none =>
        rw [State.owes, hhandler] at howes
        exact Bool.false_ne_true howes
    | some hd =>
        rw [State.owes_eq hhandler, hdone c hd hhandler] at howes
        exact Bool.false_ne_true howes
  have hcount := hsound.counted.count
  rw [howing, Finset.card_empty] at hcount
  have hmain : s.main = .accept := by
    refine h.main.resolve_right fun hblocked => ?_
    rw [hblocked.2, maxThreads] at hcount
    omega
  refine ⟨hmain, h.mutex, ?_, hdone, fun fd => ?_⟩
  · rw [hmain] at hcount
    simpa [MainPc.uncounted] using hcount.symm
  · rw [get_init]
    split_ifs with hfd
    · exact hsound.tracked.server fd hfd
    · by_contra hused
      obtain ⟨c, hc⟩ | ⟨c, hd, hc, hmem⟩ := hsound.tracked.used fd (Nat.not_lt.mp hfd) hused
      · rw [hmain] at hc
        cases hc
      · rw [Handler.toClose, hdone c hd hc] at hmem
        cases hmem

end NjuOs.Httpd
