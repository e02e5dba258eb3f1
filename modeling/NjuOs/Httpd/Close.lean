import NjuOs.Httpd.Basic

/-!
Who closes which connection.

`ClosesOwn` says of a state that every `close(client_socket)` so far hit the
connection it was made for, and that each connection whose thread is through
with it was closed once. `closes_own_iff`: this holds in every run exactly when
no handler takes one of the five exits that close the socket before they jump
to `cleanup`, where it is closed again. Between the two calls the number can be
given to another connection (`early_exit_closes_stranger`).
-/

namespace NjuOs.Httpd

open NjuOs.Lib

/-! ### The property -/

/-- The connection that the main thread has accepted and not yet passed on. -/
def MainPc.carries : MainPc → Option (Nat × Nat)
  | .lock fd c | .test fd c | .waiting fd c | .relock fd c | .malloc fd c | .create fd c =>
      some (fd, c)
  | .accept | .count | .unlock => none

/-- The handler is past its last `close(client_socket)`. -/
def HandlerPc.closed : HandlerPc → Bool
  | .lock | .decrement | .signal | .unlock | .done => true
  | _ => false

/-- The number of `close(client_socket)` calls made for a connection. -/
def State.closesOf (s : State) (c : Nat) : Nat := s.closes.countP fun e => e.conn = c

/-- No thread is going to close the connection any more. -/
def State.Finished (s : State) (c : Nat) : Prop :=
  (∀ fd, s.main.carries ≠ some (fd, c)) ∧ ∀ h, s.handlers c = some h → h.pc.closed = true

/-- Every close hits its own connection, and each connection is closed once. -/
structure ClosesOwn (s : State) : Prop where
  own : ∀ e ∈ s.closes, e.denoted = some (.conn e.conn)
  once : ∀ c < s.accepted, s.closesOf c ≤ 1 ∧ (s.Finished c → s.closesOf c = 1)

/-! ### Steps of the main thread -/

theorem State.lockMutex_eq_some {s s' : State} {t : Thread} :
    s.lockMutex t = some s' ↔ s.mutex = none ∧ { s with mutex := some t } = s' := by
  simp [State.lockMutex]

/-- What a step of the main thread does. -/
inductive MainMove (s : State) : State → Prop where
  | refused : s.main = .accept → MainMove s s
  | accept : s.main = .accept →
      MainMove s { s with
        fds := s.fds.alloc (.conn s.accepted)
        accepted := s.accepted + 1
        main := .lock s.fds.lowest s.accepted }
  | lock {fd c : Nat} : s.main = .lock fd c ∨ s.main = .relock fd c → s.mutex = none →
      MainMove s { s with mutex := some .main, main := .test fd c }
  | wait {fd c : Nat} : s.main = .test fd c → s.threadCount ≥ maxThreads →
      MainMove s { s with mutex := none, main := .waiting fd c }
  | enter {fd c : Nat} : s.main = .test fd c → s.threadCount < maxThreads →
      MainMove s { s with requestCounter := s.requestCounter + 1, main := .malloc fd c }
  | wake {fd c : Nat} : s.main = .waiting fd c → MainMove s { s with main := .relock fd c }
  | allocated {fd c : Nat} : s.main = .malloc fd c → MainMove s { s with main := .create fd c }
  | drop {fd c : Nat} : s.main = .malloc fd c ∨ s.main = .create fd c →
      MainMove s { s.closeSocket fd c with main := .unlock }
  | create {fd c : Nat} : s.main = .create fd c →
      MainMove s { s.setHandler c ⟨fd, .recv⟩ with main := .count }
  | count : s.main = .count →
      MainMove s { s with threadCount := s.threadCount + 1, main := .unlock }
  | unlock : s.main = .unlock → MainMove s { s with mutex := none, main := .accept }

theorem mainStep_move {s s' : State} {ok : Bool} (hstep : mainStep s ok = some s') :
    MainMove s s' := by
  rw [mainStep] at hstep
  cases hmain : s.main with
  | accept =>
      rw [hmain] at hstep
      cases ok with
      | true =>
          cases hstep
          exact .accept hmain
      | false =>
          cases hstep
          exact .refused hmain
  | lock fd c =>
      rw [hmain] at hstep
      obtain ⟨t, ht, rfl⟩ := Option.map_eq_some_iff.mp hstep
      obtain ⟨hfree, rfl⟩ := State.lockMutex_eq_some.mp ht
      exact .lock (.inl hmain) hfree
  | test fd c =>
      rw [hmain] at hstep
      dsimp only at hstep
      split_ifs at hstep with hfull
      · cases hstep
        exact .wait hmain hfull
      · cases hstep
        exact .enter hmain (Int.not_le.mp hfull)
  | waiting fd c =>
      rw [hmain] at hstep
      cases hstep
      exact .wake hmain
  | relock fd c =>
      rw [hmain] at hstep
      obtain ⟨t, ht, rfl⟩ := Option.map_eq_some_iff.mp hstep
      obtain ⟨hfree, rfl⟩ := State.lockMutex_eq_some.mp ht
      exact .lock (.inr hmain) hfree
  | malloc fd c =>
      rw [hmain] at hstep
      cases ok with
      | true =>
          cases hstep
          exact .allocated hmain
      | false =>
          cases hstep
          exact .drop (.inl hmain)
  | create fd c =>
      rw [hmain] at hstep
      cases ok with
      | true =>
          cases hstep
          exact .create hmain
      | false =>
          cases hstep
          exact .drop (.inr hmain)
  | count =>
      rw [hmain] at hstep
      cases hstep
      exact .count hmain
  | unlock =>
      rw [hmain] at hstep
      cases hstep
      exact .unlock hmain

/-! ### Steps of the scripts -/

theorem outputStep_eq_some {s s' : State} {c n : Nat} : outputStep s c n = some s' ↔
    ∃ fd r total d, s.handlers c = some ⟨fd, .reading r total d⟩ ∧ n ≤ bufferSize - total - 1 ∧
      s' = s.setHandler c ⟨fd, .afterRead r total n⟩ := by
  rw [outputStep]
  constructor
  · intro hstep
    split at hstep
    case h_1 fd r total d hc =>
      obtain ⟨hle, hs'⟩ := Option.ite_none_right_eq_some.mp hstep
      exact ⟨fd, r, total, d, hc, hle, (Option.some.inj hs').symm⟩
    case h_2 => cases hstep
  · rintro ⟨fd, r, total, d, hc, hle, rfl⟩
    rw [hc]
    exact if_pos hle

theorem HandlerPc.afterRead_eq (r total n : Nat) :
    afterRead r total n = .closeRead r ∨ afterRead r total n = .read r (total + n) := by
  rw [afterRead]
  split_ifs
  · exact .inl rfl
  · exact .inr rfl

theorem endStep_eq_some {s s' : State} {c : Nat} : endStep s c = some s' ↔
    s.scripts c ≠ none ∧ s' = { s with scripts := Function.update s.scripts c none } := by
  rw [endStep, Option.ite_none_right_eq_some, Option.isSome_iff_ne_none, Option.some_inj,
    eq_comm (b := s')]

/-! ### The invariant -/

/-- The handler is on the way to the close of an early exit. -/
def HandlerPc.early : HandlerPc → Bool
  | .forkCloseRead _ _ | .forkCloseWrite _ | .earlyClose => true
  | _ => false

/-- The pipe ends that a handler has open. -/
def HandlerPc.pipes (c : Nat) : HandlerPc → List (Nat × Desc)
  | .fork r w | .closeWrite r w => [(r, .pipeRead c), (w, .pipeWrite c)]
  | .read r _ | .reading r _ _ | .closeRead r => [(r, .pipeRead c)]
  | _ => []

/-- What holds of a handler, given the table and the closes made for it. -/
structure HandlerOk (fds : FdTable Desc) (closes : Nat) (c : Nat) (h : Handler) : Prop where
  notEarly : h.pc.early = false
  socket : h.pc.closed = false → fds.get h.clientSocket = some (.conn c)
  pipes : ∀ x ∈ h.pc.pipes c, fds.get x.1 = some x.2
  count : closes = if h.pc.closed then 1 else 0

structure Inv (s : State) : Prop where
  own : ∀ e ∈ s.closes, e.denoted = some (.conn e.conn)
  main : ∀ fd c, s.main.carries = some (fd, c) → c < s.accepted ∧ s.handlers c = none ∧
    s.fds.get fd = some (.conn c) ∧ s.closesOf c = 0
  handler : ∀ c h, s.handlers c = some h → c < s.accepted ∧ HandlerOk s.fds (s.closesOf c) c h
  dropped : ∀ c < s.accepted, s.handlers c = none → (∀ fd, s.main.carries ≠ some (fd, c)) →
    s.closesOf c = 1
  fresh : ∀ c, s.accepted ≤ c → s.handlers c = none ∧ s.closesOf c = 0

theorem Inv.closesOwn {s : State} (h : Inv s) : ClosesOwn s where
  own := h.own
  once := by
    intro c hc
    cases hh : s.handlers c with
    | some hd =>
        have hcount := (h.handler c hd hh).2.count
        refine ⟨by rw [hcount]; split <;> omega, fun hfin => ?_⟩
        rw [hcount, if_pos (hfin.2 hd hh)]
    | none =>
        by_cases hmain : ∃ fd, s.main.carries = some (fd, c)
        · obtain ⟨fd, hfd⟩ := hmain
          exact ⟨by rw [(h.main fd c hfd).2.2.2]; omega, fun hfin => absurd hfd (hfin.1 fd)⟩
        · have hone := h.dropped c hc hh fun fd hfd => hmain ⟨fd, hfd⟩
          exact ⟨by omega, fun _ => hone⟩

@[simp] theorem MainPc.carries_signal (pc : MainPc) : pc.signal.carries = pc.carries := by
  cases pc <;> rfl

theorem State.closesOf_closeSocket (s : State) (fd c c' : Nat) :
    (s.closeSocket fd c).closesOf c' = s.closesOf c' + if c = c' then 1 else 0 := by
  simp only [State.closesOf, State.closeSocket, List.countP_append, List.countP_singleton,
    decide_eq_true_eq]

theorem inv_init : Inv init where
  own := by simp [init]
  main := by simp [init, MainPc.carries]
  handler := by simp [init]
  dropped := by simp [init]
  fresh := by simp [init, State.closesOf]

/-! ### Steps -/

/-- The descriptor belongs to connection `c`. -/
def Desc.About (c : Nat) (d : Desc) : Prop := d = .conn c ∨ d = .pipeRead c ∨ d = .pipeWrite c

theorem HandlerPc.pipes_about {c : Nat} {pc : HandlerPc} {x : Nat × Desc} (hx : x ∈ pc.pipes c) :
    x.2 = .pipeRead c ∨ x.2 = .pipeWrite c := by
  cases pc <;> simp only [HandlerPc.pipes, List.mem_cons, List.not_mem_nil, or_false] at hx
  case fork => rcases hx with rfl | rfl <;> simp
  case closeWrite => rcases hx with rfl | rfl <;> simp
  case read | reading | closeRead => rw [hx]; simp

/-- The table keeps everything that does not belong to connection `c`. -/
def KeepsOthers (c : Nat) (fds fds' : FdTable Desc) : Prop :=
  ∀ fd d, fds.get fd = some d → ¬ d.About c → fds'.get fd = some d

theorem HandlerOk.keep {c c' : Nat} {fds fds' : FdTable Desc} {n : Nat} {h : Handler}
    (hok : HandlerOk fds n c' h) (hkeep : KeepsOthers c fds fds') (hne : c' ≠ c) :
    HandlerOk fds' n c' h where
  notEarly := hok.notEarly
  socket hopen := hkeep _ _ (hok.socket hopen) (by simp [Desc.About, hne])
  pipes x hx := by
    refine hkeep _ _ (hok.pipes x hx) ?_
    rcases HandlerPc.pipes_about hx with h | h <;> simp [Desc.About, h, hne]
  count := hok.count

theorem KeepsOthers.refl (c : Nat) (fds : FdTable Desc) : KeepsOthers c fds fds :=
  fun _ _ h _ => h

theorem KeepsOthers.alloc (c : Nat) (fds : FdTable Desc) (d : Desc) :
    KeepsOthers c fds (fds.alloc d) := fun _ _ h _ => FdTable.get_alloc_of_some h d

theorem KeepsOthers.trans {c : Nat} {fds fds' fds'' : FdTable Desc} (h : KeepsOthers c fds fds')
    (h' : KeepsOthers c fds' fds'') : KeepsOthers c fds fds'' :=
  fun fd d hd hne => h' fd d (h fd d hd hne) hne

theorem KeepsOthers.close {c : Nat} {fds : FdTable Desc} {fd : Nat} {d : Desc}
    (hd : fds.get fd = some d) (habout : d.About c) : KeepsOthers c fds (fds.close fd) :=
  fun _ _ h hne => FdTable.get_close_of_ne hd h fun heq => hne (heq ▸ habout)

/-- What a handler may do to the state it shares with the other threads. -/
theorem Inv.handler_step {s s' : State} (h : Inv s) {c : Nat} {hd hd' : Handler}
    (hc : s.handlers c = some hd) (haccepted : s'.accepted = s.accepted)
    (hmain : s'.main.carries = s.main.carries)
    (hhandlers : s'.handlers = Function.update s.handlers c (some hd'))
    (hkeep : KeepsOthers c s.fds s'.fds)
    (hcloses : s'.closes = s.closes ∨ s'.closes = s.closes ++ [⟨c, some (.conn c)⟩])
    (hok : HandlerOk s'.fds (s'.closesOf c) c hd') : Inv s' := by
  have hcount : ∀ c' ≠ c, s'.closesOf c' = s.closesOf c' := by
    intro c' hne
    rcases hcloses with heq | heq
    · rw [State.closesOf, heq, State.closesOf]
    · simp [State.closesOf, heq, Ne.symm hne]
  have hhandler : ∀ c' ≠ c, s'.handlers c' = s.handlers c' := by
    intro c' hne
    rw [hhandlers, Function.update_of_ne hne]
  have hself : s'.handlers c = some hd' := by rw [hhandlers, Function.update_self]
  constructor
  case own =>
    intro e he
    rcases hcloses with heq | heq
    · exact h.own e (heq ▸ he)
    · rw [heq] at he
      rcases List.mem_append.mp he with he | he
      · exact h.own e he
      · rw [List.mem_singleton.mp he]
  case main =>
    intro fd c' hcarry
    rw [hmain] at hcarry
    obtain ⟨hlt, hnone, hfd, hzero⟩ := h.main fd c' hcarry
    have hne : c' ≠ c := by
      rintro rfl
      rw [hc] at hnone
      cases hnone
    exact ⟨haccepted ▸ hlt, (hhandler c' hne).trans hnone,
      hkeep _ _ hfd (by simp [Desc.About, hne]), (hcount c' hne).trans hzero⟩
  case handler =>
    intro c' hd₁ hhd₁
    by_cases hne : c' = c
    · subst hne
      cases hself.symm.trans hhd₁
      exact ⟨haccepted ▸ (h.handler c' hd hc).1, hok⟩
    · obtain ⟨hlt, hok'⟩ := h.handler c' hd₁ ((hhandler c' hne).symm.trans hhd₁)
      rw [haccepted, hcount c' hne]
      exact ⟨hlt, hok'.keep hkeep hne⟩
  case dropped =>
    intro c' hlt hnone hcarry
    have hne : c' ≠ c := by
      rintro rfl
      cases hself.symm.trans hnone
    rw [hmain] at hcarry
    rw [hcount c' hne]
    exact h.dropped c' (haccepted ▸ hlt) ((hhandler c' hne).symm.trans hnone) hcarry
  case fresh =>
    intro c' hle
    rw [haccepted] at hle
    have hne : c' ≠ c := by
      rintro rfl
      have := (h.handler c' hd hc).1
      omega
    rw [hhandler c' hne, hcount c' hne]
    exact h.fresh c' hle

/-- A handler goes on without touching the table. -/
theorem HandlerOk.goto {fds : FdTable Desc} {n c fd : Nat} {pc pc' : HandlerPc}
    (hok : HandlerOk fds n c ⟨fd, pc⟩) (hearly : pc'.early = false)
    (hclosed : pc'.closed = pc.closed)
    (hpipes : ∀ x ∈ pc'.pipes c, x ∈ pc.pipes c) : HandlerOk fds n c ⟨fd, pc'⟩ where
  notEarly := hearly
  socket hopen := hok.socket (hclosed ▸ hopen)
  pipes x hx := hok.pipes x (hpipes x hx)
  count := by rw [hok.count]; simp only [hclosed]

/-- A handler closes an end of its pipe and goes on. -/
theorem HandlerOk.closePipe {fds : FdTable Desc} {n c fd p : Nat} {d : Desc} {pc pc' : HandlerPc}
    (hok : HandlerOk fds n c ⟨fd, pc⟩) (hp : (p, d) ∈ pc.pipes c) (hearly : pc'.early = false)
    (hopen : pc.closed = false) (hopen' : pc'.closed = false)
    (hpipes : ∀ x ∈ pc'.pipes c, x ∈ pc.pipes c ∧ x.2 ≠ d) :
    HandlerOk (fds.close p) n c ⟨fd, pc'⟩ where
  notEarly := hearly
  socket _ := by
    refine FdTable.get_close_of_ne (hok.pipes _ hp) (hok.socket hopen) ?_
    rcases HandlerPc.pipes_about hp with rfl | rfl <;> exact fun h => nomatch h
  pipes x hx :=
    FdTable.get_close_of_ne (hok.pipes _ hp) (hok.pipes x (hpipes x hx).1) (hpipes x hx).2
  count := by rw [hok.count]; simp only [hopen, hopen']

/-- A handler on a CGI path keeps the invariant. -/
theorem Inv.handlerStep {s s' : State} (h : Inv s) {c : Nat} {exit : Option Exit}
    (hexit : ∀ e, exit = some e → e = .cgiOk ∨ e = .cgiFailed)
    (hstep : handlerStep s c exit = some s') : Inv s' := by
  cases hc : s.handlers c with
  | none => simp [Httpd.handlerStep, hc] at hstep
  | some hd =>
  obtain ⟨fd, pc⟩ := hd
  have hok := (h.handler c _ hc).2
  have hnone : pc ≠ .waitpid → exit = none := by
    intro hpc
    cases exit with
    | none => rfl
    | some e =>
        exfalso
        rcases hexit e rfl with rfl | rfl <;> cases pc <;>
          simp [Httpd.handlerStep, hc] at hstep hpc
  simp only [Httpd.handlerStep, hc] at hstep
  cases pc
  case recv | checkPrefix | access | fork | decrement | unlock =>
    -- the handler goes on and touches neither the table nor the closes
    cases hnone (by simp)
    cases hstep
    exact h.handler_step hc rfl rfl rfl (.refl _ _) (.inl rfl)
      (hok.goto rfl rfl (by simp [HandlerPc.pipes]))
  case pipe =>
    cases hnone (by simp)
    cases hstep
    refine h.handler_step hc rfl rfl rfl
      (KeepsOthers.trans (.alloc _ _ _) (.alloc _ _ _)) (.inl rfl) ?_
    refine ⟨rfl, fun _ => ?_, fun x hx => ?_, hok.count⟩
    · exact FdTable.get_alloc_of_some (FdTable.get_alloc_of_some (hok.socket rfl) _) _
    · simp only [HandlerPc.pipes, List.mem_cons, List.not_mem_nil, or_false] at hx
      rcases hx with rfl | rfl
      · exact FdTable.get_alloc_of_some (FdTable.get_alloc_lowest ..) _
      · exact FdTable.get_alloc_lowest ..
  case forkCloseRead | forkCloseWrite | earlyClose => cases hok.notEarly
  case closeWrite r w =>
    cases hnone (by simp)
    cases hstep
    have hw : (w, Desc.pipeWrite c) ∈ (HandlerPc.closeWrite r w).pipes c := by
      simp [HandlerPc.pipes]
    exact h.handler_step hc rfl rfl rfl (.close (hok.pipes _ hw) (.inr (.inr rfl))) (.inl rfl)
      (hok.closePipe hw rfl rfl rfl (by simp [HandlerPc.pipes]))
  case read r total =>
    cases hnone (by simp)
    cases hstep
    exact h.handler_step hc rfl rfl rfl (.refl _ _) (.inl rfl)
      (hok.goto rfl rfl (by simp [HandlerPc.pipes]))
  case reading r total d =>
    cases hnone (by simp)
    dsimp only at hstep
    split_ifs at hstep
    cases hstep
    exact h.handler_step hc rfl rfl rfl (.refl _ _) (.inl rfl)
      (hok.goto rfl rfl (by simp [HandlerPc.pipes]))
  case closeRead r =>
    cases hnone (by simp)
    cases hstep
    have hr : (r, Desc.pipeRead c) ∈ (HandlerPc.closeRead r).pipes c := by
      simp [HandlerPc.pipes]
    exact h.handler_step hc rfl rfl rfl (.close (hok.pipes _ hr) (.inr (.inl rfl))) (.inl rfl)
      (hok.closePipe hr rfl rfl rfl (by simp [HandlerPc.pipes]))
  case waitpid =>
    have hgoto : s' = s.setHandler c ⟨fd, .cleanup⟩ := by
      cases exit with
      | none => cases hstep
      | some e =>
          rcases hexit e rfl with rfl | rfl
          · dsimp only at hstep
            split_ifs at hstep
            cases hstep
            rfl
          · dsimp only at hstep
            split_ifs at hstep
            cases hstep
            rfl
    subst hgoto
    exact h.handler_step hc rfl rfl rfl (.refl _ _) (.inl rfl)
      (hok.goto rfl rfl (by simp [HandlerPc.pipes]))
  case cleanup =>
    cases hnone (by simp)
    cases hstep
    have hfd := hok.socket rfl
    refine h.handler_step hc rfl rfl rfl (.close hfd (.inl rfl))
      (.inr (by simp [State.closeSocket, State.setHandler, hfd])) ?_
    have hzero : s.closesOf c = 0 := hok.count
    refine ⟨rfl, (nomatch ·), fun x hx => (nomatch hx), ?_⟩
    exact (s.closesOf_closeSocket fd c c).trans (by rw [hzero, if_pos rfl]; rfl)
  case lock =>
    cases hnone (by simp)
    obtain ⟨t, ht, hgoto⟩ := Option.bind_eq_some_iff.mp hstep
    obtain ⟨-, rfl⟩ := State.lockMutex_eq_some.mp ht
    cases hgoto
    exact h.handler_step hc rfl rfl rfl (.refl _ _) (.inl rfl)
      (hok.goto rfl rfl (by simp [HandlerPc.pipes]))
  case signal =>
    cases hnone (by simp)
    cases hstep
    exact h.handler_step hc rfl (MainPc.carries_signal _) rfl (.refl _ _) (.inl rfl)
      (hok.goto rfl rfl (by simp [HandlerPc.pipes]))
  case done =>
    cases hnone (by simp)
    cases hstep

/-- The main thread accepts a connection. -/
theorem Inv.accept {s : State} (h : Inv s) (hmain : s.main.carries = none) :
    Inv { s with
      fds := s.fds.alloc (.conn s.accepted)
      accepted := s.accepted + 1
      main := .lock s.fds.lowest s.accepted } where
  own := h.own
  main := by
    rintro _ _ ⟨⟩
    obtain ⟨hnone, hzero⟩ := h.fresh s.accepted (Nat.le_refl _)
    exact ⟨Nat.lt_succ_self _, hnone, FdTable.get_alloc_lowest .., hzero⟩
  handler := by
    intro c hd hc
    obtain ⟨hlt, hok⟩ := h.handler c hd hc
    exact ⟨Nat.lt_succ_of_lt hlt, hok.keep (.alloc s.accepted _ _) (Nat.ne_of_lt hlt)⟩
  dropped := by
    intro c hlt hnone hcarry
    have hne : c ≠ s.accepted := fun heq => hcarry s.fds.lowest (by rw [heq]; rfl)
    exact h.dropped c (Nat.lt_of_le_of_ne (Nat.le_of_lt_succ hlt) hne) hnone (by simp [hmain])
  fresh c hle := h.fresh c (Nat.le_of_succ_le hle)

/-- The main thread closes the connection that it carries. -/
theorem Inv.drop {s : State} (h : Inv s) {fd c : Nat} (hmain : s.main.carries = some (fd, c)) :
    Inv { s.closeSocket fd c with main := .unlock } := by
  obtain ⟨hlt, hnone, hfd, hzero⟩ := h.main fd c hmain
  have hcount : ∀ c', ({ s.closeSocket fd c with main := .unlock } : State).closesOf c' =
      s.closesOf c' + if c = c' then 1 else 0 := s.closesOf_closeSocket fd c
  have hkeep : KeepsOthers c s.fds (s.fds.close fd) := .close hfd (.inl rfl)
  constructor
  case own =>
    intro e he
    rcases List.mem_append.mp he with he | he
    · exact h.own e he
    · rw [List.mem_singleton.mp he, hfd]
  case main => rintro _ _ ⟨⟩
  case handler =>
    intro c' hd hc'
    have hne : c' ≠ c := by
      rintro rfl
      cases hnone.symm.trans hc'
    obtain ⟨hlt', hok⟩ := h.handler c' hd hc'
    rw [hcount, if_neg hne.symm]
    exact ⟨hlt', hok.keep hkeep hne⟩
  case dropped =>
    intro c' hlt' hnone' _
    rw [hcount]
    by_cases heq : c = c'
    · rw [if_pos heq, ← heq, hzero]
    · rw [if_neg heq]
      refine h.dropped c' hlt' hnone' fun fd' hfd' => heq ?_
      rw [hmain] at hfd'
      cases hfd'
      rfl
  case fresh =>
    intro c' hle
    have hne : c ≠ c' := Nat.ne_of_lt (Nat.lt_of_lt_of_le hlt hle)
    rw [hcount, if_neg hne]
    exact h.fresh c' hle

/-- The main thread passes the connection that it carries to a new handler. -/
theorem Inv.start {s : State} (h : Inv s) {fd c : Nat} (hmain : s.main.carries = some (fd, c)) :
    Inv { s.setHandler c ⟨fd, .recv⟩ with main := .count } := by
  obtain ⟨hlt, hnone, hfd, hzero⟩ := h.main fd c hmain
  have hhandler : ∀ c' ≠ c, (s.setHandler c ⟨fd, .recv⟩).handlers c' = s.handlers c' :=
    fun c' hne => Function.update_of_ne hne ..
  constructor
  case own => exact h.own
  case main => rintro _ _ ⟨⟩
  case handler =>
    intro c' hd hc'
    by_cases hne : c' = c
    · subst hne
      cases (Function.update_self ..).symm.trans hc'
      exact ⟨hlt, rfl, fun _ => hfd, fun x hx => (nomatch hx), hzero⟩
    · exact h.handler c' hd ((hhandler c' hne).symm.trans hc')
  case dropped =>
    intro c' hlt' hnone' _
    have hne : c' ≠ c := by
      rintro rfl
      cases (Function.update_self ..).symm.trans hnone'
    refine h.dropped c' hlt' ((hhandler c' hne).symm.trans hnone') fun fd' hfd' => hne ?_
    rw [hmain] at hfd'
    cases hfd'
    rfl
  case fresh =>
    intro c' hle
    have hne : c' ≠ c := Nat.ne_of_gt (Nat.lt_of_lt_of_le hlt hle)
    exact ⟨(hhandler c' hne).trans (h.fresh c' hle).1, (h.fresh c' hle).2⟩

/-- A step that leaves the table, the handlers and the carried connection alone. -/
theorem Inv.same {s t : State} (h : Inv s) (hfds : t.fds = s.fds) (hacc : t.accepted = s.accepted)
    (hhandlers : t.handlers = s.handlers) (hcloses : t.closes = s.closes)
    (hcarry : t.main.carries = s.main.carries) : Inv t := by
  have hcount : ∀ c, t.closesOf c = s.closesOf c := fun c => by
    rw [State.closesOf, hcloses, State.closesOf]
  constructor
  case own => rw [hcloses]; exact h.own
  case main => simpa only [hcarry, hacc, hhandlers, hfds, hcount] using h.main
  case handler => simpa only [hacc, hhandlers, hfds, hcount] using h.handler
  case dropped => simpa only [hcarry, hacc, hhandlers, hcount] using h.dropped
  case fresh => simpa only [hacc, hhandlers, hcount] using h.fresh

theorem Inv.mainStep {s s' : State} (h : Inv s) {ok : Bool} (hstep : mainStep s ok = some s') :
    Inv s' := by
  cases mainStep_move hstep with
  | refused => exact h
  | accept hmain => exact h.accept (by rw [hmain]; rfl)
  | lock hmain _ =>
      refine h.same rfl rfl rfl rfl ?_
      rcases hmain with hmain | hmain <;> rw [hmain] <;> rfl
  | wait hmain _ => exact h.same rfl rfl rfl rfl (by rw [hmain]; rfl)
  | enter hmain _ => exact h.same rfl rfl rfl rfl (by rw [hmain]; rfl)
  | wake hmain => exact h.same rfl rfl rfl rfl (by rw [hmain]; rfl)
  | allocated hmain => exact h.same rfl rfl rfl rfl (by rw [hmain]; rfl)
  | drop hmain =>
      refine h.drop ?_
      rcases hmain with hmain | hmain <;> rw [hmain] <;> rfl
  | create hmain => exact h.start (by rw [hmain]; rfl)
  | count hmain => exact h.same rfl rfl rfl rfl (by rw [hmain]; rfl)
  | unlock hmain => exact h.same rfl rfl rfl rfl (by rw [hmain]; rfl)

theorem Inv.outputStep {s s' : State} (h : Inv s) {c n : Nat}
    (hstep : outputStep s c n = some s') : Inv s' := by
  obtain ⟨fd, r, total, d, hc, -, rfl⟩ := outputStep_eq_some.mp hstep
  have hok := (h.handler c _ hc).2
  refine h.handler_step hc rfl rfl rfl (.refl _ _) (.inl rfl) ?_
  rcases HandlerPc.afterRead_eq r total n with heq | heq <;> rw [heq]
  · exact hok.goto rfl rfl (by simp [HandlerPc.pipes])
  · exact hok.goto rfl rfl (by simp [HandlerPc.pipes])

theorem Inv.endStep {s s' : State} (h : Inv s) {c : Nat} (hstep : endStep s c = some s') :
    Inv s' := by
  obtain ⟨-, rfl⟩ := endStep_eq_some.mp hstep
  exact h.same rfl rfl rfl rfl rfl

/-! ### When every close hits its own connection -/

/-- The step takes no exit outside `exits`. -/
def Act.Within (exits : Exit → Prop) : Act → Prop
  | .handler _ (some e) => exits e
  | _ => True

/-- Runs in which handlers only leave through the CGI paths close each
connection once, and no other. -/
theorem closesOwn_of_cgi {acts : List Act} {s : State}
    (hacts : EveryStep step (fun _ a => a.Within fun e => e = .cgiOk ∨ e = .cgiFailed) init acts)
    (hrun : exec step init acts = some s) : ClosesOwn s := by
  refine Inv.closesOwn (exec_invariant (fun {s a s'} hinv hwithin hstep => ?_) inv_init hacts hrun)
  cases a with
  | main ok => exact hinv.mainStep hstep
  | handler c exit =>
      refine hinv.handlerStep (fun e he => ?_) hstep
      subst he
      exact hwithin
  | output c n => exact hinv.outputStep hstep
  | scriptEnd c => exact hinv.endStep hstep

/-- The first connection is accepted and given to a handler. -/
def startFirst : List Act := [.main true, .main true, .main true, .main true, .main true]

/-- The first handler on its way through an early exit, up to its last close. -/
def exitRun (e : Exit) : List (Option Exit) :=
  match e with
  | .recvFailed => [some e, none, none]
  | .notCgi => [none, some e, none, none]
  | .noAccess => [none, none, some e, none, none]
  | .pipeFailed => [none, none, none, some e, none, none]
  | .forkFailed => [none, none, none, none, some e, none, none, none, none]
  | .cgiOk | .cgiFailed => []

/-- After an early exit the last close finds the number unused. -/
theorem early_exit_closes_twice {e : Exit} (h : ¬ (e = .cgiOk ∨ e = .cgiFailed)) :
    ∃ s, exec step init (startFirst ++ (exitRun e).map (.handler 0)) = some s ∧
      ⟨0, none⟩ ∈ s.closes := by
  cases e with
  | cgiOk => exact absurd (.inl rfl) h
  | cgiFailed => exact absurd (.inr rfl) h
  | _ => exact ⟨_, rfl, by decide⟩

theorem exitRun_within {exits : Exit → Prop} {e : Exit} (h : exits e) :
    ∀ a ∈ startFirst ++ (exitRun e).map (.handler 0), Act.Within exits a := by
  intro a ha
  rcases List.mem_append.mp ha with ha | ha
  · rw [startFirst] at ha
    simp only [List.mem_cons, List.not_mem_nil, or_false, or_self] at ha
    rw [ha]
    trivial
  · obtain ⟨exit, hexit, rfl⟩ := List.mem_map.mp ha
    cases exit with
    | none => trivial
    | some e' =>
        have heq : e' = e := by
          cases e with
          | cgiOk | cgiFailed => cases hexit
          | _ => simpa [exitRun] using hexit
        exact heq ▸ h

/-- **A handler closes nobody else's connection** in any run whose handlers
leave through `exits`, exactly when these are CGI exits. -/
theorem closes_own_iff (exits : Exit → Prop) :
    (∀ acts s, EveryStep step (fun _ a => a.Within exits) init acts →
      exec step init acts = some s → ClosesOwn s) ↔
      ∀ e, exits e → e = .cgiOk ∨ e = .cgiFailed := by
  constructor
  · intro h e he
    by_contra hearly
    obtain ⟨s, hrun, hmem⟩ := early_exit_closes_twice hearly
    have hown := (h _ s (everyStep_of_forall fun a ha _ => exitRun_within he a ha) hrun).own _ hmem
    cases hown
  · intro h acts s hacts hrun
    refine closesOwn_of_cgi (EveryStep.imp (fun _ a ha => ?_) hacts) hrun
    cases a with
    | main ok | output c n | scriptEnd c => trivial
    | handler c exit =>
        cases exit with
        | none => trivial
        | some e => exact h e ha

/-- A request that is not for a script: its handler closes the socket, the
number is given to the next connection, and the handler closes that one. -/
theorem early_exit_closes_stranger :
    ∃ s, exec step init (startFirst ++ [.main true, .main true, .handler 0 none,
        .handler 0 (some .notCgi), .handler 0 none, .main true, .handler 0 none]) = some s ∧
      ⟨0, some (.conn 1)⟩ ∈ s.closes ∧ ¬ ClosesOwn s := by
  refine ⟨_, rfl, by decide, fun h => ?_⟩
  have hown := h.own ⟨0, some (.conn 1)⟩ (by decide)
  cases hown

end NjuOs.Httpd
