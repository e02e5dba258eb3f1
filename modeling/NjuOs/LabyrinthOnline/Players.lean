import NjuOs.LabyrinthOnline.Basic

/-!
Two users never play the same player.

`server.players` is keyed by the name of the user, and each connection keeps its
player. The two agree until one of several connections of a user leaves: its
cleanup takes the entry away from the others (`Evicts`). From then on the player
can be given to somebody else.
-/

namespace NjuOs.LabyrinthOnline

open NjuOs.Lib

variable {U : Type} [DecidableEq U]

/-- Connections of different users play different players, and each plays the
one that is recorded for its user. -/
structure Exclusive (s : State U) : Prop where
  distinct : ∀ c c' u u' i i', s.clients c = .active u i → s.clients c' = .active u' i' →
    u ≠ u' → i ≠ i'
  recorded : ∀ c u i, s.clients c = .active u i → s.players.lookup u = some i

/-- The user whose entry the cleanup of a connection removes. -/
def Phase.leaving : Phase U → Option U
  | .active username _ => some username
  | .refused username => some username
  | _ => none

/-- A connection leaves while another one of the same user is active. -/
def Evicts (s : State U) : Act U → Prop
  | .leave c => ∃ u c' i, (s.clients c).leaving = some u ∧ c' ≠ c ∧ s.clients c' = .active u i
  | _ => False

/-! ### The table of players -/

theorem State.mem_playerIds {s : State U} {u : U} {i : Nat} (h : s.players.lookup u = some i) :
    i ∈ s.playerIds :=
  List.mem_map.mpr ⟨⟨u, i⟩, AList.mem_lookup_iff.mp h, rfl⟩

/-- No two users have the same player. -/
def OnePerUser (s : State U) : Prop :=
  ∀ u u' i, s.players.lookup u = some i → s.players.lookup u' = some i → u = u'

/-- Each connection plays what is recorded, and the records are distinct. -/
structure Inv (s : State U) : Prop where
  onePerUser : OnePerUser s
  recorded : ∀ c u i, s.clients c = .active u i → s.players.lookup u = some i

theorem Inv.exclusive {s : State U} (h : Inv s) : Exclusive s where
  distinct c c' u u' i i' hc hc' hne heq :=
    hne (h.onePerUser u u' i (h.recorded c u i hc) (heq ▸ h.recorded c' u' i' hc'))
  recorded := h.recorded

theorem inv_init (mapContent : Bytes) : Inv (init mapContent : State U) where
  onePerUser u u' i h := (Option.some_ne_none _ (h.symm.trans (AList.lookup_empty u))).elim
  recorded c u i h := by cases h

/-- A client changes its phase without becoming active. -/
theorem Inv.setClient {s : State U} (h : Inv s) (c : Nat) {phase : Phase U}
    (hphase : ∀ u i, phase = .active u i → s.players.lookup u = some i) :
    Inv (s.setClient c phase) where
  onePerUser := h.onePerUser
  recorded c' u i hc' := by
    rw [State.clients_setClient] at hc'
    split_ifs at hc' with hsame
    · exact hphase u i hc'
    · exact h.recorded c' u i hc'

/-- A new entry. -/
theorem Inv.insert {s : State U} (h : Inv s) {username : U} {playerId : Nat}
    (absent : s.players.lookup username = none) (free : playerId ∉ s.playerIds) :
    Inv { s with players := s.players.insert username playerId } where
  onePerUser u u' i hu hu' := by
    have fresh : ∀ v, s.players.lookup v ≠ some playerId :=
      fun v hv => free (State.mem_playerIds hv)
    by_cases heq : u = username <;> by_cases heq' : u' = username
    · rw [heq, heq']
    · rw [heq, AList.lookup_insert] at hu
      rw [AList.lookup_insert_ne heq', ← hu] at hu'
      exact (fresh u' hu').elim
    · rw [heq', AList.lookup_insert] at hu'
      rw [AList.lookup_insert_ne heq, ← hu'] at hu
      exact (fresh u hu).elim
    · rw [AList.lookup_insert_ne heq] at hu
      rw [AList.lookup_insert_ne heq'] at hu'
      exact h.onePerUser u u' i hu hu'
  recorded c u i hc := by
    have old := h.recorded c u i hc
    have hne : u ≠ username := by
      rintro rfl
      exact Option.some_ne_none _ (old.symm.trans absent)
    rw [AList.lookup_insert_ne hne, old]

theorem Inv.assign {s : State U} (h : Inv s) (c : Nat) (username : U) :
    Inv (assign s c username) := by
  unfold LabyrinthOnline.assign
  split
  · rename_i playerId known
    refine h.setClient c fun u i heq => ?_
    cases heq
    exact known
  · rename_i absent
    dsimp only
    split
    · exact h.setClient c fun u i heq => by cases heq
    · rename_i playerId least
      have free : playerId ∉ s.playerIds := by
        have := (List.mem_filter.mp (List.min?_mem least)).2
        exact of_decide_eq_true this
      refine (h.insert absent free).setClient c fun u i heq => ?_
      cases heq
      exact AList.lookup_insert _

/-- A connection leaves, and no other one of its user is active. -/
theorem Inv.cleanup {s : State U} (h : Inv s) {c : Nat} {username : U}
    (alone : ∀ c' i, c' ≠ c → s.clients c' ≠ .active username i) :
    Inv (cleanup s c username) where
  onePerUser u u' i hu hu' := by
    have hne : ∀ {v}, (LabyrinthOnline.cleanup s c username).players.lookup v = some i →
        v ≠ username := by
      rintro v hv rfl
      exact Option.some_ne_none _ (hv.symm.trans (AList.lookup_erase v s.players))
    have keep : ∀ {v}, (LabyrinthOnline.cleanup s c username).players.lookup v = some i →
        s.players.lookup v = some i := by
      intro v hv
      rw [← hv]
      exact (AList.lookup_erase_ne (hne hv)).symm
    exact h.onePerUser u u' i (keep hu) (keep hu')
  recorded c' u i hc' := by
    rw [LabyrinthOnline.cleanup, State.clients_setClient] at hc'
    split_ifs at hc' with hsame
    have hne : u ≠ username := by
      rintro rfl
      exact alone c' i hsame hc'
    exact (AList.lookup_erase_ne hne).trans (h.recorded c' u i hc')

/-! ### Steps -/

/-- A connection that leaves. -/
theorem step_leave {s s' : State U} {c : Nat} (hstep : step s (.leave c) = some s') :
    ∃ u, (s.clients c).leaving = some u ∧ s' = cleanup s c u := by
  simp only [step] at hstep
  split at hstep
  · rename_i u i hc
    exact ⟨u, by rw [hc]; rfl, (Option.some.inj hstep).symm⟩
  · rename_i u hc
    exact ⟨u, by rw [hc]; rfl, (Option.some.inj hstep).symm⟩
  · cases hstep

theorem Inv.step {s s' : State U} {a : Act U} (h : Inv s) (keeps : ¬ Evicts s a)
    (hstep : step s a = some s') : Inv s' := by
  cases a with
  | connect c username =>
      simp only [LabyrinthOnline.step] at hstep
      split at hstep
      · cases hstep
        exact h.setClient c fun u i heq => by cases heq
      · cases hstep
  | assign c =>
      simp only [LabyrinthOnline.step] at hstep
      split at hstep
      · cases hstep
        exact h.assign c _
      · cases hstep
  | leave c =>
      obtain ⟨u, leaving, rfl⟩ := step_leave hstep
      exact h.cleanup fun c' i hne hc' => keeps ⟨u, c', i, leaving, hne, hc'⟩

/-- The connection that stays has lost its entry. -/
theorem not_exclusive_of_evicts {s s' : State U} {a : Act U} (evicts : Evicts s a)
    (hstep : step s a = some s') : ¬ Exclusive s' := by
  cases a with
  | connect => exact evicts.elim
  | assign => exact evicts.elim
  | leave c =>
      obtain ⟨u, c', i, leaving, hne, hc'⟩ := evicts
      obtain ⟨u', leaving', rfl⟩ := step_leave hstep
      obtain rfl : u = u' := Option.some.inj (leaving.symm.trans leaving')
      intro exclusive
      have stays : (cleanup s c u).clients c' = .active u i := by
        rw [cleanup, State.clients_setClient, if_neg hne]
        exact hc'
      have recorded := exclusive.recorded c' u i stays
      exact Option.some_ne_none _ (recorded.symm.trans (AList.lookup_erase u s.players))

theorem step_of_evicts {s : State U} {a : Act U} (evicts : Evicts s a) :
    ∃ s', step s a = some s' := by
  cases a with
  | connect => exact evicts.elim
  | assign => exact evicts.elim
  | leave c =>
      obtain ⟨u, -, -, leaving, -⟩ := evicts
      cases hc : s.clients c with
      | active | refused => exact ⟨_, by simp only [step, hc]; rfl⟩
      | unconnected | named | closed =>
          rw [hc] at leaving
          exact (Option.some_ne_none _ leaving.symm).elim

/-- In every run, players are exclusive after every step if and only if no
connection leaves while another one of its user is active. -/
theorem exclusive_iff (mapContent : Bytes) (acts : List (Act U)) :
    EveryStep step (fun s a => ∀ s', step s a = some s' → Exclusive s')
        (init mapContent : State U) acts ↔
      EveryStep step (fun s a => ¬ Evicts s a) (init mapContent) acts := by
  constructor
  · apply EveryStep.of_invariant Inv _ _ (inv_init mapContent)
    · intro s a s' inv exclusive hstep
      exact inv.step (fun evicts => not_exclusive_of_evicts evicts hstep (exclusive s' hstep)) hstep
    · intro s a inv exclusive evicts
      obtain ⟨s', hstep⟩ := step_of_evicts evicts
      exact not_exclusive_of_evicts evicts hstep (exclusive s' hstep)
  · apply EveryStep.of_invariant Inv _ _ (inv_init mapContent)
    · exact fun inv keeps hstep => inv.step keeps hstep
    · exact fun inv keeps s' hstep => (inv.step keeps hstep).exclusive

/-- A user connects twice and leaves once; the next user gets the same player. -/
theorem exclusive_fails_two_connections :
    ∃ s : State Nat, exec step (init [0x30, 0x31])
      [.connect 0 7, .assign 0, .connect 1 7, .assign 1, .leave 0, .connect 2 8, .assign 2] =
        some s ∧
      s.clients 1 = .active 7 0 ∧ s.clients 2 = .active 8 0 ∧ ¬ Exclusive s := by
  refine ⟨_, rfl, rfl, rfl, fun exclusive => ?_⟩
  exact exclusive.distinct 1 2 7 8 0 0 rfl rfl (by decide) rfl

end NjuOs.LabyrinthOnline
