import Mathlib.Data.Fintype.Basic
import Mathlib.Data.List.Basic
import Mathlib.Logic.Nontrivial.Basic
import NjuOs.Lib.Prog
import NjuOs.Lib.Run

/-!
Threads that share a memory.

A pool runs its threads by interleaving their reads and writes. When no thread
writes what another one reads or writes (`Separate`), every complete run has the
effect of running the threads one after another (`exec_eq_seqRun`), a thread
takes at most its own number of steps, and every run can be completed.
`exec_map` moves a run to other cells, where they may be placed anywhere as long
as no written cell collides with another one.
-/

namespace NjuOs.Lib

variable {ι A B V : Type}

/-- The rest of each thread, and the memory. -/
abbrev PoolState (ι A V : Type) := (ι → Prog A V Unit) × (A → V)

/-- A thread reads or writes one cell. -/
def poolStep [DecidableEq ι] [DecidableEq A] (c : PoolState ι A V) (i : ι) :
    Option (PoolState ι A V) :=
  match c.1 i with
  | .ret _ => none
  | .read a next => some (Function.update c.1 i (next (c.2 a)), c.2)
  | .write a v next => some (Function.update c.1 i next, Function.update c.2 a v)

/-- All threads have returned. -/
def Finished (pool : ι → Prog A V Unit) : Prop := ∀ i, pool i = .ret ()

/-- A run of all threads to their end. -/
def Completes [DecidableEq ι] [DecidableEq A] (pool : ι → Prog A V Unit) (m m' : A → V) : Prop :=
  ∃ schedule pool', exec poolStep (pool, m) schedule = some (pool', m') ∧ Finished pool'

/-- The threads one after another. -/
def seqRun [DecidableEq A] (pool : ι → Prog A V Unit) (order : List ι) (m : A → V) : A → V :=
  order.foldl (fun m i => ((pool i).run m).2) m

/-- No thread writes what another one reads or writes. -/
structure Separate (reads writes : ι → Set A) (pool : ι → Prog A V Unit) : Prop where
  within : ∀ i, (pool i).Within (reads i) (writes i)
  apart : ∀ i j, i ≠ j → ∀ a ∈ writes i, a ∉ reads j ∧ a ∉ writes j

section Steps

variable [DecidableEq ι] [DecidableEq A] {pool : ι → Prog A V Unit} {m : A → V}

theorem poolStep_read {i : ι} {a : A} {next : V → Prog A V Unit} (h : pool i = .read a next) :
    poolStep (pool, m) i = some (Function.update pool i (next (m a)), m) := by
  simp only [poolStep, h]

theorem poolStep_write {i : ι} {a : A} {v : V} {next : Prog A V Unit}
    (h : pool i = .write a v next) :
    poolStep (pool, m) i = some (Function.update pool i next, Function.update m a v) := by
  simp only [poolStep, h]

theorem poolStep_ret {i : ι} (h : pool i = .ret ()) : poolStep (pool, m) i = none := by
  simp only [poolStep, h]

/-- What a step does: it takes one cell off its thread. -/
theorem poolStep_cases {i : ι} {pool' : ι → Prog A V Unit} {m' : A → V}
    (h : poolStep (pool, m) i = some (pool', m')) :
    (∃ a next, pool i = .read a next ∧ pool' = Function.update pool i (next (m a)) ∧ m' = m) ∨
      ∃ a v next, pool i = .write a v next ∧ pool' = Function.update pool i next ∧
        m' = Function.update m a v := by
  cases hi : pool i with
  | ret r =>
      rw [poolStep_ret hi] at h
      cases h
  | read a next =>
      rw [poolStep_read hi] at h
      obtain ⟨rfl, rfl⟩ := Prod.mk.inj (Option.some.inj h)
      exact .inl ⟨a, next, rfl, rfl, rfl⟩
  | write a v next =>
      rw [poolStep_write hi] at h
      obtain ⟨rfl, rfl⟩ := Prod.mk.inj (Option.some.inj h)
      exact .inr ⟨a, v, next, rfl, rfl, rfl⟩

/-- A thread that runs alone. -/
theorem exec_alone (p : Prog A V Unit) {i : ι} (h : pool i = p) :
    exec poolStep (pool, m) (List.replicate (p.cost m) i) =
      some (Function.update pool i (.ret ()), (p.run m).2) := by
  induction p generalizing pool m with
  | ret r =>
      have hsame : Function.update pool i (.ret ()) = pool := by
        rw [Function.update_eq_self_iff, h]
      rw [hsame]
      rfl
  | read a next ih =>
      rw [Prog.cost, List.replicate_succ, exec_cons (poolStep_read h),
        ih (m a) (Function.update_self i _ pool), Function.update_idem]
      rfl
  | write a v next ih =>
      rw [Prog.cost, List.replicate_succ, exec_cons (poolStep_write h),
        ih (Function.update_self i _ pool), Function.update_idem]
      rfl

theorem exec_append {c c' : PoolState ι A V} {ls : List ι} (h : exec poolStep c ls = some c')
    (ls' : List ι) : exec poolStep c (ls ++ ls') = exec poolStep c' ls' := by
  induction ls generalizing c with
  | nil =>
      obtain rfl := Option.some.inj h
      rfl
  | cons l ls ih =>
      obtain ⟨d, hd, hrest⟩ := Option.bind_eq_some_iff.mp h
      rw [List.cons_append, exec_cons hd, ih hrest]

/-- Threads that run one after another. -/
theorem exec_inOrder {order : List ι} (hnodup : order.Nodup) :
    ∃ schedule pool', exec poolStep (pool, m) schedule = some (pool', seqRun pool order m) ∧
      (∀ i ∈ order, pool' i = .ret ()) ∧ ∀ i ∉ order, pool' i = pool i := by
  induction order generalizing pool m with
  | nil => exact ⟨[], pool, rfl, nofun, fun i _ => rfl⟩
  | cons j order ih =>
      rw [List.nodup_cons] at hnodup
      have hothers : ∀ m,
          seqRun (Function.update pool j (.ret ())) order m = seqRun pool order m := by
        intro m
        refine List.foldl_ext _ _ _ fun m i hi => ?_
        have hne : i ≠ j := by
          rintro rfl
          exact hnodup.1 hi
        rw [Function.update_of_ne hne]
      obtain ⟨schedule, pool', hexec, hin, hout⟩ :=
        @ih (Function.update pool j (.ret ())) ((pool j).run m).2 hnodup.2
      refine ⟨List.replicate ((pool j).cost m) j ++ schedule, pool', ?_, fun i hi => ?_,
        fun i hi => ?_⟩
      · rw [exec_append (exec_alone (pool j) rfl), hexec, hothers]
        rfl
      · by_cases hij : i ∈ order
        · exact hin i hij
        · rw [hout i hij, (List.mem_cons.mp hi).resolve_right hij, Function.update_self]
      · rw [List.mem_cons, not_or] at hi
        rw [hout i hi.2, Function.update_of_ne hi.1]

/-- From every state a pool can be run to its end. -/
theorem exists_completes [Fintype ι] (pool : ι → Prog A V Unit) (m : A → V) :
    ∃ m', Completes pool m m' := by
  obtain ⟨schedule, pool', hexec, hin, -⟩ :=
    @exec_inOrder ι A V _ _ pool m Finset.univ.toList (Finset.nodup_toList _)
  exact ⟨_, schedule, pool', hexec, fun i => hin i (by simp)⟩

end Steps

/-! ### Frames -/

section Frame

variable [DecidableEq ι] [DecidableEq A] {cells writes : Set A}

omit [DecidableEq A] in
theorem within_update {pool : ι → Prog A V Unit} (hpool : ∀ i, (pool i).Within cells writes)
    {p : Prog A V Unit} (hp : p.Within cells writes) (i j : ι) :
    (Function.update pool i p j).Within cells writes := by
  by_cases hji : j = i
  · rwa [hji, Function.update_self]
  · rw [Function.update_of_ne hji]
    exact hpool j

/-- What no thread writes stays. -/
theorem exec_frame {a : A} (ha : a ∉ writes) {schedule : List ι} :
    ∀ {pool pool' : ι → Prog A V Unit} {m m' : A → V}, (∀ i, (pool i).Within cells writes) →
      exec poolStep (pool, m) schedule = some (pool', m') → m' a = m a := by
  induction schedule with
  | nil =>
      rintro pool pool' m m' - ⟨⟩
      rfl
  | cons i schedule ih =>
      intro pool pool' m m' hwithin hexec
      obtain ⟨⟨next, n⟩, hstep, hrest⟩ := Option.bind_eq_some_iff.mp hexec
      have hi := hwithin i
      rcases poolStep_cases hstep with ⟨b, rest, hpi, rfl, rfl⟩ | ⟨b, v, rest, hpi, rfl, rfl⟩
      · rw [hpi] at hi
        exact ih (within_update hwithin (hi.2 _) i) hrest
      · rw [hpi] at hi
        have hne : a ≠ b := by
          rintro rfl
          exact ha hi.1
        exact (ih (within_update hwithin hi.2 i) hrest).trans (Function.update_of_ne hne v m)

theorem Completes.frame {pool : ι → Prog A V Unit} {m m' : A → V} (hrun : Completes pool m m')
    (hwithin : ∀ i, (pool i).Within cells writes) {a : A} (ha : a ∉ writes) : m' a = m a := by
  obtain ⟨schedule, pool', hexec, -⟩ := hrun
  exact exec_frame ha hwithin hexec

end Frame

/-! ### Separate threads -/

section Separate

variable [DecidableEq ι] [DecidableEq A] {reads writes : ι → Set A} {pool pool' : ι → Prog A V Unit}
  {m m' : A → V}

/-- What is left of a pool, seen from its start. -/
structure Progress (reads writes : ι → Set A) (pool : ι → Prog A V Unit) (m : A → V)
    (taken : ι → Nat) (pool' : ι → Prog A V Unit) (m' : A → V) : Prop where
  separate : Separate reads writes pool'
  finish : ∀ i, ∀ a ∈ writes i, ((pool' i).run m').2 a = ((pool i).run m).2 a
  cost : ∀ i, taken i + (pool' i).cost m' = (pool i).cost m
  frame : ∀ a, (∀ i, a ∉ writes i) → m' a = m a

/-- A program on memories that agree on what it reads takes as many steps. -/
theorem cost_congr {R : Type} {p : Prog A V R} {reads writes : Set A} (h : p.Within reads writes)
    {m m' : A → V} (hreads : ∀ a ∈ reads, m a = m' a) : p.cost m = p.cost m' := by
  induction p generalizing m m' with
  | ret r => rfl
  | read b next ih => rw [Prog.cost, Prog.cost, ← hreads b h.1, ih (m b) (h.2 (m b)) hreads]
  | write b v next ih =>
      rw [Prog.cost, Prog.cost, ih h.2 fun a ha => ?_]
      by_cases hab : a = b
      · rw [hab, Function.update_self, Function.update_self]
      · rw [Function.update_of_ne hab, Function.update_of_ne hab, hreads a ha]

/-- The invariant of one step. -/
theorem Progress.step {taken : ι → Nat} {i : ι} {next : ι → Prog A V Unit} {m'' : A → V}
    (h : Progress reads writes pool m taken pool' m')
    (hstep : poolStep (pool', m') i = some (next, m'')) :
    Progress reads writes pool m (Function.update taken i (taken i + 1)) next m'' := by
  have hcost := h.cost i
  have hfinish := h.finish i
  have hwithin := h.separate.within i
  rcases poolStep_cases hstep with ⟨a, rest, hi, rfl, rfl⟩ | ⟨a, v, rest, hi, rfl, rfl⟩
  · rw [hi] at hcost hfinish hwithin
    refine ⟨⟨fun j => ?_, h.separate.apart⟩, fun j b hb => ?_, fun j => ?_, h.frame⟩
    · by_cases hji : j = i
      · subst hji
        rw [Function.update_self]
        exact hwithin.2 _
      · rw [Function.update_of_ne hji]
        exact h.separate.within j
    · by_cases hji : j = i
      · subst hji
        rw [Function.update_self]
        exact hfinish b hb
      · rw [Function.update_of_ne hji]
        exact h.finish j b hb
    · by_cases hji : j = i
      · subst hji
        rw [Prog.cost] at hcost
        rw [Function.update_self, Function.update_self]
        omega
      · rw [Function.update_of_ne hji, Function.update_of_ne hji]
        exact h.cost j
  · rw [hi] at hcost hfinish hwithin
    -- the other threads do not see the cell
    have hother : ∀ j, j ≠ i → ∀ b ∈ reads j, m' b = Function.update m' a v b := by
      intro j hji b hb
      have hne : b ≠ a := by
        rintro rfl
        exact (h.separate.apart i j (Ne.symm hji) b hwithin.1).1 hb
      rw [Function.update_of_ne hne]
    refine ⟨⟨fun j => ?_, h.separate.apart⟩, fun j b hb => ?_, fun j => ?_, fun b hb => ?_⟩
    · by_cases hji : j = i
      · subst hji
        rw [Function.update_self]
        exact hwithin.2
      · rw [Function.update_of_ne hji]
        exact h.separate.within j
    · by_cases hji : j = i
      · subst hji
        rw [Function.update_self]
        exact hfinish b hb
      · have hne : b ≠ a := by
          rintro rfl
          exact (h.separate.apart i j (Ne.symm hji) b hwithin.1).2 hb
        rw [Function.update_of_ne hji, ← h.finish j b hb]
        exact ((Prog.run_congr (h.separate.within j) (hother j hji)).2 b
          (Function.update_of_ne hne v m').symm).symm
    · by_cases hji : j = i
      · subst hji
        rw [Prog.cost] at hcost
        rw [Function.update_self, Function.update_self]
        omega
      · rw [Function.update_of_ne hji, Function.update_of_ne hji,
          ← cost_congr (h.separate.within j) (hother j hji)]
        exact h.cost j
    · have hne : b ≠ a := by
        rintro rfl
        exact hb i hwithin.1
      rw [Function.update_of_ne hne, h.frame b hb]

/-- The invariant of a run. -/
theorem Progress.exec {schedule : List ι} : ∀ {taken : ι → Nat} {pool' : ι → Prog A V Unit}
    {m' : A → V} {pool'' : ι → Prog A V Unit} {m'' : A → V},
    Progress reads writes pool m taken pool' m' →
      exec poolStep (pool', m') schedule = some (pool'', m'') →
        Progress reads writes pool m (fun i => taken i + schedule.count i) pool'' m'' := by
  induction schedule with
  | nil =>
      intro taken pool' m' pool'' m'' h hexec
      obtain ⟨rfl, rfl⟩ := Prod.mk.inj (Option.some.inj hexec)
      exact h
  | cons j schedule ih =>
      intro taken pool' m' pool'' m'' h hexec
      obtain ⟨⟨next, m₁⟩, hstep, hrest⟩ := Option.bind_eq_some_iff.mp hexec
      have hprogress := ih (h.step hstep) hrest
      have htaken : (fun i => taken i + (j :: schedule).count i) =
          fun i => Function.update taken j (taken j + 1) i + schedule.count i := by
        funext i
        by_cases hij : i = j
        · subst hij
          rw [Function.update_self, List.count_cons_self]
          omega
        · rw [Function.update_of_ne hij, List.count_cons_of_ne fun heq => hij heq.symm]
      rw [htaken]
      exact hprogress

omit [DecidableEq ι] in
theorem Separate.progress (h : Separate reads writes pool) (m : A → V) :
    Progress reads writes pool m (fun _ => 0) pool m :=
  ⟨h, fun _ _ _ => rfl, fun _ => Nat.zero_add _, fun _ _ => rfl⟩

/-- Every thread takes at most its own number of steps. -/
theorem Separate.count_le (h : Separate reads writes pool) {schedule : List ι}
    (hexec : exec poolStep (pool, m) schedule = some (pool', m')) (i : ι) :
    schedule.count i ≤ (pool i).cost m := by
  have := ((h.progress m).exec hexec).cost i
  omega

/-- **What a complete run leaves behind**: each thread's cells are as if it had run
alone, and the others are as they were. -/
theorem Separate.completes (h : Separate reads writes pool) (hrun : Completes pool m m') :
    (∀ i, ∀ a ∈ writes i, m' a = ((pool i).run m).2 a) ∧
      ∀ a, (∀ i, a ∉ writes i) → m' a = m a := by
  obtain ⟨schedule, pool', hexec, hfinished⟩ := hrun
  have hprogress := (h.progress m).exec hexec
  refine ⟨fun i a ha => ?_, hprogress.frame⟩
  have := hprogress.finish i a ha
  rwa [hfinished i] at this

/-- A value that does not depend on a cell is not computed into it by threads that do
not write it. -/
theorem Separate.not_computes [Fintype ι] [Nontrivial V] (h : Separate reads writes pool) {a : A}
    (ha : ∀ i, a ∉ writes i) {f : (A → V) → V} (hf : ∀ m v, f (Function.update m a v) = f m) :
    ¬ ∀ m m', Completes pool m m' → m' a = f m := by
  intro hcomputes
  obtain ⟨v₀⟩ : Nonempty V := inferInstance
  -- a memory with another value in the cell
  obtain ⟨v, hv⟩ := exists_ne (f fun _ => v₀)
  obtain ⟨m', hm'⟩ := exists_completes pool (Function.update (fun _ => v₀) a v)
  have hframe := (h.completes hm').2 a ha
  rw [hcomputes _ m' hm', hf, Function.update_self] at hframe
  exact hv hframe.symm

/-- Two complete runs leave the same memory behind. -/
theorem Separate.completes_unique {m'' : A → V} (h : Separate reads writes pool)
    (hrun : Completes pool m m') (hrun' : Completes pool m m'') : m' = m'' := by
  obtain ⟨hin, hout⟩ := h.completes hrun
  obtain ⟨hin', hout'⟩ := h.completes hrun'
  funext a
  by_cases ha : ∃ i, a ∈ writes i
  · obtain ⟨i, hi⟩ := ha
    rw [hin i a hi, hin' i a hi]
  · rw [not_exists] at ha
    rw [hout a ha, hout' a ha]

/-- **Every interleaving is sequential** in its effect. -/
theorem Separate.exec_eq_seqRun (h : Separate reads writes pool) {order : List ι}
    (hnodup : order.Nodup) (hall : ∀ i, i ∈ order) (hrun : Completes pool m m') :
    m' = seqRun pool order m := by
  obtain ⟨schedule, pool'', hexec, hin, -⟩ := @exec_inOrder ι A V _ _ pool m order hnodup
  exact h.completes_unique hrun ⟨schedule, pool'', hexec, fun i => hin i (hall i)⟩

omit [DecidableEq ι] in
/-- A single thread is a program. -/
theorem Completes.single {p : Prog A V Unit} {m m' : A → V}
    (hrun : Completes (fun _ : Fin 1 => p) m m') : m' = (p.run m).2 := by
  have hseparate : Separate (fun _ => Set.univ) (fun _ => Set.univ) fun _ : Fin 1 => p :=
    ⟨fun _ => Prog.within_univ p, fun i j hij => absurd (Subsingleton.elim i j) hij⟩
  funext a
  exact (hseparate.completes hrun).1 0 a trivial

end Separate

/-! ### Other cells -/

section Map

variable [DecidableEq ι] [DecidableEq A] [DecidableEq B] {cells writes : Set A} {place : A → B}

/-- The memory holds the cells where they are placed. -/
def Represents (cells : Set A) (place : A → B) (m : A → V) (m' : B → V) : Prop :=
  ∀ a ∈ cells, m' (place a) = m a

/-- A run on placed cells is a run on the cells. -/
theorem exec_map (hinj : ∀ a ∈ writes, ∀ b ∈ cells, place a = place b → a = b)
    {schedule : List ι} :
    ∀ {pool : ι → Prog A V Unit} {m : A → V} {m' : B → V} {pool' : ι → Prog B V Unit} {m'' : B → V},
      (∀ i, (pool i).Within cells writes) → Represents cells place m m' →
      exec poolStep ((fun i => (pool i).map place), m') schedule = some (pool', m'') →
        ∃ next n, exec poolStep (pool, m) schedule = some (next, n) ∧
          pool' = (fun i => (next i).map place) ∧ Represents cells place n m'' := by
  induction schedule with
  | nil =>
      intro pool m m' pool' m'' hpool hrep hexec
      obtain ⟨rfl, rfl⟩ := Prod.mk.inj (Option.some.inj hexec)
      exact ⟨pool, m, rfl, rfl, hrep⟩
  | cons i schedule ih =>
      intro pool m m' pool' m'' hpool hrep hexec
      obtain ⟨⟨next', n'⟩, hstep, hrest⟩ := Option.bind_eq_some_iff.mp hexec
      have hmap : ∀ p : Prog A V Unit, (fun j => (Function.update pool i p j).map place) =
          Function.update (fun j => (pool j).map place) i (p.map place) := by
        intro p
        funext j
        by_cases hji : j = i
        · rw [hji, Function.update_self, Function.update_self]
        · rw [Function.update_of_ne hji, Function.update_of_ne hji]
      have hi := hpool i
      cases hpi : pool i with
      | ret r =>
          have hret : (pool i).map place = .ret () := by rw [hpi]; rfl
          rw [@poolStep_ret ι B V _ _ (fun j => (pool j).map place) m' i hret] at hstep
          cases hstep
      | read a rest =>
          rw [hpi] at hi
          have hread : (pool i).map place = .read (place a) fun v => (rest v).map place := by
            rw [hpi]
            rfl
          rw [@poolStep_read ι B V _ _ (fun j => (pool j).map place) m' i _ _ hread,
            hrep a hi.1] at hstep
          obtain ⟨rfl, rfl⟩ := Prod.mk.inj (Option.some.inj hstep)
          rw [exec_cons (poolStep_read hpi)]
          refine ih (within_update hpool (hi.2 _) i) hrep ?_
          rw [hmap]
          exact hrest
      | write a v rest =>
          rw [hpi] at hi
          have hwrite : (pool i).map place = .write (place a) v (rest.map place) := by
            rw [hpi]
            rfl
          rw [@poolStep_write ι B V _ _ (fun j => (pool j).map place) m' i _ _ _ hwrite] at hstep
          obtain ⟨rfl, rfl⟩ := Prod.mk.inj (Option.some.inj hstep)
          rw [exec_cons (poolStep_write hpi)]
          have hrep' : Represents cells place (Function.update m a v)
              (Function.update m' (place a) v) := by
            intro b hb
            by_cases hba : b = a
            · rw [hba, Function.update_self, Function.update_self]
            · have hne : place b ≠ place a := fun heq => hba (hinj a hi.1 b hb heq.symm).symm
              rw [Function.update_of_ne hne, Function.update_of_ne hba, hrep b hb]
          refine ih (within_update hpool hi.2 i) hrep' ?_
          rw [hmap]
          exact hrest

/-- The same for runs to the end. -/
theorem Completes.of_map {pool : ι → Prog A V Unit} {m : A → V} {m' m'' : B → V}
    (hinj : ∀ a ∈ writes, ∀ b ∈ cells, place a = place b → a = b)
    (hpool : ∀ i, (pool i).Within cells writes) (hrep : Represents cells place m m')
    (hrun : Completes (fun i => (pool i).map place) m' m'') :
    ∃ n, Completes pool m n ∧ Represents cells place n m'' := by
  obtain ⟨schedule, pool', hexec, hfinished⟩ := hrun
  obtain ⟨next, n, hexec', rfl, hrep'⟩ := exec_map hinj hpool hrep hexec
  refine ⟨n, ⟨schedule, next, hexec', fun i => ?_⟩, hrep'⟩
  have hret : (next i).map place = .ret () := hfinished i
  cases hi : next i with
  | ret r => rfl
  | read a rest =>
      rw [hi] at hret
      cases hret
  | write a v rest =>
      rw [hi] at hret
      cases hret

end Map

end NjuOs.Lib
