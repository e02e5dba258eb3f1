import Mathlib.Data.Set.Basic
import Mathlib.Logic.Function.Basic

/-!
Programs that read and write the cells of a memory one at a time.

`Prog A V R` is a program over cells `A` with values `V` that returns an `R`, and
`run` its meaning on a memory. `Within` bounds what it reads and writes, for every
value it may read: `run_frame` and `run_congr` are the frame rules that follow.
`loop` is a counted loop; `run_loop` is its invariant rule, `run_loop_pure` the rule
for loops that only read, `run_loop_put` that for loops that fill cells, and
`run_forEach_separate` that for passes that work on different cells.
-/

namespace NjuOs.Lib

inductive Prog (A V R : Type) where
  | ret (r : R)
  | read (a : A) (next : V → Prog A V R)
  | write (a : A) (v : V) (next : Prog A V R)

namespace Prog

variable {A B V R S : Type}

def bind : Prog A V R → (R → Prog A V S) → Prog A V S
  | ret r, f => f r
  | read a next, f => read a fun v => (next v).bind f
  | write a v next, f => write a v (next.bind f)

instance : Monad (Prog A V) where
  pure := ret
  bind := bind

def get (a : A) : Prog A V V := read a ret

def put (a : A) (v : V) : Prog A V Unit := write a v (ret ())

/-- `for (int i = 0; i < n; i++)`, with the variables that the body changes. -/
def loop (n : Nat) (s : S) (body : Nat → S → Prog A V S) : Prog A V S :=
  match n with
  | 0 => pure s
  | n + 1 => loop n s body >>= body n

/-- A loop whose body changes no variables. -/
def forEach (n : Nat) (body : Nat → Prog A V Unit) : Prog A V Unit := loop n () fun i _ => body i

/-- A loop without memory. -/
def accumulate (n : Nat) (s : S) (body : Nat → S → S) : S :=
  match n with
  | 0 => s
  | n + 1 => body n (accumulate n s body)

theorem accumulate_congr {f g : Nat → S → S} {n : Nat} (h : ∀ i < n, ∀ s, f i s = g i s) (s : S) :
    accumulate n s f = accumulate n s g := by
  induction n with
  | zero => rfl
  | succ n ih =>
      rw [accumulate, accumulate, ih fun i hi => h i (Nat.lt_succ_of_lt hi),
        h n (Nat.lt_succ_self n)]

/-! ### Runs -/

section Run

variable [DecidableEq A]

def run : Prog A V R → (A → V) → R × (A → V)
  | ret r, m => (r, m)
  | read a next, m => run (next (m a)) m
  | write a v next, m => run next (Function.update m a v)

@[simp] theorem run_pure (r : R) (m : A → V) : run (pure r) m = (r, m) := rfl

@[simp] theorem run_get (a : A) (m : A → V) : run (get a) m = (m a, m) := rfl

@[simp] theorem run_put (a : A) (v : V) (m : A → V) :
    run (put a v) m = ((), Function.update m a v) := rfl

@[simp] theorem run_bind (p : Prog A V R) (f : R → Prog A V S) (m : A → V) :
    run (p >>= f) m = run (f (run p m).1) (run p m).2 := by
  induction p generalizing m with
  | ret r => rfl
  | read a next ih => exact ih (m a) m
  | write a v next ih => exact ih (Function.update m a v)

theorem run_bind_of {p : Prog A V R} {m m' : A → V} {r : R} (h : p.run m = (r, m'))
    (f : R → Prog A V S) : run (p >>= f) m = run (f r) m' := by rw [run_bind, h]

theorem run_loop_succ (n : Nat) (s : S) (body : Nat → S → Prog A V S) (m : A → V) :
    run (loop (n + 1) s body) m =
      run (body n (run (loop n s body) m).1) (run (loop n s body) m).2 :=
  run_bind _ _ _

/-- What the body of a loop preserves holds behind it. -/
theorem run_loop {Inv : Nat → S → (A → V) → Prop} {n : Nat} {s : S} {body : Nat → S → Prog A V S}
    {m : A → V} (hstart : Inv 0 s m)
    (hstep : ∀ i < n, ∀ s m, Inv i s m → Inv (i + 1) (run (body i s) m).1 (run (body i s) m).2) :
    Inv n (run (loop n s body) m).1 (run (loop n s body) m).2 := by
  induction n with
  | zero => exact hstart
  | succ n ih =>
      rw [run_loop_succ]
      exact hstep n (Nat.lt_succ_self n) _ _ (ih fun i hi => hstep i (Nat.lt_succ_of_lt hi))

theorem run_forEach {Inv : Nat → (A → V) → Prop} {n : Nat} {body : Nat → Prog A V Unit}
    {m : A → V} (hstart : Inv 0 m)
    (hstep : ∀ i < n, ∀ m, Inv i m → Inv (i + 1) (run (body i) m).2) :
    Inv n (run (forEach n body) m).2 :=
  @run_loop A V Unit _ (fun i _ m => Inv i m) n () _ m hstart fun i hi _ m hm => hstep i hi m hm

/-- A loop that only reads. -/
theorem run_loop_pure {n : Nat} {body : Nat → S → Prog A V S} {m : A → V} {f : Nat → S → S}
    (h : ∀ i < n, ∀ s, run (body i s) m = (f i s, m)) (s : S) :
    run (loop n s body) m = (accumulate n s f, m) := by
  induction n with
  | zero => rfl
  | succ n ih =>
      rw [run_loop_succ, ih fun i hi => h i (Nat.lt_succ_of_lt hi), h n (Nat.lt_succ_self n)]
      rfl

/-- A loop that writes the cell `p i` in its `i`-th pass. In pass `i` the memory differs
from that before the loop in the cells of earlier passes only. -/
theorem run_loop_put {n : Nat} {body : Nat → S → Prog A V S} {m : A → V} {p : Nat → A}
    {f : Nat → S → V} {g : Nat → S → S} (hdistinct : ∀ i < n, ∀ j < n, p i = p j → i = j)
    (hbody : ∀ i < n, ∀ m', (∀ a, (∀ j < i, a ≠ p j) → m' a = m a) → ∀ s,
      run (body i s) m' = (g i s, Function.update m' (p i) (f i s))) (s : S) :
    (run (loop n s body) m).1 = accumulate n s g ∧
      (∀ i < n, (run (loop n s body) m).2 (p i) = f i (accumulate i s g)) ∧
      ∀ a, (∀ j < n, a ≠ p j) → (run (loop n s body) m).2 a = m a := by
  induction n with
  | zero => exact ⟨rfl, nofun, fun _ _ => rfl⟩
  | succ n ih =>
      obtain ⟨hret, hcells, hframe⟩ := ih
        (fun i hi j hj => hdistinct i (Nat.lt_succ_of_lt hi) j (Nat.lt_succ_of_lt hj))
        (fun i hi => hbody i (Nat.lt_succ_of_lt hi))
      rw [run_loop_succ, hbody n (Nat.lt_succ_self n) _ hframe, hret]
      refine ⟨rfl, fun i hi => ?_, fun a ha => ?_⟩
      · by_cases hin : i = n
        · rw [hin]
          exact Function.update_self _ _ _
        · have hlt : i < n := by omega
          have hne : p i ≠ p n := fun heq => hin (hdistinct i hi n (Nat.lt_succ_self n) heq)
          exact (Function.update_of_ne hne _ _).trans (hcells i hlt)
      · exact (Function.update_of_ne (ha n (Nat.lt_succ_self n)) _ _).trans
          (hframe a fun j hj => ha j (Nat.lt_succ_of_lt hj))

theorem run_forEach_put {n : Nat} {body : Nat → Prog A V Unit} {m : A → V} {p : Nat → A}
    {f : Nat → V} (hdistinct : ∀ i < n, ∀ j < n, p i = p j → i = j)
    (hbody : ∀ i < n, ∀ m', (∀ a, (∀ j < i, a ≠ p j) → m' a = m a) →
      (run (body i) m').2 = Function.update m' (p i) (f i)) :
    (∀ i < n, (run (forEach n body) m).2 (p i) = f i) ∧
      ∀ a, (∀ j < n, a ≠ p j) → (run (forEach n body) m).2 a = m a :=
  (@run_loop_put A V Unit _ n (fun i _ => body i) m p (fun i _ => f i) (fun _ s => s) hdistinct
    (fun i hi m' hm' _ => Prod.ext rfl (hbody i hi m' hm')) ()).2

/-- How many cells are read and written. -/
def cost : Prog A V R → (A → V) → Nat
  | ret _, _ => 0
  | read a next, m => cost (next (m a)) m + 1
  | write a v next, m => cost next (Function.update m a v) + 1

end Run

/-! ### Footprints -/

section Within

variable {reads writes : Set A}

/-- Whatever it reads, the program reads and writes only these cells. -/
def Within (reads writes : Set A) : Prog A V R → Prop
  | ret _ => True
  | read a next => a ∈ reads ∧ ∀ v, (next v).Within reads writes
  | write a _ next => a ∈ writes ∧ next.Within reads writes

theorem within_pure (r : R) : (pure r : Prog A V R).Within reads writes := trivial

theorem within_get {a : A} (h : a ∈ reads) : (get a : Prog A V V).Within reads writes :=
  ⟨h, fun _ => trivial⟩

theorem within_put {a : A} (h : a ∈ writes) (v : V) : (put a v).Within reads writes := ⟨h, trivial⟩

theorem within_bind {p : Prog A V R} {f : R → Prog A V S} (hp : p.Within reads writes)
    (hf : ∀ r, (f r).Within reads writes) : (p >>= f).Within reads writes := by
  induction p with
  | ret r => exact hf r
  | read a next ih => exact ⟨hp.1, fun v => ih v (hp.2 v)⟩
  | write a v next ih => exact ⟨hp.1, ih hp.2⟩

theorem within_loop {n : Nat} {body : Nat → S → Prog A V S}
    (h : ∀ i < n, ∀ s, (body i s).Within reads writes) (s : S) :
    (loop n s body).Within reads writes := by
  induction n with
  | zero => trivial
  | succ n ih =>
      exact within_bind (ih fun i hi => h i (Nat.lt_succ_of_lt hi)) (h n (Nat.lt_succ_self n))

theorem within_forEach {n : Nat} {body : Nat → Prog A V Unit}
    (h : ∀ i < n, (body i).Within reads writes) : (forEach n body).Within reads writes :=
  within_loop (fun i hi _ => h i hi) ()

theorem Within.mono {p : Prog A V R} {reads' writes' : Set A} (h : p.Within reads writes)
    (hreads : reads ⊆ reads') (hwrites : writes ⊆ writes') : p.Within reads' writes' := by
  induction p with
  | ret r => trivial
  | read a next ih => exact ⟨hreads h.1, fun v => ih v (h.2 v)⟩
  | write a v next ih => exact ⟨hwrites h.1, ih h.2⟩

theorem within_univ (p : Prog A V R) : p.Within Set.univ Set.univ := by
  induction p with
  | ret r => trivial
  | read a next ih => exact ⟨trivial, ih⟩
  | write a v next ih => exact ⟨trivial, ih⟩

variable [DecidableEq A]

/-- What is not written stays. -/
theorem run_frame {p : Prog A V R} (h : p.Within reads writes) {a : A} (ha : a ∉ writes)
    (m : A → V) : (run p m).2 a = m a := by
  induction p generalizing m with
  | ret r => rfl
  | read b next ih => exact ih _ (h.2 _) m
  | write b v next ih =>
      have hne : a ≠ b := fun heq => ha (heq ▸ h.1)
      exact (ih h.2 _).trans (Function.update_of_ne hne v m)

/-- A program does the same on memories that agree on what it reads. -/
theorem run_congr {p : Prog A V R} (h : p.Within reads writes) {m m' : A → V}
    (hreads : ∀ a ∈ reads, m a = m' a) :
    (run p m).1 = (run p m').1 ∧ ∀ a, m a = m' a → (run p m).2 a = (run p m').2 a := by
  induction p generalizing m m' with
  | ret r => exact ⟨rfl, fun a ha => ha⟩
  | read b next ih =>
      rw [run, run, ← hreads b h.1]
      exact ih (m b) (h.2 (m b)) hreads
  | write b v next ih =>
      have hupdate : ∀ a, m a = m' a → Function.update m b v a = Function.update m' b v a := by
        intro a ha
        by_cases hab : a = b
        · rw [hab, Function.update_self, Function.update_self]
        · rw [Function.update_of_ne hab, Function.update_of_ne hab, ha]
      obtain ⟨hret, hrest⟩ := ih h.2 fun a ha => hupdate a (hreads a ha)
      exact ⟨hret, fun a ha => hrest a (hupdate a ha)⟩

/-- Passes that do not see what the others write leave behind what each does alone. -/
theorem run_forEach_separate {n : Nat} {body : Nat → Prog A V Unit} {reads writes : Nat → Set A}
    (hwithin : ∀ i < n, (body i).Within (reads i) (writes i))
    (hapart : ∀ i < n, ∀ j < n, i ≠ j → ∀ a ∈ writes i, a ∉ reads j ∧ a ∉ writes j) (m : A → V) :
    (∀ i < n, ∀ a ∈ writes i, (run (forEach n body) m).2 a = (run (body i) m).2 a) ∧
      ∀ a, (∀ i < n, a ∉ writes i) → (run (forEach n body) m).2 a = m a := by
  induction n with
  | zero => exact ⟨nofun, fun _ _ => rfl⟩
  | succ n ih =>
      obtain ⟨hcells, hframe⟩ := ih (fun i hi => hwithin i (Nat.lt_succ_of_lt hi))
        (fun i hi j hj => hapart i (Nat.lt_succ_of_lt hi) j (Nat.lt_succ_of_lt hj))
      have hlast := hwithin n (Nat.lt_succ_self n)
      rw [forEach, run_loop_succ]
      refine ⟨fun i hi a ha => ?_, fun a ha => ?_⟩
      · by_cases hin : i = n
        · subst hin
          have hreads : ∀ b ∈ reads i, (run (forEach i body) m).2 b = m b := fun b hb =>
            hframe b fun j hj hbj =>
              (hapart j (Nat.lt_succ_of_lt hj) i hi (Nat.ne_of_lt hj) b hbj).1 hb
          refine (run_congr hlast hreads).2 a (hframe a fun j hj haj => ?_)
          exact (hapart j (Nat.lt_succ_of_lt hj) i hi (Nat.ne_of_lt hj) a haj).2 ha
        · have hlt : i < n := by omega
          have hnot : a ∉ writes n := (hapart i hi n (Nat.lt_succ_self n) hin a ha).2
          exact (run_frame hlast hnot _).trans (hcells i hlt a ha)
      · exact (run_frame hlast (ha n (Nat.lt_succ_self n)) _).trans
          (hframe a fun i hi => ha i (Nat.lt_succ_of_lt hi))

end Within

/-! ### Other cells -/

/-- The program on the cells that `f` places its own at. -/
def map (f : A → B) : Prog A V R → Prog B V R
  | ret r => ret r
  | read a next => read (f a) fun v => (next v).map f
  | write a v next => write (f a) v (next.map f)

theorem Within.map {p : Prog A V R} {reads writes : Set A} (h : p.Within reads writes)
    (f : A → B) : (p.map f).Within (f '' reads) (f '' writes) := by
  induction p with
  | ret r => trivial
  | read a next ih => exact ⟨Set.mem_image_of_mem f h.1, fun v => ih v (h.2 v)⟩
  | write a v next ih => exact ⟨Set.mem_image_of_mem f h.1, ih h.2⟩

end Prog

end NjuOs.Lib
