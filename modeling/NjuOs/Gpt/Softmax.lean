import Mathlib.Analysis.SpecialFunctions.Trigonometric.Basic
import NjuOs.Lib.Softmax
import NjuOs.Gpt.Heads

/-!
The attention and the output over exact arithmetic.

With exact operations and any exponential the weights of a head and the rows of
`probs` are softmaxes. The maximum that is subtracted cancels, whatever `gt` and
`lowest` make of it, and what `div` does with a divisor 0 does not matter: none of the
sums is 0. The divisors of the scale are different from 0 where each head has a channel; for more
heads than channels `sqrtf(hs)` is 0 (`scale_divides_by_zero`).
-/

namespace NjuOs.Gpt

open NjuOs.Lib NjuOs.Lib.Prog

variable {A K : Type} [Field K] [LinearOrder K] {ops : FloatOps K}

/-- The operations of the kernels are those of the field. Division by 0 is left open, and so are
the functions that make the scale. -/
structure Exact (ops : FloatOps K) : Prop where
  add : ∀ x y, ops.add x y = x + y
  sub : ∀ x y, ops.sub x y = x - y
  mul : ∀ x y, ops.mul x y = x * y
  div : ∀ x y, y ≠ 0 → ops.div x y = x / y
  eq : ∀ x y, ops.eq x y = true ↔ x = y
  zero : ops.zero = 0
  one : ops.one = 1
  exp : Exponential ops.expf

/-- What the scale is made of; which number `recip` gives is left open. -/
structure ExactScale (ops : FloatOps K) : Prop where
  ofInt : ∀ n : Nat, ops.ofInt n = n
  sqrtf : ∀ x, 0 < x → ops.sqrtf x ≠ 0

/-! ### Sums -/

section Sums

variable (h : Exact ops)

include h

/-- A loop that adds up. -/
theorem Exact.accumulate_eq_sum (n : Nat) (f : Nat → K) :
    accumulate n ops.zero (fun i s => ops.add s (f i)) = ∑ i ∈ Finset.range n, f i := by
  induction n with
  | zero => exact h.zero
  | succ n ih => rw [accumulate, ih, h.add, Finset.sum_range_succ]

/-- The scaled product of the query and a key. -/
theorem Exact.attentionScore_eq (query key : Nat → K) (scale : K) (hs : Nat) :
    attentionScore ops query key scale hs =
      (∑ i ∈ Finset.range hs, query i * key i) * scale := by
  simp only [attentionScore, h.mul, h.accumulate_eq_sum]

theorem Exact.attentionSum_eq (score : Nat → K) (t : Nat) :
    attentionSum ops score t =
      ∑ u ∈ Finset.range (t + 1), ops.expf (score u - attentionMax ops score t) := by
  simp only [attentionSum, attentionExp, h.accumulate_eq_sum, h.sub]

/-- The sum behind the exponentials of a row of `probs`. -/
theorem Exact.softmaxSum_eq (V : Nat) (x : Nat → K) :
    (accumulate V ops.zero fun i sum => ops.add sum (softmaxExp ops V x i)) =
      ∑ i ∈ Finset.range V, ops.expf (x i - softmaxMax ops V x) := by
  simp only [softmaxExp, h.accumulate_eq_sum, h.sub]

variable [IsStrictOrderedRing K]

theorem Exact.attentionSum_ne_zero (score : Nat → K) (t : Nat) :
    attentionSum ops score t ≠ 0 := by
  rw [h.attentionSum_eq]
  exact (h.exp.sum_pos (Finset.nonempty_range_iff.mpr t.succ_ne_zero) _).ne'

theorem Exact.attentionWeight_eq (score : Nat → K) (t t2 : Nat) :
    attentionWeight ops score t t2 = softmax ops.expf (Finset.range (t + 1)) score t2 := by
  have hne := h.attentionSum_ne_zero score t
  have hsum : ops.eq (attentionSum ops score t) ops.zero = false := by
    rw [h.zero, ← Bool.not_eq_true, h.eq]
    exact hne
  calc attentionWeight ops score t t2
    _ = attentionExp ops score t t2 / attentionSum ops score t := by
        simp only [attentionWeight, hsum, Bool.false_eq_true, if_false, h.mul, h.div _ _ hne, h.one,
          mul_one_div]
    _ = softmax ops.expf (Finset.range (t + 1))
          (fun u => score u - attentionMax ops score t) t2 := by
        rw [softmax, h.attentionSum_eq, attentionExp, h.sub]
    _ = softmax ops.expf (Finset.range (t + 1)) score t2 := softmax_sub h.exp _ _ _

theorem Exact.softmaxSum_ne_zero {V : Nat} (hV : 0 < V) (x : Nat → K) :
    (accumulate V ops.zero fun i sum => ops.add sum (softmaxExp ops V x i)) ≠ 0 := by
  rw [h.softmaxSum_eq]
  exact (h.exp.sum_pos (Finset.nonempty_range_iff.mpr hV.ne') _).ne'

theorem Exact.softmaxRow_eq {V : Nat} (hV : 0 < V) (x : Nat → K) (i : Nat) :
    softmaxRow ops V x i = softmax ops.expf (Finset.range V) x i := by
  calc softmaxRow ops V x i
    _ = softmax ops.expf (Finset.range V) (fun j => x j - softmaxMax ops V x) i := by
        rw [softmaxRow, h.div _ _ (h.softmaxSum_ne_zero hV x), softmax, h.softmaxSum_eq,
          softmaxExp, h.sub]
    _ = softmax ops.expf (Finset.range V) x i := softmax_sub h.exp _ _ _

end Sums

/-! ### Rows -/

/-- The scaled product of the query of position `t` and the key of position `t2`, in head `h`. -/
def scaledProduct (scale : K) (x : Nat → K) (C NH t h t2 : Nat) : K :=
  (∑ i ∈ Finset.range (C / NH), x (t * (C * 3) + h * (C / NH) + i) *
    x (t2 * (C * 3) + h * (C / NH) + C + i)) * scale

/-- The divisions for head `h` of position `t`: `C / NH`, `1.0 / sqrtf(hs)` and `1.0f / expsum`. -/
structure HeadDivides (ops : FloatOps K) (x : Nat → K) (C NH t h : Nat) : Prop where
  heads : NH ≠ 0
  scale : ops.sqrtf (ops.ofInt (C / NH)) ≠ 0
  sum : attentionSum ops (headScore ops x C NH t h) t ≠ 0

/-- Head `h` of position `t`, from the memory before to that after. -/
structure HeadIsSoftmax (ops : FloatOps K) (out att inp : Nat → A) (T C NH t h : Nat)
    (m m' : A → K) : Prop where
  divisors : HeadDivides ops (fun j => m (inp j)) C NH t h
  weights : ∀ t2 ≤ t, m' (att (h * T * T + t * T + t2)) =
    softmax ops.expf (Finset.range (t + 1))
      (scaledProduct (ops.recip (ops.sqrtf (ops.ofInt (C / NH)))) (fun j => m (inp j)) C NH t h) t2
  masked : ∀ t2 < T, t < t2 → m' (att (h * T * T + t * T + t2)) = 0
  values : ∀ i < C / NH, m' (out (t * C + h * (C / NH) + i)) =
    ∑ t2 ∈ Finset.range (t + 1), m' (att (h * T * T + t * T + t2)) *
      m (inp (t2 * (C * 3) + h * (C / NH) + C * 2 + i))

/-- A row of `probs`. -/
structure RowIsSoftmax (ops : FloatOps K) (probs_bt logits_bt : Nat → A) (V : Nat)
    (m m' : A → K) : Prop where
  divisor : (accumulate V ops.zero fun i sum =>
    ops.add sum (softmaxExp ops V (fun i => m (logits_bt i)) i)) ≠ 0
  probs : ∀ i < V, m' (probs_bt i) =
    softmax ops.expf (Finset.range V) (fun i => m (logits_bt i)) i
  total : ∑ i ∈ Finset.range V, m' (probs_bt i) = 1

section Rows

variable [IsStrictOrderedRing K] [DecidableEq A]

theorem headDivides (h : Exact ops) (hscale : ExactScale ops) {C NH t head : Nat}
    (hhead : head < NH) (hC : NH ≤ C) (x : Nat → K) : HeadDivides ops x C NH t head where
  heads := Nat.ne_zero_of_lt hhead
  scale := by
    rw [hscale.ofInt]
    exact hscale.sqrtf _ (Nat.cast_pos.mpr (Nat.div_pos hC (Nat.zero_lt_of_lt hhead)))
  sum := h.attentionSum_ne_zero _ t

theorem attentionForwardThread_softmax (h : Exact ops) (hscale : ExactScale ops)
    {out preatt att inp : Nat → A} {T C NH t head : Nat}
    (hapart : NonOverlapping ((attentionOuts out preatt att T C NH).map Prod.fst)
      (attentionIns inp T C)) (ht : t < T) (hhead : head < NH) (hC : NH ≤ C) (m : A → K) :
    HeadIsSoftmax ops out att inp T C NH t head m
      ((attentionForwardThread ops out preatt att inp T C NH t).run m).2 := by
  obtain ⟨hvalues, hweights, hmasked⟩ := run_attentionForwardThread ops hapart ht hhead m
  have hscore : headScore ops (fun j => m (inp j)) C NH t head =
      scaledProduct (ops.recip (ops.sqrtf (ops.ofInt (C / NH)))) (fun j => m (inp j)) C NH t head :=
    funext fun t2 => h.attentionScore_eq _ _ _ _
  refine ⟨headDivides h hscale hhead hC _, fun t2 ht2 => ?_, fun t2 ht2 hlt => ?_, fun i hi => ?_⟩
  · rw [hweights t2 (Nat.lt_succ_of_le ht2), h.attentionWeight_eq, hscore]
  · rw [hmasked t2 ht2 hlt, h.zero]
  · have hrow : attentionRow ops (fun j => m (inp j)) C NH t head i =
        ∑ t2 ∈ Finset.range (t + 1),
          attentionWeight ops (headScore ops (fun j => m (inp j)) C NH t head) t t2 *
            m (inp (t2 * (C * 3) + head * (C / NH) + C * 2 + i)) := by
      simp only [← h.mul]
      exact h.accumulate_eq_sum (t + 1) _
    rw [hvalues i hi, hrow]
    refine Finset.sum_congr rfl fun t2 ht2 => ?_
    rw [hweights t2 (Finset.mem_range.mp ht2)]

theorem softmaxForward_softmax (h : Exact ops) {probs logits : Nat → A} {B T V b t : Nat}
    (hapart : NonOverlapping [⟨probs, B * T * V⟩] [⟨logits, B * T * V⟩]) (hb : b < B) (ht : t < T)
    (hV : 0 < V) (m : A → K) :
    RowIsSoftmax ops (fun i => probs (b * T * V + t * V + i))
      (fun i => logits (b * T * V + t * V + i)) V m
      ((softmaxForward ops probs logits B T V).run m).2 := by
  have hprobs : ∀ i < V, ((softmaxForward ops probs logits B T V).run m).2
      (probs (b * T * V + t * V + i)) = softmax ops.expf (Finset.range V)
        (fun i => m (logits (b * T * V + t * V + i))) i := fun i hi => by
    rw [run_softmaxForward ops hapart m hb ht hi, h.softmaxRow_eq hV]
  refine ⟨h.softmaxSum_ne_zero hV _, hprobs, ?_⟩
  rw [Finset.sum_congr rfl fun i hi => hprobs i (Finset.mem_range.mp hi)]
  exact sum_softmax h.exp (Finset.nonempty_range_iff.mpr hV.ne') _

/-- **Every head of the attention and every row of `probs` is a softmax**, and nothing is divided
by 0, if there are at most as many heads as channels. -/
theorem rows_are_softmax (h : Exact ops) (hscale : ExactScale ops) :
    (∀ (out preatt att inp : Nat → A) (T C NH t head : Nat),
      NonOverlapping ((attentionOuts out preatt att T C NH).map Prod.fst) (attentionIns inp T C) →
      t < T → head < NH → NH ≤ C → ∀ m, HeadIsSoftmax ops out att inp T C NH t head m
        ((attentionForwardThread ops out preatt att inp T C NH t).run m).2) ∧
    ∀ (probs logits : Nat → A) (B T V b t : Nat),
      NonOverlapping [⟨probs, B * T * V⟩] [⟨logits, B * T * V⟩] → b < B → t < T → 0 < V →
      ∀ m, RowIsSoftmax ops (fun i => probs (b * T * V + t * V + i))
        (fun i => logits (b * T * V + t * V + i)) V m
        ((softmaxForward ops probs logits B T V).run m).2 :=
  ⟨fun _ _ _ _ _ _ _ _ _ hapart ht hhead hC m =>
      attentionForwardThread_softmax h hscale hapart ht hhead hC m,
    fun _ _ _ _ _ _ _ hapart hb ht hV m => softmaxForward_softmax h hapart hb ht hV m⟩

/-- The operations on real numbers. -/
noncomputable def realOps : FloatOps ℝ where
  add := (· + ·)
  sub := (· - ·)
  mul := (· * ·)
  div := (· / ·)
  sqrtf := Real.sqrt
  expf := Real.exp
  tanhf := Real.tanh
  recip x := 1 / x
  gt x y := decide (y < x)
  eq x y := decide (x = y)
  ofInt n := n
  zero := 0
  one := 1
  eps := 1e-5
  lowest := -10000
  half := 0.5
  cubeFactor := 0.044715
  geluScaling := Real.sqrt (2 / Real.pi)

theorem exact_realOps : Exact realOps where
  add _ _ := rfl
  sub _ _ := rfl
  mul _ _ := rfl
  div _ _ _ := rfl
  eq _ _ := decide_eq_true_iff
  zero := rfl
  one := rfl
  exp := ⟨Real.exp_pos, fun a b => by
    change Real.exp (a - b) * Real.exp b = Real.exp a
    rw [← Real.exp_add, sub_add_cancel]⟩

theorem exactScale_realOps : ExactScale realOps where
  ofInt _ := rfl
  sqrtf _ h := (Real.sqrt_pos.mpr h).ne'

/-- Two positions, two channels and two heads; two rows of three logits. -/
theorem rows_are_softmax_two :
    (∀ m, HeadIsSoftmax realOps (0 + ·) (12 + ·) (20 + ·) 2 2 2 1 1 m
      ((attentionForwardThread realOps (0 + ·) (4 + ·) (12 + ·) (20 + ·) 2 2 2 1).run m).2) ∧
    ∀ m, RowIsSoftmax realOps (fun i => 0 + (0 * 2 * 3 + 1 * 3 + i))
      (fun i => 6 + (0 * 2 * 3 + 1 * 3 + i)) 3 m
      ((softmaxForward realOps (0 + ·) (6 + ·) 1 2 3).run m).2 := by
  obtain ⟨hattention, hsoftmax⟩ := @rows_are_softmax Nat ℝ _ _ _ _ _ exact_realOps
    exactScale_realOps
  refine ⟨hattention _ _ _ _ 2 2 2 1 1 ?_ (by decide) (by decide) (by decide),
    hsoftmax _ _ 1 2 3 0 1 ?_ (by decide) (by decide) (by decide)⟩
  · exact @nonOverlapping_flat [(0, 4), (4, 8), (12, 8)] [(20, 12)] (by decide)
  · exact @nonOverlapping_flat [(0, 6)] [(6, 6)] (by decide)

/-- Two heads for one channel: the scale is made of `1.0 / sqrtf(0)`. -/
theorem scale_divides_by_zero :
    ¬ HeadIsSoftmax realOps (0 + ·) (3 + ·) (5 + ·) 1 1 2 0 0 (fun _ => 0)
      ((attentionForwardThread realOps (0 + ·) (1 + ·) (3 + ·) (5 + ·) 1 1 2 0).run
        fun _ => 0).2 := by
  intro h
  refine h.divisors.scale ?_
  simp [realOps]

end Rows

end NjuOs.Gpt
