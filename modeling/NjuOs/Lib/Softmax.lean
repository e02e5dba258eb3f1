import Mathlib.Algebra.BigOperators.Field
import Mathlib.Algebra.Order.BigOperators.Group.Finset
import Mathlib.Algebra.Order.Field.Basic

/-!
The softmax of a row over an ordered field.

Of the exponential it is only assumed that it is positive and turns differences into
quotients. A constant that is subtracted from the whole row cancels (`softmax_sub`), and
the softmax of a row that is not empty sums to one (`sum_softmax`).
-/

namespace NjuOs.Lib

variable {ι K : Type} [Field K]

/-- Entry `i` of the softmax of the row `x`, whose indices are `s`. -/
def softmax (exp : K → K) (s : Finset ι) (x : ι → K) (i : ι) : K :=
  exp (x i) / ∑ j ∈ s, exp (x j)

variable [LinearOrder K]

structure Exponential (exp : K → K) : Prop where
  pos : ∀ a, 0 < exp a
  sub_mul : ∀ a b, exp (a - b) * exp b = exp a

variable {exp : K → K} {s : Finset ι}

/-- What is subtracted has no influence. -/
theorem softmax_sub (h : Exponential exp) (x : ι → K) (c : K) (i : ι) :
    softmax exp s (fun j => x j - c) i = softmax exp s x i := by
  have hsum : (∑ j ∈ s, exp (x j - c)) * exp c = ∑ j ∈ s, exp (x j) := by
    rw [Finset.sum_mul]
    exact Finset.sum_congr rfl fun j _ => h.sub_mul (x j) c
  rw [softmax, softmax, ← hsum, ← h.sub_mul (x i) c, mul_div_mul_right _ _ (h.pos c).ne']

variable [IsStrictOrderedRing K]

theorem Exponential.sum_pos (h : Exponential exp) (hs : s.Nonempty) (x : ι → K) :
    0 < ∑ j ∈ s, exp (x j) := Finset.sum_pos (fun j _ => h.pos (x j)) hs

theorem sum_softmax (h : Exponential exp) (hs : s.Nonempty) (x : ι → K) :
    ∑ i ∈ s, softmax exp s x i = 1 := by
  have hsum : ∑ i ∈ s, softmax exp s x i = (∑ i ∈ s, exp (x i)) / ∑ j ∈ s, exp (x j) :=
    (Finset.sum_div s (fun i => exp (x i)) _).symm
  rw [hsum, div_self (h.sum_pos hs x).ne']

end NjuOs.Lib
