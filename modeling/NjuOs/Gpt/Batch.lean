import NjuOs.Gpt.Heads

/-!
The threaded kernels and the batch.

The tensors have `B * T` rows; there is one thread for each `t < T`, which works on
row `t`. With `B = 1` these are all rows. With more, the rows behind the first `T`
are left as they were.
-/

namespace NjuOs.Gpt

open NjuOs.Lib NjuOs.Lib.Prog

variable {A F : Type} (ops : FloatOps F)

/-- With `B ≥ 2` there is a row behind the first `T`. -/
theorem secondBatch_lt {B T : Nat} (hB : 0 < B) (hT : 0 < T) (hne : B ≠ 1) : 1 < B ∧ T < B * T := by
  have hB1 : 1 < B := by omega
  exact ⟨hB1, (Nat.lt_mul_iff_one_lt_left hT).mpr hB1⟩

/-! ### Layer norm -/

section Layernorm

variable [DecidableEq A] (out mean rstd inp weight bias : Nat → A) (B T C : Nat)

/-- Every row of the batch is normalized. -/
def LayernormCovers : Prop :=
  ∀ m m', Completes (layernormForward ops out mean rstd inp weight bias B T C) m m' →
    ∀ b < B, ∀ t < T, ∀ i < C, m' (out (b * T * C + t * C + i)) =
      layernormRow ops C (fun i => m (inp (b * T * C + t * C + i))) (fun i => m (weight i))
        (fun i => m (bias i)) i

variable {out mean rstd inp weight bias B T C}

theorem layernormCovers_iff [Nontrivial F] (hB : 0 < B) (hT : 0 < T)
    (h : NonOverlapping ((layernormOuts out mean rstd (B * T) C).map Prod.fst)
      (layernormIns inp weight bias (B * T) C)) :
    LayernormCovers ops out mean rstd inp weight bias B T C ↔ B = 1 ∨ C = 0 := by
  have hTB : T ≤ B * T := Nat.le_mul_of_pos_left T hB
  have hsub : NonOverlapping ((layernormOuts out mean rstd T C).map Prod.fst)
      (layernormIns inp weight bias T C) :=
    h.sub (.cons ⟨rfl, Nat.mul_le_mul_right C hTB⟩ (.cons ⟨rfl, hTB⟩ (.cons ⟨rfl, hTB⟩ .nil)))
      (.cons ⟨rfl, Nat.mul_le_mul_right C hTB⟩
        (.cons ⟨rfl, Nat.le_refl _⟩ (.cons ⟨rfl, Nat.le_refl _⟩ .nil)))
  constructor
  · intro hcovers
    by_contra hnot
    rw [not_or] at hnot
    have hC : 0 < C := Nat.pos_of_ne_zero hnot.2
    obtain ⟨hB1, hrow⟩ := secondBatch_lt hB hT hnot.1
    have hlt : T * C < B * T * C := rowIndex_lt hrow hC
    simp only [layernormOuts, layernormIns, List.map_cons, List.map_nil, nonOverlapping_cons,
      List.forall_mem_cons] at h
    obtain ⟨⟨hout, ⟨hmean, hrstd, -⟩, hinp, hweight, hbias, -⟩, -⟩ := h
    have hrest : ∀ y ∈ [((⟨mean, T⟩ : Slice A), (id : Nat → Nat)), (⟨rstd, T⟩, id)],
        Disjoint (Slice.cells ⟨out, B * T * C⟩) y.1.cells := by
      simp only [List.forall_mem_cons]
      exact ⟨Slice.disjoint_sub hmean ⟨rfl, hTB⟩, Slice.disjoint_sub hrstd ⟨rfl, hTB⟩,
        List.forall_mem_nil _⟩
    refine (layernorm_separate ops hsub B).not_computes (a := out (T * C))
      (f := fun m => layernormRow ops C (fun i => m (inp (T * C + i))) (fun i => m (weight i))
        (fun i => m (bias i)) 0)
      (fun t => notMem_own_of_le hout hrest (Nat.le_refl _) hlt t) (fun m v => ?_)
      fun m m' hrun => ?_
    · refine layernormRow_congr (fun i hi => ?_) (fun i hi => ?_) (fun i hi => ?_) hC
      · exact Function.update_of_ne (Slice.ne_of_disjoint hinp hlt (rowIndex_lt hrow hi)).symm _ _
      · exact Function.update_of_ne (Slice.ne_of_disjoint hweight hlt hi).symm _ _
      · exact Function.update_of_ne (Slice.ne_of_disjoint hbias hlt hi).symm _ _
    · simpa only [Nat.one_mul, Nat.zero_mul, Nat.add_zero] using hcovers m m' hrun 1 hB1 0 hT 0 hC
  · rintro (rfl | rfl) m m' hrun b hb t ht i hi
    · obtain rfl : b = 0 := by omega
      simpa only [Nat.zero_mul, Nat.zero_add] using layernormForward_row ops hsub hrun ht hi
    · exact absurd hi (Nat.not_lt_zero i)

end Layernorm

/-! ### Matrix multiplication -/

section Matmul

variable [DecidableEq A] (out inp weight : Nat → A) (bias : Option (Nat → A)) (B T C OC : Nat)

/-- Every row of the batch is multiplied. -/
def MatmulCovers : Prop :=
  ∀ m m', Completes (matmulForward ops out inp weight bias B T C OC) m m' →
    ∀ b < B, ∀ t < T, ∀ o < OC, m' (out (b * T * OC + t * OC + o)) =
      matmulRow ops C (fun i => m (inp (b * T * C + t * C + i))) (fun j => m (weight j))
        (bias.map fun bias o => m (bias o)) o

variable {out inp weight bias B T C OC}

theorem matmulCovers_iff [Nontrivial F] (hB : 0 < B) (hT : 0 < T)
    (h : NonOverlapping ((matmulOuts out (B * T) OC).map Prod.fst)
      (matmulIns inp weight bias (B * T) C OC)) :
    MatmulCovers ops out inp weight bias B T C OC ↔ B = 1 ∨ OC = 0 := by
  have hTB : T ≤ B * T := Nat.le_mul_of_pos_left T hB
  have hsub : NonOverlapping ((matmulOuts out T OC).map Prod.fst)
      (matmulIns inp weight bias T C OC) :=
    h.sub (.cons ⟨rfl, Nat.mul_le_mul_right OC hTB⟩ .nil)
      (.cons ⟨rfl, Nat.mul_le_mul_right C hTB⟩ (.cons ⟨rfl, Nat.le_refl _⟩
        (List.forall₂_same.mpr fun _ _ => ⟨rfl, Nat.le_refl _⟩)))
  constructor
  · intro hcovers
    by_contra hnot
    rw [not_or] at hnot
    have hOC : 0 < OC := Nat.pos_of_ne_zero hnot.2
    obtain ⟨hB1, hrow⟩ := secondBatch_lt hB hT hnot.1
    have hlt : T * OC < B * T * OC := rowIndex_lt hrow hOC
    simp only [matmulOuts, matmulIns, List.map_cons, List.map_nil, nonOverlapping_cons,
      List.cons_append, List.nil_append, List.forall_mem_cons] at h
    obtain ⟨⟨hout, -, hinp, hweight, hbias⟩, -⟩ := h
    refine (matmul_separate ops hsub B).not_computes (a := out (T * OC))
      (f := fun m => matmulRow ops C (fun i => m (inp (T * C + i))) (fun j => m (weight j))
        (bias.map fun bias o => m (bias o)) 0)
      (fun t => notMem_own_of_le hout (List.forall_mem_nil _) (Nat.le_refl _) hlt t)
      (fun m v => ?_) fun m m' hrun => ?_
    · refine matmulRow_congr (fun i hi => ?_) (fun j hj => ?_) ?_ hOC
      · exact Function.update_of_ne (Slice.ne_of_disjoint hinp hlt (rowIndex_lt hrow hi)).symm _ _
      · exact Function.update_of_ne (Slice.ne_of_disjoint hweight hlt hj).symm _ _
      · cases bias with
        | none => rfl
        | some p =>
            have hp := hbias ⟨p, OC⟩ (by simp)
            exact Function.update_of_ne (Slice.ne_of_disjoint hp hlt hOC).symm _ _
    · simpa only [Nat.one_mul, Nat.zero_mul, Nat.add_zero] using hcovers m m' hrun 1 hB1 0 hT 0 hOC
  · rintro (rfl | rfl) m m' hrun b hb t ht o ho
    · obtain rfl : b = 0 := by omega
      simpa only [Nat.zero_mul, Nat.zero_add] using matmulForward_row ops hsub hrun ht ho
    · exact absurd ho (Nat.not_lt_zero o)

end Matmul

/-! ### Attention -/

section Attention

variable [DecidableEq A] (out preatt att inp : Nat → A) (B T C NH : Nat)

/-- Every row of the batch attends to the rows before it. -/
def AttentionCovers : Prop :=
  ∀ m m', Completes (attentionForward ops out preatt att inp B T C NH) m m' →
    ∀ b < B, ∀ t < T, ∀ h < NH, ∀ i < C / NH, m' (out (b * T * C + t * C + h * (C / NH) + i)) =
      attentionRow ops (fun j => m (inp (b * T * (C * 3) + j))) C NH t h i

variable {out preatt att inp B T C NH}

theorem attentionCovers_iff [Nontrivial F] (hB : 0 < B) (hT : 0 < T) (hNH : 0 < NH)
    (h : NonOverlapping [⟨out, B * T * C⟩, ⟨preatt, B * NH * T * T⟩, ⟨att, B * NH * T * T⟩]
      [⟨inp, B * T * (C * 3)⟩]) :
    AttentionCovers ops out preatt att inp B T C NH ↔ B = 1 ∨ C < NH := by
  have hTB : T ≤ B * T := Nat.le_mul_of_pos_left T hB
  have hheads : NH * T * T ≤ B * NH * T * T :=
    Nat.mul_le_mul_right T (Nat.mul_le_mul_right T (Nat.le_mul_of_pos_left NH hB))
  have hsub : NonOverlapping ((attentionOuts out preatt att T C NH).map Prod.fst)
      (attentionIns inp T C) :=
    h.sub (.cons ⟨rfl, Nat.mul_le_mul_right C hTB⟩ (.cons ⟨rfl, hheads⟩ (.cons ⟨rfl, hheads⟩ .nil)))
      (.cons ⟨rfl, Nat.mul_le_mul_right (C * 3) hTB⟩ .nil)
  constructor
  · intro hcovers
    by_contra hnot
    rw [not_or, Nat.not_lt] at hnot
    have hhs : 0 < C / NH := Nat.div_pos hnot.2 hNH
    have hC : 0 < C := Nat.lt_of_lt_of_le hNH hnot.2
    obtain ⟨hB1, hrow⟩ := secondBatch_lt hB hT hnot.1
    have hlt : T * C < B * T * C := rowIndex_lt hrow hC
    simp only [nonOverlapping_cons, List.forall_mem_cons] at h
    obtain ⟨⟨hout, ⟨hpreatt, hatt, -⟩, hinp, -⟩, -⟩ := h
    have hrest : ∀ y ∈ [((⟨preatt, NH * T * T⟩ : Slice A), (· / T % T)),
        (⟨att, NH * T * T⟩, (· / T % T))],
        Disjoint (Slice.cells ⟨out, B * T * C⟩) y.1.cells := by
      simp only [List.forall_mem_cons]
      exact ⟨Slice.disjoint_sub hpreatt ⟨rfl, hheads⟩, Slice.disjoint_sub hatt ⟨rfl, hheads⟩, nofun⟩
    refine (attention_separate ops hsub B).not_computes (a := out (T * C))
      (f := fun m => attentionRow ops (fun j => m (inp (T * (C * 3) + j))) C NH 0 0 0)
      (fun t => notMem_own_of_le hout hrest (Nat.le_refl _) hlt t) (fun m v => ?_)
      fun m m' hrun => ?_
    · refine attentionRow_congr hNH (fun t2 ht2 j hj => ?_) hhs
      obtain rfl : t2 = 0 := by omega
      rw [Nat.zero_mul, Nat.zero_add]
      exact Function.update_of_ne (Slice.ne_of_disjoint hinp hlt (rowIndex_lt hrow hj)).symm _ _
    · simpa only [Nat.one_mul, Nat.zero_mul, Nat.add_zero] using
        hcovers m m' hrun 1 hB1 0 hT 0 hNH 0 hhs
  · rintro (rfl | hlt) m m' hrun b hb t ht h hh i hi
    · obtain rfl : b = 0 := by omega
      simpa only [Nat.zero_mul, Nat.zero_add] using attentionForward_row ops hsub hrun ht hh hi
    · rw [Nat.div_eq_of_lt hlt] at hi
      exact absurd hi (Nat.not_lt_zero i)

end Attention

/-! ### The kernels -/

/-- **When the kernels cover the batch**: for one sequence only, unless their rows have
no elements. -/
theorem covers_iff [DecidableEq A] [Nontrivial F] {B T : Nat} (hB : 0 < B) (hT : 0 < T) (C : Nat) :
    (∀ out mean rstd inp weight bias : Nat → A,
      NonOverlapping ((layernormOuts out mean rstd (B * T) C).map Prod.fst)
        (layernormIns inp weight bias (B * T) C) →
      (LayernormCovers ops out mean rstd inp weight bias B T C ↔ B = 1 ∨ C = 0)) ∧
    (∀ OC, ∀ out inp weight : Nat → A, ∀ bias : Option (Nat → A),
      NonOverlapping ((matmulOuts out (B * T) OC).map Prod.fst)
        (matmulIns inp weight bias (B * T) C OC) →
      (MatmulCovers ops out inp weight bias B T C OC ↔ B = 1 ∨ OC = 0)) ∧
    ∀ NH, 0 < NH → ∀ out preatt att inp : Nat → A,
      NonOverlapping [⟨out, B * T * C⟩, ⟨preatt, B * NH * T * T⟩, ⟨att, B * NH * T * T⟩]
        [⟨inp, B * T * (C * 3)⟩] →
      (AttentionCovers ops out preatt att inp B T C NH ↔ B = 1 ∨ C < NH) :=
  ⟨fun _ _ _ _ _ _ h => layernormCovers_iff ops hB hT h,
    fun _ _ _ _ _ h => matmulCovers_iff ops hB hT h,
    fun _ hNH _ _ _ _ h => attentionCovers_iff ops hB hT hNH h⟩

/-- Whole numbers: the operations of `float` where their results are whole and small. -/
def intOps : FloatOps Int where
  add := (· + ·)
  sub := (· - ·)
  mul := (· * ·)
  div := (· / ·)
  sqrtf x := Nat.sqrt x.toNat
  expf x := if x = 0 then 1 else 0
  tanhf := Int.sign
  recip x := 1 / x
  gt x y := decide (x > y)
  eq x y := decide (x = y)
  ofInt n := n
  zero := 0
  one := 1
  eps := 0
  lowest := -10000
  half := 0
  cubeFactor := 0
  geluScaling := 1

/-- Two sequences of one position. -/
theorem covers_iff_two :
    ¬ LayernormCovers intOps (0 + ·) (2 + ·) (4 + ·) (6 + ·) (8 + ·) (9 + ·) 2 1 1 ∧
      ¬ MatmulCovers intOps (0 + ·) (2 + ·) (4 + ·) (some (5 + ·)) 2 1 1 1 ∧
      ¬ AttentionCovers intOps (0 + ·) (2 + ·) (4 + ·) (6 + ·) 2 1 1 1 := by
  obtain ⟨hlayernorm, hmatmul, hattention⟩ :=
    @covers_iff Nat Int intOps _ ⟨0, 1, by decide⟩ 2 1 (by decide) (by decide) 1
  refine ⟨(hlayernorm _ _ _ _ _ _ ?_).not.mpr (by decide),
    (hmatmul 1 _ _ _ _ ?_).not.mpr (by decide),
    (hattention 1 (by decide) _ _ _ _ ?_).not.mpr (by decide)⟩
  · exact @nonOverlapping_flat [(0, 2), (2, 2), (4, 2)] [(6, 2), (8, 1), (9, 1)] (by decide)
  · exact @nonOverlapping_flat [(0, 2)] [(2, 2), (4, 1), (5, 1)] (by decide)
  · exact @nonOverlapping_flat [(0, 2), (2, 2), (4, 2)] [(6, 6)] (by decide)

/-- Two sequences of one position, all inputs and weights one, and an output of zeros:
the second row of the product stays zero. -/
theorem second_row_left :
    NonOverlapping ((matmulOuts (0 + ·) (2 * 1) 1).map Prod.fst)
      (matmulIns (2 + ·) (4 + ·) none (2 * 1) 1 1) ∧
    ∃ m', Completes (matmulForward intOps (0 + ·) (2 + ·) (4 + ·) none 2 1 1 1)
        (fun a => if 2 ≤ a then 1 else 0) m' ∧
      m' 0 = 1 ∧ m' 1 = 0 ∧ ¬ MatmulCovers intOps (0 + ·) (2 + ·) (4 + ·) none 2 1 1 1 := by
  -- the one thread reads the input and the weight and writes their product
  have hrun : ∃ m', Completes (matmulForward intOps (0 + ·) (2 + ·) (4 + ·) none 2 1 1 1)
      (fun a => if 2 ≤ a then 1 else 0) m' ∧ m' 0 = 1 ∧ m' 1 = 0 :=
    ⟨_, ⟨[0, 0, 0], _, rfl, fun i => Subsingleton.elim 0 i ▸ rfl⟩, rfl, rfl⟩
  obtain ⟨m', hcompletes, hfirst, hsecond⟩ := hrun
  refine ⟨@nonOverlapping_flat [(0, 2)] [(2, 2), (4, 1)] (by decide), m', hcompletes, hfirst,
    hsecond, fun hcovers => ?_⟩
  have hone : m' 1 = 1 := hcovers _ m' hcompletes 1 (by decide) 0 (by decide) 0 (by decide)
  rw [hsecond] at hone
  exact absurd hone (by decide)

end NjuOs.Gpt
