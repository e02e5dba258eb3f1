import NjuOs.Gpt.Rows

/-!
What the attention computes.

The formulas take the scores of one query row. `run_attention*` follow the four
passes over a head; the entries behind the diagonal are written as zero and never
read.
-/

namespace NjuOs.Gpt

open NjuOs.Lib NjuOs.Lib.Prog

variable {A F : Type} (ops : FloatOps F)

/-! ### Formulas -/

/-- A query dot a key. -/
def attentionScore (query key : Nat → F) (scale : F) (hs : Nat) : F :=
  ops.mul (accumulate hs ops.zero fun i val => ops.add val (ops.mul (query i) (key i))) scale

def attentionMax (score : Nat → F) (t : Nat) : F :=
  accumulate (t + 1) ops.lowest fun t2 maxval =>
    if ops.gt (score t2) maxval then score t2 else maxval

def attentionExp (score : Nat → F) (t t2 : Nat) : F :=
  ops.expf (ops.sub (score t2) (attentionMax ops score t))

def attentionSum (score : Nat → F) (t : Nat) : F :=
  accumulate (t + 1) ops.zero fun t2 expsum => ops.add expsum (attentionExp ops score t t2)

/-- The weight of position `t2` for position `t`. -/
def attentionWeight (score : Nat → F) (t t2 : Nat) : F :=
  let expsum := attentionSum ops score t
  ops.mul (attentionExp ops score t t2)
    (if ops.eq expsum ops.zero then ops.zero else ops.div ops.one expsum)

/-- The scores of head `h` for row `t`. -/
def headScore (x : Nat → F) (C NH t h t2 : Nat) : F :=
  let hs := C / NH
  attentionScore ops (fun i => x (t * (C * 3) + h * hs + i))
    (fun i => x (t2 * (C * 3) + h * hs + C + i)) (ops.recip (ops.sqrtf (ops.ofInt hs))) hs

/-- Element `i` of head `h` of row `t`, from the rows of queries, keys and values. -/
def attentionRow (x : Nat → F) (C NH t h i : Nat) : F :=
  let C3 := C * 3
  let hs := C / NH
  let scale := ops.recip (ops.sqrtf (ops.ofInt hs))
  let query := fun i => x (t * C3 + h * hs + i)
  let score := fun t2 =>
    attentionScore ops query (fun i => x (t2 * C3 + h * hs + C + i)) scale hs
  accumulate (t + 1) ops.zero fun t2 o =>
    ops.add o (ops.mul (attentionWeight ops score t t2) (x (t2 * C3 + h * hs + C * 2 + i)))

section Congr

variable {ops} {score score' : Nat → F} {t : Nat}

theorem attentionScore_congr {query query' key key' : Nat → F} {scale : F} {hs : Nat}
    (hquery : ∀ i < hs, query i = query' i) (hkey : ∀ i < hs, key i = key' i) :
    attentionScore ops query key scale hs = attentionScore ops query' key' scale hs :=
  congrArg (ops.mul · scale) (accumulate_congr (fun i hi val => by rw [hquery i hi, hkey i hi]) _)

theorem attentionMax_congr (h : ∀ t2 < t + 1, score t2 = score' t2) :
    attentionMax ops score t = attentionMax ops score' t :=
  accumulate_congr (fun t2 ht2 maxval => by rw [h t2 ht2]) _

theorem attentionExp_congr (h : ∀ t2 < t + 1, score t2 = score' t2) {t2 : Nat} (ht2 : t2 < t + 1) :
    attentionExp ops score t t2 = attentionExp ops score' t t2 := by
  rw [attentionExp, attentionExp, h t2 ht2, attentionMax_congr h]

theorem attentionWeight_congr (h : ∀ t2 < t + 1, score t2 = score' t2) {t2 : Nat}
    (ht2 : t2 < t + 1) : attentionWeight ops score t t2 = attentionWeight ops score' t t2 := by
  have hsum : attentionSum ops score t = attentionSum ops score' t :=
    accumulate_congr (fun t2 ht2 expsum => by rw [attentionExp_congr h ht2]) _
  simp only [attentionWeight, hsum, attentionExp_congr h ht2]

/-- Row `t` depends on the rows up to `t`. -/
theorem attentionRow_congr {x x' : Nat → F} {C NH h : Nat} (hh : h < NH)
    (hx : ∀ t2 < t + 1, ∀ j < C * 3, x (t2 * (C * 3) + j) = x' (t2 * (C * 3) + j)) {i : Nat}
    (hi : i < C / NH) : attentionRow ops x C NH t h i = attentionRow ops x' C NH t h i := by
  have hhead : h * (C / NH) + C / NH ≤ C := head_le hh
  simp only [attentionRow]
  refine accumulate_congr (fun t2 ht2 o => ?_) _
  have hvalue := hx t2 ht2 (h * (C / NH) + C * 2 + i) (by omega)
  rw [← Nat.add_assoc, ← Nat.add_assoc] at hvalue
  rw [hvalue]
  refine congrArg (fun w => ops.add o (ops.mul w _)) (attentionWeight_congr (fun t2 ht2 =>
    attentionScore_congr (fun i hi => ?_) fun i hi => ?_) ht2)
  · have hquery := hx t (Nat.lt_succ_self t) (h * (C / NH) + i) (by omega)
    rwa [← Nat.add_assoc] at hquery
  · have hkey := hx t2 ht2 (h * (C / NH) + C + i) (by omega)
    rwa [← Nat.add_assoc, ← Nat.add_assoc] at hkey

end Congr

/-! ### The passes over a head -/

section Passes

variable [DecidableEq A] {preatt_bth att_bth out_bth : Nat → A} {T t hs : Nat} (m : A → F)

theorem run_attentionScores {query_t : Nat → A} {key_t2 : Nat → Nat → A} (scale : F)
    (hdistinct : Slice.Distinct ⟨preatt_bth, t + 1⟩)
    (hquery : ∀ i < hs, query_t i ∉ Slice.cells ⟨preatt_bth, t + 1⟩)
    (hkey : ∀ t2 < t + 1, ∀ i < hs, key_t2 t2 i ∉ Slice.cells ⟨preatt_bth, t + 1⟩) :
    let result := (attentionScores ops query_t key_t2 preatt_bth scale hs t).run m
    let score := fun t2 =>
      attentionScore ops (fun i => m (query_t i)) (fun i => m (key_t2 t2 i)) scale hs
    result.1 = attentionMax ops score t ∧ (∀ t2 < t + 1, result.2 (preatt_bth t2) = score t2) ∧
      ∀ a ∉ Slice.cells ⟨preatt_bth, t + 1⟩, result.2 a = m a := by
  intro result score
  have hpass := @run_loop_put A F F _ (t + 1) (fun t2 maxval => do
      let val ← loop hs ops.zero fun i val => do
        return ops.add val (ops.mul (← get (query_t i)) (← get (key_t2 t2 i)))
      let val := ops.mul val scale
      let maxval := if ops.gt val maxval then val else maxval
      put (preatt_bth t2) val
      return maxval) m preatt_bth (fun t2 _ => score t2)
    (fun t2 maxval => if ops.gt (score t2) maxval then score t2 else maxval) hdistinct
    (fun t2 ht2 m' hm' maxval => ?_) ops.lowest
  · exact ⟨hpass.1, hpass.2.1, fun a ha => hpass.2.2 a (Slice.notMem_cells ha (Nat.le_refl _))⟩
  · have hdot : (loop hs ops.zero fun i val => do
        return ops.add val (ops.mul (← get (query_t i)) (← get (key_t2 t2 i)))).run m' =
          (accumulate hs ops.zero fun i val =>
            ops.add val (ops.mul (m (query_t i)) (m (key_t2 t2 i))), m') := by
      refine run_loop_pure (fun i hi val => ?_) _
      have hq := hm' _ (Slice.notMem_cells (hquery i hi) (Nat.le_of_lt ht2))
      have hk := hm' _ (Slice.notMem_cells (hkey t2 ht2 i hi) (Nat.le_of_lt ht2))
      simp only [run_bind, run_get, run_pure, hq, hk]
    exact run_bind_of hdot _

theorem run_attentionExps (maxval : F) (hdistinct : Slice.Distinct ⟨att_bth, t + 1⟩)
    (hpreatt : ∀ t2 < t + 1, preatt_bth t2 ∉ Slice.cells ⟨att_bth, t + 1⟩) :
    let result := (attentionExps ops preatt_bth att_bth maxval t).run m
    let expv := fun t2 => ops.expf (ops.sub (m (preatt_bth t2)) maxval)
    result.1 = accumulate (t + 1) ops.zero (fun t2 expsum => ops.add expsum (expv t2)) ∧
      (∀ t2 < t + 1, result.2 (att_bth t2) = expv t2) ∧
      ∀ a ∉ Slice.cells ⟨att_bth, t + 1⟩, result.2 a = m a := by
  intro result expv
  have hpass := @run_loop_put A F F _ (t + 1) (fun t2 expsum => do
      let expv := ops.expf (ops.sub (← get (preatt_bth t2)) maxval)
      let expsum := ops.add expsum expv
      put (att_bth t2) expv
      return expsum) m att_bth (fun t2 _ => expv t2) (fun t2 expsum => ops.add expsum (expv t2))
    hdistinct (fun t2 ht2 m' hm' expsum => ?_) ops.zero
  · exact ⟨hpass.1, hpass.2.1, fun a ha => hpass.2.2 a (Slice.notMem_cells ha (Nat.le_refl _))⟩
  · have hread := hm' _ (Slice.notMem_cells (hpreatt t2 ht2) (Nat.le_of_lt ht2))
    simp only [run_bind, run_get, run_put, run_pure, hread]
    rfl

theorem run_attentionNormalize (expsum_inv : F) (hdistinct : Slice.Distinct ⟨att_bth, T⟩)
    (ht : t < T) :
    let m' := ((attentionNormalize ops att_bth expsum_inv T t).run m).2
    (∀ t2 < t + 1, m' (att_bth t2) = ops.mul (m (att_bth t2)) expsum_inv) ∧
      (∀ t2 < T, t < t2 → m' (att_bth t2) = ops.zero) ∧
      ∀ a ∉ Slice.cells ⟨att_bth, T⟩, m' a = m a := by
  intro m'
  have hpass := @run_forEach_put A F _ T (fun t2 =>
      if t2 ≤ t then do put (att_bth t2) (ops.mul (← get (att_bth t2)) expsum_inv)
      else put (att_bth t2) ops.zero) m att_bth
    (fun t2 => if t2 ≤ t then ops.mul (m (att_bth t2)) expsum_inv else ops.zero) hdistinct
    (fun t2 ht2 m' hm' => ?_)
  · refine ⟨fun t2 ht2 => ?_, fun t2 ht2 hlt => ?_,
      fun a ha => hpass.2 a (Slice.notMem_cells ha (Nat.le_refl _))⟩
    · exact (hpass.1 t2 (Nat.lt_of_lt_of_le ht2 ht)).trans (if_pos (Nat.lt_succ_iff.mp ht2))
    · exact (hpass.1 t2 ht2).trans (if_neg (Nat.not_le.mpr hlt))
  · -- the cell of this pass is not among those of the earlier ones
    have hown : m' (att_bth t2) = m (att_bth t2) := hm' _ fun j hj heq =>
      absurd (hdistinct t2 ht2 j (Nat.lt_trans hj ht2) heq) (Nat.ne_of_gt hj)
    split
    · simp only [run_bind, run_get, run_put, hown]
    · rfl

/-- The first three passes leave the weights in `att_bth`, and zeros behind them. -/
theorem run_attentionWeights {query_t : Nat → A} {key_t2 : Nat → Nat → A} (scale : F) (ht : t < T)
    (hpre : Slice.Distinct ⟨preatt_bth, t + 1⟩) (hatt : Slice.Distinct ⟨att_bth, T⟩)
    (hapart : Disjoint (Slice.cells ⟨preatt_bth, t + 1⟩) (Slice.cells ⟨att_bth, T⟩))
    (hquery : ∀ i < hs, query_t i ∉ Slice.cells ⟨preatt_bth, t + 1⟩)
    (hkey : ∀ t2 < t + 1, ∀ i < hs, key_t2 t2 i ∉ Slice.cells ⟨preatt_bth, t + 1⟩) :
    let scores := (attentionScores ops query_t key_t2 preatt_bth scale hs t).run m
    let exps := (attentionExps ops preatt_bth att_bth scores.1 t).run scores.2
    let expsum_inv := if ops.eq exps.1 ops.zero then ops.zero else ops.div ops.one exps.1
    let m' := ((attentionNormalize ops att_bth expsum_inv T t).run exps.2).2
    let score := fun t2 =>
      attentionScore ops (fun i => m (query_t i)) (fun i => m (key_t2 t2 i)) scale hs
    (∀ t2 < t + 1, m' (att_bth t2) = attentionWeight ops score t t2) ∧
      (∀ t2 < T, t < t2 → m' (att_bth t2) = ops.zero) ∧
      ∀ a ∉ Slice.cells ⟨preatt_bth, t + 1⟩, a ∉ Slice.cells ⟨att_bth, T⟩ → m' a = m a := by
  intro scores exps expsum_inv m' score
  have hpast : Slice.Sub ⟨att_bth, t + 1⟩ ⟨att_bth, T⟩ := ⟨rfl, ht⟩
  have hpreatt : ∀ t2 < t + 1, preatt_bth t2 ∉ Slice.cells ⟨att_bth, t + 1⟩ := fun t2 ht2 hmem =>
    Set.disjoint_left.mp hapart (Slice.mem_cells ht2) (hpast.cells_subset hmem)
  obtain ⟨hmax, hscores, hframe₁⟩ := run_attentionScores ops m scale hpre hquery hkey
  obtain ⟨hsum, hexps, hframe₂⟩ :=
    run_attentionExps ops scores.2 scores.1 (hpast.distinct hatt) hpreatt
  obtain ⟨hnormal, hbehind, hframe₃⟩ := run_attentionNormalize ops exps.2 expsum_inv hatt ht
  have hexp : ∀ t2 < t + 1, exps.2 (att_bth t2) = attentionExp ops score t t2 := by
    intro t2 ht2
    have hscore : scores.2 (preatt_bth t2) = score t2 := hscores t2 ht2
    have hexpv : exps.2 (att_bth t2) =
        ops.expf (ops.sub (scores.2 (preatt_bth t2)) scores.1) := hexps t2 ht2
    rw [hexpv, hscore, hmax]
    rfl
  have hexpsum : exps.1 = attentionSum ops score t := by
    refine hsum.trans (accumulate_congr (fun t2 ht2 expsum => ?_) _)
    exact congrArg (ops.add expsum) ((hexps t2 ht2).symm.trans (hexp t2 ht2))
  refine ⟨fun t2 ht2 => ?_, hbehind, fun a hpre hatt => ?_⟩
  · have hweight : m' (att_bth t2) = ops.mul (exps.2 (att_bth t2)) expsum_inv := hnormal t2 ht2
    rw [hweight, hexp t2 ht2]
    simp only [expsum_inv, hexpsum]
    rfl
  · calc m' a = exps.2 a := hframe₃ a hatt
      _ = scores.2 a := hframe₂ a fun hmem => hatt (hpast.cells_subset hmem)
      _ = m a := hframe₁ a hpre

theorem run_attentionValues {value_t2 : Nat → Nat → A}
    (hdistinct : Slice.Distinct ⟨out_bth, hs⟩)
    (hatt : ∀ t2 < t + 1, att_bth t2 ∉ Slice.cells ⟨out_bth, hs⟩)
    (hvalue : ∀ t2 < t + 1, ∀ i < hs, value_t2 t2 i ∉ Slice.cells ⟨out_bth, hs⟩) :
    let m' := ((attentionValues ops out_bth att_bth value_t2 hs t).run m).2
    (∀ i < hs, m' (out_bth i) = accumulate (t + 1) ops.zero fun t2 o =>
      ops.add o (ops.mul (m (att_bth t2)) (m (value_t2 t2 i)))) ∧
      ∀ a ∉ Slice.cells ⟨out_bth, hs⟩, m' a = m a := by
  let Inv : Nat → (A → F) → Prop := fun n m' =>
    (∀ i < hs, m' (out_bth i) = accumulate n ops.zero fun t2 o =>
      ops.add o (ops.mul (m (att_bth t2)) (m (value_t2 t2 i)))) ∧
    ∀ a ∉ Slice.cells ⟨out_bth, hs⟩, m' a = m a
  have hzero := @run_forEach_put A F _ hs (fun i => put (out_bth i) ops.zero) m out_bth
    (fun _ => ops.zero) hdistinct (fun _ _ _ _ => rfl)
  have hstart : Inv 0 ((forEach hs fun i => put (out_bth i) ops.zero).run m).2 :=
    ⟨hzero.1, fun a ha => hzero.2 a (Slice.notMem_cells ha (Nat.le_refl _))⟩
  rw [attentionValues, run_bind]
  refine run_forEach hstart fun t2 ht2 m₁ hm₁ => ?_
  have hpass := @run_forEach_put A F _ hs (fun i => do
      put (out_bth i) (ops.add (← get (out_bth i))
        (ops.mul (m₁ (att_bth t2)) (← get (value_t2 t2 i))))) m₁ out_bth
    (fun i => ops.add (m₁ (out_bth i)) (ops.mul (m₁ (att_bth t2)) (m₁ (value_t2 t2 i)))) hdistinct
    (fun i hi m' hm' => ?_)
  · refine ⟨fun i hi => (hpass.1 i hi).trans ?_, fun a ha => ?_⟩
    · rw [hm₁.1 i hi, hm₁.2 _ (hatt t2 ht2), hm₁.2 _ (hvalue t2 ht2 i hi)]
      rfl
    · exact (hpass.2 a (Slice.notMem_cells ha (Nat.le_refl _))).trans (hm₁.2 a ha)
  · have hown : m' (out_bth i) = m₁ (out_bth i) := hm' _ fun j hj heq =>
      absurd (hdistinct i hi j (Nat.lt_trans hj hi) heq) (Nat.ne_of_gt hj)
    have hread := hm' _ (Slice.notMem_cells (hvalue t2 ht2 i hi) (Nat.le_of_lt hi))
    simp only [run_bind, run_get, run_put, hown, hread]

end Passes

/-! ### A head -/

section Head

variable [DecidableEq A] {out preatt att inp : Nat → A} {T C NH t h : Nat}

theorem run_attentionHead
    (hapart : NonOverlapping ((attentionOuts out preatt att T C NH).map Prod.fst)
      (attentionIns inp T C)) (ht : t < T) (hh : h < NH) (m : A → F) :
    let m' := ((attentionHead ops out preatt att inp T C NH t h).run m).2
    (∀ i < C / NH, m' (out (t * C + h * (C / NH) + i)) =
        attentionRow ops (fun j => m (inp j)) C NH t h i) ∧
      (∀ t2 < t + 1, m' (att (h * T * T + t * T + t2)) =
        attentionWeight ops (headScore ops (fun j => m (inp j)) C NH t h) t t2) ∧
      ∀ t2 < T, t < t2 → m' (att (h * T * T + t * T + t2)) = ops.zero := by
  simp only [attentionOuts, attentionIns, List.map_cons, List.map_nil, nonOverlapping_cons,
    List.forall_mem_cons] at hapart
  obtain ⟨⟨hout, ⟨houtpre, houtatt, -⟩, houtinp, -⟩, ⟨hpre, ⟨hpreatt, -⟩, hpreinp, -⟩,
    ⟨hatt, -, hattinp, -⟩, -⟩ := hapart
  have hhead : h * (C / NH) + C / NH ≤ C := head_le hh
  have hrows : t * C + C ≤ T * C := (Nat.succ_mul t C).symm.trans_le (Nat.mul_le_mul_right C ht)
  have hscores : h * T * T + t * T + T ≤ NH * T * T := by
    rw [← Nat.add_mul, ← Nat.succ_mul]
    exact Nat.mul_le_mul_right T (rowIndex_lt hh ht)
  have hrow : t * C + h * (C / NH) + C / NH ≤ T * C := by omega
  have hpast : h * T * T + t * T + (t + 1) ≤ NH * T * T := by omega
  let preatt_bth := fun t2 => preatt (h * T * T + t * T + t2)
  let att_bth := fun t2 => att (h * T * T + t * T + t2)
  let out_bth := fun i => out (t * C + h * (C / NH) + i)
  let query_t := fun i => inp (t * (C * 3) + h * (C / NH) + i)
  let key_t2 := fun t2 i => inp (t2 * (C * 3) + h * (C / NH) + C + i)
  let value_t2 := fun t2 i => inp (t2 * (C * 3) + h * (C / NH) + C * 2 + i)
  let scale := ops.recip (ops.sqrtf (ops.ofInt (C / NH)))
  let score := fun t2 =>
    attentionScore ops (fun i => m (query_t i)) (fun i => m (key_t2 t2 i)) scale (C / NH)
  -- the rows of queries, keys and values are inputs
  have hread : ∀ {x : Slice A}, Disjoint x.cells (Slice.cells ⟨inp, T * (C * 3)⟩) →
      ∀ t2 < t + 1, ∀ j < C * 3, inp (t2 * (C * 3) + j) ∉ x.cells := fun hd t2 ht2 j hj hmem =>
    Set.disjoint_left.mp hd hmem (Slice.mem_cells (rowIndex_lt (by omega) hj))
  have hquery : ∀ {x : Slice A}, Disjoint x.cells (Slice.cells ⟨inp, T * (C * 3)⟩) →
      ∀ i < C / NH, query_t i ∉ x.cells := by
    intro x hd i hi
    have := hread hd t (Nat.lt_succ_self t) (h * (C / NH) + i) (by omega)
    rwa [← Nat.add_assoc] at this
  have hkey : ∀ {x : Slice A}, Disjoint x.cells (Slice.cells ⟨inp, T * (C * 3)⟩) →
      ∀ t2 < t + 1, ∀ i < C / NH, key_t2 t2 i ∉ x.cells := by
    intro x hd t2 ht2 i hi
    have := hread hd t2 ht2 (h * (C / NH) + C + i) (by omega)
    rwa [← Nat.add_assoc, ← Nat.add_assoc] at this
  have hvalue : ∀ {x : Slice A}, Disjoint x.cells (Slice.cells ⟨inp, T * (C * 3)⟩) →
      ∀ t2 < t + 1, ∀ i < C / NH, value_t2 t2 i ∉ x.cells := by
    intro x hd t2 ht2 i hi
    have := hread hd t2 ht2 (h * (C / NH) + C * 2 + i) (by omega)
    rwa [← Nat.add_assoc, ← Nat.add_assoc] at this
  have hatt_out : ∀ t2 < T, att_bth t2 ∉ Slice.cells ⟨out_bth, C / NH⟩ := fun t2 ht2 hmem =>
    Set.disjoint_left.mp (houtatt.mono (Slice.shift_cells hrow) (Slice.shift_cells hscores))
      hmem (Slice.mem_cells ht2)
  let scores := (attentionScores ops query_t key_t2 preatt_bth scale (C / NH) t).run m
  let exps := (attentionExps ops preatt_bth att_bth scores.1 t).run scores.2
  let expsum_inv := if ops.eq exps.1 ops.zero then ops.zero else ops.div ops.one exps.1
  let m₁ := ((attentionNormalize ops att_bth expsum_inv T t).run exps.2).2
  obtain ⟨hweight, hbehind, hframe⟩ :
      (∀ t2 < t + 1, m₁ (att_bth t2) = attentionWeight ops score t t2) ∧
      (∀ t2 < T, t < t2 → m₁ (att_bth t2) = ops.zero) ∧
      ∀ a ∉ Slice.cells ⟨preatt_bth, t + 1⟩, a ∉ Slice.cells ⟨att_bth, T⟩ → m₁ a = m a :=
    run_attentionWeights ops m scale ht (hpre.shift hpast) (hatt.shift hscores)
      (hpreatt.mono (Slice.shift_cells hpast) (Slice.shift_cells hscores))
      (hquery (hpreinp.mono_left (Slice.shift_cells hpast)))
      (hkey (hpreinp.mono_left (Slice.shift_cells hpast)))
  have hsame : ∀ t2 < t + 1, ∀ i < C / NH, m₁ (value_t2 t2 i) = m (value_t2 t2 i) :=
    fun t2 ht2 i hi => hframe _
      (hvalue (hpreinp.mono_left (Slice.shift_cells hpast)) t2 ht2 i hi)
      (hvalue (hattinp.mono_left (Slice.shift_cells hscores)) t2 ht2 i hi)
  obtain ⟨hvalues, hrest⟩ := run_attentionValues ops m₁ (hout.shift hrow)
    (fun t2 ht2 => hatt_out t2 (Nat.lt_of_lt_of_le ht2 ht))
    (hvalue (houtinp.mono_left (Slice.shift_cells hrow)))
  have hrun : ((attentionHead ops out preatt att inp T C NH t h).run m).2 =
      ((attentionValues ops out_bth att_bth value_t2 (C / NH) t).run m₁).2 := by
    rw [attentionHead, run_bind, run_bind, run_bind]
  rw [hrun]
  refine ⟨fun i hi => (hvalues i hi).trans ?_, fun t2 ht2 => ?_, fun t2 ht2 hlt => ?_⟩
  · refine @accumulate_congr F _ (fun t2 o =>
      ops.add o (ops.mul (attentionWeight ops score t t2) (m (value_t2 t2 i)))) (t + 1)
      (fun t2 ht2 o => ?_) ops.zero
    rw [hweight t2 ht2, hsame t2 ht2 i hi]
  · exact (hrest _ (hatt_out t2 (Nat.lt_of_lt_of_le ht2 ht))).trans (hweight t2 ht2)
  · exact (hrest _ (hatt_out t2 ht2)).trans (hbehind t2 ht2 hlt)

/-- What the pass over head `h` writes. -/
def headOuts (out preatt att : Nat → A) (T C NH : Nat) : List (Slice A × (Nat → Nat)) :=
  [(⟨out, T * C⟩, (· % C / (C / NH))), (⟨preatt, NH * T * T⟩, (· / T / T)),
    (⟨att, NH * T * T⟩, (· / T / T))]

omit [DecidableEq A] in
theorem mem_headOuts_out (ht : t < T) (hh : h < NH) {i : Nat} (hi : i < C / NH) :
    out (t * C + h * (C / NH) + i) ∈ own (headOuts out preatt att T C NH) h := by
  have hlt : h * (C / NH) + i < C := Nat.lt_of_lt_of_le (Nat.add_lt_add_left hi _) (head_le hh)
  rw [Nat.add_assoc]
  refine @mem_own A _ ⟨out, T * C⟩ (· % C / (C / NH)) (by simp [headOuts]) _ _
    (rowIndex_lt ht hlt) ?_
  simp only [Nat.mul_add_mod_of_lt hlt, rowIndex_div hi]

omit [DecidableEq A] in
theorem mem_headOuts_att (ht : t < T) (hh : h < NH) {t2 : Nat} (ht2 : t2 < T) :
    att (h * T * T + t * T + t2) ∈ own (headOuts out preatt att T C NH) h :=
  @mem_own A _ ⟨att, NH * T * T⟩ (· / T / T) (by simp [headOuts]) _ _
    (partIndex_lt hh ht ht2) (partIndex_part ht ht2)

omit [DecidableEq A] in
theorem attentionHead_own (ht : t < T) (hh : h < NH) :
    (attentionHead ops out preatt att inp T C NH t h).Within
      (shared (attentionIns inp T C) ∪ own (headOuts out preatt att T C NH) h)
      (own (headOuts out preatt att T C NH) h) := by
  have hself : ∀ {a : A}, a ∈ own (headOuts out preatt att T C NH) h →
      a ∈ (shared (attentionIns inp T C) ∪ own (headOuts out preatt att T C NH) h) ∩
        own (headOuts out preatt att T C NH) h := fun ha => ⟨.inr ha, ha⟩
  refine attentionHead_within hh (fun t2 ht2 j hj => .inl ?_) (fun t2 ht2 => hself ?_)
    (fun t2 ht2 => hself ?_) ht fun i hi => hself (mem_headOuts_out ht hh hi)
  · exact mem_shared_row (by simp [attentionIns]) (Nat.lt_of_le_of_lt ht2 ht) hj
  · have hlt := Nat.lt_of_le_of_lt ht2 ht
    exact @mem_own A _ ⟨preatt, NH * T * T⟩ (· / T / T) (by simp [headOuts]) _ _
      (partIndex_lt hh ht hlt) (partIndex_part ht hlt)
  · exact mem_headOuts_att ht hh ht2

/-- What a thread leaves in head `h`. -/
theorem run_attentionForwardThread
    (hapart : NonOverlapping ((attentionOuts out preatt att T C NH).map Prod.fst)
      (attentionIns inp T C)) (ht : t < T) (hh : h < NH) (m : A → F) :
    let m' := ((attentionForwardThread ops out preatt att inp T C NH t).run m).2
    (∀ i < C / NH, m' (out (t * C + h * (C / NH) + i)) =
        attentionRow ops (fun j => m (inp j)) C NH t h i) ∧
      (∀ t2 < t + 1, m' (att (h * T * T + t * T + t2)) =
        attentionWeight ops (headScore ops (fun j => m (inp j)) C NH t h) t t2) ∧
      ∀ t2 < T, t < t2 → m' (att (h * T * T + t * T + t2)) = ops.zero := by
  intro m'
  -- the heads do not see what the others write
  have hheads : ∀ a ∈ own (headOuts out preatt att T C NH) h,
      m' a = ((attentionHead ops out preatt att inp T C NH t h).run m).2 a :=
    (run_forEach_separate
      (fun h hh => @attentionHead_own A F ops out preatt att inp T C NH t h ht hh)
      (fun h _ g _ hne a ha => @own_apart A (headOuts out preatt att T C NH) _ hapart h g hne a ha)
      m).1 h hh
  obtain ⟨hvalues, hweights, hbehind⟩ := run_attentionHead ops hapart ht hh m
  refine ⟨fun i hi => ?_, fun t2 ht2 => ?_, fun t2 ht2 hlt => ?_⟩
  · exact (hheads _ (mem_headOuts_out ht hh hi)).trans (hvalues i hi)
  · exact (hheads _ (mem_headOuts_att ht hh (Nat.lt_of_lt_of_le ht2 ht))).trans (hweights t2 ht2)
  · exact (hheads _ (mem_headOuts_att ht hh ht2)).trans (hbehind t2 ht2 hlt)

/-- What the kernel leaves in head `h` of row `t`. -/
theorem attentionForward_row
    (hapart : NonOverlapping ((attentionOuts out preatt att T C NH).map Prod.fst)
      (attentionIns inp T C)) {B : Nat} {m m' : A → F}
    (hrun : Completes (attentionForward ops out preatt att inp B T C NH) m m') (ht : t < T)
    (hh : h < NH) {i : Nat} (hi : i < C / NH) :
    m' (out (t * C + h * (C / NH) + i)) = attentionRow ops (fun j => m (inp j)) C NH t h i := by
  have hmem : out (t * C + h * (C / NH) + i) ∈ own (attentionOuts out preatt att T C NH) t := by
    rw [Nat.add_assoc]
    exact mem_own_row (by simp [attentionOuts]) ht
      (Nat.lt_of_lt_of_le (Nat.add_lt_add_left hi _) (head_le hh))
  calc m' (out (t * C + h * (C / NH) + i))
    _ = ((attentionForwardThread ops out preatt att inp T C NH t).run m).2 _ :=
        ((attention_separate ops hapart B).completes hrun).1 ⟨t, ht⟩ _ hmem
    _ = _ := (run_attentionForwardThread ops hapart ht hh m).1 i hi

end Head

end NjuOs.Gpt
