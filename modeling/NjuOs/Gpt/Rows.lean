import NjuOs.Gpt.Interleave

/-!
What the kernels compute, row by row.

The formulas below take the values of the inputs and name no memory; `run_*` says
that a kernel leaves them in its outputs. A sum is taken in the order in which the
kernel takes it.
-/

namespace NjuOs.Gpt

open NjuOs.Lib NjuOs.Lib.Prog

variable {A F : Type} (ops : FloatOps F)

/-! ### Layer norm -/

def layernormMean (C : Nat) (x : Nat → F) : F :=
  ops.div (accumulate C ops.zero fun i m => ops.add m (x i)) (ops.ofInt C)

def layernormRstd (C : Nat) (x : Nat → F) : F :=
  let v := accumulate C ops.zero fun i v =>
    let xshift := ops.sub (x i) (layernormMean ops C x)
    ops.add v (ops.mul xshift xshift)
  ops.div ops.one (ops.sqrtf (ops.add (ops.div v (ops.ofInt C)) ops.eps))

/-- Element `i` of a normalized row. -/
def layernormRow (C : Nat) (x weight bias : Nat → F) (i : Nat) : F :=
  let n := ops.mul (layernormRstd ops C x) (ops.sub (x i) (layernormMean ops C x))
  ops.add (ops.mul n (weight i)) (bias i)

section Layernorm

variable {ops} in
theorem layernormRow_congr {C : Nat} {x x' weight weight' bias bias' : Nat → F}
    (hx : ∀ i < C, x i = x' i) (hweight : ∀ i < C, weight i = weight' i)
    (hbias : ∀ i < C, bias i = bias' i) {i : Nat} (hi : i < C) :
    layernormRow ops C x weight bias i = layernormRow ops C x' weight' bias' i := by
  have hmean : layernormMean ops C x = layernormMean ops C x' :=
    congrArg (ops.div · (ops.ofInt C)) (accumulate_congr (fun i hi m => by rw [hx i hi]) _)
  have hrstd : layernormRstd ops C x = layernormRstd ops C x' := by
    have hv := @accumulate_congr F
      (fun i v => ops.add v (ops.mul (ops.sub (x i) (layernormMean ops C x))
        (ops.sub (x i) (layernormMean ops C x))))
      (fun i v => ops.add v (ops.mul (ops.sub (x' i) (layernormMean ops C x'))
        (ops.sub (x' i) (layernormMean ops C x')))) C
      (fun i hi v => by rw [hx i hi, hmean]) ops.zero
    simp only [layernormRstd, hv]
  simp only [layernormRow, hmean, hrstd, hx i hi, hweight i hi, hbias i hi]

variable [DecidableEq A] {out mean rstd inp weight bias : Nat → A} {T C t : Nat}

theorem run_layernormForwardThread
    (h : NonOverlapping ((layernormOuts out mean rstd T C).map Prod.fst)
      (layernormIns inp weight bias T C)) (ht : t < T) (m : A → F) :
    let m' := ((layernormForwardThread ops out mean rstd inp weight bias C t).run m).2
    let x := fun i => m (inp (t * C + i))
    (∀ i < C, m' (out (t * C + i)) =
        layernormRow ops C x (fun i => m (weight i)) (fun i => m (bias i)) i) ∧
      m' (mean t) = layernormMean ops C x ∧ m' (rstd t) = layernormRstd ops C x := by
  intro m' x
  simp only [layernormOuts, layernormIns, List.map_cons, List.map_nil, nonOverlapping_cons,
    List.forall_mem_cons] at h
  obtain ⟨⟨hout, ⟨hmean, hrstd, -⟩, hinp, hweight, hbias, -⟩, ⟨-, ⟨hmeanrstd, -⟩, -⟩, -⟩ := h
  have hrow : ∀ i < C, t * C + i < T * C := fun i hi => rowIndex_lt ht hi
  let body := fun i => do
    let n := ops.mul (layernormRstd ops C x)
      (ops.sub (← get (inp (t * C + i))) (layernormMean ops C x))
    let o := ops.add (ops.mul n (← get (weight i))) (← get (bias i))
    put (out (t * C + i)) o
  have hrun : (layernormForwardThread ops out mean rstd inp weight bias C t).run m =
      ((), Function.update (Function.update (run (forEach C body) m).2
        (mean t) (layernormMean ops C x)) (rstd t) (layernormRstd ops C x)) := by
    have hmean : (loop C ops.zero fun i s => do
        return ops.add s (← get (inp (t * C + i)))).run m =
          (accumulate C ops.zero fun i s => ops.add s (x i), m) :=
      run_loop_pure (fun _ _ _ => rfl) _
    have hrstd : (loop C ops.zero fun i v => do
        let xshift := ops.sub (← get (inp (t * C + i))) (layernormMean ops C x)
        return ops.add v (ops.mul xshift xshift)).run m =
          (accumulate C ops.zero fun i v =>
            let xshift := ops.sub (x i) (layernormMean ops C x)
            ops.add v (ops.mul xshift xshift), m) :=
      run_loop_pure (fun _ _ _ => rfl) _
    refine (run_bind_of hmean _).trans ((run_bind_of hrstd _).trans ?_)
    exact run_bind _ _ m
  obtain ⟨hcells, hframe⟩ := @run_forEach_put A F _ C body m (fun i => out (t * C + i))
    (layernormRow ops C x (fun i => m (weight i)) (fun i => m (bias i)))
    (fun i hi j hj hij => Nat.add_left_cancel (hout _ (hrow i hi) _ (hrow j hj) hij))
    (fun i hi m' hm' => by
      have hbefore : ∀ k < i, t * C + k < T * C := fun k hk => hrow k (Nat.lt_trans hk hi)
      simp only [body, run_bind, run_get, run_put]
      rw [Slice.unchanged hinp hbefore hm' (hrow i hi), Slice.unchanged hweight hbefore hm' hi,
        Slice.unchanged hbias hbefore hm' hi]
      rfl)
  simp only [m', hrun]
  refine ⟨fun i hi => ?_, ?_, ?_⟩
  · have hmean_ne := Slice.ne_of_disjoint hmean (hrow i hi) ht
    have hrstd_ne := Slice.ne_of_disjoint hrstd (hrow i hi) ht
    rw [Function.update_of_ne hrstd_ne, Function.update_of_ne hmean_ne, hcells i hi]
  · rw [Function.update_of_ne (Slice.ne_of_disjoint hmeanrstd ht ht), Function.update_self]
  · rw [Function.update_self]

/-- What the kernel leaves in row `t`. -/
theorem layernormForward_row
    (h : NonOverlapping ((layernormOuts out mean rstd T C).map Prod.fst)
      (layernormIns inp weight bias T C)) {B : Nat} {m m' : A → F}
    (hrun : Completes (layernormForward ops out mean rstd inp weight bias B T C) m m')
    (ht : t < T) {i : Nat} (hi : i < C) :
    m' (out (t * C + i)) = layernormRow ops C (fun i => m (inp (t * C + i))) (fun i => m (weight i))
      (fun i => m (bias i)) i := by
  have halone := ((layernorm_separate ops h B).completes hrun).1 ⟨t, ht⟩ (out (t * C + i))
    (mem_own_row (by simp [layernormOuts]) ht hi)
  exact halone.trans ((run_layernormForwardThread ops h ht m).1 i hi)

end Layernorm

/-! ### Matrix multiplication -/

/-- Element `o` of a row of the product. -/
def matmulRow (C : Nat) (x weight : Nat → F) (bias : Option (Nat → F)) (o : Nat) : F :=
  accumulate C (bias.elim ops.zero fun bias => bias o) fun i val =>
    ops.add val (ops.mul (x i) (weight (o * C + i)))

section Matmul

variable {ops} in
theorem matmulRow_congr {C OC : Nat} {x x' weight weight' : Nat → F}
    {bias bias' : Option (Nat → F)} {o : Nat} (hx : ∀ i < C, x i = x' i)
    (hweight : ∀ j < OC * C, weight j = weight' j)
    (hbias : (bias.elim ops.zero fun bias => bias o) = bias'.elim ops.zero fun bias => bias o)
    (ho : o < OC) : matmulRow ops C x weight bias o = matmulRow ops C x' weight' bias' o := by
  rw [matmulRow, matmulRow, hbias]
  exact accumulate_congr (fun i hi val => by rw [hx i hi, hweight _ (rowIndex_lt ho hi)]) _

variable [DecidableEq A] {out inp weight : Nat → A} {bias : Option (Nat → A)} {T C OC t : Nat}

theorem run_matmulForwardThread
    (h : NonOverlapping ((matmulOuts out T OC).map Prod.fst) (matmulIns inp weight bias T C OC))
    (ht : t < T) (m : A → F) {o : Nat} (ho : o < OC) :
    ((matmulForwardThread ops out inp weight bias C OC t).run m).2 (out (t * OC + o)) =
      matmulRow ops C (fun i => m (inp (t * C + i))) (fun j => m (weight j))
        (bias.map fun bias o => m (bias o)) o := by
  simp only [matmulOuts, matmulIns, List.map_cons, List.map_nil, nonOverlapping_cons,
    List.cons_append, List.nil_append, List.forall_mem_cons] at h
  obtain ⟨⟨hout, -, hinp, hweight, hbias⟩, -⟩ := h
  have hrow : ∀ o < OC, t * OC + o < T * OC := fun o ho => rowIndex_lt ht ho
  have hdistinct : ∀ i < OC, ∀ j < OC, out (t * OC + i) = out (t * OC + j) → i = j :=
    fun i hi j hj hij => Nat.add_left_cancel (hout _ (hrow i hi) _ (hrow j hj) hij)
  refine (run_forEach_put hdistinct fun o ho m' hm' => ?_).1 o ho
  have hbefore : ∀ k < o, t * OC + k < T * OC := fun k hk => hrow k (Nat.lt_trans hk ho)
  have hstart : (bias.elim (pure ops.zero) fun bias => Prog.get (bias o)).run m' =
      ((bias.map fun bias o => m (bias o)).elim ops.zero fun bias => bias o, m') := by
    cases bias with
    | none => rfl
    | some p =>
        have hp : m' (p o) = m (p o) := Slice.unchanged (hbias ⟨p, OC⟩ (by simp)) hbefore hm' ho
        exact congrArg (·, m') hp
  have hsum : ∀ val, (loop C val fun i val => do
      return ops.add val (ops.mul (← get (inp (t * C + i))) (← get (weight (o * C + i))))).run m' =
        (accumulate C val fun i val =>
          ops.add val (ops.mul (m (inp (t * C + i))) (m (weight (o * C + i)))), m') := by
    refine run_loop_pure fun i hi val => ?_
    have hx : m' (inp (t * C + i)) = m (inp (t * C + i)) :=
      Slice.unchanged hinp hbefore hm' (rowIndex_lt ht hi)
    have hw : m' (weight (o * C + i)) = m (weight (o * C + i)) :=
      Slice.unchanged hweight hbefore hm' (rowIndex_lt ho hi)
    simp only [run_bind, run_get, run_pure, hx, hw]
  refine (congrArg Prod.snd (run_bind_of hstart _)).trans ?_
  exact congrArg Prod.snd (run_bind_of (hsum _) _)

/-- What the kernel leaves in row `t`. -/
theorem matmulForward_row
    (h : NonOverlapping ((matmulOuts out T OC).map Prod.fst) (matmulIns inp weight bias T C OC))
    {B : Nat} {m m' : A → F}
    (hrun : Completes (matmulForward ops out inp weight bias B T C OC) m m') (ht : t < T) {o : Nat}
    (ho : o < OC) :
    m' (out (t * OC + o)) = matmulRow ops C (fun i => m (inp (t * C + i))) (fun j => m (weight j))
      (bias.map fun bias o => m (bias o)) o := by
  have halone := ((matmul_separate ops h B).completes hrun).1 ⟨t, ht⟩ (out (t * OC + o))
    (mem_own_row (by simp [matmulOuts]) ht ho)
  exact halone.trans (run_matmulForwardThread ops h ht m ho)

end Matmul

/-! ### Kernels with one thread -/

section Rows

variable [DecidableEq A] {out : Nat → A} {ins : List (Slice A)} {B T W : Nat}

/-- A kernel that goes through the rows of the batch: each row is as its pass leaves it. -/
theorem run_rows (h : NonOverlapping [⟨out, B * T * W⟩] ins) {body : Nat → Nat → Prog A F Unit}
    (hbody : ∀ b < B, ∀ t < T, ∀ {reads writes : Set A}, shared ins ⊆ reads →
      (∀ i < W, out (b * T * W + t * W + i) ∈ reads ∩ writes) → (body b t).Within reads writes)
    (m : A → F) {b t i : Nat} (hb : b < B) (ht : t < T) (hi : i < W) :
    ((forEach B fun b => forEach T (body b)).run m).2 (out (b * T * W + t * W + i)) =
      ((body b t).run m).2 (out (b * T * W + t * W + i)) := by
  -- an element belongs to its batch, and there to its row
  let byBatch : List (Slice A × (Nat → Nat)) := [(⟨out, B * T * W⟩, (· / W / T))]
  let byRow : List (Slice A × (Nat → Nat)) := [(⟨out, B * T * W⟩, (· / W % T))]
  have hbatch : ∀ {b t i}, b < B → t < T → i < W →
      out (b * T * W + t * W + i) ∈ own byBatch b := fun hb ht hi =>
    @mem_own A _ ⟨out, B * T * W⟩ (· / W / T) List.mem_cons_self _ _ (partIndex_lt hb ht hi)
      (partIndex_part ht hi)
  have hrow : ∀ {t i}, t < T → i < W → out (b * T * W + t * W + i) ∈ own byRow t :=
    fun ht hi => @mem_own A _ ⟨out, B * T * W⟩ (· / W % T) List.mem_cons_self _ _
      (partIndex_lt hb ht hi) (partIndex_row ht hi)
  have hbatches := (run_forEach_separate
    (fun b hb => @within_forEach A F _ (own byBatch b) T (body b) fun t ht =>
      hbody b hb t ht (Set.subset_union_left (t := own byBatch b)) fun i hi =>
        ⟨.inr (hbatch hb ht hi), hbatch hb ht hi⟩)
    (fun b _ c _ hne a ha => @own_apart A byBatch ins h b c hne a ha) m).1 b hb _
    (hbatch hb ht hi)
  have hrows := (run_forEach_separate
    (fun t ht => hbody b hb t ht (Set.subset_union_left (t := own byRow t)) fun i hi =>
      ⟨.inr (hrow ht hi), hrow ht hi⟩)
    (fun t _ u _ hne a ha => @own_apart A byRow ins h t u hne a ha) m).1 t ht _ (hrow ht hi)
  exact hbatches.trans hrows

theorem run_encoderForward {wte wpe : Nat → A} {inp : Nat → Nat} {V C : Nat}
    (h : NonOverlapping [⟨out, B * T * C⟩] [⟨wte, V * C⟩, ⟨wpe, T * C⟩])
    (htokens : ∀ k < B * T, inp k < V) (m : A → F) {b t i : Nat} (hb : b < B) (ht : t < T)
    (hi : i < C) :
    ((encoderForward ops out inp wte wpe B T C).run m).2 (out (b * T * C + t * C + i)) =
      ops.add (m (wte (inp (b * T + t) * C + i))) (m (wpe (t * C + i))) := by
  have htoken : ∀ {b t}, b < B → t < T → inp (b * T + t) < V := fun hb ht =>
    htokens _ (rowIndex_lt hb ht)
  have hlt : ∀ i < C, b * T * C + t * C + i < B * T * C := fun i hi => partIndex_lt hb ht hi
  refine (run_rows h (fun b hb t ht reads writes hins hout => within_forEach fun i hi =>
    within_bind (within_get (hins ?_)) fun _ => within_bind (within_get (hins ?_)) fun _ =>
      within_put (hout i hi).2 _) m hb ht hi).trans ?_
  · exact @mem_shared_row A _ wte V C _ i (by simp) (htoken hb ht) hi
  · exact @mem_shared_row A _ wpe T C t i (by simp) ht hi
  · simp only [nonOverlapping_cons, List.forall_mem_cons] at h
    obtain ⟨⟨hdistinct, -, hwte, hwpe, -⟩, -⟩ := h
    have hrow : ∀ i < C, ∀ j < C,
        out (b * T * C + t * C + i) = out (b * T * C + t * C + j) → i = j :=
      fun i hi j hj hij => Nat.add_left_cancel (hdistinct _ (hlt i hi) _ (hlt j hj) hij)
    refine (@run_forEach_put A F _ C _ m (fun i => out (b * T * C + t * C + i))
      (fun i => ops.add (m (wte (inp (b * T + t) * C + i))) (m (wpe (t * C + i)))) hrow
      (fun i hi m' hm' => ?_)).1 i hi
    have hbefore : ∀ k < i, b * T * C + t * C + k < B * T * C :=
      fun k hk => hlt k (Nat.lt_trans hk hi)
    have hx : m' (wte (inp (b * T + t) * C + i)) = m (wte (inp (b * T + t) * C + i)) :=
      Slice.unchanged hwte hbefore hm' (rowIndex_lt (htoken hb ht) hi)
    have hp : m' (wpe (t * C + i)) = m (wpe (t * C + i)) :=
      Slice.unchanged hwpe hbefore hm' (rowIndex_lt ht hi)
    simp only [run_bind, run_get, run_put, hx, hp]

def softmaxMax (V : Nat) (x : Nat → F) : F :=
  accumulate V ops.lowest fun i maxval => if ops.gt (x i) maxval then x i else maxval

def softmaxExp (V : Nat) (x : Nat → F) (i : Nat) : F :=
  ops.expf (ops.sub (x i) (softmaxMax ops V x))

/-- Element `i` of the softmax of a row. -/
def softmaxRow (V : Nat) (x : Nat → F) (i : Nat) : F :=
  ops.div (softmaxExp ops V x i)
    (accumulate V ops.zero fun i sum => ops.add sum (softmaxExp ops V x i))

variable {ops} in
theorem softmaxRow_congr {V : Nat} {x x' : Nat → F} (hx : ∀ i < V, x i = x' i) {i : Nat}
    (hi : i < V) : softmaxRow ops V x i = softmaxRow ops V x' i := by
  have hmax : softmaxMax ops V x = softmaxMax ops V x' :=
    accumulate_congr (fun i hi maxval => by rw [hx i hi]) _
  have hexp : ∀ i < V, softmaxExp ops V x i = softmaxExp ops V x' i := fun i hi => by
    rw [softmaxExp, softmaxExp, hx i hi, hmax]
  have hsum := @accumulate_congr F (fun i sum => ops.add sum (softmaxExp ops V x i))
    (fun i sum => ops.add sum (softmaxExp ops V x' i)) V (fun i hi sum => by rw [hexp i hi])
    ops.zero
  rw [softmaxRow, softmaxRow, hexp i hi, hsum]

theorem run_softmaxPass {probs_bt logits_bt : Nat → A} {V : Nat}
    (hdistinct : Slice.Distinct ⟨probs_bt, V⟩)
    (hlogits : ∀ i < V, logits_bt i ∉ Slice.cells ⟨probs_bt, V⟩) (m : A → F) {i : Nat}
    (hi : i < V) :
    ((softmaxPass ops probs_bt logits_bt V).run m).2 (probs_bt i) =
      softmaxRow ops V (fun i => m (logits_bt i)) i := by
  let x := fun i => m (logits_bt i)
  have hmax : (loop V ops.lowest fun i maxval => do
      if ops.gt (← get (logits_bt i)) maxval then get (logits_bt i) else return maxval).run m =
        (softmaxMax ops V x, m) := by
    refine run_loop_pure (fun i hi maxval => (run_bind_of (run_get _ m) _).trans ?_) _
    cases hgt : ops.gt (m (logits_bt i)) maxval with
    | true => simp only [if_true, run_get, x]
    | false => simp only [Bool.false_eq_true, if_false, run_pure, x]
  have hexp := @run_loop_put A F F _ V (fun i sum => do
      put (probs_bt i) (ops.expf (ops.sub (← get (logits_bt i)) (softmaxMax ops V x)))
      return ops.add sum (← get (probs_bt i))) m probs_bt (fun i _ => softmaxExp ops V x i)
    (fun i sum => ops.add sum (softmaxExp ops V x i)) hdistinct (fun i hi m' hm' sum => ?_) ops.zero
  · set result := (loop V ops.zero fun i sum => do
      put (probs_bt i) (ops.expf (ops.sub (← get (logits_bt i)) (softmaxMax ops V x)))
      return ops.add sum (← get (probs_bt i))).run m
    obtain ⟨hsum, hcells, -⟩ := hexp
    have hdiv := @run_forEach_put A F _ V (fun i => do
        put (probs_bt i) (ops.div (← get (probs_bt i)) result.1)) result.2 probs_bt
      (fun i => ops.div (result.2 (probs_bt i)) result.1) hdistinct (fun i hi m' hm' => ?_)
    · have hrun : (softmaxPass ops probs_bt logits_bt V).run m = (forEach V fun i => do
          put (probs_bt i) (ops.div (← get (probs_bt i)) result.1)).run result.2 := by
        refine (run_bind_of hmax _).trans ?_
        exact run_bind _ _ m
      rw [hrun, hdiv.1 i hi, hcells i hi, hsum]
      rfl
    · have hown : m' (probs_bt i) = result.2 (probs_bt i) := hm' _ fun j hj heq =>
        absurd (hdistinct i hi j (Nat.lt_trans hj hi) heq) (Nat.ne_of_gt hj)
      simp only [run_bind, run_get, run_put, hown]
  · have hread : m' (logits_bt i) = x i :=
      hm' _ (Slice.notMem_cells (hlogits i hi) (Nat.le_of_lt hi))
    simp only [run_bind, run_get, run_put, run_pure, hread, Function.update_self]
    rfl

theorem run_softmaxForward {logits : Nat → A} {V : Nat}
    (h : NonOverlapping [⟨out, B * T * V⟩] [⟨logits, B * T * V⟩]) (m : A → F) {b t i : Nat}
    (hb : b < B) (ht : t < T) (hi : i < V) :
    ((softmaxForward ops out logits B T V).run m).2 (out (b * T * V + t * V + i)) =
      softmaxRow ops V (fun i => m (logits (b * T * V + t * V + i))) i := by
  have hwithin : ∀ b < B, ∀ t < T, ∀ {reads writes : Set A},
      shared [⟨logits, B * T * V⟩] ⊆ reads →
      (∀ i < V, out (b * T * V + t * V + i) ∈ reads ∩ writes) →
      (softmaxPass ops (fun i => out (b * T * V + t * V + i))
        (fun i => logits (b * T * V + t * V + i)) V).Within reads writes :=
    fun b hb t ht _ _ hins hout => softmaxPass_within hout fun i hi =>
      hins (@mem_shared A _ ⟨logits, B * T * V⟩ (by simp) _ (partIndex_lt hb ht hi))
  refine (run_rows h hwithin m hb ht hi).trans ?_
  simp only [nonOverlapping_cons, List.forall_mem_cons] at h
  obtain ⟨⟨hdistinct, -, hlogits, -⟩, -⟩ := h
  have hle : b * T * V + t * V + V ≤ B * T * V := by
    rw [← Nat.add_mul, ← Nat.succ_mul]
    exact Nat.mul_le_mul_right V (rowIndex_lt hb ht)
  refine run_softmaxPass ops (hdistinct.shift hle) (fun i hi hmem => ?_) m hi
  exact Set.disjoint_left.mp hlogits (Slice.shift_cells hle hmem)
    (Slice.mem_cells (partIndex_lt hb ht hi))

end Rows

/-! ### Elementwise kernels -/

def geluElem (x : F) : F :=
  let cube := ops.mul (ops.mul (ops.mul ops.cubeFactor x) x) x
  ops.mul (ops.mul ops.half x)
    (ops.add ops.one (ops.tanhf (ops.mul ops.geluScaling (ops.add x cube))))

section Elementwise

variable [DecidableEq A] {out inp inp1 inp2 : Nat → A} {N : Nat}

theorem run_geluForward (h : NonOverlapping [⟨out, N⟩] [⟨inp, N⟩]) (m : A → F) {i : Nat}
    (hi : i < N) : ((geluForward ops out inp N).run m).2 (out i) = geluElem ops (m (inp i)) := by
  simp only [nonOverlapping_cons, List.forall_mem_cons] at h
  obtain ⟨⟨hout, -, hinp, -⟩, -⟩ := h
  refine (@run_forEach_put A F _ N _ m out (fun i => geluElem ops (m (inp i))) hout
    (fun i hi m' hm' => ?_)).1 i hi
  have hbefore : ∀ k < i, k < N := fun k hk => Nat.lt_trans hk hi
  have hread : m' (inp i) = m (inp i) := Slice.unchanged hinp hbefore hm' hi
  simp only [run_bind, run_get, run_put, hread]
  rfl

theorem run_residualForward (h : NonOverlapping [⟨out, N⟩] [⟨inp1, N⟩, ⟨inp2, N⟩]) (m : A → F)
    {i : Nat} (hi : i < N) :
    ((residualForward ops out inp1 inp2 N).run m).2 (out i) =
      ops.add (m (inp1 i)) (m (inp2 i)) := by
  simp only [nonOverlapping_cons, List.forall_mem_cons] at h
  obtain ⟨⟨hout, -, hinp1, hinp2, -⟩, -⟩ := h
  refine (@run_forEach_put A F _ N _ m out (fun i => ops.add (m (inp1 i)) (m (inp2 i))) hout
    (fun i hi m' hm' => ?_)).1 i hi
  have hbefore : ∀ k < i, k < N := fun k hk => Nat.lt_trans hk hi
  have hread1 : m' (inp1 i) = m (inp1 i) := Slice.unchanged hinp1 hbefore hm' hi
  have hread2 : m' (inp2 i) = m (inp2 i) := Slice.unchanged hinp2 hbefore hm' hi
  simp only [run_bind, run_get, run_put, hread1, hread2]

end Elementwise

end NjuOs.Gpt
