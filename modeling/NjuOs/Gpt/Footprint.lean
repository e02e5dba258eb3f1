import NjuOs.Gpt.Basic

/-!
What the kernels read and write.

Each lemma lists the accesses of a kernel: the program stays within any sets that
hold the elements listed.
-/

namespace NjuOs.Gpt

open NjuOs.Lib NjuOs.Lib.Prog

variable {A F : Type} {ops : FloatOps F} {reads writes : Set A}

theorem encoderForward_within {out wte wpe : Nat → A} {inp : Nat → Nat} {B T C : Nat}
    (hout : ∀ b < B, ∀ t < T, ∀ i < C, out (b * T * C + t * C + i) ∈ writes)
    (hwte : ∀ b < B, ∀ t < T, ∀ i < C, wte (inp (b * T + t) * C + i) ∈ reads)
    (hwpe : ∀ t < T, ∀ i < C, wpe (t * C + i) ∈ reads) :
    (encoderForward ops out inp wte wpe B T C).Within reads writes := by
  refine within_forEach fun b hb => within_forEach fun t ht => within_forEach fun i hi => ?_
  exact within_bind (within_get (hwte b hb t ht i hi)) fun _ =>
    within_bind (within_get (hwpe t ht i hi)) fun _ => within_put (hout b hb t ht i hi) _

theorem layernormForwardThread_within {out mean rstd inp weight bias : Nat → A} {C t : Nat}
    (hout : ∀ i < C, out (t * C + i) ∈ writes) (hmean : mean t ∈ writes) (hrstd : rstd t ∈ writes)
    (hinp : ∀ i < C, inp (t * C + i) ∈ reads) (hweight : ∀ i < C, weight i ∈ reads)
    (hbias : ∀ i < C, bias i ∈ reads) :
    (layernormForwardThread ops out mean rstd inp weight bias C t).Within reads writes := by
  refine within_bind (within_loop (fun i hi m => ?_) _) fun m => ?_
  · exact within_bind (within_get (hinp i hi)) fun _ => within_pure _
  refine within_bind (within_loop (fun i hi v => ?_) _) fun v => ?_
  · exact within_bind (within_get (hinp i hi)) fun _ => within_pure _
  refine within_bind (within_forEach fun i hi => ?_) fun _ => ?_
  · exact within_bind (within_get (hinp i hi)) fun _ =>
      within_bind (within_get (hweight i hi)) fun _ =>
        within_bind (within_get (hbias i hi)) fun _ => within_put (hout i hi) _
  · exact within_bind (within_put hmean _) fun _ => within_put hrstd _

theorem matmulForwardThread_within {out inp weight : Nat → A} {bias : Option (Nat → A)}
    {C OC t : Nat} (hout : ∀ o < OC, out (t * OC + o) ∈ writes)
    (hinp : ∀ i < C, inp (t * C + i) ∈ reads)
    (hweight : ∀ o < OC, ∀ i < C, weight (o * C + i) ∈ reads)
    (hbias : ∀ p ∈ bias, ∀ o < OC, p o ∈ reads) :
    (matmulForwardThread ops out inp weight bias C OC t).Within reads writes := by
  refine within_forEach fun o ho => within_bind ?_ fun val => within_bind ?_ fun val =>
    within_put (hout o ho) _
  · cases bias with
    | none => exact within_pure _
    | some p => exact within_get (hbias p rfl o ho)
  · refine within_loop (fun i hi val => ?_) _
    exact within_bind (within_get (hinp i hi)) fun _ =>
      within_bind (within_get (hweight o ho i hi)) fun _ => within_pure _

section Attention

variable {out preatt att inp : Nat → A} {T C NH t : Nat}

/-- Heads of the size `C / NH`, rounded down, fit in a row. -/
theorem head_le {h : Nat} (hh : h < NH) : h * (C / NH) + C / NH ≤ C :=
  calc h * (C / NH) + C / NH = (h + 1) * (C / NH) := (Nat.succ_mul h (C / NH)).symm
    _ ≤ NH * (C / NH) := Nat.mul_le_mul_right _ hh
    _ ≤ C := Nat.mul_div_le C NH

theorem attentionHead_within {h : Nat} (hh : h < NH)
    (hinp : ∀ t2 ≤ t, ∀ j < C * 3, inp (t2 * (C * 3) + j) ∈ reads)
    (hpreatt : ∀ t2 ≤ t, preatt (h * T * T + t * T + t2) ∈ reads ∩ writes)
    (hatt : ∀ t2 < T, att (h * T * T + t * T + t2) ∈ reads ∩ writes) (ht : t < T)
    (hout : ∀ i < C / NH, out (t * C + h * (C / NH) + i) ∈ reads ∩ writes) :
    (attentionHead ops out preatt att inp T C NH t h).Within reads writes := by
  have hhead : h * (C / NH) + C / NH ≤ C := head_le hh
  have hquery : ∀ i < C / NH, inp (t * (C * 3) + h * (C / NH) + i) ∈ reads := by
    intro i hi
    rw [Nat.add_assoc]
    exact hinp t (Nat.le_refl t) _ (by omega)
  have hkey : ∀ t2 ≤ t, ∀ i < C / NH, inp (t2 * (C * 3) + h * (C / NH) + C + i) ∈ reads := by
    intro t2 ht2 i hi
    rw [Nat.add_assoc, Nat.add_assoc]
    exact hinp t2 ht2 _ (by omega)
  have hvalue : ∀ t2 ≤ t, ∀ i < C / NH,
      inp (t2 * (C * 3) + h * (C / NH) + C * 2 + i) ∈ reads := by
    intro t2 ht2 i hi
    rw [Nat.add_assoc, Nat.add_assoc]
    exact hinp t2 ht2 _ (by omega)
  refine within_bind ?scores fun maxval => within_bind ?exps fun expsum =>
    within_bind ?normalize fun _ => ?values
  case scores =>
    refine within_loop (fun t2 ht2 maxval => within_bind ?_ fun val => ?_) _
    · refine within_loop (fun i hi val => ?_) _
      exact within_bind (within_get (hquery i hi)) fun _ =>
        within_bind (within_get (hkey t2 (Nat.lt_succ_iff.mp ht2) i hi)) fun _ => within_pure _
    · exact within_bind (within_put (hpreatt t2 (Nat.lt_succ_iff.mp ht2)).2 _) fun _ =>
        within_pure _
  case exps =>
    refine within_loop (fun t2 ht2 expsum => ?_) _
    exact within_bind (within_get (hpreatt t2 (Nat.lt_succ_iff.mp ht2)).1) fun _ =>
      within_bind (within_put (hatt t2 (Nat.lt_of_lt_of_le ht2 ht)).2 _) fun _ => within_pure _
  case normalize =>
    refine within_forEach fun t2 ht2 => ?_
    split
    · exact within_bind (within_get (hatt t2 ht2).1) fun _ => within_put (hatt t2 ht2).2 _
    · exact within_put (hatt t2 ht2).2 _
  case values =>
    refine within_bind (within_forEach fun i hi => within_put (hout i hi).2 _) fun _ => ?_
    refine within_forEach fun t2 ht2 => ?_
    refine within_bind (within_get (hatt t2 (Nat.lt_of_lt_of_le ht2 ht)).1) fun _ =>
      within_forEach fun i hi => ?_
    exact within_bind (within_get (hout i hi).1) fun _ =>
      within_bind (within_get (hvalue t2 (Nat.lt_succ_iff.mp ht2) i hi)) fun _ =>
        within_put (hout i hi).2 _

theorem attentionForwardThread_within
    (hinp : ∀ t2 ≤ t, ∀ j < C * 3, inp (t2 * (C * 3) + j) ∈ reads)
    (hpreatt : ∀ h < NH, ∀ t2 ≤ t, preatt (h * T * T + t * T + t2) ∈ reads ∩ writes)
    (hatt : ∀ h < NH, ∀ t2 < T, att (h * T * T + t * T + t2) ∈ reads ∩ writes) (ht : t < T)
    (hout : ∀ j < C, out (t * C + j) ∈ reads ∩ writes) :
    (attentionForwardThread ops out preatt att inp T C NH t).Within reads writes := by
  refine within_forEach fun h hh =>
    attentionHead_within hh hinp (hpreatt h hh) (hatt h hh) ht fun i hi => ?_
  rw [Nat.add_assoc]
  exact hout _ (Nat.lt_of_lt_of_le (Nat.add_lt_add_left hi _) (head_le hh))

end Attention

theorem geluForward_within {out inp : Nat → A} {N : Nat} (hout : ∀ i < N, out i ∈ writes)
    (hinp : ∀ i < N, inp i ∈ reads) : (geluForward ops out inp N).Within reads writes :=
  within_forEach fun i hi => within_bind (within_get (hinp i hi)) fun _ => within_put (hout i hi) _

theorem residualForward_within {out inp1 inp2 : Nat → A} {N : Nat} (hout : ∀ i < N, out i ∈ writes)
    (hinp1 : ∀ i < N, inp1 i ∈ reads) (hinp2 : ∀ i < N, inp2 i ∈ reads) :
    (residualForward ops out inp1 inp2 N).Within reads writes :=
  within_forEach fun i hi => within_bind (within_get (hinp1 i hi)) fun _ =>
    within_bind (within_get (hinp2 i hi)) fun _ => within_put (hout i hi) _

theorem softmaxPass_within {probs_bt logits_bt : Nat → A} {V : Nat}
    (hprobs : ∀ i < V, probs_bt i ∈ reads ∩ writes) (hlogits : ∀ i < V, logits_bt i ∈ reads) :
    (softmaxPass ops probs_bt logits_bt V).Within reads writes := by
  refine within_bind (within_loop (fun i hi maxval => ?_) _) fun maxval => ?_
  · refine within_bind (within_get (hlogits i hi)) fun v => ?_
    split
    · exact within_get (hlogits i hi)
    · exact within_pure _
  refine within_bind (within_loop (fun i hi sum => ?_) _) fun sum => within_forEach fun i hi => ?_
  · exact within_bind (within_get (hlogits i hi)) fun _ =>
      within_bind (within_put (hprobs i hi).2 _) fun _ =>
        within_bind (within_get (hprobs i hi).1) fun _ => within_pure _
  · exact within_bind (within_get (hprobs i hi).1) fun _ => within_put (hprobs i hi).2 _

theorem softmaxForward_within {probs logits : Nat → A} {B T V : Nat}
    (hprobs : ∀ b < B, ∀ t < T, ∀ i < V, probs (b * T * V + t * V + i) ∈ reads ∩ writes)
    (hlogits : ∀ b < B, ∀ t < T, ∀ i < V, logits (b * T * V + t * V + i) ∈ reads) :
    (softmaxForward ops probs logits B T V).Within reads writes :=
  within_forEach fun b hb => within_forEach fun t ht =>
    softmaxPass_within (hprobs b hb t ht) (hlogits b hb t ht)

end NjuOs.Gpt
