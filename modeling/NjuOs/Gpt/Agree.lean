import NjuOs.Gpt.Forward
import NjuOs.Gpt.Heads

/-!
Two passes, call by call.

Two passes over `T` and `T'` positions are compared. `Agree` says that a
number of first elements behind two pointers are equal; for a tensor with rows of
width `W`, the rows up to `t` are the first `(t + 1) * W` elements, whatever the number
of rows. Each kernel takes agreeing rows to agreeing rows.
-/

namespace NjuOs.Gpt

open NjuOs.Lib NjuOs.Lib.Prog

variable {F : Type} (ops : FloatOps F)

/-! ### Calls on different tensors -/

theorem extent_distinct (x : Ptr × Nat) : (extent x).Distinct := fun _ _ _ _ h =>
  Nat.add_left_cancel (congrArg Ptr.index h)

theorem extent_disjoint {x y : Ptr × Nat} (h : x.1.tensor ≠ y.1.tensor) :
    Disjoint (extent x).cells (extent y).cells := by
  rw [Set.disjoint_left]
  rintro a ⟨i, -, rfl⟩ ⟨j, -, heq⟩
  exact h (congrArg Ptr.tensor heq).symm

theorem nonOverlapping_extent {outs ins : List (Ptr × Nat)}
    (h : ((outs ++ ins).map fun x => x.1.tensor).Nodup) :
    NonOverlapping (outs.map extent) (ins.map extent) := by
  rw [List.map_append, List.nodup_append] at h
  obtain ⟨houts, -, hins⟩ := h
  refine ⟨?_, ?_, ?_⟩
  · simp only [List.forall_mem_map]
    exact fun x _ => extent_distinct x
  · rw [List.pairwise_map]
    exact (List.pairwise_map.mp houts).imp extent_disjoint
  · simp only [List.forall_mem_map]
    exact fun x hx y hy =>
      extent_disjoint (hins _ (List.mem_map_of_mem hx) _ (List.mem_map_of_mem hy))

/-! ### Agreement -/

/-- The first `w` elements behind the pointers are equal. -/
def Agree (n n' : Ptr → F) (p p' : Ptr) (w : Nat) : Prop := ∀ k < w, n (p.elem k) = n' (p'.elem k)

section Agree

variable {n n' : Ptr → F} {p p' : Ptr} {t W : Nat}

theorem agree_of_rows (h : ∀ s ≤ t, ∀ i < W, n (p.elem (s * W + i)) = n' (p'.elem (s * W + i))) :
    Agree n n' p p' ((t + 1) * W) := by
  intro k hk
  have hW : 0 < W := Nat.pos_of_ne_zero fun h => by simp [h] at hk
  have hrow := h (k / W) (Nat.lt_succ_iff.mp (Nat.div_lt_of_lt_mul (Nat.mul_comm (t + 1) W ▸ hk)))
    (k % W) (Nat.mod_lt k hW)
  rwa [Nat.div_add_mod'] at hrow

theorem Agree.row (h : Agree n n' p p' ((t + 1) * W)) {s i : Nat} (hs : s ≤ t) (hi : i < W) :
    n (p.elem (s * W + i)) = n' (p'.elem (s * W + i)) :=
  h _ (rowIndex_lt (Nat.lt_succ_iff.mpr hs) hi)

end Agree

/-! ### Call by call -/

section Calls

variable {ops} {inputs inputs' : Nat → Nat} {T T' t : Nat} {n n₁ n' n₁' : Ptr → F}

/-- A call that runs, on tensors of its own. -/
structure Call.Runs (ops : FloatOps F) (inputs : Nat → Nat) (T : Nat) (c : Call)
    (n n₁ : Ptr → F) : Prop where
  tensors : ((c.outs 1 T ++ c.ins 1 T).map fun x => x.1.tensor).Nodup
  completes : Completes (c.threads ops inputs 1 T) n n₁

theorem Call.Runs.apart {c : Call} (h : c.Runs ops inputs T n n₁) :
    NonOverlapping ((c.outs 1 T).map extent) ((c.ins 1 T).map extent) :=
  nonOverlapping_extent h.tensors

/-- Other tensors stay. -/
theorem Call.Runs.frame {c : Call} (h : c.Runs ops inputs T n n₁) {a : Ptr}
    (ha : ∀ x ∈ c.outs 1 T, a.tensor ≠ x.1.tensor) : n₁ a = n a := by
  refine h.completes.frame (threads_within ops inputs 1 T c) ?_
  rintro ⟨y, hy, i, -, rfl⟩
  obtain ⟨x, hx, rfl⟩ := List.mem_map.mp hy
  exact ha x hx rfl

theorem Agree.frame {c c' : Call} (h : c.Runs ops inputs T n n₁)
    (h' : c'.Runs ops inputs' T' n' n₁') {p p' : Ptr} {w : Nat}
    (hp : ∀ x ∈ c.outs 1 T, p.tensor ≠ x.1.tensor)
    (hp' : ∀ x ∈ c'.outs 1 T', p'.tensor ≠ x.1.tensor) (hagree : Agree n n' p p' w) :
    Agree n₁ n₁' p p' w := by
  intro k hk
  have hk₁ : n₁ (p.elem k) = n (p.elem k) := h.frame hp
  have hk₁' : n₁' (p'.elem k) = n' (p'.elem k) := h'.frame hp'
  rw [hk₁, hk₁', hagree k hk]

section Layernorm

variable {out mean rstd inp weight bias out' mean' rstd' inp' weight' bias' : Ptr} {C : Nat}

theorem layernorm_row (h : (Call.layernorm out mean rstd inp weight bias C).Runs ops inputs T n n₁)
    {s i : Nat} (hs : s < T) (hi : i < C) : n₁ (out.elem (s * C + i)) =
      layernormRow ops C (fun i => n (inp.elem (s * C + i))) (fun i => n (weight.elem i))
        (fun i => n (bias.elem i)) i :=
  layernormForward_row ops (B := 1) h.apart h.completes hs hi

theorem layernorm_agree
    (h : (Call.layernorm out mean rstd inp weight bias C).Runs ops inputs T n n₁)
    (h' : (Call.layernorm out' mean' rstd' inp' weight' bias' C).Runs ops inputs' T' n' n₁')
    (ht : t < T) (ht' : t < T') (hinp : Agree n n' inp inp' ((t + 1) * C))
    (hweight : Agree n n' weight weight' C) (hbias : Agree n n' bias bias' C) :
    Agree n₁ n₁' out out' ((t + 1) * C) := by
  refine agree_of_rows fun s hs i hi => ?_
  rw [layernorm_row h (Nat.lt_of_le_of_lt hs ht) hi,
    layernorm_row h' (Nat.lt_of_le_of_lt hs ht') hi]
  exact layernormRow_congr (fun i hi => hinp.row hs hi) hweight hbias hi

end Layernorm

section Matmul

variable {out inp weight out' inp' weight' : Ptr} {bias bias' : Option Ptr} {C OC : Nat}

theorem matmul_apart (h : (Call.matmul out inp weight bias C OC).Runs ops inputs T n n₁) :
    NonOverlapping ((matmulOuts out.elem T OC).map Prod.fst)
      (matmulIns inp.elem weight.elem (bias.map Ptr.elem) T C OC) := by
  have hapart := h.apart
  cases bias with
  | none => exact hapart
  | some p => exact hapart

theorem matmul_row (h : (Call.matmul out inp weight bias C OC).Runs ops inputs T n n₁) {s o : Nat}
    (hs : s < T) (ho : o < OC) : n₁ (out.elem (s * OC + o)) =
      matmulRow ops C (fun i => n (inp.elem (s * C + i))) (fun j => n (weight.elem j))
        (bias.map fun bias o => n (bias.elem o)) o := by
  have hrow := matmulForward_row ops (B := 1) (matmul_apart h) h.completes hs ho
  rwa [Option.map_map] at hrow

theorem matmul_agree (h : (Call.matmul out inp weight bias C OC).Runs ops inputs T n n₁)
    (h' : (Call.matmul out' inp' weight' bias' C OC).Runs ops inputs' T' n' n₁')
    (ht : t < T) (ht' : t < T') (hinp : Agree n n' inp inp' ((t + 1) * C))
    (hweight : Agree n n' weight weight' (OC * C))
    (hbias : ∀ o < OC, (bias.elim ops.zero fun p => n (p.elem o)) =
      bias'.elim ops.zero fun p => n' (p.elem o)) :
    Agree n₁ n₁' out out' ((t + 1) * OC) := by
  refine agree_of_rows fun s hs o ho => ?_
  rw [matmul_row h (Nat.lt_of_le_of_lt hs ht) ho, matmul_row h' (Nat.lt_of_le_of_lt hs ht') ho]
  refine matmulRow_congr (fun i hi => hinp.row hs hi) hweight ?_ ho
  simp only [Option.elim_map]
  exact hbias o ho

end Matmul

section Attention

variable {out preatt att inp out' preatt' att' inp' : Ptr} {C NH : Nat}

theorem attention_agree (h : (Call.attention out preatt att inp C NH).Runs ops inputs T n n₁)
    (h' : (Call.attention out' preatt' att' inp' C NH).Runs ops inputs' T' n' n₁')
    (hheads : NH ∣ C) (ht : t < T) (ht' : t < T')
    (hinp : Agree n n' inp inp' ((t + 1) * (C * 3))) :
    Agree n₁ n₁' out out' ((t + 1) * C) := by
  refine agree_of_rows fun s hs j hj => ?_
  -- the heads cover the row
  have hC : NH * (C / NH) = C := Nat.mul_div_cancel' hheads
  have hhs : 0 < C / NH := Nat.pos_of_ne_zero fun h => by
    rw [h, Nat.mul_zero] at hC
    omega
  have hh : j / (C / NH) < NH := Nat.div_lt_of_lt_mul (by rwa [Nat.mul_comm, hC])
  have hi : j % (C / NH) < C / NH := Nat.mod_lt j hhs
  have hindex : ∀ k, k + j = k + j / (C / NH) * (C / NH) + j % (C / NH) := fun k => by
    rw [Nat.add_assoc, Nat.div_add_mod']
  rw [hindex]
  calc n₁ (out.elem (s * C + j / (C / NH) * (C / NH) + j % (C / NH)))
    _ = _ := attentionForward_row ops (B := 1) h.apart h.completes (Nat.lt_of_le_of_lt hs ht) hh hi
    _ = _ := attentionRow_congr hh (fun t2 ht2 j hj => hinp.row (by omega) hj) hi
    _ = n₁' _ := (attentionForward_row ops (B := 1) h'.apart h'.completes
        (Nat.lt_of_le_of_lt hs ht') hh hi).symm

end Attention

section Elementwise

variable {out inp inp1 inp2 out' inp' inp1' inp2' : Ptr} {N N' w : Nat}

theorem residual_row (h : (Call.residual out inp1 inp2 N).Runs ops inputs T n n₁) {k : Nat}
    (hk : k < N) : n₁ (out.elem k) = ops.add (n (inp1.elem k)) (n (inp2.elem k)) :=
  (congrFun h.completes.single _).trans (run_residualForward ops h.apart n hk)

theorem residual_agree (h : (Call.residual out inp1 inp2 N).Runs ops inputs T n n₁)
    (h' : (Call.residual out' inp1' inp2' N').Runs ops inputs' T' n' n₁') (hN : w ≤ N)
    (hN' : w ≤ N') (hinp1 : Agree n n' inp1 inp1' w) (hinp2 : Agree n n' inp2 inp2' w) :
    Agree n₁ n₁' out out' w := by
  intro k hk
  rw [residual_row h (Nat.lt_of_lt_of_le hk hN), residual_row h' (Nat.lt_of_lt_of_le hk hN'),
    hinp1 k hk, hinp2 k hk]

theorem gelu_row (h : (Call.gelu out inp N).Runs ops inputs T n n₁) {k : Nat} (hk : k < N) :
    n₁ (out.elem k) = geluElem ops (n (inp.elem k)) :=
  (congrFun h.completes.single _).trans (run_geluForward ops h.apart n hk)

theorem gelu_agree (h : (Call.gelu out inp N).Runs ops inputs T n n₁)
    (h' : (Call.gelu out' inp' N').Runs ops inputs' T' n' n₁') (hN : w ≤ N) (hN' : w ≤ N')
    (hinp : Agree n n' inp inp' w) : Agree n₁ n₁' out out' w := by
  intro k hk
  rw [gelu_row h (Nat.lt_of_lt_of_le hk hN), gelu_row h' (Nat.lt_of_lt_of_le hk hN'), hinp k hk]

end Elementwise

section Ends

variable {out wte wpe inp out' wte' wpe' inp' : Ptr} {C V : Nat}

theorem encoder_row (h : (Call.encoder out wte wpe C).Runs ops inputs T n n₁)
    (hwte : wte.tensor ≠ out.tensor) (htokens : ∀ k < T, inputs k < V) {s i : Nat} (hs : s < T)
    (hi : i < C) : n₁ (out.elem (s * C + i)) =
      ops.add (n (wte.elem (inputs s * C + i))) (n (wpe.elem (s * C + i))) := by
  obtain ⟨⟨hdistinct, houts, hins⟩, -⟩ := nonOverlapping_cons.mp h.apart
  have hwteout : Disjoint (extent (out, 1 * T * C)).cells (extent (wte, V * C)).cells :=
    extent_disjoint hwte.symm
  have hapart : NonOverlapping [⟨out.elem, 1 * T * C⟩] [⟨wte.elem, V * C⟩, ⟨wpe.elem, T * C⟩] :=
    nonOverlapping_cons.mpr ⟨⟨hdistinct, houts, List.forall_mem_cons.mpr ⟨hwteout, hins⟩⟩,
      nofun, .nil, nofun⟩
  have hrow := run_encoderForward ops hapart (by rwa [Nat.one_mul]) n Nat.zero_lt_one hs hi
  simp only [Nat.zero_mul, Nat.zero_add] at hrow
  exact (congrFun h.completes.single _).trans hrow

theorem encoder_agree (h : (Call.encoder out wte wpe C).Runs ops inputs T n n₁)
    (h' : (Call.encoder out' wte' wpe' C).Runs ops inputs' T' n' n₁')
    (hwte : wte.tensor ≠ out.tensor) (hwte' : wte'.tensor ≠ out'.tensor) (ht : t < T) (ht' : t < T')
    (hagree : ∀ s ≤ t, inputs s = inputs' s) (htokens : ∀ k < T, inputs k < V)
    (htokens' : ∀ k < T', inputs' k < V) (hinp : Agree n n' wte wte' (V * C))
    (hwpe : Agree n n' wpe wpe' ((t + 1) * C)) : Agree n₁ n₁' out out' ((t + 1) * C) := by
  refine agree_of_rows fun s hs i hi => ?_
  have hsT := Nat.lt_of_le_of_lt hs ht
  rw [encoder_row h hwte htokens hsT hi,
    encoder_row h' hwte' htokens' (Nat.lt_of_le_of_lt hs ht') hi, ← hagree s hs, hwpe.row hs hi,
    hinp _ (rowIndex_lt (htokens s hsT) hi)]

theorem softmax_row (h : (Call.softmax out inp V).Runs ops inputs T n n₁) {s i : Nat} (hs : s < T)
    (hi : i < V) :
    n₁ (out.elem (s * V + i)) = softmaxRow ops V (fun i => n (inp.elem (s * V + i))) i := by
  have hrow := run_softmaxForward ops h.apart n Nat.zero_lt_one hs hi
  simp only [Nat.zero_mul, Nat.zero_add] at hrow
  exact (congrFun h.completes.single _).trans hrow

theorem softmax_agree (h : (Call.softmax out inp V).Runs ops inputs T n n₁)
    (h' : (Call.softmax out' inp' V).Runs ops inputs' T' n' n₁') (ht : t < T) (ht' : t < T')
    (hinp : Agree n n' inp inp' ((t + 1) * V)) : Agree n₁ n₁' out out' ((t + 1) * V) := by
  refine agree_of_rows fun s hs i hi => ?_
  rw [softmax_row h (Nat.lt_of_le_of_lt hs ht) hi, softmax_row h' (Nat.lt_of_le_of_lt hs ht') hi]
  exact softmaxRow_congr (fun i hi => hinp.row hs hi) hi

end Ends

end Calls

end NjuOs.Gpt
