import NjuOs.Gpt.Arena
import NjuOs.Gpt.Interleave

/-!
The forward pass.

`gpt2Forward` lists the calls of the kernels with their pointers. `Call.outs` and
`Call.ins` say how many elements behind each pointer a call works on: `threads_within`
is what its threads read and write, and `gpt2Forward_inLayer` compares it with the
layers of the tensors.
-/

namespace NjuOs.Gpt

open NjuOs.Lib NjuOs.Lib.Prog

/-- A call of a kernel; `B` and `T` are those of the pass. -/
inductive Call where
  | encoder (out wte wpe : Ptr) (C : Nat)
  | layernorm (out mean rstd inp weight bias : Ptr) (C : Nat)
  | matmul (out inp weight : Ptr) (bias : Option Ptr) (C OC : Nat)
  | attention (out preatt att inp : Ptr) (C NH : Nat)
  | residual (out inp1 inp2 : Ptr) (N : Nat)
  | gelu (out inp : Ptr) (N : Nat)
  | softmax (probs logits : Ptr) (V : Nat)

def params (x : ParameterTensor) : Ptr := ⟨.param x, 0⟩

def acts (x : ActivationTensor) : Ptr := ⟨.act x, 0⟩

section Forward

variable (config : GPT2Config) (B T : Nat)

/-- What enters layer `l`: the embeddings, or what layer `l - 1` left. -/
def residualOf (l : Nat) : Ptr :=
  if l = 0 then acts .encoded else acts .residual3 + (l - 1) * B * T * config.channels

def layerForward (l : Nat) : List Call :=
  let NH := config.numHeads
  let C := config.channels
  let residual := residualOf config B T l
  -- the weights for this layer
  let l_ln1w := params .ln1w + l * C
  let l_ln1b := params .ln1b + l * C
  let l_qkvw := params .qkvw + l * 3 * C * C
  let l_qkvb := params .qkvb + l * 3 * C
  let l_attprojw := params .attprojw + l * C * C
  let l_attprojb := params .attprojb + l * C
  let l_ln2w := params .ln2w + l * C
  let l_ln2b := params .ln2b + l * C
  let l_fcw := params .fcw + l * 4 * C * C
  let l_fcb := params .fcb + l * 4 * C
  let l_fcprojw := params .fcprojw + l * C * 4 * C
  let l_fcprojb := params .fcprojb + l * C
  -- the activations for this layer
  let l_ln1 := acts .ln1 + l * B * T * C
  let l_ln1_mean := acts .ln1_mean + l * B * T
  let l_ln1_rstd := acts .ln1_rstd + l * B * T
  let l_qkv := acts .qkv + l * B * T * 3 * C
  let l_atty := acts .atty + l * B * T * C
  let l_preatt := acts .preatt + l * B * NH * T * T
  let l_att := acts .att + l * B * NH * T * T
  let l_attproj := acts .attproj + l * B * T * C
  let l_residual2 := acts .residual2 + l * B * T * C
  let l_ln2 := acts .ln2 + l * B * T * C
  let l_ln2_mean := acts .ln2_mean + l * B * T
  let l_ln2_rstd := acts .ln2_rstd + l * B * T
  let l_fch := acts .fch + l * B * T * 4 * C
  let l_fch_gelu := acts .fch_gelu + l * B * T * 4 * C
  let l_fcproj := acts .fcproj + l * B * T * C
  let l_residual3 := acts .residual3 + l * B * T * C
  [.layernorm l_ln1 l_ln1_mean l_ln1_rstd residual l_ln1w l_ln1b C,
    .matmul l_qkv l_ln1 l_qkvw (some l_qkvb) C (3 * C),
    .attention l_atty l_preatt l_att l_qkv C NH,
    .matmul l_attproj l_atty l_attprojw (some l_attprojb) C C,
    .residual l_residual2 residual l_attproj (B * T * C),
    .layernorm l_ln2 l_ln2_mean l_ln2_rstd l_residual2 l_ln2w l_ln2b C,
    .matmul l_fch l_ln2 l_fcw (some l_fcb) C (4 * C),
    .gelu l_fch_gelu l_fch (B * T * 4 * C),
    .matmul l_fcproj l_fch_gelu l_fcprojw (some l_fcprojb) (4 * C) C,
    .residual l_residual3 l_residual2 l_fcproj (B * T * C)]

/-- What follows the layers. -/
def headForward : List Call :=
  let V := config.vocabSize
  let L := config.numLayers
  let C := config.channels
  let residual := acts .residual3 + (L - 1) * B * T * C
  [.layernorm (acts .lnf) (acts .lnf_mean) (acts .lnf_rstd) residual (params .lnfw)
      (params .lnfb) C,
    .matmul (acts .logits) (acts .lnf) (params .wte) none C V,
    .softmax (acts .probs) (acts .logits) V]

def gpt2Forward : List Call :=
  .encoder (acts .encoded) (params .wte) (params .wpe) config.channels ::
    (List.range config.numLayers).flatMap (layerForward config B T) ++ headForward config B T

end Forward

/-! ### Footprints of the calls -/

namespace Ptr

def elem (p : Ptr) (i : Nat) : Ptr := p + i

end Ptr

namespace Call

/-- The number of threads. -/
def width (T : Nat) : Call → Nat
  | layernorm .. | matmul .. | attention .. => T
  | _ => 1

variable {F : Type} (ops : FloatOps F) (inputs : Nat → Nat) (B T : Nat)

def threads : (c : Call) → Fin (c.width T) → Prog Ptr F Unit
  | encoder out wte wpe C => fun _ => encoderForward ops out.elem inputs wte.elem wpe.elem B T C
  | layernorm out mean rstd inp weight bias C =>
      layernormForward ops out.elem mean.elem rstd.elem inp.elem weight.elem bias.elem B T C
  | matmul out inp weight bias C OC =>
      matmulForward ops out.elem inp.elem weight.elem (bias.map Ptr.elem) B T C OC
  | attention out preatt att inp C NH =>
      attentionForward ops out.elem preatt.elem att.elem inp.elem B T C NH
  | residual out inp1 inp2 N => fun _ => residualForward ops out.elem inp1.elem inp2.elem N
  | gelu out inp N => fun _ => geluForward ops out.elem inp.elem N
  | softmax probs logits V => fun _ => softmaxForward ops probs.elem logits.elem B T V

/-- The elements that a call writes. -/
def outs : Call → List (Ptr × Nat)
  | encoder out _ _ C => [(out, B * T * C)]
  | layernorm out mean rstd _ _ _ C => [(out, T * C), (mean, T), (rstd, T)]
  | matmul out _ _ _ _ OC => [(out, T * OC)]
  | attention out preatt att _ C NH => [(out, T * C), (preatt, NH * T * T), (att, NH * T * T)]
  | residual out _ _ N => [(out, N)]
  | gelu out _ N => [(out, N)]
  | softmax probs _ V => [(probs, B * T * V)]

/-- The elements that a call reads, without the embeddings of the tokens. -/
def ins : Call → List (Ptr × Nat)
  | encoder _ _ wpe C => [(wpe, T * C)]
  | layernorm _ _ _ inp weight bias C => [(inp, T * C), (weight, C), (bias, C)]
  | matmul _ inp weight bias C OC =>
      [(inp, T * C), (weight, OC * C)] ++ (bias.map fun bias => (bias, OC)).toList
  | attention _ _ _ inp C _ => [(inp, T * (C * 3))]
  | residual _ inp1 inp2 N => [(inp1, N), (inp2, N)]
  | gelu _ inp N => [(inp, N)]
  | softmax _ logits V => [(logits, B * T * V)]

/-- The embeddings of the tokens. -/
def tokens : Call → Set Ptr
  | encoder _ wte _ C => {a | ∃ k < B * T, ∃ i < C, a = wte + (inputs k * C + i)}
  | _ => ∅

end Call

def extent (x : Ptr × Nat) : Slice Ptr := ⟨x.1.elem, x.2⟩

theorem mem_extent {xs : List (Ptr × Nat)} {p : Ptr} {n i : Nat} (h : (p, n) ∈ xs) (hi : i < n) :
    p.elem i ∈ shared (xs.map extent) := mem_shared (List.mem_map_of_mem h) hi

section Within

variable {F : Type} (ops : FloatOps F) (inputs : Nat → Nat) (B T : Nat)

/-- What the threads of a call read and write. -/
theorem threads_within (c : Call) (i : Fin (c.width T)) :
    (c.threads ops inputs B T i).Within
      (shared ((c.outs B T ++ c.ins B T).map extent) ∪ c.tokens inputs B T)
      (shared ((c.outs B T).map extent)) := by
  have hwrite : ∀ {p : Ptr} {n k : Nat}, (p, n) ∈ c.outs B T → k < n →
      p.elem k ∈ shared ((c.outs B T).map extent) := mem_extent
  have hread : ∀ {p : Ptr} {n k : Nat}, (p, n) ∈ c.ins B T → k < n → p.elem k ∈
      shared ((c.outs B T ++ c.ins B T).map extent) ∪ c.tokens inputs B T :=
    fun h hk => .inl (mem_extent (List.mem_append_right _ h) hk)
  have hboth : ∀ {p : Ptr} {n k : Nat}, (p, n) ∈ c.outs B T → k < n → p.elem k ∈
      (shared ((c.outs B T ++ c.ins B T).map extent) ∪ c.tokens inputs B T) ∩
        shared ((c.outs B T).map extent) :=
    fun h hk => ⟨.inl (mem_extent (List.mem_append_left _ h) hk), mem_extent h hk⟩
  cases c with
  | encoder out wte wpe C =>
      exact encoderForward_within
        (fun b hb t ht i hi => hwrite (by simp [Call.outs]) (partIndex_lt hb ht hi))
        (fun b hb t ht i hi => .inr ⟨b * T + t, rowIndex_lt hb ht, i, hi, rfl⟩)
        (fun t ht i hi => hread (by simp [Call.ins]) (rowIndex_lt ht hi))
  | layernorm out mean rstd inp weight bias C =>
      have hi : i.val < T := i.isLt
      exact layernormForwardThread_within
        (fun k hk => hwrite (by simp [Call.outs]) (rowIndex_lt hi hk))
        (hwrite (by simp [Call.outs]) hi) (hwrite (by simp [Call.outs]) hi)
        (fun k hk => hread (by simp [Call.ins]) (rowIndex_lt hi hk))
        (fun k hk => hread (by simp [Call.ins]) hk) fun k hk => hread (by simp [Call.ins]) hk
  | matmul out inp weight bias C OC =>
      have hi : i.val < T := i.isLt
      refine matmulForwardThread_within
        (fun o ho => hwrite (by simp [Call.outs]) (rowIndex_lt hi ho))
        (fun k hk => hread (by simp [Call.ins]) (rowIndex_lt hi hk))
        (fun o ho k hk => hread (by simp [Call.ins]) (rowIndex_lt ho hk)) fun p hp o ho => ?_
      obtain ⟨bias, rfl, rfl⟩ := Option.map_eq_some_iff.mp hp
      exact hread (by simp [Call.ins]) ho
  | attention out preatt att inp C NH =>
      have hi : i.val < T := i.isLt
      exact attentionForwardThread_within
        (fun t2 ht2 j hj =>
          hread (by simp [Call.ins]) (rowIndex_lt (Nat.lt_of_le_of_lt ht2 hi) hj))
        (fun h hh t2 ht2 => hboth (by simp [Call.outs])
          (partIndex_lt hh hi (Nat.lt_of_le_of_lt ht2 hi)))
        (fun h hh t2 ht2 => hboth (by simp [Call.outs]) (partIndex_lt hh hi ht2)) hi
        fun j hj => hboth (by simp [Call.outs]) (rowIndex_lt hi hj)
  | residual out inp1 inp2 N =>
      exact residualForward_within (fun k hk => hwrite (by simp [Call.outs]) hk)
        (fun k hk => hread (by simp [Call.ins]) hk) fun k hk => hread (by simp [Call.ins]) hk
  | gelu out inp N =>
      exact geluForward_within (fun k hk => hwrite (by simp [Call.outs]) hk)
        fun k hk => hread (by simp [Call.ins]) hk
  | softmax probs logits V =>
      exact softmaxForward_within
        (fun b hb t ht i hi => hboth (by simp [Call.outs]) (partIndex_lt hb ht hi))
        fun b hb t ht i hi => hread (by simp [Call.ins]) (partIndex_lt hb ht hi)

end Within

/-! ### The pointers of the pass -/

section Layers

variable (config : GPT2Config) (B T : Nat)

/-- Where layer `l` of a tensor starts. -/
def part (x : Tensor) (l : Nat) : Ptr := ⟨x, l * layerSize config B T x⟩

/-- The elements lie in a layer of their tensor, which starts at the pointer. -/
def InLayer (x : Ptr × Nat) : Prop :=
  ∃ l < layers config x.1.tensor, x.1 = part config B T x.1.tensor l ∧
    x.2 ≤ layerSize config B T x.1.tensor

variable {config B T}

theorem inLayer_part {x : Tensor} {l n : Nat} (hl : l < layers config x)
    (hn : n ≤ layerSize config B T x) : InLayer config B T (part config B T x l, n) :=
  ⟨l, hl, rfl, hn⟩

theorem acts_eq (x : ActivationTensor) : acts x = part config B T (.act x) 0 := by
  simp only [acts, part, Nat.zero_mul]

theorem params_eq (x : ParameterTensor) : params x = part config B T (.param x) 0 := by
  simp only [params, part, Nat.zero_mul]

theorem residual3_eq (l : Nat) :
    acts .residual3 + l * B * T * config.channels = part config B T (.act .residual3) l := by
  simp only [acts, part, layerSize, Ptr.add_mk, Nat.zero_add, Nat.mul_assoc]

theorem residualOf_zero : residualOf config B T 0 = part config B T (.act .encoded) 0 := acts_eq _

theorem residualOf_succ (l : Nat) :
    residualOf config B T (l + 1) = part config B T (.act .residual3) l := residual3_eq l

variable (config B T)

theorem layerForward_eq (l : Nat) : layerForward config B T l =
    let NH := config.numHeads
    let C := config.channels
    let param x := part config B T (.param x) l
    let act x := part config B T (.act x) l
    let residual := residualOf config B T l
    [.layernorm (act .ln1) (act .ln1_mean) (act .ln1_rstd) residual (param .ln1w) (param .ln1b) C,
      .matmul (act .qkv) (act .ln1) (param .qkvw) (some (param .qkvb)) C (3 * C),
      .attention (act .atty) (act .preatt) (act .att) (act .qkv) C NH,
      .matmul (act .attproj) (act .atty) (param .attprojw) (some (param .attprojb)) C C,
      .residual (act .residual2) residual (act .attproj) (B * T * C),
      .layernorm (act .ln2) (act .ln2_mean) (act .ln2_rstd) (act .residual2) (param .ln2w)
        (param .ln2b) C,
      .matmul (act .fch) (act .ln2) (param .fcw) (some (param .fcb)) C (4 * C),
      .gelu (act .fch_gelu) (act .fch) (B * T * 4 * C),
      .matmul (act .fcproj) (act .fch_gelu) (param .fcprojw) (some (param .fcprojb)) (4 * C) C,
      .residual (act .residual3) (act .residual2) (act .fcproj) (B * T * C)] := by
  simp only [layerForward, params, acts, Ptr.add_mk, part, layerSize, Nat.zero_add, Nat.mul_assoc]

theorem headForward_eq (h : 0 < config.numLayers) : headForward config B T =
    let V := config.vocabSize
    let C := config.channels
    let param x := part config B T (.param x) 0
    let act x := part config B T (.act x) 0
    [.layernorm (act .lnf) (act .lnf_mean) (act .lnf_rstd) (residualOf config B T config.numLayers)
        (param .lnfw) (param .lnfb) C,
      .matmul (act .logits) (act .lnf) (param .wte) none C V,
      .softmax (act .probs) (act .logits) V] := by
  obtain ⟨l, hl⟩ := Nat.exists_eq_succ_of_ne_zero (Nat.ne_of_gt h)
  simp only [headForward, hl, residualOf_succ, Nat.succ_sub_one, residual3_eq]
  simp only [@acts_eq config B T, @params_eq config B T]

variable {config B T}

theorem inLayer_all {x : Tensor} {l : Nat} (hl : l < layers config x) :
    InLayer config B T (part config B T x l, layerSize config B T x) :=
  inLayer_part hl (Nat.le_refl _)

/-- The first `T` of `B * T` rows. -/
theorem inLayer_rows (hB : 0 < B) {x : Tensor} {l W : Nat} (hl : l < layers config x)
    (hsize : B * T * W = layerSize config B T x) :
    InLayer config B T (part config B T x l, T * W) :=
  inLayer_part hl (hsize ▸ Nat.mul_le_mul_right W (Nat.le_mul_of_pos_left T hB))

theorem residualOf_inLayer {l n : Nat} (hl : l ≤ config.numLayers)
    (hn : n ≤ B * T * config.channels) : InLayer config B T (residualOf config B T l, n) := by
  cases l with
  | zero =>
      rw [residualOf_zero]
      exact inLayer_part Nat.zero_lt_one hn
  | succ l =>
      rw [residualOf_succ]
      exact inLayer_part hl hn

theorem layerForward_inLayer (hB : 0 < B) {l : Nat} (hl : l < config.numLayers) :
    ∀ c ∈ layerForward config B T l, ∀ x ∈ c.outs B T ++ c.ins B T, InLayer config B T x := by
  have hone : T ≤ B * T := Nat.le_mul_of_pos_left T hB
  have hheads : config.numHeads * T * T ≤ B * config.numHeads * T * T :=
    Nat.mul_le_mul_right T (Nat.mul_le_mul_right T (Nat.le_mul_of_pos_left _ hB))
  have hfour : B * T * 4 * config.channels = B * T * (4 * config.channels) := Nat.mul_assoc ..
  have hthree : B * T * (config.channels * 3) = B * T * (3 * config.channels) := by
    rw [Nat.mul_comm config.channels]
  have hresidual : ∀ {n}, n ≤ B * T * config.channels →
      InLayer config B T (residualOf config B T l, n) := residualOf_inLayer (Nat.le_of_lt hl)
  simp only [layerForward_eq, List.forall_mem_cons, Call.outs, Call.ins, List.cons_append,
    List.nil_append, Option.map_some, Option.toList_some, List.not_mem_nil, false_implies,
    implies_true, and_true, hfour]
  refine ⟨?ln1, ?qkv, ?atty, ?attproj, ?residual2, ?ln2, ?fch, ?fch_gelu, ?fcproj, ?residual3⟩
  case ln1 =>
    exact ⟨inLayer_rows hB hl rfl, inLayer_part hl hone, inLayer_part hl hone,
      hresidual (Nat.mul_le_mul_right _ hone), inLayer_all hl, inLayer_all hl⟩
  case qkv =>
    exact ⟨inLayer_rows hB hl rfl, inLayer_rows hB hl rfl, inLayer_all hl, inLayer_all hl⟩
  case atty =>
    exact ⟨inLayer_rows hB hl rfl, inLayer_part hl hheads, inLayer_part hl hheads,
      inLayer_rows hB hl hthree⟩
  case attproj =>
    exact ⟨inLayer_rows hB hl rfl, inLayer_rows hB hl rfl, inLayer_all hl, inLayer_all hl⟩
  case residual2 =>
    exact ⟨inLayer_all hl, hresidual (Nat.le_refl _), inLayer_all hl⟩
  case ln2 =>
    exact ⟨inLayer_rows hB hl rfl, inLayer_part hl hone, inLayer_part hl hone,
      inLayer_rows hB hl rfl, inLayer_all hl, inLayer_all hl⟩
  case fch =>
    exact ⟨inLayer_rows hB hl rfl, inLayer_rows hB hl rfl, inLayer_all hl, inLayer_all hl⟩
  case fch_gelu =>
    exact ⟨inLayer_all hl, inLayer_all hl⟩
  case fcproj =>
    exact ⟨inLayer_rows hB hl rfl, inLayer_rows hB hl rfl, inLayer_all hl, inLayer_all hl⟩
  case residual3 =>
    exact ⟨inLayer_all hl, inLayer_all hl, inLayer_all hl⟩

theorem headForward_inLayer (hB : 0 < B) (hL : 0 < config.numLayers) :
    ∀ c ∈ headForward config B T, ∀ x ∈ c.outs B T ++ c.ins B T, InLayer config B T x := by
  have hone : T ≤ B * T := Nat.le_mul_of_pos_left T hB
  have hresidual : InLayer config B T
      (residualOf config B T config.numLayers, T * config.channels) :=
    residualOf_inLayer (Nat.le_refl _) (Nat.mul_le_mul_right _ hone)
  simp only [headForward_eq config B T hL, List.forall_mem_cons, Call.outs, Call.ins,
    List.cons_append, List.nil_append, Option.map_none, Option.toList_none, List.not_mem_nil,
    false_implies, implies_true, and_true]
  refine ⟨?lnf, ?logits, ?probs⟩
  case lnf =>
    exact ⟨inLayer_rows hB Nat.zero_lt_one rfl, inLayer_part Nat.zero_lt_one hone,
      inLayer_part Nat.zero_lt_one hone, hresidual, inLayer_all Nat.zero_lt_one,
      inLayer_all Nat.zero_lt_one⟩
  case logits =>
    exact ⟨inLayer_rows hB Nat.zero_lt_one rfl, inLayer_rows hB Nat.zero_lt_one rfl,
      inLayer_all Nat.zero_lt_one⟩
  case probs =>
    exact ⟨inLayer_all Nat.zero_lt_one, inLayer_all Nat.zero_lt_one⟩

theorem encoder_inLayer (hT : T ≤ config.maxSeqLen) :
    let c : Call := .encoder (acts .encoded) (params .wte) (params .wpe) config.channels
    ∀ x ∈ c.outs B T ++ c.ins B T, InLayer config B T x := by
  simp only [Call.outs, Call.ins, List.cons_append, List.nil_append, List.forall_mem_cons,
    List.not_mem_nil, false_implies, implies_true, and_true, @acts_eq config B T,
    @params_eq config B T]
  exact ⟨inLayer_all Nat.zero_lt_one, inLayer_part Nat.zero_lt_one (Nat.mul_le_mul_right _ hT)⟩

theorem mem_gpt2Forward {c : Call} (h : c ∈ gpt2Forward config B T) :
    c = .encoder (acts .encoded) (params .wte) (params .wpe) config.channels ∨
      (∃ l < config.numLayers, c ∈ layerForward config B T l) ∨ c ∈ headForward config B T := by
  simpa only [gpt2Forward, List.cons_append, List.mem_cons, List.mem_append, List.mem_flatMap,
    List.mem_range] using h

theorem gpt2Forward_inLayer (hL : 0 < config.numLayers) (hB : 0 < B) (hT : T ≤ config.maxSeqLen)
    {c : Call} (hc : c ∈ gpt2Forward config B T) :
    ∀ x ∈ c.outs B T ++ c.ins B T, InLayer config B T x := by
  rcases mem_gpt2Forward hc with rfl | ⟨l, hl, hc⟩ | hc
  · exact encoder_inLayer hT
  · exact layerForward_inLayer hB hl c hc
  · exact headForward_inLayer hB hL c hc

theorem InLayer.extent_subset {x : Ptr × Nat} (h : InLayer config B T x) :
    ∃ l < layers config x.1.tensor, x.1 = part config B T x.1.tensor l ∧
      (extent x).cells ⊆ layerCells config B T x.1.tensor l := by
  obtain ⟨l, hl, hpart, hsize⟩ := h
  refine ⟨l, hl, hpart, ?_⟩
  rintro a ⟨i, hi, rfl⟩
  have hlt : i < layerSize config B T x.1.tensor := Nat.lt_of_lt_of_le hi hsize
  have hindex : x.1.index = l * layerSize config B T x.1.tensor := congrArg Ptr.index hpart
  have hsucc : (l + 1) * layerSize config B T x.1.tensor =
      l * layerSize config B T x.1.tensor + layerSize config B T x.1.tensor := Nat.succ_mul l _
  refine ⟨rfl, ?_, ?_⟩
  · show _ ≤ x.1.index + i
    omega
  · show x.1.index + i < _
    omega

end Layers

/-! ### Different tensors -/

section Tensors

variable {config : GPT2Config} {B T : Nat}

theorem layerForward_tensors (l : Nat) : ∀ c ∈ layerForward config B T l,
    ((c.outs B T ++ c.ins B T).map fun x => x.1.tensor).Nodup := by
  have hresidual : (residualOf config B T l).tensor = .act .encoded ∨
      (residualOf config B T l).tensor = .act .residual3 := by
    cases l with
    | zero => exact .inl rfl
    | succ l => exact .inr rfl
  rw [layerForward_eq]
  rcases hresidual with h | h <;> simp [Call.outs, Call.ins, part, h]

theorem headForward_tensors : ∀ c ∈ headForward config B T,
    ((c.outs B T ++ c.ins B T).map fun x => x.1.tensor).Nodup := by
  simp [headForward, Call.outs, Call.ins, acts, params]

/-- The pointers of a call point to different tensors. -/
theorem gpt2Forward_tensors {c : Call} (hc : c ∈ gpt2Forward config B T) :
    ((c.outs B T ++ c.ins B T).map fun x => x.1.tensor).Nodup := by
  rcases mem_gpt2Forward hc with rfl | ⟨l, -, hc⟩ | hc
  · simp [Call.outs, Call.ins, acts, params]
  · exact layerForward_tensors l c hc
  · exact headForward_tensors c hc

/-- **Every access lies in its layer.** The tensors are disjoint slices of the arenas.
The threads of each call read and write the elements that `Call.outs` and `Call.ins`
list, besides the embeddings of the tokens, and those behind one pointer lie in the
layer of its tensor that starts there. -/
theorem accesses_in_layers {F : Type} (ops : FloatOps F) (hL : 0 < config.numLayers) (hB : 0 < B)
    (hT : T ≤ config.maxSeqLen) :
    (∀ x y : Tensor, x ≠ y →
      Disjoint (tensorSlice config B T x).cells (tensorSlice config B T y).cells) ∧
    (∀ x, ∀ a ∈ (tensorSlice config B T x).cells, Allocated config B T a) ∧
    (∀ x, ∀ l < layers config x, ∀ a ∈ layerCells config B T x l,
      addr config B T a ∈ (tensorSlice config B T x).cells) ∧
    ∀ c ∈ gpt2Forward config B T,
      (∀ inputs i, (c.threads ops inputs B T i).Within
        (shared ((c.outs B T ++ c.ins B T).map extent) ∪ c.tokens inputs B T)
        (shared ((c.outs B T).map extent))) ∧
      ((c.outs B T ++ c.ins B T).map fun x => x.1.tensor).Nodup ∧
      ∀ x ∈ c.outs B T ++ c.ins B T, ∃ l < layers config x.1.tensor,
        x.1 = part config B T x.1.tensor l ∧
          (extent x).cells ⊆ layerCells config B T x.1.tensor l := by
  refine ⟨fun x y => tensorSlice_disjoint config B T, fun x a => tensorSlice_allocated config B T,
    fun x l hl a ha => ?_, fun c hc => ⟨fun inputs => threads_within ops inputs B T c,
      gpt2Forward_tensors hc, fun x hx => (gpt2Forward_inLayer hL hB hT hc x hx).extent_subset⟩⟩
  have hindex := index_lt_of_mem_layerCells config B T hl ha
  obtain ⟨rfl, -⟩ := ha
  exact ⟨a.index, hindex, rfl⟩

/-- Two layers of four channels and two heads, for two sequences of three tokens. -/
theorem accesses_in_layers_two :
    (∀ x, ∀ a ∈ (tensorSlice ⟨4, 5, 2, 2, 4⟩ 2 3 x).cells, Allocated ⟨4, 5, 2, 2, 4⟩ 2 3 a) ∧
    ∀ c ∈ gpt2Forward ⟨4, 5, 2, 2, 4⟩ 2 3, ∀ x ∈ c.outs 2 3 ++ c.ins 2 3,
      ∃ l < layers ⟨4, 5, 2, 2, 4⟩ x.1.tensor, x.1 = part ⟨4, 5, 2, 2, 4⟩ 2 3 x.1.tensor l ∧
        (extent x).cells ⊆ layerCells ⟨4, 5, 2, 2, 4⟩ 2 3 x.1.tensor l := by
  obtain ⟨-, hallocated, -, h⟩ := @accesses_in_layers ⟨4, 5, 2, 2, 4⟩ 2 3 Float32 floatOps
    (by decide) (by decide) (by decide)
  exact ⟨hallocated, fun c hc => (h c hc).2.2⟩

end Tensors

end NjuOs.Gpt
