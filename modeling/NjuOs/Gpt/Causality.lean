import NjuOs.Gpt.Agree

/-!
Causality of the forward pass.

Two passes whose inputs agree up to position `t` agree on the rows up to `t` of
every tensor that the next call reads (`layer_agree`, by the calls of a layer, and
`layers_agree`, by the layers), although the lengths of the sequences, and with them
the strides, are different. `causality` takes this to the arenas, of which a pass that is
supported reads only what was allocated. It needs heads that divide the channels:
`unwritten_head_read` is a pass that reads what was in the arena before.
-/

namespace NjuOs.Gpt

open NjuOs.Lib NjuOs.Lib.Prog

variable {F : Type} {ops : FloatOps F}

/-! ### Layer by layer -/

/-- The weights are equal. -/
def SameParams (n n' : Ptr → F) : Prop := ∀ x i, n ⟨.param x, i⟩ = n' ⟨.param x, i⟩

section Layers

variable {config : GPT2Config} {inputs inputs' : Nat → Nat} {T T' t l : Nat}
  {n n₁ n' n₁' : Ptr → F}

theorem SameParams.elem (h : SameParams n n') (config : GPT2Config) (T T' : Nat)
    (x : ParameterTensor) (l k : Nat) :
    n ((part config 1 T (.param x) l).elem k) = n' ((part config 1 T' (.param x) l).elem k) := by
  have hpart : part config 1 T (.param x) l = part config 1 T' (.param x) l := by cases x <;> rfl
  rw [hpart]
  exact h x _

theorem SameParams.symm (h : SameParams n n') : SameParams n' n := fun x i => (h x i).symm

theorem SameParams.trans {n'' : Ptr → F} (h : SameParams n n') (h' : SameParams n' n'') :
    SameParams n n'' := fun x i => (h x i).trans (h' x i)

/-- Only activations are written. -/
theorem layerForward_outs {B : Nat} (l : Nat) :
    ∀ c ∈ layerForward config B T l, ∀ x ∈ c.outs B T, ∃ y, x.1.tensor = .act y := by
  simp only [layerForward_eq, List.forall_mem_cons, Call.outs]
  simp [part]

theorem headForward_outs {B : Nat} :
    ∀ c ∈ headForward config B T, ∀ x ∈ c.outs B T, ∃ y, x.1.tensor = .act y := by
  simp only [headForward, List.forall_mem_cons, Call.outs]
  simp [acts]

theorem gpt2Forward_outs {B : Nat} {c : Call} (hc : c ∈ gpt2Forward config B T) :
    ∀ x ∈ c.outs B T, ∃ y, x.1.tensor = .act y := by
  rcases mem_gpt2Forward hc with rfl | ⟨l, -, hc⟩ | hc
  · simp [Call.outs, acts]
  · exact layerForward_outs l c hc
  · exact headForward_outs c hc

theorem SameParams.step {c : Call} {m : Ptr → F}
    (hc : ∀ x ∈ c.outs 1 T, ∃ y, x.1.tensor = .act y) (hsame : SameParams m n)
    (h : c.Runs ops inputs T n n₁) : SameParams m n₁ := by
  intro x i
  rw [hsame x i, h.frame fun y hy hparam => ?_]
  obtain ⟨z, hz⟩ := hc y hy
  cases hparam.trans hz

theorem residualOf_tensor_ne {x : ActivationTensor} (hencoded : x ≠ .encoded)
    (hresidual3 : x ≠ .residual3) (T l : Nat) : (residualOf config 1 T l).tensor ≠ .act x := by
  cases l with
  | zero => exact fun h => hencoded (Tensor.act.inj h).symm
  | succ l => exact fun h => hresidual3 (Tensor.act.inj h).symm

/-- A layer norm with the weights of a layer. -/
theorem layernorm_part_agree {out mean rstd inp out' mean' rstd' inp' : Ptr}
    {weight bias : ParameterTensor} {C : Nat}
    (h : (Call.layernorm out mean rstd inp (part config 1 T (.param weight) l)
      (part config 1 T (.param bias) l) C).Runs ops inputs T n n₁)
    (h' : (Call.layernorm out' mean' rstd' inp' (part config 1 T' (.param weight) l)
      (part config 1 T' (.param bias) l) C).Runs ops inputs' T' n' n₁')
    (ht : t < T) (ht' : t < T') (hparams : SameParams n n')
    (hinp : Agree n n' inp inp' ((t + 1) * C)) : Agree n₁ n₁' out out' ((t + 1) * C) :=
  layernorm_agree h h' ht ht' hinp (fun k _ => hparams.elem config T T' weight l k)
    fun k _ => hparams.elem config T T' bias l k

/-- A matrix multiplication with the weights of a layer. -/
theorem matmul_part_agree {out inp out' inp' : Ptr} {weight bias : ParameterTensor} {C OC : Nat}
    (h : (Call.matmul out inp (part config 1 T (.param weight) l)
      (some (part config 1 T (.param bias) l)) C OC).Runs ops inputs T n n₁)
    (h' : (Call.matmul out' inp' (part config 1 T' (.param weight) l)
      (some (part config 1 T' (.param bias) l)) C OC).Runs ops inputs' T' n' n₁')
    (ht : t < T) (ht' : t < T') (hparams : SameParams n n')
    (hinp : Agree n n' inp inp' ((t + 1) * C)) : Agree n₁ n₁' out out' ((t + 1) * OC) :=
  matmul_agree h h' ht ht' hinp (fun k _ => hparams.elem config T T' weight l k)
    fun o _ => hparams.elem config T T' bias l o

/-- A call of a pass that started with the weights of `m`. -/
def PassStep (ops : FloatOps F) (inputs : Nat → Nat) (T : Nat) (m : Ptr → F) (c : Call)
    (n n₁ : Ptr → F) : Prop := c.Runs ops inputs T n n₁ ∧ SameParams m n₁

variable {m m' : Ptr → F}

theorem layer_agree (hheads : config.numHeads ∣ config.channels) (ht : t < T) (ht' : t < T')
    (hweights : SameParams m m')
    (h : Chain (PassStep ops inputs T m) (layerForward config 1 T l) n n₁)
    (h' : Chain (PassStep ops inputs' T' m') (layerForward config 1 T' l) n' n₁')
    (hn : SameParams m n) (hn' : SameParams m' n')
    (hresidual : Agree n n' (residualOf config 1 T l) (residualOf config 1 T' l)
      ((t + 1) * config.channels)) :
    SameParams m n₁ ∧ SameParams m' n₁' ∧ Agree n₁ n₁' (residualOf config 1 T (l + 1))
      (residualOf config 1 T' (l + 1)) ((t + 1) * config.channels) := by
  simp only [layerForward_eq, Chain] at h h'
  obtain ⟨a1, ⟨h1, p1⟩, a2, ⟨h2, -⟩, a3, ⟨h3, p3⟩, a4, ⟨h4, -⟩, a5, ⟨h5, p5⟩, a6, ⟨h6, p6⟩, a7,
    ⟨h7, -⟩, a8, ⟨h8, p8⟩, a9, ⟨h9, -⟩, _, ⟨h10, p10⟩, rfl⟩ := h
  obtain ⟨b1, ⟨h1', p1'⟩, b2, ⟨h2', -⟩, b3, ⟨h3', p3'⟩, b4, ⟨h4', -⟩, b5, ⟨h5', p5'⟩, b6,
    ⟨h6', p6'⟩, b7, ⟨h7', -⟩, b8, ⟨h8', p8'⟩, b9, ⟨h9', -⟩, _, ⟨h10', p10'⟩, rfl⟩ := h'
  have same : ∀ {a b : Ptr → F}, SameParams m a → SameParams m' b → SameParams a b :=
    fun ha hb => ha.symm.trans (hweights.trans hb)
  have hrows : ∀ {T}, t < T → (t + 1) * config.channels ≤ 1 * T * config.channels := fun h => by
    rw [Nat.one_mul]
    exact Nat.mul_le_mul_right _ h
  have hrows4 : ∀ {T}, t < T → (t + 1) * (4 * config.channels) ≤ 1 * T * 4 * config.channels :=
    fun h => by
      rw [Nat.one_mul, Nat.mul_assoc]
      exact Nat.mul_le_mul_right _ h
  -- attention; the residual stays in the meantime
  have ln1 := layernorm_part_agree h1 h1' ht ht' (same hn hn') hresidual
  have qkv := matmul_part_agree h2 h2' ht ht' (same p1 p1') ln1
  have atty := attention_agree h3 h3' hheads ht ht' (by rwa [Nat.mul_comm config.channels])
  have attproj := matmul_part_agree h4 h4' ht ht' (same p3 p3') atty
  have r1 := hresidual.frame h1 h1' (by simp [Call.outs, part, residualOf_tensor_ne])
    (by simp [Call.outs, part, residualOf_tensor_ne])
  have r2 := r1.frame h2 h2' (by simp [Call.outs, part, residualOf_tensor_ne])
    (by simp [Call.outs, part, residualOf_tensor_ne])
  have r3 := r2.frame h3 h3' (by simp [Call.outs, part, residualOf_tensor_ne])
    (by simp [Call.outs, part, residualOf_tensor_ne])
  have r4 := r3.frame h4 h4' (by simp [Call.outs, part, residualOf_tensor_ne])
    (by simp [Call.outs, part, residualOf_tensor_ne])
  have residual2 := residual_agree h5 h5' (hrows ht) (hrows ht') r4 attproj
  -- the two linear layers
  have ln2 := layernorm_part_agree h6 h6' ht ht' (same p5 p5') residual2
  have fch := matmul_part_agree h7 h7' ht ht' (same p6 p6') ln2
  have fch_gelu := gelu_agree h8 h8' (hrows4 ht) (hrows4 ht') fch
  have fcproj := matmul_part_agree h9 h9' ht ht' (same p8 p8') fch_gelu
  have r6 := residual2.frame h6 h6' (by simp [Call.outs, part]) (by simp [Call.outs, part])
  have r7 := r6.frame h7 h7' (by simp [Call.outs, part]) (by simp [Call.outs, part])
  have r8 := r7.frame h8 h8' (by simp [Call.outs, part]) (by simp [Call.outs, part])
  have r9 := r8.frame h9 h9' (by simp [Call.outs, part]) (by simp [Call.outs, part])
  have residual3 := residual_agree h10 h10' (hrows ht) (hrows ht') r9 fcproj
  rw [residualOf_succ, residualOf_succ]
  exact ⟨p10, p10', residual3⟩

/-- The layers one after another. -/
theorem layers_agree (hheads : config.numHeads ∣ config.channels) (ht : t < T) (ht' : t < T')
    (hweights : SameParams m m') (L : Nat)
    (h : Chain (PassStep ops inputs T m) ((List.range L).flatMap (layerForward config 1 T)) n n₁)
    (h' : Chain (PassStep ops inputs' T' m') ((List.range L).flatMap (layerForward config 1 T'))
      n' n₁')
    (hn : SameParams m n) (hn' : SameParams m' n')
    (hresidual : Agree n n' (residualOf config 1 T 0) (residualOf config 1 T' 0)
      ((t + 1) * config.channels)) :
    SameParams m n₁ ∧ SameParams m' n₁' ∧ Agree n₁ n₁' (residualOf config 1 T L)
      (residualOf config 1 T' L) ((t + 1) * config.channels) := by
  induction L generalizing n₁ n₁' with
  | zero =>
      obtain rfl : n = n₁ := h
      obtain rfl : n' = n₁' := h'
      exact ⟨hn, hn', hresidual⟩
  | succ L ih =>
      simp only [List.range_succ, List.flatMap_append, List.flatMap_singleton] at h h'
      obtain ⟨k, hlayers, hlayer⟩ := chain_append.mp h
      obtain ⟨k', hlayers', hlayer'⟩ := chain_append.mp h'
      obtain ⟨hk, hk', hresidual₁⟩ := ih hlayers hlayers'
      exact layer_agree hheads ht ht' hweights hlayer hlayer' hk hk' hresidual₁

/-- The weights stay the same through a pass. -/
theorem passSteps (h : Chain (Call.Runs ops inputs T) (gpt2Forward config 1 T) m n₁) :
    Chain (PassStep ops inputs T m) (gpt2Forward config 1 T) m n₁ :=
  Chain.invariant (fun _ hc _ _ hsame hrun => hsame.step (gpt2Forward_outs hc) hrun)
    (fun _ _ => rfl) h

/-- The whole pass. -/
theorem pass_agree (hheads : config.numHeads ∣ config.channels) (hL : 0 < config.numLayers)
    (ht : t < T) (ht' : t < T') (hagree : ∀ s ≤ t, inputs s = inputs' s)
    (htokens : ∀ k < T, inputs k < config.vocabSize)
    (htokens' : ∀ k < T', inputs' k < config.vocabSize) (hweights : SameParams m m')
    (h : Chain (Call.Runs ops inputs T) (gpt2Forward config 1 T) m n₁)
    (h' : Chain (Call.Runs ops inputs' T') (gpt2Forward config 1 T') m' n₁') :
    Agree n₁ n₁' (acts .logits) (acts .logits) ((t + 1) * config.vocabSize) ∧
      Agree n₁ n₁' (acts .probs) (acts .probs) ((t + 1) * config.vocabSize) := by
  obtain ⟨k, ⟨a, ⟨hencoder, p0⟩, hlayers⟩, hhead⟩ := chain_append.mp (passSteps h)
  obtain ⟨k', ⟨a', ⟨hencoder', p0'⟩, hlayers'⟩, hhead'⟩ := chain_append.mp (passSteps h')
  have encoded := encoder_agree hencoder hencoder' (by simp [acts, params])
    (by simp [acts, params]) ht ht' hagree htokens htokens' (fun k _ => hweights .wte _)
    fun k _ => hweights .wpe _
  obtain ⟨pk, pk', residual⟩ :=
    layers_agree hheads ht ht' hweights _ hlayers hlayers' p0 p0' encoded
  simp only [headForward_eq config 1 _ hL, Chain] at hhead hhead'
  obtain ⟨a1, ⟨h1, p1⟩, a2, ⟨h2, -⟩, _, ⟨h3, -⟩, rfl⟩ := hhead
  obtain ⟨b1, ⟨h1', p1'⟩, b2, ⟨h2', -⟩, _, ⟨h3', -⟩, rfl⟩ := hhead'
  have same : ∀ {a b : Ptr → F}, SameParams m a → SameParams m' b → SameParams a b :=
    fun ha hb => ha.symm.trans (hweights.trans hb)
  have lnf := layernorm_part_agree h1 h1' ht ht' (same pk pk') residual
  have logits := matmul_agree h2 h2' ht ht' lnf
    (fun k _ => (same p1 p1').elem config T T' .wte 0 k) fun _ _ => rfl
  have probs := softmax_agree h3 h3' ht ht' logits
  have logits₃ := logits.frame h3 h3' (by simp [Call.outs, part]) (by simp [Call.outs, part])
  rw [← acts_eq, ← acts_eq] at logits₃ probs
  exact ⟨logits₃, probs⟩

end Layers

/-! ### In the arenas -/

section Arenas

variable {config : GPT2Config} {inputs : Nat → Nat} {B T : Nat}

/-- The calls one after another, each run to its end in any interleaving of its threads. -/
def ForwardRuns (ops : FloatOps F) (config : GPT2Config) (inputs : Nat → Nat) (B T : Nat) :
    (Loc → F) → (Loc → F) → Prop :=
  Chain (fun c => Completes fun i => (c.threads ops inputs B T i).map (addr config B T))
    (gpt2Forward config B T)

theorem exists_forwardRuns (m : Loc → F) : ∃ m', ForwardRuns ops config inputs B T m m' :=
  exists_chain (fun _ => exists_completes _) _ m

/-- The elements of the tensors. -/
def tensorCells (config : GPT2Config) (T : Nat) : Set Ptr :=
  {a | a.index < tensorSize config 1 T a.tensor}

/-- The elements that a pass may write. -/
def actCells (config : GPT2Config) (T : Nat) : Set Ptr :=
  {a ∈ tensorCells config T | ∃ x, a.tensor = .act x}

theorem InLayer.cells {x : Ptr × Nat} (h : InLayer config 1 T x) :
    (extent x).cells ⊆ tensorCells config T := by
  obtain ⟨l, hl, -, hsubset⟩ := h.extent_subset
  exact fun a ha => index_lt_of_mem_layerCells config 1 T hl (hsubset ha)

/-- The embeddings of the tokens are in `wte`. -/
theorem gpt2Forward_tokens (htokens : ∀ k < T, inputs k < config.vocabSize) {c : Call}
    (hc : c ∈ gpt2Forward config 1 T) : c.tokens inputs 1 T ⊆ tensorCells config T := by
  have hlayer : ∀ l, ∀ c ∈ layerForward config 1 T l,
      c.tokens inputs 1 T ⊆ tensorCells config T := by
    simp [layerForward_eq, Call.tokens]
  have hhead : ∀ c ∈ headForward config 1 T, c.tokens inputs 1 T ⊆ tensorCells config T := by
    simp [headForward, Call.tokens]
  rcases mem_gpt2Forward hc with rfl | ⟨l, -, hc⟩ | hc
  · rintro a ⟨k, hk, i, hi, rfl⟩
    have hindex := rowIndex_lt (htokens k (Nat.one_mul T ▸ hk)) hi
    show 0 + (inputs k * config.channels + i) < tensorSize config 1 T (.param .wte)
    rwa [Nat.zero_add, tensorSize_eq, layers, Nat.one_mul]
  · exact hlayer l c hc
  · exact hhead c hc

/-- Everything a pass reads and writes. -/
theorem gpt2Forward_within (hL : 0 < config.numLayers) (hT : T ≤ config.maxSeqLen)
    (htokens : ∀ k < T, inputs k < config.vocabSize) {c : Call} (hc : c ∈ gpt2Forward config 1 T)
    (i : Fin (c.width T)) :
    (c.threads ops inputs 1 T i).Within (tensorCells config T) (actCells config T) := by
  have hcells : ∀ x ∈ c.outs 1 T ++ c.ins 1 T, (extent x).cells ⊆ tensorCells config T :=
    fun x hx => (gpt2Forward_inLayer hL Nat.zero_lt_one hT hc x hx).cells
  refine (threads_within ops inputs 1 T c i).mono ?_ ?_
  · rintro a (⟨y, hy, ha⟩ | ha)
    · obtain ⟨x, hx, rfl⟩ := List.mem_map.mp hy
      exact hcells x hx ha
    · exact gpt2Forward_tokens htokens hc ha
  · rintro a ⟨y, hy, ha⟩
    obtain ⟨x, hx, rfl⟩ := List.mem_map.mp hy
    obtain ⟨z, hz⟩ := gpt2Forward_outs hc x hx
    refine ⟨hcells x (List.mem_append_left _ hx) ha, z, ?_⟩
    obtain ⟨j, -, rfl⟩ := ha
    exact hz

/-- The parameters stay as they are. -/
theorem ForwardRuns.params (hL : 0 < config.numLayers) (hT : T ≤ config.maxSeqLen)
    (htokens : ∀ k < T, inputs k < config.vocabSize) {m m' : Loc → F}
    (h : ForwardRuns ops config inputs 1 T m m') (i : Nat) : m' (.params i) = m (.params i) := by
  have hnot : Loc.params i ∉ addr config 1 T '' actCells config T := by
    rintro ⟨⟨y, j⟩, ⟨-, x, rfl⟩, heq⟩
    cases heq
  have hstep : ∀ c ∈ gpt2Forward config 1 T, ∀ m₁ m₂ : Loc → F, m₁ (.params i) = m (.params i) →
      Completes (fun i => (c.threads ops inputs 1 T i).map (addr config 1 T)) m₁ m₂ →
        m₂ (.params i) = m (.params i) := fun c hc m₁ m₂ hsame hrun =>
    (hrun.frame (fun i => (gpt2Forward_within hL hT htokens hc i).map _) hnot).trans hsame
  exact Chain.preserves hstep rfl h

/-- A pass in the arenas is a pass on the tensors. -/
theorem ForwardRuns.tensors (hL : 0 < config.numLayers) (hT : T ≤ config.maxSeqLen)
    (htokens : ∀ k < T, inputs k < config.vocabSize) {n : Ptr → F} {m m' : Loc → F}
    (hrep : Represents (tensorCells config T) (addr config 1 T) n m)
    (h : ForwardRuns ops config inputs 1 T m m') :
    ∃ n', Chain (Call.Runs ops inputs T) (gpt2Forward config 1 T) n n' ∧
      Represents (tensorCells config T) (addr config 1 T) n' m' := by
  refine Chain.simulate (fun c hc n m m' hrep hrun => ?_) hrep h
  have hinj : ∀ a ∈ actCells config T, ∀ b ∈ tensorCells config T,
      addr config 1 T a = addr config 1 T b → a = b :=
    fun a ha b hb => addr_inj config 1 T ha.1 hb
  obtain ⟨n', hcompletes, hrep'⟩ :=
    Completes.of_map hinj (gpt2Forward_within hL hT htokens hc) hrep hrun
  exact ⟨n', ⟨gpt2Forward_tensors hc, hcompletes⟩, hrep'⟩

/-- The tensors that are placed in a memory. -/
theorem represents_addr (m : Loc → F) :
    Represents (tensorCells config T) (addr config 1 T) (fun a => m (addr config 1 T a)) m :=
  fun _ _ => rfl

/-- The parameters of one memory with the activations of another. -/
def withParams (m n : Ptr → F) (a : Ptr) : F :=
  match a.tensor with
  | .param _ => m a
  | .act _ => n a

/-- Of two memories with the same parameters in their arenas, the second holds the weights of the
first. -/
theorem exists_sameParams {m n : Loc → F}
    (hweights : ∀ i < (paramSizes config).sum, m (.params i) = n (.params i)) (T T' : Nat) :
    ∃ n₀, SameParams (fun a => m (addr config 1 T a)) n₀ ∧
      Represents (tensorCells config T') (addr config 1 T') n₀ n := by
  refine ⟨withParams (fun a => m (addr config 1 T a)) fun a => n (addr config 1 T' a),
    fun _ _ => rfl, ?_⟩
  rintro ⟨y, i⟩ ha
  cases y with
  | act x => rfl
  | param x =>
      have hallocated := tensorSlice_allocated config 1 T' (x := .param x) ⟨i, ha, rfl⟩
      exact (hweights _ hallocated).symm

/-- Row `s` of the logits and probabilities is in the arena. -/
theorem row_mem_tensorCells {x : ActivationTensor} (hx : x = .logits ∨ x = .probs) {s v : Nat}
    (hs : s < T) (hv : v < config.vocabSize) :
    acts x + (s * config.vocabSize + v) ∈ tensorCells config T := by
  have hindex : 0 + (s * config.vocabSize + v) < 1 * (1 * T * config.vocabSize) := by
    rw [Nat.zero_add, Nat.one_mul, Nat.one_mul]
    exact rowIndex_lt hs hv
  show 0 + (s * config.vocabSize + v) < tensorSize config 1 T (.act x)
  rw [tensorSize_eq]
  rcases hx with rfl | rfl
  · exact hindex
  · exact hindex

variable {inputs' : Nat → Nat} {N T' t : Nat} {m m' n n' : Loc → F}

/-- Passes with the same weights over tokens that agree up to `t`. -/
theorem ForwardRuns.agree (hconfig : config.Supports N) (hT : T ≤ N) (hT' : T' ≤ N) (ht : t < T)
    (ht' : t < T') (hagree : ∀ s ≤ t, inputs s = inputs' s)
    (htokens : ∀ k < T, inputs k < config.vocabSize)
    (htokens' : ∀ k < T', inputs' k < config.vocabSize)
    (hweights : ∀ i < (paramSizes config).sum, m (.params i) = n (.params i))
    (h : ForwardRuns ops config inputs 1 T m m') (h' : ForwardRuns ops config inputs' 1 T' n n') :
    ∀ x, x = .logits ∨ x = .probs → ∀ s ≤ t, ∀ v < config.vocabSize,
      m' (addr config 1 T (acts x + (s * config.vocabSize + v))) =
        n' (addr config 1 T' (acts x + (s * config.vocabSize + v))) := by
  intro x hx s hs v hv
  obtain ⟨n₀, hsame, hn₀⟩ := exists_sameParams hweights T T'
  obtain ⟨m₁, hpass, hrep⟩ := h.tensors hconfig.layers (Nat.le_trans hT hconfig.positions) htokens
    (represents_addr m)
  obtain ⟨n₁, hpass', hrep'⟩ :=
    h'.tensors hconfig.layers (Nat.le_trans hT' hconfig.positions) htokens' hn₀
  obtain ⟨hlogits, hprobs⟩ := pass_agree hconfig.dvd hconfig.layers ht ht' hagree htokens htokens'
    hsame hpass hpass'
  have hindex : s * config.vocabSize + v < (t + 1) * config.vocabSize :=
    rowIndex_lt (Nat.lt_succ_iff.mpr hs) hv
  rw [hrep _ (row_mem_tensorCells hx (Nat.lt_of_le_of_lt hs ht) hv),
    hrep' _ (row_mem_tensorCells hx (Nat.lt_of_le_of_lt hs ht') hv)]
  rcases hx with rfl | rfl
  · exact hlogits _ hindex
  · exact hprobs _ hindex

end Arenas

/-- **Causality**, for the configurations that the pass supports: passes over tokens that agree up
to `t` compute the same rows of the logits and the probabilities up to `t`, if the
arenas of the parameters are the same, whatever those of the activations held before. -/
theorem causality {config : GPT2Config} {T T' t : Nat} (hconfig : config.Supports T') (ht : t < T)
    (hT : T ≤ T') {inputs inputs' : Nat → Nat} (hagree : ∀ s ≤ t, inputs s = inputs' s)
    (htokens : ∀ k < T, inputs k < config.vocabSize)
    (htokens' : ∀ k < T', inputs' k < config.vocabSize) {m n : Loc → F}
    (hweights : ∀ i < (paramSizes config).sum, m (.params i) = n (.params i)) :
    (∃ m', ForwardRuns ops config inputs 1 T m m') ∧
    (∃ n', ForwardRuns ops config inputs' 1 T' n n') ∧
    ∀ m' n', ForwardRuns ops config inputs 1 T m m' → ForwardRuns ops config inputs' 1 T' n n' →
      ∀ x, x = .logits ∨ x = .probs → ∀ s ≤ t, ∀ v < config.vocabSize,
        m' (addr config 1 T (acts x + (s * config.vocabSize + v))) =
          n' (addr config 1 T' (acts x + (s * config.vocabSize + v))) :=
  ⟨exists_forwardRuns m, exists_forwardRuns n, fun _ _ hrun hrun' =>
    hrun.agree hconfig hT (Nat.le_refl T') ht (Nat.lt_of_lt_of_le ht hT) hagree htokens htokens'
      hweights hrun'⟩

/-- Two tokens, and the same two before a third. -/
theorem causality_two :
    (∃ m', ForwardRuns floatOps ⟨4, 5, 2, 2, 4⟩ (fun _ => 0) 1 2 (fun _ => 0) m') ∧
    (∃ n', ForwardRuns floatOps ⟨4, 5, 2, 2, 4⟩ (fun s => s / 2) 1 3 (fun _ => 0) n') ∧
    ∀ m' n', ForwardRuns floatOps ⟨4, 5, 2, 2, 4⟩ (fun _ => 0) 1 2 (fun _ => 0) m' →
      ForwardRuns floatOps ⟨4, 5, 2, 2, 4⟩ (fun s => s / 2) 1 3 (fun _ => 0) n' →
      ∀ x, x = .logits ∨ x = .probs → ∀ s ≤ 1, ∀ v < 5,
        m' (addr ⟨4, 5, 2, 2, 4⟩ 1 2 (acts x + (s * 5 + v))) =
          n' (addr ⟨4, 5, 2, 2, 4⟩ 1 3 (acts x + (s * 5 + v))) :=
  causality ⟨by decide, by decide, by decide, by decide, by decide⟩ (by decide) (by decide)
    (by decide) (by decide) (by decide) fun _ _ => rfl

section Counterexample

/-- Heads of no size leave the output as it was. -/
theorem attention_frame {F : Type} {ops : FloatOps F} {inputs : Nat → Nat} {T C NH : Nat}
    {out preatt att inp : Ptr} {n n₁ : Ptr → F}
    (h : (Call.attention out preatt att inp C NH).Runs ops inputs T n n₁) (hC : C < NH) {a : Ptr}
    (hpreatt : a.tensor ≠ preatt.tensor) (hatt : a.tensor ≠ att.tensor) : n₁ a = n a := by
  have hwithin : ∀ i, ((Call.attention out preatt att inp C NH).threads ops inputs 1 T i).Within
      Set.univ {a | a.tensor = preatt.tensor ∨ a.tensor = att.tensor} := by
    intro i
    have hi : i.val < T := i.isLt
    refine within_forEach fun h hh => attentionHead_within hh (fun _ _ _ _ => trivial)
      (fun _ _ => ⟨trivial, .inl rfl⟩) (fun _ _ => ⟨trivial, .inr rfl⟩) hi fun j hj => ?_
    rw [Nat.div_eq_of_lt hC] at hj
    exact absurd hj (Nat.not_lt_zero j)
  exact h.completes.frame hwithin (not_or.mpr ⟨hpreatt, hatt⟩)

/-- Bits; addition is exclusive or. -/
def boolOps : FloatOps Bool where
  add := xor
  sub x _ := x
  mul := and
  div x _ := x
  sqrtf := id
  expf := id
  tanhf := id
  recip := id
  gt x y := x && !y
  eq x y := x == y
  ofInt _ := true
  zero := false
  one := true
  eps := false
  lowest := false
  half := false
  cubeFactor := true
  geluScaling := true

/-- One layer with two heads for one channel. -/
def oneChannel : GPT2Config := ⟨1, 1, 1, 2, 1⟩

/-- Weights of one, and activations that hold `b` before the pass. -/
def before (b : Bool) : Loc → Bool
  | .params _ => true
  | .acts _ => b

section OneChannel

variable {b x : Bool} {m n n₁ : Ptr → Bool} {tokens : Nat → Nat}

theorem matmul_ones {out inp weight : Ptr} {bias : Option Ptr} {C : Nat}
    (h : (Call.matmul out inp weight bias C 1).Runs boolOps tokens 1 n n₁)
    (hinp : ∀ i < C, n (inp.elem i) = x) (hweight : ∀ i, n (weight.elem i) = true)
    (hbias : ∀ p ∈ bias, n p = true) :
    n₁ out = matmulRow boolOps C (fun _ => x) (fun _ => true) (bias.map fun _ _ => true) 0 := by
  have hbias' : ((bias.map fun p o => n (p.elem o)).elim boolOps.zero fun f => f 0) =
      (bias.map fun _ _ => true).elim boolOps.zero fun f => f 0 := by
    cases bias with
    | none => rfl
    | some p => exact hbias p rfl
  have hrow : n₁ out = matmulRow boolOps C (fun i => n (inp.elem (0 * C + i)))
      (fun j => n (weight.elem j)) (bias.map fun p o => n (p.elem o)) 0 :=
    matmul_row h Nat.zero_lt_one Nat.zero_lt_one
  rw [hrow]
  refine matmulRow_congr (fun i hi => ?_) (fun i _ => hweight i) hbias' Nat.zero_lt_one
  rw [Nat.zero_mul, Nat.zero_add]
  exact hinp i hi

theorem elem_of_lt_one {p : Ptr} (h : n p = x) : ∀ i < 1, n (p.elem i) = x := by
  intro i hi
  obtain rfl := Nat.lt_one_iff.mp hi
  exact h

theorem SameParams.ones (h : SameParams m n) (hm : ∀ x i, m ⟨.param x, i⟩ = true)
    (x : ParameterTensor) (i : Nat) : n ⟨.param x, i⟩ = true := (h x i).symm.trans (hm x i)

/-- The layer copies what was in `atty`: attention leaves it, and nothing else is added. -/
theorem oneChannel_layer (hm : ∀ x i, m ⟨.param x, i⟩ = true)
    (h : Chain (PassStep boolOps tokens 1 m) (layerForward oneChannel 1 1 0) n n₁)
    (hencoded : n (acts .encoded) = false) (hatty : n (acts .atty) = b) :
    SameParams m n₁ ∧ n₁ (acts .residual3) = b := by
  simp only [layerForward_eq, Chain] at h
  obtain ⟨a₁, ⟨h1, -⟩, a₂, ⟨h2, -⟩, a₃, ⟨h3, p3⟩, a₄, ⟨h4, -⟩, a₅, ⟨h5, -⟩, a₆, ⟨h6, -⟩,
    a₇, ⟨h7, -⟩, a₈, ⟨h8, p8⟩, a₉, ⟨h9, -⟩, _, ⟨h10, p10⟩, rfl⟩ := h
  have atty : a₃ (acts .atty) = b := calc
    a₃ (acts .atty) = a₂ (acts .atty) :=
      attention_frame h3 (by decide) (by simp [part, acts]) (by simp [part, acts])
    _ = a₁ (acts .atty) := h2.frame (by simp [Call.outs, part, acts])
    _ = n (acts .atty) := h1.frame (by simp [Call.outs, part, acts])
    _ = b := hatty
  have attproj : a₄ (acts .attproj) = !b := by
    refine (matmul_ones h4 (elem_of_lt_one atty) (fun _ => p3.ones hm _ _) ?_).trans ?_
    · rintro _ ⟨⟩
      exact p3.ones hm _ _
    · cases b <;> rfl
  have encoded : a₄ (acts .encoded) = false := calc
    a₄ (acts .encoded) = a₃ (acts .encoded) := h4.frame (by simp [Call.outs, part, acts])
    _ = a₂ (acts .encoded) := h3.frame (by simp [Call.outs, part, acts])
    _ = a₁ (acts .encoded) := h2.frame (by simp [Call.outs, part, acts])
    _ = n (acts .encoded) := h1.frame (by simp [Call.outs, part, acts])
    _ = false := hencoded
  have residual2 : a₉ (acts .residual2) = !b := calc
    a₉ (acts .residual2) = a₈ (acts .residual2) := h9.frame (by simp [Call.outs, part, acts])
    _ = a₇ (acts .residual2) := h8.frame (by simp [Call.outs, part, acts])
    _ = a₆ (acts .residual2) := h7.frame (by simp [Call.outs, part, acts])
    _ = a₅ (acts .residual2) := h6.frame (by simp [Call.outs, part, acts])
    _ = xor (a₄ (acts .encoded)) (a₄ (acts .attproj)) := residual_row h5 (k := 0) Nat.zero_lt_one
    _ = !b := by rw [encoded, attproj, Bool.false_xor]
  have fcproj : a₉ (acts .fcproj) = true := by
    refine (matmul_ones h9 (fun _ hi => gelu_row h8 hi) (fun _ => p8.ones hm _ _) ?_).trans rfl
    rintro _ ⟨⟩
    exact p8.ones hm _ _
  refine ⟨p10, ?_⟩
  calc
    _ = xor (a₉ (acts .residual2)) (a₉ (acts .fcproj)) := residual_row h10 (k := 0) Nat.zero_lt_one
    _ = b := by rw [residual2, fcproj, Bool.xor_true, Bool.not_not]

theorem oneChannel_head (hm : ∀ x i, m ⟨.param x, i⟩ = true)
    (h : Chain (PassStep boolOps tokens 1 m) (headForward oneChannel 1 1) n n₁)
    (hn : SameParams m n) (hresidual3 : n (acts .residual3) = b) :
    n₁ (acts .logits) = !b := by
  simp only [headForward_eq oneChannel 1 1 Nat.zero_lt_one, Chain] at h
  obtain ⟨a₁, ⟨h1, p1⟩, a₂, ⟨h2, -⟩, _, ⟨h3, -⟩, rfl⟩ := h
  have lnf : a₁ (acts .lnf) = !b := calc
    a₁ (acts .lnf) = layernormRow boolOps 1 (fun _ => b) (fun _ => true) (fun _ => true) 0 :=
      (layernorm_row h1 (s := 0) (i := 0) Nat.zero_lt_one Nat.zero_lt_one).trans
        (layernormRow_congr (elem_of_lt_one hresidual3) (fun _ _ => hn.ones hm _ _)
          (fun _ _ => hn.ones hm _ _) Nat.zero_lt_one)
    _ = !b := by cases b <;> rfl
  have logits : a₂ (acts .logits) = !b := by
    refine (matmul_ones h2 (elem_of_lt_one lnf) (fun i => p1.ones hm _ _) nofun).trans ?_
    cases b <;> rfl
  exact (h3.frame (by simp [Call.outs, part, acts])).trans logits

/-- What the arena held before is in the logits. -/
theorem oneChannel_logits {m' : Loc → Bool}
    (h : ForwardRuns boolOps oneChannel (fun _ => 0) 1 1 (before b) m') :
    m' (addr oneChannel 1 1 (acts .logits)) = !b := by
  obtain ⟨n', hpass, hrep⟩ := h.tensors Nat.zero_lt_one Nat.zero_lt_one
    (fun _ _ => Nat.zero_lt_one) (represents_addr _)
  have hcell : m' (addr oneChannel 1 1 (acts .logits)) = n' (acts .logits) :=
    hrep _ (@row_mem_tensorCells oneChannel 1 .logits (.inl rfl) 0 0 Nat.zero_lt_one
      Nat.zero_lt_one)
  have hlist : gpt2Forward oneChannel 1 1 =
      .encoder (acts .encoded) (params .wte) (params .wpe) 1 ::
        (layerForward oneChannel 1 1 0 ++ headForward oneChannel 1 1) := rfl
  have hsteps := passSteps hpass
  rw [hlist] at hsteps
  obtain ⟨n₁, ⟨hencoder, -⟩, hrest⟩ := hsteps
  obtain ⟨n₂, hlayer, hhead⟩ := chain_append.mp hrest
  have hencoded : n₁ (acts .encoded) = false :=
    @encoder_row Bool boolOps (fun _ => 0) 1 _ n₁ _ _ _ 1 1 hencoder (by decide) (by decide) 0 0
      Nat.zero_lt_one Nat.zero_lt_one
  have hatty : n₁ (acts .atty) = b := hencoder.frame (by simp [Call.outs, acts])
  obtain ⟨hsame, hresidual3⟩ := oneChannel_layer (fun _ _ => rfl) hlayer hencoded hatty
  rw [hcell]
  exact oneChannel_head (fun _ _ => rfl) hhead hsame hresidual3

end OneChannel

/-- Two passes over the same token with the same weights, which differ in what the arena of
the activations held before, leave different logits. -/
theorem unwritten_head_read :
    ∃ m' n', ForwardRuns boolOps oneChannel (fun _ => 0) 1 1 (before false) m' ∧
      ForwardRuns boolOps oneChannel (fun _ => 0) 1 1 (before true) n' ∧
      (∀ i, before false (.params i) = before true (.params i)) ∧
      m' (addr oneChannel 1 1 (acts .logits)) ≠ n' (addr oneChannel 1 1 (acts .logits)) := by
  obtain ⟨m', hrun⟩ := @exists_forwardRuns Bool boolOps oneChannel (fun _ => 0) 1 1 (before false)
  obtain ⟨n', hrun'⟩ := @exists_forwardRuns Bool boolOps oneChannel (fun _ => 0) 1 1 (before true)
  refine ⟨m', n', hrun, hrun', fun _ => rfl, ?_⟩
  rw [oneChannel_logits hrun, oneChannel_logits hrun']
  decide

end Counterexample

end NjuOs.Gpt
