import NjuOs.Lib.Slice
import Mathlib.Tactic.Ring

/-!
The parameters and activations of a model in their two arenas.

A pointer to an element is given by its tensor and its index there (`Ptr`); `addr` is
the place in the arena that this stands for. The `int` products are exact, as they are
as long as the sizes of the tensors fit in an `int`: an offset is at most the size of
its tensor.
-/

namespace NjuOs.Gpt

open NjuOs.Lib

structure GPT2Config where
  maxSeqLen : Nat
  vocabSize : Nat
  numLayers : Nat
  numHeads : Nat
  channels : Nat

inductive ParameterTensor where
  | wte | wpe | ln1w | ln1b | qkvw | qkvb | attprojw | attprojb | ln2w | ln2b | fcw | fcb
  | fcprojw | fcprojb | lnfw | lnfb
  deriving DecidableEq

inductive ActivationTensor where
  | encoded | ln1 | ln1_mean | ln1_rstd | qkv | atty | preatt | att | attproj | residual2 | ln2
  | ln2_mean | ln2_rstd | fch | fch_gelu | fcproj | residual3 | lnf | lnf_mean | lnf_rstd | logits
  | probs | losses
  deriving DecidableEq

inductive Tensor where
  | param (x : ParameterTensor)
  | act (x : ActivationTensor)
  deriving DecidableEq

/-! ### The arenas -/

section Sizes

variable (config : GPT2Config) (B T : Nat)

def paramSizes : List Nat :=
  let maxT := config.maxSeqLen
  let V := config.vocabSize
  let L := config.numLayers
  let C := config.channels
  [V * C, maxT * C, L * C, L * C, L * (3 * C) * C, L * (3 * C), L * C * C, L * C, L * C, L * C,
    L * (4 * C) * C, L * (4 * C), L * C * (4 * C), L * C, C, C]

def paramPtrs : List ParameterTensor :=
  [.wte, .wpe, .ln1w, .ln1b, .qkvw, .qkvb, .attprojw, .attprojb, .ln2w, .ln2b, .fcw, .fcb,
    .fcprojw, .fcprojb, .lnfw, .lnfb]

/-- Products of `int`s in the source; `GPT2Config.Supports` asks that they fit. -/
def actSizes : List Nat :=
  let V := config.vocabSize
  let L := config.numLayers
  let NH := config.numHeads
  let C := config.channels
  [B * T * C, L * B * T * C, L * B * T, L * B * T, L * B * T * 3 * C, L * B * T * C,
    L * B * NH * T * T, L * B * NH * T * T, L * B * T * C, L * B * T * C, L * B * T * C, L * B * T,
    L * B * T, L * B * T * 4 * C, L * B * T * 4 * C, L * B * T * C, L * B * T * C, B * T * C, B * T,
    B * T, B * T * V, B * T * V, B * T]

def actPtrs : List ActivationTensor :=
  [.encoded, .ln1, .ln1_mean, .ln1_rstd, .qkv, .atty, .preatt, .att, .attproj, .residual2, .ln2,
    .ln2_mean, .ln2_rstd, .fch, .fch_gelu, .fcproj, .residual3, .lnf, .lnf_mean, .lnf_rstd, .logits,
    .probs, .losses]

/-- What a pass over up to `T` tokens needs: a layer, heads that divide the channels, an embedding
for each position, and tensors whose sizes fit in an `int`. -/
structure GPT2Config.Supports : Prop where
  layers : 0 < config.numLayers
  heads : 0 < config.numHeads
  dvd : config.numHeads ∣ config.channels
  positions : T ≤ config.maxSeqLen
  sizes : ∀ n ∈ paramSizes config ++ actSizes config 1 T, n < 2 ^ 31

/-- Where each tensor starts in the arena of the parameters. -/
def mallocAndPointParameters : ParameterTensor → Nat :=
  layOut paramPtrs (paramSizes config) 0 fun _ => 0

/-- Where each tensor starts in the arena of the activations. -/
def mallocAndPointActivations : ActivationTensor → Nat :=
  layOut actPtrs (actSizes config B T) 0 fun _ => 0

def tensorSize : Tensor → Nat
  | .param x => extentOf paramPtrs (paramSizes config) x
  | .act x => extentOf actPtrs (actSizes config B T) x

end Sizes

/-- An element of a tensor. -/
structure Ptr where
  tensor : Tensor
  index : Nat
  deriving DecidableEq

instance : HAdd Ptr Nat Ptr := ⟨fun p i => { p with index := p.index + i }⟩

@[simp] theorem Ptr.add_mk (x : Tensor) (i j : Nat) : (⟨x, i⟩ : Ptr) + j = ⟨x, i + j⟩ := rfl

/-- A place in one of the arenas. -/
inductive Loc where
  | params (i : Nat)
  | acts (i : Nat)
  deriving DecidableEq

def addr (config : GPT2Config) (B T : Nat) : Ptr → Loc
  | ⟨.param x, i⟩ => .params (mallocAndPointParameters config x + i)
  | ⟨.act x, i⟩ => .acts (mallocAndPointActivations config B T x + i)

/-- What `malloc` returned. -/
def Allocated (config : GPT2Config) (B T : Nat) : Loc → Prop
  | .params i => i < (paramSizes config).sum
  | .acts i => i < (actSizes config B T).sum

theorem GPT2Config.Supports.vocabSize_lt {config : GPT2Config} {T : Nat} (h : config.Supports T)
    (hT : 0 < T) : config.vocabSize < 2 ^ 31 := by
  have hlogits : 1 * T * config.vocabSize < 2 ^ 31 :=
    h.sizes _ (List.mem_append_right _ (by simp [actSizes]))
  rw [Nat.one_mul] at hlogits
  exact Nat.lt_of_le_of_lt (Nat.le_mul_of_pos_left _ hT) hlogits

section Tensors

variable (config : GPT2Config) (B T : Nat)

theorem mem_paramPtrs (x : ParameterTensor) : x ∈ paramPtrs := by
  cases x <;> simp [paramPtrs]

theorem mem_actPtrs (x : ActivationTensor) : x ∈ actPtrs := by
  cases x <;> simp [actPtrs]

theorem nodup_paramPtrs : paramPtrs.Nodup := by decide

theorem nodup_actPtrs : actPtrs.Nodup := by decide

/-- The slice of the arena that a tensor has. -/
def tensorSlice (x : Tensor) : Slice Loc :=
  ⟨fun i => addr config B T ⟨x, i⟩, tensorSize config B T x⟩

/-- Two elements of tensors are at different places. -/
theorem addr_inj {p q : Ptr} (hp : p.index < tensorSize config B T p.tensor)
    (hq : q.index < tensorSize config B T q.tensor) (h : addr config B T p = addr config B T q) :
    p = q := by
  obtain ⟨x, i⟩ := p
  obtain ⟨y, j⟩ := q
  cases x with
  | param x =>
      cases y with
      | act y => cases h
      | param y =>
          have hij := Loc.params.inj h
          by_cases hxy : x = y
          · subst hxy
            rw [Nat.add_left_cancel hij]
          · have hapart := layOut_apart nodup_paramPtrs (by rfl : _ = (paramSizes config).length) 0
              (fun _ => 0) (mem_paramPtrs x) (mem_paramPtrs y) hxy
            simp only [mallocAndPointParameters, tensorSize] at hij hp hq
            omega
  | act x =>
      cases y with
      | param y => cases h
      | act y =>
          have hij := Loc.acts.inj h
          by_cases hxy : x = y
          · subst hxy
            rw [Nat.add_left_cancel hij]
          · have hapart := layOut_apart nodup_actPtrs (by rfl : _ = (actSizes config B T).length) 0
              (fun _ => 0) (mem_actPtrs x) (mem_actPtrs y) hxy
            simp only [mallocAndPointActivations, tensorSize] at hij hp hq
            omega

theorem tensorSlice_disjoint {x y : Tensor} (h : x ≠ y) :
    Disjoint (tensorSlice config B T x).cells (tensorSlice config B T y).cells := by
  rw [Set.disjoint_left]
  rintro a ⟨i, hi, rfl⟩ ⟨j, hj, heq⟩
  exact h (congrArg Ptr.tensor (addr_inj config B T hj hi heq)).symm

theorem tensorSlice_allocated {x : Tensor} {a : Loc} (h : a ∈ (tensorSlice config B T x).cells) :
    Allocated config B T a := by
  obtain ⟨i, hi, rfl⟩ := h
  cases x with
  | param x =>
      have hbounds := layOut_bounds nodup_paramPtrs (by rfl : _ = (paramSizes config).length) 0
        (fun _ => 0) (mem_paramPtrs x)
      have hlt : i < extentOf paramPtrs (paramSizes config) x := hi
      show mallocAndPointParameters config x + i < _
      simp only [mallocAndPointParameters]
      omega
  | act x =>
      have hbounds := layOut_bounds nodup_actPtrs (by rfl : _ = (actSizes config B T).length) 0
        (fun _ => 0) (mem_actPtrs x)
      have hlt : i < extentOf actPtrs (actSizes config B T) x := hi
      show mallocAndPointActivations config B T x + i < _
      simp only [mallocAndPointActivations]
      omega

end Tensors

/-! ### Layers -/

section Layers

variable (config : GPT2Config) (B T : Nat)

/-- The number of layers that have a part of the tensor. -/
def layers : Tensor → Nat
  | .param .wte | .param .wpe | .param .lnfw | .param .lnfb => 1
  | .act .encoded | .act .lnf | .act .lnf_mean | .act .lnf_rstd => 1
  | .act .logits | .act .probs | .act .losses => 1
  | _ => config.numLayers

/-- The shape of one layer's part. -/
def layerSize (x : Tensor) : Nat :=
  let maxT := config.maxSeqLen
  let V := config.vocabSize
  let NH := config.numHeads
  let C := config.channels
  match x with
  | .param .wte => V * C
  | .param .wpe => maxT * C
  | .param .qkvw => 3 * C * C
  | .param .qkvb => 3 * C
  | .param .attprojw => C * C
  | .param .fcw => 4 * C * C
  | .param .fcb => 4 * C
  | .param .fcprojw => C * (4 * C)
  | .param _ => C
  | .act .qkv => B * T * (3 * C)
  | .act .preatt | .act .att => B * NH * T * T
  | .act .fch | .act .fch_gelu => B * T * (4 * C)
  | .act .ln1_mean | .act .ln1_rstd | .act .ln2_mean | .act .ln2_rstd => B * T
  | .act .lnf_mean | .act .lnf_rstd | .act .losses => B * T
  | .act .logits | .act .probs => B * T * V
  | .act _ => B * T * C

theorem tensorSize_eq (x : Tensor) :
    tensorSize config B T x = layers config x * layerSize config B T x := by
  cases x with
  | param x =>
      cases x <;> simp [tensorSize, extentOf, paramPtrs, paramSizes, layers, layerSize] <;> ring
  | act x =>
      cases x <;> simp [tensorSize, extentOf, actPtrs, actSizes, layers, layerSize] <;> ring

/-- The elements of layer `l` of a tensor. -/
def layerCells (x : Tensor) (l : Nat) : Set Ptr :=
  {a | a.tensor = x ∧ l * layerSize config B T x ≤ a.index ∧
    a.index < (l + 1) * layerSize config B T x}

/-- Layers lie in their tensors. -/
theorem index_lt_of_mem_layerCells {x : Tensor} {l : Nat} (hl : l < layers config x) {a : Ptr}
    (ha : a ∈ layerCells config B T x l) : a.index < tensorSize config B T a.tensor := by
  obtain ⟨rfl, -, hlt⟩ := ha
  rw [tensorSize_eq]
  exact Nat.lt_of_lt_of_le hlt (Nat.mul_le_mul_right _ hl)

end Layers

end NjuOs.Gpt
