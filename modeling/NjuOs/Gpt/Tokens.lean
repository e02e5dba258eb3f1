import NjuOs.Lib.Scanf
import NjuOs.Gpt.Interleave

/-!
Which tokens reach the embeddings.

The first tokens are those of the command line, read by `strtol` and not checked; the
others are sampled. What `gpt2_forward` computes is a parameter: `sampleMult_valid` holds
of any probabilities. `tokens_in_vocabulary_iff` follows the tokens through all passes.
-/

namespace NjuOs.Gpt

open NjuOs.Lib

/-! ### The command line -/

/-- `strtol(text, NULL, 10)` -/
def strtol (text : Bytes) : Int :=
  let value : Int :=
    match text.dropWhile isSpace with
    | 0x2D :: rest => -digitsValue (rest.takeWhile isDecimalDigit)
    | 0x2B :: rest => digitsValue (rest.takeWhile isDecimalDigit)
    | rest => digitsValue (rest.takeWhile isDecimalDigit)
  max (-2 ^ 63) (min value (2 ^ 63 - 1))

/-- The conversion of a `long` to an `int`. -/
def toInt (x : Int) : Int := x.bmod (2 ^ 32)

example : toInt (strtol (ascii " -7x")) = -7 ∧ toInt (strtol (ascii "4294967301")) = 5 := by decide

/-- `n` of `main` -/
def tokenLimit : Nat := 20

/-- `GPT2_EOT` -/
def gpt2Eot : Int := 50256

/-- `tokens` before the first pass; `args` are the arguments behind the program's name. -/
def initialTokens (args : List Bytes) (i : Nat) : Int :=
  match args[i]? with
  | some arg => toInt (strtol arg)
  | none => gpt2Eot

/-! ### Generation -/

variable {F : Type} (ops : FloatOps F)

/-- The loop of `sample_mult` over the indices that are left. -/
def sampleLoop (probabilities : Nat → F) (last : Int) : List Nat → F → Int
  | [], _ => last
  | i :: is, cdf =>
      let cdf := ops.add cdf (probabilities i)
      if ops.gt cdf ops.half then i else sampleLoop probabilities last is cdf

def sampleMult (probabilities : Nat → F) (n : Nat) : Int :=
  sampleLoop ops probabilities (n - 1) (List.range n) ops.zero

/-- A call of `gpt2_forward`. -/
structure Pass where
  inputs : Nat → Int
  T : Nat

/-- The ids with which `encoder_forward` indexes `wte`. -/
def encoderIds (inp : Nat → Int) (B T : Nat) : List Int :=
  (List.range B).flatMap fun b => (List.range T).map fun t => inp (b * T + t)

section Main

variable (V : Nat) (forward : Pass → Nat → F)

/-- The loop from `t` on, `steps` times; `forward` is what a pass leaves in `acts.probs`. -/
def generate : Nat → Nat → (Nat → Int) → List Pass
  | 0, _, _ => []
  | steps + 1, t, tokens =>
      let pass : Pass := ⟨tokens, t⟩
      let nextToken := sampleMult ops (fun i => forward pass ((t - 1) * V + i)) V
      pass :: generate steps (t + 1) (Function.update tokens t nextToken)

/-- The passes of a run; `none` when `main` exits. -/
def main (args : List Bytes) : Option (List Pass) :=
  let argc := args.length + 1
  if argc = 1 then none
  else if argc > tokenLimit then none
  else some (generate ops V forward (tokenLimit - (argc - 1)) (argc - 1) (initialTokens args))

end Main

/-! ### The vocabulary -/

def InVocabulary (V : Nat) (ix : Int) : Prop := 0 ≤ ix ∧ ix < V

/-- Every id that a pass uses is in the vocabulary. -/
def Pass.Valid (V : Nat) (p : Pass) : Prop := ∀ ix ∈ encoderIds p.inputs 1 p.T, InVocabulary V ix

section Valid

variable {ops} {V : Nat} {forward : Pass → Nat → F} {args : List Bytes} {passes : List Pass}

theorem sampleLoop_mem (probabilities : Nat → F) (last : Int) (is : List Nat) (cdf : F) :
    sampleLoop ops probabilities last is cdf = last ∨
      ∃ i ∈ is, sampleLoop ops probabilities last is cdf = i := by
  induction is generalizing cdf with
  | nil => exact .inl rfl
  | cons i is ih =>
      rw [sampleLoop]
      split
      · exact .inr ⟨i, List.mem_cons_self, rfl⟩
      · rcases ih _ with hlast | ⟨j, hj, heq⟩
        · exact .inl hlast
        · exact .inr ⟨j, List.mem_cons_of_mem i hj, heq⟩

/-- Whatever the probabilities are. -/
theorem sampleMult_valid (hV : 1 ≤ V) (probabilities : Nat → F) :
    InVocabulary V (sampleMult ops probabilities V) := by
  rw [sampleMult, InVocabulary]
  rcases @sampleLoop_mem F ops probabilities (V - 1) (List.range V) ops.zero with
    hlast | ⟨i, hi, heq⟩
  · rw [hlast]
    omega
  · have hlt := List.mem_range.mp hi
    rw [heq]
    omega

theorem valid_iff {p : Pass} : p.Valid V ↔ ∀ i < p.T, InVocabulary V (p.inputs i) := by
  simp [Pass.Valid, encoderIds]

/-- Valid tokens in front of `t` make all passes from `t` on valid. -/
theorem generate_valid (hV : 1 ≤ V) {steps t : Nat} {tokens : Nat → Int}
    (h : ∀ i < t, InVocabulary V (tokens i)) :
    ∀ p ∈ generate ops V forward steps t tokens, p.Valid V := by
  induction steps generalizing t tokens with
  | zero => nofun
  | succ steps ih =>
      rw [generate, List.forall_mem_cons]
      refine ⟨valid_iff.mpr h, ih fun i hi => ?_⟩
      rcases Nat.lt_succ_iff_lt_or_eq.mp hi with hlt | rfl
      · rw [Function.update_of_ne hlt.ne]
        exact h i hlt
      · rw [Function.update_self]
        exact sampleMult_valid hV _

theorem initialTokens_valid_iff :
    (∀ i < args.length, InVocabulary V (initialTokens args i)) ↔
      ∀ arg ∈ args, InVocabulary V (toInt (strtol arg)) := by
  rw [List.forall_mem_iff_getElem]
  refine forall₂_congr fun i hi => ?_
  rw [initialTokens, List.getElem?_eq_getElem hi]

/-- **Every token that indexes `wte` is in the vocabulary** exactly when those of the command line
are. -/
theorem tokens_in_vocabulary_iff (hV : 1 ≤ V) (h : main ops V forward args = some passes) :
    (∀ p ∈ passes, p.Valid V) ↔ ∀ arg ∈ args, InVocabulary V (toInt (strtol arg)) := by
  rw [main] at h
  split_ifs at h with hnone hmany
  obtain rfl := Option.some.inj h
  rw [← initialTokens_valid_iff, Nat.add_sub_cancel]
  constructor
  · intro hvalid
    obtain ⟨steps, hsteps⟩ : ∃ steps, tokenLimit - args.length = steps + 1 :=
      Nat.exists_eq_succ_of_ne_zero (by omega)
    rw [hsteps, generate, List.forall_mem_cons] at hvalid
    exact valid_iff.mp hvalid.1
  · exact generate_valid hV

/-- One token of the vocabulary of 50257. -/
theorem tokens_in_vocabulary_hello :
    ∃ passes, main floatOps 50257 (fun _ _ => 0) [ascii "31373"] = some passes ∧
      ((∀ p ∈ passes, p.Valid 50257) ↔
        ∀ arg ∈ [ascii "31373"], InVocabulary 50257 (toInt (strtol arg))) :=
  ⟨_, rfl, tokens_in_vocabulary_iff (by decide) rfl⟩

/-- The first number behind the vocabulary is passed on. -/
theorem token_outside :
    ∃ passes, main floatOps 50257 (fun _ _ => 0) [ascii "50257"] = some passes ∧
      ¬ ∀ p ∈ passes, p.Valid 50257 := by
  refine ⟨_, rfl, fun h => ?_⟩
  have hfirst := valid_iff.mp (h _ List.mem_cons_self) 0 Nat.one_pos
  exact absurd hfirst.2 (by decide)

end Valid

end NjuOs.Gpt
