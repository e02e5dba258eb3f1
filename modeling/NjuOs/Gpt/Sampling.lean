import NjuOs.Lib.Crossing
import NjuOs.Gpt.Generation
import NjuOs.Gpt.Softmax

/-!
What is sampled with exact arithmetic.

The coin of `sample_mult` is always one half, so the token is the median of the
distribution, and the last return, for rounding errors, is not reached
(`sampleMult_eq_iff`). `generation_median` says this of the tokens of a whole run, for
the distribution that the logits of one pass over all of them give.
-/

namespace NjuOs.Gpt

open NjuOs.Lib NjuOs.Lib.Prog

/-! ### The probabilities of a pass -/

/-- `acts.logits + s * vocab_size` after a pass over `T` tokens. -/
def logitsRow {F : Type} (config : GPT2Config) (T s : Nat) (m : Loc → F) (v : Nat) : F :=
  m (addr config 1 T (acts .logits + (s * config.vocabSize + v)))

theorem probsRow_eq {F : Type} {ops : FloatOps F} {config : GPT2Config} {inputs : Nat → Nat}
    {T s : Nat} {m m' : Loc → F} (hconfig : config.Supports T) (hs : s < T)
    (htokens : ∀ k < T, inputs k < config.vocabSize) (h : ForwardRuns ops config inputs 1 T m m')
    {v : Nat} (hv : v < config.vocabSize) :
    probsRow config T s m' v = softmaxRow ops config.vocabSize (logitsRow config T s m') v := by
  obtain ⟨m₁, hpass, hrep⟩ :=
    h.tensors hconfig.layers hconfig.positions htokens (represents_addr m)
  obtain ⟨k, -, hhead⟩ := chain_append.mp hpass
  simp only [headForward_eq config 1 T hconfig.layers, Chain] at hhead
  obtain ⟨-, -, a, -, _, hsoftmax, rfl⟩ := hhead
  rw [← acts_eq, ← acts_eq] at hsoftmax
  -- the last call leaves the logits as they are
  have hlogits : ∀ i < config.vocabSize, logitsRow config T s m' i =
      a ((acts .logits).elem (s * config.vocabSize + i)) := fun i hi => by
    rw [logitsRow, hrep _ (row_mem_tensorCells (.inl rfl) hs hi)]
    exact hsoftmax.frame (by simp [Call.outs, acts])
  calc probsRow config T s m' v
    _ = _ := hrep _ (row_mem_tensorCells (.inr rfl) hs hv)
    _ = softmaxRow ops config.vocabSize
          (fun i => a ((acts .logits).elem (s * config.vocabSize + i))) v :=
        softmax_row hsoftmax hs hv
    _ = _ := softmaxRow_congr (fun i hi => (hlogits i hi).symm) hv

/-! ### The median -/

section Median

variable {K : Type} [Field K] [LinearOrder K] {ops : FloatOps K}

/-- What `sample_mult` needs besides. -/
structure ExactCoin (ops : FloatOps K) : Prop where
  gt : ∀ x y, ops.gt x y = true ↔ y < x
  half : ops.half = 1 / 2

variable [IsStrictOrderedRing K] (h : Exact ops) (hcoin : ExactCoin ops)

include h hcoin

theorem sampleLoop_eq {p : Nat → K} {V : Nat} (hp : ∀ k < V, 0 ≤ p k) {v : Nat} (hv : v < V)
    (hcross : Crosses p (1 / 2) v) (last : Int) {i n : Nat} (hi : i ≤ v) (hn : v < i + n) :
    sampleLoop ops p last (List.range' i n) (∑ k ∈ Finset.range i, p k) = v := by
  induction n generalizing i with
  | zero => exact absurd hn (Nat.not_lt.mpr hi)
  | succ n ih =>
      rw [List.range'_succ, sampleLoop]
      simp only [h.add, ← Finset.sum_range_succ, hcoin.half, hcoin.gt]
      rcases Nat.eq_or_lt_of_le hi with rfl | hlt
      · rw [if_pos hcross.2]
      · rw [if_neg (not_lt.mpr (hcross.sum_le hp hv hlt))]
        exact ih hlt (by omega)

/-- Of probabilities that sum to one, the median is taken. -/
theorem sampleMult_eq_iff {p : Nat → K} {V : Nat} (hp : ∀ k < V, 0 ≤ p k)
    (hsum : ∑ k ∈ Finset.range V, p k = 1) {v : Nat} :
    sampleMult ops p V = v ↔ v < V ∧ Crosses p (1 / 2) v := by
  have hloop : ∀ v < V, Crosses p (1 / 2) v → sampleMult ops p V = v := fun v hv hcross => by
    rw [sampleMult, h.zero, List.range_eq_range']
    exact sampleLoop_eq h hcoin hp hv hcross _ (Nat.zero_le v) (by omega)
  constructor
  · intro heq
    obtain ⟨u, hu, hcross⟩ : ∃ u < V, Crosses p (1 / 2 : K) u :=
      exists_crosses (by positivity) (by rw [hsum]; exact one_half_lt_one)
    obtain rfl : u = v := Int.ofNat.inj ((hloop u hu hcross).symm.trans heq)
    exact ⟨hu, hcross⟩
  · exact fun hv => hloop v hv.1 hv.2

variable {config : GPT2Config} (hconfig : config.Supports tokenLimit) (hV : 1 ≤ config.vocabSize)
  {args : List Bytes} (hargs : args ≠ []) (hlength : args.length < tokenLimit)
  (hvalid : ∀ arg ∈ args, InVocabulary config.vocabSize (toInt (strtol arg)))

include hconfig hV hargs hlength hvalid

/-- **Every printed token is a median.** With exact arithmetic, a token of a run is the
median of the softmax of its row of the logits of one pass over all tokens of the run:
the tokens in front of it in the vocabulary have at most half of the probability, and
with it they have more. -/
theorem generation_median {weights : Nat → K} {s : Generation K}
    (hrun : MainRuns ops config weights args s) {m m' : Loc → K}
    (hm : ∀ i < (paramSizes config).sum, m (.params i) = weights i)
    (hpass : ForwardRuns ops config (fun k => (s.tokens k).toNat) 1 tokenLimit m m') {t : Nat}
    (ht : args.length ≤ t) (htlimit : t < tokenLimit) {v : Nat} :
    s.tokens t = v ↔ v < config.vocabSize ∧
      Crosses (softmax ops.expf (Finset.range config.vocabSize)
        (logitsRow config tokenLimit (t - 1) m')) (1 / 2) v := by
  obtain rfl := (mainRuns_iff hconfig hV hargs hlength hvalid).mp hrun
  have hrow : t - 1 < tokenLimit := by omega
  have htokens := @generation_lt K ops config weights args hV hlength hvalid
  let dist := softmax ops.expf (Finset.range config.vocabSize)
    (logitsRow config tokenLimit (t - 1) m')
  have hprobs : ∀ i < config.vocabSize, probsRow config tokenLimit (t - 1) m' i = dist i :=
    fun i hi => (probsRow_eq hconfig hrow htokens hpass hi).trans (h.softmaxRow_eq hV _ i)
  have hvocab : (Finset.range config.vocabSize).Nonempty :=
    Finset.nonempty_range_iff.mpr (Nat.ne_of_gt hV)
  have hnonneg : ∀ i < config.vocabSize, 0 ≤ dist i := fun i _ =>
    div_nonneg (h.exp.pos _).le (h.exp.sum_pos hvocab _).le
  rw [generation_tokens hconfig hV hargs hlength hvalid hm hpass ht htlimit,
    sampleMult_congr hprobs]
  exact sampleMult_eq_iff h hcoin hnonneg (sum_softmax h.exp hvocab _)

end Median

theorem exactCoin_realOps : ExactCoin realOps where
  gt _ _ := decide_eq_true_iff
  half := by norm_num [realOps]

/-- The token 3 of five, over the real numbers. -/
theorem generation_median_three :
    ∃ s m', MainRuns realOps ⟨20, 5, 2, 2, 4⟩ (fun _ => 0) [ascii "3"] s ∧
      ForwardRuns realOps ⟨20, 5, 2, 2, 4⟩ (fun k => (s.tokens k).toNat) 1 tokenLimit
        (fun _ => 0) m' ∧
      ∀ v : Nat, s.tokens 19 = v ↔ v < 5 ∧
        Crosses (softmax Real.exp (Finset.range 5)
          (logitsRow ⟨20, 5, 2, 2, 4⟩ tokenLimit 18 m')) (1 / 2) v := by
  have hvalid : ∀ arg ∈ [ascii "3"], InVocabulary 5 (toInt (strtol arg)) :=
    List.forall_mem_singleton.mpr ⟨by decide, by decide⟩
  obtain ⟨s, hs⟩ : ∃ s, MainRuns realOps ⟨20, 5, 2, 2, 4⟩ (fun _ => 0) [ascii "3"] s :=
    ⟨_, (mainRuns_iff ⟨by decide, by decide, by decide, by decide, by decide⟩ (by decide)
      (by decide) (by decide) hvalid).mpr rfl⟩
  obtain ⟨m', hpass⟩ := @exists_forwardRuns ℝ realOps ⟨20, 5, 2, 2, 4⟩
    (fun k => (s.tokens k).toNat) 1 tokenLimit (fun _ => 0)
  exact ⟨s, m', hs, hpass, fun v => generation_median exact_realOps exactCoin_realOps
    ⟨by decide, by decide, by decide, by decide, by decide⟩ (by decide) (by decide) (by decide)
    hvalid hs (fun _ _ => rfl) hpass (by decide) (by decide)⟩

end NjuOs.Gpt
