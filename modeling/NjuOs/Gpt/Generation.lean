import NjuOs.Gpt.Causality
import NjuOs.Gpt.Tokens

/-!
Generation, pass after pass.

`main` runs a pass over the tokens so far, samples the next token from the last row of
the probabilities, and starts again. The activations are allocated anew for each
pass, and what they hold is not initialized; the threads of a pass run in any order.
`nextToken` is what is sampled from some pass, and by causality it is what is sampled
from every pass (`generationStep_iff`). So a run is a fold, from which
`generation_single_pass` and `generation_resumes` follow.
-/

namespace NjuOs.Gpt

open NjuOs.Lib NjuOs.Lib.Prog

variable {F : Type} (ops : FloatOps F) (config : GPT2Config)

/-! ### The loop of `main` -/

/-- What `main` has before a pass. -/
@[ext]
structure Generation (F : Type) where
  tokens : Nat → Int
  weights : Nat → F
  printed : List Int

/-- `acts.probs + s * vocab_size` after a pass over `T` tokens. -/
def probsRow (T s : Nat) (m : Loc → F) (v : Nat) : F :=
  m (addr config 1 T (acts .probs + (s * config.vocabSize + v)))

/-- The body of the loop of `main`; the activations before the pass are any. -/
def GenerationStep (t : Nat) (s s' : Generation F) : Prop :=
  ∃ m m', (∀ i, m (.params i) = s.weights i) ∧
    ForwardRuns ops config (fun k => (s.tokens k).toNat) 1 t m m' ∧
      let nextToken := sampleMult ops (probsRow config t (t - 1) m') config.vocabSize
      s' = { tokens := Function.update s.tokens t nextToken, weights := fun i => m' (.params i),
             printed := s.printed ++ [nextToken] }

/-- A run of `main` that does not exit before the loop. -/
def MainRuns (weights : Nat → F) (args : List Bytes) (s' : Generation F) : Prop :=
  let argc := args.length + 1
  argc ≠ 1 ∧ argc ≤ tokenLimit ∧
    Chain (GenerationStep ops config) (List.range' (argc - 1) (tokenLimit - (argc - 1)))
      ⟨initialTokens args, weights, []⟩ s'

/-! ### What a pass leaves behind -/

section Pass

variable {ops config} {inputs inputs' : Nat → Nat} {T T' s : Nat} {m m' n n' : Loc → F}

/-- Passes with the same weights over tokens that agree up to `s`. -/
theorem probsRow_agree {N : Nat} (hconfig : config.Supports N) (hT : T ≤ N) (hT' : T' ≤ N)
    (hs : s < T) (hs' : s < T') (hagree : ∀ k ≤ s, inputs k = inputs' k)
    (htokens : ∀ k < T, inputs k < config.vocabSize)
    (htokens' : ∀ k < T', inputs' k < config.vocabSize)
    (hweights : ∀ i < (paramSizes config).sum, m (.params i) = n (.params i))
    (h : ForwardRuns ops config inputs 1 T m m') (h' : ForwardRuns ops config inputs' 1 T' n n') :
    ∀ v < config.vocabSize, probsRow config T s m' v = probsRow config T' s n' v :=
  h.agree hconfig hT hT' hs hs' hagree htokens htokens' hweights h' .probs (.inr rfl) s
    (Nat.le_refl s)

theorem sampleLoop_congr {p p' : Nat → F} {last : Int} {is : List Nat} (h : ∀ i ∈ is, p i = p' i)
    (cdf : F) : sampleLoop ops p last is cdf = sampleLoop ops p' last is cdf := by
  induction is generalizing cdf with
  | nil => rfl
  | cons i is ih =>
      obtain ⟨hi, his⟩ := List.forall_mem_cons.mp h
      rw [sampleLoop, sampleLoop, hi, ih his]

theorem sampleMult_congr {p p' : Nat → F} {V : Nat} (h : ∀ i < V, p i = p' i) :
    sampleMult ops p V = sampleMult ops p' V :=
  sampleLoop_congr (fun i hi => h i (List.mem_range.mp hi)) _

end Pass

/-! ### The next token -/

/-- The weights, and activations of one kind. -/
def freshMemory (weights : Nat → F) : Loc → F
  | .params i => weights i
  | .acts _ => ops.zero

/-- What is sampled after a pass over the tokens in front of `t`. -/
noncomputable def nextToken (weights : Nat → F) (tokens : Nat → Int) (t : Nat) : Int :=
  let m' := (@exists_forwardRuns F ops config (fun k => (tokens k).toNat) 1 t
    (freshMemory ops weights)).choose
  sampleMult ops (probsRow config t (t - 1) m') config.vocabSize

/-- One round of the loop. -/
noncomputable def advance (s : Generation F) (t : Nat) : Generation F :=
  let next := nextToken ops config s.weights s.tokens t
  { s with tokens := Function.update s.tokens t next, printed := s.printed ++ [next] }

section Next

variable {ops config} {N : Nat} (hconfig : config.Supports N)

/-- Tokens that the encoder finds in `wte`. -/
theorem toNat_lt {V : Nat} {ix : Int} (h : InVocabulary V ix) : ix.toNat < V := by
  rw [InVocabulary] at h
  omega

include hconfig

/-- The token is sampled from any pass with the same weights over at least the tokens in
front of it. -/
theorem nextToken_eq {weights : Nat → F} {tokens : Nat → Int} {t T : Nat} (ht : 0 < t)
    (htT : t ≤ T) (hT : T ≤ N) {inputs : Nat → Nat}
    (hinputs : ∀ k < t, inputs k = (tokens k).toNat)
    (hvalid : ∀ k < T, inputs k < config.vocabSize) {m m' : Loc → F}
    (hm : ∀ i < (paramSizes config).sum, m (.params i) = weights i)
    (h : ForwardRuns ops config inputs 1 T m m') :
    nextToken ops config weights tokens t =
      sampleMult ops (probsRow config T (t - 1) m') config.vocabSize := by
  have hrun := (@exists_forwardRuns F ops config (fun k => (tokens k).toNat) 1 t
    (freshMemory ops weights)).choose_spec
  have hlast : t - 1 < t := Nat.sub_lt ht Nat.one_pos
  refine sampleMult_congr (probsRow_agree hconfig (Nat.le_trans htT hT) hT hlast
    (Nat.lt_of_lt_of_le hlast htT)
    (fun k hk => (hinputs k (Nat.lt_of_le_of_lt hk hlast)).symm) (fun k hk => ?_) hvalid
    (fun i hi => (hm i hi).symm) hrun h)
  rw [← hinputs k hk]
  exact hvalid k (Nat.lt_of_lt_of_le hk htT)

/-- Only the tokens in front matter. -/
theorem nextToken_congr {weights : Nat → F} {tokens tokens' : Nat → Int} {t : Nat} (ht : 0 < t)
    (htN : t ≤ N) (hvalid : ∀ k < t, InVocabulary config.vocabSize (tokens k))
    (hagree : ∀ k < t, tokens k = tokens' k) :
    nextToken ops config weights tokens t = nextToken ops config weights tokens' t := by
  obtain ⟨m', hrun⟩ := @exists_forwardRuns F ops config (fun k => (tokens k).toNat) 1 t
    (freshMemory ops weights)
  have hlt : ∀ k < t, (tokens k).toNat < config.vocabSize := fun k hk => toNat_lt (hvalid k hk)
  have hm : ∀ i < (paramSizes config).sum, freshMemory ops weights (.params i) = weights i :=
    fun _ _ => rfl
  rw [nextToken_eq hconfig ht (Nat.le_refl t) htN (fun _ _ => rfl) hlt hm hrun,
    nextToken_eq hconfig ht (Nat.le_refl t) htN (fun k hk => by rw [hagree k hk]) hlt hm hrun]

/-- Whatever the threads do and the activations held. -/
theorem generationStep_iff {t : Nat} (ht : 0 < t) (htN : t ≤ N) {s s' : Generation F}
    (hvalid : ∀ k < t, InVocabulary config.vocabSize (s.tokens k)) :
    GenerationStep ops config t s s' ↔ s' = advance ops config s t := by
  have hlt : ∀ k < t, (s.tokens k).toNat < config.vocabSize := fun k hk => toNat_lt (hvalid k hk)
  have hstep : ∀ {m m'}, (∀ i, m (.params i) = s.weights i) →
      ForwardRuns ops config (fun k => (s.tokens k).toNat) 1 t m m' →
        sampleMult ops (probsRow config t (t - 1) m') config.vocabSize =
          nextToken ops config s.weights s.tokens t ∧
            (fun i => m' (.params i)) = s.weights := fun hm hrun =>
    ⟨(nextToken_eq hconfig ht (Nat.le_refl t) htN (fun _ _ => rfl) hlt (fun i _ => hm i)
      hrun).symm, funext fun i =>
        (hrun.params hconfig.layers (Nat.le_trans htN hconfig.positions) hlt i).trans (hm i)⟩
  constructor
  · rintro ⟨m, m', hm, hrun, rfl⟩
    obtain ⟨hnext, hweights⟩ := hstep hm hrun
    rw [hnext, hweights]
    rfl
  · rintro rfl
    obtain ⟨m', hrun⟩ := @exists_forwardRuns F ops config (fun k => (s.tokens k).toNat) 1 t
      (freshMemory ops s.weights)
    obtain ⟨hnext, hweights⟩ := hstep (fun _ => rfl) hrun
    refine ⟨freshMemory ops s.weights, m', fun _ => rfl, hrun, ?_⟩
    dsimp only
    rw [hnext, hweights]
    rfl

end Next

/-! ### Runs -/

/-- The loop from `t` on, `k` times. -/
noncomputable def generated (s : Generation F) (t k : Nat) : Generation F :=
  (List.range' t k).foldl (advance ops config) s

section Runs

variable {ops config} {s s' : Generation F} {t k : Nat}

theorem generated_succ : generated ops config s t (k + 1) =
    generated ops config (advance ops config s t) (t + 1) k := rfl

theorem generated_add (l : Nat) : generated ops config s t (k + l) =
    generated ops config (generated ops config s t k) (t + k) l := by
  rw [generated, generated, generated, ← List.foldl_append, List.range'_append_1]

theorem generated_weights : (generated ops config s t k).weights = s.weights := by
  induction k generalizing s t with
  | zero => rfl
  | succ k ih => exact ih

/-- The other tokens stay. -/
theorem generated_tokens_of_notMem {i : Nat} (hi : i < t ∨ t + k ≤ i) :
    (generated ops config s t k).tokens i = s.tokens i := by
  induction k generalizing s t with
  | zero => rfl
  | succ k ih =>
      rw [generated_succ, ih (by omega)]
      exact Function.update_of_ne (by omega) _ _

theorem generated_printed : (generated ops config s t k).printed =
    s.printed ++ (List.range' t k).map (generated ops config s t k).tokens := by
  induction k generalizing s t with
  | zero => exact (List.append_nil _).symm
  | succ k ih =>
      have hfirst : (generated ops config s t (k + 1)).tokens t =
          nextToken ops config s.weights s.tokens t :=
        (generated_tokens_of_notMem (.inl (Nat.lt_succ_self t))).trans (Function.update_self ..)
      rw [List.range'_succ, List.map_cons, hfirst, generated_succ, ih, List.append_cons]
      rfl

variable (hV : 1 ≤ config.vocabSize)

include hV

theorem advance_valid (hvalid : ∀ i < t, InVocabulary config.vocabSize (s.tokens i)) :
    ∀ i < t + 1, InVocabulary config.vocabSize ((advance ops config s t).tokens i) := by
  intro i hi
  rcases Nat.lt_succ_iff_lt_or_eq.mp hi with hlt | rfl
  · have hother : (advance ops config s t).tokens i = s.tokens i :=
      Function.update_of_ne hlt.ne _ _
    exact hother ▸ hvalid i hlt
  · have hself : (advance ops config s i).tokens i = nextToken ops config s.weights s.tokens i :=
      Function.update_self ..
    exact hself ▸ sampleMult_valid hV _

theorem generated_valid (hvalid : ∀ i < t, InVocabulary config.vocabSize (s.tokens i)) :
    ∀ i < t + k, InVocabulary config.vocabSize ((generated ops config s t k).tokens i) := by
  induction k generalizing s t with
  | zero => exact hvalid
  | succ k ih =>
      rw [generated_succ, ← Nat.add_assoc, Nat.add_right_comm]
      exact ih (advance_valid hV hvalid)

variable {N : Nat} (hconfig : config.Supports N)

include hconfig

/-- Each token is the one that the tokens in front of it give. -/
theorem generated_sampled (ht : 0 < t) (hN : t + k ≤ N)
    (hvalid : ∀ i < t, InVocabulary config.vocabSize (s.tokens i)) {j : Nat} (hj : t ≤ j)
    (hjk : j < t + k) : (generated ops config s t k).tokens j =
      nextToken ops config s.weights (generated ops config s t k).tokens j := by
  induction k generalizing s t with
  | zero => exact absurd hj (Nat.not_le.mpr hjk)
  | succ k ih =>
      rw [generated_succ]
      rcases Nat.eq_or_lt_of_le hj with rfl | hlt
      · have hsame : ∀ i < t, s.tokens i =
            (generated ops config (advance ops config s t) (t + 1) k).tokens i := fun i hi => by
          rw [generated_tokens_of_notMem (.inl (Nat.lt_succ_of_lt hi))]
          exact (Function.update_of_ne hi.ne _ _).symm
        rw [← nextToken_congr hconfig ht (Nat.le_of_add_right_le hN) hvalid hsame,
          generated_tokens_of_notMem (.inl (Nat.lt_succ_self t))]
        exact Function.update_self ..
      · exact ih t.succ_pos (by omega) (advance_valid hV hvalid) hlt (by omega)

/-- The runs of the loop. -/
theorem chain_iff (ht : 0 < t) (hN : t + k ≤ N)
    (hvalid : ∀ i < t, InVocabulary config.vocabSize (s.tokens i)) :
    Chain (GenerationStep ops config) (List.range' t k) s s' ↔
      s' = generated ops config s t k := by
  induction k generalizing s t with
  | zero => exact eq_comm
  | succ k ih =>
      rw [List.range'_succ, Chain, generated_succ,
        ← ih t.succ_pos (by omega) (advance_valid hV hvalid)]
      simp only [generationStep_iff hconfig ht (Nat.le_of_add_right_le hN) hvalid, exists_eq_left]

end Runs

/-! ### Runs of the program -/

section Main

variable {ops config} {weights : Nat → F} {args : List Bytes}

/-- What the program prints, and the tokens it has then. -/
noncomputable def generation (ops : FloatOps F) (config : GPT2Config) (weights : Nat → F)
    (args : List Bytes) : Generation F :=
  generated ops config ⟨initialTokens args, weights, []⟩ args.length (tokenLimit - args.length)

theorem initialTokens_valid {V : Nat} (hvalid : ∀ arg ∈ args, InVocabulary V (toInt (strtol arg))) :
    ∀ i < args.length, InVocabulary V (initialTokens args i) :=
  initialTokens_valid_iff.mpr hvalid

/-- All tokens of a run are found in `wte`. -/
theorem generation_lt (hV : 1 ≤ config.vocabSize) (hlength : args.length < tokenLimit)
    (hvalid : ∀ arg ∈ args, InVocabulary config.vocabSize (toInt (strtol arg))) :
    ∀ k < tokenLimit, ((generation ops config weights args).tokens k).toNat < config.vocabSize := by
  intro k hk
  have hall : args.length + (tokenLimit - args.length) = tokenLimit :=
    Nat.add_sub_cancel' hlength.le
  exact toNat_lt (generated_valid hV (initialTokens_valid hvalid) k (hall.symm ▸ hk))

variable (hconfig : config.Supports tokenLimit) (hV : 1 ≤ config.vocabSize) (hargs : args ≠ [])
  (hlength : args.length < tokenLimit)
  (hvalid : ∀ arg ∈ args, InVocabulary config.vocabSize (toInt (strtol arg)))

include hconfig hV hargs hlength hvalid

theorem mainRuns_iff {s : Generation F} :
    MainRuns ops config weights args s ↔ s = generation ops config weights args := by
  have hpos : 0 < args.length := List.length_pos_of_ne_nil hargs
  have hchain := @chain_iff F ops config ⟨initialTokens args, weights, []⟩ s args.length
    (tokenLimit - args.length) hV tokenLimit hconfig hpos (by omega) (initialTokens_valid hvalid)
  rw [MainRuns, Nat.add_sub_cancel, hchain]
  exact ⟨fun h => h.2.2, fun h => ⟨by omega, hlength, h⟩⟩

/-- A token is sampled from its row of one pass over all tokens. -/
theorem generation_tokens {m m' : Loc → F}
    (hm : ∀ i < (paramSizes config).sum, m (.params i) = weights i)
    (hrun : ForwardRuns ops config
      (fun k => ((generation ops config weights args).tokens k).toNat) 1 tokenLimit m m')
    {t : Nat} (ht : args.length ≤ t) (htlimit : t < tokenLimit) :
    (generation ops config weights args).tokens t =
      sampleMult ops (probsRow config tokenLimit (t - 1) m') config.vocabSize := by
  have hpos : 0 < args.length := List.length_pos_of_ne_nil hargs
  have hall : args.length + (tokenLimit - args.length) = tokenLimit :=
    Nat.add_sub_cancel' hlength.le
  calc (generation ops config weights args).tokens t
    _ = nextToken ops config weights (generation ops config weights args).tokens t :=
        generated_sampled hV hconfig hpos hall.le (initialTokens_valid hvalid) ht
          (hall.symm ▸ htlimit)
    _ = _ := nextToken_eq hconfig (Nat.lt_of_lt_of_le hpos ht) htlimit.le (Nat.le_refl _)
        (fun _ _ => rfl) (generation_lt hV hlength hvalid) hm hrun

/-- **One pass gives all tokens.** Each run of the program ends in the same way, however the
threads of its passes are interleaved and whatever the activations held. Every token
it prints is the one sampled from its row of the probabilities of one pass over all
tokens. -/
theorem generation_single_pass :
    ∃ s, (∀ s', MainRuns ops config weights args s' ↔ s' = s) ∧ s.weights = weights ∧
      (∀ i arg, args[i]? = some arg → s.tokens i = toInt (strtol arg)) ∧
      s.printed = (List.range' args.length (tokenLimit - args.length)).map s.tokens ∧
      ∀ m m', (∀ i < (paramSizes config).sum, m (.params i) = weights i) →
        ForwardRuns ops config (fun k => (s.tokens k).toNat) 1 tokenLimit m m' →
          ∀ t, args.length ≤ t → t < tokenLimit → s.tokens t =
            sampleMult ops (probsRow config tokenLimit (t - 1) m') config.vocabSize := by
  refine ⟨generation ops config weights args,
    fun s' => mainRuns_iff hconfig hV hargs hlength hvalid, generated_weights,
    fun i arg hi => ?_, generated_printed, fun m m' hm hrun t ht htlimit =>
      generation_tokens hconfig hV hargs hlength hvalid hm hrun ht htlimit⟩
  rw [generation, generated_tokens_of_notMem (.inl (List.getElem?_eq_some_iff.mp hi).1)]
  simp only [initialTokens, hi]

end Main

/-- The token 3 of five. -/
theorem generation_single_pass_three :
    ∃ s, (∀ s', MainRuns floatOps ⟨20, 5, 2, 2, 4⟩ (fun _ => 0) [ascii "3"] s' ↔ s' = s) ∧
      s.weights = (fun _ => 0) ∧
      (∀ i arg, [ascii "3"][i]? = some arg → s.tokens i = toInt (strtol arg)) ∧
      s.printed = (List.range' 1 19).map s.tokens ∧
      ∀ m m', (∀ i < (paramSizes ⟨20, 5, 2, 2, 4⟩).sum, m (.params i) = 0) →
        ForwardRuns floatOps ⟨20, 5, 2, 2, 4⟩ (fun k => (s.tokens k).toNat) 1 tokenLimit m m' →
          ∀ t, 1 ≤ t → t < tokenLimit → s.tokens t =
            sampleMult floatOps (probsRow ⟨20, 5, 2, 2, 4⟩ tokenLimit (t - 1) m') 5 :=
  generation_single_pass ⟨by decide, by decide, by decide, by decide, by decide⟩ (by decide)
    (by decide) (by decide) (List.forall_mem_singleton.mpr ⟨by decide, by decide⟩)

/-! ### Going on with what was printed -/

/-- What is printed by `printf("%d")` is read by `strtol`. -/
theorem strtol_decimal {n : Nat} (hn : n < 2 ^ 63) : strtol (decimal n) = n := by
  obtain ⟨c, cs, hcs, hblank, hminus, hplus⟩ := head_decimal n
  have hdigits : (decimal n).takeWhile isDecimalDigit = decimal n :=
    List.takeWhile_eq_self_iff.mpr fun b hb => isDecimalDigit_of_mem hb
  have hfront : (decimal n).dropWhile isSpace = decimal n := by
    rw [hcs, List.dropWhile_cons_of_neg (by simp [hblank])]
  have hsign : strtol (decimal n) =
      max (-2 ^ 63) (min (digitsValue (decimal n) : Int) (2 ^ 63 - 1)) := by
    rw [strtol, hfront]
    rw [hcs] at hdigits ⊢
    split
    · rename_i heq
      exact absurd (List.cons.inj heq).1 hminus
    · rename_i heq
      exact absurd (List.cons.inj heq).1 hplus
    · rw [hdigits]
  rw [hsign, digitsValue_decimal]
  omega

theorem toInt_strtol {V : Nat} (hint : V < 2 ^ 31) {ix : Int} (h : InVocabulary V ix) :
    toInt (strtol (decimalInt ix)) = ix := by
  rw [InVocabulary] at h
  obtain ⟨n, rfl⟩ := Int.eq_ofNat_of_zero_le h.1
  rw [decimalInt, if_neg (by omega), Int.natAbs_natCast, strtol_decimal (by omega), toInt]
  exact Int.bmod_eq_of_le (by omega) (by omega)

section Resume

variable {ops config} {weights : Nat → F} {args : List Bytes}

def Generation.prepend (printed : List Int) (s : Generation F) : Generation F :=
  { s with printed := printed ++ s.printed }

/-- Nothing has been printed. -/
def Generation.restart (s : Generation F) : Generation F := { s with printed := [] }

theorem Generation.prepend_restart (s : Generation F) : s.restart.prepend s.printed = s := by
  rw [prepend, restart, List.append_nil]

theorem Generation.prepend_injective (printed : List Int) :
    Function.Injective (Generation.prepend printed : Generation F → Generation F) := by
  intro s s' h
  have htokens := congrArg Generation.tokens h
  have hweights := congrArg Generation.weights h
  have hprinted := congrArg Generation.printed h
  exact Generation.ext htokens hweights (List.append_cancel_left hprinted)

/-- What was printed before makes no difference. -/
theorem generated_prepend (printed : List Int) {s : Generation F} {t k : Nat} :
    generated ops config (s.prepend printed) t k =
      (generated ops config s t k).prepend printed := by
  induction k generalizing s t with
  | zero => rfl
  | succ k ih =>
      have hadvance : advance ops config (s.prepend printed) t =
          (advance ops config s t).prepend printed := by
        simp only [advance, Generation.prepend, List.append_assoc]
      rw [generated_succ, generated_succ, hadvance, ih]

/-- The tokens that are printed are read again. -/
theorem initialTokens_append {V : Nat} (hint : V < 2 ^ 31) {k : Nat} {tokens : Nat → Int}
    (hfront : ∀ i, i < args.length ∨ args.length + k ≤ i → tokens i = initialTokens args i)
    (hvalid : ∀ i < args.length + k, InVocabulary V (tokens i)) :
    initialTokens (args ++ ((List.range' args.length k).map tokens).map decimalInt) = tokens := by
  funext i
  rw [initialTokens]
  rcases Nat.lt_or_ge i args.length with hlt | hge
  · rw [List.getElem?_append_left hlt, hfront i (.inl hlt), initialTokens]
  · rw [List.getElem?_append_right hge, List.getElem?_map, List.getElem?_map]
    rcases Nat.lt_or_ge i (args.length + k) with hprinted | hbehind
    · rw [List.getElem?_range' (by omega)]
      simp only [Option.map_some, Nat.one_mul, Nat.add_sub_cancel' hge]
      exact toInt_strtol hint (hvalid i hprinted)
    · rw [List.getElem?_eq_none (by simpa using by omega), hfront i (.inr hbehind), initialTokens,
        List.getElem?_eq_none hge]
      rfl

/-- The run from the state after `k` tokens. -/
theorem generation_split {k : Nat} (hk : args.length + k < tokenLimit) :
    let mid := generated ops config ⟨initialTokens args, weights, []⟩ args.length k
    generation ops config weights args =
      (generated ops config mid.restart (args.length + k)
        (tokenLimit - (args.length + k))).prepend mid.printed := by
  intro mid
  have hcount : tokenLimit - args.length = k + (tokenLimit - (args.length + k)) := by omega
  rw [generation, hcount, generated_add, ← generated_prepend, Generation.prepend_restart]

variable (hconfig : config.Supports tokenLimit) (hV : 1 ≤ config.vocabSize) (hargs : args ≠ [])
  (hvalid : ∀ arg ∈ args, InVocabulary config.vocabSize (toInt (strtol arg)))

include hconfig hV hargs hvalid

/-- The program on its arguments and the first `k` tokens of its output. -/
theorem mainRuns_append_iff {k : Nat} (hk : args.length + k < tokenLimit) {s : Generation F} :
    MainRuns ops config weights
        (args ++ ((generation ops config weights args).printed.take k).map decimalInt) s ↔
      s.prepend ((generation ops config weights args).printed.take k) =
        generation ops config weights args := by
  -- the state after `k` tokens
  let mid := generated ops config ⟨initialTokens args, weights, []⟩ args.length k
  have hprinted : mid.printed = (List.range' args.length k).map mid.tokens := generated_printed
  have hmid : ∀ i < args.length + k, InVocabulary config.vocabSize (mid.tokens i) :=
    generated_valid hV (initialTokens_valid hvalid)
  have hlength : mid.printed.length = k := by rw [hprinted, List.length_map, List.length_range']
  have htake : (generation ops config weights args).printed.take k = mid.printed := by
    rw [generation_split hk]
    exact List.take_left' hlength
  have htokens : initialTokens (args ++ mid.printed.map decimalInt) = mid.tokens := by
    rw [hprinted]
    exact initialTokens_append (hconfig.vocabSize_lt (by decide))
      (fun i hi => generated_tokens_of_notMem hi) hmid
  have hcount : (args ++ mid.printed.map decimalInt).length = args.length + k := by
    rw [List.length_append, List.length_map, hlength]
  have hargs' : args ++ mid.printed.map decimalInt ≠ [] := List.append_ne_nil_of_left_ne_nil hargs _
  have hvalid' : ∀ arg ∈ args ++ mid.printed.map decimalInt,
      InVocabulary config.vocabSize (toInt (strtol arg)) := by
    refine initialTokens_valid_iff.mp fun i hi => ?_
    rw [htokens]
    exact hmid i (hcount ▸ hi)
  have hrest : generation ops config weights (args ++ mid.printed.map decimalInt) =
      generated ops config mid.restart (args.length + k) (tokenLimit - (args.length + k)) := by
    rw [generation, hcount, htokens, Generation.restart,
      show mid.weights = weights from generated_weights]
  rw [htake, mainRuns_iff hconfig hV hargs' (hcount ▸ hk) hvalid', hrest, generation_split hk]
  exact (Generation.prepend_injective mid.printed).eq_iff.symm

/-- **A run can be taken up again.** Started on its arguments and the first tokens that it
printed, the program prints the others. -/
theorem generation_resumes {k : Nat} (hk : args.length + k < tokenLimit) {s : Generation F}
    (h : MainRuns ops config weights args s) :
    (∃ s', MainRuns ops config weights (args ++ (s.printed.take k).map decimalInt) s') ∧
      ∀ s', MainRuns ops config weights (args ++ (s.printed.take k).map decimalInt) s' →
        s'.tokens = s.tokens ∧ s.printed.take k ++ s'.printed = s.printed := by
  obtain rfl := (mainRuns_iff hconfig hV hargs (by omega) hvalid).mp h
  have hiff := fun s' => @mainRuns_append_iff F ops config weights args hconfig hV hargs
    hvalid k hk s'
  refine ⟨⟨{ generation ops config weights args with
    printed := (generation ops config weights args).printed.drop k }, (hiff _).mpr ?_⟩,
    fun s' hs' => ?_⟩
  · rw [Generation.prepend, List.take_append_drop]
  · have htokens := congrArg Generation.tokens ((hiff s').mp hs')
    have hprinted := congrArg Generation.printed ((hiff s').mp hs')
    exact ⟨htokens, hprinted⟩

end Resume

/-- After two more tokens. -/
theorem generation_resumes_three :
    ∃ s, MainRuns floatOps ⟨20, 5, 2, 2, 4⟩ (fun _ => 0) [ascii "3"] s ∧
      (∃ s', MainRuns floatOps ⟨20, 5, 2, 2, 4⟩ (fun _ => 0)
        ([ascii "3"] ++ (s.printed.take 2).map decimalInt) s') ∧
      ∀ s', MainRuns floatOps ⟨20, 5, 2, 2, 4⟩ (fun _ => 0)
          ([ascii "3"] ++ (s.printed.take 2).map decimalInt) s' →
        s'.tokens = s.tokens ∧ s.printed.take 2 ++ s'.printed = s.printed := by
  have hvalid : ∀ arg ∈ [ascii "3"], InVocabulary 5 (toInt (strtol arg)) :=
    List.forall_mem_singleton.mpr ⟨by decide, by decide⟩
  obtain ⟨s, hs⟩ : ∃ s, MainRuns floatOps ⟨20, 5, 2, 2, 4⟩ (fun _ => 0) [ascii "3"] s :=
    ⟨_, (mainRuns_iff ⟨by decide, by decide, by decide, by decide, by decide⟩ (by decide)
      (by decide) (by decide) hvalid).mpr rfl⟩
  exact ⟨s, hs, generation_resumes ⟨by decide, by decide, by decide, by decide, by decide⟩
    (by decide) (by decide) hvalid (by decide) hs⟩

end NjuOs.Gpt
