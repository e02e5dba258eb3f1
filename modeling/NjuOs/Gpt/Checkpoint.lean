import NjuOs.Gpt.Generation

/-!
The checkpoint that the weights are read from.

`gpt2_build_from_checkpoint` reads a header of 256 words and then all tensors in one piece; it
does not look at how much it could read. Where the file is too short, the rest of the weights
is what `malloc` left there (`checkpoint_complete_iff`). From a complete file each tensor gets its
own part, and all that the program prints follows from it (`program_runs_checkpoint`).
-/

namespace NjuOs.Gpt

open NjuOs.Lib

/-! ### Reading a checkpoint -/

/-- `fread` of `n` bytes to `dst`. What the file does not have stays as it was. -/
def fread (dst : Nat → UInt8) (n : Nat) (stream : Bytes) (i : Nat) : UInt8 :=
  if i < n then stream[i]?.getD (dst i) else dst i

/-- Word number `j` at `p`. -/
def word (p : Nat → UInt8) (j : Nat) : Nat :=
  fromLe [p (4 * j), p (4 * j + 1), p (4 * j + 2), p (4 * j + 3)]

/-- How `gpt2_build_from_checkpoint` ends. -/
inductive Build where
  /-- `exit(1)`, behind a message. -/
  | exits (message : Bytes)
  /-- The model, with the words in `params_memory`. -/
  | model (config : GPT2Config) (params : List Nat)

/-- The fields that are read are not negative, and their products do not overflow. -/
structure GPT2Config.Fits (config : GPT2Config) : Prop where
  fields : ∀ n ∈ [config.maxSeqLen, config.vocabSize, config.numLayers, config.numHeads,
    4 * config.channels], n < 2 ^ 31
  sizes : ∀ n ∈ paramSizes config, n < 2 ^ 31

instance (config : GPT2Config) : Decidable config.Fits :=
  decidable_of_iff (_ ∧ _) ⟨fun h => ⟨h.1, h.2⟩, fun h => ⟨h.fields, h.sizes⟩⟩

def headerConfig (modelHeader : Nat → UInt8) : GPT2Config where
  maxSeqLen := word modelHeader 2
  vocabSize := word modelHeader 3
  numLayers := word modelHeader 4
  numHeads := word modelHeader 5
  channels := word modelHeader 6

/-- `gpt2_build_from_checkpoint`, without the fields that it only sets to zero. The file is `none`
if it cannot be opened; `stack` and `heap` are what the header and the parameters hold
before. The result is `none` if a product overflows. -/
def gpt2BuildFromCheckpoint (modelFile : Option Bytes) (stack heap : Nat → UInt8) : Option Build :=
  match modelFile with
  | none => some (.exits (ascii "Error opening model file\n"))
  | some modelFile =>
      let modelHeader := fread stack 1024 modelFile
      if word modelHeader 0 ≠ 20240326 then some (.exits (ascii "Bad magic model file"))
      else if word modelHeader 1 ≠ 1 then some (.exits (ascii "Bad version in model file"))
      else
        let config := headerConfig modelHeader
        if config.Fits then
          let numParameters := (paramSizes config).sum
          let paramsMemory := fread heap (4 * numParameters) (modelFile.drop 1024)
          some (.model config ((List.range numParameters).map (word paramsMemory)))
        else none

section Words

variable {p q dst : Nat → UInt8} {n j : Nat} {stream : Bytes}

theorem fread_of_lt {i : Nat} (hn : i < n) (hi : i < stream.length) :
    fread dst n stream i = stream[i] := by
  rw [fread, if_pos hn, List.getElem?_eq_getElem hi, Option.getD_some]

theorem word_fread (hn : 4 * j + 4 ≤ n) (hlength : 4 * j + 4 ≤ stream.length) :
    word (fread dst n stream) j = wordAt stream j := by
  rw [word, wordAt, List.drop_eq_getElem_cons (by omega), List.drop_eq_getElem_cons (by omega),
    List.drop_eq_getElem_cons (by omega), List.drop_eq_getElem_cons (by omega),
    fread_of_lt (by omega) (by omega), fread_of_lt (by omega) (by omega),
    fread_of_lt (by omega) (by omega), fread_of_lt (by omega) (by omega)]
  rfl

/-- A word has its bytes. -/
theorem word_inj (h : word p j = word q j) {i : Nat} (hi : i / 4 = j) : p i = q i := by
  have hbytes := congrArg le32 h
  rw [word, word, le32_fromLe rfl, le32_fromLe rfl] at hbytes
  simp only [List.cons.injEq, and_true] at hbytes
  obtain ⟨h0, h1, h2, h3⟩ := hbytes
  obtain rfl | rfl | rfl | rfl : i = 4 * j ∨ i = 4 * j + 1 ∨ i = 4 * j + 2 ∨ i = 4 * j + 3 := by
    omega
  · exact h0
  · exact h1
  · exact h2
  · exact h3

end Words

section Build

variable {file : Bytes} {stack heap : Nat → UInt8} {config : GPT2Config} {params : List Nat}

/-- What it takes to get a model. -/
theorem gpt2BuildFromCheckpoint_model :
    gpt2BuildFromCheckpoint (some file) stack heap = some (.model config params) ↔
      (word (fread stack 1024 file) 0 = 20240326 ∧ word (fread stack 1024 file) 1 = 1) ∧
        headerConfig (fread stack 1024 file) = config ∧ config.Fits ∧
          (List.range (paramSizes config).sum).map
            (word (fread heap (4 * (paramSizes config).sum) (file.drop 1024))) = params := by
  rw [gpt2BuildFromCheckpoint]
  dsimp only
  constructor
  · intro h
    split_ifs at h with hmagic hversion hfits
    · cases h
    · cases h
    · obtain ⟨rfl, rfl⟩ := Build.model.inj (Option.some.inj h)
      exact ⟨⟨not_not.mp hmagic, not_not.mp hversion⟩, rfl, hfits, rfl⟩
  · rintro ⟨⟨hmagic, hversion⟩, rfl, hfits, rfl⟩
    rw [if_neg (not_not_intro hmagic), if_neg (not_not_intro hversion), if_pos hfits]

end Build

/-! ### The format -/

section Format

variable (config : GPT2Config) (weights : ParameterTensor → Nat → UInt32)

def paramSize (x : ParameterTensor) : Nat := extentOf paramPtrs (paramSizes config) x

/-- The header, with unused words at its end. -/
def checkpointHeader : List Nat :=
  [20240326, 1, config.maxSeqLen, config.vocabSize, config.numLayers, config.numHeads,
    config.channels] ++ List.replicate 249 0

def tensorWords (x : ParameterTensor) : List Nat :=
  (List.range (paramSize config x)).map fun i => (weights x i).toNat

def checkpointWords : List Nat := paramPtrs.flatMap (tensorWords config weights)

/-- The file of a model: its header, and its tensors one behind the other. -/
def checkpoint : Bytes := (checkpointHeader config ++ checkpointWords config weights).flatMap le32

theorem map_length_tensorWords :
    paramPtrs.map (fun x => (tensorWords config weights x).length) = paramSizes config := by
  simp only [tensorWords, List.length_map, List.length_range]
  rfl

theorem length_checkpointWords :
    (checkpointWords config weights).length = (paramSizes config).sum := by
  rw [checkpointWords, List.length_flatMap, map_length_tensorWords]

theorem length_checkpointHeader : (checkpointHeader config).length = 256 := by
  rw [checkpointHeader, List.length_append, List.length_replicate]
  rfl

theorem length_words (words : List Nat) : (words.flatMap le32).length = 4 * words.length := by
  induction words with
  | nil => rfl
  | cons w words ih =>
      rw [List.flatMap_cons, List.length_append, ih, length_le32, List.length_cons]
      omega

/-- Each tensor is where the parameters are laid out. -/
theorem checkpointWords_getElem? {x : ParameterTensor} {i : Nat} (hi : i < paramSize config x) :
    (checkpointWords config weights)[mallocAndPointParameters config x + i]? =
      some (weights x i).toNat := by
  have hlength : (tensorWords config weights x).length = paramSize config x := by
    rw [tensorWords, List.length_map, List.length_range]
  have hplace := @getElem?_layOut _ _ _ (tensorWords config weights) _ nodup_paramPtrs []
    (fun _ => 0) x (mem_paramPtrs x) i (hlength.symm ▸ hi)
  rw [map_length_tensorWords] at hplace
  refine hplace.trans ?_
  rw [tensorWords, List.getElem?_map, List.getElem?_range hi, Option.map_some]

theorem checkpointWords_lt {w : Nat} (hw : w ∈ checkpointWords config weights) : w < 2 ^ 32 := by
  obtain ⟨x, -, hx⟩ := List.mem_flatMap.mp hw
  obtain ⟨i, -, rfl⟩ := List.mem_map.mp hx
  exact UInt32.toNat_lt _

/-- A checkpoint is read back, whatever is behind it and in the memory before. -/
theorem build_checkpoint (hfits : config.Fits) (more : Bytes) (stack heap : Nat → UInt8) :
    gpt2BuildFromCheckpoint (some (checkpoint config weights ++ more)) stack heap =
      some (.model config (checkpointWords config weights)) := by
  have hlength : (checkpoint config weights ++ more).length =
      4 * (256 + (paramSizes config).sum) + more.length := by
    rw [List.length_append, checkpoint, length_words, List.length_append,
      length_checkpointWords, length_checkpointHeader]
  have hfields : ∀ {j w : Nat}, (checkpointHeader config)[j]? = some w → w < 2 ^ 32 →
      word (fread stack 1024 (checkpoint config weights ++ more)) j = w := by
    intro j w hj hw
    have hlt := (List.getElem?_eq_some_iff.mp hj).1
    have hlt' := length_checkpointHeader config ▸ hlt
    rw [word_fread (by omega) (by omega), checkpoint]
    exact wordAt_words (by rw [List.getElem?_append_left hlt, hj]) hw more
  have htensors : (checkpoint config weights ++ more).drop 1024 =
      (checkpointWords config weights).flatMap le32 ++ more := by
    have hheader : ((checkpointHeader config).flatMap le32).length = 1024 := by
      rw [length_words, length_checkpointHeader]
    rw [checkpoint, List.flatMap_append, List.append_assoc, ← hheader, List.drop_left]
  have hmaxT := hfits.fields config.maxSeqLen (by simp)
  have hV := hfits.fields config.vocabSize (by simp)
  have hL := hfits.fields config.numLayers (by simp)
  have hNH := hfits.fields config.numHeads (by simp)
  have hC := hfits.fields (4 * config.channels) (by simp)
  refine gpt2BuildFromCheckpoint_model.mpr ⟨⟨?_, ?_⟩, ?_, hfits, ?_⟩
  · exact @hfields 0 _ rfl (by decide)
  · exact @hfields 1 _ rfl (by decide)
  · rw [headerConfig, @hfields 2 _ rfl (by omega), @hfields 3 _ rfl (by omega),
      @hfields 4 _ rfl (by omega), @hfields 5 _ rfl (by omega), @hfields 6 _ rfl (by omega)]
  · rw [htensors, ← length_checkpointWords config weights]
    refine List.ext_getElem (by rw [List.length_map, List.length_range]) fun j hj hj' => ?_
    rw [List.getElem_map, List.getElem_range, word_fread (by omega) (by
      rw [List.length_append, length_words]
      omega)]
    exact wordAt_words (List.getElem?_eq_getElem hj')
      (checkpointWords_lt config weights (List.getElem_mem hj')) more

end Format

/-! ### Complete files -/

section Complete

variable {file : Bytes} {stack heap : Nat → UInt8} {config : GPT2Config} {params : List Nat}

/-- **The weights are those of the file exactly when it is complete.** A file with the fields of
the header gives the same model whatever the memory held before, if and only if it has a
word for every parameter. -/
theorem checkpoint_complete_iff (hheader : 28 ≤ file.length)
    (h : gpt2BuildFromCheckpoint (some file) stack heap = some (.model config params)) :
    (∀ stack' heap',
        gpt2BuildFromCheckpoint (some file) stack' heap' = some (.model config params)) ↔
      4 * (paramSizes config).sum ≤ file.length - 1024 := by
  obtain ⟨⟨hmagic, hversion⟩, hconfig, hfits, hparams⟩ := gpt2BuildFromCheckpoint_model.mp h
  constructor
  · intro hsame
    by_contra hshort
    -- the first byte that is missing
    have hother := (gpt2BuildFromCheckpoint_model.mp (hsame stack fun i => heap i + 1)).2.2.2
    have hwords := List.map_inj_left.mp (hother.trans hparams.symm)
    have hword := hwords ((file.length - 1024) / 4) (List.mem_range.mpr (by omega))
    have hbyte := word_inj hword rfl
    rw [fread, fread, if_pos (by omega), if_pos (by omega),
      List.getElem?_eq_none (by rw [List.length_drop]), Option.getD_none, Option.getD_none] at hbyte
    exact absurd (UInt8.add_eq_left.mp hbyte) (by decide)
  · intro hcomplete stack' heap'
    have hfields : ∀ j ≤ 6, word (fread stack' 1024 file) j = word (fread stack 1024 file) j :=
      fun j hj => by
        rw [word_fread (by omega) (by omega), word_fread (by omega) (by omega)]
    refine gpt2BuildFromCheckpoint_model.mpr ⟨⟨?_, ?_⟩, ?_, hfits, ?_⟩
    · rw [hfields 0 (by decide), hmagic]
    · rw [hfields 1 (by decide), hversion]
    · rw [← hconfig, headerConfig, headerConfig, hfields 2 (by decide), hfields 3 (by decide),
        hfields 4 (by decide), hfields 5 (by decide), hfields 6 (by decide)]
    · rw [← hparams]
      refine List.map_congr_left fun j hj => ?_
      have hlt := List.mem_range.mp hj
      rw [word_fread (by omega) (by rw [List.length_drop]; omega),
        word_fread (by omega) (by rw [List.length_drop]; omega)]

theorem checkpoint_complete_one :
    (∀ stack' heap', gpt2BuildFromCheckpoint (some (checkpoint ⟨20, 2, 1, 1, 1⟩ fun _ _ => 0))
        stack' heap' =
          some (.model ⟨20, 2, 1, 1, 1⟩ (checkpointWords ⟨20, 2, 1, 1, 1⟩ fun _ _ => 0))) ↔
      4 * (paramSizes ⟨20, 2, 1, 1, 1⟩).sum ≤
        (checkpoint ⟨20, 2, 1, 1, 1⟩ fun _ _ => 0).length - 1024 := by
  have hbuild := build_checkpoint ⟨20, 2, 1, 1, 1⟩ (fun _ _ => 0) (by decide) [] (fun _ => 0)
    fun _ => 0
  rw [List.append_nil] at hbuild
  exact checkpoint_complete_iff (by decide +kernel) hbuild

end Complete

/-! ### From the file to the text -/

section Program

variable {F : Type} (ops : FloatOps F) (ofBits : Nat → F)

/-- `params_memory[i]`; `ofBits` is the number with these bits. -/
def paramAt (params : List Nat) (i : Nat) : F := ofBits (params.getD i 0)

/-- A run of the program that gets a model; the memory for it holds anything before. -/
def ProgramRuns (modelFile : Option Bytes) (args : List Bytes) (s' : Generation F) : Prop :=
  ∃ stack heap config params,
    gpt2BuildFromCheckpoint modelFile stack heap = some (.model config params) ∧
      MainRuns ops config (paramAt ofBits params) args s'

end Program

section Program

variable {F : Type} {ops : FloatOps F} {config : GPT2Config} {args : List Bytes}

/-- **What is printed follows from the tensors in the file.** For a complete checkpoint of a
configuration that is supported and token ids as arguments, all runs of the program end in the same
way, with each tensor as it is in the file, whatever memory and activations held and however the
threads were interleaved. -/
theorem program_runs_checkpoint (hfits : config.Fits) (hconfig : config.Supports tokenLimit)
    (hV : 1 ≤ config.vocabSize) (hargs : args ≠ []) (hlength : args.length < tokenLimit)
    (hvalid : ∀ arg ∈ args, InVocabulary config.vocabSize (toInt (strtol arg)))
    (ofBits : Nat → F) (weights : ParameterTensor → Nat → UInt32) (more : Bytes) :
    ∃ s, (∀ s', ProgramRuns ops ofBits (some (checkpoint config weights ++ more)) args s' ↔
        s' = s) ∧
      (∀ x, ∀ i < paramSize config x,
        s.weights (mallocAndPointParameters config x + i) = ofBits (weights x i).toNat) ∧
      s.printed = (List.range' args.length (tokenLimit - args.length)).map s.tokens := by
  refine ⟨generation ops config (paramAt ofBits (checkpointWords config weights)) args,
    fun s' => ?_, fun x i hi => ?_, generated_printed⟩
  · rw [← mainRuns_iff hconfig hV hargs hlength hvalid]
    constructor
    · rintro ⟨stack, heap, config', params, hbuild, hruns⟩
      rw [build_checkpoint config weights hfits] at hbuild
      obtain ⟨rfl, rfl⟩ := Build.model.inj (Option.some.inj hbuild)
      exact hruns
    · exact fun hruns => ⟨fun _ => 0, fun _ => 0, config, _,
        build_checkpoint config weights hfits more _ _, hruns⟩
  · rw [generation, generated_weights]
    show ofBits ((checkpointWords config weights).getD _ 0) = _
    rw [List.getD_eq_getElem?_getD, checkpointWords_getElem? config weights hi, Option.getD_some]

/-- A model with one layer and one channel, and the token 1 of two. -/
theorem program_runs_checkpoint_one :
    ∃ s, (∀ s', ProgramRuns floatOps (fun bits => Float32.ofBits (UInt32.ofNat bits))
        (some (checkpoint ⟨20, 2, 1, 1, 1⟩ (fun _ _ => 0) ++ [])) [ascii "1"] s' ↔ s' = s) ∧
      (∀ x, ∀ i < paramSize ⟨20, 2, 1, 1, 1⟩ x,
        s.weights (mallocAndPointParameters ⟨20, 2, 1, 1, 1⟩ x + i) =
          Float32.ofBits (UInt32.ofNat (0 : UInt32).toNat)) ∧
      s.printed = (List.range' 1 19).map s.tokens :=
  program_runs_checkpoint (by decide) ⟨by decide, by decide, by decide, by decide, by decide⟩
    (by decide) (by decide) (by decide) (List.forall_mem_singleton.mpr ⟨by decide, by decide⟩) _ _ _

end Program

end NjuOs.Gpt
