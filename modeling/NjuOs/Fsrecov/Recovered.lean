import Mathlib.Data.List.Induction
import NjuOs.Fsrecov.Addresses
import NjuOs.Fsrecov.LongName

/-!
What becomes of a file that `analyze_entry` accepts.

`disk_finish` is the address of the last byte, and a file is cut when its end, the
address behind its last byte, is greater: one that ends with the image loses a
byte (`exact_size_iff`). `save_and_hash` means to cut padding behind a name that
ends in `bmp`; its loop stores a NUL behind every `p`, so what is printed ends
with the first one (`printed_name_iff`).
-/

namespace NjuOs.Fsrecov

open NjuOs.Lib

/-! ### The size -/

section Size

variable {d : Disk} {longs : List Int} {mainEntry : Int} {file : RecoveredFile}

/-- `DIR_FileSize`. -/
def dirFileSize (d : Disk) (entry : Int) : Nat := d.le32 (entry + 28)

/-- The file has the size that its entry gives, or ends with the image. -/
structure ExactSize (d : Disk) (mainEntry : Int) (file : RecoveredFile) : Prop where
  whole : file.dataStart + dirFileSize d mainEntry ≤ d.size →
    file.dataSize = dirFileSize d mainEntry
  cut : d.size < file.dataStart + dirFileSize d mainEntry →
    (file.dataSize : Int) = d.size - file.dataStart
  inside : file.dataStart + file.dataSize ≤ d.size

theorem diskFinish_eq (hload : LoadDiskImage d) : diskFinish d = d.size - 1 := by
  rw [diskFinish, hload.2.2]

/-- What is handed to `save_and_hash`. -/
theorem saved_of_analyzeEntry (hsaved : analyzeEntry d longs mainEntry = .saved file) :
    file.dataStart = entryClusterBase d mainEntry ∧ file.dataSize = recoveredSize d mainEntry := by
  obtain ⟨filename, dataStart, dataSize⟩ := file
  rw [analyzeEntry] at hsaved
  split at hsaved
  case isTrue => cases hsaved
  case isFalse =>
    cases hname : assembleName d longs with
    | none =>
        rw [hname] at hsaved
        cases hsaved
    | some fullName =>
        rw [hname] at hsaved
        obtain ⟨-, hstart, hsize⟩ := RecoveredFile.mk.inj (Analyzed.saved.inj hsaved)
        exact ⟨hstart.symm, hsize.symm⟩

theorem recoveredSize_eq :
    recoveredSize d mainEntry =
      if entryClusterBase d mainEntry + dirFileSize d mainEntry > diskFinish d then
        ((diskFinish d - entryClusterBase d mainEntry) % 2 ^ 32).toNat
      else dirFileSize d mainEntry := by
  rw [recoveredSize, dirFileSize]

theorem recoveredSize_of_before (hload : LoadDiskImage d)
    (hend : entryClusterBase d mainEntry + dirFileSize d mainEntry < d.size) :
    recoveredSize d mainEntry = dirFileSize d mainEntry := by
  rw [recoveredSize_eq, diskFinish_eq hload, if_neg (by omega)]

theorem recoveredSize_of_behind (hload : LoadDiskImage d)
    (hend : d.size ≤ entryClusterBase d mainEntry + dirFileSize d mainEntry) :
    (recoveredSize d mainEntry : Int) = (d.size - entryClusterBase d mainEntry - 1) % 2 ^ 32 := by
  rw [recoveredSize_eq, diskFinish_eq hload, if_pos (by omega)]
  omega

/-- **The recovered size is exact** exactly when the file ends before the last byte
of the image. -/
theorem exact_size_iff (hload : LoadDiskImage d)
    (hsaved : analyzeEntry d longs mainEntry = .saved file) :
    ExactSize d mainEntry file ↔
      entryClusterBase d mainEntry + dirFileSize d mainEntry < d.size := by
  obtain ⟨hstart, hsize⟩ := saved_of_analyzeEntry hsaved
  constructor
  · intro hexact
    by_contra hlong
    have hbehind := recoveredSize_of_behind hload (Int.not_lt.mp hlong)
    have hcut : (file.dataSize : Int) = d.size - file.dataStart := by
      rcases (Int.not_lt.mp hlong).lt_or_eq with hlt | heq
      · exact hexact.cut (hstart ▸ hlt)
      · have hwhole := hexact.whole (by omega)
        omega
    -- one byte less, even where the subtraction wraps
    rw [hsize, hstart] at hcut
    omega
  · intro hend
    have hbefore := recoveredSize_of_before hload hend
    rw [← hsize] at hbefore
    rw [← hstart] at hend
    refine ⟨fun _ => hbefore, fun hcut => ?_, ?_⟩
    · omega
    · omega

end Size

/-- `oneFileImage` with a file of 512 bytes, the last ones of the image. -/
def lastFileImage : Disk where
  size := 1536
  byte p := if p = 572 then 0 else if p = 573 then 2 else (oneFileImage aBmp.chars).byte p

theorem lastFileImage_exactAddresses : ExactAddresses lastFileImage := by
  have hload : LoadDiskImage lastFileImage := ⟨by decide, by decide, by decide⟩
  have hdocumented : Documented lastFileImage :=
    ⟨hload, by decide, by decide, by decide, by decide⟩
  exact hdocumented.exactAddresses (.inr (by decide))

/-- A file of 16 bytes in front of the end. -/
theorem exact_size_one_file :
    ExactSize (oneFileImage aBmp.chars) 544 ⟨aBmp.chars ++ [0xFF, 0xFF], 1024, 16⟩ := by
  have hload : LoadDiskImage (oneFileImage aBmp.chars) := ⟨by decide, by decide, by decide⟩
  have hsaved : analyzeEntry (oneFileImage aBmp.chars) [512] 544 =
      .saved ⟨aBmp.chars ++ [0xFF, 0xFF], 1024, 16⟩ := by decide +kernel
  exact (exact_size_iff hload hsaved).mpr (by decide)

/-- The file ends with the image, and its last byte is lost. -/
theorem last_byte_lost :
    LoadDiskImage lastFileImage ∧ ExactAddresses lastFileImage ∧
      .analyze [⟨some 512, 2⟩] ∈ performFullScan lastFileImage ∧
      dirFileSize lastFileImage 544 = 512 ∧
      ∃ file, analyzeEntry lastFileImage [512] 544 = .saved file ∧ file.dataStart = 1024 ∧
        file.dataSize = 511 ∧ ¬ ExactSize lastFileImage 544 file := by
  have hsaved : analyzeEntry lastFileImage [512] 544 =
      .saved ⟨aBmp.chars ++ [0xFF, 0xFF], 1024, 511⟩ := by decide +kernel
  refine ⟨⟨by decide, by decide, by decide⟩, lastFileImage_exactAddresses, by decide +kernel,
    by decide, _, hsaved, rfl, rfl, fun h => ?_⟩
  exact absurd (h.whole (by decide)) (by decide)

/-! ### The name -/

/-- `'p'`. -/
def letterP : UInt8 := 0x70

/-- The loop of `save_and_hash`, with `i` characters still to be looked at. -/
def cutPadding : Nat → Bytes → Bytes
  | 0, filename => filename
  | i + 1, filename =>
      cutPadding i (if filename[i]? = some letterP then filename.set (i + 1) 0 else filename)

/-- The name behind the loop. -/
def printedName (filename : Bytes) : Bytes := cstr (cutPadding filename.length (filename ++ [0]))

/-- What `save_and_hash` prints; `hash` is the word that is read from `sha1sum`, if the
temporary file is there and a word is read. -/
def saveAndHash (hash : Option Bytes) (file : RecoveredFile) : Bytes :=
  match hash with
  | some hash => hash ++ [0x20, 0x20] ++ printedName file.filename ++ [0x0A]
  | none => []

/-- `.bmp` -/
def bmpSuffix : Bytes := [0x2E, 0x62, 0x6D, letterP]

/-- A name up to its first `p`. -/
def upToP : Bytes → Bytes
  | [] => []
  | c :: name => if c = letterP then [letterP] else c :: upToP name

section Name

theorem cstr_append {name : Bytes} (h : (0 : UInt8) ∉ name) (rest : Bytes) :
    cstr (name ++ rest) = name ++ cstr rest := by
  rw [cstr, List.takeWhile_append_of_pos]
  · rfl
  · intro b hb
    have hne : b ≠ 0 := fun hzero => h (hzero ▸ hb)
    simpa using hne

theorem upToP_append (name rest : Bytes) :
    upToP (name ++ rest) = if letterP ∈ name then upToP name else name ++ upToP rest := by
  induction name with
  | nil => simp
  | cons c name ih =>
      rw [List.cons_append, upToP, upToP, ih]
      by_cases hc : c = letterP
      · simp [hc]
      · by_cases hname : letterP ∈ name
        · simp [hc, hname]
        · simp [hc, hname, Ne.symm hc]

theorem length_upToP_le (name : Bytes) : (upToP name).length ≤ name.length := by
  induction name with
  | nil => exact Nat.le_refl _
  | cons c name ih =>
      rw [upToP]
      split
      case isTrue => exact Nat.succ_le_succ (Nat.zero_le _)
      case isFalse => exact Nat.succ_le_succ ih

/-- The loop goes backwards, so a NUL behind an earlier `p` is stored later. -/
theorem cutPadding_append {name : Bytes} (h : (0 : UInt8) ∉ name) :
    ∀ {rest : Bytes}, rest ≠ [] →
      cstr (cutPadding name.length (name ++ rest)) =
        if letterP ∈ name then upToP name else name ++ cstr rest := by
  induction name using List.reverseRecOn with
  | nil => simp [cutPadding]
  | append_singleton name c ih =>
      intro rest hrest
      obtain ⟨b, rest, rfl⟩ := List.exists_cons_of_ne_nil hrest
      rw [List.mem_append, List.mem_singleton, not_or] at h
      have hchar : (name ++ [c] ++ b :: rest)[name.length]? = some c := by simp
      rw [List.length_append, List.length_singleton, cutPadding, hchar, upToP_append]
      by_cases hc : c = letterP
      · have hset : (name ++ [c] ++ b :: rest).set (name.length + 1) 0 =
            name ++ (letterP :: 0 :: rest) := by
          simp [hc]
        have hcut : cstr (letterP :: 0 :: rest) = [letterP] := rfl
        rw [if_pos (congrArg some hc), hset, ih h.1 (List.cons_ne_nil _ _), hcut, hc]
        simp [upToP]
      · have hassoc : name ++ [c] ++ b :: rest = name ++ ([c] ++ b :: rest) := by simp
        have hchars : (0 : UInt8) ∉ [c] := by simpa using h.2
        rw [if_neg (fun heq => hc (Option.some.inj heq)), hassoc, ih h.1 (by simp),
          cstr_append hchars]
        by_cases hmem : letterP ∈ name
        · simp [hmem]
        · simp [hmem, Ne.symm hc]

theorem printedName_eq {name : Bytes} (h : (0 : UInt8) ∉ name) : printedName name = upToP name := by
  have hself := upToP_append name []
  have hnul : cstr [0] = [] := rfl
  rw [printedName, cutPadding_append h (List.cons_ne_nil _ _), hnul]
  simpa [upToP] using hself.symm

/-- **The name of the file is printed** exactly if there is no `p` in front of its `.bmp`. -/
theorem printed_name_iff {name : Bytes} (hname : (0 : UInt8) ∉ name) (pad : Nat) (hash : Bytes)
    (file : RecoveredFile)
    (hfile : file.filename = name ++ bmpSuffix ++ List.replicate pad 0xFF) :
    saveAndHash (some hash) file = hash ++ [0x20, 0x20] ++ (name ++ bmpSuffix) ++ [0x0A] ↔
      letterP ∉ name := by
  have hpad : (0 : UInt8) ∉ bmpSuffix ++ List.replicate pad 0xFF := by
    simp [bmpSuffix, letterP, List.mem_replicate]
  have hnul : (0 : UInt8) ∉ file.filename := by
    rw [hfile, List.append_assoc, List.mem_append, not_or]
    exact ⟨hname, hpad⟩
  have hcut : upToP (bmpSuffix ++ List.replicate pad 0xFF) = bmpSuffix := by
    rw [upToP_append, if_pos (by decide)]
    rfl
  rw [saveAndHash, printedName_eq hnul, List.append_cancel_right_eq, List.append_cancel_left_eq,
    hfile, List.append_assoc, upToP_append, hcut]
  by_cases hp : letterP ∈ name
  · rw [if_pos hp]
    refine iff_of_false (fun heq => ?_) (not_not.mpr hp)
    have hlength := congrArg List.length heq
    have hle := length_upToP_le name
    rw [List.length_append, bmpSuffix, List.length_cons] at hlength
    omega
  · rw [if_neg hp]
    exact iff_of_true rfl hp

end Name

/-- `cat.bmp` -/
theorem printed_name_cat :
    saveAndHash (some [0x61]) ⟨[0x63, 0x61, 0x74] ++ bmpSuffix ++ List.replicate 2 0xFF, 0, 0⟩ =
      [0x61, 0x20, 0x20] ++ ([0x63, 0x61, 0x74] ++ bmpSuffix) ++ [0x0A] :=
  (printed_name_iff (by decide) 2 [0x61] _ rfl).mpr (by decide)

/-- Of `map.bmp`, the first three letters are printed. -/
theorem map_bmp_cut :
    saveAndHash (some [0x61]) ⟨[0x6D, 0x61, letterP] ++ bmpSuffix, 0, 0⟩ =
      [0x61, 0x20, 0x20, 0x6D, 0x61, letterP, 0x0A] ∧
    saveAndHash (some [0x61]) ⟨[0x6D, 0x61, letterP] ++ bmpSuffix, 0, 0⟩ ≠
      [0x61, 0x20, 0x20] ++ ([0x6D, 0x61, letterP] ++ bmpSuffix) ++ [0x0A] := by
  decide

end NjuOs.Fsrecov
