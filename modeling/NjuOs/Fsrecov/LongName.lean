import NjuOs.Fsrecov.Basic

/-!
The name that `analyze_entry` assembles from long entries.

A long entry holds 13 units of the name in three parts. `decode_long_name` reads
each part with a loop of its own, so a NUL ends one part and not the name: the
padding of the parts behind it is taken for characters. How much of it there is
depends on where the name ends in its last entry (`leftover`); with the name in
front of it, it also has to fit into `full_name`.
-/

namespace NjuOs.Fsrecov

open NjuOs.Lib

/-! ### decode_long_name -/

section LongEntry

variable (d : Disk) (lfn : Int)

def namePart1 : List Nat := (List.range 5).map fun (i : Nat) => d.le16 (lfn + 1 + 2 * i)

def namePart2 : List Nat := (List.range 6).map fun (i : Nat) => d.le16 (lfn + 14 + 2 * i)

def namePart3 : List Nat := (List.range 2).map fun (i : Nat) => d.le16 (lfn + 28 + 2 * i)

/-- One loop of `decode_long_name`: it stops at a NUL, and a unit is stored in a `char`. -/
def decodePart (part : List Nat) : Bytes := (part.takeWhile (· ≠ 0)).map UInt8.ofNat

/-- What `decode_long_name` stores in front of the terminator. -/
def decodeLongName : Bytes :=
  decodePart (namePart1 d lfn) ++ decodePart (namePart2 d lfn) ++ decodePart (namePart3 d lfn)

end LongEntry

/-! ### analyze_entry -/

/-- `struct recovered_file`. -/
structure RecoveredFile where
  filename : Bytes
  dataStart : Int
  dataSize : Nat
deriving DecidableEq, Repr

inductive Analyzed where
  | skipped
  /-- `strcat` writes behind the end of `full_name`. -/
  | overflow
  /-- The argument of `save_and_hash`. -/
  | saved (file : RecoveredFile)
deriving DecidableEq, Repr

/-- `strcat(full_name, name_part)`; `none` if the result does not fit into 256 bytes. -/
def strcatFullName (fullName namePart : Bytes) : Option Bytes :=
  let joined := fullName ++ cstr namePart
  if joined.length < 256 then some joined else none

/-- The loop from entry `count - 2` down to entry 0. -/
def assembleName (d : Disk) (longs : List Int) : Option Bytes :=
  longs.reverse.foldlM (fun fullName lfn => strcatFullName fullName (decodeLongName d lfn)) []

/-- `BM_HEADER`. -/
def bmHeader : Nat := 0x4D42

/-- `ATTR_DIRECTORY`. -/
def attrDirectory : UInt8 := 0x10

/-- `disk_finish`, the address of the last byte; the product is one of `u32`. -/
def diskFinish (d : Disk) : Int := (totSec32 d * bytsPerSec d % 2 ^ 32 : Nat) - 1

/-- The base of the cluster that an entry names. -/
def entryClusterBase (d : Disk) (mainEntry : Int) : Int :=
  getClusterBase d (toInt32 (firstCluster d mainEntry))

/-- The two tests in front of the name. -/
def skipsEntry (d : Disk) (mainEntry : Int) : Bool :=
  firstCluster d mainEntry = 0 ∨
    -- the comparison is one of `u32`
    (firstCluster d mainEntry : Int) > (totalClusterCount d + 1) % 2 ^ 32 ∨
    d.byte (mainEntry + 11) &&& attrDirectory ≠ 0 ∨ d.byte mainEntry = 0xE5 ∨
    d.le16 (entryClusterBase d mainEntry) ≠ bmHeader

/-- `strncpy(full_name, base_name, 11)`. -/
def shortName (d : Disk) (mainEntry : Int) : Bytes :=
  cstr ((List.range 11).map fun (i : Nat) => d.byte (mainEntry + i))

def recoveredSize (d : Disk) (mainEntry : Int) : Nat :=
  let clusterBase := entryClusterBase d mainEntry
  let fileSize := d.le32 (mainEntry + 28)
  if clusterBase + fileSize > diskFinish d then ((diskFinish d - clusterBase) % 2 ^ 32).toNat
  else fileSize

/-- `analyze_entry` of a group: the entries in front of the last one, and the last one. -/
def analyzeEntry (d : Disk) (longs : List Int) (mainEntry : Int) : Analyzed :=
  if skipsEntry d mainEntry then .skipped
  else
    match assembleName d longs with
    | none => .overflow
    | some fullName =>
        .saved
          { filename := if fullName = [] then shortName d mainEntry else fullName
            dataStart := entryClusterBase d mainEntry
            dataSize := recoveredSize d mainEntry }

/-! ### Long names on disk -/

/-- An ASCII name of 1 to 255 characters. -/
structure FileName where
  chars : Bytes
  ascii : chars.all fun c => c ≠ 0 ∧ c < 128
  nonempty : chars ≠ []
  fits : chars.length ≤ 255

theorem FileName.nulFree (name : FileName) : (0 : UInt8) ∉ name.chars :=
  fun h => (of_decide_eq_true (List.all_eq_true.mp name.ascii 0 h)).1 rfl

/-- The units of the last entry: a NUL behind the characters if there is room,
and 0xFFFF behind the NUL. -/
def lastUnits (chars : Bytes) : List Nat :=
  chars.map UInt8.toNat ++
    if chars.length < 13 then 0 :: List.replicate (12 - chars.length) 0xFFFF else []

/-- The units of the entries of a name, entry number 1 first. -/
def entryUnits (chars : Bytes) : List (List Nat) :=
  if chars.length ≤ 13 then [lastUnits chars]
  else (chars.take 13).map UInt8.toNat :: entryUnits (chars.drop 13)
termination_by chars.length

/-- The 13 units of a long entry. -/
def nameUnits (d : Disk) (lfn : Int) : List Nat :=
  namePart1 d lfn ++ namePart2 d lfn ++ namePart3 d lfn

/-- The long entries hold the name, the one with the highest number first. -/
def StoresName (d : Disk) (longs : List Int) (chars : Bytes) : Prop :=
  longs.reverse.map (nameUnits d) = entryUnits chars

/-! ### One entry -/

/-- Characters in front of a part are decoded one by one. -/
theorem decodePart_append {chars : Bytes} (h : (0 : UInt8) ∉ chars) (rest : List Nat) :
    decodePart (chars.map UInt8.toNat ++ rest) = chars ++ decodePart rest := by
  induction chars with
  | nil => rfl
  | cons c chars ih =>
      rw [List.mem_cons, not_or] at h
      have unit : c.toNat ≠ 0 := fun h0 => h.1 (UInt8.toNat_inj.mp h0).symm
      have tail := ih h.2
      simp only [decodePart, List.map_cons, List.cons_append] at tail ⊢
      rw [List.takeWhile_cons_of_pos (by simpa using unit), List.map_cons, tail,
        UInt8.ofNat_toNat]

theorem decodePart_nul (rest : List Nat) : decodePart (0 :: rest) = [] := rfl

theorem decodePart_chars {chars : Bytes} (h : (0 : UInt8) ∉ chars) :
    decodePart (chars.map UInt8.toNat) = chars := by
  have := decodePart_append h []
  simpa only [List.append_nil] using this.trans (List.append_nil chars)

theorem decodePart_append_nul {chars : Bytes} (h : (0 : UInt8) ∉ chars) (rest : List Nat) :
    decodePart (chars.map UInt8.toNat ++ 0 :: rest) = chars := by
  rw [decodePart_append h, decodePart_nul, List.append_nil]

/-- Padding is read as characters. -/
theorem decodePart_padding (n : Nat) :
    decodePart (List.replicate n 0xFFFF) = List.replicate n 0xFF := by
  rw [decodePart, List.takeWhile_replicate, if_pos (by simp), List.map_replicate]
  rfl

/-- `decode_long_name` on the units of an entry. -/
def decodeUnits (units : List Nat) : Bytes :=
  decodePart (units.take 5) ++ decodePart ((units.drop 5).take 6) ++ decodePart (units.drop 11)

theorem decodeUnits_parts {part1 part2 : List Nat} (len1 : part1.length = 5)
    (len2 : part2.length = 6) (part3 : List Nat) :
    decodeUnits (part1 ++ part2 ++ part3) =
      decodePart part1 ++ decodePart part2 ++ decodePart part3 := by
  have len12 : (part1 ++ part2).length = 11 := by rw [List.length_append, len1, len2]
  have take5 : (part1 ++ part2 ++ part3).take 5 = part1 := by
    rw [List.append_assoc, List.take_left' len1]
  have drop5 : (part1 ++ part2 ++ part3).drop 5 = part2 ++ part3 := by
    rw [List.append_assoc, List.drop_left' len1]
  rw [decodeUnits, take5, drop5, List.take_left' len2, List.drop_left' len12]

theorem decodeLongName_eq (d : Disk) (lfn : Int) :
    decodeLongName d lfn = decodeUnits (nameUnits d lfn) := by
  have len1 : (namePart1 d lfn).length = 5 := by rw [namePart1, List.length_map, List.length_range]
  have len2 : (namePart2 d lfn).length = 6 := by rw [namePart2, List.length_map, List.length_range]
  rw [nameUnits, decodeUnits_parts len1 len2, decodeLongName]

/-- The parts of a name that reaches into the third one. -/
theorem chars_parts (chars : Bytes) :
    chars.take 5 ++ (chars.drop 5).take 6 ++ chars.drop 11 = chars := by
  have third : chars.drop 11 = (chars.drop 5).drop 6 := by rw [List.drop_drop]
  rw [third, List.append_assoc, List.take_append_drop, List.take_append_drop]

/-- The characters that the padding behind a name is taken for, when the last
entry holds `r` characters of it. -/
def leftover (r : Nat) : Nat := if r < 5 then 8 else if r < 11 then 2 else 0

section LastEntry

variable {chars : Bytes} (nulFree : (0 : UInt8) ∉ chars)

include nulFree

theorem decodePart_take (n : Nat) :
    decodePart ((chars.take n).map UInt8.toNat) = chars.take n :=
  decodePart_chars fun h => nulFree (List.mem_of_mem_take h)

theorem decodePart_drop_take (m n : Nat) :
    decodePart (((chars.drop m).take n).map UInt8.toNat) = (chars.drop m).take n :=
  decodePart_chars fun h => nulFree (List.mem_of_mem_drop (List.mem_of_mem_take h))

theorem nulFree_drop (m : Nat) : (0 : UInt8) ∉ chars.drop m :=
  fun h => nulFree (List.mem_of_mem_drop h)

theorem decodeUnits_full (full : chars.length = 13) :
    decodeUnits (chars.map UInt8.toNat) = chars := by
  have units : chars.map UInt8.toNat = (chars.take 5).map UInt8.toNat ++
      ((chars.drop 5).take 6).map UInt8.toNat ++ (chars.drop 11).map UInt8.toNat := by
    rw [← List.map_append, ← List.map_append, chars_parts]
  rw [units, decodeUnits_parts (by simp [full]) (by simp [full]), decodePart_take nulFree,
    decodePart_drop_take nulFree, decodePart_chars (nulFree_drop nulFree 11), chars_parts]

/-- The name ends in the first part. -/
theorem decodeUnits_part1 (short : chars.length < 5) :
    decodeUnits (lastUnits chars) = chars ++ List.replicate 8 0xFF := by
  have padding : 0 :: List.replicate (12 - chars.length) 0xFFFF =
      (0 :: List.replicate (4 - chars.length) 0xFFFF) ++ List.replicate 6 0xFFFF ++
        List.replicate 2 0xFFFF := by
    rw [List.cons_append, List.cons_append, List.replicate_append_replicate,
      List.replicate_append_replicate]
    congr 2
    omega
  rw [lastUnits, if_pos (by omega), padding, ← List.append_assoc, ← List.append_assoc,
    decodeUnits_parts (by simp; omega) (by simp), decodePart_append_nul nulFree,
    decodePart_padding, decodePart_padding, List.append_assoc, List.replicate_append_replicate]

/-- The name ends in the second part. -/
theorem decodeUnits_part2 (long : 5 ≤ chars.length) (short : chars.length < 11) :
    decodeUnits (lastUnits chars) = chars ++ List.replicate 2 0xFF := by
  have units : lastUnits chars = (chars.take 5).map UInt8.toNat ++
      ((chars.drop 5).map UInt8.toNat ++ 0 :: List.replicate (10 - chars.length) 0xFFFF) ++
        List.replicate 2 0xFFFF := by
    have padding : List.replicate (12 - chars.length) 0xFFFF =
        List.replicate (10 - chars.length) 0xFFFF ++ List.replicate 2 0xFFFF := by
      rw [List.replicate_append_replicate]
      congr 1
      omega
    rw [lastUnits, if_pos (by omega), padding]
    simp only [List.append_assoc, List.cons_append]
    rw [← List.append_assoc (List.map _ _), ← List.map_append, List.take_append_drop]
  rw [units, decodeUnits_parts (by simp; omega) (by simp; omega), decodePart_take nulFree,
    decodePart_append_nul (nulFree_drop nulFree 5), decodePart_padding, List.take_append_drop]

/-- The name ends in the third part. -/
theorem decodeUnits_part3 (long : 11 ≤ chars.length) (short : chars.length < 13) :
    decodeUnits (lastUnits chars) = chars := by
  have units : lastUnits chars = (chars.take 5).map UInt8.toNat ++
      ((chars.drop 5).take 6).map UInt8.toNat ++
        ((chars.drop 11).map UInt8.toNat ++ 0 :: List.replicate (12 - chars.length) 0xFFFF) := by
    rw [lastUnits, if_pos short, ← List.append_assoc, ← List.map_append, ← List.map_append,
      chars_parts]
  rw [units, decodeUnits_parts (by simp; omega) (by simp; omega), decodePart_take nulFree,
    decodePart_drop_take nulFree, decodePart_append_nul (nulFree_drop nulFree 11), chars_parts]

theorem decodeUnits_lastUnits (fits : chars.length ≤ 13) :
    decodeUnits (lastUnits chars) = chars ++ List.replicate (leftover chars.length) 0xFF := by
  rw [leftover]
  split_ifs with part1 part2
  · exact decodeUnits_part1 nulFree part1
  · exact decodeUnits_part2 nulFree (not_lt.mp part1) part2
  · rw [List.replicate_zero, List.append_nil]
    rcases fits.lt_or_eq with short | full
    · exact decodeUnits_part3 nulFree (not_lt.mp part2) short
    · rw [lastUnits, if_neg full.not_lt, List.append_nil]
      exact decodeUnits_full nulFree full

end LastEntry

/-! ### The whole name -/

/-- What `strcat` appends for an entry with these units. -/
def appended (units : List Nat) : Bytes := cstr (decodeUnits units)

theorem appended_full {chars : Bytes} (h : (0 : UInt8) ∉ chars) (full : chars.length = 13) :
    appended (chars.map UInt8.toNat) = chars := by
  rw [appended, decodeUnits_full h full, cstr_eq_self h]

theorem appended_lastUnits {chars : Bytes} (h : (0 : UInt8) ∉ chars) (fits : chars.length ≤ 13) :
    appended (lastUnits chars) = chars ++ List.replicate (leftover chars.length) 0xFF := by
  have nulFree : (0 : UInt8) ∉ chars ++ List.replicate (leftover chars.length) 0xFF := by
    rw [List.mem_append, not_or]
    exact ⟨h, fun h0 => absurd (List.eq_of_mem_replicate h0) (by decide)⟩
  rw [appended, decodeUnits_lastUnits h fits, cstr_eq_self nulFree]

/-- The number of characters in the last entry of a name of `n`. -/
def lastLength (n : Nat) : Nat := (n - 1) % 13 + 1

theorem appended_entryUnits {chars : Bytes} (h : (0 : UInt8) ∉ chars) (nonempty : chars ≠ []) :
    (entryUnits chars).flatMap appended =
      chars ++ List.replicate (leftover (lastLength chars.length)) 0xFF := by
  induction chars using entryUnits.induct with
  | case1 chars fits =>
      have pos := List.length_pos_iff.mpr nonempty
      have last : lastLength chars.length = chars.length := by rw [lastLength]; omega
      rw [entryUnits, if_pos fits, List.flatMap_singleton, appended_lastUnits h fits, last]
  | case2 chars long ih =>
      have full : (chars.take 13).length = 13 := by rw [List.length_take]; omega
      have tail : chars.drop 13 ≠ [] := by
        rw [Ne, List.drop_eq_nil_iff]
        exact long
      have last : lastLength (chars.drop 13).length = lastLength chars.length := by
        rw [lastLength, lastLength, List.length_drop]
        omega
      rw [entryUnits, if_neg long, List.flatMap_cons, ih (nulFree_drop h 13) tail, last,
        appended_full (fun h0 => h (List.mem_of_mem_take h0)) full, ← List.append_assoc,
        List.take_append_drop]

/-- `strcat` in a loop: all that is appended, if it fits into `full_name`. -/
theorem strcatFullName_foldlM (d : Disk) (longs : List Int) {fullName : Bytes}
    (fits : fullName.length < 256) :
    longs.foldlM (fun fullName lfn => strcatFullName fullName (decodeLongName d lfn)) fullName =
      let joined := fullName ++ (longs.map (nameUnits d)).flatMap appended
      if joined.length < 256 then some joined else none := by
  induction longs generalizing fullName with
  | nil => simpa using fits
  | cons lfn longs ih =>
      rw [List.foldlM_cons, strcatFullName, decodeLongName_eq, List.map_cons, List.flatMap_cons,
        ← appended, ← List.append_assoc]
      by_cases next : (fullName ++ appended (nameUnits d lfn)).length < 256
      · simp only [if_pos next]
        exact ih next
      · have tooLong : ¬ (fullName ++ appended (nameUnits d lfn) ++
            (longs.map (nameUnits d)).flatMap appended).length < 256 := by
          rw [List.length_append]
          omega
        simp only [if_neg next, if_neg tooLong]
        rfl

/-- What `analyze_entry` assembles from the entries of a name. -/
theorem assembleName_eq {d : Disk} {longs : List Int} {name : FileName}
    (stored : StoresName d longs name.chars) :
    assembleName d longs =
      let joined := name.chars ++ List.replicate (leftover (lastLength name.chars.length)) 0xFF
      if joined.length < 256 then some joined else none := by
  have joined := strcatFullName_foldlM d longs.reverse (show ([] : Bytes).length < 256 by decide)
  rw [stored, appended_entryUnits name.nulFree name.nonempty, List.nil_append] at joined
  exact joined

theorem leftover_eq_zero {r : Nat} : leftover r = 0 ↔ 11 ≤ r := by
  unfold leftover
  split_ifs with part1 part2
  · exact iff_of_false (by decide) (by omega)
  · exact iff_of_false (by decide) (by omega)
  · exact iff_of_true rfl (not_lt.mp part2)

theorem leftover_lastLength_eq_zero {n : Nat} (pos : 0 < n) :
    leftover (lastLength n) = 0 ↔ n % 13 = 0 ∨ n % 13 = 11 ∨ n % 13 = 12 := by
  rw [leftover_eq_zero, lastLength]
  omega

theorem analyzeEntry_stored {d : Disk} {longs : List Int} {mainEntry : Int} {name : FileName}
    (stored : StoresName d longs name.chars) (reached : skipsEntry d mainEntry = false) :
    analyzeEntry d longs mainEntry =
      let joined := name.chars ++ List.replicate (leftover (lastLength name.chars.length)) 0xFF
      if joined.length < 256 then
        .saved ⟨joined, entryClusterBase d mainEntry, recoveredSize d mainEntry⟩
      else .overflow := by
  have nonempty :
      name.chars ++ List.replicate (leftover (lastLength name.chars.length)) 0xFF ≠ [] :=
    List.append_ne_nil_of_left_ne_nil name.nonempty _
  rw [analyzeEntry, reached, if_neg Bool.false_ne_true, assembleName_eq stored]
  by_cases fits : (name.chars ++
      List.replicate (leftover (lastLength name.chars.length)) 0xFF).length < 256
  · simp only [if_pos fits, if_neg nonempty]
  · simp only [if_neg fits]

/-- The name of a file comes back exactly if its last entry has no padding in
front of the last part. -/
theorem analyzeEntry_longName_iff (d : Disk) (longs : List Int) (mainEntry : Int)
    (name : FileName) (stored : StoresName d longs name.chars)
    (reached : skipsEntry d mainEntry = false) :
    (∃ file, analyzeEntry d longs mainEntry = .saved file ∧ file.filename = name.chars) ↔
      name.chars.length % 13 = 0 ∨ name.chars.length % 13 = 11 ∨
        name.chars.length % 13 = 12 := by
  rw [← leftover_lastLength_eq_zero (List.length_pos_iff.mpr name.nonempty),
    analyzeEntry_stored stored reached]
  constructor
  · rintro ⟨file, saved, filename⟩
    by_cases fits : (name.chars ++
        List.replicate (leftover (lastLength name.chars.length)) 0xFF).length < 256
    · simp only [if_pos fits, Analyzed.saved.injEq] at saved
      rw [← saved, List.append_right_eq_self, List.replicate_eq_nil_iff] at filename
      exact filename
    · simp only [if_neg fits, reduceCtorEq] at saved
  · intro none_left
    have fits : name.chars.length < 256 := Nat.lt_succ_of_le name.fits
    simp only [none_left, List.replicate_zero, List.append_nil, if_pos fits]
    exact ⟨_, rfl, rfl⟩

/-- A long entry of the name parts, with sequence number 1. -/
def longEntryBytes (units : List Nat) : Bytes :=
  let word (n : Nat) : Bytes := [UInt8.ofNat n, UInt8.ofNat (n / 2 ^ 8)]
  [0x41] ++ (units.take 5).flatMap word ++ [0x0F, 0, 0] ++
    ((units.drop 5).take 6).flatMap word ++ [0, 0] ++ (units.drop 11).flatMap word

/-- An image of three sectors: the header, a directory with one file, and the
bitmap of the file. -/
def oneFileImage (chars : Bytes) : Disk where
  size := 1536
  byte p :=
    if 512 ≤ p ∧ p < 544 then (longEntryBytes (lastUnits chars)).getD (p - 512).toNat 0
    else
      -- the header, the short entry at 544, the bitmap at 1024
      ([(12, 2), (13, 1), (14, 1), (32, 3), (510, 0x55), (511, 0xAA), (544, 0x41), (570, 3),
        (572, 16), (1024, 0x42), (1025, 0x4D)].lookup p).getD 0

theorem storesName_short {d : Disk} {lfn : Int} {chars : Bytes} (short : chars.length ≤ 13)
    (units : nameUnits d lfn = lastUnits chars) : StoresName d [lfn] chars := by
  rw [StoresName, entryUnits, if_pos short, List.reverse_singleton, List.map_singleton, units]

/-- The name `picture.bmp`, which ends in the third part. -/
def pictureBmp : FileName where
  chars := [0x70, 0x69, 0x63, 0x74, 0x75, 0x72, 0x65, 0x2E, 0x62, 0x6D, 0x70]
  ascii := by decide
  nonempty := by decide
  fits := by decide

theorem analyzeEntry_longName_picture :
    ∃ file, analyzeEntry (oneFileImage pictureBmp.chars) [512] 544 = .saved file ∧
      file.filename = pictureBmp.chars :=
  (analyzeEntry_longName_iff (oneFileImage pictureBmp.chars) [512] 544 pictureBmp
    (storesName_short (by decide) (by decide)) (by decide)).mpr (by decide)

/-- The name `a.bmp`, which ends in the second part. -/
def aBmp : FileName where
  chars := [0x61, 0x2E, 0x62, 0x6D, 0x70]
  ascii := by decide
  nonempty := by decide
  fits := by decide

/-- Two units of padding come back as characters. -/
theorem analyzeEntry_longName_a_bmp :
    StoresName (oneFileImage aBmp.chars) [512] aBmp.chars ∧
      skipsEntry (oneFileImage aBmp.chars) 544 = false ∧
      ∃ file, analyzeEntry (oneFileImage aBmp.chars) [512] 544 = .saved file ∧
        file.filename = aBmp.chars ++ [0xFF, 0xFF] ∧ file.filename ≠ aBmp.chars := by
  have stored : StoresName (oneFileImage aBmp.chars) [512] aBmp.chars :=
    storesName_short (by decide) (by decide)
  have reached : skipsEntry (oneFileImage aBmp.chars) 544 = false := by decide
  refine ⟨stored, reached, _, analyzeEntry_stored stored reached, rfl, ?_⟩
  rw [Ne, List.append_right_eq_self]
  exact List.cons_ne_nil _ _

end NjuOs.Fsrecov
