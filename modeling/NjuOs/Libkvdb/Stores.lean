import NjuOs.Libkvdb.Session

/-!
Where `kvdb_get` stores bytes: in the caller's buffer, and in its own blocks.

* `caller_buffer_iff`: what is stored through `buf` fits in it, and is counted by
  the result, exactly when a key that exists is asked for with a length that is
  not zero and a count that fits in an `int`. For length zero, `length - 1` is
  the largest `size_t`, and the whole value is stored.
* `parse_stores_iff`: the parse loop ends on every file, and the blocks that it
  allocates for keys and values have room for what is read into them exactly when
  no length field that the loop reaches is `2^32 - 1`.
-/

namespace NjuOs.Libkvdb

open NjuOs.Lib

/-! ### The caller's buffer -/

/-- What is stored fits in the buffer; for a key that exists, the result is the
number of bytes of the value that were stored. -/
structure GetResult.Respects (res : GetResult) (found : Option Bytes) (length : UInt64) :
    Prop where
  fits : res.stored.length ≤ length.toNat
  counts : ∀ value, found = some value → res.ret = (res.stored.length : Int) - 1 ∧ 0 ≤ res.ret

theorem length_copyValue (value : Bytes) (length : UInt64) :
    (copyValue value length).stored.length = min value.length (length - 1).toNat + 1 := by
  unfold copyValue
  generalize (length - 1).toNat = m
  rw [List.length_append, List.length_take, List.length_singleton, Nat.min_assoc, Nat.min_comm m,
    ← Nat.min_assoc, Nat.min_self]

theorem lookupResult_respects_iff (found : Option Bytes) (length : UInt64) :
    (lookupResult found length).Respects found length ↔
      ∀ value, found = some value →
        1 ≤ length ∧ min value.length (length.toNat - 1) < 2 ^ 31 := by
  cases found with
  | none =>
      refine ⟨fun _ value h => absurd h (by simp), fun _ => ⟨Nat.zero_le _, ?_⟩⟩
      exact fun value h => absurd h (by simp)
  | some value =>
      have hstored : (lookupResult (some value) length).stored.length =
          min value.length (length - 1).toNat + 1 := length_copyValue value length
      have hret : (lookupResult (some value) length).ret =
          toInt (min value.length (length - 1).toNat) := by rw [lookupResult, copyValue]
      have hpos : 1 ≤ length ↔ 1 ≤ length.toNat := UInt64.le_iff_toNat_le
      constructor
      · rintro ⟨hfits, hcounts⟩ _ ⟨⟩
        rw [hstored] at hfits
        have hle : 1 ≤ length := hpos.mpr (by omega)
        have hsub : (length - 1).toNat = length.toNat - 1 := UInt64.toNat_sub_of_le _ _ hle
        obtain ⟨hcount, -⟩ := hcounts value rfl
        rw [hret, hstored, Nat.cast_add, Nat.cast_one, Int.add_sub_cancel, toInt_eq_iff,
          hsub] at hcount
        exact ⟨hle, hcount⟩
      · intro h
        obtain ⟨hle, hcount⟩ := h value rfl
        have hsub : (length - 1).toNat = length.toNat - 1 := UInt64.toNat_sub_of_le _ _ hle
        rw [← hsub, ← toInt_eq_iff] at hcount
        refine ⟨?_, ?_⟩
        · rw [hstored, hsub]
          have := hpos.mp hle
          omega
        · rintro _ -
          rw [hret, hstored, hcount]
          omega

/-- **When the caller's buffer is respected.** -/
theorem caller_buffer_iff {sys : Sys} (hs : sys.AllOk) {db : Kvdb} (h : db.InFile)
    {rs : List Record} (hdecode : log.decode db.view.bytes = some rs) (key : CString)
    (length : UInt64) :
    ∃ res db', kvdbGet sys db key length = .ok (res, db') ∧
      (res.Respects (lastValue rs key) length ↔
        ∀ value, lastValue rs key = some value →
          1 ≤ length ∧ min value.length (length.toNat - 1) < 2 ^ 31) := by
  have hget := kvdbGet_spec hs h key length
  rw [hdecode] at hget
  exact ⟨_, _, hget, lookupResult_respects_iff _ _⟩

/-- A handle on a file of one record. -/
def oneRecord : Kvdb := ⟨log.encodeAll [putRecord (.single 107) (.single 118)], 0, ⟨[], 0⟩⟩

theorem oneRecord_decode :
    log.decode oneRecord.view.bytes = some [putRecord (.single 107) (.single 118)] := by
  rw [oneRecord, Kvdb.view_of_flushed (Nat.zero_le _)]
  exact decode_encodeAll (by decide)

theorem caller_buffer_eight_bytes :
    ∃ res db', kvdbGet .ideal oneRecord (.single 107) 8 = .ok (res, db') ∧
      res.Respects (lastValue [putRecord (.single 107) (.single 118)] (.single 107)) 8 := by
  obtain ⟨res, db', hget, hiff⟩ := @caller_buffer_iff .ideal Sys.ideal_allOk oneRecord
    (Nat.zero_le _) _ oneRecord_decode (.single 107) 8
  refine ⟨res, db', hget, hiff.mpr ?_⟩
  rintro _ ⟨⟩
  exact ⟨by decide, by decide⟩

/-- With length zero the value and its terminator are stored all the same. -/
theorem caller_buffer_zero_length :
    ∃ res db', kvdbGet .ideal oneRecord (.single 107) 0 = .ok (res, db') ∧
      ¬ res.Respects (lastValue [putRecord (.single 107) (.single 118)] (.single 107)) 0 := by
  have hget := kvdbGet_spec Sys.ideal_allOk (show oneRecord.InFile from Nat.zero_le _)
    (.single 107) 0
  rw [oneRecord_decode] at hget
  refine ⟨_, _, hget, fun h => ?_⟩
  exact absurd ((lookupResult_respects_iff _ _).mp h _ rfl).1 (by decide)

/-! ### The blocks of the parse loop -/

/-- A block for a key or a value: the bytes requested from `malloc`, and the bytes
that `read_exact` stores there. -/
structure Block where
  requested : Nat
  stored : Nat

/-- There is room for what is stored and a terminator. -/
def Block.HasRoom (b : Block) : Prop := b.stored + 1 ≤ b.requested

/-- The block of `readString`; `malloc(len + 1)` is computed in `uint32_t`. -/
def stringBlock (sys : Sys) (file : Bytes) (offset len : Nat) : Block :=
  ⟨(len + 1) % 2 ^ 32, (readExact sys file offset len).data.length⟩

def stringBlocks (sys : Sys) (file : Bytes) (malloc : Bool) (offset len : Nat) : List Block :=
  if malloc = false then [] else [stringBlock sys file offset len]

/-- The blocks that `readRecord` allocates. -/
def recordBlocks (sys : Sys) (file : Bytes) (offset : Nat) : List Block :=
  let rk := readExact sys file offset 4
  if rk.ret ≠ 4 then []
  else
    let rv := readExact sys file rk.offset 4
    if rv.ret ≠ 4 then []
    else
      stringBlocks sys file (sys.mallocKey offset) rv.offset (fromLe rk.data) ++
        match readString sys file (sys.mallocKey offset) rv.offset (fromLe rk.data) with
        | .ok (some _, offset') =>
            stringBlocks sys file (sys.mallocValue offset) offset' (fromLe rv.data)
        | _ => []

/-- The blocks that `parseLoop` allocates for keys and values. -/
def parseBlocks (sys : Sys) (file : Bytes) : Nat → Nat → List Entry → List Block
  | 0, _, _ => []
  | fuel + 1, offset, entries =>
      recordBlocks sys file offset ++
        match readRecord sys file offset with
        | .ok (some (key, value), offset') =>
            match updateEntry key value entries with
            | some entries => parseBlocks sys file fuel offset' entries
            | none =>
                if sys.reallocEntries offset then
                  parseBlocks sys file fuel offset' (entries ++ [(key, value)])
                else []
        | _ => []

/-- The length fields that are reached from the front of a file: a field is passed
when the bytes that it announces are there. -/
def reached (bs : Bytes) : List Nat :=
  if bs.length < 8 then []
  else
    let keyLen := fromLe (bs.take 4)
    let valueLen := fromLe ((bs.drop 4).take 4)
    if bs.length < 8 + keyLen then [keyLen]
    else if bs.length < 8 + keyLen + valueLen then [keyLen, valueLen]
    else keyLen :: valueLen :: reached (bs.drop (8 + keyLen + valueLen))
termination_by bs.length
decreasing_by
  rw [List.length_drop]
  omega

/-! ### Reads that may stop anywhere -/

/-- Whatever the kernel answers, `read_exact` stores the front of the rest of the
file, at most the count, and reports how much, or `-1`. -/
theorem readExactLoop_stores (sys : Sys) (file : Bytes) (count : Nat) :
    ∀ (fuel offset : Nat) (data : Bytes), data.length ≤ count → ∃ chunk,
      (readExactLoop sys file count fuel offset data).data = data ++ chunk ∧
      (data ++ chunk).length ≤ count ∧ chunk <+: file.drop offset ∧
      (readExactLoop sys file count fuel offset data).offset = offset + chunk.length ∧
      ((readExactLoop sys file count fuel offset data).ret = ((data ++ chunk).length : Nat) ∨
        (readExactLoop sys file count fuel offset data).ret = -1) := by
  intro fuel
  induction fuel with
  | zero =>
      intro offset data hle
      refine ⟨[], ?_, by rwa [List.append_nil], List.nil_prefix, rfl, .inl ?_⟩ <;>
        simp only [readExactLoop, List.append_nil]
  | succ fuel ih =>
      intro offset data hle
      rw [readExactLoop]
      by_cases hlt : data.length < count
      · rw [if_pos hlt]
        cases sys.read offset (count - data.length) with
        | none => exact ⟨[], by simp [hle]⟩
        | some n =>
            dsimp only
            have hk : min (max n 1) (count - data.length) ≤ count - data.length := min_le_right _ _
            generalize min (max n 1) (count - data.length) = k at hk ⊢
            obtain ⟨rest, hrest⟩ := List.take_prefix k (file.drop offset)
            have hlen := (List.length_take_le k (file.drop offset)).trans hk
            generalize (file.drop offset).take k = chunk at hrest hlen ⊢
            by_cases hzero : chunk.length = 0
            · rw [if_pos hzero]
              exact ⟨[], by simp [hle]⟩
            · -- the rest of the loop reads behind the chunk
              rw [if_neg hzero]
              have hdrop : file.drop (offset + chunk.length) = rest := by
                rw [← List.drop_drop, ← hrest, List.drop_left]
              obtain ⟨more, hdata, hcount, ⟨rest', hrest'⟩, hoffset, hret⟩ :=
                ih (offset + chunk.length) (data ++ chunk) (by rw [List.length_append]; omega)
              rw [hdrop] at hrest'
              rw [List.append_assoc] at hdata hcount hret
              refine ⟨chunk ++ more, hdata, hcount, ⟨rest', ?_⟩, ?_, hret⟩
              · rw [← hrest, ← hrest', List.append_assoc]
              · rw [hoffset, List.length_append, Nat.add_assoc]
      · rw [if_neg hlt]
        exact ⟨[], by simp [hle]⟩

theorem readExact_stored_le (sys : Sys) (file : Bytes) (offset count : Nat) :
    (readExact sys file offset count).data.length ≤ count := by
  obtain ⟨chunk, hdata, hcount, -⟩ :=
    readExactLoop_stores sys file count count offset [] (Nat.zero_le _)
  rw [readExact, hdata]
  exact hcount

/-- A read that reports the whole count has stored it. -/
theorem readExact_of_ret {sys : Sys} {file : Bytes} {offset count : Nat}
    (h : (readExact sys file offset count).ret = (count : Nat)) :
    count ≤ (file.drop offset).length ∧
      (readExact sys file offset count).data = (file.drop offset).take count ∧
      (readExact sys file offset count).offset = offset + count := by
  obtain ⟨chunk, hdata, -, hprefix, hoffset, hret⟩ :=
    readExactLoop_stores sys file count count offset [] (Nat.zero_le _)
  change (readExact sys file offset count).data = chunk at hdata
  change (readExact sys file offset count).offset = offset + chunk.length at hoffset
  change (readExact sys file offset count).ret = (chunk.length : Nat) ∨
    (readExact sys file offset count).ret = -1 at hret
  have hlen : chunk.length = count := by omega
  refine ⟨hlen ▸ hprefix.length_le, ?_, by rw [hoffset, hlen]⟩
  rw [hdata, ← hlen]
  exact List.prefix_iff_eq_take.mp hprefix

theorem stringBlock_hasRoom_iff (sys : Sys) (file : Bytes) (offset : Nat) {len : Nat}
    (hlen : len < 2 ^ 32) : (stringBlock sys file offset len).HasRoom ↔ ¬ Wraps len := by
  have hle := readExact_stored_le sys file offset len
  rw [Block.HasRoom, stringBlock]
  unfold Wraps
  constructor
  · rintro hroom hwraps
    rw [hwraps, Nat.mod_self] at hroom
    exact absurd hroom (Nat.not_succ_le_zero _)
  · intro hwraps
    rw [Nat.mod_eq_of_lt (lt_of_le_of_ne hlen hwraps)]
    exact Nat.succ_le_succ hle

theorem mem_stringBlocks {sys : Sys} {file : Bytes} {malloc : Bool} {offset len : Nat} {b : Block}
    (h : b ∈ stringBlocks sys file malloc offset len) : b = stringBlock sys file offset len := by
  unfold stringBlocks at h
  split_ifs at h
  · cases h
  · exact List.mem_singleton.mp h

/-- A string that is read is the next one of the file. -/
theorem readString_some {sys : Sys} {file : Bytes} {malloc : Bool} {offset len offset' : Nat}
    {data : Bytes} (h : readString sys file malloc offset len = .ok (some data, offset')) :
    len ≤ (file.drop offset).length ∧ offset' = offset + len := by
  unfold readString at h
  dsimp only at h
  split_ifs at h with hmalloc hfull hret hterm
  · cases h
  · cases h
  · obtain ⟨hle, -, hoffset⟩ := readExact_of_ret (not_ne_iff.mp hret)
    exact ⟨hle, (congrArg Prod.snd (Except.ok.inj h)).symm.trans hoffset⟩

/-- The two length fields at the front. -/
theorem reached_of_header {bs : Bytes} (h8 : 8 ≤ bs.length) :
    fromLe (bs.take 4) ∈ reached bs ∧
      (8 + fromLe (bs.take 4) ≤ bs.length → fromLe ((bs.drop 4).take 4) ∈ reached bs ∧
        (8 + fromLe (bs.take 4) + fromLe ((bs.drop 4).take 4) ≤ bs.length →
          ∀ len ∈ reached (bs.drop (8 + fromLe (bs.take 4) + fromLe ((bs.drop 4).take 4))),
            len ∈ reached bs)) := by
  rw [reached, if_neg (Nat.not_lt.mpr h8)]
  dsimp only
  refine ⟨?_, fun hkey => ⟨?_, fun hvalue len hlen => ?_⟩⟩
  · split_ifs <;> exact List.mem_cons_self
  · rw [if_neg (Nat.not_lt.mpr hkey)]
    split_ifs <;> exact List.mem_cons_of_mem _ List.mem_cons_self
  · rw [if_neg (Nat.not_lt.mpr hkey), if_neg (Nat.not_lt.mpr hvalue)]
    exact List.mem_cons_of_mem _ (List.mem_cons_of_mem _ hlen)

/-! ### Every file -/

section Files

variable {sys : Sys} {file : Bytes}

/-- The length fields that a pass reads when both reads are whole. -/
theorem header_of_ret {offset : Nat} (hk : (readExact sys file offset 4).ret = 4)
    (hv : (readExact sys file (readExact sys file offset 4).offset 4).ret = 4) :
    8 ≤ (file.drop offset).length ∧
      (readExact sys file offset 4).data = (file.drop offset).take 4 ∧
      (readExact sys file (readExact sys file offset 4).offset 4).data =
        ((file.drop offset).drop 4).take 4 ∧
      (readExact sys file (readExact sys file offset 4).offset 4).offset = offset + 8 := by
  obtain ⟨-, hkdata, hkoffset⟩ := @readExact_of_ret sys file offset 4 (by exact_mod_cast hk)
  rw [hkoffset] at hv ⊢
  obtain ⟨hle, hvdata, hvoffset⟩ := @readExact_of_ret sys file (offset + 4) 4 (by exact_mod_cast hv)
  rw [← List.drop_drop] at hle hvdata
  rw [List.length_drop] at hle
  exact ⟨by omega, hkdata, hvdata, hvoffset⟩

/-- The blocks of one pass are for fields that are reached. -/
theorem mem_recordBlocks {offset : Nat} {b : Block} (h : b ∈ recordBlocks sys file offset) :
    ∃ len ∈ reached (file.drop offset), len < 2 ^ 32 ∧
      ∃ start, b = stringBlock sys file start len := by
  unfold recordBlocks at h
  dsimp only at h
  split_ifs at h with hk hv
  · cases h
  · cases h
  · obtain ⟨h8, hkdata, hvdata, hvoffset⟩ := header_of_ret (not_ne_iff.mp hk) (not_ne_iff.mp hv)
    obtain ⟨hkey, hrest⟩ := reached_of_header h8
    rw [hkdata, hvdata, hvoffset] at h
    rcases List.mem_append.mp h with h | h
    · exact ⟨_, hkey, fromLe_take_lt _, _, mem_stringBlocks h⟩
    · split at h
      · rename_i key offset' hstring
        obtain ⟨hle, rfl⟩ := readString_some hstring
        rw [List.length_drop] at hle h8
        have hvalue := (hrest (by rw [List.length_drop]; omega)).1
        exact ⟨_, hvalue, fromLe_take_lt _, _, mem_stringBlocks h⟩
      · cases h

/-- A pass that continues leaves the record behind. -/
theorem readRecord_some {offset offset' : Nat} {e : Entry}
    (h : readRecord sys file offset = .ok (some e, offset')) :
    offset < offset' ∧ offset' ≤ file.length ∧
      ∀ len ∈ reached (file.drop offset'), len ∈ reached (file.drop offset) := by
  unfold readRecord at h
  dsimp only at h
  split_ifs at h with hk hv
  · cases h
  · cases h
  · obtain ⟨h8, hkdata, hvdata, hvoffset⟩ := header_of_ret (not_ne_iff.mp hk) (not_ne_iff.mp hv)
    obtain ⟨-, hrest⟩ := reached_of_header h8
    rw [hkdata, hvdata, hvoffset] at h
    split at h
    · cases h
    · cases h
    · rename_i key offset₁ hkey
      obtain ⟨hkle, rfl⟩ := readString_some hkey
      split at h
      · cases h
      · cases h
      · rename_i value offset₂ hvalue
        obtain ⟨hvle, hoffset₂⟩ := readString_some hvalue
        cases h
        rw [List.length_drop] at hkle hvle h8
        have hlater := (hrest (by rw [List.length_drop]; omega)).2
          (by rw [List.length_drop]; omega)
        rw [List.drop_drop] at hlater
        refine ⟨by omega, by omega, fun len hlen => hlater len ?_⟩
        rwa [hoffset₂, Nat.add_assoc, Nat.add_assoc, ← Nat.add_assoc 8] at hlen

/-- A field that faults has a block without room. -/
theorem readString_error {malloc : Bool} {offset len : Nat} {e : Fault}
    (h : readString sys file malloc offset len = .error e) :
    e = .heapOverflow ∧ malloc = true ∧ ¬ (stringBlock sys file offset len).HasRoom := by
  unfold readString at h
  dsimp only at h
  unfold Block.HasRoom stringBlock
  split_ifs at h with hmalloc hfull hret hterm
  · cases h
    exact ⟨rfl, Bool.eq_true_of_not_eq_false hmalloc, by dsimp only; omega⟩
  · cases h
    obtain ⟨hle, hdata, -⟩ := readExact_of_ret (not_ne_iff.mp hret)
    refine ⟨rfl, Bool.eq_true_of_not_eq_false hmalloc, ?_⟩
    rw [hdata, List.length_take_of_le hle]
    exact Nat.not_le_of_lt (Nat.lt_succ_of_le hterm)

/-- A pass that faults has a block without room. -/
theorem readRecord_error {offset : Nat} {e : Fault}
    (h : readRecord sys file offset = .error e) :
    e = .heapOverflow ∧ ∃ b ∈ recordBlocks sys file offset, ¬ b.HasRoom := by
  unfold readRecord at h
  unfold recordBlocks
  dsimp only at h ⊢
  split_ifs at h ⊢ with hk hv
  split at h
  · rename_i e' hkey
    cases h
    obtain ⟨he, hmalloc, hroom⟩ := readString_error hkey
    refine ⟨he, _, List.mem_append_left _ ?_, hroom⟩
    rw [stringBlocks, hmalloc]
    exact List.mem_singleton_self _
  · cases h
  · rename_i key offset' hkey
    split at h
    · rename_i e' hvalue
      cases h
      obtain ⟨he, hmalloc, hroom⟩ := readString_error hvalue
      refine ⟨he, _, List.mem_append_right _ ?_, hroom⟩
      simp only [hkey, stringBlocks, hmalloc]
      exact List.mem_singleton_self _
    · cases h
    · cases h

/-- Every block is for a field that is reached. -/
theorem mem_parseBlocks {b : Block} :
    ∀ (fuel offset : Nat) (entries : List Entry), b ∈ parseBlocks sys file fuel offset entries →
      ∃ len ∈ reached (file.drop offset), len < 2 ^ 32 ∧
        ∃ start, b = stringBlock sys file start len := by
  intro fuel
  induction fuel with
  | zero => exact fun _ _ h => absurd h (List.not_mem_nil)
  | succ fuel ih =>
      intro offset entries h
      rw [parseBlocks] at h
      rcases List.mem_append.mp h with h | h
      · exact mem_recordBlocks h
      · split at h
        · rename_i key value offset' hrecord
          obtain ⟨-, -, hreached⟩ := readRecord_some hrecord
          have hnext : ∀ entries', b ∈ parseBlocks sys file fuel offset' entries' →
              ∃ len ∈ reached (file.drop offset), len < 2 ^ 32 ∧
                ∃ start, b = stringBlock sys file start len := fun entries' h => by
            obtain ⟨len, hlen, hblock⟩ := ih offset' entries' h
            exact ⟨len, hreached len hlen, hblock⟩
          split at h
          · exact hnext _ h
          · split_ifs at h
            · exact hnext _ h
            · cases h
        · cases h

/-- One pass a byte is enough, whatever the kernel answers. -/
theorem parseLoop_ends :
    ∀ (fuel offset : Nat) (entries : List Entry), file.length - offset < fuel →
      parseLoop sys file fuel offset entries ≠ .error .outOfFuel := by
  intro fuel
  induction fuel with
  | zero => exact fun _ _ h => absurd h (Nat.not_lt_zero _)
  | succ fuel ih =>
      intro offset entries hfuel hloop
      rw [parseLoop] at hloop
      split at hloop
      · rename_i e hrecord
        cases hloop
        exact absurd (readRecord_error hrecord).1 (by decide)
      · cases hloop
      · rename_i key value offset' hrecord
        obtain ⟨hlt, hle, -⟩ := readRecord_some hrecord
        have hfuel' : file.length - offset' < fuel := by omega
        split at hloop
        · exact ih _ _ hfuel' hloop
        · split_ifs at hloop
          exact ih _ _ hfuel' hloop

/-- The blocks of a loop that goes on behind a key that was seen before. -/
theorem parseBlocks_update {fuel offset offset' : Nat} {entries entries' : List Entry}
    {key value : Bytes} (hrecord : readRecord sys file offset = .ok (some (key, value), offset'))
    (hupdate : updateEntry key value entries = some entries') :
    parseBlocks sys file (fuel + 1) offset entries =
      recordBlocks sys file offset ++ parseBlocks sys file fuel offset' entries' := by
  rw [parseBlocks]
  simp only [hrecord, hupdate]

/-- The blocks of a loop that goes on behind a new key. -/
theorem parseBlocks_append {fuel offset offset' : Nat} {entries : List Entry}
    {key value : Bytes} (hrecord : readRecord sys file offset = .ok (some (key, value), offset'))
    (hupdate : updateEntry key value entries = none) (hrealloc : sys.reallocEntries offset = true) :
    parseBlocks sys file (fuel + 1) offset entries =
      recordBlocks sys file offset ++
        parseBlocks sys file fuel offset' (entries ++ [(key, value)]) := by
  rw [parseBlocks]
  simp only [hrecord, hupdate, hrealloc, if_true]

/-- A fault of the loop is a block without room. -/
theorem exists_block_of_fault :
    ∀ (fuel offset : Nat) (entries : List Entry),
      parseLoop sys file fuel offset entries = .error .heapOverflow →
        ∃ b ∈ parseBlocks sys file fuel offset entries, ¬ b.HasRoom := by
  intro fuel
  induction fuel with
  | zero => exact fun _ _ h => absurd (Except.error.inj h) (by decide)
  | succ fuel ih =>
      intro offset entries hloop
      rw [parseLoop] at hloop
      split at hloop
      · rename_i e hrecord
        obtain ⟨-, b, hb, hroom⟩ := readRecord_error hrecord
        exact ⟨b, by rw [parseBlocks]; exact List.mem_append_left _ hb, hroom⟩
      · cases hloop
      · rename_i key value offset' hrecord
        cases hupdate : updateEntry key value entries with
        | some entries' =>
            simp only [hupdate] at hloop
            obtain ⟨b, hb, hroom⟩ := ih _ _ hloop
            rw [parseBlocks_update hrecord hupdate]
            exact ⟨b, List.mem_append_right _ hb, hroom⟩
        | none =>
            simp only [hupdate] at hloop
            split_ifs at hloop with hrealloc
            obtain ⟨b, hb, hroom⟩ := ih _ _ hloop
            rw [parseBlocks_append hrecord hupdate hrealloc]
            exact ⟨b, List.mem_append_right _ hb, hroom⟩

end Files

section Reads

variable {sys : Sys} {file : Bytes} (hs : sys.ReadsOk)

include hs

/-- A string that is there is read, unless its length wraps. -/
theorem readString_whole {offset len : Nat} (hle : offset + len ≤ file.length)
    (hlen : len < 2 ^ 32) (hwraps : ¬ Wraps len) :
    ∃ data, readString sys file true offset len = .ok (some data, offset + len) := by
  have hstring := readString_spec hs file (show offset ≤ file.length by omega) hlen
  rw [if_neg fun h => hwraps h.1, if_neg (by rw [List.length_drop]; omega)] at hstring
  exact ⟨_, hstring⟩

section Header

variable {offset : Nat} (h8 : 8 ≤ (file.drop offset).length)

include h8

/-- The two length fields are read whole. -/
theorem readExact_header :
    readExact sys file offset 4 = ⟨4, (file.drop offset).take 4, offset + 4⟩ ∧
      readExact sys file (offset + 4) 4 =
        ⟨4, ((file.drop offset).drop 4).take 4, offset + 8⟩ := by
  have hdrop : file.drop (offset + 4) = (file.drop offset).drop 4 := (List.drop_drop ..).symm
  have hlen : 4 ≤ (file.drop (offset + 4)).length := by
    rw [hdrop, List.length_drop]
    omega
  have hfirst : 4 ≤ (file.drop offset).length := Nat.le_trans (by decide) h8
  rw [readExact_whole hs hfirst, readExact_whole hs hlen, hdrop]
  exact ⟨rfl, rfl⟩

/-- The key gets a block. -/
theorem key_mem_recordBlocks :
    stringBlock sys file (offset + 8) (fromLe ((file.drop offset).take 4)) ∈
      recordBlocks sys file offset := by
  obtain ⟨hkey, hvalue⟩ := readExact_header hs h8
  simp only [recordBlocks, hkey, hvalue, stringBlocks, hs.mallocKey, ne_eq, not_true_eq_false,
    if_false, Bool.true_eq_false]
  exact List.mem_cons_self

/-- The value gets a block behind a key that is read. -/
theorem value_mem_recordBlocks (hk : ¬ Wraps (fromLe ((file.drop offset).take 4)))
    (hlen : 8 + fromLe ((file.drop offset).take 4) ≤ (file.drop offset).length) :
    stringBlock sys file (offset + 8 + fromLe ((file.drop offset).take 4))
      (fromLe (((file.drop offset).drop 4).take 4)) ∈ recordBlocks sys file offset := by
  obtain ⟨hkey, hvalue⟩ := readExact_header hs h8
  rw [List.length_drop] at hlen h8
  obtain ⟨key, hstring⟩ := readString_whole hs
    (show offset + 8 + fromLe ((file.drop offset).take 4) ≤ file.length by omega)
    (fromLe_take_lt _) hk
  simp only [recordBlocks, hkey, hvalue, stringBlocks, hs.mallocKey, hs.mallocValue, ne_eq,
    not_true_eq_false, if_false, Bool.true_eq_false, hstring]
  exact List.mem_cons_of_mem _ List.mem_cons_self

/-- A record that is there is read, unless a length wraps. -/
theorem readRecord_eq (hk : ¬ Wraps (fromLe ((file.drop offset).take 4)))
    (hv : ¬ Wraps (fromLe (((file.drop offset).drop 4).take 4)))
    (hlen : 8 + fromLe ((file.drop offset).take 4) + fromLe (((file.drop offset).drop 4).take 4) ≤
      (file.drop offset).length) :
    ∃ e, readRecord sys file offset = .ok (some e,
      offset + (8 + fromLe ((file.drop offset).take 4) +
        fromLe (((file.drop offset).drop 4).take 4))) := by
  obtain ⟨hkey, hvalue⟩ := readExact_header hs h8
  rw [List.length_drop] at hlen h8
  obtain ⟨key, hkeyString⟩ := readString_whole hs
    (show offset + 8 + fromLe ((file.drop offset).take 4) ≤ file.length by omega)
    (fromLe_take_lt _) hk
  obtain ⟨value, hvalueString⟩ := readString_whole hs
    (show offset + 8 + fromLe ((file.drop offset).take 4) +
      fromLe (((file.drop offset).drop 4).take 4) ≤ file.length by omega) (fromLe_take_lt _) hv
  simp only [readRecord, hkey, hvalue, hs.mallocKey, hs.mallocValue, ne_eq, not_true_eq_false,
    if_false, hkeyString, hvalueString]
  exact ⟨_, by rw [← Nat.add_assoc, ← Nat.add_assoc]⟩

end Header

/-- The next pass allocates its blocks too. -/
theorem parseBlocks_next {fuel offset offset' : Nat} {entries : List Entry} {e : Entry}
    (hrecord : readRecord sys file offset = .ok (some e, offset')) :
    ∃ entries', ∀ b ∈ parseBlocks sys file fuel offset' entries',
      b ∈ parseBlocks sys file (fuel + 1) offset entries := by
  obtain ⟨key, value⟩ := e
  cases hupdate : updateEntry key value entries with
  | some entries' =>
      refine ⟨entries', fun b hb => ?_⟩
      rw [parseBlocks_update hrecord hupdate]
      exact List.mem_append_right _ hb
  | none =>
      refine ⟨entries ++ [(key, value)], fun b hb => ?_⟩
      rw [parseBlocks_append hrecord hupdate (hs.reallocEntries offset)]
      exact List.mem_append_right _ hb

/-- When the reads succeed and every block has room, no field that is reached wraps. -/
theorem not_wraps_of_room :
    ∀ (fuel offset : Nat) (entries : List Entry), file.length - offset < fuel →
      (∀ b ∈ parseBlocks sys file fuel offset entries, b.HasRoom) →
      ∀ len ∈ reached (file.drop offset), ¬ Wraps len := by
  intro fuel
  induction fuel with
  | zero => exact fun _ _ h => absurd h (Nat.not_lt_zero _)
  | succ fuel ih =>
      intro offset entries hfuel hroom len hlen
      have hrecordRoom : ∀ b ∈ recordBlocks sys file offset, b.HasRoom := fun b hb =>
        hroom b (by rw [parseBlocks]; exact List.mem_append_left _ hb)
      rw [reached] at hlen
      by_cases h8 : (file.drop offset).length < 8
      · rw [if_pos h8] at hlen
        cases hlen
      have h8' := Nat.le_of_not_lt h8
      have hk : ¬ Wraps (fromLe ((file.drop offset).take 4)) :=
        (stringBlock_hasRoom_iff _ _ _ (fromLe_take_lt _)).mp
          (hrecordRoom _ (key_mem_recordBlocks hs h8'))
      rw [if_neg h8] at hlen
      dsimp only at hlen
      split_ifs at hlen with hkey hvalue
      · rw [List.mem_singleton.mp hlen]
        exact hk
      all_goals
        have hv : ¬ Wraps (fromLe (((file.drop offset).drop 4).take 4)) :=
          (stringBlock_hasRoom_iff _ _ _ (fromLe_take_lt _)).mp
            (hrecordRoom _ (value_mem_recordBlocks hs h8' hk (Nat.le_of_not_lt hkey)))
      · rcases List.mem_pair.mp hlen with rfl | rfl
        · exact hk
        · exact hv
      · rcases List.mem_cons.mp hlen with rfl | hlen
        · exact hk
        rcases List.mem_cons.mp hlen with rfl | hlen
        · exact hv
        -- a whole record: the loop goes on behind it
        obtain ⟨e, hrecord⟩ := readRecord_eq hs h8' hk hv (Nat.le_of_not_lt hvalue)
        obtain ⟨entries', hnext⟩ := @parseBlocks_next _ _ hs fuel _ _ entries _ hrecord
        rw [List.drop_drop] at hlen
        refine ih _ entries' ?_ (fun b hb => hroom b (hnext b hb)) len hlen
        rw [List.length_drop] at h8
        omega

end Reads

/-- **When reading any file is safe.** The loop ends on every file, and when it stores
behind a block, that is one of `parseBlocks`. Every one of these has room for what is stored
there exactly when no length field that is reached is `2^32 - 1`. -/
theorem parse_stores_iff (file : Bytes) :
    (∀ sys, parseLoop sys file (file.length + 1) 0 [] ≠ .error .outOfFuel ∧
      (parseLoop sys file (file.length + 1) 0 [] = .error .heapOverflow →
        ∃ b ∈ parseBlocks sys file (file.length + 1) 0 [], ¬ b.HasRoom)) ∧
      ((∀ sys, ∀ b ∈ parseBlocks sys file (file.length + 1) 0 [], b.HasRoom) ↔
        ∀ len ∈ reached file, ¬ Wraps len) := by
  refine ⟨fun sys => ⟨parseLoop_ends _ _ _ (by omega), exists_block_of_fault _ _ _⟩,
    fun h len hlen => ?_, fun h sys b hb => ?_⟩
  · exact not_wraps_of_room Sys.ideal_allOk.readsOk _ 0 [] (by omega) (h .ideal) len hlen
  · obtain ⟨len, hlen, hlt, start, rfl⟩ := mem_parseBlocks _ _ _ hb
    exact (stringBlock_hasRoom_iff sys file start hlt).mpr (h len hlen)

/-- The front of a file whose key length is `2^32 - 1`. -/
def corrupt : Bytes := [255, 255, 255, 255, 0, 0, 0, 0, 65]

/-- The key of this file gets a block of no bytes. -/
theorem parse_stores_corrupt :
    ¬ ∀ sys, ∀ b ∈ parseBlocks sys corrupt (corrupt.length + 1) 0 [], b.HasRoom := by
  intro hroom
  have hreached := (reached_of_header (show 8 ≤ corrupt.length by decide)).1
  exact not_wraps_of_room Sys.ideal_allOk.readsOk _ 0 [] (by omega) (hroom .ideal) _ hreached rfl

end NjuOs.Libkvdb
