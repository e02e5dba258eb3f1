import NjuOs.Libkvdb.Spec

/-!
What `kvdb_get` does when the kernel and the allocator do not fail.

* `readExact_spec`: short reads do not show; the bytes read are those at the
  offset, up to the count or the end of the file.
* `parseLoop_step`: one pass of the parse loop looks at the front of the rest
  of the file exactly as `recordFront` does.
* `parseLoop_spec`: the whole loop decodes the rest of the file, never runs out
  of passes, and leaves the offset at the end of the file.
* `kvdbGet_spec`: the call answers with the last value of the key in the view.
-/

namespace NjuOs.Libkvdb

open NjuOs.Lib

/-- A shorter read and the rest of the read are the whole read. -/
theorem take_append_take_drop {k m : Nat} (h : k ≤ m) (d : Bytes) :
    d.take k ++ (d.drop (d.take k).length).take (m - (d.take k).length) = d.take m := by
  rcases Nat.le_total k d.length with hk | hk
  · rw [List.length_take, Nat.min_eq_left hk, ← List.take_add, Nat.add_sub_cancel' h]
  · rw [List.take_of_length_le hk, List.drop_length, List.take_nil, List.append_nil,
      List.take_of_length_le (hk.trans h)]

/-- The calls that read the log succeed; reads may still be short. -/
structure Sys.ReadsOk (sys : Sys) : Prop where
  read : ∀ offset n, sys.read offset n ≠ none
  mallocKey : ∀ offset, sys.mallocKey offset = true
  mallocValue : ∀ offset, sys.mallocValue offset = true
  reallocEntries : ∀ offset, sys.reallocEntries offset = true

theorem Sys.AllOk.readsOk {sys : Sys} (h : sys.AllOk) : sys.ReadsOk :=
  ⟨h.read, h.mallocKey, h.mallocValue, h.reallocEntries⟩

section Reads

variable {sys : Sys}

theorem readExactLoop_spec (hs : sys.ReadsOk) (file : Bytes) (count : Nat) :
    ∀ (fuel offset : Nat) (data : Bytes), data.length ≤ count → count - data.length ≤ fuel →
      readExactLoop sys file count fuel offset data =
        let chunk := (file.drop offset).take (count - data.length)
        ⟨((data ++ chunk).length : Nat), data ++ chunk, offset + chunk.length⟩ := by
  intro fuel
  induction fuel with
  | zero =>
      intro offset data _ hfuel
      have : count - data.length = 0 := Nat.le_zero.mp hfuel
      simp [readExactLoop, this]
  | succ fuel ih =>
      intro offset data hle hfuel
      by_cases hlt : data.length < count
      · obtain ⟨n, hn⟩ := Option.ne_none_iff_exists'.mp (hs.read offset (count - data.length))
        have hkle : min (max n 1) (count - data.length) ≤ count - data.length := min_le_right _ _
        have hk : 0 < min (max n 1) (count - data.length) := by omega
        simp only [readExactLoop, if_pos hlt, hn]
        generalize min (max n 1) (count - data.length) = k at hk hkle ⊢
        have hsplit := take_append_take_drop hkle (file.drop offset)
        have hlen := (List.length_take_le k (file.drop offset)).trans hkle
        by_cases hc : ((file.drop offset).take k).length = 0
        · -- nothing was transferred: the offset is at the end of the file
          have hnil : file.drop offset = [] := by
            rcases List.take_eq_nil_iff.mp (List.length_eq_zero_iff.mp hc) with h | h
            · omega
            · exact h
          rw [if_pos hc, hnil, List.take_nil, List.append_nil, List.length_nil, Nat.add_zero]
        · generalize (file.drop offset).take k = chunk at hsplit hc hlen
          have hdrop : file.drop (offset + chunk.length) = (file.drop offset).drop chunk.length :=
            (List.drop_drop ..).symm
          have hleft : count - (data ++ chunk).length = count - data.length - chunk.length := by
            rw [List.length_append, Nat.sub_add_eq]
          rw [if_neg hc, ih _ _ (by rw [List.length_append]; omega)
            (by rw [List.length_append]; omega), hdrop, hleft, ← hsplit]
          simp only [List.append_assoc, List.length_append, Nat.add_assoc]
      · have : count - data.length = 0 := by omega
        simp [readExactLoop, hlt, this]

/-- `read_exact` stores the bytes at the offset, up to the count or the end. -/
theorem readExact_spec (hs : sys.ReadsOk) (file : Bytes) (offset count : Nat) :
    readExact sys file offset count =
      let data := (file.drop offset).take count
      ⟨(data.length : Nat), data, offset + data.length⟩ := by
  simpa [readExact] using
    readExactLoop_spec hs file count count offset [] (Nat.zero_le _) (Nat.sub_le _ _)

/-- One string field: the rest of the file is too short, or holds a payload byte
of an oversized field, or starts with the string. -/
theorem readString_spec (hs : sys.ReadsOk) (file : Bytes) {offset : Nat}
    (hoff : offset ≤ file.length) {len : Nat} (hlen : len < 2 ^ 32) :
    readString sys file true offset len =
      if Wraps len ∧ file.drop offset ≠ [] then .error .heapOverflow
      else if (file.drop offset).length < len then .ok (none, file.length)
      else .ok (some ((file.drop offset).take len), offset + len) := by
  have hpos : file.drop offset ≠ [] ↔ 0 < (file.drop offset).length :=
    List.length_pos_iff.symm
  have hrest : (file.drop offset).length = file.length - offset := List.length_drop
  have hwrap : Wraps len → (len + 1) % 2 ^ 32 = 0 := fun h => by
    rw [show len + 1 = 2 ^ 32 from h, Nat.mod_self]
  have hfit : ¬ Wraps len → (len + 1) % 2 ^ 32 = len + 1 := fun h =>
    Nat.mod_eq_of_lt (lt_of_le_of_ne hlen h)
  simp only [readString, readExact_spec hs, List.length_take, hpos]
  generalize (len + 1) % 2 ^ 32 = block at hwrap hfit
  by_cases hw : Wraps len
  · have : len ≠ 0 := by unfold Wraps at hw; omega
    simp only [hwrap hw, hw, true_and, Bool.true_eq_false, if_false]
    split_ifs <;> first
      | rfl
      | omega
      | (simp only [Except.ok.injEq, Prod.mk.injEq, true_and]; omega)
  · simp only [hfit hw, hw, false_and, Bool.true_eq_false, if_false]
    split_ifs <;> first
      | omega
      | (simp only [Except.ok.injEq, Prod.mk.injEq, true_and]; omega)

/-- A word is read whole when the rest of the file is long enough. -/
theorem readExact_whole (hs : sys.ReadsOk) {file : Bytes} {offset count : Nat}
    (h : count ≤ (file.drop offset).length) :
    readExact sys file offset count =
      ⟨(count : Nat), (file.drop offset).take count, offset + count⟩ := by
  simp only [readExact_spec hs, List.length_take, Nat.min_eq_left h]

/-- A word is not read whole when it is not: the offset is then at the end. -/
theorem readExact_short (hs : sys.ReadsOk) {file : Bytes} {offset count : Nat}
    (hoff : offset ≤ file.length) (h : (file.drop offset).length < count) :
    (readExact sys file offset count).ret ≠ (count : Nat) ∧
      (readExact sys file offset count).offset = file.length := by
  have hrest : (file.drop offset).length = file.length - offset := List.length_drop
  simp only [readExact_spec hs, List.length_take]
  omega

/-- What one pass reads, in terms of the front of the rest of the file. -/
def frontOutcome (file : Bytes) : Front UInt8 Record → Except Fault (Option Entry × Nat)
  | .torn => .ok (none, file.length)
  | .bad => .error .heapOverflow
  | .frame r rest => .ok (some r.entry, file.length - rest.length)

/-- The two string fields, after the two lengths. -/
theorem readPayload_spec (hs : sys.ReadsOk) (file : Bytes) {offset : Nat}
    (hoff : offset ≤ file.length) {keyLen valueLen : Nat} (hk : keyLen < 2 ^ 32)
    (hv : valueLen < 2 ^ 32) :
    (match readString sys file true offset keyLen with
      | .error e => .error e
      | .ok (none, offset) => .ok (none, offset)
      | .ok (some key, offset') =>
          match readString sys file true offset' valueLen with
          | .error e => .error e
          | .ok (none, offset) => .ok (none, offset)
          | .ok (some value, offset) => .ok (some (key, value), offset)) =
      frontOutcome file (payloadFront keyLen valueLen hk hv (file.drop offset)) := by
  have hrest : (file.drop offset).length = file.length - offset := List.length_drop
  rw [readString_spec hs file hoff hk, payloadFront]
  split_ifs with h1 h2 h3 h4
  · rfl
  · rfl
  all_goals
    have hoff' : offset + keyLen ≤ file.length := by omega
    have hdrop : file.drop (offset + keyLen) = (file.drop offset).drop keyLen :=
      (List.drop_drop ..).symm
    simp only [readString_spec hs file hoff' hv, hdrop]
  · rw [if_pos h3]
    rfl
  · rw [if_neg h3, if_pos h4]
    rfl
  · rw [if_neg h3, if_neg h4]
    rw [List.length_drop] at h4
    simp only [frontOutcome, Record.entry, List.length_drop, Except.ok.injEq, Prod.mk.injEq,
      true_and]
    omega

theorem readRecord_spec (hs : sys.ReadsOk) (file : Bytes) {offset : Nat}
    (hoff : offset ≤ file.length) :
    readRecord sys file offset = frontOutcome file (recordFront (file.drop offset)) := by
  have hrest : (file.drop offset).length = file.length - offset := List.length_drop
  by_cases h4 : (file.drop offset).length < 4
  · obtain ⟨hret, hend⟩ := readExact_short hs hoff h4
    have hfront : recordFront (file.drop offset) = .torn := if_pos (by omega)
    rw [readRecord, hfront, if_pos (by exact_mod_cast hret), hend]
    rfl
  have hdrop4 : file.drop (offset + 4) = (file.drop offset).drop 4 := (List.drop_drop ..).symm
  have hrk := readExact_whole hs (Nat.le_of_not_lt h4)
  by_cases h8 : (file.drop offset).length < 8
  · obtain ⟨hret, hend⟩ := readExact_short hs (show offset + 4 ≤ file.length by omega)
      (show (file.drop (offset + 4)).length < 4 by rw [hdrop4, List.length_drop]; omega)
    have hfront : recordFront (file.drop offset) = .torn := if_pos h8
    rw [readRecord, hfront, hrk, if_neg (by simp), if_pos (by exact_mod_cast hret), hend]
    rfl
  have hdrop8 : file.drop (offset + 4 + 4) = (file.drop offset).drop 8 := by rw [List.drop_drop]
  have hrv : readExact sys file (offset + 4) 4 =
      ⟨(4 : Nat), ((file.drop offset).drop 4).take 4, offset + 4 + 4⟩ := by
    rw [readExact_whole hs (by rw [hdrop4, List.length_drop]; omega), hdrop4]
  have hk := fromLe_take_lt (file.drop offset)
  have hv := fromLe_take_lt ((file.drop offset).drop 4)
  rw [readRecord, hrk, if_neg (by simp)]
  simp only [hrv]
  rw [if_neg (by simp), recordFront, if_neg h8]
  rw [hs.mallocKey, hs.mallocValue, ← hdrop8]
  exact readPayload_spec hs file (by omega) hk hv

theorem updateEntry_eq (key value : Bytes) (es : List Entry) :
    (updateEntry key value es).getD (es ++ [(key, value)]) = upsert cstr key value es := by
  induction es with
  | nil => rfl
  | cons e es ih =>
      by_cases h : cstr e.1 = cstr key
      · simp [updateEntry, upsert, h]
      · simp only [updateEntry, upsert, if_neg h, ← ih]
        cases updateEntry key value es <;> rfl

/-- One pass of the parse loop. -/
theorem parseLoop_step (hs : sys.ReadsOk) (file : Bytes) (fuel : Nat) {offset : Nat}
    (hoff : offset ≤ file.length) (es : List Entry) :
    parseLoop sys file (fuel + 1) offset es =
      match recordFront (file.drop offset) with
      | .torn => .ok (es, file.length)
      | .bad => .error .heapOverflow
      | .frame r rest =>
          parseLoop sys file fuel (file.length - rest.length) (upsert cstr r.key r.value es) := by
  rw [parseLoop, readRecord_spec hs file hoff]
  cases recordFront (file.drop offset) with
  | torn => rfl
  | bad => rfl
  | frame r rest =>
      simp only [frontOutcome, Record.entry, hs.reallocEntries, if_true, ← updateEntry_eq]
      cases updateEntry r.key r.value es <;> rfl

/-- The table that the parse loop builds from a list of records. -/
def tableOf (rs : List Record) (es : List Entry) : List Entry :=
  (rs.map Record.entry).foldl (fun es r => upsert cstr r.1 r.2 es) es

/-- The parse loop decodes the rest of the file. Every pass that continues
consumes at least eight bytes, so one pass a byte is enough. -/
theorem parseLoop_spec (hs : sys.ReadsOk) (file : Bytes) :
    ∀ (fuel offset : Nat) (es : List Entry), offset ≤ file.length → file.length - offset < fuel →
      parseLoop sys file fuel offset es =
        match log.decode (file.drop offset) with
        | none => .error .heapOverflow
        | some rs => .ok (tableOf rs es, file.length) := by
  intro fuel
  induction fuel with
  | zero => intro offset es _ hfuel; omega
  | succ fuel ih =>
      intro offset es hoff hfuel
      have hrest : (file.drop offset).length = file.length - offset := List.length_drop
      rw [parseLoop_step hs file fuel hoff]
      cases hfront : recordFront (file.drop offset) with
      | torn => rw [log.decode_of_torn hfront]; rfl
      | bad => rw [log.decode_of_bad hfront]
      | frame r rest =>
          have hsound : file.drop offset = r.encode ++ rest := recordFront_sound hfront
          have hlen := congrArg List.length hsound
          rw [List.length_append, r.length_encode, hrest] at hlen
          have hdrop : file.drop (file.length - rest.length) = rest := by
            rw [show file.length - rest.length = offset + r.encode.length by
              rw [r.length_encode]; omega, ← List.drop_drop, hsound, List.drop_left]
          simp only [ih (file.length - rest.length) (upsert cstr r.key r.value es)
            (by omega) (by omega), hdrop, log.decode_of_frame hfront]
          cases log.decode rest <;> rfl

/-- What `kvdb_get` gives for a value: its first `length - 1` bytes, terminated. -/
def copyValue (value : Bytes) (length : UInt64) : GetResult :=
  let toCopy := min value.length (length - 1).toNat
  ⟨toInt toCopy, value.take toCopy ++ [0]⟩

/-- What `kvdb_get` gives for the outcome of a lookup. -/
def lookupResult (found : Option Bytes) (length : UInt64) : GetResult :=
  match found with
  | none => ⟨-1, []⟩
  | some value => copyValue value length

/-- The caller gets the value, cut to `length - 1` bytes and terminated, and is
told how many bytes that is. -/
def GetResult.Returns (res : GetResult) (value : Bytes) (length : UInt64) : Prop :=
  res.ret = (min value.length (length.toNat - 1) : Nat) ∧
    res.stored = value.take (min value.length (length.toNat - 1)) ++ [0]

/-- The caller gets the value found, or is told `-1` and nothing is stored. -/
def GetResult.Answers (res : GetResult) (found : Option Bytes) (length : UInt64) : Prop :=
  match found with
  | none => res = ⟨-1, []⟩
  | some value => res.Returns value length

/-- The conversion to `int` keeps exactly the lengths below `2^31`. -/
theorem toInt_eq_iff (n : Nat) : toInt n = (n : Int) ↔ n < 2 ^ 31 := by
  have hiff := Int.bmod_eq_iff (a := (n : Int)) (c := (n : Int)) (show 0 < 2 ^ 32 by norm_num)
  unfold toInt
  constructor
  · intro h
    have := (hiff.mp h).2.1
    omega
  · intro h
    refine hiff.mpr ⟨by omega, by omega, ?_⟩
    rw [Int.sub_self]
    exact Int.dvd_zero _

theorem copyValue_returns_iff (value : Bytes) {length : UInt64} (h : 1 ≤ length) :
    (copyValue value length).Returns value length ↔
      min value.length (length.toNat - 1) < 2 ^ 31 := by
  have hsub : (length - 1).toNat = length.toNat - 1 := UInt64.toNat_sub_of_le _ _ h
  rw [GetResult.Returns, copyValue, hsub, toInt_eq_iff]
  simp

/-- The answer to a lookup is the value found, unless its length does not fit in
the `int` that is returned. -/
theorem lookupResult_answers_iff {found : Option Bytes} {length : UInt64} (h : 1 ≤ length) :
    (lookupResult found length).Answers found length ↔
      ∀ value, found = some value → min value.length (length.toNat - 1) < 2 ^ 31 := by
  cases found with
  | none => simp [GetResult.Answers, lookupResult]
  | some value => simpa [GetResult.Answers, lookupResult] using copyValue_returns_iff value h

/-- The whole value was returned, or `-1` for a key without one. -/
def GetResult.Gives (res : GetResult) (found : Option Bytes) : Prop :=
  match found with
  | none => res.ret = -1
  | some value => res.ret = value.length ∧ res.stored = value ++ [0]

/-- The buffer has room for the value found and its terminator. -/
def Room (found : Option Bytes) (length : UInt64) : Prop :=
  ∀ value, found = some value → value.length < length.toNat

/-- With room for it, a value is given whole exactly when its length fits in the
`int` that is returned. -/
theorem lookupResult_gives_iff {found : Option Bytes} {length : UInt64}
    (hroom : Room found length) :
    (lookupResult found length).Gives found ↔
      ∀ value, found = some value → value.length < 2 ^ 31 := by
  cases found with
  | none => simp [GetResult.Gives, lookupResult]
  | some value =>
      have hlen : value.length < length.toNat := hroom value rfl
      have hpos : 1 ≤ length := by
        rw [UInt64.le_iff_toNat_le]
        exact Nat.one_le_iff_ne_zero.mpr (by omega)
      have hmin : min value.length (length.toNat - 1) = value.length := by omega
      have hret := copyValue_returns_iff value hpos
      rw [GetResult.Returns, hmin, List.take_length] at hret
      simpa [GetResult.Gives, lookupResult] using hret

/-- With room to spare, giving a value means that this value was found. -/
theorem eq_of_lookupResult_gives {found : Option Bytes} {value : Bytes} {length : UInt64}
    (hroom : value.length + 1 < length.toNat) (h : (lookupResult found length).Gives (some value)) :
    found = some value := by
  cases found with
  | none =>
      have hret : (-1 : Int) = value.length := h.1
      omega
  | some found =>
      have hsub : (length - 1).toNat = length.toNat - 1 :=
        UInt64.toNat_sub_of_le _ _ (UInt64.le_iff_toNat_le.mpr (show 1 ≤ length.toNat by omega))
      have hstored : found.take (min found.length (length - 1).toNat) = value :=
        List.append_cancel_right h.2
      have hlen := congrArg List.length hstored
      rw [List.length_take, hsub] at hlen
      rw [List.take_of_length_le (by omega)] at hstored
      rw [hstored]

theorem copyOut_eq (key : CString) (length : UInt64) (es : List Entry) :
    copyOut key length es = lookupResult (firstOf cstr es key.bytes) length := by
  induction es with
  | nil => rfl
  | cons e es ih =>
      by_cases h : cstr e.1 = key.bytes
      · simp only [copyOut, firstOf, if_pos h, lookupResult, copyValue]
        have : (if e.2.length > (length - 1).toNat then (length - 1).toNat else e.2.length) =
            min e.2.length (length - 1).toNat := by split <;> omega
        rw [this]
      · simp only [copyOut, firstOf, if_neg h, ih]

/-- The table answers with the last value of the key. -/
theorem copyOut_tableOf (rs : List Record) (key : CString) (length : UInt64) :
    copyOut key length (tableOf rs []) = lookupResult (lastValue rs key) length := by
  rw [copyOut_eq, tableOf, firstOf_foldl_upsert]
  simp [firstOf, lastValue]

theorem kvdbGet_spec (hs : sys.AllOk) {db : Kvdb} (h : db.InFile) (key : CString)
    (length : UInt64) :
    kvdbGet sys db key length =
      match log.decode db.view.bytes with
      | none => .error .heapOverflow
      | some rs => .ok (lookupResult (lastValue rs key) length,
          ⟨db.view.bytes, db.view.bytes.length, ⟨[], db.buffer.capacity⟩⟩) := by
  have hparse := parseLoop_spec hs.readsOk db.view.bytes (db.view.bytes.length + 1) 0 []
    (Nat.zero_le _) (by omega)
  rw [List.drop_zero] at hparse
  simp only [kvdbGet, flushBuffer_spec hs h, hs.lseek, hparse]
  cases log.decode db.view.bytes with
  | none => rfl
  | some rs =>
      simp only [copyOut_tableOf]
      rfl

end Reads

end NjuOs.Libkvdb
