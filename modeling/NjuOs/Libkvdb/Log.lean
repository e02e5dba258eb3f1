import NjuOs.Lib.Framing
import NjuOs.Lib.LastWrite
import NjuOs.Libkvdb.Basic

/-!
The log format of `libkvdb` as a framing of the file's bytes.

A record is a key and a value whose lengths fit in `uint32_t`; its image is two
little-endian lengths and the two strings. `log` is the `Framing` of records:
its parser faults on the first payload byte of a field of length `2^32 - 1`,
for which `kvdb_get` allocates no memory at all. `lastValue` is the meaning of
a list of records: last write wins.
-/

namespace NjuOs.Libkvdb

open NjuOs.Lib

/-- A record of the log. -/
structure Record where
  key : Bytes
  value : Bytes
  key_lt : key.length < 2 ^ 32
  value_lt : value.length < 2 ^ 32
deriving DecidableEq

/-- The record that `kvdb_put` appends: both strings are cut to the length that
survives the conversion to `uint32_t`. -/
def putRecord (key value : CString) : Record where
  key := (key.take (strlen32 key)).bytes
  value := (value.take (strlen32 value)).bytes
  key_lt := lt_of_le_of_lt (List.length_take_le ..) (Nat.mod_lt _ (by norm_num))
  value_lt := lt_of_le_of_lt (List.length_take_le ..) (Nat.mod_lt _ (by norm_num))

def Record.entry (r : Record) : Entry := (r.key, r.value)

def Record.encode (r : Record) : Bytes :=
  le32 r.key.length ++ le32 r.value.length ++ r.key ++ r.value

theorem Record.length_encode (r : Record) :
    r.encode.length = 8 + r.key.length + r.value.length := by
  simp only [Record.encode, List.length_append, length_le32]

/-- A field length for which `malloc(len + 1)` allocates nothing. -/
def Wraps (len : Nat) : Prop := len + 1 = 2 ^ 32

instance (len : Nat) : Decidable (Wraps len) := inferInstanceAs (Decidable (_ = _))

/-- The front of a stream after the two length fields. -/
def payloadFront (keyLen valueLen : Nat) (hk : keyLen < 2 ^ 32) (hv : valueLen < 2 ^ 32)
    (body : Bytes) : Front UInt8 Record :=
  if Wraps keyLen ∧ body ≠ [] then .bad
  else if body.length < keyLen then .torn
  else if Wraps valueLen ∧ body.drop keyLen ≠ [] then .bad
  else if (body.drop keyLen).length < valueLen then .torn
  else
    .frame ⟨body.take keyLen, (body.drop keyLen).take valueLen,
      lt_of_le_of_lt (List.length_take_le ..) hk, lt_of_le_of_lt (List.length_take_le ..) hv⟩
      ((body.drop keyLen).drop valueLen)

theorem fromLe_take_lt (bs : Bytes) : fromLe (bs.take 4) < 2 ^ 32 :=
  lt_of_lt_of_le (fromLe_lt _)
    (Nat.pow_le_pow_right (by norm_num) (by have := List.length_take_le 4 bs; omega))

def recordFront (bs : Bytes) : Front UInt8 Record :=
  if bs.length < 8 then .torn
  else payloadFront (fromLe (bs.take 4)) (fromLe ((bs.drop 4).take 4))
    (fromLe_take_lt bs) (fromLe_take_lt _) (bs.drop 8)

/-- The first `n` bytes of the record hold no payload byte of an oversized field. -/
def Record.Safe (r : Record) (n : Nat) : Prop :=
  (Wraps r.key.length → n ≤ 8) ∧ (Wraps r.value.length → n ≤ 8 + r.key.length)

instance (r : Record) (n : Nat) : Decidable (r.Safe n) :=
  inferInstanceAs (Decidable ((_ → _) ∧ (_ → _)))

theorem recordFront_header {keyLen valueLen : Nat} (hk : keyLen < 2 ^ 32)
    (hv : valueLen < 2 ^ 32) (body : Bytes) :
    recordFront (le32 keyLen ++ le32 valueLen ++ body) =
      payloadFront keyLen valueLen hk hv body := by
  have hlen : ¬ (le32 keyLen ++ le32 valueLen ++ body).length < 8 := by
    simp only [List.length_append, length_le32]; omega
  have hkey : (le32 keyLen ++ le32 valueLen ++ body).take 4 = le32 keyLen := rfl
  have hvalue : ((le32 keyLen ++ le32 valueLen ++ body).drop 4).take 4 = le32 valueLen := rfl
  have hbody : (le32 keyLen ++ le32 valueLen ++ body).drop 8 = body := rfl
  rw [recordFront, if_neg hlen]
  simp only [hkey, hvalue, hbody, fromLe_le32 hk, fromLe_le32 hv]

/-- What is accepted after the length fields is a key, a value and the rest. -/
theorem payloadFront_sound {keyLen valueLen : Nat} {hk : keyLen < 2 ^ 32}
    {hv : valueLen < 2 ^ 32} {body rest : Bytes} {r : Record}
    (h : payloadFront keyLen valueLen hk hv body = .frame r rest) :
    r.key.length = keyLen ∧ r.value.length = valueLen ∧ body = r.key ++ r.value ++ rest := by
  unfold payloadFront at h
  split_ifs at h with h1 h2 h3 h4
  cases h
  refine ⟨List.length_take_of_le (by omega), List.length_take_of_le (by omega), ?_⟩
  rw [List.append_assoc, List.take_append_drop, List.take_append_drop]

/-- What is accepted is the image of a record and the rest. -/
theorem recordFront_sound {bs rest : Bytes} {r : Record}
    (h : recordFront bs = .frame r rest) : bs = r.encode ++ rest := by
  unfold recordFront at h
  split_ifs at h with h8
  obtain ⟨hkey, hvalue, hbody⟩ := payloadFront_sound h
  have hk : le32 r.key.length = bs.take 4 := by
    rw [hkey, le32_fromLe (List.length_take_of_le (by omega))]
  have hv : le32 r.value.length = (bs.drop 4).take 4 := by
    rw [hvalue, le32_fromLe (List.length_take_of_le (by rw [List.length_drop]; omega))]
  have hdrop : (bs.drop 4).drop 4 = bs.drop 8 := by rw [List.drop_drop]
  calc bs = bs.take 4 ++ ((bs.drop 4).take 4 ++ (bs.drop 4).drop 4) := by
        rw [List.take_append_drop, List.take_append_drop]
    _ = r.encode ++ rest := by
        rw [hdrop, hbody, ← hk, ← hv]
        simp only [Record.encode, List.append_assoc]

theorem payloadFront_append (r : Record) (rest : Bytes) :
    payloadFront r.key.length r.value.length r.key_lt r.value_lt (r.key ++ r.value ++ rest) =
      if r.Safe r.encode.length then .frame r rest else .bad := by
  have hdrop : (r.key ++ r.value ++ rest).drop r.key.length = r.value ++ rest := by simp
  have hlen := r.length_encode
  have hk := r.key_lt
  have hv := r.value_lt
  by_cases hwk : Wraps r.key.length
  · have hne : r.key ++ r.value ++ rest ≠ [] := by
      intro h
      have := congrArg List.length h
      simp only [Wraps, List.length_append, List.length_nil] at *
      omega
    rw [payloadFront, if_pos ⟨hwk, hne⟩, if_neg]
    rintro ⟨h, -⟩
    have := h hwk
    unfold Wraps at hwk
    omega
  · rw [payloadFront, if_neg (fun h => hwk h.1), if_neg (by simp)]
    simp only [hdrop]
    by_cases hwv : Wraps r.value.length
    · have hne : r.value ++ rest ≠ [] := by
        intro h
        have := congrArg List.length h
        simp only [Wraps, List.length_append, List.length_nil] at *
        omega
      rw [if_pos ⟨hwv, hne⟩, if_neg]
      rintro ⟨-, h⟩
      have := h hwv
      unfold Wraps at hwv
      omega
    · rw [if_neg (fun h => hwv h.1), if_neg (by simp), if_pos ⟨fun h => absurd h hwk,
        fun h => absurd h hwv⟩]
      simp

theorem payloadFront_take (r : Record) (n : Nat) (hn : 8 + n < r.encode.length) :
    payloadFront r.key.length r.value.length r.key_lt r.value_lt ((r.key ++ r.value).take n) =
      if r.Safe (8 + n) then .torn else .bad := by
  have hlen := r.length_encode
  have htake : ((r.key ++ r.value).take n).length = n := by
    rw [List.length_take, List.length_append]; omega
  have hdrop : (((r.key ++ r.value).take n).drop r.key.length).length = n - r.key.length := by
    rw [List.length_drop, htake]
  have hne : ∀ {bs : Bytes}, bs ≠ [] ↔ 0 < bs.length := List.length_pos_iff.symm
  simp only [payloadFront, hne, htake, hdrop, Record.Safe]
  by_cases hwk : Wraps r.key.length <;> by_cases hwv : Wraps r.value.length <;>
    simp only [hwk, hwv, true_and, false_and, if_false, true_imp_iff, false_imp_iff,
      and_true] <;>
    split_ifs <;> first | rfl | omega

theorem recordFront_append (r : Record) (rest : Bytes) :
    recordFront (r.encode ++ rest) =
      if r.Safe r.encode.length then .frame r rest else .bad := by
  rw [← payloadFront_append, ← recordFront_header]
  simp only [Record.encode, List.append_assoc]

theorem recordFront_take (r : Record) (n : Nat) (hn : n < r.encode.length) :
    recordFront (r.encode.take n) = if r.Safe n then .torn else .bad := by
  have hlen := r.length_encode
  by_cases h8 : n < 8
  · rw [recordFront, if_pos (by rw [List.length_take]; omega), if_pos]
    exact ⟨fun _ => by omega, fun _ => by omega⟩
  · obtain ⟨m, rfl⟩ : ∃ m, n = 8 + m := ⟨n - 8, by omega⟩
    have hsplit : r.encode.take (8 + m) =
        le32 r.key.length ++ le32 r.value.length ++ (r.key ++ r.value).take m := by
      rw [Record.encode, List.append_assoc (le32 _ ++ le32 _), List.take_append,
        List.take_of_length_le (by simp)]
      simp
    rw [hsplit, recordFront_header r.key_lt r.value_lt, payloadFront_take r m hn]

/-- The framing of the log. -/
def log : Framing UInt8 Record where
  encode := Record.encode
  front := recordFront
  safe := Record.Safe
  decSafe _ _ := inferInstance
  encode_pos r := by rw [r.length_encode]; omega
  front_sound := recordFront_sound
  front_append := recordFront_append
  front_take := recordFront_take

/-- The value of the last record for a key; keys are compared by `strcmp`. -/
def lastValue (rs : List Record) (key : CString) : Option Bytes :=
  lastWrite cstr (rs.map Record.entry) key.bytes

end NjuOs.Libkvdb
