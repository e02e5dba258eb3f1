import NjuOs.Libkvdb.Reopen

/-!
Logs with a torn end.

* `get_truncated_iff`: on a log cut anywhere, `kvdb_get` answers with the last
  record for the key that lies wholly before the cut, exactly when the cut
  leaves no payload byte of an oversized field in sight and the length returned
  fits in an `int`. A torn record never contributes a key or a value.
* `put_after_torn_iff`: a record put after a torn end is read back, and leaves
  the other keys alone, for all keys and values exactly when the torn end is
  empty. The parse loop stops at the start of the torn record, but the reads
  leave the offset at the end of the file, and that is where the next record is
  written.
-/

namespace NjuOs.Libkvdb

open NjuOs.Lib

/-! ### Reading a truncated log -/

/-- `kvdb_get` on a new handle answers with `found`. -/
def GetAnswers (sysOpen sysGet : Sys) (file : Bytes) (key : CString) (length : UInt64)
    (found : Option Bytes) : Prop :=
  ∃ res, readBack sysOpen sysGet file key length = some res ∧ res.Answers found length

/-- `kvdb_get` on a new handle decodes the file. -/
theorem readBack_decode {sysOpen sysGet : Sys} (hopen : sysOpen.AllOk) (hget : sysGet.AllOk)
    (file : Bytes) (key : CString) (length : UInt64) :
    readBack sysOpen sysGet file key length =
      (log.decode file).map fun rs => lookupResult (lastValue rs key) length := by
  obtain ⟨db, hdb, hin, hview⟩ := kvdbOpen_spec hopen file
  simp only [readBack, hdb, Option.bind_some, kvdbGet_spec hget hin, hview]
  cases log.decode file <;> rfl

/-- **Torn logs are read safely**, as far as the field lengths allow it. -/
theorem get_truncated_iff {sysOpen sysGet : Sys} (hopen : sysOpen.AllOk) (hget : sysGet.AllOk)
    (puts : List (CString × CString)) (n : Nat) (key : CString) {length : UInt64}
    (hlength : 1 ≤ length) :
    GetAnswers sysOpen sysGet
        ((log.encodeAll (puts.map fun p => putRecord p.1 p.2)).take n) key length
        (lastValue (log.wholeFrames n (puts.map fun p => putRecord p.1 p.2)) key) ↔
      log.SafeWithin n (puts.map fun p => putRecord p.1 p.2) ∧
        ∀ value, lastValue (log.wholeFrames n (puts.map fun p => putRecord p.1 p.2)) key =
          some value → min value.length (length.toNat - 1) < 2 ^ 31 := by
  generalize puts.map (fun p => putRecord p.1 p.2) = rs
  rw [GetAnswers, readBack_decode hopen hget, log.decode_take rfl]
  by_cases hsafe : log.SafeWithin n rs
  · simp only [hsafe, if_true, Option.map_some, Option.some.injEq, exists_eq_left', true_and]
    exact lookupResult_answers_iff hlength
  · simp [hsafe]

/-- A log of two records for one key, cut inside the second one. -/
theorem get_truncated_second :
    GetAnswers .ideal .ideal
      ((log.encodeAll ([(.single 107, .single 49), (.single 107, .single 50)].map
        fun p : CString × CString => putRecord p.1 p.2)).take 19) (.single 107) 8 (some [49]) :=
  (get_truncated_iff Sys.ideal_allOk Sys.ideal_allOk
    [(.single 107, .single 49), (.single 107, .single 50)] 19 (.single 107) (by decide)).mpr
    ⟨by decide, by rintro value ⟨⟩; decide⟩

/-- A key for which `malloc(key_len + 1)` wraps makes the whole log unreadable. -/
theorem get_faults_of_length {key : CString} (h : key.length + 1 = 2 ^ 32) (value : CString)
    (sysOpen sysGet : Sys) (hopen : sysOpen.AllOk) (hget : sysGet.AllOk) (key' : CString)
    (length : UInt64) (found : Option Bytes) :
    ¬ GetAnswers sysOpen sysGet (log.encodeAll [putRecord key value]) key' length found := by
  have hkey : (putRecord key value).key = key.bytes := by
    show (key.take (strlen32 key)).bytes = key.bytes
    rw [strlen32, Nat.mod_eq_of_lt (by omega), CString.take_eq_self le_rfl]
  have hbad : ¬ log.safe (putRecord key value) (log.encode (putRecord key value)).length := by
    intro hsafe
    refine ((Record.safe_encode_iff _).mp hsafe).1 ?_
    rw [hkey]
    exact h
  have hmem : putRecord key value ∈ [putRecord key value] := List.mem_cons_self
  have hdecode := log.decode_encodeAll_bad hmem hbad []
  rw [List.append_nil] at hdecode
  rintro ⟨res, hres, -⟩
  rw [readBack_decode hopen hget, hdecode] at hres
  cases hres

/-- A key of `2^32 - 1` bytes. -/
def hugeKey : CString := .replicate (2 ^ 32 - 1) 97

theorem hugeKey_length : hugeKey.length + 1 = 2 ^ 32 := by
  have h : hugeKey.length = 2 ^ 32 - 1 := CString.length_replicate ..
  omega

/-- On the whole log of one record with such a key, `kvdb_get` gives no answer:
it stores the key into a block of no bytes. -/
theorem get_hugeKey_faults :
    ¬ GetAnswers .ideal .ideal
      ((log.encodeAll ([(hugeKey, default)].map fun p => putRecord p.1 p.2)).take
        (log.encodeAll ([(hugeKey, default)].map fun p => putRecord p.1 p.2)).length) default 1
      (lastValue (log.wholeFrames
        (log.encodeAll ([(hugeKey, default)].map fun p => putRecord p.1 p.2)).length
        ([(hugeKey, default)].map fun p => putRecord p.1 p.2)) default) := by
  rw [List.take_length]
  exact get_faults_of_length hugeKey_length default _ _ Sys.ideal_allOk Sys.ideal_allOk _ _ _

/-! ### Writing after a torn end -/

/-- Opened on `file`, whose complete records are `rs`, and after some gets, the
handle puts `key` so that it is read back, and every other key has the value of
its last complete record. -/
def PutReadable (file : Bytes) (rs : List Record) (key value : CString) : Prop :=
  ∀ sysOpen sysPut sysGet : Sys, sysOpen.AllOk → sysPut.AllOk → sysGet.AllOk →
    ∀ gets : List (Sys × Call), gets ≠ [] → (∀ c ∈ gets, c.2.kind = .get) → AllSucceed gets →
    ∃ db₀ db₁ db₂, kvdbOpen sysOpen file = some db₀ ∧ run db₀ gets = .ok db₁ ∧
      kvdbPut sysPut db₁ key value = (0, db₂) ∧
      ∀ (key' : CString) (length : UInt64),
        Room (if key' = key then some value.bytes else lastValue rs key') length →
        ∃ res db₃, kvdbGet sysGet db₂ key' length = .ok (res, db₃) ∧
          res.Gives (if key' = key then some value.bytes else lastValue rs key')

/-- Gets leave the position at the end of the file, or fault on it. -/
theorem View.run_gets (file : Bytes) (calls : List Call) (h : ∀ c ∈ calls, c.kind = .get)
    (hne : calls ≠ []) (pos : Nat) :
    (⟨file, pos⟩ : View).run calls = (log.decode file).map fun _ => ⟨file, file.length⟩ := by
  induction calls generalizing pos with
  | nil => exact absurd rfl hne
  | cons call calls ih =>
      cases call with
      | put key value => cases h _ List.mem_cons_self
      | flush => cases h _ List.mem_cons_self
      | get key length =>
          have ih := fun hne => ih (fun c hc => h c (List.mem_cons_of_mem _ hc)) hne file.length
          simp only [View.run, View.exec, View.seekEnd]
          cases hdecode : log.decode file with
          | none => rfl
          | some fs =>
              simp only [Option.map_some, Option.bind_some]
              cases calls with
              | nil => rfl
              | cons call calls => rw [ih (List.cons_ne_nil _ _), hdecode, Option.map_some]

theorem exists_ne_key (key : CString) : ∃ key' : CString, key' ≠ key ∧ key'.length ≤ 1 := by
  by_cases h : key = default
  · subst h
    exact ⟨.single 120, by decide⟩
  · exact ⟨default, Ne.symm h, by decide⟩

/-- A buffer of `2 ^ 32` bytes has room for any value of a log. -/
theorem room_lastValue (rs : List Record) (key : CString) :
    Room (lastValue rs key) (.ofNat (2 ^ 32)) := by
  intro value hvalue
  obtain ⟨e, he, -, rfl⟩ := lastWrite_mem cstr hvalue
  obtain ⟨r, -, rfl⟩ := List.mem_map.mp he
  have hlt := r.value_lt
  have hlen : r.entry.2.length < 2 ^ 32 := hlt
  rw [UInt64.toNat_ofNat']
  omega

/-- Opened, and after some gets, the handle is at the end of the file, unless the
gets fault on it. -/
theorem run_gets {sysOpen : Sys} (hopen : sysOpen.AllOk) (file : Bytes)
    {gets : List (Sys × Call)} (hne : gets ≠ []) (hget : ∀ c ∈ gets, c.2.kind = .get)
    (hs : AllSucceed gets) :
    ∃ db₀, kvdbOpen sysOpen file = some db₀ ∧
      (log.decode file = none → run db₀ gets = .error .heapOverflow) ∧
      ∀ fs, log.decode file = some fs →
        ∃ db₁, run db₀ gets = .ok db₁ ∧ db₁.InFile ∧ db₁.view = ⟨file, file.length⟩ := by
  obtain ⟨db₀, hdb₀, hin₀, hview₀⟩ := kvdbOpen_spec hopen file
  have hgets := View.run_gets file (gets.map Prod.snd) (by simpa using fun c s h => hget (s, c) h)
    (by simpa using hne) 0
  have hspec := run_spec gets hs hin₀
  rw [hview₀, hgets] at hspec
  refine ⟨db₀, hdb₀, fun hdecode => ?_, fun fs hdecode => ?_⟩
  · simpa [hdecode] using hspec
  · simpa [hdecode] using hspec

/-- A put at the end of the file appends its record. -/
theorem put_atEnd {sys : Sys} (hs : sys.AllOk) {db : Kvdb} (hin : db.InFile) {file : Bytes}
    (hview : db.view = ⟨file, file.length⟩) (key value : CString) :
    ∃ db', kvdbPut sys db key value = (0, db') ∧ db'.InFile ∧
      db'.view.bytes = file ++ log.encode (putRecord key value) := by
  obtain ⟨db', hput, hin', hview'⟩ := kvdbPut_spec hs hin key value
  exact ⟨db', hput, hin', by rw [hview', hview]; exact writeAt_end _ _⟩

/-- In terms of the format: the file with the record at its end is decoded. -/
theorem putReadable_iff (file : Bytes) (rs : List Record) (key value : CString) :
    PutReadable file rs key value ↔
      (log.decode file).isSome ∧
      ∃ fs, log.decode (file ++ log.encode (putRecord key value)) = some fs ∧
        ∀ (key' : CString) (length : UInt64),
          Room (if key' = key then some value.bytes else lastValue rs key') length →
          (lookupResult (lastValue fs key') length).Gives
            (if key' = key then some value.bytes else lastValue rs key') := by
  constructor
  · intro h
    have hgets : ∀ c ∈ [(Sys.ideal, Call.get default 1)], c.2.kind = .get ∧ c.1.AllOk := by
      simp [Call.kind, Sys.ideal_allOk]
    have hne : [(Sys.ideal, Call.get default 1)] ≠ [] := List.cons_ne_nil _ _
    obtain ⟨db₀, db₁, db₂, hdb₀, hdb₁, hdb₂, hres⟩ := h .ideal .ideal .ideal Sys.ideal_allOk
      Sys.ideal_allOk Sys.ideal_allOk _ hne (fun c hc => (hgets c hc).1) fun c hc => (hgets c hc).2
    obtain ⟨db₀', hdb₀', hbad, hgood⟩ := run_gets Sys.ideal_allOk file hne
      (fun c hc => (hgets c hc).1) fun c hc => (hgets c hc).2
    cases hdb₀.symm.trans hdb₀'
    cases hdecode : log.decode file with
    | none => cases hdb₁.symm.trans (hbad hdecode)
    | some fs =>
        obtain ⟨db₁', hdb₁', hin₁, hview₁⟩ := hgood fs hdecode
        cases hdb₁.symm.trans hdb₁'
        obtain ⟨db₂', hdb₂', hin₂, hbytes⟩ := put_atEnd Sys.ideal_allOk hin₁ hview₁ key value
        cases hdb₂.symm.trans hdb₂'
        simp only [kvdbGet_spec Sys.ideal_allOk hin₂, hbytes] at hres
        cases hlater : log.decode (file ++ log.encode (putRecord key value)) with
        | none =>
            obtain ⟨key', hkey', -⟩ := exists_ne_key key
            obtain ⟨res, db₃, hget, -⟩ := hres key' (.ofNat (2 ^ 32)) (by
              rw [if_neg hkey']; exact room_lastValue rs key')
            rw [hlater] at hget
            cases hget
        | some fs =>
            refine ⟨rfl, fs, rfl, fun key' length hroom => ?_⟩
            obtain ⟨res, db₃, hget, hgives⟩ := hres key' length hroom
            rw [hlater] at hget
            cases hget
            exact hgives
  · rintro ⟨hsome, fs, hlater, hgives⟩ sysOpen sysPut sysGet hopen hok hget gets hne hkind hs
    obtain ⟨fs₀, hdecode⟩ := Option.isSome_iff_exists.mp hsome
    obtain ⟨db₀, hdb₀, -, hgood⟩ := run_gets hopen file hne hkind hs
    obtain ⟨db₁, hdb₁, hin₁, hview₁⟩ := hgood fs₀ hdecode
    obtain ⟨db₂, hdb₂, hin₂, hbytes⟩ := put_atEnd hok hin₁ hview₁ key value
    refine ⟨db₀, db₁, db₂, hdb₀, hdb₁, hdb₂, fun key' length hroom => ?_⟩
    have hres := kvdbGet_spec hget hin₂ key' length
    rw [hbytes, hlater] at hres
    exact ⟨_, _, hres, hgives key' length hroom⟩

/-- After whole records, a put is read back as long as the values of the other
keys have lengths that fit in an `int`. -/
theorem putReadable_whole_iff {rs : List Record} (hr : ∀ r ∈ rs, r.Readable)
    {key value : CString} (hkey : key.length < 2 ^ 32 - 1) (hvalue : value.length < 2 ^ 31) :
    PutReadable (log.encodeAll rs) rs key value ↔
      ∀ key', key' ≠ key → ∀ v, lastValue rs key' = some v → v.length < 2 ^ 31 := by
  have hvalue' : value.length < 2 ^ 32 - 1 := lt_trans hvalue (by norm_num)
  have hdecode := decode_encodeAll_snoc hr (putRecord_readable hkey hvalue')
  have hlast := lastValue_snoc rs (show key.length < 2 ^ 32 by omega)
    (show value.length < 2 ^ 32 by omega)
  rw [putReadable_iff, decode_encodeAll hr, hdecode]
  simp only [Option.isSome_some, true_and, Option.some.injEq, exists_eq_left', hlast]
  constructor
  · intro h key' hne v hfound
    have hroom : Room (lastValue rs key') (.ofNat (2 ^ 32)) := room_lastValue rs key'
    have hgives := h key' (.ofNat (2 ^ 32)) (by rwa [if_neg hne])
    rw [if_neg hne] at hgives
    exact (lookupResult_gives_iff hroom).mp hgives v hfound
  · intro h key' length hroom
    rw [lookupResult_gives_iff hroom]
    intro v hfound
    by_cases heq : key' = key
    · rw [if_pos heq] at hfound
      cases hfound
      exact hvalue
    · rw [if_neg heq] at hfound
      exact h key' heq v hfound

/-- The record of the empty key and `n` letters. -/
def letters (n : Nat) : CString := .replicate n 120

/-- No record that is read from a torn end on has a value of `n` bytes: the first
one takes its length from byte 4, and the later ones have no room for it. -/
theorem value_length_ne {tail : Bytes} (hne : tail ≠ []) (htorn : log.front tail = .torn)
    {r : Record} (hkey : r.key = []) {n : Nat} (hvalue : r.value.length = n) (hpos : 0 < n)
    (hn : n < 256) (htail : ∀ b, tail[4]? = some b → b.toNat ≠ n) {gs : List Record}
    (hgs : log.decode (tail ++ log.encode r) = some gs) : ∀ g ∈ gs, g.value.length ≠ n := by
  intro g hg hgn
  obtain ⟨rest, hsplit, -⟩ := log.decode_sound _ _ hgs
  have hmore : log.encode r = [0, 0, 0, 0] ++ le32 n ++ r.value := by
    show le32 r.key.length ++ le32 r.value.length ++ r.key ++ r.value = _
    rw [hkey, hvalue, List.append_nil]
    rfl
  have htaillen : 0 < tail.length := List.length_pos_iff.mpr hne
  cases gs with
  | nil => cases hg
  | cons g₀ gs =>
      rw [Framing.encodeAll_cons, List.append_assoc] at hsplit
      have hcover := log.torn_length_lt htorn hsplit
      have hlen := congrArg List.length hsplit
      rw [hmore] at hlen
      simp only [List.length_append, length_le32, List.length_cons, List.length_nil] at hlen
      rcases List.mem_cons.mp hg with rfl | hg
      · have hbyte : (tail ++ log.encode r)[4]? = some (UInt8.ofNat n) := by
          rw [hsplit, ← hgn]
          rfl
        by_cases hlong : 4 < tail.length
        · rw [List.getElem?_append_left hlong] at hbyte
          refine htail _ hbyte ?_
          rw [UInt8.toNat_ofNat']
          omega
        · rw [List.getElem?_append_right (by omega), hmore] at hbyte
          have hzero : UInt8.ofNat n = 0 := by
            obtain h | h | h | h : 4 - tail.length = 0 ∨ 4 - tail.length = 1 ∨
                4 - tail.length = 2 ∨ 4 - tail.length = 3 := by omega
            all_goals
              rw [h] at hbyte
              exact (Option.some.inj hbyte).symm
          have := congrArg UInt8.toNat hzero
          rw [UInt8.toNat_ofNat'] at this
          have hz : (0 : UInt8).toNat = 0 := rfl
          omega
      · have hle := log.length_encode_le hg
        have hge : (log.encode g).length = 8 + g.key.length + g.value.length := g.length_encode
        omega

/-- A nonempty torn end hides the record put behind it: its first bytes are taken
for the length fields of the record that was torn. -/
theorem lastValue_ne_letters {rs : List Record} {tail : Bytes} (hne : tail ≠ [])
    (htorn : log.front tail = .torn) {n : Nat} (hpos : 0 < n) (hn : n < 256)
    (htail : ∀ b, tail[4]? = some b → b.toNat ≠ n)
    (hlast : ∀ value, lastValue rs default = some value → value.length ≠ n) {gs : List Record}
    (hgs : log.decode (tail ++ log.encode (putRecord default (letters n))) = some gs) :
    lastValue (rs ++ gs) default ≠ some (letters n).bytes := by
  have hletters : (letters n).length = n := CString.length_replicate ..
  obtain ⟨hk, hv⟩ := putRecord_eq default (letters n)
    (show 0 < 2 ^ 32 by norm_num) (by omega)
  intro hfound
  rw [lastValue, List.map_append, lastWrite_append] at hfound
  rcases Option.or_eq_some_iff.mp hfound with h | ⟨-, h⟩
  · obtain ⟨e, he, -, hvalue⟩ := lastWrite_mem cstr h
    obtain ⟨g, hg, rfl⟩ := List.mem_map.mp he
    refine value_length_ne hne htorn hk (by rw [hv]; exact hletters) hpos hn htail hgs g hg ?_
    exact (congrArg List.length hvalue).trans hletters
  · exact hlast _ h hletters

/-- A buffer of 512 bytes is larger than the letters. -/
theorem letters_lt {n : Nat} (hn : n < 256) :
    (letters n).bytes.length + 1 < (UInt64.ofNat 512).toNat := by
  have hlen : (letters n).bytes.length = n := CString.length_replicate ..
  have htoNat : (UInt64.ofNat 512).toNat = 512 := rfl
  omega

theorem not_putReadable_of_torn {rs : List Record} (hr : ∀ r ∈ rs, r.Readable) {tail : Bytes}
    (hne : tail ≠ []) (htorn : log.front tail = .torn) {n : Nat} (hpos : 0 < n) (hn : n < 256)
    (htail : ∀ b, tail[4]? = some b → b.toNat ≠ n)
    (hlast : ∀ value, lastValue rs default = some value → value.length ≠ n) :
    ¬ PutReadable (log.encodeAll rs ++ tail) rs default (letters n) := by
  rw [putReadable_iff]
  rintro ⟨-, fs, hdecode, hgives⟩
  rw [List.append_assoc, log.decode_encodeAll_append fun r h => (r.safe_encode_iff).mpr (hr r h)]
    at hdecode
  obtain ⟨gs, hgs, rfl⟩ := Option.map_eq_some_iff.mp hdecode
  have hroom : Room (if default = (default : CString) then some (letters n).bytes
      else lastValue rs default) (.ofNat 512) := by
    rw [if_pos rfl]
    rintro _ ⟨⟩
    exact Nat.lt_of_succ_lt (letters_lt hn)
  have hgives := hgives default (.ofNat 512) hroom
  rw [if_pos rfl] at hgives
  exact lastValue_ne_letters hne htorn hpos hn htail hlast hgs
    (eq_of_lookupResult_gives (letters_lt hn) hgives)

/-- A small number that differs from two given numbers. -/
theorem exists_pos_ne (a b : Nat) : ∃ n, 0 < n ∧ n < 256 ∧ a ≠ n ∧ b ≠ n := by
  by_cases h1 : a ≠ 1 ∧ b ≠ 1
  · exact ⟨1, by omega⟩
  · by_cases h2 : a ≠ 2 ∧ b ≠ 2
    · exact ⟨2, by omega⟩
    · exact ⟨3, by omega⟩

/-- A number of letters that a torn end does not spell, and the empty key does not have. -/
theorem exists_letters (tail : Bytes) (rs : List Record) :
    ∃ n, 0 < n ∧ n < 256 ∧ (∀ b, tail[4]? = some b → b.toNat ≠ n) ∧
      ∀ value, lastValue rs default = some value → value.length ≠ n := by
  obtain ⟨n, hpos, hn, hbyte, hlast⟩ := exists_pos_ne ((tail[4]?.map UInt8.toNat).getD 0)
    (((lastValue rs default).map List.length).getD 0)
  refine ⟨n, hpos, hn, fun b hb => ?_, fun value hvalue => ?_⟩
  · rw [hb] at hbyte
    exact hbyte
  · rw [hvalue] at hlast
    exact hlast

/-- **When writes after a crash are readable.** After opening a log cut at any
byte and reading it, every put is read back and leaves the other keys alone, for
all keys and values that the format and the `int` result can carry, exactly when
the cut leaves no part of a record behind, no complete record has a field that
the parser cannot allocate, and no value's length overflows the result. -/
theorem put_after_torn_iff (puts : List (CString × CString)) (n : Nat) :
    (∀ key value : CString, key.length < 2 ^ 32 - 1 → value.length < 2 ^ 31 →
      PutReadable ((log.encodeAll (puts.map fun p => putRecord p.1 p.2)).take n)
        (log.wholeFrames n (puts.map fun p => putRecord p.1 p.2)) key value) ↔
      (log.encodeAll (puts.map fun p => putRecord p.1 p.2)).take n =
          log.encodeAll (log.wholeFrames n (puts.map fun p => putRecord p.1 p.2)) ∧
        (∀ r ∈ log.wholeFrames n (puts.map fun p => putRecord p.1 p.2), r.Readable) ∧
        ∀ key value, lastValue (log.wholeFrames n (puts.map fun p => putRecord p.1 p.2)) key =
          some value → value.length < 2 ^ 31 := by
  have hdecode := log.decode_take rfl n (puts.map fun p => putRecord p.1 p.2)
  generalize (log.encodeAll (puts.map fun p => putRecord p.1 p.2)).take n = file at hdecode ⊢
  generalize log.wholeFrames n (puts.map fun p => putRecord p.1 p.2) = rs at hdecode ⊢
  constructor
  · intro h
    have hsome := ((putReadable_iff _ _ _ _).mp (h default default (by decide) (by decide))).1
    split at hdecode
    case isFalse => rw [hdecode] at hsome; cases hsome
    obtain ⟨tail, rfl, htorn⟩ := log.decode_sound _ _ hdecode
    have hr : ∀ r ∈ rs, r.Readable := by
      intro r hmem
      by_contra hbad
      have hnone := log.decode_encodeAll_bad hmem (fun hs => hbad ((r.safe_encode_iff).mp hs)) tail
      rw [hnone] at hdecode
      cases hdecode
    have htail : tail = [] := by
      by_contra hne
      obtain ⟨m, hpos, hm, hbyte, hlast⟩ := exists_letters tail rs
      refine not_putReadable_of_torn hr hne htorn hpos hm hbyte hlast
        (h default (letters m) (by decide) ?_)
      have : (letters m).length = m := CString.length_replicate ..
      omega
    subst htail
    rw [List.append_nil] at h ⊢
    refine ⟨rfl, hr, fun key value hvalue => ?_⟩
    obtain ⟨key', hne, hkey'⟩ := exists_ne_key key
    have hput := h key' default (by omega) (by decide)
    exact (putReadable_whole_iff hr (by omega) (by decide)).mp hput key hne.symm value hvalue
  · rintro ⟨rfl, hr, hint⟩ key value hkey hvalue
    exact (putReadable_whole_iff hr hkey hvalue).mpr fun key' _ v hv => hint key' v hv

/-- A log of one record of nine bytes and the first nine bytes of another one:
the empty key put behind them is not read back. -/
theorem put_after_torn_loses :
    ¬ PutReadable ((log.encodeAll ([(default, .single 97), (.single 98, .single 99)].map
        fun p : CString × CString => putRecord p.1 p.2)).take 18)
      (log.wholeFrames 18 ([(default, .single 97), (.single 98, .single 99)].map
        fun p : CString × CString => putRecord p.1 p.2)) default (letters 2) := by
  refine @not_putReadable_of_torn [putRecord default (.single 97)] (by decide)
    [1, 0, 0, 0, 1, 0, 0, 0, 98] (List.cons_ne_nil _ _) rfl 2 (by norm_num) (by norm_num) ?_ ?_
  · rintro b ⟨⟩
    decide
  · rintro value ⟨⟩
    decide

end NjuOs.Libkvdb
