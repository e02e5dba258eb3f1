import NjuOs.Libkvdb.Parse

/-!
Sessions of `libkvdb`: sequences of calls on one handle.

`View.run` is the run of a session on the view of its handle, and `run_spec`
says that the code refines it. `View.run_ofLog` is the invariant of a session
that writes at the end of its file: the view is the image of the records put so
far and the position is the end of it. From there
`session_last_write_wins` reads the store as a map: a session on an empty file
answers every `kvdb_get` with the value of the latest put of the key.
-/

namespace NjuOs.Libkvdb

open NjuOs.Lib

/-! ### Sessions refine the run of their view -/

/-- A call on the view; `none` when the parse loop faults. -/
def View.exec (v : View) : Call → Option View
  | .put key value => some (v.put (putRecord key value))
  | .flush => some v
  | .get _ _ => (log.decode v.bytes).map fun _ => v.seekEnd

def View.run : View → List Call → Option View
  | v, [] => some v
  | v, call :: calls => (v.exec call).bind fun v => v.run calls

/-- Every call of a session meets a kernel and an allocator that do not fail. -/
def AllSucceed (calls : List (Sys × Call)) : Prop := ∀ c ∈ calls, c.1.AllOk

theorem exec_spec {sys : Sys} (hs : sys.AllOk) {db : Kvdb} (h : db.InFile) (call : Call) :
    match db.view.exec call with
    | none => call.exec sys db = .error .heapOverflow
    | some v => ∃ ret db', call.exec sys db = .ok (ret, db') ∧ db'.InFile ∧ db'.view = v := by
  cases call with
  | put key value =>
      obtain ⟨db', hput, hin, hview⟩ := kvdbPut_spec hs h key value
      exact ⟨0, db', by rw [Call.exec, hput], hin, hview⟩
  | flush =>
      obtain ⟨db', hflush, hin, hview⟩ := kvdbFlush_spec hs h
      exact ⟨0, db', by rw [Call.exec, hflush], hin, hview⟩
  | get key length =>
      have hget := kvdbGet_spec hs h key length
      simp only [View.exec, Call.exec, hget]
      cases log.decode db.view.bytes with
      | none => rfl
      | some rs => exact ⟨_, _, rfl, le_rfl, Kvdb.view_of_flushed le_rfl _⟩

/-- A session refines the run of its view. -/
theorem run_spec (calls : List (Sys × Call)) (hs : AllSucceed calls) :
    ∀ {db : Kvdb}, db.InFile →
      match db.view.run (calls.map Prod.snd) with
      | none => run db calls = .error .heapOverflow
      | some v => ∃ db', run db calls = .ok db' ∧ db'.InFile ∧ db'.view = v := by
  induction calls with
  | nil => intro db h; exact ⟨db, rfl, h, rfl⟩
  | cons c calls ih =>
      intro db h
      obtain ⟨sys, call⟩ := c
      have hexec := exec_spec (hs (sys, call) List.mem_cons_self) h call
      simp only [List.map_cons, View.run]
      cases hv : db.view.exec call with
      | none =>
          simp only [hv] at hexec
          simp only [Option.bind_none, run, hexec]
      | some v =>
          simp only [hv] at hexec
          obtain ⟨ret, db', heq, hin, rfl⟩ := hexec
          simp only [Option.bind_some, run, heq]
          exact ih (fun c hc => hs c (List.mem_cons_of_mem _ hc)) hin

theorem run_ok {calls : List (Sys × Call)} (hs : AllSucceed calls) {db : Kvdb} (h : db.InFile)
    {v : View} (hv : db.view.run (calls.map Prod.snd) = some v) :
    ∃ db', run db calls = .ok db' ∧ db'.InFile ∧ db'.view = v := by
  have := run_spec calls hs h
  rwa [hv] at this

theorem kvdbOpen_spec {sys : Sys} (hs : sys.AllOk) (file : Bytes) :
    ∃ db, kvdbOpen sys file = some db ∧ db.InFile ∧ db.view = ⟨file, 0⟩ :=
  ⟨⟨file, 0, ⟨[], 0⟩⟩, by simp [kvdbOpen, hs.openFile, hs.strdup], Nat.zero_le _,
    Kvdb.view_of_flushed (Nat.zero_le _) _⟩

theorem kvdbClose_spec {sys : Sys} (hs : sys.AllOk) {db : Kvdb} (h : db.InFile) :
    kvdbClose sys db = (0, db.view.bytes) := by
  simp [kvdbClose, flushBuffer_spec hs h, hs.closeFile]

/-! ### Sessions that write at the end of the log -/

/-- No field of the record has a length for which the parser allocates nothing. -/
def Record.Readable (r : Record) : Prop := ¬ Wraps r.key.length ∧ ¬ Wraps r.value.length

instance (r : Record) : Decidable r.Readable := inferInstanceAs (Decidable (_ ∧ _))

theorem Record.safe_encode_iff (r : Record) : r.Safe r.encode.length ↔ r.Readable := by
  have hlen := r.length_encode
  constructor
  · rintro ⟨hk, hv⟩
    refine ⟨fun h => ?_, fun h => ?_⟩
    · have := hk h; unfold Wraps at h; omega
    · have := hv h; unfold Wraps at h; omega
  · rintro ⟨hk, hv⟩
    exact ⟨fun h => absurd h hk, fun h => absurd h hv⟩

/-- The records that the puts of a session append, in order. -/
def putsOf (calls : List Call) : List Record :=
  calls.filterMap fun
    | .put key value => some (putRecord key value)
    | _ => none

/-- The image of a list of records, with the position at its end. -/
def View.ofLog (rs : List Record) : View := ⟨log.encodeAll rs, (log.encodeAll rs).length⟩

theorem View.put_ofLog (rs : List Record) (r : Record) :
    (View.ofLog rs).put r = View.ofLog (rs ++ [r]) := by
  simp [View.ofLog, View.put, log]

theorem decode_encodeAll {rs : List Record} (h : ∀ r ∈ rs, r.Readable) :
    log.decode (log.encodeAll rs) = some rs := by
  have htail : log.decode [] = some [] := log.decode_of_torn rfl
  have := log.decode_encodeAll_append (fun r hr => (r.safe_encode_iff).mpr (h r hr)) []
  simpa [htail] using this

theorem decode_encodeAll_snoc {rs : List Record} (hr : ∀ r ∈ rs, r.Readable) {r : Record}
    (h : r.Readable) : log.decode (log.encodeAll rs ++ log.encode r) = some (rs ++ [r]) := by
  have hall : ∀ s ∈ rs ++ [r], s.Readable := by
    rw [List.forall_mem_append, List.forall_mem_singleton]
    exact ⟨hr, h⟩
  simpa using decode_encodeAll hall

theorem decode_encodeAll_iff {rs : List Record} :
    log.decode (log.encodeAll rs) = some rs ↔ ∀ r ∈ rs, r.Readable := by
  refine ⟨fun h r hr => ?_, decode_encodeAll⟩
  by_contra hbad
  have hnone := log.decode_encodeAll_bad hr (fun hs => hbad ((r.safe_encode_iff).mp hs)) []
  rw [List.append_nil, h] at hnone
  cases hnone

/-- A session at the end of a log stays there. -/
theorem View.run_ofLog (calls : List Call) :
    ∀ {rs : List Record}, (∀ r ∈ rs ++ putsOf calls, r.Readable) →
      (View.ofLog rs).run calls = some (View.ofLog (rs ++ putsOf calls)) := by
  induction calls with
  | nil => intro rs _; simp [View.run, putsOf]
  | cons call calls ih =>
      intro rs hr
      cases call with
      | put key value =>
          have hputs : rs ++ putsOf (.put key value :: calls) =
              (rs ++ [putRecord key value]) ++ putsOf calls := by simp [putsOf]
          rw [hputs] at hr ⊢
          simpa [View.run, View.exec, View.put_ofLog] using ih hr
      | flush => exact ih hr
      | get key length =>
          have hdecode := decode_encodeAll fun r h => hr r (List.mem_append_left _ h)
          have hexec : (View.ofLog rs).exec (.get key length) = some (View.ofLog rs) := by
            simp [View.exec, View.ofLog, View.seekEnd, hdecode]
          simp only [View.run, hexec, Option.bind_some]
          exact ih hr

/-! ### Last write wins -/

/-- The value a call gives to a key, if any. -/
def Call.written (key : CString) : Call → Option CString
  | .put key' value => if key' = key then some value else none
  | _ => none

/-- The value of the latest put of a key. -/
def lastPut : List Call → CString → Option CString
  | [], _ => none
  | call :: calls, key => (lastPut calls key).or (call.written key)

/-- Keys and values shorter than `2^31 - 1` bytes. -/
def Call.Short : Call → Prop
  | .put key value => key.length < 2 ^ 31 - 1 ∧ value.length < 2 ^ 31 - 1
  | .flush => True
  | .get key _ => key.length < 2 ^ 31 - 1

theorem putRecord_eq (key value : CString) (hk : key.length < 2 ^ 32)
    (hv : value.length < 2 ^ 32) :
    (putRecord key value).key = key.bytes ∧ (putRecord key value).value = value.bytes := by
  have hcut : ∀ {s : CString}, s.length < 2 ^ 32 → (s.take (strlen32 s)).bytes = s.bytes :=
    fun {s} h => by rw [strlen32, Nat.mod_eq_of_lt h, CString.take_eq_self le_rfl]
  exact ⟨hcut hk, hcut hv⟩

theorem putRecord_readable {key value : CString} (hk : key.length < 2 ^ 32 - 1)
    (hv : value.length < 2 ^ 32 - 1) : (putRecord key value).Readable := by
  obtain ⟨hkey, hvalue⟩ := putRecord_eq key value (by omega) (by omega)
  rw [Record.Readable, hkey, hvalue]
  unfold Wraps
  unfold CString.length at hk hv
  omega

/-- A put at the end of a log decides the value of its key, and of no other one. -/
theorem lastValue_snoc (rs : List Record) {key value : CString} (hk : key.length < 2 ^ 32)
    (hv : value.length < 2 ^ 32) (key' : CString) :
    lastValue (rs ++ [putRecord key value]) key' =
      if key' = key then some value.bytes else lastValue rs key' := by
  obtain ⟨hkey, hvalue⟩ := putRecord_eq key value hk hv
  have heq : key.bytes = key'.bytes ↔ key' = key :=
    ⟨fun h => CString.ext_bytes h.symm, fun h => h ▸ rfl⟩
  rw [lastValue, List.map_append, List.map_singleton, lastWrite_snoc]
  simp [Record.entry, hkey, hvalue, heq, lastValue]

theorem Call.Short.readable {calls : List Call} (h : ∀ c ∈ calls, c.Short) :
    ∀ r ∈ putsOf calls, r.Readable := by
  intro r hr
  obtain ⟨call, hcall, hput⟩ := List.mem_filterMap.mp hr
  cases call with
  | put key value =>
      obtain ⟨hk, hv⟩ := h _ hcall
      cases hput
      exact putRecord_readable (by omega) (by omega)
  | flush => cases hput
  | get key length => cases hput

/-- The last value of a key among the records put is the latest put of it. -/
theorem lastValue_putsOf {calls : List Call} (h : ∀ c ∈ calls, c.Short) (key : CString) :
    lastValue (putsOf calls) key = (lastPut calls key).map CString.bytes := by
  induction calls with
  | nil => rfl
  | cons call calls ih =>
      have ih := ih fun c hc => h c (List.mem_cons_of_mem _ hc)
      cases call with
      | put key' value =>
          obtain ⟨hk, hv⟩ := h _ List.mem_cons_self
          obtain ⟨hkey, hvalue⟩ := putRecord_eq key' value (by omega) (by omega)
          have heq : key'.bytes = key.bytes ↔ key' = key :=
            ⟨CString.ext_bytes, fun h => h ▸ rfl⟩
          have hcons : lastValue (putsOf (.put key' value :: calls)) key =
              (lastValue (putsOf calls) key).or
                (if key' = key then some value.bytes else none) := by
            simp [lastValue, putsOf, lastWrite, Record.entry, hkey, hvalue, heq]
          rw [hcons, ih, lastPut, Call.written]
          cases lastPut calls key <;> by_cases hkk : key' = key <;> simp [hkk]
      | flush => simpa [lastPut, Call.written, lastValue, putsOf] using ih
      | get key' length => simpa [lastPut, Call.written, lastValue, putsOf] using ih

theorem Call.written_eq_some_iff {call : Call} {key value : CString} :
    call.written key = some value ↔ call = .put key value := by
  cases call with
  | put key' value' =>
      by_cases hk : key' = key <;> simp [Call.written, hk]
  | flush => simp [Call.written]
  | get key' length => simp [Call.written]

theorem lastPut_eq_none_iff {calls : List Call} {key : CString} :
    lastPut calls key = none ↔ ∀ value, Call.put key value ∉ calls := by
  induction calls with
  | nil => simp [lastPut]
  | cons call calls ih =>
      have hcall : call.written key = none ↔ ∀ value, call ≠ .put key value := by
        rw [Option.eq_none_iff_forall_ne_some]
        exact forall_congr' fun value => not_congr Call.written_eq_some_iff
      rw [lastPut, Option.or_eq_none_iff, ih, hcall, ← forall_and]
      refine forall_congr' fun value => ?_
      rw [List.mem_cons, not_or, and_comm, ne_comm]

theorem lastPut_mem {calls : List Call} {key value : CString}
    (hv : lastPut calls key = some value) : Call.put key value ∈ calls := by
  induction calls with
  | nil => cases hv
  | cons call calls ih =>
      rw [lastPut, Option.or_eq_some_iff] at hv
      rcases hv with hv | ⟨-, hv⟩
      · exact List.mem_cons_of_mem _ (ih hv)
      · rw [Call.written_eq_some_iff.mp hv]
        exact List.mem_cons_self

/-- A session of short strings on an empty file ends at the end of its log. -/
theorem session_view {sysOpen : Sys} (hopen : sysOpen.AllOk) {calls : List (Sys × Call)}
    (hs : AllSucceed calls) (hshort : ∀ c ∈ calls, c.2.Short) :
    ∃ db₀ db, kvdbOpen sysOpen [] = some db₀ ∧ run db₀ calls = .ok db ∧ db.InFile ∧
      db.view = View.ofLog (putsOf (calls.map Prod.snd)) := by
  obtain ⟨db₀, hdb₀, hin₀, hview₀⟩ := kvdbOpen_spec hopen []
  have hshort' : ∀ c ∈ calls.map Prod.snd, c.Short := by simpa using fun c s hc => hshort (s, c) hc
  have hrun : (View.ofLog []).run (calls.map Prod.snd) =
      some (View.ofLog (putsOf (calls.map Prod.snd))) :=
    View.run_ofLog _ (Call.Short.readable hshort')
  obtain ⟨db, hdb, hin, hview⟩ := run_ok hs hin₀ (by rw [hview₀]; exact hrun)
  exact ⟨db₀, db, hdb₀, hdb, hin, hview⟩

/-- **Last write wins.** In a session on an empty file, after any sequence of
calls, `kvdb_get` returns the value of the latest put of the key, cut to
`length - 1` bytes and terminated, and `-1` exactly when the key was never put. -/
theorem session_last_write_wins {sysOpen sys : Sys} (hopen : sysOpen.AllOk) (hget : sys.AllOk)
    {calls : List (Sys × Call)} (hs : AllSucceed calls) (hshort : ∀ c ∈ calls, c.2.Short)
    (key : CString) {length : UInt64} (hlength : 1 ≤ length) :
    ∃ db₀ db res db', kvdbOpen sysOpen [] = some db₀ ∧ run db₀ calls = .ok db ∧
      kvdbGet sys db key length = .ok (res, db') ∧
      (∀ value, lastPut (calls.map Prod.snd) key = some value →
        res.ret = (min value.length (length.toNat - 1) : Nat) ∧
          res.stored = value.bytes.take (min value.length (length.toNat - 1)) ++ [0]) ∧
      (res.ret = -1 ↔ ∀ value, Call.put key value ∉ calls.map Prod.snd) := by
  obtain ⟨db₀, db, hdb₀, hdb, hin, hview⟩ := session_view hopen hs hshort
  have hshort' : ∀ c ∈ calls.map Prod.snd, c.Short := by simpa using fun c s hc => hshort (s, c) hc
  have hres := kvdbGet_spec hget hin key length
  rw [hview, View.ofLog, decode_encodeAll (Call.Short.readable hshort')] at hres
  simp only [lastValue_putsOf hshort'] at hres
  have hanswer :
      (lookupResult ((lastPut (calls.map Prod.snd) key).map CString.bytes) length).Answers
      ((lastPut (calls.map Prod.snd) key).map CString.bytes) length := by
    rw [lookupResult_answers_iff hlength]
    intro bs hbs
    obtain ⟨value, hvalue, rfl⟩ := Option.map_eq_some_iff.mp hbs
    have hlt := (hshort' _ (lastPut_mem hvalue)).2
    unfold CString.length at hlt
    omega
  refine ⟨db₀, db, _, _, hdb₀, hdb, hres, ?_, ?_⟩
  · intro value hvalue
    rw [hvalue] at hanswer ⊢
    exact hanswer
  · rw [← lastPut_eq_none_iff]
    cases hput : lastPut (calls.map Prod.snd) key with
    | none => simp [lookupResult]
    | some value =>
        rw [hput] at hanswer
        have hret : (lookupResult ((some value).map CString.bytes) length).ret ≠ -1 := by
          rw [hanswer.1]; omega
        simpa using hret

/-- A key put twice, with a flush in between. -/
theorem session_last_write_wins_twice :
    ∃ db₀ db res db', kvdbOpen .ideal [] = some db₀ ∧
      run db₀ [(.ideal, .put (.single 107) (.single 49)), (.ideal, .flush),
        (.ideal, .put (.single 107) (.single 50))] = .ok db ∧
      kvdbGet .ideal db (.single 107) 8 = .ok (res, db') ∧ res.ret = 1 ∧ res.stored = [50, 0] := by
  obtain ⟨db₀, db, res, db', hopen, hrun, hget, hvalue, -⟩ :=
    @session_last_write_wins .ideal .ideal Sys.ideal_allOk Sys.ideal_allOk
      [(.ideal, .put (.single 107) (.single 49)), (.ideal, .flush),
        (.ideal, .put (.single 107) (.single 50))]
      (by simp [AllSucceed, Sys.ideal_allOk])
      (by simp [Call.Short, CString.length, CString.single]) (.single 107) 8 (by decide)
  exact ⟨db₀, db, res, db', hopen, hrun, hget, hvalue (.single 50) rfl⟩

end NjuOs.Libkvdb
