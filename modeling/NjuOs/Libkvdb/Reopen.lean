import NjuOs.Libkvdb.Session

/-!
Sessions on the same file, one after the other.

`kvdb_open` leaves the descriptor at offset 0 and does not pass `O_APPEND`, so
the first write of a later session lands on top of the old log unless a
`kvdb_get` has moved the offset to the end of the file before it.
`reopen_loses_nothing_iff` says that this is the whole story: a later session
keeps every record, whatever the keys and values, exactly when the old log is
empty or no put comes before the session's first get.
-/

namespace NjuOs.Libkvdb

open NjuOs.Lib

/-- `kvdb_open`, a sequence of calls, `kvdb_close`: the file that is left. -/
def session (sysOpen sysClose : Sys) (file : Bytes) (calls : List (Sys × Call)) :
    Option Bytes :=
  (kvdbOpen sysOpen file).bind fun db =>
    match run db calls with
    | .ok db => some (kvdbClose sysClose db).2
    | .error _ => none

/-- `kvdb_open` and one `kvdb_get`. -/
def readBack (sysOpen sysGet : Sys) (file : Bytes) (key : CString) (length : UInt64) :
    Option GetResult :=
  (kvdbOpen sysOpen file).bind fun db =>
    match kvdbGet sysGet db key length with
    | .ok (res, _) => some res
    | .error _ => none

/-- After a session of `puts` on a new file and a session of `calls` on the file
it leaves, a further session reads back the last put of every key. -/
def ReopenLosesNothing (puts calls : List (Sys × Call)) : Prop :=
  ∀ sysOpen₁ sysClose₁ sysOpen₂ sysClose₂ sysOpen₃ sysGet : Sys,
    sysOpen₁.AllOk → sysClose₁.AllOk → sysOpen₂.AllOk → sysClose₂.AllOk → sysOpen₃.AllOk →
    sysGet.AllOk → ∀ (key : CString) (length : UInt64),
    Room ((lastPut ((puts ++ calls).map Prod.snd) key).map CString.bytes) length →
    ∃ file₁ file₂ res, session sysOpen₁ sysClose₁ [] puts = some file₁ ∧
      session sysOpen₂ sysClose₂ file₁ calls = some file₂ ∧
      readBack sysOpen₃ sysGet file₂ key length = some res ∧
      res.Gives ((lastPut ((puts ++ calls).map Prod.snd) key).map CString.bytes)

/-! ### Sessions on a log -/

theorem session_spec {sysOpen sysClose : Sys} (hopen : sysOpen.AllOk) (hclose : sysClose.AllOk)
    {calls : List (Sys × Call)} (hs : AllSucceed calls) {file : Bytes} {v : View}
    (hv : (⟨file, 0⟩ : View).run (calls.map Prod.snd) = some v) :
    session sysOpen sysClose file calls = some v.bytes := by
  obtain ⟨db₀, hdb₀, hin₀, hview₀⟩ := kvdbOpen_spec hopen file
  obtain ⟨db, hdb, hin, hview⟩ := run_ok hs hin₀ (by rw [hview₀]; exact hv)
  simp only [session, hdb₀, Option.bind_some, hdb, kvdbClose_spec hclose hin, hview]

theorem readBack_spec {sysOpen sysGet : Sys} (hopen : sysOpen.AllOk) (hget : sysGet.AllOk)
    {rs : List Record} (hr : ∀ r ∈ rs, r.Readable) (key : CString) (length : UInt64) :
    readBack sysOpen sysGet (log.encodeAll rs) key length =
      some (lookupResult (lastValue rs key) length) := by
  obtain ⟨db, hdb, hin, hview⟩ := kvdbOpen_spec hopen (log.encodeAll rs)
  simp only [readBack, hdb, Option.bind_some, kvdbGet_spec hget hin, hview, decode_encodeAll hr]

/-! ### Writing at the start of a log -/

/-- The shape of a call: its kind, without keys and values. -/
inductive Kind where
  | put
  | flush
  | get
deriving DecidableEq, Repr

def Call.kind : Call → Kind
  | .put _ _ => .put
  | .flush => .flush
  | .get _ _ => .get

/-- A put comes before the first get. -/
def putFirst : List Kind → Bool
  | [] => false
  | .put :: _ => true
  | .flush :: kinds => putFirst kinds
  | .get :: _ => false

/-- A session whose first get comes before its puts appends to the log. -/
theorem View.run_of_not_putFirst {rs : List Record} (calls : List Call)
    (hfirst : putFirst (calls.map Call.kind) = false)
    (hr : ∀ r ∈ rs ++ putsOf calls, r.Readable) :
    ∃ v, (⟨log.encodeAll rs, 0⟩ : View).run calls = some v ∧
      v.bytes = log.encodeAll (rs ++ putsOf calls) := by
  induction calls with
  | nil => exact ⟨_, rfl, by simp [putsOf]⟩
  | cons call calls ih =>
      cases call with
      | put key value => cases hfirst
      | flush => exact ih hfirst hr
      | get key length =>
          have hdecode := decode_encodeAll fun r h => hr r (List.mem_append_left _ h)
          have hexec : (⟨log.encodeAll rs, 0⟩ : View).exec (.get key length) =
              some (View.ofLog rs) := by
            simp [View.exec, View.ofLog, View.seekEnd, hdecode]
          exact ⟨_, by simpa only [View.run, hexec, Option.bind_some] using View.run_ofLog calls hr,
            rfl⟩

/-- A record written at the boundary of a log replaces a record of its size. -/
theorem View.put_replace (pre post : List Record) {old new : Record}
    (hsize : old.encode.length = new.encode.length) :
    (⟨log.encodeAll (pre ++ old :: post), (log.encodeAll pre).length⟩ : View).put new =
      ⟨log.encodeAll ((pre ++ [new]) ++ post), (log.encodeAll (pre ++ [new])).length⟩ := by
  have hle : (log.encodeAll pre).length ≤ (log.encodeAll (pre ++ old :: post)).length := by simp
  have hdrop : (log.encodeAll (pre ++ old :: post)).drop
      ((log.encodeAll pre).length + new.encode.length) = log.encodeAll post := by
    rw [← hsize, Framing.encodeAll_append, Framing.encodeAll_cons, ← List.drop_drop,
      List.drop_left]
    exact List.drop_left
  rw [View.put, writeAt_eq hle, hdrop]
  simp [log]

section Overwrite

variable (key lost value : CString)

/-- The session of a given shape that only uses `key` and `value`. -/
def callOfKind : Kind → Sys × Call
  | .put => (Sys.ideal, .put key value)
  | .flush => (Sys.ideal, .flush)
  | .get => (Sys.ideal, .get key 1)

/-- A record of the size of `key` and `value` that is not about `lost`. -/
def Other (r : Record) : Prop :=
  r.Readable ∧ r.encode.length = (putRecord key value).encode.length ∧ cstr r.key ≠ lost.bytes

variable {key lost value}

/-- Writing records of one size over a log of that size keeps its boundaries, so
a key that is nowhere in the log stays out of it. -/
theorem View.run_other (hnew : Other key lost value (putRecord key value)) (shape : List Kind) :
    ∀ {pre post : List Record}, (∀ r ∈ pre ++ post, Other key lost value r) →
      ∃ rs v, (∀ r ∈ rs, Other key lost value r) ∧
        (⟨log.encodeAll (pre ++ post), (log.encodeAll pre).length⟩ : View).run
          ((shape.map (callOfKind key value)).map Prod.snd) = some v ∧
        v.bytes = log.encodeAll rs := by
  induction shape with
  | nil => intro pre post h; exact ⟨pre ++ post, _, h, rfl, rfl⟩
  | cons kind shape ih =>
      intro pre post h
      cases kind with
      | put =>
          have hstep : ∃ post', (∀ r ∈ post', Other key lost value r) ∧
              (⟨log.encodeAll (pre ++ post), (log.encodeAll pre).length⟩ : View).put
                (putRecord key value) =
                ⟨log.encodeAll ((pre ++ [putRecord key value]) ++ post'),
                  (log.encodeAll (pre ++ [putRecord key value])).length⟩ := by
            cases post with
            | nil =>
                refine ⟨[], by simp, ?_⟩
                rw [List.append_nil, List.append_nil]
                exact View.put_ofLog pre _
            | cons old post =>
                have hold := h old (by simp)
                exact ⟨post, fun r hr => h r (by simp [hr]), View.put_replace pre post hold.2.1⟩
          obtain ⟨post', hpost', hput⟩ := hstep
          have hall : ∀ r ∈ (pre ++ [putRecord key value]) ++ post', Other key lost value r := by
            intro r hr
            rcases List.mem_append.mp hr with hr | hr
            · rcases List.mem_append.mp hr with hr | hr
              · exact h r (List.mem_append_left _ hr)
              · rw [List.mem_singleton.mp hr]; exact hnew
            · exact hpost' r hr
          simp only [List.map_cons, callOfKind, View.run, View.exec, Option.bind_some, hput]
          exact ih hall
      | flush => exact ih h
      | get =>
          have hdecode := decode_encodeAll fun r hr => (h r hr).1
          have hall : ∀ r ∈ (pre ++ post) ++ [], Other key lost value r := by
            rwa [List.append_nil]
          simp only [List.map_cons, callOfKind, View.run, View.exec, hdecode, Option.map_some,
            Option.bind_some, View.seekEnd]
          simpa only [List.append_nil] using ih hall

/-- A put before the first get overwrites the first record. -/
theorem View.run_lost (hnew : Other key lost value (putRecord key value)) {old : Record}
    (hold : old.encode.length = (putRecord key value).encode.length) {post : List Record}
    (h : ∀ r ∈ post, Other key lost value r) (shape : List Kind) (hfirst : putFirst shape = true) :
    ∃ rs v, (∀ r ∈ rs, Other key lost value r) ∧
      (⟨log.encodeAll (old :: post), 0⟩ : View).run
        ((shape.map (callOfKind key value)).map Prod.snd) = some v ∧
      v.bytes = log.encodeAll rs := by
  induction shape with
  | nil => cases hfirst
  | cons kind shape ih =>
      cases kind with
      | put =>
          have hput := View.put_replace [] post hold
          have hall : ∀ r ∈ [putRecord key value] ++ post, Other key lost value r := by
            intro r hr
            rcases List.mem_cons.mp hr with rfl | hr
            · exact hnew
            · exact h r hr
          simp only [List.nil_append, Framing.encodeAll_nil, List.length_nil] at hput
          simp only [List.map_cons, callOfKind, View.run, View.exec, Option.bind_some, hput]
          exact View.run_other hnew shape hall
      | flush => exact ih hfirst
      | get => cases hfirst

end Overwrite

/-! ### When reopening is safe -/

theorem putsOf_append (calls calls' : List Call) :
    putsOf (calls ++ calls') = putsOf calls ++ putsOf calls' := List.filterMap_append

/-- **Reopening is safe after a get.** When the old log is empty, or the later
session makes no put before its first get, every record is kept. -/
theorem reopen_keeps {puts calls : List (Sys × Call)} (hs : AllSucceed (puts ++ calls))
    (hshort : ∀ c ∈ puts ++ calls, c.2.Short)
    (h : puts = [] ∨ putFirst (calls.map fun c => c.2.kind) = false) :
    ReopenLosesNothing puts calls := by
  intro sysOpen₁ sysClose₁ sysOpen₂ sysClose₂ sysOpen₃ sysGet ho₁ hc₁ ho₂ hc₂ ho₃ hg key length
    hroom
  have hshort' : ∀ c ∈ (puts ++ calls).map Prod.snd, c.Short := by
    intro c hc
    obtain ⟨c, hmem, rfl⟩ := List.mem_map.mp hc
    exact hshort c hmem
  have hmap : (puts ++ calls).map Prod.snd = puts.map Prod.snd ++ calls.map Prod.snd :=
    List.map_append
  have hread := Call.Short.readable hshort'
  rw [hmap, putsOf_append] at hread
  have hfile₁ : session sysOpen₁ sysClose₁ [] puts =
      some (log.encodeAll (putsOf (puts.map Prod.snd))) :=
    session_spec ho₁ hc₁ (fun c hc => hs c (List.mem_append_left _ hc))
      (@View.run_ofLog _ [] fun r hr => hread r (List.mem_append_left _ hr))
  obtain ⟨v, hv, hbytes⟩ : ∃ v,
      (⟨log.encodeAll (putsOf (puts.map Prod.snd)), 0⟩ : View).run (calls.map Prod.snd) = some v ∧
        v.bytes = log.encodeAll (putsOf (puts.map Prod.snd) ++ putsOf (calls.map Prod.snd)) := by
    rcases h with rfl | hfirst
    · exact ⟨_, @View.run_ofLog _ [] hread, rfl⟩
    · exact View.run_of_not_putFirst _ (by simpa [Function.comp_def] using hfirst) hread
  have hfile₂ := session_spec ho₂ hc₂ (fun c hc => hs c (List.mem_append_right _ hc)) hv
  rw [hbytes] at hfile₂
  refine ⟨_, _, _, hfile₁, hfile₂, readBack_spec ho₃ hg hread key length, ?_⟩
  rw [← putsOf_append, ← hmap, lastValue_putsOf hshort']
  refine (lookupResult_gives_iff hroom).mpr fun bs hbs => ?_
  obtain ⟨value, hvalue, rfl⟩ := Option.map_eq_some_iff.mp hbs
  have hlt := (hshort' _ (lastPut_mem hvalue)).2
  unfold CString.length at hlt
  omega

/-- A first session of `n + 1` puts whose first key, `a`, is not put again. -/
def putsLosing (n : Nat) : List (Sys × Call) :=
  (Sys.ideal, .put (.single 97) (.single 49)) ::
    List.replicate n (Sys.ideal, .put (.single 98) (.single 49))

/-- A later session of the given shape that puts only the key `c`. -/
def callsOverwriting (shape : List Kind) : List (Sys × Call) :=
  shape.map (callOfKind (.single 99) (.single 49))

theorem lastPut_losing (n : Nat) (shape : List Kind) :
    lastPut ((putsLosing n ++ callsOverwriting shape).map Prod.snd) (.single 97) =
      some (.single 49) := by
  have hrest : lastPut ((List.replicate n (Sys.ideal, Call.put (.single 98) (.single 49)) ++
      callsOverwriting shape).map Prod.snd) (.single 97) = none := by
    rw [lastPut_eq_none_iff]
    intro value hmem
    obtain ⟨c, hc, hput⟩ := List.mem_map.mp hmem
    rcases List.mem_append.mp hc with hc | hc
    · rw [List.eq_of_mem_replicate hc] at hput
      simp [CString.single] at hput
    · obtain ⟨kind, -, rfl⟩ := List.mem_map.mp hc
      cases kind <;> simp [callOfKind, CString.single] at hput
  rw [putsLosing, List.cons_append, List.map_cons, lastPut, hrest]
  rfl

theorem losing_allSucceed (n : Nat) (shape : List Kind) :
    AllSucceed (putsLosing n ++ callsOverwriting shape) := by
  intro c hc
  rcases List.mem_append.mp hc with hc | hc
  · rcases List.mem_cons.mp hc with rfl | hc
    · exact Sys.ideal_allOk
    · rw [List.eq_of_mem_replicate hc]; exact Sys.ideal_allOk
  · obtain ⟨kind, -, rfl⟩ := List.mem_map.mp hc
    cases kind <;> exact Sys.ideal_allOk

theorem losing_short (n : Nat) (shape : List Kind) :
    ∀ c ∈ putsLosing n ++ callsOverwriting shape, c.2.Short := by
  intro c hc
  rcases List.mem_append.mp hc with hc | hc
  · rcases List.mem_cons.mp hc with rfl | hc
    · simp [Call.Short, CString.length, CString.single]
    · rw [List.eq_of_mem_replicate hc]
      simp [Call.Short, CString.length, CString.single]
  · obtain ⟨kind, -, rfl⟩ := List.mem_map.mp hc
    cases kind <;> simp [callOfKind, Call.Short, CString.length, CString.single]

/-- When a put comes first, the first key of the old log is lost. -/
theorem reopen_loses (n : Nat) {shape : List Kind} (hfirst : putFirst shape = true) :
    ¬ ReopenLosesNothing (putsLosing n) (callsOverwriting shape) := by
  intro hkeeps
  have hsucc := losing_allSucceed n shape
  have hnew : Other (.single 99) (.single 97) (.single 49)
      (putRecord (.single 99) (.single 49)) := by
    refine ⟨?_, rfl, ?_⟩ <;> decide
  have hrest : ∀ r ∈ putsOf ((putsLosing n).tail.map Prod.snd),
      Other (.single 99) (.single 97) (.single 49) r := by
    intro r hr
    obtain ⟨call, hcall, hput⟩ := List.mem_filterMap.mp hr
    obtain ⟨c, hc, rfl⟩ := List.mem_map.mp hcall
    cases List.eq_of_mem_replicate hc
    cases hput
    refine ⟨?_, rfl, ?_⟩ <;> decide
  have hputs : putsOf ((putsLosing n).map Prod.snd) =
      putRecord (.single 97) (.single 49) :: putsOf ((putsLosing n).tail.map Prod.snd) := rfl
  have hreadable : ∀ r ∈ putsOf ((putsLosing n).map Prod.snd), r.Readable := by
    rw [hputs]
    intro r hr
    rcases List.mem_cons.mp hr with rfl | hr
    · decide
    · exact (hrest r hr).1
  have hlen : (putRecord (.single 97) (.single 49)).encode.length =
      (putRecord (.single 99) (.single 49)).encode.length := rfl
  obtain ⟨rs, v, hrs, hv, hbytes⟩ := View.run_lost hnew hlen hrest shape hfirst
  rw [← hputs] at hv
  obtain ⟨file₁, file₂, res, hfile₁, hfile₂, hres, hgives⟩ :=
    hkeeps .ideal .ideal .ideal .ideal .ideal .ideal Sys.ideal_allOk Sys.ideal_allOk
      Sys.ideal_allOk Sys.ideal_allOk Sys.ideal_allOk Sys.ideal_allOk (.single 97) 2 (by
        rw [lastPut_losing]; intro value h; cases h; decide)
  have hfile₁' := session_spec Sys.ideal_allOk Sys.ideal_allOk
    (fun c hc => hsucc c (List.mem_append_left _ hc)) (@View.run_ofLog _ [] hreadable)
  cases hfile₁'.symm.trans hfile₁
  have hfile₂' := session_spec Sys.ideal_allOk Sys.ideal_allOk
    (fun c hc => hsucc c (List.mem_append_right _ hc)) hv
  cases hfile₂'.symm.trans hfile₂
  rw [hbytes, readBack_spec Sys.ideal_allOk Sys.ideal_allOk fun r hr => (hrs r hr).1] at hres
  have hnone : lastValue rs (.single 97) = none := by
    rw [lastValue, lastWrite_eq_none_iff]
    intro e he
    obtain ⟨r, hr, rfl⟩ := List.mem_map.mp he
    exact (hrs r hr).2.2
  rw [hnone] at hres
  cases hres
  rw [lastPut_losing] at hgives
  exact absurd hgives.1 (by decide)

/-- **When reopening is safe.** Sessions of `n` puts and then of the given shape
keep every record, for all keys, values and kernels that do not fail, exactly
when the first session put nothing or the second makes no put before its first
get. -/
theorem reopen_loses_nothing_iff (n : Nat) (shape : List Kind) :
    (∀ puts calls : List (Sys × Call), puts.length = n → (∀ c ∈ puts, c.2.kind = .put) →
      (calls.map fun c => c.2.kind) = shape → AllSucceed (puts ++ calls) →
      (∀ c ∈ puts ++ calls, c.2.Short) → ReopenLosesNothing puts calls) ↔
      n = 0 ∨ putFirst shape = false := by
  constructor
  · intro h
    cases n with
    | zero => exact .inl rfl
    | succ n =>
        right
        rw [Bool.eq_false_iff]
        intro hfirst
        refine reopen_loses n hfirst (h _ _ (by simp [putsLosing]) ?_ ?_ (losing_allSucceed n shape)
          (losing_short n shape))
        · intro c hc
          rcases List.mem_cons.mp hc with rfl | hc
          · rfl
          · rw [List.eq_of_mem_replicate hc]; rfl
        · have hkind : ∀ kind, (callOfKind (.single 99) (.single 49) kind).2.kind = kind := by
            intro kind; cases kind <;> rfl
          simp [callsOverwriting, Function.comp_def, hkind]
  · intro h puts calls hlen _ hshape hs hshort
    refine reopen_keeps hs hshort ?_
    rcases h with rfl | hfirst
    · exact .inl (List.length_eq_zero_iff.mp hlen)
    · exact .inr (hshape ▸ hfirst)

/-- One put, reopen, one put of another key: the first key is gone. -/
theorem reopen_overwrites :
    ¬ ReopenLosesNothing [(Sys.ideal, .put (.single 97) (.single 49))]
      [(Sys.ideal, .put (.single 99) (.single 49))] :=
  @reopen_loses 0 [.put] rfl

end NjuOs.Libkvdb
