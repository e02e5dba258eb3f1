import Mathlib.Data.List.Basic
import NjuOs.Lib.Scanf
import NjuOs.Lib.Storage
import NjuOs.Httpd.Basic

/-!
`handle_request`, from what is received to what is logged.

The arrays `method` and `path` and the variable `status_code` are not assigned
before the code does it, and a loop that finds no space leaves `index1` or `index2`
unassigned. `method[index1] = 0` ends the method, but `path[strlen(path)] = 0`
stores a NUL where there is one: the end of the path is what `path` held before.
`parses_exactly_iff` and `no_misuse_iff` say what that means when `path` holds
something, and when it does not.

What the system calls answer is in `Env`, with what the script has written until
it is waited for.
-/

namespace NjuOs.Httpd

open NjuOs.Lib

/-! ### Requests -/

/-- The length of `method` and of `path`. -/
def arraySize : Nat := 1024

def maxPathLength : Nat := 1024

/-- The loop that assigns `index1`, or `index2`. -/
def findSpace (buffer : Bytes) (start : Nat) : Option Nat :=
  ((buffer.drop start).findIdx? (· = space)).map (start + ·)

def strlen (a : Storage) : Except Misuse Nat := List.length <$> stringAt arraySize a 0

/-- `method` and `path` behind `path[strlen(path)] = '\0'`. -/
def parseRequest (buffer : Bytes) (method path : Storage) : Except Misuse (Storage × Storage) := do
  let index1 ← assigned (findSpace buffer 0)
  let method ← copyInto arraySize method 0 (buffer.take index1)
  let method ← store arraySize method index1 0
  let index2 ← assigned (findSpace buffer (index1 + 1))
  let path ← copyInto arraySize path 0 ((buffer.drop (index1 + 1)).take (index2 - (index1 + 1)))
  let path ← store arraySize path (← strlen path) 0
  return (method, path)

/-- The path up to its `?`, and where the query begins. -/
def splitQuery (path : Storage) : Except Misuse (Storage × Option Nat) := do
  let target ← stringAt arraySize path 0
  match target.findIdx? (· = question) with
  | some i => return (← store arraySize path i 0, some (i + 1))
  | none => return (path, none)

/-! ### Responses -/

/-- The text from the first `c` on. -/
def strchr (text : Bytes) (c : UInt8) : Option Bytes :=
  match text.dropWhile (· ≠ c) with
  | [] => none
  | rest => some rest

/-- The text from the first `key` on. -/
def strstr (text key : Bytes) : Option Bytes := text.tails.find? fun rest => key.isPrefixOf rest

/-- The number in front of a text; one that fits into an `int`. -/
def atoi (text : Bytes) : Int :=
  match text.dropWhile isSpace with
  | 0x2D :: rest => -digitsValue (rest.takeWhile isDecimalDigit)
  | 0x2B :: rest => digitsValue (rest.takeWhile isDecimalDigit)
  | rest => digitsValue (rest.takeWhile isDecimalDigit)

def parseStatusCode (response : Bytes) : Int :=
  let start := if (ascii "HTTP/1.").isPrefixOf response then strchr response space else none
  match start with
  | some rest => atoi (rest.drop 1)
  | none =>
      match strstr response (ascii "Status: ") with
      | some rest => atoi (rest.drop 8)
      | none => 200

/-! ### The handler -/

/-- What `fork` returns, and in the parent what the child does. -/
inductive Forked where
  | failed
  | child
  /-- `exited` is `WIFEXITED(..) && WEXITSTATUS(..) == 0`. -/
  | parent (exited : Bool) (cgiOutput : Bytes)

/-- The answers of the system. -/
structure Env where
  /-- What is received; an error is `none`. -/
  recv : Option Bytes
  access : Bytes → Bool
  pipe : Bool
  fork : Forked

structure Locals where
  statusCode : Option Int
  method : Storage
  path : Storage

/-- Before anything is assigned. -/
def Locals.fresh : Locals := ⟨none, .fresh, .fresh⟩

/-- What a handler does at last. -/
inductive Outcome where
  | logged (method path : Bytes) (statusCode : Int)
  /-- The child becomes the script, with this in its environment. -/
  | executed (scriptPath queryString : Bytes)

/-- `log_request(method, path, status_code)` -/
def logRequest (l : Locals) : Except Misuse Outcome := do
  let statusCode ← assigned l.statusCode
  let method ← stringAt arraySize l.method 0
  let path ← stringAt arraySize l.path 0
  return .logged method path statusCode

/-- `status_code = ..; goto cleanup;` -/
def Locals.leave (l : Locals) (statusCode : Int) : Except Misuse Outcome :=
  logRequest { l with statusCode := some statusCode }

/-- `snprintf`, whose first argument is an array of `size` bytes. -/
def snprintf (size : Nat) (text : Bytes) : Bytes := text.take (size - 1)

/-- The handler behind the parsing. -/
def respond (env : Env) (l : Locals) : Except Misuse Outcome := do
  let (path, query) ← splitQuery l.path
  let l := { l with path }
  let pathWithoutQuery ← stringAt arraySize path 0
  let scriptPath := snprintf maxPathLength (ascii "." ++ pathWithoutQuery)
  if !(ascii "/cgi-bin/").isPrefixOf pathWithoutQuery then l.leave 404
  else if !env.access scriptPath then l.leave 404
  else if !env.pipe then l.leave 500
  else match env.fork with
    | .failed => l.leave 500
    | .child => do
        let queryString ← query.elim (pure []) (stringAt arraySize path)
        return .executed scriptPath (snprintf 1024 (ascii "QUERY_STRING=" ++ queryString))
    | .parent exited cgiOutput =>
        l.leave (if exited then parseStatusCode (cstr cgiOutput) else 500)

def handleRequest (env : Env) (l : Locals) : Except Misuse Outcome :=
  match env.recv with
  | none | some [] => l.leave 400
  | some buffer => do
      let (method, path) ← parseRequest buffer l.method l.path
      respond env { l with method, path }

/-! ### The request line -/

section Line

variable {method path buffer text : Bytes}

theorem findIdx?_notMem {c : UInt8} (h : c ∉ text) : text.findIdx? (· = c) = none :=
  List.findIdx?_eq_none_iff.mpr fun _ hb => decide_eq_false fun heq => h (heq ▸ hb)

theorem findIdx?_first {c : UInt8} (h : c ∉ text) (rest : Bytes) :
    (text ++ c :: rest).findIdx? (· = c) = some text.length := by
  rw [List.findIdx?_append, findIdx?_notMem h, List.findIdx?_cons]
  simp

theorem findSpace_line (front : Bytes) (h : space ∉ text) (rest : Bytes) :
    findSpace (front ++ (text ++ space :: rest)) front.length =
      some (front.length + text.length) := by
  rw [findSpace, List.drop_left, findIdx?_first h, Option.map_some]

theorem findSpace_none {start : Nat} (h : space ∉ buffer.drop start) :
    findSpace buffer start = none := by
  rw [findSpace, findIdx?_notMem h, Option.map_none]

/-- The parsing of a line, loop by loop. -/
theorem parseRequest_line (hmethod : space ∉ method) (hpath : space ∉ path) (rest : Bytes)
    (a b : Storage) :
    parseRequest (method ++ space :: (path ++ space :: rest)) a b = (do
      let a ← copyInto arraySize a 0 method
      let a ← store arraySize a method.length 0
      let b ← copyInto arraySize b 0 path
      let b ← store arraySize b (← strlen b) 0
      return (a, b)) := by
  have hindex1 := findSpace_line [] hmethod (path ++ space :: rest)
  have hindex2 := findSpace_line (method ++ [space]) hpath rest
  rw [List.nil_append, List.length_nil, Nat.zero_add] at hindex1
  rw [List.append_assoc, List.singleton_append, List.length_append, List.length_singleton]
    at hindex2
  have hdrop : (method ++ space :: (path ++ space :: rest)).drop (method.length + 1) =
      path ++ space :: rest := by
    rw [← List.drop_drop, List.drop_left]
    rfl
  rw [parseRequest, hindex1, assigned, ok_bind, List.take_left, hindex2]
  simp only [assigned, ok_bind, hdrop, Nat.add_sub_cancel_left, List.take_left]

/-- Only lines with two spaces are parsed. -/
theorem exists_line {a b : Storage} {out : Storage × Storage}
    (h : parseRequest buffer a b = .ok out) :
    ∃ method path rest, buffer = method ++ space :: (path ++ space :: rest) ∧
      space ∉ method ∧ space ∉ path := by
  by_cases hfirst : space ∈ buffer
  · obtain ⟨method, rest, rfl, hmethod⟩ := List.eq_append_cons_of_mem hfirst
    by_cases hsecond : space ∈ rest
    · obtain ⟨path, rest, rfl, hpath⟩ := List.eq_append_cons_of_mem hsecond
      exact ⟨method, path, rest, rfl, hmethod, hpath⟩
    · have hindex1 := findSpace_line [] hmethod rest
      rw [List.nil_append, List.length_nil, Nat.zero_add] at hindex1
      have hindex2 : findSpace (method ++ space :: rest) (method.length + 1) = none := by
        refine findSpace_none ?_
        rw [← List.drop_drop, List.drop_left]
        exact hsecond
      rw [parseRequest, hindex1, assigned, ok_bind] at h
      obtain ⟨a', -, h⟩ := exists_of_bind_ok h
      obtain ⟨a'', -, h⟩ := exists_of_bind_ok h
      rw [hindex2] at h
      cases h
  · rw [parseRequest, findSpace_none (by rwa [List.drop_zero])] at h
    cases h

/-- A line whose parts fit into the arrays: the end of `path` is found in it. -/
theorem parseRequest_fits (hmethod : space ∉ method) (hpath : space ∉ path)
    (hmethodFits : method.length < arraySize) (hpathFits : path.length ≤ arraySize) (rest : Bytes)
    (a b : Storage) :
    ∃ a' b', Contains a' 0 (method ++ [0]) ∧ Contains b' 0 path ∧
      (∀ j, path.length ≤ j → b' j = b j) ∧
      parseRequest (method ++ space :: (path ++ space :: rest)) a b =
        (fun _ => (a', b')) <$> stringAt arraySize b' 0 := by
  obtain ⟨a', hcopyMethod, hbytes, -⟩ := copyInto_start hmethodFits.le a
  obtain ⟨b', hcopyPath, hpathBytes, hrest⟩ := copyInto_start hpathFits b
  refine ⟨Function.update a' method.length (some 0), b', contains_append.mpr ⟨?_, ?_, trivial⟩,
    hpathBytes, hrest, ?_⟩
  · rwa [contains_update (.inr (Nat.zero_add _).le)]
  · rw [Nat.zero_add, Function.update_self]
  · rw [parseRequest_line hmethod hpath, hcopyMethod, ok_bind, store_ok hmethodFits, ok_bind,
      hcopyPath, ok_bind, strlen]
    cases hstring : stringAt arraySize b' 0 with
    | error e => rfl
    | ok text =>
        -- the NUL that is stored is there already
        obtain ⟨hend, hlt⟩ := stringAt_start_end hstring
        have hsame : Function.update b' text.length (some 0) = b' := by
          rw [← hend, Function.update_eq_self]
        simp only [Functor.map, Except.map, ok_bind, store_ok hlt, hsame]
        rfl

/-- The parts of a line that is parsed fit. -/
theorem fits_of_parseRequest {a b : Storage} {rest : Bytes} {out : Storage × Storage}
    (hmethod : space ∉ method) (hpath : space ∉ path)
    (h : parseRequest (method ++ space :: (path ++ space :: rest)) a b = .ok out) :
    method.length < arraySize ∧ path.length ≤ arraySize := by
  rw [parseRequest_line hmethod hpath] at h
  obtain ⟨a', -, h⟩ := exists_of_bind_ok h
  obtain ⟨a'', hstore, h⟩ := exists_of_bind_ok h
  obtain ⟨b', hcopy, -⟩ := exists_of_bind_ok h
  constructor
  · by_contra hlt
    rw [store_outside (not_lt.mp hlt)] at hstore
    cases hstore
  · by_contra hle
    rw [copyInto_outside (Nat.zero_le _) ((not_le.mp hle).trans_eq (Nat.zero_add _).symm)] at hcopy
    cases hcopy

end Line

/-! ### On arrays that hold something -/

section Exact

variable {method path rest : Bytes}

/-- A request that is received, with its method and its path. -/
structure RequestLine (method path rest : Bytes) : Prop where
  received : (method ++ space :: (path ++ space :: rest)).length < bufferSize
  method : space ∉ method ∧ 0 ∉ method ∧ method.length < arraySize
  path : space ∉ path ∧ 0 ∉ path ∧ path.length < arraySize

/-- The strings behind the parsing are the method and the path, on arrays with this content. -/
def ParsesExactly (method path rest : Bytes) (oldMethod oldPath : Nat → UInt8) : Prop :=
  ∃ a b, parseRequest (method ++ space :: (path ++ space :: rest)) (fun i => some (oldMethod i))
      (fun i => some (oldPath i)) = .ok (a, b) ∧
    stringAt arraySize a 0 = .ok method ∧ stringAt arraySize b 0 = .ok path

/-- **The request line is parsed exactly** when `path` has a NUL behind the path before. -/
theorem parses_exactly_iff (h : RequestLine method path rest) (oldMethod oldPath : Nat → UInt8) :
    ParsesExactly method path rest oldMethod oldPath ↔ oldPath path.length = 0 := by
  obtain ⟨hmethod, hmethodNul, hmethodFits⟩ := h.method
  obtain ⟨hpath, hpathNul, hpathFits⟩ := h.path
  obtain ⟨a, b, ha, hb, hold, hparse⟩ :=
    parseRequest_fits hmethod hpath hmethodFits hpathFits.le rest (fun i => some (oldMethod i))
      fun i => some (oldPath i)
  have hmethodString : stringAt arraySize a 0 = .ok method :=
    stringAt_start ha hmethodNul hmethodFits
  have hpathString : stringAt arraySize b 0 = .ok path ↔ oldPath path.length = 0 := by
    rw [stringAt_start_iff hb hpathNul hpathFits, hold _ le_rfl, Option.some_inj]
  rw [ParsesExactly, hparse, ← hpathString]
  constructor
  · rintro ⟨a', b', hok, -, hexact⟩
    obtain ⟨text, -, heq⟩ := exists_of_map_ok hok
    obtain ⟨-, rfl⟩ := Prod.mk.inj heq
    exact hexact
  · intro hok
    exact ⟨a, b, by rw [hok]; rfl, hmethodString, hok⟩

/-- On a `path` that was empty before. -/
theorem parses_exactly_get :
    ParsesExactly (ascii "GET") (ascii "/") (ascii "HTTP/1.1") (fun _ => 0x78) (fun _ => 0) :=
  (parses_exactly_iff ⟨by decide, by decide, by decide⟩ _ _).mpr rfl

/-- On a `path` with one more byte, this byte becomes a part of the path. -/
theorem old_path_kept :
    RequestLine (ascii "GET") (ascii "/") (ascii "HTTP/1.1") ∧
      ¬ ParsesExactly (ascii "GET") (ascii "/") (ascii "HTTP/1.1") (fun _ => 0)
        (fun i => if i = 1 then 0x78 else 0) := by
  refine ⟨⟨by decide, by decide, by decide⟩, ?_⟩
  rintro ⟨a, b, hparse, -, hexact⟩
  obtain ⟨a', b', hparse', hlonger⟩ : ∃ a' b', parseRequest (ascii "GET / HTTP/1.1")
      (fun _ => some 0) (fun i => some (if i = 1 then 0x78 else 0)) = .ok (a', b') ∧
        stringAt arraySize b' 0 = .ok (ascii "/x") := ⟨_, _, rfl, rfl⟩
  obtain ⟨-, rfl⟩ := Prod.mk.inj (Except.ok.inj (hparse.symm.trans hparse'))
  exact absurd (Except.ok.inj (hexact.symm.trans hlonger)) (by decide)

end Exact

/-! ### On arrays that hold nothing -/

section Fresh

variable {method path text buffer : Bytes} {l : Locals} {b : Storage}

/-- A path without a query. -/
theorem splitQuery_none (h : stringAt arraySize b 0 = .ok path) (hquery : question ∉ path) :
    splitQuery b = .ok (b, none) := by
  rw [splitQuery, h, ok_bind, findIdx?_notMem hquery]
  rfl

/-- A path and a query behind it. -/
theorem splitQuery_some {query : Bytes} {rest : Bytes}
    (h : Contains b 0 (path ++ question :: (query ++ 0 :: rest))) (hpath : question ∉ path)
    (hnul : 0 ∉ path ++ question :: query)
    (hsize : (path ++ question :: query).length < arraySize) :
    ∃ b', splitQuery b = .ok (b', some (path.length + 1)) ∧
      stringAt arraySize b' 0 = .ok path ∧
      stringAt arraySize b' (path.length + 1) = .ok query := by
  have htext : path ++ question :: (query ++ 0 :: rest) =
      (path ++ question :: query) ++ 0 :: rest := by
    rw [List.append_assoc, List.cons_append]
  have hlength : (path ++ question :: query).length = path.length + 1 + query.length := by
    rw [List.length_append, List.length_cons]
    omega
  have hstring : stringAt arraySize b 0 = .ok (path ++ question :: query) :=
    stringAt_start (htext ▸ h) hnul hsize
  rw [hlength] at hsize
  rw [List.mem_append, List.mem_cons, not_or, not_or] at hnul
  obtain ⟨hfront, -, hback⟩ := contains_append.mp h
  rw [Nat.zero_add] at hback
  have hlt : path.length < arraySize := by omega
  refine ⟨Function.update b path.length (some 0), ?_, ?_, ?_⟩
  · rw [splitQuery, hstring, ok_bind, findIdx?_first hpath]
    simp only [store_ok hlt, ok_bind]
    rfl
  · refine (stringAt_start_iff ?_ hnul.1 hlt).mpr (Function.update_self ..)
    rwa [contains_update (.inr (Nat.zero_add _).le)]
  · have hquery := (contains_update (.inl path.length.lt_succ_self) (some 0)).mpr hback
    exact stringAt_terminated hquery hnul.2.2 hsize

theorem leave_ok (hmethod : stringAt arraySize l.method 0 = .ok method)
    (hpath : stringAt arraySize l.path 0 = .ok path) (statusCode : Int) :
    l.leave statusCode = .ok (.logged method path statusCode) := by
  rw [Locals.leave, logRequest]
  simp only [assigned, ok_bind, hmethod, hpath]
  rfl

/-- The parts of the path are strings. -/
theorem splitQuery_ok (h : Contains b 0 (path ++ 0 :: text)) (hnul : 0 ∉ path)
    (hsize : path.length < arraySize) :
    ∃ b' query, splitQuery b = .ok (b', query) ∧ (∃ front, stringAt arraySize b' 0 = .ok front) ∧
      ∀ i ∈ query, ∃ back, stringAt arraySize b' i = .ok back := by
  by_cases hquery : question ∈ path
  · obtain ⟨front, back, rfl, hfront⟩ := List.eq_append_cons_of_mem hquery
    rw [List.append_assoc, List.cons_append] at h
    obtain ⟨b', hsplit, hfront, hback⟩ := splitQuery_some h hfront hnul hsize
    refine ⟨b', _, hsplit, ⟨front, hfront⟩, fun i hi => ?_⟩
    obtain rfl := Option.some.inj hi
    exact ⟨back, hback⟩
  · have hstring : stringAt arraySize b 0 = .ok path :=
      stringAt_start h hnul hsize
    exact ⟨b, none, splitQuery_none hstring hquery, ⟨path, hstring⟩, fun i hi => by cases hi⟩

/-- Behind the parsing everything that is read is assigned. -/
theorem respond_ok (env : Env) (hmethod : stringAt arraySize l.method 0 = .ok method)
    (h : Contains l.path 0 (path ++ 0 :: text)) (hnul : 0 ∉ path)
    (hsize : path.length < arraySize) : ∃ outcome, respond env l = .ok outcome := by
  obtain ⟨b, query, hsplit, ⟨front, hfront⟩, hquery⟩ := splitQuery_ok h hnul hsize
  have hleave : ∀ statusCode, ∃ outcome,
      Locals.leave { l with path := b } statusCode = .ok outcome := fun statusCode =>
    ⟨_, leave_ok (l := { l with path := b }) hmethod hfront statusCode⟩
  rw [respond, hsplit]
  simp only [ok_bind, hfront]
  split_ifs
  · exact hleave 404
  · exact hleave 404
  · exact hleave 500
  · split
    case h_1 => exact hleave 500
    case h_2 =>
      cases query with
      | none => exact ⟨_, rfl⟩
      | some i =>
          obtain ⟨back, hback⟩ := hquery i rfl
          rw [Option.elim_some, hback]
          exact ⟨_, rfl⟩
    case h_3 => exact hleave _

/-- The request line has two spaces, its parts fit into the arrays, and the path has a NUL. -/
def PathEnds (buffer : Bytes) : Prop :=
  ∃ method path rest, buffer = method ++ space :: (path ++ space :: rest) ∧
    space ∉ method ∧ space ∉ path ∧ method.length < arraySize ∧ path.length ≤ arraySize ∧ 0 ∈ path

theorem handleRequest_received {env : Env} (hrecv : env.recv = some buffer) (hne : buffer ≠ [])
    (l : Locals) :
    handleRequest env l = (do
      let (method, path) ← parseRequest buffer l.method l.path
      respond env { l with method, path }) := by
  obtain ⟨c, cs, rfl⟩ := List.exists_cons_of_ne_nil hne
  rw [handleRequest, hrecv]

/-- The method is a string, whether it has a NUL or not. -/
theorem exists_stringAt (h : Contains b 0 (method ++ [0])) (hfits : method.length < arraySize) :
    ∃ text, stringAt arraySize b 0 = .ok text := by
  obtain ⟨text, rest, hsplit, hnul⟩ :=
    List.eq_append_cons_of_mem (List.mem_append_right method (List.mem_singleton_self 0))
  have hlength := congrArg List.length hsplit
  simp only [List.length_append, List.length_cons, List.length_nil] at hlength
  rw [hsplit] at h
  exact ⟨text, stringAt_start h hnul (by omega)⟩

/-- On a fresh `path` the end is found when it was received. -/
theorem nul_mem_of_stringAt (hpath : Contains b 0 path)
    (hfresh : ∀ j, path.length ≤ j → b j = none) (hfits : path.length ≤ arraySize)
    (h : stringAt arraySize b 0 = .ok text) : 0 ∈ path := by
  by_contra hnul
  rw [stringAt_append hpath hnul ((Nat.zero_add _).trans_le hfits), Nat.zero_add] at h
  obtain ⟨rest, hrest, -⟩ := exists_of_map_ok h
  rcases hfits.lt_or_eq with hlt | heq
  · rw [stringAt_unassigned hlt (hfresh _ le_rfl)] at hrest
    cases hrest
  · rw [stringAt_outside heq.ge] at hrest
    cases hrest

/-- **Nothing is read before it is assigned and nothing stored outside** exactly for requests
with a NUL in their path. -/
theorem no_misuse_iff (env : Env) :
    (∃ outcome, handleRequest env .fresh = .ok outcome) ↔
      ∃ buffer, env.recv = some buffer ∧ PathEnds buffer := by
  constructor
  · rintro ⟨outcome, h⟩
    rw [handleRequest] at h
    split at h
    case h_1 => cases h
    case h_2 => cases h
    case h_3 buffer _ hrecv =>
      obtain ⟨out, hparse, -⟩ := exists_of_bind_ok h
      obtain ⟨method, path, rest, rfl, hmethod, hpath⟩ := exists_line hparse
      obtain ⟨hmethodFits, hpathFits⟩ := fits_of_parseRequest hmethod hpath hparse
      obtain ⟨a, b, -, hb, hold, hparse'⟩ :=
        parseRequest_fits hmethod hpath hmethodFits hpathFits rest Locals.fresh.method
          Locals.fresh.path
      rw [hparse'] at hparse
      obtain ⟨text, htext, -⟩ := exists_of_map_ok hparse
      exact ⟨_, hrecv, method, path, rest, rfl, hmethod, hpath, hmethodFits, hpathFits,
        nul_mem_of_stringAt hb hold hpathFits htext⟩
  · rintro ⟨buffer, hrecv, method, path, rest, rfl, hmethod, hpath, hmethodFits, hpathFits, hnul⟩
    obtain ⟨a, b, ha, hb, -, hparse⟩ :=
      parseRequest_fits hmethod hpath hmethodFits hpathFits rest Locals.fresh.method
        Locals.fresh.path
    obtain ⟨target, behind, rfl, htarget⟩ := List.eq_append_cons_of_mem hnul
    have htargetFits : target.length < arraySize := by
      rw [List.length_append, List.length_cons] at hpathFits
      omega
    rw [stringAt_start hb htarget htargetFits] at hparse
    obtain ⟨text, htext⟩ := exists_stringAt ha hmethodFits
    rw [handleRequest_received hrecv (by simp), hparse]
    exact respond_ok env htext hb htarget htargetFits

/-- An ordinary request, and a connection that is closed at once. -/
theorem request_misused :
    handleRequest ⟨some (ascii "GET / HTTP/1.1"), fun _ => true, true, .failed⟩ .fresh =
        .error .unassigned ∧
      handleRequest ⟨some [], fun _ => true, true, .failed⟩ .fresh = .error .unassigned :=
  ⟨rfl, rfl⟩

end Fresh

end NjuOs.Httpd
