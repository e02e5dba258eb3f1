import Mathlib.Data.List.TakeDrop
import NjuOs.Lib.Paths
import NjuOs.Httpd.Request

/-!
Which script `handle_request` runs, and with which query.

The target of a request is the string in `path` behind the parsing. What is in front
of its first `?` becomes the path of the script and what is behind it the query, each
cut by a `snprintf` (`respond_child`, `respond_executed`). Only the first nine bytes of
the path are compared; `script_inside_iff` says where the rest leads, and
`whole_query_iff` when nothing is cut.
-/

namespace NjuOs.Httpd

open NjuOs.Lib

/-! ### Targets -/

/-- The part in front of the first `?`. -/
def scriptPart (target : Bytes) : Bytes := target.takeWhile (· ≠ question)

/-- The part behind the first `?`. -/
def queryPart (target : Bytes) : Bytes := (target.dropWhile (· ≠ question)).drop 1

/-- A request is received and parsed, and `path` holds this string. -/
def Requests (env : Env) (l : Locals) (target : Bytes) : Prop :=
  ∃ buffer method path, env.recv = some buffer ∧ buffer ≠ [] ∧
    parseRequest buffer l.method l.path = .ok (method, path) ∧
    stringAt arraySize path 0 = .ok target

section Targets

variable {env : Env} {l : Locals} {b : Storage} {target front back method path rest : Bytes}
  {script queryString : Bytes}

theorem ne_question (h : question ∉ front) : ∀ c ∈ front, decide (c ≠ question) = true := by
  intro c hc
  refine decide_eq_true ?_
  rintro rfl
  exact h hc

theorem scriptPart_none (h : question ∉ target) : scriptPart target = target := by
  rw [scriptPart, List.takeWhile_eq_self_iff]
  exact ne_question h

theorem queryPart_none (h : question ∉ target) : queryPart target = [] := by
  rw [queryPart, List.dropWhile_eq_nil_iff.mpr (ne_question h)]
  rfl

theorem scriptPart_append (h : question ∉ front) (back : Bytes) :
    scriptPart (front ++ question :: back) = front := by
  rw [scriptPart, List.takeWhile_append_of_pos (ne_question h),
    List.takeWhile_cons_of_neg (by simp), List.append_nil]

theorem queryPart_append (h : question ∉ front) (back : Bytes) :
    queryPart (front ++ question :: back) = back := by
  rw [queryPart, List.dropWhile_append_of_pos (ne_question h),
    List.dropWhile_cons_of_neg (by simp)]
  rfl

/-- A target that starts with the directory has a path that starts with it. -/
theorem scriptPart_cgi (h : ascii "/cgi-bin/" <+: target) :
    (ascii "/cgi-bin/").isPrefixOf (scriptPart target) = true := by
  obtain ⟨rest, rfl⟩ := h
  rw [scriptPart, List.takeWhile_append_of_pos (ne_question (by decide)),
    List.isPrefixOf_iff_prefix]
  exact List.prefix_append _ _

/-- The strings behind the split are the parts of the target. -/
theorem splitQuery_parts (h : stringAt arraySize b 0 = .ok target) :
    ∃ b' query, splitQuery b = .ok (b', query) ∧
      stringAt arraySize b' 0 = .ok (scriptPart target) ∧
      query.elim (pure []) (stringAt arraySize b') = .ok (queryPart target) := by
  by_cases hquery : question ∈ target
  · obtain ⟨front, back, rfl, hfront⟩ := List.eq_append_cons_of_mem hquery
    obtain ⟨hbytes, hnul, hsize⟩ := contains_of_stringAt h
    rw [Nat.zero_add] at hsize
    rw [List.append_assoc, List.cons_append] at hbytes
    obtain ⟨b', hsplit, hscript, hback⟩ := splitQuery_some hbytes hfront hnul hsize
    rw [scriptPart_append hfront, queryPart_append hfront]
    exact ⟨b', _, hsplit, hscript, hback⟩
  · rw [scriptPart_none hquery, queryPart_none hquery]
    exact ⟨b, none, splitQuery_none h hquery, h, rfl⟩

/-- The script that is run, and its environment. -/
theorem respond_child (htarget : stringAt arraySize l.path 0 = .ok target)
    (hcgi : (ascii "/cgi-bin/").isPrefixOf (scriptPart target) = true)
    (haccess : env.access (snprintf maxPathLength (ascii "." ++ scriptPart target)) = true)
    (hpipe : env.pipe = true) (hfork : env.fork = .child) :
    respond env l = .ok (.executed (snprintf maxPathLength (ascii "." ++ scriptPart target))
      (snprintf 1024 (ascii "QUERY_STRING=" ++ queryPart target))) := by
  obtain ⟨b, query, hsplit, hscript, hquery⟩ := splitQuery_parts htarget
  rw [respond, hsplit]
  simp only [ok_bind, hscript, hcgi, haccess, hpipe, hfork, hquery]
  rfl

theorem leave_executed {statusCode : Int} :
    l.leave statusCode ≠ .ok (.executed script queryString) := by
  intro h
  obtain ⟨code, -, h⟩ := exists_of_bind_ok h
  obtain ⟨method, -, h⟩ := exists_of_bind_ok h
  obtain ⟨path, -, h⟩ := exists_of_bind_ok h
  cases h

/-- Nothing else is run. -/
theorem respond_executed (htarget : stringAt arraySize l.path 0 = .ok target)
    (h : respond env l = .ok (.executed script queryString)) :
    (ascii "/cgi-bin/").isPrefixOf (scriptPart target) = true ∧
      script = snprintf maxPathLength (ascii "." ++ scriptPart target) := by
  obtain ⟨b, query, hsplit, hscript, hquery⟩ := splitQuery_parts htarget
  rw [respond, hsplit] at h
  simp only [ok_bind, hscript, hquery] at h
  split_ifs at h with hcgi haccess hpipe
  · exact absurd h leave_executed
  · exact absurd h leave_executed
  · exact absurd h leave_executed
  · split at h
    case h_1 => exact absurd h leave_executed
    case h_2 =>
      cases h
      refine ⟨?_, rfl⟩
      rwa [Bool.not_eq_true', Bool.not_eq_false] at hcgi
    case h_3 => exact absurd h leave_executed

theorem handleRequest_requests (hrequest : Requests env l target) :
    ∃ l', stringAt arraySize l'.path 0 = .ok target ∧ handleRequest env l = respond env l' := by
  obtain ⟨buffer, method, path, hrecv, hne, hparse, htarget⟩ := hrequest
  refine ⟨{ l with method, path }, htarget, ?_⟩
  rw [handleRequest_received hrecv hne, hparse]
  rfl

/-- A script is run for a target. -/
theorem exists_requests (h : handleRequest env l = .ok (.executed script queryString)) :
    ∃ target, Requests env l target := by
  rw [handleRequest] at h
  split at h
  case h_1 => exact absurd h leave_executed
  case h_2 => exact absurd h leave_executed
  case h_3 buffer hne hrecv =>
    obtain ⟨⟨method, path⟩, hparse, h⟩ := exists_of_bind_ok h
    obtain ⟨⟨b, query⟩, hsplit, -⟩ := exists_of_bind_ok h
    obtain ⟨target, htarget, -⟩ := exists_of_bind_ok hsplit
    refine ⟨target, buffer, method, path, hrecv, ?_, hparse, htarget⟩
    rintro rfl
    exact hne rfl

/-- A request line whose path ends where `path` has a NUL. -/
theorem requests_of_line (hline : RequestLine method target rest)
    (hrecv : env.recv = some (method ++ space :: (target ++ space :: rest)))
    (hend : l.path target.length = some 0) : Requests env l target := by
  obtain ⟨hmethod, -, hmethodFits⟩ := hline.method
  obtain ⟨hpath, hpathNul, hpathFits⟩ := hline.path
  obtain ⟨a, b, -, hb, hold, hparse⟩ :=
    parseRequest_fits hmethod hpath hmethodFits hpathFits.le rest l.method l.path
  have htarget : stringAt arraySize b 0 = .ok target :=
    (stringAt_start_iff hb hpathNul hpathFits).mpr ((hold _ le_rfl).trans hend)
  refine ⟨_, a, b, hrecv, by simp, ?_, htarget⟩
  rw [hparse, htarget]
  rfl

end Targets

/-! ### Where the script is -/

/-- `./cgi-bin/` -/
def cgiBin : Location Bytes := resolve (movesOf (ascii "./cgi-bin/"))

def InsideCgiBin (script : Bytes) : Prop := (resolve (movesOf script)).Below cgiBin

/-- The path, which is cut behind 1022 bytes, enters `cgi-bin` on the level of its start, and has
from there on never more moves up than down, and in the end fewer. -/
def StaysInside (target : Bytes) : Prop :=
  ∃ n, Entered (ascii "cgi-bin") (movesOf ((scriptPart target).take 1022)) (n + 1)

section Inside

variable {env : Env} {l : Locals} {path script queryString : Bytes}

/-- The dot in front of a path changes nothing. -/
theorem movesOf_dot (path : Bytes) :
    movesOf (ascii "." ++ slash :: path) = movesOf (slash :: path) := by
  rw [movesOf_cons (by decide)]
  exact (@movesOf_cons [] List.not_mem_nil path).symm

theorem movesOf_script (h : (ascii "/cgi-bin/").isPrefixOf path = true) :
    movesOf (snprintf maxPathLength (ascii "." ++ path)) = movesOf (path.take 1022) := by
  obtain ⟨rest, rfl⟩ := List.isPrefixOf_iff_prefix.mp h
  exact movesOf_dot _

/-- **The script is inside `./cgi-bin/`** exactly when its path never leaves the directory. -/
theorem script_inside_iff (h : handleRequest env l = .ok (.executed script queryString)) :
    ∃ target, Requests env l target ∧ (InsideCgiBin script ↔ StaysInside target) := by
  obtain ⟨target, hrequest⟩ := exists_requests h
  obtain ⟨l', htarget, hhandle⟩ := handleRequest_requests hrequest
  rw [hhandle] at h
  obtain ⟨hcgi, rfl⟩ := respond_executed htarget h
  refine ⟨target, hrequest, ?_⟩
  rw [InsideCgiBin, movesOf_script hcgi]
  exact resolve_below_iff

/-- A script in a directory of its own. -/
theorem script_inside_deep :
    ∃ target, Requests ⟨some (ascii "GET /cgi-bin/a/../b?c HTTP/1.1"), fun _ => true, true, .child⟩
        ⟨none, fun _ => some 0, fun _ => some 0⟩ target ∧
      (InsideCgiBin (ascii "./cgi-bin/a/../b") ↔ StaysInside target) :=
  @script_inside_iff _ _ _ (ascii "QUERY_STRING=c") rfl

/-- A path that starts with the directory and leaves it. -/
theorem script_escapes :
    handleRequest ⟨some (ascii "GET /cgi-bin/../x HTTP/1.1"), fun _ => true, true, .child⟩
        ⟨none, fun _ => some 0, fun _ => some 0⟩ =
      .ok (.executed (ascii "./cgi-bin/../x") (ascii "QUERY_STRING=")) ∧
    ¬ InsideCgiBin (ascii "./cgi-bin/../x") := by
  refine ⟨rfl, ?_⟩
  rintro ⟨-, names, hne, hnames⟩
  have hplace : resolve (movesOf (ascii "./cgi-bin/../x")) = ⟨0, [ascii "x"]⟩ := by decide
  rw [hplace] at hnames
  cases names with
  | nil => exact hne rfl
  | cons name names =>
      have hlength := congrArg List.length hnames
      rw [List.length_append] at hlength
      exact absurd (Nat.succ.inj hlength) (Nat.succ_ne_zero _).symm

end Inside

/-! ### What is cut -/

section Whole

variable {env : Env} {l : Locals} {target front back : Bytes}

theorem snprintf_whole_iff {size : Nat} :
    snprintf size (front ++ back) = front ++ back ↔ front.length + back.length ≤ size - 1 := by
  rw [snprintf, List.take_eq_self_iff, List.length_append]

theorem handleRequest_child (hrequest : Requests env l target)
    (hcgi : ascii "/cgi-bin/" <+: target)
    (haccess : env.access (snprintf maxPathLength (ascii "." ++ scriptPart target)) = true)
    (hpipe : env.pipe = true) (hfork : env.fork = .child) :
    handleRequest env l = .ok (.executed (snprintf maxPathLength (ascii "." ++ scriptPart target))
      (snprintf 1024 (ascii "QUERY_STRING=" ++ queryPart target))) := by
  obtain ⟨l', htarget, hhandle⟩ := handleRequest_requests hrequest
  rw [hhandle]
  exact respond_child htarget (scriptPart_cgi hcgi) haccess hpipe hfork

/-- **The script and its query are whole** exactly when both parts of the target fit behind what
is put in front of them. -/
theorem whole_query_iff (hrequest : Requests env l target) (hcgi : ascii "/cgi-bin/" <+: target)
    (haccess : env.access (snprintf maxPathLength (ascii "." ++ scriptPart target)) = true)
    (hpipe : env.pipe = true) (hfork : env.fork = .child) :
    handleRequest env l =
        .ok (.executed (ascii "." ++ scriptPart target)
          (ascii "QUERY_STRING=" ++ queryPart target)) ↔
      (scriptPart target).length ≤ 1022 ∧ (queryPart target).length ≤ 1010 := by
  rw [handleRequest_child hrequest hcgi haccess hpipe hfork, Except.ok.injEq,
    Outcome.executed.injEq, snprintf_whole_iff, snprintf_whole_iff]
  have hdot : (ascii ".").length = 1 := rfl
  have hname : (ascii "QUERY_STRING=").length = 13 := rfl
  rw [hdot, hname, maxPathLength]
  omega

/-- The handler in front of a request line, in the child. -/
def childEnv (target : Bytes) : Env :=
  ⟨some (ascii "GET" ++ space :: (target ++ space :: ascii "HTTP/1.1")), fun _ => true, true,
    .child⟩

/-- Arrays of NULs. -/
def Locals.zeroed : Locals := ⟨none, fun _ => some 0, fun _ => some 0⟩

theorem requests_zeroed (h : space ∉ target ∧ 0 ∉ target ∧ target.length < arraySize) :
    Requests (childEnv target) .zeroed target := by
  have hreceived : (ascii "GET" ++ space :: (target ++ space :: ascii "HTTP/1.1")).length <
      bufferSize := by
    have hfits := h.2.2
    have hget : (ascii "GET").length = 3 := rfl
    have hversion : (ascii "HTTP/1.1").length = 8 := rfl
    rw [arraySize] at hfits
    simp only [List.length_append, List.length_cons, hget, hversion, bufferSize]
    omega
  exact requests_of_line ⟨hreceived, by decide, h⟩ rfl rfl

theorem whole_query_short :
    handleRequest (childEnv (ascii "/cgi-bin/x?a=b")) .zeroed =
        .ok (.executed (ascii "." ++ scriptPart (ascii "/cgi-bin/x?a=b"))
          (ascii "QUERY_STRING=" ++ queryPart (ascii "/cgi-bin/x?a=b"))) ↔
      (scriptPart (ascii "/cgi-bin/x?a=b")).length ≤ 1022 ∧
        (queryPart (ascii "/cgi-bin/x?a=b")).length ≤ 1010 :=
  whole_query_iff (requests_zeroed (by decide)) (by decide) rfl rfl rfl

/-- A script and a query of 1011 bytes. -/
def longTarget : Bytes := ascii "/cgi-bin/x" ++ question :: List.replicate 1011 0x61

/-- The last byte of the query is lost. -/
theorem query_cut :
    Requests (childEnv longTarget) .zeroed longTarget ∧ ascii "/cgi-bin/" <+: longTarget ∧
      longTarget.length ≤ 1023 ∧
      handleRequest (childEnv longTarget) .zeroed ≠
        .ok (.executed (ascii "." ++ scriptPart longTarget)
          (ascii "QUERY_STRING=" ++ queryPart longTarget)) := by
  have hlength : longTarget.length = 1022 := by
    rw [longTarget, List.length_append, List.length_cons, List.length_replicate]
    rfl
  have hquery : queryPart longTarget = List.replicate 1011 0x61 := queryPart_append (by decide) _
  have hbytes : ∀ b ∈ longTarget, b ∈ ascii "/cgi-bin/x?a" := by
    intro b hb
    rcases List.mem_append.mp hb with hb | hb
    · exact List.mem_append_left (ascii "?a") hb
    · rcases List.mem_cons.mp hb with rfl | hb
      · decide
      · rw [List.eq_of_mem_replicate hb]
        decide
  have hrequest : Requests (childEnv longTarget) .zeroed longTarget := by
    refine requests_zeroed ⟨fun h => ?_, fun h => ?_, hlength.trans_lt (by decide)⟩
    · exact absurd (hbytes _ h) (by decide)
    · exact absurd (hbytes _ h) (by decide)
  have hcgi : ascii "/cgi-bin/" <+: longTarget := ⟨ascii "x" ++ _, rfl⟩
  refine ⟨hrequest, hcgi, hlength.trans_le (by decide), ?_⟩
  rw [handleRequest_child hrequest hcgi rfl rfl rfl, hquery, Ne, Except.ok.injEq,
    Outcome.executed.injEq, snprintf_whole_iff, snprintf_whole_iff, List.length_replicate, not_and]
  intro _ hfits
  exact absurd hfits (by decide)

end Whole

end NjuOs.Httpd
