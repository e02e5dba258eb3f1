import NjuOs.Httpd.Relay

/-!
What a handler sends, beside what it logs.

`serve` is `handle_request` with its calls of `send` (`serve_outcome`). For a request that is
parsed exactly there is one answer, and the status in the log is the one that a client
reads in it (`logged_as_answered`), whether the answer is an error response or comes from a
script.
-/

namespace NjuOs.Httpd

open NjuOs.Lib

/-! ### The handler -/

structure Served where
  /-- What is passed to `send`, call by call. -/
  sent : List Bytes
  outcome : Outcome

def notFound : Bytes := ascii "Not Found"

def internalServerError : Bytes := ascii "Internal Server Error"

/-- `send_error_response(..); close(..); goto cleanup;` -/
def Locals.fail (l : Locals) (statusCode : Nat) (statusText : Bytes) : Except Misuse Served := do
  return ⟨[errorResponse statusCode statusText], ← l.leave statusCode⟩

/-- `respond`, with what is sent. -/
def answer (env : Env) (l : Locals) : Except Misuse Served := do
  let (path, query) ← splitQuery l.path
  let l := { l with path }
  let pathWithoutQuery ← stringAt arraySize path 0
  let scriptPath := snprintf maxPathLength (ascii "." ++ pathWithoutQuery)
  if !(ascii "/cgi-bin/").isPrefixOf pathWithoutQuery then l.fail 404 notFound
  else if !env.access scriptPath then l.fail 404 notFound
  else if !env.pipe then l.fail 500 internalServerError
  else match env.fork with
    | .failed => l.fail 500 internalServerError
    | .child => do
        let queryString ← query.elim (pure []) (stringAt arraySize path)
        return ⟨[], .executed scriptPath (snprintf 1024 (ascii "QUERY_STRING=" ++ queryString))⟩
    | .parent exited cgiOutput => do
        let reply := relay exited cgiOutput
        return ⟨[reply.sent], ← l.leave reply.statusCode⟩

/-- `handle_request` -/
def serve (env : Env) (l : Locals) : Except Misuse Served :=
  match env.recv with
  | none | some [] => do return ⟨[], ← l.leave 400⟩
  | some buffer => do
      let (method, path) ← parseRequest buffer l.method l.path
      answer env { l with method, path }

/-! ### What is logged -/

section Outcome

variable {env : Env} {l : Locals}

theorem bind_map {α β γ : Type} (x : Except Misuse α) (f : α → Except Misuse β) (g : β → γ) :
    g <$> (x >>= f) = x >>= fun a => g <$> f a := by
  cases x with
  | error e => rfl
  | ok a => rfl

theorem map_return (x : Except Misuse Outcome) (sent : List Bytes) :
    Served.outcome <$> (do return ⟨sent, ← x⟩ : Except Misuse Served) = x := by
  cases x with
  | error e => rfl
  | ok outcome => rfl

theorem answer_outcome : Served.outcome <$> answer env l = respond env l := by
  rw [answer, respond, bind_map]
  refine bind_congr fun split => ?_
  rw [bind_map]
  refine bind_congr fun pathWithoutQuery => ?_
  dsimp only
  split_ifs
  · exact map_return _ _
  · exact map_return _ _
  · exact map_return _ _
  · cases env.fork with
    | failed => exact map_return _ _
    | child => exact bind_map _ _ _
    | parent exited cgiOutput =>
        rw [map_return, relay]
        cases exited <;> rfl

/-- What is sent changes nothing else. -/
theorem serve_outcome : Served.outcome <$> serve env l = handleRequest env l := by
  rw [serve, handleRequest]
  cases env.recv with
  | none => exact map_return _ _
  | some buffer =>
      cases buffer with
      | nil => exact map_return _ _
      | cons b buffer =>
          dsimp only
          rw [bind_map]
          exact bind_congr fun _ => answer_outcome

end Outcome

/-! ### What is sent -/

/-- The status in an error response. -/
theorem parseStatusCode_notFound :
    parseStatusCode (cstr (errorResponse 404 notFound)) = 404 := by decide +kernel

theorem parseStatusCode_internalServerError :
    parseStatusCode (cstr (errorResponse 500 internalServerError)) = 500 := by decide +kernel

/-- The handler sends one answer, and logs what is in it. -/
def Reports (served : Except Misuse Served) (method path : Bytes) : Prop :=
  ∃ response, served =
    .ok ⟨[response], .logged method path (parseStatusCode (cstr response))⟩

section Sent

variable {env : Env} {l : Locals} {method target path rest : Bytes}

theorem Reports.fail {statusCode : Nat} {statusText : Bytes}
    (hmethod : stringAt arraySize l.method 0 = .ok method)
    (hpath : stringAt arraySize l.path 0 = .ok path)
    (hstatus : parseStatusCode (cstr (errorResponse statusCode statusText)) = statusCode) :
    Reports (l.fail statusCode statusText) method path := by
  refine ⟨errorResponse statusCode statusText, ?_⟩
  rw [Locals.fail, leave_ok hmethod hpath, hstatus]
  rfl

/-- The parent reads the status in what it relays. -/
theorem relay_statusCode (exited : Bool) (cgiOutput : Bytes) :
    (relay exited cgiOutput).statusCode =
      parseStatusCode (cstr (relay exited cgiOutput).sent) := by
  cases exited with
  | true => rfl
  | false => exact parseStatusCode_internalServerError.symm

theorem answer_reports (hmethod : stringAt arraySize l.method 0 = .ok method)
    (htarget : stringAt arraySize l.path 0 = .ok target) (hfork : env.fork ≠ .child) :
    Reports (answer env l) method (scriptPart target) := by
  obtain ⟨b, query, hsplit, hscript, -⟩ := splitQuery_parts htarget
  rw [answer, hsplit]
  simp only [ok_bind, hscript]
  split_ifs
  · exact .fail hmethod hscript parseStatusCode_notFound
  · exact .fail hmethod hscript parseStatusCode_notFound
  · exact .fail hmethod hscript parseStatusCode_internalServerError
  · cases hforked : env.fork with
    | failed => exact .fail hmethod hscript parseStatusCode_internalServerError
    | child => exact absurd hforked hfork
    | parent exited cgiOutput =>
        refine ⟨(relay exited cgiOutput).sent, ?_⟩
        dsimp only
        rw [leave_ok (l := { l with path := b }) hmethod hscript, relay_statusCode]
        rfl

/-- **The log tells what was answered**: for a request that is received and parsed exactly one
answer is sent, whatever the calls of the system return, and the line in the log has the
method, the path without the query, and the status that the answer carries. -/
theorem logged_as_answered (hline : RequestLine method target rest)
    (hrecv : env.recv = some (method ++ space :: (target ++ space :: rest)))
    (hend : l.path target.length = some 0) (hfork : env.fork ≠ .child) :
    Reports (serve env l) method (scriptPart target) ∧
      Served.outcome <$> serve env l = handleRequest env l := by
  refine ⟨?_, serve_outcome⟩
  obtain ⟨hmethod, hmethodNul, hmethodFits⟩ := hline.method
  obtain ⟨hpath, hpathNul, hpathFits⟩ := hline.path
  obtain ⟨a, b, ha, hb, hold, hparse⟩ :=
    parseRequest_fits hmethod hpath hmethodFits hpathFits.le rest l.method l.path
  have htarget : stringAt arraySize b 0 = .ok target :=
    (stringAt_start_iff hb hpathNul hpathFits).mpr ((hold _ le_rfl).trans hend)
  rw [htarget] at hparse
  have hserve : serve env l = answer env { l with method := a, path := b } := by
    obtain ⟨c, cs, hbuffer⟩ := List.exists_cons_of_ne_nil
      (List.append_ne_nil_of_right_ne_nil method (List.cons_ne_nil space (target ++ space :: rest)))
    rw [serve, hrecv, hbuffer]
    dsimp only
    rw [← hbuffer, hparse]
    rfl
  rw [hserve]
  exact answer_reports (l := { l with method := a, path := b })
    (stringAt_start ha hmethodNul hmethodFits) htarget hfork

/-- A script that is run, and has written its own status. -/
theorem logged_as_answered_teapot :
    Reports (serve ⟨some (ascii "GET /cgi-bin/x?y HTTP/1.1"), fun _ => true, true,
        .parent true (ascii "Status: 418")⟩ .zeroed) (ascii "GET") (ascii "/cgi-bin/x") := by
  have hline : RequestLine (ascii "GET") (ascii "/cgi-bin/x?y") (ascii "HTTP/1.1") :=
    ⟨by decide, by decide, by decide⟩
  exact (logged_as_answered hline rfl rfl Forked.noConfusion).1

end Sent

end NjuOs.Httpd
