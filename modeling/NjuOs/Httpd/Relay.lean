import NjuOs.Httpd.Script

/-!
What the parent sends of the output of a script.

The output comes through the pipe in reads whose lengths the system chooses. The
loop is left when nothing comes any more or when `cgi_output` is full, and what is
in the pipe by then is never read (`readOutput_eq`).
-/

namespace NjuOs.Httpd

open NjuOs.Lib

/-! ### The loop -/

/-- `read(pipefd[0], .., count)` and what it leaves in the pipe: the system stores as many bytes
as it likes, but one when there is one. -/
def read (pipe : Bytes) (count likes : Nat) : Bytes × Bytes :=
  pipe.splitAt (min count (max likes 1))

section Reads

variable {pipe bytes rest : Bytes} {count likes : Nat}

theorem eq_of_read (h : read pipe count likes = (bytes, rest)) :
    pipe.take (min count (max likes 1)) = bytes ∧ pipe.drop (min count (max likes 1)) = rest := by
  rw [read, List.splitAt_eq] at h
  exact Prod.mk.inj h

theorem read_append (h : read pipe count likes = (bytes, rest)) : bytes ++ rest = pipe := by
  obtain ⟨rfl, rfl⟩ := eq_of_read h
  exact List.take_append_drop _ _

theorem length_read_le (h : read pipe count likes = (bytes, rest)) : bytes.length ≤ count := by
  obtain ⟨rfl, -⟩ := eq_of_read h
  exact (List.length_take_le _ _).trans (min_le_left _ _)

/-- Nothing is stored only at the end. -/
theorem read_nil (hcount : 0 < count) (h : read pipe count likes = ([], rest)) : pipe = [] := by
  rcases List.take_eq_nil_iff.mp (eq_of_read h).1 with hzero | hnil
  · omega
  · exact hnil

end Reads

/-- What is in `cgi_output` when the loop is left. -/
def readOutput (likes : Nat → Nat) (pipe cgiOutput : Bytes) : Bytes :=
  match _h : read pipe (bufferSize - cgiOutput.length - 1) (likes 0) with
  | ([], _) => cgiOutput
  | (b :: bytes, rest) =>
      let cgiOutput := cgiOutput ++ b :: bytes
      if cgiOutput.length ≥ bufferSize - 1 then cgiOutput
      else readOutput (fun i => likes (i + 1)) rest cgiOutput
termination_by pipe.length
decreasing_by
  rw [← read_append _h, List.length_append, List.length_cons]
  omega

/-- The loop stores the output until the buffer is full, however the reads are cut. -/
theorem readOutput_eq (likes : Nat → Nat) (pipe : Bytes) {cgiOutput : Bytes}
    (h : cgiOutput.length < bufferSize - 1) :
    readOutput likes pipe cgiOutput =
      cgiOutput ++ pipe.take (bufferSize - 1 - cgiOutput.length) := by
  fun_induction readOutput likes pipe cgiOutput with
  | case1 likes pipe cgiOutput rest hread =>
      rw [read_nil (by omega) hread, List.take_nil, List.append_nil]
  | case2 likes pipe cgiOutput b bytes rest hread cgiOutput' hfull =>
      -- the last read has filled the buffer
      have hle := length_read_le hread
      have hlen : cgiOutput'.length = cgiOutput.length + (b :: bytes).length := List.length_append
      rw [← read_append hread, List.take_left' (by omega)]
  | case3 likes pipe cgiOutput b bytes rest hread cgiOutput' hspace ih =>
      have hlen : cgiOutput'.length = cgiOutput.length + (b :: bytes).length := List.length_append
      have hbytes : (b :: bytes).take (bufferSize - 1 - cgiOutput.length) = b :: bytes :=
        List.take_of_length_le (by omega)
      rw [ih (not_le.mp hspace), hlen, ← read_append hread, List.take_append, hbytes,
        Nat.sub_add_eq (bufferSize - 1)]
      exact List.append_assoc _ _ _

/-! ### The answer -/

/-- `send_error_response` -/
def errorResponse (statusCode : Nat) (statusText : Bytes) : Bytes :=
  snprintf 1024 (ascii "HTTP/1.1 " ++ decimal statusCode ++ ascii " " ++ statusText ++
    ascii "\r\nContent-Type: text/html\r\nConnection: close\r\n\r\n<html><body><h1>" ++
    decimal statusCode ++ ascii " " ++ statusText ++ ascii "</h1></body></html>")

structure Answer where
  statusCode : Int
  /-- The bytes passed to `send`. -/
  sent : Bytes

/-- The parent behind `waitpid`. -/
def relay (exited : Bool) (cgiOutput : Bytes) : Answer :=
  if exited then ⟨parseStatusCode (cstr cgiOutput), cgiOutput⟩
  else ⟨500, errorResponse 500 (ascii "Internal Server Error")⟩

theorem relay_sent (likes : Nat → Nat) (output : Bytes) :
    (relay true (readOutput likes output [])).sent = output.take (bufferSize - 1) :=
  readOutput_eq likes output (by decide)

/-- **The output is relayed whole** exactly when it fits into `cgi_output` with a NUL. -/
theorem relayed_whole_iff (likes : Nat → Nat) (output : Bytes) :
    (relay true (readOutput likes output [])).sent = output ↔ output.length ≤ 4095 := by
  rw [relay_sent, List.take_eq_self_iff, bufferSize]

/-- An output that is one byte too long, in one read after another of 1024 bytes. -/
theorem output_cut :
    (relay true (readOutput (fun _ => 1024) (List.replicate 4096 0x61) [])).sent ≠
      List.replicate 4096 0x61 := by
  rw [relay_sent, Ne, List.take_eq_self_iff, List.length_replicate, bufferSize]
  decide

end NjuOs.Httpd
