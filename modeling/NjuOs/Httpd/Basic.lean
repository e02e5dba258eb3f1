import NjuOs.Lib.FdTable
import NjuOs.Lib.Run
import Mathlib.Logic.Function.Basic

/-!
`httpd`: the accept loop and its handler threads as one interleaved system.

A step of the system is one step of the main thread, of one handler or of one
script. The state is the process's descriptor table, the mutex, `thread_count`, the
locals of the main thread, the program counter of every handler and the scripts
that run, each with its copy of the descriptors. Connections are numbered
in the order in which they are accepted, and the handler started for connection
`c` is handler `c`, which runs script `c`. `closes` records every
`close(client_socket)` with what the number denoted at that moment; no step reads it.

What a request is and what a system call answers decides which branch a handler
takes, so the branch is part of the label of its step. The buffers it fills on
the way have no part in this. A handler waits in `read` and in `waitpid`. Of a script
only this matters: it may write, close descriptors and end, or do none of it for ever,
and it leaves no process behind that outlives it.
-/

namespace NjuOs.Httpd

open NjuOs.Lib

def maxThreads : Nat := 4

def bufferSize : Nat := 4096

/-- What a descriptor number can denote. -/
inductive Desc where
  /-- The standard streams and the server socket. -/
  | server
  | conn (c : Nat)
  /-- The ends of the pipe that handler `c` opened. -/
  | pipeRead (c : Nat)
  | pipeWrite (c : Nat)
deriving DecidableEq, Repr

/-- The ways through `handle_request`. -/
inductive Exit where
  | recvFailed
  | notCgi
  | noAccess
  | pipeFailed
  | forkFailed
  | cgiOk
  | cgiFailed
deriving DecidableEq, Repr

/-- Where a handler is: each constructor stands before the action it names. -/
inductive HandlerPc where
  | recv
  | checkPrefix
  | access
  | pipe
  | fork (r w : Nat)
  | forkCloseRead (r w : Nat)
  | forkCloseWrite (w : Nat)
  /-- `close(client_socket); goto cleanup;` of the early exits. -/
  | earlyClose
  | closeWrite (r w : Nat)
  /-- The loop that reads the output of the script, with `total_bytes`. -/
  | read (r total : Nat)
  /-- In a call of `read`, with what the number denoted when it began. -/
  | reading (r total : Nat) (d : Option Desc)
  | closeRead (r : Nat)
  | waitpid
  /-- `close(client_socket)` after the label `cleanup`. -/
  | cleanup
  | lock
  | decrement
  | signal
  | unlock
  | done
deriving DecidableEq, Repr

structure Handler where
  clientSocket : Nat
  pc : HandlerPc
deriving DecidableEq, Repr

/-- Where the main thread is, with its local `client_socket` and the connection
that it was accepted for. -/
inductive MainPc where
  | accept
  | lock (fd c : Nat)
  | test (fd c : Nat)
  | waiting (fd c : Nat)
  | relock (fd c : Nat)
  | malloc (fd c : Nat)
  | create (fd c : Nat)
  | count
  | unlock
deriving DecidableEq, Repr

inductive Thread where
  | main
  | handler (c : Nat)
deriving DecidableEq, Repr

/-- A `close(client_socket)` made for a connection. -/
structure Close where
  conn : Nat
  denoted : Option Desc
deriving DecidableEq, Repr

structure State where
  fds : FdTable Desc
  accepted : Nat
  main : MainPc
  mutex : Option Thread
  threadCount : Int
  requestCounter : Nat
  handlers : Nat → Option Handler
  /-- The scripts that run, with the descriptors that they started with. -/
  scripts : Nat → Option (FdTable Desc)
  closes : List Close

/-- The server when it starts to accept: descriptors 0 to 3 are in use. -/
def init : State where
  fds := ⟨List.replicate 4 (some .server)⟩
  accepted := 0
  main := .accept
  mutex := none
  threadCount := 0
  requestCounter := 0
  handlers _ := none
  scripts _ := none
  closes := []

/-- `close(client_socket)`, made for connection `c`. -/
def State.closeSocket (s : State) (fd c : Nat) : State :=
  { s with fds := s.fds.close fd, closes := s.closes ++ [⟨c, s.fds.get fd⟩] }

def State.setHandler (s : State) (c : Nat) (h : Handler) : State :=
  { s with handlers := Function.update s.handlers c (some h) }

/-- `pthread_mutex_lock`, which is only passed when the mutex is free. -/
def State.lockMutex (s : State) (t : Thread) : Option State :=
  if s.mutex = none then some { s with mutex := some t } else none

/-- A step of the main thread; `ok` is the answer of the call that it makes. In
`waiting` it stands for the wake-up that `pthread_cond_wait` allows at any time. -/
def mainStep (s : State) (ok : Bool) : Option State :=
  match s.main with
  | .accept =>
      if ok then
        some { s with
          fds := s.fds.alloc (.conn s.accepted)
          accepted := s.accepted + 1
          main := .lock s.fds.lowest s.accepted }
      else some s
  | .lock fd c => (s.lockMutex .main).map fun s => { s with main := .test fd c }
  | .test fd c =>
      if s.threadCount ≥ maxThreads then some { s with mutex := none, main := .waiting fd c }
      else some { s with requestCounter := s.requestCounter + 1, main := .malloc fd c }
  | .waiting fd c => some { s with main := .relock fd c }
  | .relock fd c => (s.lockMutex .main).map fun s => { s with main := .test fd c }
  | .malloc fd c =>
      if ok then some { s with main := .create fd c }
      else some { s.closeSocket fd c with main := .unlock }
  | .create fd c =>
      if ok then some { s.setHandler c ⟨fd, .recv⟩ with main := .count }
      else some { s.closeSocket fd c with main := .unlock }
  | .count => some { s with threadCount := s.threadCount + 1, main := .unlock }
  | .unlock => some { s with mutex := none, main := .accept }

/-- What the child does to its copy of the descriptors before it becomes the script. -/
def childFds (fds : FdTable Desc) (r w : Nat) : FdTable Desc := ((fds.close r).dup2 w 1).close w

/-- A process may still have the writing end of pipe `c`: the server, or a script that runs. -/
def State.written (s : State) (c : Nat) : Bool :=
  s.fds.holds (.pipeWrite c) ||
    (List.range s.accepted).any fun c' => (s.scripts c').any fun fds => fds.holds (.pipeWrite c)

/-- `read` can wait only for what is still written to a pipe, also when its number has been
closed in the meantime. -/
def State.readWaits (s : State) (d : Option Desc) : Bool :=
  match d with
  | some (.pipeRead c) => s.written c
  | _ => false

/-- `pthread_cond_signal`: the main thread, if it waits, is woken. -/
def MainPc.signal : MainPc → MainPc
  | .waiting fd c => .relock fd c
  | pc => pc

/-- A step of handler `c`; `exit` is the way out that its branch takes, if it
takes one here. -/
def handlerStep (s : State) (c : Nat) (exit : Option Exit) : Option State :=
  match s.handlers c with
  | none => none
  | some ⟨fd, pc⟩ =>
      let goto (s : State) (pc : HandlerPc) : Option State := some (s.setHandler c ⟨fd, pc⟩)
      match pc, exit with
      | .recv, none => goto s .checkPrefix
      | .recv, some .recvFailed => goto s .earlyClose
      | .checkPrefix, none => goto s .access
      | .checkPrefix, some .notCgi => goto s .earlyClose
      | .access, none => goto s .pipe
      | .access, some .noAccess => goto s .earlyClose
      | .pipe, none =>
          let fds := s.fds.alloc (.pipeRead c)
          goto { s with fds := fds.alloc (.pipeWrite c) } (.fork s.fds.lowest fds.lowest)
      | .pipe, some .pipeFailed => goto s .earlyClose
      | .fork r w, none =>
          goto { s with scripts := Function.update s.scripts c (some (childFds s.fds r w)) }
            (.closeWrite r w)
      | .fork r w, some .forkFailed => goto s (.forkCloseRead r w)
      | .forkCloseRead r w, none =>
          goto { s with fds := s.fds.close r } (.forkCloseWrite w)
      | .forkCloseWrite w, none => goto { s with fds := s.fds.close w } .earlyClose
      | .earlyClose, none => goto (s.closeSocket fd c) .cleanup
      | .closeWrite r w, none => goto { s with fds := s.fds.close w } (.read r 0)
      | .read r total, none => goto s (.reading r total (s.fds.get r))
      | .reading r _ d, none => if s.readWaits d then none else goto s (.closeRead r)
      | .closeRead r, none => goto { s with fds := s.fds.close r } .waitpid
      | .waitpid, some .cgiOk => if (s.scripts c).isSome then none else goto s .cleanup
      | .waitpid, some .cgiFailed => if (s.scripts c).isSome then none else goto s .cleanup
      | .cleanup, none => goto (s.closeSocket fd c) .lock
      | .lock, none => (s.lockMutex (.handler c)).bind fun s => goto s .decrement
      | .decrement, none => goto { s with threadCount := s.threadCount - 1 } .signal
      | .signal, none => goto { s with main := s.main.signal } .unlock
      | .unlock, none => goto { s with mutex := none } .done
      | _, _ => none

/-- The loop goes on until nothing is read or its buffer is full. -/
def HandlerPc.afterRead (r total bytesRead : Nat) : HandlerPc :=
  if bytesRead = 0 ∨ total + bytesRead ≥ bufferSize - 1 then .closeRead r
  else .read r (total + bytesRead)

/-- `read` gives handler `c` at most as many bytes as it asks for, and none when scripts that
still run have closed the writing end. -/
def outputStep (s : State) (c bytesRead : Nat) : Option State :=
  match s.handlers c with
  | some ⟨fd, .reading r total _⟩ =>
      if bytesRead ≤ bufferSize - total - 1 then
        some (s.setHandler c ⟨fd, .afterRead r total bytesRead⟩)
      else none
  | _ => none

/-- Script `c` ends. -/
def endStep (s : State) (c : Nat) : Option State :=
  if (s.scripts c).isSome then some { s with scripts := Function.update s.scripts c none } else none

inductive Act where
  | main (ok : Bool)
  | handler (c : Nat) (exit : Option Exit)
  | output (c bytesRead : Nat)
  | scriptEnd (c : Nat)
deriving DecidableEq, Repr

def step (s : State) : Act → Option State
  | .main ok => mainStep s ok
  | .handler c exit => handlerStep s c exit
  | .output c bytesRead => outputStep s c bytesRead
  | .scriptEnd c => endStep s c

end NjuOs.Httpd
