import Mathlib.Data.List.AList
import NjuOs.Lib.Bytes
import NjuOs.Lib.Run

/-!
`online.py`: which player a connection to the game server plays.

Every connection has a thread of its own. What a thread does with
`server.players` it does in two blocks behind `server.lock`, so a step of the
system is one of these blocks, or the moment when `paramiko` reports the name of
the user. Connections are numbered by the caller; a name may come any number of
times.
-/

namespace NjuOs.LabyrinthOnline

open NjuOs.Lib

variable {U : Type} [DecidableEq U]

/-- Where the thread of a connection is. -/
inductive Phase (U : Type) where
  | unconnected
  /-- `username` is known. -/
  | named (username : U)
  | active (username : U) (playerId : Nat)
  /-- The game was full; the cleanup is still to come. -/
  | refused (username : U)
  | closed
deriving DecidableEq, Repr

structure State (U : Type) [DecidableEq U] where
  availablePlayerIds : List Nat
  players : AList fun _ : U => Nat
  clients : Nat → Phase U

/-- `get_available_player_ids`: the digits that occur in the map. -/
def getAvailablePlayerIds (mapContent : Bytes) : List Nat :=
  (List.range 10).filter fun digit => UInt8.ofNat (0x30 + digit) ∈ mapContent

def init (mapContent : Bytes) : State U where
  availablePlayerIds := getAvailablePlayerIds mapContent
  players := ∅
  clients _ := .unconnected

/-- `server.players.values()` -/
def State.playerIds (s : State U) : List Nat := s.players.entries.map Sigma.snd

def State.setClient (s : State U) (c : Nat) (phase : Phase U) : State U :=
  { s with clients := Function.update s.clients c phase }

theorem State.clients_setClient (s : State U) (c : Nat) (phase : Phase U) (c' : Nat) :
    (s.setClient c phase).clients c' = if c' = c then phase else s.clients c' :=
  Function.update_apply ..

/-- The block that finds a player for a user. -/
def assign (s : State U) (c : Nat) (username : U) : State U :=
  match s.players.lookup username with
  | some playerId => s.setClient c (.active username playerId)
  | none =>
      let availableIds := s.availablePlayerIds.filter fun playerId => playerId ∉ s.playerIds
      match availableIds.min? with
      | none => s.setClient c (.refused username)
      | some playerId =>
          { s with players := s.players.insert username playerId }.setClient c
            (.active username playerId)

/-- The block in `finally`. -/
def cleanup (s : State U) (c : Nat) (username : U) : State U :=
  { s with players := s.players.erase username }.setClient c .closed

inductive Act (U : Type) where
  | connect (c : Nat) (username : U)
  | assign (c : Nat)
  /-- The loop of the client is left, in whichever way, or the game was full. -/
  | leave (c : Nat)
deriving DecidableEq, Repr

def step (s : State U) : Act U → Option (State U)
  | .connect c username =>
      match s.clients c with
      | .unconnected => some (s.setClient c (.named username))
      | _ => none
  | .assign c =>
      match s.clients c with
      | .named username => some (LabyrinthOnline.assign s c username)
      | _ => none
  | .leave c =>
      match s.clients c with
      | .active username _ => some (cleanup s c username)
      | .refused username => some (cleanup s c username)
      | _ => none

end NjuOs.LabyrinthOnline
