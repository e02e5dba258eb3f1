import Mathlib.Data.List.Induction
import NjuOs.Lib.Bytes

/-!
Relative paths, and where they lead as far as their text tells.

A path is a list of moves: its components stay, go up, or go down to a name.
`resolve` is the place where they lead: some levels up, and down from there.
`resolve_below_iff` says when this is below a directory by counting levels: the
path enters the directory on the level of its start, and does not leave it again.
-/

namespace NjuOs.Lib

inductive Move (α : Type) where
  | stay
  | up
  | down (name : α)
deriving DecidableEq, Repr

/-- Some levels up, and down from there; the last name is the first of the list. -/
structure Location (α : Type) where
  ups : Nat
  names : List α
deriving DecidableEq, Repr

section Locations

variable {α : Type}

def Location.start : Location α := ⟨0, []⟩

def Location.move (p : Location α) : Move α → Location α
  | .stay => p
  | .up =>
      match p.names with
      | [] => ⟨p.ups + 1, []⟩
      | _ :: names => ⟨p.ups, names⟩
  | .down a => ⟨p.ups, a :: p.names⟩

def resolve (moves : List (Move α)) : Location α := moves.foldl Location.move .start

/-- Strictly below a directory. -/
def Location.Below (p dir : Location α) : Prop :=
  p.ups = dir.ups ∧ ∃ names ≠ [], p.names = names ++ dir.names

/-- The level that is reached from a level; `none` when a move goes above level 0. -/
def levelFrom : Nat → List (Move α) → Option Nat
  | d, [] => some d
  | d, .stay :: moves => levelFrom d moves
  | 0, .up :: _ => none
  | d + 1, .up :: moves => levelFrom d moves
  | d, .down _ :: moves => levelFrom (d + 1) moves

/-- The directory `a` is entered on level 0; from there on no move goes above it, and the last one
ends `n` levels below it. -/
def Entered (a : α) (moves : List (Move α)) (n : Nat) : Prop :=
  ∃ front back, moves = front ++ .down a :: back ∧ levelFrom 0 front = some 0 ∧
    levelFrom 0 back = some n

variable {moves : List (Move α)} {m : Move α} {a : α} {n e : Nat}

theorem resolve_concat (moves : List (Move α)) (m : Move α) :
    resolve (moves ++ [m]) = (resolve moves).move m := by
  rw [resolve, List.foldl_append]
  rfl

/-- A level is reached by a level in between. -/
theorem levelFrom_append (d : Nat) (front back : List (Move α)) :
    levelFrom d (front ++ back) = (levelFrom d front).bind fun e => levelFrom e back := by
  induction front generalizing d with
  | nil => rfl
  | cons m front ih =>
      cases m with
      | stay => exact ih d
      | up =>
          cases d with
          | zero => rfl
          | succ d => exact ih d
      | down a => exact ih (d + 1)

theorem levelFrom_concat {d : Nat} (h : levelFrom d moves = some n)
    (hm : levelFrom n [m] = some e) : levelFrom d (moves ++ [m]) = some e := by
  rw [levelFrom_append, h, Option.bind_some, hm]

theorem Entered.concat (h : Entered a moves n) (hm : levelFrom n [m] = some e) :
    Entered a (moves ++ [m]) e := by
  obtain ⟨front, back, rfl, hfront, hback⟩ := h
  refine ⟨front, back ++ [m], ?_, hfront, levelFrom_concat hback hm⟩
  rw [List.append_assoc, List.cons_append]

/-- Moves that do not go above a place keep its names, and add as many as they go down. -/
theorem foldl_move (u : Nat) (top names : List α) (h : levelFrom top.length moves = some n) :
    ∃ top', top'.length = n ∧
      moves.foldl Location.move ⟨u, top ++ names⟩ = ⟨u, top' ++ names⟩ := by
  induction moves generalizing top with
  | nil => exact ⟨top, Option.some.inj h, rfl⟩
  | cons m moves ih =>
      cases m with
      | stay => exact ih top h
      | up =>
          cases top with
          | nil => cases h
          | cons b top => exact ih top h
      | down b => exact ih (b :: top) h

/-- A place that is not above the start was reached without going above it. -/
theorem levelFrom_of_resolve {names : List α} (h : resolve moves = ⟨0, names⟩) :
    levelFrom 0 moves = some names.length := by
  induction moves using List.reverseRecOn generalizing names with
  | nil =>
      obtain rfl : [] = names := congrArg Location.names h
      rfl
  | append_singleton moves m ih =>
      rw [resolve_concat] at h
      cases hbefore : resolve moves with
      | mk ups before =>
      rw [hbefore] at h
      cases m with
      | stay =>
          obtain ⟨rfl, rfl⟩ := Location.mk.inj h
          exact levelFrom_concat (ih hbefore) rfl
      | up =>
          cases before with
          | nil => exact absurd (Location.mk.inj h).1 ups.succ_ne_zero
          | cons b before =>
              obtain ⟨rfl, rfl⟩ := Location.mk.inj h
              exact levelFrom_concat (ih hbefore) rfl
      | down b =>
          obtain ⟨rfl, rfl⟩ := Location.mk.inj h
          exact levelFrom_concat (ih hbefore) rfl

/-- The lowest directory of a place is entered, and the other names are below it. -/
theorem entered_of_resolve {top : List α} (h : resolve moves = ⟨0, top ++ [a]⟩) :
    Entered a moves top.length := by
  induction moves using List.reverseRecOn generalizing top with
  | nil => cases top <;> cases h
  | append_singleton moves m ih =>
      rw [resolve_concat] at h
      cases hbefore : resolve moves with
      | mk ups before =>
      rw [hbefore] at h
      cases m with
      | stay =>
          obtain ⟨rfl, rfl⟩ := Location.mk.inj h
          exact (ih hbefore).concat rfl
      | up =>
          cases before with
          | nil => exact absurd (Location.mk.inj h).1 ups.succ_ne_zero
          | cons b before =>
              obtain ⟨rfl, rfl⟩ := Location.mk.inj h
              exact (@ih (b :: top) hbefore).concat rfl
      | down b =>
          obtain ⟨rfl, hnames⟩ := Location.mk.inj h
          cases top with
          | nil =>
              -- the directory is entered with the last move
              obtain ⟨rfl, rfl⟩ := List.cons.inj hnames
              exact ⟨moves, [], rfl, levelFrom_of_resolve hbefore, rfl⟩
          | cons c top =>
              obtain ⟨rfl, rfl⟩ := List.cons.inj hnames
              exact (ih hbefore).concat rfl

/-- **Below a directory at the start**: it is entered on level 0 and not left again. -/
theorem resolve_below_iff :
    (resolve moves).Below ⟨0, [a]⟩ ↔ ∃ n, Entered a moves (n + 1) := by
  constructor
  · rintro ⟨hups, top, hne, hnames⟩
    have hplace : resolve moves = ⟨0, top ++ [a]⟩ := by
      rw [← hnames, ← show (resolve moves).ups = 0 from hups]
    obtain ⟨b, top, rfl⟩ := List.exists_cons_of_ne_nil hne
    exact ⟨top.length, entered_of_resolve hplace⟩
  · rintro ⟨n, front, back, rfl, hfront, hback⟩
    obtain ⟨none, hnone, hstart⟩ := foldl_move 0 [] [] hfront
    obtain rfl := List.eq_nil_of_length_eq_zero hnone
    obtain ⟨top, htop, hend⟩ := foldl_move 0 [] [a] hback
    have hplace : resolve (front ++ .down a :: back) = ⟨0, top ++ [a]⟩ := by
      rw [resolve, List.foldl_append, Location.start]
      exact (congrArg (fun p => (Move.down a :: back).foldl Location.move p) hstart).trans hend
    rw [hplace]
    exact ⟨rfl, top, List.ne_nil_of_length_eq_add_one htop, rfl⟩

end Locations

/-! ### Texts -/

def slash : UInt8 := 0x2F

/-- What a component does. -/
def moveOf (component : Bytes) : Move Bytes :=
  if component = [] ∨ component = [0x2E] then .stay
  else if component = [0x2E, 0x2E] then .up
  else .down component

def movesOf (path : Bytes) : List (Move Bytes) := (path.splitOn slash).map moveOf

theorem movesOf_cons {component : Bytes} (h : slash ∉ component) (rest : Bytes) :
    movesOf (component ++ slash :: rest) = moveOf component :: movesOf rest := by
  rw [movesOf, List.splitOn_append_cons_self_of_not_mem h]
  rfl

example : resolve (movesOf [0x61, slash, slash, 0x2E, 0x2E, slash, 0x2E, 0x2E, slash, 0x62]) =
    ⟨1, [[0x62]]⟩ := by decide

end NjuOs.Lib
