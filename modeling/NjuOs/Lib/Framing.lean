import Mathlib.Data.List.Basic
import Mathlib.Data.List.Flatten
import Mathlib.Data.List.TakeDrop

/-!
Framed byte streams.

A `Framing` is an encoder of frames and a parser of the front of a stream,
which may find a whole frame, a torn one, or fault. `safe f n` says that the
parser survives the first `n` units of frame `f`; the laws tie it to the
encoder. `decode` parses a whole stream and stops at the first torn frame.

* `decode_sound`: what is decoded is a prefix of the stream, and the parser finds
  nothing more behind it.
* `decode_encodeAll_append`: frames in front of a stream are read back.
* `decode_take`: a stream cut anywhere decodes to the frames that lie wholly
  before the cut (`wholeFrames`), and faults exactly when the cut leaves an
  unsafe part of some frame in sight.
-/

namespace NjuOs.Lib

/-- What the parser finds at the front of a stream. -/
inductive Front (B F : Type) where
  | torn
  | bad
  | frame (f : F) (rest : List B)
deriving DecidableEq

structure Framing (B F : Type) where
  encode : F → List B
  front : List B → Front B F
  safe : F → Nat → Prop
  decSafe : ∀ f n, Decidable (safe f n)
  encode_pos : ∀ f, 0 < (encode f).length
  front_sound : ∀ {bs f rest}, front bs = .frame f rest → bs = encode f ++ rest
  front_append : ∀ f rest,
    front (encode f ++ rest) = if safe f (encode f).length then .frame f rest else .bad
  front_take : ∀ f n, n < (encode f).length →
    front ((encode f).take n) = if safe f n then .torn else .bad

namespace Framing

variable {B F : Type} (fr : Framing B F)

instance (f : F) (n : Nat) : Decidable (fr.safe f n) := fr.decSafe f n

theorem front_rest_lt {bs rest : List B} {f : F} (h : fr.front bs = .frame f rest) :
    rest.length < bs.length := by
  have hpos := fr.encode_pos f
  rw [fr.front_sound h, List.length_append]
  omega

/-- All frames of a stream up to the first torn one; `none` when the parser faults. -/
def decode (bs : List B) : Option (List F) :=
  match _h : fr.front bs with
  | .torn => some []
  | .bad => none
  | .frame f rest => (decode rest).map (f :: ·)
termination_by bs.length
decreasing_by exact fr.front_rest_lt _h

/-- The image of a list of frames. -/
def encodeAll (fs : List F) : List B := fs.flatMap fr.encode

@[simp] theorem encodeAll_nil : fr.encodeAll [] = [] := rfl

@[simp] theorem encodeAll_cons (f : F) (fs : List F) :
    fr.encodeAll (f :: fs) = fr.encode f ++ fr.encodeAll fs := rfl

@[simp] theorem encodeAll_append (fs gs : List F) :
    fr.encodeAll (fs ++ gs) = fr.encodeAll fs ++ fr.encodeAll gs := List.flatMap_append

theorem decode_of_torn {bs : List B} (h : fr.front bs = .torn) : fr.decode bs = some [] := by
  rw [decode]
  split
  · rfl
  · rename_i h'; rw [h] at h'; cases h'
  · rename_i h'; rw [h] at h'; cases h'

theorem decode_of_bad {bs : List B} (h : fr.front bs = .bad) : fr.decode bs = none := by
  rw [decode]
  split
  · rename_i h'; rw [h] at h'; cases h'
  · rfl
  · rename_i h'; rw [h] at h'; cases h'

theorem decode_of_frame {bs rest : List B} {f : F} (h : fr.front bs = .frame f rest) :
    fr.decode bs = (fr.decode rest).map (f :: ·) := by
  rw [decode]
  split
  · rename_i h'; rw [h] at h'; cases h'
  · rename_i h'; rw [h] at h'; cases h'
  · rename_i f' rest' h'
    rw [h] at h'
    cases h'
    rfl

theorem decode_sound (bs : List B) :
    ∀ fs, fr.decode bs = some fs →
      ∃ tail, bs = fr.encodeAll fs ++ tail ∧ fr.front tail = .torn := by
  induction bs using decode.induct fr with
  | case1 bs h =>
      intro fs hfs
      rw [fr.decode_of_torn h] at hfs
      cases hfs
      exact ⟨bs, rfl, h⟩
  | case2 bs h =>
      intro fs hfs
      rw [fr.decode_of_bad h] at hfs
      cases hfs
  | case3 bs f rest h ih =>
      intro fs hfs
      rw [fr.decode_of_frame h] at hfs
      obtain ⟨gs, hgs, rfl⟩ := Option.map_eq_some_iff.mp hfs
      obtain ⟨tail, htail, htorn⟩ := ih gs hgs
      refine ⟨tail, ?_, htorn⟩
      rw [encodeAll_cons, List.append_assoc, ← htail]
      exact fr.front_sound h

/-- A whole frame at the front is read back, unless the parser faults on it. -/
theorem decode_encode_append (f : F) (rest : List B) :
    fr.decode (fr.encode f ++ rest) =
      if fr.safe f (fr.encode f).length then (fr.decode rest).map (f :: ·) else none := by
  by_cases h : fr.safe f (fr.encode f).length
  · rw [if_pos h]
    exact fr.decode_of_frame (by rw [fr.front_append, if_pos h])
  · rw [if_neg h]
    exact fr.decode_of_bad (by rw [fr.front_append, if_neg h])

/-- Frames in front of a stream are read back, in order. -/
theorem decode_encodeAll_append {fs : List F} (hs : ∀ f ∈ fs, fr.safe f (fr.encode f).length)
    (rest : List B) : fr.decode (fr.encodeAll fs ++ rest) = (fr.decode rest).map (fs ++ ·) := by
  induction fs with
  | nil => simp
  | cons f fs ih =>
      rw [encodeAll_cons, List.append_assoc, decode_encode_append,
        if_pos (hs f List.mem_cons_self), ih fun g hg => hs g (List.mem_cons_of_mem _ hg),
        Option.map_map]
      rfl

/-- One frame the parser faults on makes the whole stream fault. -/
theorem decode_encodeAll_bad {fs : List F} {f : F} (hf : f ∈ fs)
    (hbad : ¬ fr.safe f (fr.encode f).length) (rest : List B) :
    fr.decode (fr.encodeAll fs ++ rest) = none := by
  induction fs with
  | nil => cases hf
  | cons g gs ih =>
      rw [encodeAll_cons, List.append_assoc, decode_encode_append]
      rcases List.mem_cons.mp hf with rfl | hf
      · rw [if_neg hbad]
      · split
        · rw [ih hf, Option.map_none]
        · rfl

theorem length_encode_le {f : F} {fs : List F} (hf : f ∈ fs) :
    (fr.encode f).length ≤ (fr.encodeAll fs).length := by
  obtain ⟨pre, post, rfl⟩ := List.append_of_mem hf
  rw [encodeAll_append, encodeAll_cons, List.length_append, List.length_append]
  omega

/-- A torn end is shorter than any frame that is read in its place once more
units follow it. -/
theorem torn_length_lt {tail more rest : List B} {f : F} (htorn : fr.front tail = .torn)
    (h : tail ++ more = fr.encode f ++ rest) : tail.length < (fr.encode f).length := by
  by_contra hle
  have hpre : fr.encode f <+: tail :=
    List.prefix_of_prefix_length_le ⟨rest, h.symm⟩ ⟨more, rfl⟩ (Nat.le_of_not_lt hle)
  obtain ⟨mid, rfl⟩ := hpre
  rw [fr.front_append] at htorn
  split at htorn <;> cases htorn

/-! ### Frames inside a stream -/

/-- The images of the frames lie in the stream, in order and side by side. -/
def Occur (fs : List F) (bs : List B) : Prop :=
  ∃ pieces : List (List B), pieces.flatten = bs ∧ (fs.map fr.encode).Sublist pieces

theorem occur_nil (bs : List B) : fr.Occur [] bs :=
  ⟨[bs], List.flatten_singleton, List.nil_sublist _⟩

theorem occur_singleton (f : F) : fr.Occur [f] (fr.encode f) :=
  ⟨[fr.encode f], List.flatten_singleton, List.Sublist.refl _⟩

variable {fr}

theorem Occur.append {fs gs : List F} {bs cs : List B} (h : fr.Occur fs bs)
    (h' : fr.Occur gs cs) : fr.Occur (fs ++ gs) (bs ++ cs) := by
  obtain ⟨ps, rfl, hps⟩ := h
  obtain ⟨qs, rfl, hqs⟩ := h'
  exact ⟨ps ++ qs, List.flatten_append, by rw [List.map_append]; exact hps.append hqs⟩

theorem Occur.append_right {fs : List F} {bs : List B} (h : fr.Occur fs bs) (cs : List B) :
    fr.Occur fs (bs ++ cs) := by
  have := h.append (fr.occur_nil cs)
  rwa [List.append_nil] at this

theorem Occur.length_le {fs : List F} {bs : List B} (h : fr.Occur fs bs) :
    (fr.encodeAll fs).length ≤ bs.length := by
  obtain ⟨pieces, rfl, hsub⟩ := h
  rw [encodeAll, List.flatMap_def]
  exact hsub.flatten.length_le

variable (fr)

/-! ### Cut streams -/

/-- The frames that lie wholly inside the first `n` units. -/
def wholeFrames : Nat → List F → List F
  | _, [] => []
  | n, f :: fs =>
      if (fr.encode f).length ≤ n then f :: wholeFrames (n - (fr.encode f).length) fs else []

/-- The first `n` units contain no part of a frame that the parser faults on. -/
def SafeWithin : Nat → List F → Prop
  | _, [] => True
  | n, f :: fs =>
      if (fr.encode f).length ≤ n then
        fr.safe f (fr.encode f).length ∧ SafeWithin (n - (fr.encode f).length) fs
      else fr.safe f n

instance decSafeWithin : (n : Nat) → (fs : List F) → Decidable (fr.SafeWithin n fs)
  | _, [] => inferInstanceAs (Decidable True)
  | n, f :: fs =>
      have := decSafeWithin (n - (fr.encode f).length) fs
      inferInstanceAs (Decidable (if (fr.encode f).length ≤ n then
        fr.safe f (fr.encode f).length ∧ fr.SafeWithin (n - (fr.encode f).length) fs
        else fr.safe f n))

/-- A cut stream decodes to the frames wholly before the cut. -/
theorem decode_take (hnil : fr.front [] = .torn) (n : Nat) (fs : List F) :
    fr.decode ((fr.encodeAll fs).take n) =
      if fr.SafeWithin n fs then some (fr.wholeFrames n fs) else none := by
  induction fs generalizing n with
  | nil => simpa [SafeWithin, wholeFrames] using fr.decode_of_torn hnil
  | cons f fs ih =>
      rw [encodeAll_cons, List.take_append]
      by_cases hn : (fr.encode f).length ≤ n
      · rw [List.take_of_length_le hn, decode_encode_append, ih]
        by_cases hs : fr.safe f (fr.encode f).length
        · by_cases hr : fr.SafeWithin (n - (fr.encode f).length) fs <;>
            simp [SafeWithin, wholeFrames, hn, hs, hr]
        · simp [SafeWithin, hn, hs]
      · have hlt : n < (fr.encode f).length := Nat.lt_of_not_le hn
        have hcut := fr.front_take f n hlt
        rw [Nat.sub_eq_zero_of_le (Nat.le_of_lt hlt), List.take_zero, List.append_nil]
        by_cases hs : fr.safe f n
        · rw [fr.decode_of_torn (by rw [hcut, if_pos hs])]
          simp [SafeWithin, wholeFrames, hn, hs]
        · rw [fr.decode_of_bad (by rw [hcut, if_neg hs])]
          simp [SafeWithin, hn, hs]

end Framing

end NjuOs.Lib
