import Mathlib.Data.List.Basic

/-!
Last-write-wins tables.

A history is a list of raw key/value pairs, oldest first; raw keys are compared
through `key`. `lastWrite` is the meaning of a history: the value of the last
pair whose key is `k`. `upsert` is the table operation that implements it
(overwrite the first entry with the key, append when there is none) and
`firstOf` the table lookup; `firstOf_foldl_upsert` says that inserting a whole
history and then looking up is `lastWrite`.
-/

namespace NjuOs.Lib

variable {R K V : Type} [DecidableEq K] (key : R → K)

/-- The value of the last pair of the history with key `k`. -/
def lastWrite : List (R × V) → K → Option V
  | [], _ => none
  | r :: rs, k => (lastWrite rs k).or (if key r.1 = k then some r.2 else none)

/-- Overwrite the first entry with the key of `a`, or append a new entry. -/
def upsert (a : R) (v : V) : List (R × V) → List (R × V)
  | [] => [(a, v)]
  | e :: es => if key e.1 = key a then (e.1, v) :: es else e :: upsert a v es

/-- The value of the first entry with key `k`. -/
def firstOf : List (R × V) → K → Option V
  | [], _ => none
  | e :: es, k => if key e.1 = k then some e.2 else firstOf es k

@[simp] theorem lastWrite_nil (k : K) : lastWrite key ([] : List (R × V)) k = none := rfl

theorem lastWrite_append (xs ys : List (R × V)) (k : K) :
    lastWrite key (xs ++ ys) k = (lastWrite key ys k).or (lastWrite key xs k) := by
  induction xs with
  | nil => simp
  | cons x xs ih => simp [lastWrite, ih, Option.or_assoc]

theorem lastWrite_snoc (xs : List (R × V)) (r : R × V) (k : K) :
    lastWrite key (xs ++ [r]) k = if key r.1 = k then some r.2 else lastWrite key xs k := by
  rw [lastWrite_append]
  by_cases h : key r.1 = k <;> simp [lastWrite, h]

/-- A key is unbound exactly when no pair of the history has it. -/
theorem lastWrite_eq_none_iff {rs : List (R × V)} {k : K} :
    lastWrite key rs k = none ↔ ∀ r ∈ rs, key r.1 ≠ k := by
  induction rs with
  | nil => simp
  | cons r rs ih =>
      by_cases h : key r.1 = k <;> simp [lastWrite, ih, h]

theorem lastWrite_mem {rs : List (R × V)} {k : K} {v : V} (h : lastWrite key rs k = some v) :
    ∃ r ∈ rs, key r.1 = k ∧ r.2 = v := by
  induction rs with
  | nil => simp at h
  | cons r rs ih =>
      cases hrs : lastWrite key rs k with
      | some w =>
          rw [lastWrite, hrs, Option.some_or] at h
          obtain ⟨r', hr', hk⟩ := ih (hrs.trans h)
          exact ⟨r', List.mem_cons_of_mem _ hr', hk⟩
      | none =>
          rw [lastWrite, hrs, Option.none_or] at h
          by_cases hk : key r.1 = k
          · rw [if_pos hk] at h
            exact ⟨r, List.mem_cons_self, hk, Option.some.inj h⟩
          · rw [if_neg hk] at h
            cases h

theorem firstOf_upsert (a : R) (v : V) (es : List (R × V)) (k : K) :
    firstOf key (upsert key a v es) k = if key a = k then some v else firstOf key es k := by
  induction es with
  | nil => simp [upsert, firstOf]
  | cons e es ih =>
      by_cases he : key e.1 = key a
      · by_cases hk : key a = k <;> simp [upsert, firstOf, he, hk]
      · by_cases hk : key a = k
        · have : key e.1 ≠ k := fun h => he (h.trans hk.symm)
          simp [upsert, firstOf, hk, ih, this]
        · simp [upsert, firstOf, he, hk, ih]

/-- Inserting a history into a table and looking up gives the last write of the
history, and the old entry when the history does not touch the key. -/
theorem firstOf_foldl_upsert (rs es : List (R × V)) (k : K) :
    firstOf key (rs.foldl (fun es r => upsert key r.1 r.2 es) es) k =
      (lastWrite key rs k).or (firstOf key es k) := by
  induction rs generalizing es with
  | nil => simp
  | cons r rs ih =>
      rw [List.foldl_cons, ih, firstOf_upsert, lastWrite, Option.or_assoc]
      by_cases hk : key r.1 = k <;> simp [hk]

end NjuOs.Lib
