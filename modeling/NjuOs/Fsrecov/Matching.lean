import NjuOs.Fsrecov.Bookkeeping
import NjuOs.Lib.Greedy

/-!
Which prefix is merged with which suffix.

A suffix is cleared when it is merged, so it is merged once, with the first
prefix that its checksum admits, and never analysed again. A prefix is not
marked, and the inner loop goes on behind a match: the groups are one to one
exactly when no prefix is the first one of two suffixes (`one_to_one_iff`).
-/

namespace NjuOs.Fsrecov

open NjuOs.Lib

/-! ### The groups -/

section Groups

variable (d : Disk) (pending : Pending)

/-- Prefix `i` and suffix `j` are there, and the checksum admits the pair. -/
def admits (pair : Nat × Nat) : Bool :=
  match pending.prefixes[pair.1]?, pending.suffixes[pair.2]? with
  | some ⟨some first, _⟩, some ⟨some second, _⟩ => entriesCompatible d first second
  | _, _ => false

/-- The pairs in the order of the two loops. -/
def allPairs : List (Nat × Nat) :=
  (List.range pending.prefixes.length).flatMap fun i =>
    (List.range pending.suffixes.length).map fun j => (i, j)

/-- The pairs that the two loops merge. -/
def mergesOf : Pending → List (Nat × Nat) → List (Nat × Nat)
  | _, [] => []
  | pending, pair :: pairs =>
      if admits d pending pair then
        pair :: mergesOf (pending.apply (.clearSuffix pair.2)) pairs
      else mergesOf pending pairs

def merges : List (Nat × Nat) := mergesOf d pending (allPairs pending)

/-- `pending` behind the two loops. -/
def afterMerges : Pending :=
  (resolvePairs d pending (allPairs pending)).foldl Pending.apply pending

/-- The suffixes that the last loop takes. -/
def alone : List Nat :=
  (List.range (afterMerges d pending).suffixes.length).filter fun j =>
    ((afterMerges d pending).suffixes[j]?).any fun s => s.entryPtr ≠ none ∧ s.entryCount = 1

/-- What is done for a pair. -/
def mergeEvents (pair : Nat × Nat) : List Event :=
  match pending.prefixes[pair.1]?, pending.suffixes[pair.2]? with
  | some first, some second => [.analyze [first, second], .clearSuffix pair.2]
  | _, _ => []

/-- What is done for a suffix that is left. -/
def aloneEvents (j : Nat) : List Event :=
  (pending.suffixes[j]?).toList.map fun s => .analyze [s]

/-- Suffix `j` is one short entry that is in no group. -/
def Unmatched (j : Nat) : Prop :=
  ((pending.suffixes[j]?).any fun s => s.entryPtr ≠ none ∧ s.entryCount = 1) = true ∧
    j ∉ (merges d pending).map Prod.snd

instance (j : Nat) : Decidable (Unmatched d pending j) := inferInstanceAs (Decidable (_ ∧ _))

/-- The pieces are matched one to one: what `resolve_pending_entries` does are the
groups and the short entries that are left, and no piece is in two of them. -/
structure OneToOne : Prop where
  events : resolvePendingEntries d pending =
    (merges d pending).flatMap (mergeEvents pending) ++
      (alone d pending).flatMap (aloneEvents pending)
  prefixes : ((merges d pending).map Prod.fst).Nodup
  suffixes : ((merges d pending).map Prod.snd).Nodup
  alone : ∀ j, (alone d pending).count j = if Unmatched d pending j then 1 else 0

/-- The first prefix that the checksum admits for a suffix. -/
def firstPrefix (j : Nat) : Option Nat :=
  (List.range pending.prefixes.length).find? fun i => admits d pending (i, j)

end Groups

/-! ### The two loops -/

section Loops

variable {d : Disk} {pending : Pending}

theorem resolvePair_eq (i j : Nat) :
    resolvePair d pending i j =
      if admits d pending (i, j) then mergeEvents pending (i, j) else [] := by
  rw [resolvePair, admits, mergeEvents]
  cases pending.prefixes[i]? with
  | none => rfl
  | some first =>
      obtain ⟨firstPtr, prefixLen⟩ := first
      cases pending.suffixes[j]? with
      | none => cases firstPtr <;> rfl
      | some second =>
          obtain ⟨secondPtr, suffixLen⟩ := second
          cases firstPtr <;> cases secondPtr <;> rfl

theorem clear_suffixes (j k : Nat) :
    (pending.apply (.clearSuffix j)).suffixes[k]? =
      (pending.suffixes[k]?).map fun s => if j = k then { s with entryPtr := none } else s := by
  rw [Pending.apply, List.getElem?_modify]
  split <;> rfl

/-- A suffix that is merged is admitted by no prefix any more. -/
theorem admits_clear (j : Nat) (pair : Nat × Nat) :
    admits d (pending.apply (.clearSuffix j)) pair = (admits d pending pair && pair.2 ≠ j) := by
  have hprefixes : (pending.apply (.clearSuffix j)).prefixes = pending.prefixes := rfl
  rw [admits, admits, clear_suffixes, hprefixes]
  cases pending.prefixes[pair.1]? with
  | none => simp
  | some first =>
      cases pending.suffixes[pair.2]? with
      | none => simp
      | some second =>
          by_cases hj : j = pair.2
          · simp [hj]
          · rw [Option.map_some, if_neg hj]
            simp [Ne.symm hj]

theorem mergeEvents_clear {j : Nat} {pair : Nat × Nat} (h : pair.2 ≠ j) :
    mergeEvents (pending.apply (.clearSuffix j)) pair = mergeEvents pending pair := by
  rw [mergeEvents, mergeEvents, clear_suffixes]
  simp [Ne.symm h, Pending.apply]

theorem foldl_mergeEvents {pair : Nat × Nat} (h : admits d pending pair = true) :
    (mergeEvents pending pair).foldl Pending.apply pending =
      pending.apply (.clearSuffix pair.2) := by
  rw [admits] at h
  rw [mergeEvents]
  split at h
  case h_1 hpre hsuffix => simp [hpre, hsuffix, Pending.apply]
  case h_2 => cases h

/-- The loops take the first pair of every suffix that is admitted. -/
theorem mergesOf_eq (pairs : List (Nat × Nat)) :
    mergesOf d pending pairs = firsts (admits d pending) Prod.snd pairs := by
  induction pairs generalizing pending with
  | nil => rfl
  | cons pair pairs ih =>
      rw [mergesOf, firsts, ih, ih]
      simp only [funext fun b => @admits_clear d pending pair.2 b]

theorem resolvePairs_eq (pairs : List (Nat × Nat)) :
    resolvePairs d pending pairs = (mergesOf d pending pairs).flatMap (mergeEvents pending) := by
  induction pairs generalizing pending with
  | nil => rfl
  | cons pair pairs ih =>
      rw [resolvePairs, resolvePair_eq, mergesOf]
      by_cases hadmits : admits d pending pair = true
      · rw [if_pos hadmits, if_pos hadmits, foldl_mergeEvents hadmits, ih, List.flatMap_cons]
        congr 1
        -- the other groups have other suffixes
        apply List.flatMap_congr
        intro other hother
        apply mergeEvents_clear
        rw [mergesOf_eq, mem_firsts] at hother
        have hfound := List.find?_some hother
        rw [admits_clear] at hfound
        simp at hfound
        exact hfound.2
      · rw [if_neg hadmits, if_neg hadmits]
        exact ih

/-- What the loops leave of a suffix. -/
theorem suffixes_resolvePairs (j : Nat) (pairs : List (Nat × Nat)) :
    ((resolvePairs d pending pairs).foldl Pending.apply pending).suffixes[j]? =
      (pending.suffixes[j]?).map fun s =>
        if j ∈ (mergesOf d pending pairs).map Prod.snd then { s with entryPtr := none } else s := by
  induction pairs generalizing pending with
  | nil => simp [resolvePairs, mergesOf]
  | cons pair pairs ih =>
      rw [resolvePairs, resolvePair_eq, mergesOf, List.foldl_append]
      by_cases hadmits : admits d pending pair = true
      · rw [if_pos hadmits, if_pos hadmits, foldl_mergeEvents hadmits, ih, clear_suffixes,
          Option.map_map]
        congr 1
        funext s
        by_cases hhere : j = pair.2
        · simp [hhere]
        · simp only [Function.comp, List.map_cons, List.mem_cons, hhere, false_or,
            if_neg (Ne.symm hhere)]
      · rw [if_neg hadmits, if_neg hadmits]
        exact ih

theorem length_suffixes_resolvePairs (pairs : List (Nat × Nat)) :
    ((resolvePairs d pending pairs).foldl Pending.apply pending).suffixes.length =
      pending.suffixes.length := by
  rw [length_foldl (fun pending => pending.suffixes.length) Pending.suffixes_apply,
    Nat.add_eq_left, List.countP_eq_zero]
  intro event hevent
  simp [(resolvePairs_stores d pairs pending event hevent).1]

end Loops

/-! ### The suffixes that are left -/

section Left

variable {d : Disk} {pending : Pending}

theorem mem_alone {j : Nat} : j ∈ alone d pending ↔ Unmatched d pending j := by
  have hsuffix := @suffixes_resolvePairs d pending j (allPairs pending)
  rw [alone, List.mem_filter, List.mem_range, afterMerges, length_suffixes_resolvePairs, hsuffix,
    Unmatched, merges]
  cases hj : pending.suffixes[j]? with
  | none => simp
  | some s =>
      have hlt : j < pending.suffixes.length := (List.getElem?_eq_some_iff.mp hj).1
      by_cases hmerged : j ∈ (mergesOf d pending (allPairs pending)).map Prod.snd
      · simp only [hmerged, if_true]
        simp
      · simp only [hmerged, if_false]
        simp [hlt]

theorem nodup_alone : (alone d pending).Nodup := List.nodup_range.filter _

/-- A list as its elements one by one. -/
theorem flatMap_range_getElem? {α : Type} (as : List α) :
    ((List.range as.length).flatMap fun i => (as[i]?).toList) = as := by
  induction as with
  | nil => rfl
  | cons a as ih =>
      rw [List.length_cons, List.range_succ_eq_map, List.flatMap_cons, List.flatMap_map]
      simpa using ih

theorem flatMap_filter {α β : Type} (p : α → Bool) (f : α → List β) (as : List α) :
    (as.filter p).flatMap f = as.flatMap fun a => if p a then f a else [] := by
  induction as with
  | nil => rfl
  | cons a as ih =>
      rw [List.filter_cons, List.flatMap_cons]
      split
      case isTrue => rw [List.flatMap_cons, ih]
      case isFalse => exact ih

theorem resolveUnmatched_eq :
    resolveUnmatched (afterMerges d pending) =
      (alone d pending).flatMap (aloneEvents pending) := by
  rw [resolveUnmatched, ← flatMap_range_getElem? (afterMerges d pending).suffixes,
    List.flatMap_assoc, alone, flatMap_filter]
  apply List.flatMap_congr
  intro j _
  have hsuffix := @suffixes_resolvePairs d pending j (allPairs pending)
  rw [afterMerges, hsuffix, aloneEvents]
  cases pending.suffixes[j]? with
  | none => rfl
  | some s =>
      by_cases hmerged : j ∈ (mergesOf d pending (allPairs pending)).map Prod.snd
      · simp [hmerged]
      · simp [hmerged]

theorem resolvePendingEntries_eq :
    resolvePendingEntries d pending =
      (merges d pending).flatMap (mergeEvents pending) ++
        (alone d pending).flatMap (aloneEvents pending) := by
  rw [← resolveUnmatched_eq, merges, ← resolvePairs_eq]
  rfl

end Left

/-! ### First prefixes -/

section FirstPrefix

variable {d : Disk} {pending : Pending}

/-- The first pair of `j` that passes a test. -/
theorem find?_pairs {p : Nat × Nat → Bool} {js : List Nat} {j : Nat}
    (hj : ∀ i, p (i, j) = true → j ∈ js) (is : List Nat) :
    ((is.flatMap fun i => js.map fun k => (i, k)).find? fun pair => p pair && pair.2 = j) =
      (is.find? fun i => p (i, j)).map fun i => (i, j) := by
  have hrow : ∀ i, ((js.map fun k => (i, k)).find? fun pair => p pair && pair.2 = j) =
      if p (i, j) then some (i, j) else none := by
    intro i
    cases hfound : (js.map fun k => (i, k)).find? fun pair => p pair && pair.2 = j with
    | none =>
        rw [List.find?_eq_none] at hfound
        rw [if_neg]
        intro hp
        exact hfound (i, j) (List.mem_map.mpr ⟨j, hj i hp, rfl⟩) (by simp [hp])
    | some pair =>
        obtain ⟨k, -, rfl⟩ := List.mem_map.mp (List.mem_of_find?_eq_some hfound)
        have hpass := List.find?_some hfound
        simp at hpass
        obtain ⟨hp, rfl⟩ := hpass
        rw [if_pos hp]
  induction is with
  | nil => rfl
  | cons i is ih =>
      rw [List.flatMap_cons, List.find?_append, hrow, ih]
      by_cases hp : p (i, j) = true
      · simp [hp]
      · simp [hp]

/-- **A suffix is merged with its first prefix.** -/
theorem mem_merges {i j : Nat} : (i, j) ∈ merges d pending ↔ firstPrefix d pending j = some i := by
  have hadmits : ∀ i, admits d pending (i, j) = true →
      j ∈ List.range pending.suffixes.length := by
    intro i h
    rw [List.mem_range]
    by_contra hlen
    rw [admits, List.getElem?_eq_none (Nat.not_lt.mp hlen)] at h
    cases hpre : pending.prefixes[i]? <;> simp [hpre] at h
  rw [merges, mergesOf_eq, mem_firsts, allPairs, find?_pairs hadmits, firstPrefix,
    Option.map_eq_some_iff]
  simp

theorem nodup_suffixes_merges : ((merges d pending).map Prod.snd).Nodup := by
  rw [merges, mergesOf_eq]
  exact nodup_keys_firsts _

theorem nodup_prefixes_merges_iff :
    ((merges d pending).map Prod.fst).Nodup ↔
      ∀ i j k, firstPrefix d pending j = some i → firstPrefix d pending k = some i → j = k := by
  rw [List.nodup_map_iff_inj_on (nodup_suffixes_merges.of_map Prod.snd)]
  constructor
  · intro h i j k hj hk
    exact (Prod.mk.inj (h _ (mem_merges.mpr hj) _ (mem_merges.mpr hk) rfl)).2
  · rintro h ⟨i, j⟩ hj ⟨i', k⟩ hk rfl
    rw [h i j k (mem_merges.mp hj) (mem_merges.mp hk)]

/-- **The pieces are matched one to one** exactly when no prefix is the first one
of two suffixes. -/
theorem one_to_one_iff (d : Disk) (pending : Pending) :
    OneToOne d pending ↔
      ∀ i j k, firstPrefix d pending j = some i → firstPrefix d pending k = some i → j = k := by
  rw [← nodup_prefixes_merges_iff]
  constructor
  · exact OneToOne.prefixes
  · intro hprefixes
    refine ⟨resolvePendingEntries_eq, hprefixes, nodup_suffixes_merges, fun j => ?_⟩
    rw [List.Nodup.count nodup_alone]
    simp only [mem_alone]

end FirstPrefix

/-- Three clusters: a long entry that is the last one of its name, and two short
entries of the same name. -/
def sameNameDisk : Disk :=
  smallDisk 6 fun p =>
    if p = 0 then 0x41 else if p = 11 then 0x0F else if p = 13 then 0x50
    else if p = 512 ∨ p = 1024 then 65 else if p = 538 ∨ p = 1050 then 2 else 0

/-- Both are merged with the one long entry. -/
theorem merged_twice :
    LoadDiskImage sameNameDisk ∧
      ¬ OneToOne sameNameDisk (pendingAfter (scanClusters sameNameDisk)) := by
  have hscan : scanClusters sameNameDisk =
      [.storePrefix ⟨some 1536, 1⟩, .storeSuffix ⟨some 2048, 1⟩, .storeSuffix ⟨some 2560, 1⟩] := by
    decide +kernel
  refine ⟨⟨by decide, by decide, by decide⟩, fun h => ?_⟩
  have hprefixes := nodup_prefixes_merges_iff.mp h.prefixes 0 0 1
  rw [hscan] at hprefixes
  exact absurd (hprefixes (by decide) (by decide)) Nat.zero_ne_one

end NjuOs.Fsrecov
