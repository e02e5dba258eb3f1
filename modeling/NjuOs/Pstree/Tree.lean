import NjuOs.Pstree.Basic
import Mathlib.Data.List.Sort

/-!
The tree that `pstree` prints.

`Parent` says under which process a process belongs: the one its ppid names, or
init when there is none. `mem_buildTree` and `buildTree_sorted` are what
`build_tree` leaves in the lists: the children of a process, in the order of
their pids. In that graph init is a root (`buildTree_rooted`), whatever circles
the parents run in elsewhere, and so `print_tree_complete`: the printed lines
are the processes whose parents lead to init. `print_tree_order_independent`
compares two orders of the same records through the map from one to the other
(`buildTree_map_moved`).
-/

namespace NjuOs.Pstree

open NjuOs.Lib

/-! ### The parent of a process -/

/-- Process `p` of the table is the one that `c` is listed under. -/
def ListedUnder (array : List Proc) (c p : Proc) : Prop :=
  c.pid ≠ 1 ∧ (p.pid = c.ppid ∨ (∀ q ∈ array, q.pid ≠ c.ppid) ∧ p.pid = 1)

/-- `j` is the parent of `i`; a missing parent counts as init. -/
def Parent (array : List Proc) (i j : Nat) : Prop :=
  i < array.length ∧ j < array.length ∧ ListedUnder array (procAt array i) (procAt array j)

/-- The chain of parents from `i` reaches pid 1 after `n` steps. -/
inductive Chain (array : List Proc) : Nat → Nat → Prop where
  | init {i : Nat} (hi : i < array.length) (hpid : (procAt array i).pid = 1) : Chain array i 0
  | parent {i j n : Nat} (hparent : Parent array i j) (h : Chain array j n) : Chain array i (n + 1)

/-- A table of processes with distinct pids, one of them init. -/
structure Table (array : List Proc) : Prop where
  distinct : (array.map Proc.pid).Nodup
  init : ∃ p ∈ array, p.pid = 1

section Lookup

variable {array : List Proc} {i j : Nat} {pid : Int}

theorem procAt_of_lt (h : i < array.length) : procAt array i = array[i] := by
  simp [procAt, h]

theorem procAt_mem (h : i < array.length) : procAt array i ∈ array := by
  rw [procAt_of_lt h]
  exact List.getElem_mem h

theorem Table.pid_injective (h : Table array) (hi : i < array.length) (hj : j < array.length)
    (heq : (procAt array i).pid = (procAt array j).pid) : i = j := by
  have hpids : (array.map Proc.pid)[i]? = (array.map Proc.pid)[j]? := by
    simpa [procAt_of_lt hi, procAt_of_lt hj, hi, hj] using heq
  exact (List.getElem?_inj (by simpa using hi) h.distinct).mp hpids

theorem pIndex_eq_some (h : Table array) :
    pIndex array pid = some i ↔ i < array.length ∧ (procAt array i).pid = pid := by
  rw [pIndex, List.findIdx?_eq_some_iff_getElem]
  constructor
  · rintro ⟨hi, hpid, -⟩
    exact ⟨hi, by simpa [procAt_of_lt hi] using hpid⟩
  · rintro ⟨hi, hpid⟩
    refine ⟨hi, by simpa [procAt_of_lt hi] using hpid, fun k hk hpid' => ?_⟩
    have hk' := Nat.lt_trans hk hi
    have := h.pid_injective hk' hi (by simpa [procAt_of_lt hk', hpid] using hpid')
    omega

theorem pIndex_eq_none : pIndex array pid = none ↔ ∀ p ∈ array, p.pid ≠ pid := by
  simp [pIndex]

/-- The process under which `build_tree` puts `i`. -/
def parentIndex (array : List Proc) (i : Nat) : Option Nat :=
  if (procAt array i).pid = 1 then none
  else (pIndex array (procAt array i).ppid).or (pIndex array 1)

theorem parentIndex_eq_some (h : Table array) (hi : i < array.length) :
    parentIndex array i = some j ↔ Parent array i j := by
  simp only [parentIndex, Parent, ListedUnder, hi, true_and]
  split
  case isTrue hpid => simp [hpid]
  case isFalse hpid =>
    rw [Option.or_eq_some_iff, pIndex_eq_some h, pIndex_eq_none, pIndex_eq_some h]
    constructor
    · rintro (⟨hj, heq⟩ | ⟨hnone, hj, heq⟩)
      · exact ⟨hj, hpid, .inl heq⟩
      · exact ⟨hj, hpid, .inr ⟨hnone, heq⟩⟩
    · rintro ⟨hj, -, heq | ⟨hnone, heq⟩⟩
      · exact .inl ⟨hj, heq⟩
      · exact .inr ⟨hnone, hj, heq⟩

end Lookup

/-! ### Lists of children -/

section Insert

variable {pid : Nat → Int} {c : Nat}

theorem insertBehind_perm (rest : List Nat) : (insertBehind pid c rest).Perm (c :: rest) := by
  induction rest with
  | nil => exact .refl _
  | cons next rest ih =>
      rw [insertBehind]
      split
      · exact (ih.cons next).trans (.swap c next rest)
      · exact .refl _

theorem insertChild_perm (children : List Nat) :
    (insertChild pid c children).Perm (c :: children) := by
  cases children with
  | nil => exact .refl _
  | cons first rest =>
      rw [insertChild]
      split
      · exact .refl _
      · exact ((insertBehind_perm rest).cons first).trans (.swap c first rest)

theorem insertBehind_sorted {rest : List Nat}
    (hsorted : rest.Pairwise fun a b => pid a < pid b) (hne : ∀ a ∈ rest, pid c ≠ pid a) :
    (insertBehind pid c rest).Pairwise fun a b => pid a < pid b := by
  induction rest with
  | nil => exact List.pairwise_singleton _ _
  | cons next rest ih =>
      obtain ⟨hnext, hrest⟩ := List.pairwise_cons.mp hsorted
      have hc := hne next List.mem_cons_self
      rw [insertBehind]
      split
      case isTrue hlt =>
        refine List.pairwise_cons.mpr
          ⟨fun a ha => ?_, ih hrest fun a ha => hne a (List.mem_cons_of_mem _ ha)⟩
        rcases List.mem_cons.mp ((insertBehind_perm rest).mem_iff.mp ha) with rfl | ha
        · exact hlt
        · exact hnext a ha
      case isFalse hge =>
        have hlt : pid c < pid next := by omega
        refine List.pairwise_cons.mpr ⟨fun a ha => ?_, hsorted⟩
        rcases List.mem_cons.mp ha with rfl | ha
        · exact hlt
        · exact hlt.trans (hnext a ha)

theorem insertChild_sorted {children : List Nat}
    (hsorted : children.Pairwise fun a b => pid a < pid b) (hne : ∀ a ∈ children, pid c ≠ pid a) :
    (insertChild pid c children).Pairwise fun a b => pid a < pid b := by
  cases children with
  | nil => exact List.pairwise_singleton _ _
  | cons first rest =>
      obtain ⟨hfirst, hrest⟩ := List.pairwise_cons.mp hsorted
      have hc := hne first List.mem_cons_self
      rw [insertChild]
      split
      case isTrue hlt =>
        refine List.pairwise_cons.mpr ⟨fun a ha => ?_, hsorted⟩
        rcases List.mem_cons.mp ha with rfl | ha
        · exact hlt
        · exact hlt.trans (hfirst a ha)
      case isFalse hge =>
        refine List.pairwise_cons.mpr ⟨fun a ha => ?_,
          insertBehind_sorted hrest fun a ha => hne a (List.mem_cons_of_mem _ ha)⟩
        rcases List.mem_cons.mp ((insertBehind_perm rest).mem_iff.mp ha) with rfl | ha
        · omega
        · exact hfirst a ha

end Insert

/-! ### What `build_tree` leaves -/

section Tree

variable {array : List Proc}

theorem buildStep_eq (head : Heads) (i : Nat) :
    buildStep array (pIndex array 1) head i =
      (parentIndex array i).elim head fun p => buildList array head p i := by
  unfold buildStep parentIndex
  split
  · rfl
  · cases pIndex array (procAt array i).ppid with
    | none => cases pIndex array 1 <;> rfl
    | some p => rfl

/-- The lists after `n` passes. -/
def headsAfter (array : List Proc) (n : Nat) : Heads :=
  (List.range n).foldl (buildStep array (pIndex array 1)) fun _ => []

theorem headsAfter_succ (n : Nat) :
    headsAfter array (n + 1) = (parentIndex array n).elim (headsAfter array n)
      fun p => buildList array (headsAfter array n) p n := by
  rw [← buildStep_eq, headsAfter, List.range_succ, List.foldl_append]
  rfl

/-- After `n` passes the lists hold the first `n` processes, each under its parent. -/
theorem headsAfter_spec (h : Table array) {n : Nat} (hn : n ≤ array.length) (p : Nat) :
    (headsAfter array n p).Pairwise (fun a b => (procAt array a).pid < (procAt array b).pid) ∧
      ∀ c, c ∈ headsAfter array n p ↔ c < n ∧ Parent array c p := by
  induction n with
  | zero => exact ⟨List.Pairwise.nil, by simp [headsAfter]⟩
  | succ n ih =>
      obtain ⟨hsorted, hmem⟩ := ih (Nat.le_of_succ_le hn)
      have hparent := fun q => parentIndex_eq_some (j := q) h hn
      rw [headsAfter_succ]
      by_cases hp : Parent array n p
      case pos =>
        rw [(hparent p).mpr hp, Option.elim_some, buildList, Function.update_self]
        refine ⟨insertChild_sorted hsorted fun c hc heq => ?_, fun c => ?_⟩
        · obtain ⟨hlt, hc⟩ := (hmem c).mp hc
          have := h.pid_injective hn hc.1 heq
          omega
        · rw [(insertChild_perm _).mem_iff, List.mem_cons, hmem]
          constructor
          · rintro (rfl | ⟨hlt, hc⟩)
            · exact ⟨Nat.lt_succ_self c, hp⟩
            · exact ⟨Nat.lt_succ_of_lt hlt, hc⟩
          · rintro ⟨hlt, hc⟩
            rcases Nat.lt_succ_iff_lt_or_eq.mp hlt with hlt | rfl
            · exact .inr ⟨hlt, hc⟩
            · exact .inl rfl
      case neg =>
        have hkeep : ((parentIndex array n).elim (headsAfter array n)
            fun q => buildList array (headsAfter array n) q n) p = headsAfter array n p := by
          cases hindex : parentIndex array n with
          | none => rfl
          | some q =>
              have hne : p ≠ q := by
                rintro rfl
                exact hp ((hparent p).mp hindex)
              exact Function.update_of_ne hne ..
        rw [hkeep]
        refine ⟨hsorted, fun c => ?_⟩
        rw [hmem, Nat.lt_succ_iff_lt_or_eq]
        constructor
        · rintro ⟨hlt, hc⟩
          exact ⟨.inl hlt, hc⟩
        · rintro ⟨hlt | rfl, hc⟩
          · exact ⟨hlt, hc⟩
          · exact absurd hc hp

theorem buildTree_sorted (h : Table array) (p : Nat) :
    (buildTree array p).Pairwise fun a b => (procAt array a).pid < (procAt array b).pid :=
  (headsAfter_spec h (Nat.le_refl _) p).1

theorem mem_buildTree (h : Table array) {c p : Nat} :
    c ∈ buildTree array p ↔ Parent array c p := by
  have hmem := (headsAfter_spec h (Nat.le_refl _) p).2 c
  exact hmem.trans ⟨fun hc => hc.2, fun hc => ⟨hc.1, hc⟩⟩

/-- In the graph of the lists init is a root. -/
theorem buildTree_rooted (h : Table array) {init : Nat} (hinit : pIndex array 1 = some init) :
    Rooted (buildTree array) init where
  nodup p := (buildTree_sorted h p).imp fun hlt heq => absurd hlt (by rw [heq]; exact lt_irrefl _)
  unique {p p' c} hc hc' := by
    have hparent := (mem_buildTree h).mp hc
    have hindex := (parentIndex_eq_some h hparent.1).mpr hparent
    have hindex' := (parentIndex_eq_some h hparent.1).mpr ((mem_buildTree h).mp hc')
    exact Option.some.inj (hindex.symm.trans hindex')
  orphan p hp := ((mem_buildTree h).mp hp).2.2.1 ((pIndex_eq_some h).mp hinit).2

/-! ### What `print_tree` prints -/

/-- The paths from init are the chains of parents, walked the other way. -/
theorem path_iff_chain (h : Table array) {init : Nat} (hinit : pIndex array 1 = some init)
    {i n : Nat} : Path (buildTree array) init i n ↔ Chain array i n := by
  obtain ⟨hlt, hpid⟩ := (pIndex_eq_some h).mp hinit
  constructor
  · intro hpath
    induction hpath with
    | refl => exact .init hlt hpid
    | snoc _ hc ih => exact .parent ((mem_buildTree h).mp hc) ih
  · intro hchain
    induction hchain with
    | init hi hpid' =>
        obtain rfl := h.pid_injective hi hlt (hpid'.trans hpid.symm)
        exact .refl
    | parent hparent _ ih => exact ih.snoc ((mem_buildTree h).mpr hparent)

theorem Chain.lt_length {i n : Nat} (h : Chain array i n) : i < array.length := by
  cases h with
  | init hi => exact hi
  | parent hparent => exact hparent.1

theorem exists_init (h : Table array) : ∃ init, pIndex array 1 = some init := by
  obtain ⟨p, hp, hpid⟩ := h.init
  exact Option.ne_none_iff_exists'.mp fun hnone => pIndex_eq_none.mp hnone p hp hpid

/-- From init `print_tree` ends. -/
theorem printTree_terminates (h : Table array) :
    ∃ init lines, pIndex array 1 = some init ∧
      ∀ fuel ≥ array.length, printTree (buildTree array) fuel init 0 = some lines := by
  obtain ⟨init, hinit⟩ := exists_init h
  have hnodes : ∀ i n, Path (buildTree array) init i n → i ∈ List.range array.length :=
    fun i n hpath => List.mem_range.mpr ((path_iff_chain h hinit).mp hpath).lt_length
  obtain ⟨lines, hlines⟩ :=
    (buildTree_rooted h hinit).preorder_terminates hnodes (Nat.le_refl _) 0
  rw [List.length_range] at hlines
  refine ⟨init, lines, hinit, fun fuel hfuel => ?_⟩
  rw [printTree_eq]
  exact preorder_mono hfuel hlines

/-- **The printed tree is complete and finite.** From init `print_tree` ends. It
prints the processes whose chain of parents reaches pid 1, each of them once, at
the depth of the length of its chain, and in the block of its parent. -/
theorem print_tree_complete (h : Table array) :
    ∃ init lines, pIndex array 1 = some init ∧
      (∀ fuel ≥ array.length, printTree (buildTree array) fuel init 0 = some lines) ∧
      (∀ i depth, (depth, i) ∈ lines ↔ Chain array i depth) ∧ (lines.map Prod.snd).Nodup ∧
      ∀ pre depth i post, lines = pre ++ (depth + 1, i) :: post →
        ∃ pre' j mid, pre = pre' ++ (depth, j) :: mid ∧ Parent array i j ∧
          ∀ line ∈ mid, depth < line.1 := by
  obtain ⟨init, lines, hinit, hfuel⟩ := printTree_terminates h
  have hlines := hfuel array.length (Nat.le_refl _)
  rw [printTree_eq] at hlines
  refine ⟨init, lines, hinit, hfuel, fun i depth => ?_,
    (buildTree_rooted h hinit).preorder_nodup .refl hlines, fun pre depth i post hsplit => ?_⟩
  · rw [mem_preorder hlines, ← path_iff_chain h hinit]
    simp
  · obtain ⟨pre', j, mid, hpre, hi, hmid⟩ :=
      preorder_laidOut hlines pre depth i post hsplit (Nat.zero_le depth)
    exact ⟨pre', j, mid, hpre, (mem_buildTree h).mp hi, hmid⟩

/-- A table with an orphan and two processes that are each other's parents. -/
theorem print_tree_complete_circle :
    ∃ init lines, pIndex [⟨.single 97, 7, 3⟩, ⟨.single 98, 0, 1⟩, ⟨.single 99, 5, 4⟩,
        ⟨.single 100, 4, 5⟩] 1 = some init ∧
      printTree (buildTree [⟨.single 97, 7, 3⟩, ⟨.single 98, 0, 1⟩, ⟨.single 99, 5, 4⟩,
        ⟨.single 100, 4, 5⟩]) 4 init 0 = some lines ∧ (lines.map Prod.snd).Nodup := by
  obtain ⟨init, lines, hinit, hlines, -, hnodup, -⟩ := @print_tree_complete
    [⟨.single 97, 7, 3⟩, ⟨.single 98, 0, 1⟩, ⟨.single 99, 5, 4⟩, ⟨.single 100, 4, 5⟩]
    ⟨by decide, by decide⟩
  exact ⟨init, lines, hinit, hlines 4 (by decide), hnodup⟩

end Tree

/-! ### Another order of the records -/

/-- Where the record of a process of `array` stands in `array'`. -/
def moved (array array' : List Proc) (i : Nat) : Nat :=
  (pIndex array' (procAt array i).pid).getD 0

section Reorder

variable {array array' : List Proc} (hperm : array.Perm array')

include hperm

theorem Table.perm (h : Table array) : Table array' where
  distinct := (hperm.map Proc.pid).nodup_iff.mp h.distinct
  init := by
    obtain ⟨p, hp, hpid⟩ := h.init
    exact ⟨p, hperm.mem_iff.mp hp, hpid⟩

theorem moved_spec (h : Table array) {i : Nat} (hi : i < array.length) :
    moved array array' i < array'.length ∧
      procAt array' (moved array array' i) = procAt array i := by
  obtain ⟨j, hj, hget⟩ := List.getElem_of_mem (hperm.mem_iff.mp (procAt_mem hi))
  rw [← procAt_of_lt hj] at hget
  have hindex : pIndex array' (procAt array i).pid = some j :=
    (pIndex_eq_some (h.perm hperm)).mpr ⟨hj, congrArg Proc.pid hget⟩
  rw [moved, hindex]
  exact ⟨hj, hget⟩

theorem moved_surjective (h : Table array) {j : Nat} (hj : j < array'.length) :
    ∃ i < array.length, moved array array' i = j := by
  obtain ⟨i, hi, hget⟩ := List.getElem_of_mem (hperm.mem_iff.mpr (procAt_mem hj))
  rw [← procAt_of_lt hi] at hget
  obtain ⟨hlt, hproc⟩ := moved_spec hperm h hi
  refine ⟨i, hi, (h.perm hperm).pid_injective hlt hj ?_⟩
  rw [hproc, hget]

theorem parent_moved (h : Table array) {i j : Nat} (hi : i < array.length)
    (hj : j < array.length) :
    Parent array' (moved array array' i) (moved array array' j) ↔ Parent array i j := by
  obtain ⟨hi', hiproc⟩ := moved_spec hperm h hi
  obtain ⟨hj', hjproc⟩ := moved_spec hperm h hj
  simp only [Parent, ListedUnder, hi, hj, hi', hj', hiproc, hjproc, true_and, hperm.mem_iff]

/-- The lists of children are the same up to the order of the records. -/
theorem buildTree_map_moved (h : Table array) {i : Nat} (hi : i < array.length) :
    (buildTree array i).map (moved array array') = buildTree array' (moved array array' i) := by
  have h' := h.perm hperm
  have hlt : ∀ c ∈ buildTree array i, c < array.length := fun c hc => ((mem_buildTree h).mp hc).1
  have hsorted : ((buildTree array i).map (moved array array')).Pairwise
      fun a b => (procAt array' a).pid < (procAt array' b).pid := by
    rw [List.pairwise_map]
    refine (buildTree_sorted h i).imp_of_mem fun {a b} ha hb hab => ?_
    rwa [(moved_spec hperm h (hlt a ha)).2, (moved_spec hperm h (hlt b hb)).2]
  have hmem : ∀ c, c ∈ (buildTree array i).map (moved array array') ↔
      c ∈ buildTree array' (moved array array' i) := by
    intro c
    rw [List.mem_map, mem_buildTree h']
    constructor
    · rintro ⟨c, hc, rfl⟩
      exact (parent_moved hperm h (hlt c hc) hi).mpr ((mem_buildTree h).mp hc)
    · intro hc
      obtain ⟨c, hc', rfl⟩ := moved_surjective hperm h hc.1
      exact ⟨c, (mem_buildTree h).mpr ((parent_moved hperm h hc' hi).mp hc), rfl⟩
  have hnodup : ∀ {l : List Nat}, l.Pairwise
      (fun a b => (procAt array' a).pid < (procAt array' b).pid) → l.Nodup :=
    fun hl => hl.imp fun hab heq => absurd hab (by rw [heq]; exact lt_irrefl _)
  have hsame :=
    (List.perm_ext_iff_of_nodup (hnodup hsorted) (hnodup (buildTree_sorted h' _))).mpr hmem
  exact hsame.eq_of_pairwise (fun a b _ _ hab hba => absurd hab (not_lt.mpr hba.le)) hsorted
    (buildTree_sorted h' _)

theorem output_perm (h : Table array) (showPids : Bool) (fuel : Nat) :
    output showPids fuel array = output showPids fuel array' := by
  obtain ⟨init, hinit⟩ := exists_init h
  obtain ⟨hlt, hpid⟩ := (pIndex_eq_some h).mp hinit
  obtain ⟨hlt', hproc⟩ := moved_spec hperm h hlt
  have hinit' : pIndex array' 1 = some (moved array array' init) :=
    (pIndex_eq_some (h.perm hperm)).mpr ⟨hlt', by rw [hproc, hpid]⟩
  have hprint : preorder (buildTree array') fuel 0 (moved array array' init) =
      (preorder (buildTree array) fuel 0 init).map
        fun out => out.map fun e => (e.1, moved array array' e.2) :=
    preorder_map (moved array array') (· < array.length)
      (fun i hi => buildTree_map_moved hperm h hi)
      (fun i _ c hc => ((mem_buildTree h).mp hc).1) hlt
  simp only [output, hinit, hinit', printTree_eq, hprint]
  cases hlines : preorder (buildTree array) fuel 0 init with
  | none => rfl
  | some lines =>
      have hrender : ∀ line ∈ lines,
          render showPids array' (line.1, moved array array' line.2) =
            render showPids array line := by
        intro line hline
        obtain ⟨n, -, hpath⟩ := (mem_preorder hlines).mp hline
        rw [render, render, (moved_spec hperm h ((path_iff_chain h hinit).mp hpath).lt_length).2]
      simp only [Option.map_some, List.flatMap_map]
      rw [List.flatMap_congr hrender]

end Reorder

end NjuOs.Pstree
