import Mathlib.Algebra.GroupWithZero.Nat
import Mathlib.Data.List.Pairwise
import Mathlib.Data.Set.Lattice
import Mathlib.Order.CompletePartialOrder
import NjuOs.Lib.Pool

/-!
Slices of a memory: a pointer, given by the addresses of its elements, and a length.

`NonOverlapping outs ins` says that the slices `outs` have their cells for
themselves. `owned` are the cells of a slice whose index belongs to one of several
owners; threads that write only what they own are separate
(`separate_of_nonOverlapping`).
-/

namespace NjuOs.Lib

variable {A : Type}

structure Slice (A : Type) where
  ptr : Nat → A
  size : Nat

namespace Slice

def cells (x : Slice A) : Set A := {a | ∃ i < x.size, x.ptr i = a}

/-- Different elements have different addresses. -/
def Distinct (x : Slice A) : Prop := ∀ i < x.size, ∀ j < x.size, x.ptr i = x.ptr j → i = j

/-- The cells that belong to `t`. -/
def owned (x : Slice A) (owner : Nat → Nat) (t : Nat) : Set A :=
  {a | ∃ i < x.size, owner i = t ∧ x.ptr i = a}

theorem mem_cells {x : Slice A} {i : Nat} (h : i < x.size) : x.ptr i ∈ x.cells := ⟨i, h, rfl⟩

theorem mem_owned {x : Slice A} {owner : Nat → Nat} {t i : Nat} (h : i < x.size)
    (howner : owner i = t) : x.ptr i ∈ x.owned owner t := ⟨i, h, howner, rfl⟩

theorem owned_subset (x : Slice A) (owner : Nat → Nat) (t : Nat) : x.owned owner t ⊆ x.cells := by
  rintro a ⟨i, hi, -, rfl⟩
  exact ⟨i, hi, rfl⟩

theorem ne_of_disjoint {x y : Slice A} (h : Disjoint x.cells y.cells) {i j : Nat}
    (hi : i < x.size) (hj : j < y.size) : x.ptr i ≠ y.ptr j := fun heq =>
  Set.disjoint_left.mp h (mem_cells hi) (heq ▸ mem_cells hj)

/-- Writes to `x` leave `y` as it was. -/
theorem unchanged {V : Type} {x y : Slice A} (h : Disjoint x.cells y.cells) {index : Nat → Nat}
    {n : Nat} (hindex : ∀ k < n, index k < x.size) {m m' : A → V}
    (hm' : ∀ a, (∀ k < n, a ≠ x.ptr (index k)) → m' a = m a) {j : Nat} (hj : j < y.size) :
    m' (y.ptr j) = m (y.ptr j) :=
  hm' _ fun k hk => (ne_of_disjoint h (hindex k hk) hj).symm

theorem owned_disjoint {x : Slice A} (h : x.Distinct) (owner : Nat → Nat) {t u : Nat}
    (hne : t ≠ u) : Disjoint (x.owned owner t) (x.owned owner u) := by
  rw [Set.disjoint_left]
  rintro a ⟨i, hi, rfl, rfl⟩ ⟨j, hj, hu, heq⟩
  rw [h j hj i hi heq] at hu
  exact hne hu

theorem notMem_cells {x : Slice A} {a : A} (h : a ∉ x.cells) {n : Nat} (hn : n ≤ x.size) :
    ∀ i < n, a ≠ x.ptr i := fun i hi heq => h ⟨i, Nat.lt_of_lt_of_le hi hn, heq.symm⟩

/-- A part of a slice. -/
theorem shift_cells {p : Nat → A} {k w n : Nat} (h : k + w ≤ n) :
    cells ⟨fun i => p (k + i), w⟩ ⊆ cells ⟨p, n⟩ := by
  rintro a ⟨i, hi, rfl⟩
  exact ⟨k + i, Nat.lt_of_lt_of_le (Nat.add_lt_add_left hi k) h, rfl⟩

theorem Distinct.shift {p : Nat → A} {k w n : Nat} (hdistinct : Distinct ⟨p, n⟩)
    (h : k + w ≤ n) : Distinct ⟨fun i => p (k + i), w⟩ := by
  intro i hi j hj hij
  have hlt : ∀ i < w, k + i < n := fun i hi => Nat.lt_of_lt_of_le (Nat.add_lt_add_left hi k) h
  exact Nat.add_left_cancel (hdistinct _ (hlt i hi) _ (hlt j hj) hij)

/-- Elements at consecutive addresses. -/
def flat (base size : Nat) : Slice Nat := ⟨fun i => base + i, size⟩

theorem flat_distinct (base size : Nat) : (flat base size).Distinct :=
  fun _ _ _ _ h => Nat.add_left_cancel h

theorem flat_disjoint {base size base' size' : Nat} (h : base + size ≤ base') :
    Disjoint (flat base size).cells (flat base' size').cells := by
  rw [Set.disjoint_left]
  rintro a ⟨i, hi, rfl⟩ ⟨j, -, hj⟩
  have hlt : i < size := hi
  have heq : base' + j = base + i := hj
  omega

end Slice

/-- The slices `outs` overlap neither one another nor any of `ins`. -/
structure NonOverlapping (outs ins : List (Slice A)) : Prop where
  distinct : ∀ x ∈ outs, x.Distinct
  apart : outs.Pairwise fun x y => Disjoint x.cells y.cells
  inputs : ∀ x ∈ outs, ∀ y ∈ ins, Disjoint x.cells y.cells

/-- The cells of the inputs. -/
def shared (ins : List (Slice A)) : Set A := {a | ∃ y ∈ ins, a ∈ y.cells}

/-- The cells of the outputs that belong to `t`; each output has its own owners. -/
def own (outs : List (Slice A × (Nat → Nat))) (t : Nat) : Set A :=
  {a | ∃ x ∈ outs, a ∈ x.1.owned x.2 t}

theorem mem_shared {ins : List (Slice A)} {y : Slice A} (h : y ∈ ins) {i : Nat} (hi : i < y.size) :
    y.ptr i ∈ shared ins := ⟨y, h, Slice.mem_cells hi⟩

theorem mem_own {outs : List (Slice A × (Nat → Nat))} {x : Slice A} {owner : Nat → Nat}
    (h : (x, owner) ∈ outs) {i t : Nat} (hi : i < x.size) (howner : owner i = t) :
    x.ptr i ∈ own outs t := ⟨(x, owner), h, Slice.mem_owned hi howner⟩

theorem nonOverlapping_cons {x : Slice A} {outs ins : List (Slice A)} :
    NonOverlapping (x :: outs) ins ↔
      (x.Distinct ∧ (∀ y ∈ outs, Disjoint x.cells y.cells) ∧ ∀ y ∈ ins, Disjoint x.cells y.cells) ∧
        NonOverlapping outs ins := by
  constructor
  · intro h
    obtain ⟨hx, houts⟩ := List.pairwise_cons.mp h.apart
    exact ⟨⟨h.distinct x List.mem_cons_self, hx, h.inputs x List.mem_cons_self⟩,
      fun y hy => h.distinct y (List.mem_cons_of_mem x hy), houts,
      fun y hy => h.inputs y (List.mem_cons_of_mem x hy)⟩
  · rintro ⟨⟨hdistinct, hx, hins⟩, h⟩
    exact ⟨List.forall_mem_cons.mpr ⟨hdistinct, h.distinct⟩, List.pairwise_cons.mpr ⟨hx, h.apart⟩,
      List.forall_mem_cons.mpr ⟨hins, h.inputs⟩⟩

/-- The beginning of a slice. -/
def Slice.Sub (x y : Slice A) : Prop := x.ptr = y.ptr ∧ x.size ≤ y.size

theorem Slice.Sub.cells_subset {x y : Slice A} (h : x.Sub y) : x.cells ⊆ y.cells := by
  rintro a ⟨i, hi, rfl⟩
  exact ⟨i, Nat.lt_of_lt_of_le hi h.2, (congrFun h.1 i).symm⟩

theorem Slice.disjoint_sub {x y z : Slice A} (hz : Disjoint x.cells z.cells) (h : y.Sub z) :
    Disjoint x.cells y.cells := hz.mono_right h.cells_subset

theorem Slice.Sub.distinct {x y : Slice A} (h : x.Sub y) (hy : y.Distinct) : x.Distinct := by
  intro i hi j hj hij
  rw [h.1] at hij
  exact hy i (Nat.lt_of_lt_of_le hi h.2) j (Nat.lt_of_lt_of_le hj h.2) hij

theorem NonOverlapping.sub {outs outs' ins ins' : List (Slice A)} (h : NonOverlapping outs ins)
    (houts : List.Forall₂ Slice.Sub outs' outs) (hins : List.Forall₂ Slice.Sub ins' ins) :
    NonOverlapping outs' ins' := by
  -- a member of the smaller lists is a part of one of the larger ones
  have hpart : ∀ {xs ys : List (Slice A)}, List.Forall₂ Slice.Sub xs ys →
      ∀ x ∈ xs, ∃ y ∈ ys, x.Sub y := by
    intro xs ys hxs
    induction hxs with
    | nil => exact nofun
    | cons hxy _ ih =>
        refine List.forall_mem_cons.mpr ⟨⟨_, List.mem_cons_self, hxy⟩, fun x hx => ?_⟩
        obtain ⟨y, hy, hsub⟩ := ih x hx
        exact ⟨y, List.mem_cons_of_mem _ hy, hsub⟩
  induction houts with
  | nil => exact ⟨nofun, List.Pairwise.nil, nofun⟩
  | cons hxy htail ih =>
      obtain ⟨⟨hdistinct, houts', hins'⟩, hrest⟩ := nonOverlapping_cons.mp h
      refine nonOverlapping_cons.mpr ⟨⟨hxy.distinct hdistinct, fun z hz => ?_, fun z hz => ?_⟩,
        ih hrest⟩
      · obtain ⟨w, hw, hsub⟩ := hpart htail z hz
        exact (houts' w hw).mono hxy.cells_subset hsub.cells_subset
      · obtain ⟨w, hw, hsub⟩ := hpart hins z hz
        exact (hins' w hw).mono hxy.cells_subset hsub.cells_subset

/-- Slices that follow one another. -/
theorem nonOverlapping_flat {outs ins : List (Nat × Nat)}
    (h : (outs ++ ins).Pairwise fun x y => x.1 + x.2 ≤ y.1) :
    NonOverlapping (outs.map fun x => Slice.flat x.1 x.2)
      (ins.map fun x => Slice.flat x.1 x.2) := by
  obtain ⟨houts, -, hins⟩ := List.pairwise_append.mp h
  refine ⟨?_, ?_, ?_⟩
  · simp only [List.forall_mem_map]
    exact fun x _ => Slice.flat_distinct x.1 x.2
  · rw [List.pairwise_map]
    exact houts.imp fun hle => Slice.flat_disjoint hle
  · simp only [List.forall_mem_map]
    exact fun x hx y hy => Slice.flat_disjoint (hins x hx y hy)

/-- What `t` owns is neither an input nor of another owner. -/
theorem own_apart {outs : List (Slice A × (Nat → Nat))} {ins : List (Slice A)}
    (h : NonOverlapping (outs.map Prod.fst) ins) {t u : Nat} (htu : t ≠ u) {a : A}
    (ha : a ∈ own outs t) : a ∉ shared ins ∪ own outs u ∧ a ∉ own outs u := by
  obtain ⟨x, hx, hax⟩ := ha
  have hxmem : x.1 ∈ outs.map Prod.fst := List.mem_map_of_mem hx
  have hcell := Slice.owned_subset _ _ _ hax
  have hinput : a ∉ shared ins := by
    rintro ⟨y, hy, hay⟩
    exact Set.disjoint_left.mp (h.inputs _ hxmem y hy) hcell hay
  have hother : a ∉ own outs u := by
    rintro ⟨y, hy, hay⟩
    by_cases hxy : x = y
    · subst hxy
      have hdisjoint := Slice.owned_disjoint (h.distinct _ hxmem) x.2 htu
      exact Set.disjoint_left.mp hdisjoint hax hay
    · have hsymm : Std.Symm fun x y : Slice A × (Nat → Nat) => Disjoint x.1.cells y.1.cells :=
        ⟨fun _ _ hd => hd.symm⟩
      have hapart := (List.pairwise_map.mp h.apart).forall hx hy hxy
      exact Set.disjoint_left.mp hapart hcell (Slice.owned_subset _ _ _ hay)
  exact ⟨fun hread => hread.elim hinput hother, hother⟩

/-- Nobody owns what lies behind the slices that have owners. -/
theorem notMem_own_of_le {p : Nat → A} {n k size : Nat} {owner : Nat → Nat}
    {outs : List (Slice A × (Nat → Nat))} (hdistinct : Slice.Distinct ⟨p, size⟩)
    (houts : ∀ y ∈ outs, Disjoint (Slice.cells ⟨p, size⟩) y.1.cells) (hn : n ≤ k) (hk : k < size)
    (t : Nat) : p k ∉ own ((⟨p, n⟩, owner) :: outs) t := by
  rintro ⟨y, hy, hmem⟩
  rcases List.mem_cons.mp hy with rfl | hy
  · obtain ⟨i, hi, -, heq⟩ := hmem
    have hlt : i < n := hi
    have hik : i = k := hdistinct i (hlt.trans (hn.trans_lt hk)) k hk heq
    omega
  · exact Set.disjoint_left.mp (houts y hy) (Slice.mem_cells hk) (Slice.owned_subset _ _ _ hmem)

/-- Threads that read the inputs, and write what they own. -/
theorem separate_of_nonOverlapping {V : Type} {T : Nat} {outs : List (Slice A × (Nat → Nat))}
    {ins : List (Slice A)} (h : NonOverlapping (outs.map Prod.fst) ins)
    {threads : Fin T → Prog A V Unit}
    (hwithin : ∀ t : Fin T, (threads t).Within (shared ins ∪ own outs t) (own outs t)) :
    Separate (fun t : Fin T => shared ins ∪ own outs t) (fun t : Fin T => own outs t) threads :=
  ⟨hwithin, fun _ _ htu _ ha => own_apart h (Fin.val_ne_of_ne htu) ha⟩

/-! ### Rows -/

/-- An element of row `t` of width `C`. -/
theorem rowIndex_lt {t T i C : Nat} (ht : t < T) (hi : i < C) : t * C + i < T * C :=
  calc t * C + i < t * C + C := Nat.add_lt_add_left hi _
    _ = (t + 1) * C := (Nat.succ_mul t C).symm
    _ ≤ T * C := Nat.mul_le_mul_right _ ht

theorem rowIndex_div {t i C : Nat} (hi : i < C) : (t * C + i) / C = t := by
  rw [Nat.mul_comm, Nat.mul_add_div (Nat.zero_lt_of_lt hi), Nat.div_eq_of_lt hi, Nat.add_zero]

/-- An element of row `t` of matrix `b`. -/
theorem partIndex_lt {b B t T i W : Nat} (hb : b < B) (ht : t < T) (hi : i < W) :
    b * T * W + t * W + i < B * T * W := by
  rw [← Nat.add_mul]
  exact rowIndex_lt (rowIndex_lt hb ht) hi

theorem partIndex_part {b t T i W : Nat} (ht : t < T) (hi : i < W) :
    (b * T * W + t * W + i) / W / T = b := by
  rw [← Nat.add_mul, rowIndex_div hi, rowIndex_div ht]

theorem partIndex_row {b t T i W : Nat} (ht : t < T) (hi : i < W) :
    (b * T * W + t * W + i) / W % T = t := by
  rw [← Nat.add_mul, rowIndex_div hi, Nat.mul_add_mod_of_lt ht]

/-- Row `t` of a matrix that is shared. -/
theorem mem_shared_row {ins : List (Slice A)} {p : Nat → A} {T C t i : Nat}
    (h : ⟨p, T * C⟩ ∈ ins) (ht : t < T) (hi : i < C) : p (t * C + i) ∈ shared ins :=
  mem_shared h (rowIndex_lt ht hi)

/-- Row `t` of a matrix whose rows have owners. -/
theorem mem_own_row {outs : List (Slice A × (Nat → Nat))} {p : Nat → A} {T C t i : Nat}
    (h : (⟨p, T * C⟩, (· / C)) ∈ outs) (ht : t < T) (hi : i < C) : p (t * C + i) ∈ own outs t :=
  mem_own h (rowIndex_lt ht hi) (rowIndex_div hi)

theorem mem_own_elem {outs : List (Slice A × (Nat → Nat))} {p : Nat → A} {T t : Nat}
    (h : (⟨p, T⟩, id) ∈ outs) (ht : t < T) : p t ∈ own outs t := mem_own h ht rfl

/-! ### Layout -/

section Layout

variable {X : Type} [DecidableEq X]

/-- Objects that are placed one after another from `iterator` on: where each one starts. -/
def layOut : List X → List Nat → Nat → (X → Nat) → X → Nat
  | x :: xs, size :: sizes, iterator, start =>
      layOut xs sizes (iterator + size) (Function.update start x iterator)
  | _, _, _, start => start

/-- The size of each object. -/
def extentOf : List X → List Nat → X → Nat
  | x :: xs, size :: sizes, y => if y = x then size else extentOf xs sizes y
  | _, _, _ => 0

theorem layOut_of_notMem {xs : List X} {sizes : List Nat} {iterator : Nat} {start : X → Nat} {y : X}
    (h : y ∉ xs) : layOut xs sizes iterator start y = start y := by
  induction xs generalizing sizes iterator start with
  | nil => rfl
  | cons x xs ih =>
      cases sizes with
      | nil => rfl
      | cons size sizes =>
          rw [List.mem_cons, not_or] at h
          rw [layOut, ih h.2, Function.update_of_ne h.1]

theorem layOut_self {x : X} {xs : List X} (h : x ∉ xs) (size : Nat) (sizes : List Nat)
    (iterator : Nat) (start : X → Nat) :
    layOut (x :: xs) (size :: sizes) iterator start x = iterator := by
  rw [layOut, layOut_of_notMem h, Function.update_self]

/-- Every object lies between the ends. -/
theorem layOut_bounds {xs : List X} (hnodup : xs.Nodup) {sizes : List Nat}
    (hlength : xs.length = sizes.length) (iterator : Nat) (start : X → Nat) {x : X} (hx : x ∈ xs) :
    iterator ≤ layOut xs sizes iterator start x ∧
      layOut xs sizes iterator start x + extentOf xs sizes x ≤ iterator + sizes.sum := by
  induction xs generalizing sizes iterator start with
  | nil => cases hx
  | cons y xs ih =>
      obtain ⟨hy, hnodup⟩ := List.nodup_cons.mp hnodup
      cases sizes with
      | nil => cases hlength
      | cons size sizes =>
          rw [List.sum_cons]
          by_cases hxy : x = y
          · subst hxy
            rw [layOut_self hy, extentOf, if_pos rfl]
            omega
          · have := ih hnodup (Nat.succ.inj hlength) (iterator + size)
              (Function.update start y iterator) ((List.mem_cons.mp hx).resolve_left hxy)
            rw [layOut, extentOf, if_neg hxy]
            omega

/-- Different objects do not overlap. -/
theorem layOut_apart {xs : List X} (hnodup : xs.Nodup) {sizes : List Nat}
    (hlength : xs.length = sizes.length) (iterator : Nat) (start : X → Nat) {x y : X} (hx : x ∈ xs)
    (hy : y ∈ xs) (hxy : x ≠ y) :
    layOut xs sizes iterator start x + extentOf xs sizes x ≤ layOut xs sizes iterator start y ∨
      layOut xs sizes iterator start y + extentOf xs sizes y ≤
        layOut xs sizes iterator start x := by
  induction xs generalizing sizes iterator start with
  | nil => cases hx
  | cons z xs ih =>
      obtain ⟨hz, hnodup⟩ := List.nodup_cons.mp hnodup
      cases sizes with
      | nil => cases hlength
      | cons size sizes =>
          have hlength := Nat.succ.inj hlength
          have hbehind : ∀ {w : X}, w ∈ xs → layOut (z :: xs) (size :: sizes) iterator start z +
              extentOf (z :: xs) (size :: sizes) z ≤
                layOut (z :: xs) (size :: sizes) iterator start w := by
            intro w hw
            rw [layOut_self hz, extentOf, if_pos rfl]
            exact (layOut_bounds hnodup hlength (iterator + size) _ hw).1
          rcases List.mem_cons.mp hx with rfl | hx'
          · exact .inl (hbehind ((List.mem_cons.mp hy).resolve_left hxy.symm))
          · rcases List.mem_cons.mp hy with rfl | hy'
            · exact .inr (hbehind hx')
            · have hne : ∀ {w : X}, w ∈ xs → w ≠ z := by
                rintro w hw rfl
                exact hz hw
              rw [layOut, extentOf, extentOf, if_neg (hne hx'), if_neg (hne hy')]
              exact ih hnodup hlength (iterator + size) _ hx' hy'

/-- Objects that are written one behind the other are found where they are laid out. -/
theorem getElem?_layOut {V : Type} {content : X → List V} {xs : List X} (hnodup : xs.Nodup)
    (front : List V) (start : X → Nat) {x : X} (hx : x ∈ xs) {i : Nat}
    (hi : i < (content x).length) :
    (front ++ xs.flatMap content)[layOut xs (xs.map fun x => (content x).length) front.length
      start x + i]? = (content x)[i]? := by
  induction xs generalizing front start with
  | nil => cases hx
  | cons y xs ih =>
      obtain ⟨hy, hnodup⟩ := List.nodup_cons.mp hnodup
      rw [List.map_cons, List.flatMap_cons]
      by_cases hxy : x = y
      · subst hxy
        rw [layOut_self hy, List.getElem?_append_right (Nat.le_add_right _ _),
          Nat.add_sub_cancel_left, List.getElem?_append_left hi]
      · have hbehind := ih hnodup (front ++ content y) (Function.update start y front.length)
          ((List.mem_cons.mp hx).resolve_left hxy)
        rwa [List.append_assoc, List.length_append] at hbehind

end Layout

end NjuOs.Lib
