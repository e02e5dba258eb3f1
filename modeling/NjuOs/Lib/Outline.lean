import NjuOs.Lib.Preorder

/-!
What an outline says about the order of its entries.

An outline is a list of labels with their depths. An entry stands below the last one in
front of it that is one level higher (`Below`), so the labels alone say who stands
below whom. In the outline of a traversal these are the edges that it has taken
(`below_preorder_iff`).
-/

namespace NjuOs.Lib

variable {α β : Type}

/-- The last element of a kind splits a list in one way. -/
theorem append_cons_unique {P : α → Prop} {x x' y y' : List α} {c c' : α} (hc : P c) (hc' : P c')
    (hy : ∀ e ∈ y, ¬ P e) (hy' : ∀ e ∈ y', ¬ P e) (h : x ++ c :: y = x' ++ c' :: y') :
    x = x' ∧ c = c' ∧ y = y' := by
  rcases List.append_eq_append_iff.mp h with ⟨mid, hx, hmid⟩ | ⟨mid, hx, hmid⟩
  · cases mid with
    | nil =>
        obtain ⟨rfl, rfl⟩ := List.cons.inj hmid
        exact ⟨by rw [hx, List.append_nil], rfl, rfl⟩
    | cons a mid =>
        obtain ⟨-, rfl⟩ := List.cons.inj hmid
        exact absurd hc' (hy c' (List.mem_append_right _ List.mem_cons_self))
  · cases mid with
    | nil =>
        obtain ⟨rfl, rfl⟩ := List.cons.inj hmid
        exact ⟨by rw [hx, List.append_nil], rfl, rfl⟩
    | cons a mid =>
        obtain ⟨-, rfl⟩ := List.cons.inj hmid
        exact absurd hc (hy' c (List.mem_append_right _ List.mem_cons_self))

/-- And so does the first one. -/
theorem append_cons_unique_first {P : α → Prop} {x x' y y' : List α} {c c' : α} (hc : P c)
    (hc' : P c') (hx : ∀ e ∈ x, ¬ P e) (hx' : ∀ e ∈ x', ¬ P e)
    (h : x ++ c :: y = x' ++ c' :: y') : x = x' ∧ c = c' ∧ y = y' := by
  have hreverse : y.reverse ++ c :: x.reverse = y'.reverse ++ c' :: x'.reverse := by
    simpa using congrArg List.reverse h
  obtain ⟨hy, heq, hfront⟩ := append_cons_unique hc hc' (fun e he => hx e (List.mem_reverse.mp he))
    (fun e he => hx' e (List.mem_reverse.mp he)) hreverse
  exact ⟨List.reverse_inj.mp hfront, heq, List.reverse_inj.mp hy⟩

/-- Entry `b` stands below entry `a`. -/
def Below (out : List (Nat × β)) (a b : β) : Prop :=
  ∃ pre k mid post, out = pre ++ (k, a) :: (mid ++ (k + 1, b) :: post) ∧ ∀ e ∈ mid, k < e.1

/-- The labels of an outline may be renamed. -/
theorem below_map_iff {f : α → β} {out : List (Nat × α)} {a b : β} :
    Below (out.map fun e => (e.1, f e.2)) a b ↔
      ∃ x y, Below out x y ∧ f x = a ∧ f y = b := by
  constructor
  · rintro ⟨pre, k, mid, post, hout, hmid⟩
    obtain ⟨pre, fromX, rfl, rfl, hfromX⟩ := List.map_eq_append_iff.mp hout
    obtain ⟨⟨k', x⟩, behindX, rfl, hx, hbehind⟩ := List.map_eq_cons_iff.mp hfromX
    obtain ⟨mid, fromY, rfl, rfl, hfromY⟩ := List.map_eq_append_iff.mp hbehind
    obtain ⟨⟨k'', y⟩, post, rfl, hy, rfl⟩ := List.map_eq_cons_iff.mp hfromY
    obtain ⟨rfl, rfl⟩ := Prod.mk.inj hx
    obtain ⟨rfl, rfl⟩ := Prod.mk.inj hy
    exact ⟨x, y, ⟨pre, _, mid, post, rfl, fun e he => hmid _ (List.mem_map_of_mem he)⟩, rfl, rfl⟩
  · rintro ⟨x, y, ⟨pre, k, mid, post, rfl, hmid⟩, rfl, rfl⟩
    refine ⟨pre.map fun e => (e.1, f e.2), k, mid.map fun e => (e.1, f e.2),
      post.map fun e => (e.1, f e.2), by simp, ?_⟩
    rw [List.forall_mem_map]
    exact hmid

variable {children : α → List α}

/-- In the outline of a traversal the entries stand below their parents. -/
theorem below_preorder_iff (hunique : ∀ {p p' c}, c ∈ children p → c ∈ children p' → p = p')
    {fuel : Nat} {root : α} {out : List (Nat × α)} (h : preorder children fuel 0 root = some out)
    {x y : α} : Below out x y ↔ y ∈ children x ∧ ∃ n, (n + 1, y) ∈ out := by
  have hlaid := preorder_laidOut h
  constructor
  · rintro ⟨pre, k, mid, post, hout, hmid⟩
    have hsplit : out = (pre ++ (k, x) :: mid) ++ (k + 1, y) :: post := by
      rw [hout, List.append_assoc, List.cons_append]
    obtain ⟨pre', x', mid', heq, hy, hmid'⟩ := hlaid _ k y post hsplit (Nat.zero_le k)
    -- the last entry on level `k` in front of `y`
    obtain ⟨-, hx, -⟩ := append_cons_unique (P := fun e : Nat × α => e.1 ≤ k) (Nat.le_refl k)
      (Nat.le_refl k) (fun e he => Nat.not_le.mpr (hmid e he))
      (fun e he => Nat.not_le.mpr (hmid' e he)) heq
    obtain ⟨-, rfl⟩ := Prod.mk.inj hx
    exact ⟨hy, k, hout ▸ List.mem_append_right _ (List.mem_cons_of_mem _
      (List.mem_append_right _ List.mem_cons_self))⟩
  · rintro ⟨hy, n, hmem⟩
    obtain ⟨pre, post, hsplit⟩ := List.append_of_mem hmem
    obtain ⟨pre', x', mid, hpre, hy', hmid⟩ := hlaid pre n y post hsplit (Nat.zero_le n)
    obtain rfl := hunique hy hy'
    exact ⟨pre', n, mid, post, by rw [hsplit, hpre, List.append_assoc, List.cons_append], hmid⟩

end NjuOs.Lib
