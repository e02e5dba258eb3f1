import Mathlib.Logic.Relation
import Mathlib.Data.Fintype.Card
import Mathlib.Data.Finset.Filter
import Mathlib.Logic.Function.Basic

/-!
Depth-first search with a table of the nodes that are seen.

`explore` marks a node and goes on to those of its successors that are not marked
when their turn comes. The bound on the depth of the calls stands for the stack;
`explore_isSome` says that a stack for all nodes is enough. `Swept` is what a
search has done to the table: `swept_explore` holds for the search of one node, and
`Swept.trans` puts searches together that share the table. From an empty table
the marks are the nodes that a path leads to (`explore_iff`).
-/

namespace NjuOs.Lib

variable {α : Type}

/-- Mark `a`, and search what is not marked among its successors. -/
def explore [DecidableEq α] (next : α → List α) : Nat → α → (α → Bool) → Option (α → Bool)
  | 0, _, _ => none
  | depth + 1, a, seen =>
      (next a).foldlM (fun seen b => if seen b then some seen else explore next depth b seen)
        (Function.update seen a true)

/-- A path of edges. -/
def Reaches (next : α → List α) : α → α → Prop := Relation.ReflTransGen fun a b => b ∈ next a

/-- The search of some nodes has turned the table `seen` into `seen'`. -/
structure Swept (next : α → List α) (as : List α) (seen seen' : α → Bool) : Prop where
  mono : ∀ b, seen b = true → seen' b = true
  starts : ∀ a ∈ as, seen' a = true
  sound : ∀ b, seen' b = true → seen b = true ∨ ∃ a ∈ as, Reaches next a b
  closed : ∀ b, seen' b = true → seen b = false → ∀ c ∈ next b, seen' c = true

namespace Swept

variable {next : α → List α} {as bs : List α} {a : α} {seen seen' seen'' : α → Bool}

theorem refl (seen : α → Bool) : Swept next [] seen seen where
  mono _ h := h
  starts _ ha := absurd ha List.not_mem_nil
  sound _ h := .inl h
  closed b h h' := by
    rw [h] at h'
    cases h'

/-- A node that is marked already is passed by. -/
theorem skip (h : seen a = true) : Swept next [a] seen seen where
  mono _ h := h
  starts b hb := by rwa [List.mem_singleton.mp hb]
  sound _ h := .inl h
  closed b h h' := by
    rw [h] at h'
    cases h'

/-- Two searches, one after the other. -/
theorem trans (h : Swept next as seen seen') (h' : Swept next bs seen' seen'') :
    Swept next (as ++ bs) seen seen'' where
  mono b hb := h'.mono b (h.mono b hb)
  starts b hb := by
    rcases List.mem_append.mp hb with hb | hb
    · exact h'.mono b (h.starts b hb)
    · exact h'.starts b hb
  sound b hb := by
    rcases h'.sound b hb with hb | ⟨a, ha, hpath⟩
    · rcases h.sound b hb with hb | ⟨a, ha, hpath⟩
      · exact .inl hb
      · exact .inr ⟨a, List.mem_append_left _ ha, hpath⟩
    · exact .inr ⟨a, List.mem_append_right _ ha, hpath⟩
  closed b hb hnew c hc := by
    cases hb' : seen' b with
    | true => exact h'.mono c (h.closed b hb' hnew c hc)
    | false => exact h'.closed b hb hb' c hc

/-- The search of a node is that of its successors, from a table that marks it. -/
theorem node [DecidableEq α] (h : Swept next (next a) (Function.update seen a true) seen') :
    Swept next [a] seen seen' := by
  have hself : seen' a = true := h.mono a (Function.update_self ..)
  have hold : ∀ b, b ≠ a → Function.update seen a true b = seen b := fun b hb =>
    Function.update_of_ne hb ..
  constructor
  case mono =>
    intro b hb
    by_cases hba : b = a
    · rwa [hba]
    · exact h.mono b ((hold b hba).trans hb)
  case starts =>
    intro b hb
    rwa [List.mem_singleton.mp hb]
  case sound =>
    intro b hb
    by_cases hba : b = a
    · exact .inr ⟨a, List.mem_cons_self, hba ▸ Relation.ReflTransGen.refl⟩
    · rcases h.sound b hb with hb | ⟨c, hc, hpath⟩
      · exact .inl ((hold b hba).symm.trans hb)
      · exact .inr ⟨a, List.mem_cons_self, Relation.ReflTransGen.head hc hpath⟩
  case closed =>
    intro b hb hnew c hc
    by_cases hba : b = a
    · exact h.starts c (hba ▸ hc)
    · exact h.closed b hb ((hold b hba).trans hnew) c hc

end Swept

variable {next : α → List α}

/-- The loop over the successors, for a search that sweeps from each of them. -/
theorem swept_foldlM {search : α → (α → Bool) → Option (α → Bool)}
    (hsearch : ∀ {a seen seen'}, search a seen = some seen' → Swept next [a] seen seen')
    {as : List α} :
    ∀ {seen seen' : α → Bool},
      as.foldlM (fun seen b => if seen b then some seen else search b seen) seen = some seen' →
        Swept next as seen seen' := by
  induction as with
  | nil =>
      intro seen seen' h
      obtain rfl := Option.some.inj h
      exact .refl seen
  | cons a as ih =>
      intro seen seen' h
      rw [List.foldlM_cons] at h
      obtain ⟨mid, hmid, hrest⟩ := Option.bind_eq_some_iff.mp h
      have hfirst : Swept next [a] seen mid := by
        cases hseen : seen a with
        | true =>
            rw [if_pos hseen] at hmid
            obtain rfl := Option.some.inj hmid
            exact .skip hseen
        | false =>
            rw [if_neg (by rw [hseen]; exact Bool.false_ne_true)] at hmid
            exact hsearch hmid
      exact hfirst.trans (ih hrest)

variable [DecidableEq α]

/-- What a search that comes back has done. -/
theorem swept_explore {depth : Nat} :
    ∀ {a : α} {seen seen' : α → Bool}, explore next depth a seen = some seen' →
      Swept next [a] seen seen' := by
  induction depth with
  | zero =>
      intro a seen seen' h
      cases h
  | succ depth ih =>
      intro a seen seen' h
      exact .node (swept_foldlM ih h)

/-- From an empty table the search marks what can be reached. -/
theorem explore_iff {depth : Nat} {a : α} {seen : α → Bool}
    (h : explore next depth a (fun _ => false) = some seen) (b : α) :
    seen b = true ↔ Reaches next a b := by
  have hswept := swept_explore h
  constructor
  · intro hb
    rcases hswept.sound b hb with hb | ⟨c, hc, hpath⟩
    · exact absurd hb Bool.false_ne_true
    · rwa [List.mem_singleton.mp hc] at hpath
  · intro hpath
    induction hpath with
    | refl => exact hswept.starts a List.mem_cons_self
    | tail _ hedge ih => exact hswept.closed _ ih rfl _ hedge

/-! ### The depth of the calls -/

/-- The nodes that are not marked. -/
def unseen (nodes : Finset α) (seen : α → Bool) : Finset α := nodes.filter fun a => seen a = false

omit [DecidableEq α] in
theorem unseen_anti {nodes : Finset α} {seen seen' : α → Bool}
    (h : ∀ b, seen b = true → seen' b = true) :
    (unseen nodes seen').card ≤ (unseen nodes seen).card := by
  apply Finset.card_le_card
  intro b hb
  obtain ⟨hmem, hnew⟩ := Finset.mem_filter.mp hb
  refine Finset.mem_filter.mpr ⟨hmem, ?_⟩
  cases hseen : seen b with
  | true =>
      rw [h b hseen] at hnew
      cases hnew
  | false => rfl

theorem unseen_update_lt {nodes : Finset α} {seen : α → Bool} {a : α} (ha : a ∈ nodes)
    (hnew : seen a = false) :
    (unseen nodes (Function.update seen a true)).card < (unseen nodes seen).card := by
  apply Finset.card_lt_card
  refine Finset.ssubset_iff_subset_ne.mpr ⟨fun b hb => ?_, fun heq => ?_⟩
  · obtain ⟨hmem, hb⟩ := Finset.mem_filter.mp hb
    have hba : b ≠ a := by
      rintro rfl
      rw [Function.update_self] at hb
      cases hb
    rw [Function.update_of_ne hba] at hb
    exact Finset.mem_filter.mpr ⟨hmem, hb⟩
  · have hmem : a ∈ unseen nodes seen := Finset.mem_filter.mpr ⟨ha, hnew⟩
    rw [← heq] at hmem
    have hself := (Finset.mem_filter.mp hmem).2
    rw [Function.update_self] at hself
    cases hself

/-- **The search comes back** when the stack has room for all nodes that are not
marked: each call marks one more. -/
theorem explore_isSome {nodes : Finset α} (hclosed : ∀ a ∈ nodes, ∀ b ∈ next a, b ∈ nodes)
    {depth : Nat} :
    ∀ {a : α} {seen : α → Bool}, a ∈ nodes → seen a = false →
      (unseen nodes seen).card ≤ depth → ∃ seen', explore next depth a seen = some seen' := by
  induction depth with
  | zero =>
      intro a seen ha hnew hcard
      have hmem : a ∈ unseen nodes seen := Finset.mem_filter.mpr ⟨ha, hnew⟩
      rw [Finset.card_eq_zero.mp (Nat.le_zero.mp hcard)] at hmem
      exact absurd hmem (Finset.notMem_empty a)
  | succ depth ih =>
      intro a seen ha hnew hcard
      have hlt := unseen_update_lt ha hnew
      -- the loop never has more nodes to mark than at its start
      have hloop : ∀ (as : List α) (mid : α → Bool), (∀ b ∈ as, b ∈ nodes) →
          (unseen nodes mid).card ≤ depth →
          ∃ seen', as.foldlM
            (fun seen b => if seen b then some seen else explore next depth b seen) mid =
              some seen' := by
        intro as
        induction as with
        | nil => exact fun mid _ _ => ⟨mid, rfl⟩
        | cons b as ihas =>
            intro mid hmem hmid
            have hrest : ∀ c ∈ as, c ∈ nodes := fun c hc => hmem c (List.mem_cons_of_mem _ hc)
            rw [List.foldlM_cons]
            cases hseen : mid b with
            | true =>
                rw [if_pos rfl]
                exact ihas mid hrest hmid
            | false =>
                obtain ⟨mid', hmid'⟩ := ih (hmem b List.mem_cons_self) hseen hmid
                rw [if_neg Bool.false_ne_true, hmid']
                exact ihas mid' hrest ((unseen_anti (swept_explore hmid').mono).trans hmid)
      exact hloop _ _ (hclosed a ha) (by omega)

/-- A search of a finite type comes back with a stack as deep as the type is large. -/
theorem explore_isSome_univ [Fintype α] (next : α → List α) {depth : Nat}
    (hdepth : Fintype.card α ≤ depth) (a : α) :
    ∃ seen', explore next depth a (fun _ => false) = some seen' := by
  have hclosed : ∀ a ∈ (Finset.univ : Finset α), ∀ b ∈ next a, b ∈ (Finset.univ : Finset α) :=
    fun _ _ b _ => Finset.mem_univ b
  exact explore_isSome hclosed (Finset.mem_univ a) rfl ((Finset.card_le_univ _).trans hdepth)

end NjuOs.Lib
