import Mathlib.Data.List.Nodup
import Mathlib.Logic.Function.Basic

/-!
Singly linked lists in a memory.

`Linked next p L` says that the nodes reached from `p` are `L`, in order, up to
the null pointer. Such a list is finite and acyclic by definition, and a memory
holds at most one list from a pointer (`Linked.unique`). The edits of an
allocator are `Linked.push` and `Linked.unlink`; both leave the lists alone that
do not contain the node they write to (`Linked.congr`). `seek` is the search
loop with a trailing pointer, and `seek_cases` what it finds.
-/

namespace NjuOs.Lib

variable {α : Type} {null : α} {next next' : α → α}

/-- The nodes from `p` on are the elements of a list. -/
def Linked (null : α) (next : α → α) : α → List α → Prop
  | p, [] => p = null
  | p, b :: L => p = b ∧ b ≠ null ∧ Linked null next (next b) L

/-- The node `b` is met on the way from `p` to the null pointer. -/
inductive OnList (null : α) (next : α → α) : α → α → Prop where
  | here {p : α} (h : p ≠ null) : OnList null next p p
  | later {p b : α} (h : p ≠ null) (hb : OnList null next (next p) b) : OnList null next p b

namespace Linked

theorem unique {L L' : List α} :
    ∀ {p : α}, Linked null next p L → Linked null next p L' → L = L' := by
  induction L generalizing L' with
  | nil =>
      intro p h h'
      cases L' with
      | nil => rfl
      | cons b L' => exact absurd (h'.1.symm.trans h) h'.2.1
  | cons b L ih =>
      intro p h h'
      cases L' with
      | nil => exact absurd (h.1.symm.trans h') h.2.1
      | cons b' L' =>
          obtain ⟨rfl, -, h⟩ := h
          obtain ⟨rfl, -, h'⟩ := h'
          rw [ih h h']

theorem suffix {pre post : List α} :
    ∀ {p b : α}, Linked null next p (pre ++ b :: post) → Linked null next b (b :: post) := by
  induction pre with
  | nil => rintro p b ⟨rfl, h⟩; exact ⟨rfl, h⟩
  | cons a pre ih => rintro p b ⟨-, -, h⟩; exact ih h

/-- A linked list does not meet a node twice. -/
theorem nodup {L : List α} : ∀ {p : α}, Linked null next p L → L.Nodup := by
  induction L with
  | nil => intro p _; exact List.nodup_nil
  | cons b L ih =>
      intro p h
      refine List.nodup_cons.mpr ⟨fun hmem => ?_, ih h.2.2⟩
      obtain ⟨pre, post, rfl⟩ := List.append_of_mem hmem
      have hwhole : Linked null next b (b :: (pre ++ b :: post)) := ⟨rfl, h.2⟩
      have hlen := congrArg List.length (unique h.2.2.suffix hwhole)
      simp at hlen
      omega

theorem ne_null {L : List α} : ∀ {p : α}, Linked null next p L → ∀ b ∈ L, b ≠ null := by
  induction L with
  | nil => intro p _ b hb; cases hb
  | cons a L ih =>
      intro p h b hb
      rcases List.mem_cons.mp hb with rfl | hb
      · exact h.2.1
      · exact ih h.2.2 b hb

/-- Writing to other nodes leaves a list alone. -/
theorem congr {L : List α} :
    ∀ {p : α}, Linked null next p L → (∀ b ∈ L, next' b = next b) → Linked null next' p L := by
  induction L with
  | nil => intro p h _; exact h
  | cons b L ih =>
      intro p h hsame
      refine ⟨h.1, h.2.1, ?_⟩
      rw [hsame b List.mem_cons_self]
      exact ih h.2.2 fun c hc => hsame c (List.mem_cons_of_mem _ hc)

/-- A new node in front of a list. -/
theorem push {L : List α} {p b : α} (h : Linked null next p L) (hb : b ∉ L) (hne : b ≠ null)
    (hnext : next' b = p) (hsame : ∀ c, c ≠ b → next' c = next c) :
    Linked null next' b (b :: L) := by
  refine ⟨rfl, hne, ?_⟩
  rw [hnext]
  exact h.congr fun c hc => hsame c fun heq => hb (heq ▸ hc)

/-- A node behind another one is taken out. -/
theorem unlink {pre post : List α} {a b : α} :
    ∀ {p : α}, Linked null next p (pre ++ a :: b :: post) → next' a = next b →
      (∀ c, c ≠ a → next' c = next c) → Linked null next' p (pre ++ a :: post) := by
  induction pre with
  | nil =>
      rintro p h hnext hsame
      have hnodup := h.nodup
      obtain ⟨rfl, hp, rfl, -, h⟩ := h
      refine ⟨rfl, hp, ?_⟩
      rw [hnext]
      refine h.congr fun c hc => hsame c ?_
      rintro rfl
      exact (List.nodup_cons.mp hnodup).1 (List.mem_cons_of_mem _ hc)
  | cons c pre ih =>
      intro p h hnext hsame
      have hne : c ≠ a := by
        rintro rfl
        exact (List.nodup_cons.mp h.nodup).1 (List.mem_append_right _ List.mem_cons_self)
      refine ⟨h.1, h.2.1, ?_⟩
      rw [hsame c hne]
      exact ih h.2.2 hnext hsame

theorem onList_iff {L : List α} {b : α} :
    ∀ {p : α}, Linked null next p L → (OnList null next p b ↔ b ∈ L) := by
  induction L with
  | nil =>
      rintro p rfl
      exact iff_of_false (fun h => by cases h <;> contradiction) List.not_mem_nil
  | cons a L ih =>
      rintro p ⟨rfl, hne, h⟩
      rw [List.mem_cons, ← ih h]
      constructor
      · intro hb
        cases hb with
        | here _ => exact .inl rfl
        | later _ hb => exact .inr hb
      · rintro (rfl | hb)
        · exact .here hne
        · exact .later hne hb

end Linked

/-! ### Searching -/

variable [DecidableEq α]

/-- The search loop: the first node that is a hit, or the null pointer, and the
node before it. `none` when the loop does not end within the fuel. -/
def seek (null : α) (next : α → α) (hit : α → Bool) : Nat → α → α → Option (α × α)
  | 0, _, _ => none
  | fuel + 1, prev, curr =>
      if curr = null then some (prev, curr)
      else if hit curr then some (prev, curr)
      else seek null next hit fuel curr (next curr)

theorem seek_cases {hit : α → Bool} {L : List α} :
    ∀ {fuel : Nat} {prev curr : α}, Linked null next curr L → L.length < fuel →
      (∃ last, seek null next hit fuel prev curr = some (last, null) ∧
        ∀ b ∈ L, hit b = false) ∨
      ∃ pre b post, L = pre ++ b :: post ∧ hit b = true ∧ (∀ c ∈ pre, hit c = false) ∧
        seek null next hit fuel prev curr =
          some ((prev :: pre).getLast (List.cons_ne_nil _ _), b) := by
  induction L with
  | nil =>
      rintro fuel prev curr rfl hfuel
      obtain ⟨fuel, rfl⟩ := Nat.exists_eq_succ_of_ne_zero (Nat.ne_of_gt hfuel)
      exact .inl ⟨prev, if_pos rfl, fun b hb => (nomatch hb)⟩
  | cons a L ih =>
      rintro fuel prev curr ⟨rfl, hne, h⟩ hfuel
      obtain ⟨fuel, rfl⟩ := Nat.exists_eq_succ_of_ne_zero (Nat.ne_of_gt (Nat.zero_lt_of_lt hfuel))
      by_cases hhit : hit curr = true
      · refine .inr ⟨[], curr, L, rfl, hhit, fun c hc => (nomatch hc), ?_⟩
        rw [seek, if_neg hne, if_pos hhit]
        rfl
      · have hmiss : hit curr = false := by simpa using hhit
        have hstep : seek null next hit (fuel + 1) prev curr =
            seek null next hit fuel curr (next curr) := by
          rw [seek, if_neg hne, if_neg hhit]
        rw [hstep]
        rcases @ih fuel curr _ h (Nat.lt_of_succ_lt_succ hfuel) with
          ⟨last, hseek, hall⟩ | ⟨pre, b, post, rfl, hb, hpre, hseek⟩
        · exact .inl ⟨last, hseek, List.forall_mem_cons.mpr ⟨hmiss, hall⟩⟩
        · refine .inr ⟨curr :: pre, b, post, rfl, hb, List.forall_mem_cons.mpr ⟨hmiss, hpre⟩, ?_⟩
          rw [hseek, List.getLast_cons (List.cons_ne_nil _ _)]

end NjuOs.Lib
