import Mathlib.Tactic.ByContra

/-!
Regions of memory that are tiled by blocks.

`Tiling R B ext` says that the blocks `B`, each an address with an extent, cover
the regions `R` without gap or overlap. `Tiling.append` adds a region as one
block and `Tiling.split` cuts a block in two; any layout an allocator carves is
made of these.
-/

namespace NjuOs.Lib

/-- A range of addresses. -/
structure Region where
  start : Nat
  len : Nat
deriving DecidableEq, Repr

/-- The two ranges have no address in common. -/
def Region.Apart (r r' : Region) : Prop := r.start + r.len ≤ r'.start ∨ r'.start + r'.len ≤ r.start

instance (r r' : Region) : Decidable (r.Apart r') := inferInstanceAs (Decidable (_ ∨ _))

/-- The blocks tile the regions. -/
structure Tiling (R : List Region) (B : Nat → Prop) (ext : Nat → Nat) : Prop where
  pos : ∀ b, B b → 0 < ext b
  inside : ∀ b, B b → ∃ r ∈ R, r.start ≤ b ∧ b + ext b ≤ r.start + r.len
  disjoint : ∀ b c, B b → B c → ∀ x, b ≤ x → x < b + ext b → c ≤ x → x < c + ext c → b = c
  cover : ∀ r ∈ R, ∀ x, r.start ≤ x → x < r.start + r.len → ∃ b, B b ∧ b ≤ x ∧ x < b + ext b

namespace Tiling

variable {R : List Region} {B : Nat → Prop} {ext : Nat → Nat}

theorem empty (ext : Nat → Nat) : Tiling [] (fun _ => False) ext where
  pos _ hb := hb.elim
  inside _ hb := hb.elim
  disjoint _ _ hb := hb.elim
  cover _ hr := (nomatch hr)

theorem congr (h : Tiling R B ext) {B' : Nat → Prop} {ext' : Nat → Nat} (hB : ∀ b, B' b ↔ B b)
    (hext : ∀ b, B b → ext' b = ext b) : Tiling R B' ext' where
  pos b hb := by
    rw [hB] at hb
    rw [hext b hb]
    exact h.pos b hb
  inside b hb := by
    rw [hB] at hb
    rw [hext b hb]
    exact h.inside b hb
  disjoint b c hb hc x := by
    rw [hB] at hb hc
    rw [hext b hb, hext c hc]
    exact h.disjoint b c hb hc x
  cover r hr x hx hx' := by
    obtain ⟨b, hb, hle, hlt⟩ := h.cover r hr x hx hx'
    exact ⟨b, (hB b).mpr hb, hle, by rwa [hext b hb]⟩

/-- Two blocks have no address in common. -/
theorem apart (h : Tiling R B ext) {b c : Nat} (hb : B b) (hc : B c) (hne : b ≠ c) :
    b + ext b ≤ c ∨ c + ext c ≤ b := by
  have hb0 := h.pos b hb
  have hc0 := h.pos c hc
  by_contra hover
  rcases Nat.le_total b c with hle | hle
  · exact hne (h.disjoint b c hb hc c hle (by omega) (Nat.le_refl _) (by omega))
  · exact hne (h.disjoint b c hb hc b (Nat.le_refl _) (by omega) hle (by omega))

/-- A new region is one block. -/
theorem append (h : Tiling R B ext) {r : Region} (hlen : 0 < r.len)
    (hfresh : ∀ r' ∈ R, r.Apart r') :
    Tiling (R ++ [r]) (fun b => B b ∨ b = r.start)
      (fun b => if b = r.start then r.len else ext b) := by
  -- no old block reaches into the new region
  have hold : ∀ b, B b → b + ext b ≤ r.start ∨ r.start + r.len ≤ b := by
    intro b hb
    have hpos := h.pos b hb
    obtain ⟨r', hr', hle, hlt⟩ := h.inside b hb
    rcases hfresh r' hr' with hap | hap <;> omega
  have hne : ∀ b, B b → b ≠ r.start := by
    intro b hb heq
    have hpos := h.pos b hb
    rcases hold b hb with hap | hap <;> omega
  constructor
  case pos =>
    rintro b (hb | rfl)
    · rw [if_neg (hne b hb)]
      exact h.pos b hb
    · rwa [if_pos rfl]
  case inside =>
    rintro b (hb | rfl)
    · obtain ⟨r', hr', hin⟩ := h.inside b hb
      rw [if_neg (hne b hb)]
      exact ⟨r', List.mem_append_left _ hr', hin⟩
    · rw [if_pos rfl]
      exact ⟨r, List.mem_append_right _ (List.mem_singleton.mpr rfl), Nat.le_refl _, Nat.le_refl _⟩
  case disjoint =>
    rintro b c (hb | rfl) (hc | rfl) x
    · rw [if_neg (hne b hb), if_neg (hne c hc)]
      exact h.disjoint b c hb hc x
    · rw [if_neg (hne b hb), if_pos rfl]
      have := hold b hb
      omega
    · rw [if_neg (hne c hc), if_pos rfl]
      have := hold c hc
      omega
    · exact fun _ _ _ _ => rfl
  case cover =>
    intro r' hr' x hx hx'
    rcases List.mem_append.mp hr' with hr' | hr'
    · obtain ⟨b, hb, hin⟩ := h.cover r' hr' x hx hx'
      exact ⟨b, .inl hb, by rwa [if_neg (hne b hb)]⟩
    · rw [List.mem_singleton.mp hr'] at hx hx'
      exact ⟨r.start, .inr rfl, hx, by rwa [if_pos rfl]⟩

/-- A block cut in two. -/
theorem split (h : Tiling R B ext) {b m : Nat} (hb : B b) (hm : 0 < m) (hlt : m < ext b) :
    Tiling R (fun c => B c ∨ c = b + m)
      (fun c => if c = b then m else if c = b + m then ext b - m else ext c) := by
  have hnew : ∀ c, B c → c ≠ b + m := by
    rintro c hc rfl
    have hpos := h.pos _ hc
    have := h.disjoint b _ hb hc (b + m) (by omega) (by omega) (Nat.le_refl _) (by omega)
    omega
  have hself : b + m ≠ b := by omega
  constructor
  case pos =>
    rintro c (hc | rfl)
    · rw [if_neg (hnew c hc)]
      split
      · exact hm
      · exact h.pos c hc
    · rw [if_neg hself, if_pos rfl]
      omega
  case inside =>
    obtain ⟨r, hr, hle, hin⟩ := h.inside b hb
    rintro c (hc | rfl)
    · rw [if_neg (hnew c hc)]
      split
      · next heq =>
        subst heq
        exact ⟨r, hr, hle, by omega⟩
      · exact h.inside c hc
    · rw [if_neg hself, if_pos rfl]
      exact ⟨r, hr, by omega, by omega⟩
  case disjoint =>
    rintro c d (hc | rfl) (hd | rfl) x
    · rw [if_neg (hnew c hc), if_neg (hnew d hd)]
      intro h1 h2 h3 h4
      have hcx : x < c + ext c := by
        split at h2
        · next heq => subst heq; omega
        · exact h2
      have hdx : x < d + ext d := by
        split at h4
        · next heq => subst heq; omega
        · exact h4
      exact h.disjoint c d hc hd x h1 hcx h3 hdx
    · rw [if_neg (hnew c hc), if_neg hself, if_pos rfl]
      intro h1 h2 h3 h4
      exfalso
      split at h2
      · omega
      · next hne => exact hne (h.disjoint c b hc hb x h1 h2 (by omega) (by omega))
    · rw [if_neg (hnew d hd), if_neg hself, if_pos rfl]
      intro h1 h2 h3 h4
      exfalso
      split at h4
      · omega
      · next hne => exact hne (h.disjoint d b hd hb x h3 h4 (by omega) (by omega))
    · exact fun _ _ _ _ => rfl
  case cover =>
    intro r hr x hx hx'
    obtain ⟨c, hc, hle, hin⟩ := h.cover r hr x hx hx'
    by_cases heq : c = b
    · subst heq
      by_cases hleft : x < c + m
      · exact ⟨c, .inl hc, hle, by rwa [if_pos rfl]⟩
      · refine ⟨c + m, .inr rfl, by omega, ?_⟩
        rw [if_neg hself, if_pos rfl]
        omega
    · exact ⟨c, .inl hc, hle, by rwa [if_neg heq, if_neg (hnew c hc)]⟩

end Tiling

end NjuOs.Lib
