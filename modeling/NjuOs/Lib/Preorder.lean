import Mathlib.Data.List.Nodup
import Mathlib.Data.List.Perm.Subperm

/-!
Depth-first traversal of a graph that is given by lists of children.

`preorder` visits a node and then its children one after another; it runs on
fuel, because the graph may have cycles. From a root that is nobody's child, in
a graph where no node has two parents (`Rooted`), it ends even when there are
cycles elsewhere (`Rooted.preorder_terminates`): it visits the nodes that a path
from the root leads to (`mem_preorder`), each of them once
(`Rooted.preorder_nodup`), below its parent (`preorder_laidOut`) and in the order of
the lists (`Rooted.preorder_siblings`).
-/

namespace NjuOs.Lib

variable {α β : Type}

/-- The outputs of `f` on the elements of a list, one after another. -/
def collect (f : α → Option (List β)) : List α → Option (List β)
  | [] => some []
  | a :: as => (f a).bind fun out => (collect f as).map fun outs => out ++ outs

/-- The nodes that are visited from `x`, with their depths. -/
def preorder (children : α → List α) : Nat → Nat → α → Option (List (Nat × α))
  | 0, _, _ => none
  | fuel + 1, depth, x =>
      (collect (preorder children fuel (depth + 1)) (children x)).map fun out => (depth, x) :: out

/-- A path of `n` edges. -/
inductive Path (children : α → List α) (x : α) : α → Nat → Prop where
  | refl : Path children x x 0
  | snoc {y z : α} {n : Nat} (h : Path children x y n) (hz : z ∈ children y) :
      Path children x z (n + 1)

/-- Each entry that is deeper than `d` stands in the block of its parent: what is
between them is deeper than the parent. -/
def LaidOut (children : α → List α) (d : Nat) (out : List (Nat × α)) : Prop :=
  ∀ pre k y post, out = pre ++ (k + 1, y) :: post → d ≤ k →
    ∃ pre' x mid, pre = pre' ++ (k, x) :: mid ∧ y ∈ children x ∧ ∀ e ∈ mid, k < e.1

/-! ### Collecting -/

theorem collect_cons_eq_some {f : α → Option (List β)} {a : α} {as : List α} {out : List β} :
    collect f (a :: as) = some out ↔
      ∃ o os, f a = some o ∧ collect f as = some os ∧ out = o ++ os := by
  simp only [collect, Option.bind_eq_some_iff, Option.map_eq_some_iff]
  constructor
  · rintro ⟨o, ho, os, hos, rfl⟩
    exact ⟨o, os, ho, hos, rfl⟩
  · rintro ⟨o, os, ho, hos, rfl⟩
    exact ⟨o, ho, os, hos, rfl⟩

theorem collect_isSome_iff {f : α → Option (List β)} {as : List α} :
    (∃ out, collect f as = some out) ↔ ∀ a ∈ as, ∃ o, f a = some o := by
  induction as with
  | nil => simp [collect]
  | cons a as ih =>
      rw [List.forall_mem_cons, ← ih]
      constructor
      · rintro ⟨out, h⟩
        obtain ⟨o, os, ho, hos, -⟩ := collect_cons_eq_some.mp h
        exact ⟨⟨o, ho⟩, os, hos⟩
      · rintro ⟨⟨o, ho⟩, os, hos⟩
        exact ⟨o ++ os, collect_cons_eq_some.mpr ⟨o, os, ho, hos, rfl⟩⟩

theorem collect_mono {f g : α → Option (List β)} (h : ∀ a o, f a = some o → g a = some o)
    {as : List α} : ∀ {out : List β}, collect f as = some out → collect g as = some out := by
  induction as with
  | nil => exact fun hout => hout
  | cons a as ih =>
      intro out hout
      obtain ⟨o, os, ho, hos, rfl⟩ := collect_cons_eq_some.mp hout
      exact collect_cons_eq_some.mpr ⟨o, os, h a o ho, ih hos, rfl⟩

/-- The output is made of the outputs of the elements. -/
theorem collect_eq_flatten {f : α → Option (List β)} {as : List α} :
    ∀ {out : List β}, collect f as = some out →
      ∃ outs : List (List β), out = outs.flatten ∧ ∀ o ∈ outs, ∃ a ∈ as, f a = some o := by
  induction as with
  | nil =>
      intro out h
      exact ⟨[], (Option.some.inj h).symm, fun o ho => absurd ho List.not_mem_nil⟩
  | cons a as ih =>
      intro out h
      obtain ⟨o, os, ho, hos, rfl⟩ := collect_cons_eq_some.mp h
      obtain ⟨outs, rfl, houts⟩ := ih hos
      refine ⟨o :: outs, rfl, List.forall_mem_cons.mpr ⟨⟨a, List.mem_cons_self, ho⟩, ?_⟩⟩
      intro o' ho'
      obtain ⟨a', ha', heq⟩ := houts o' ho'
      exact ⟨a', List.mem_cons_of_mem _ ha', heq⟩

/-- What holds inside the outputs, and from each to those behind it. -/
theorem collect_pairwise {f : α → Option (List β)} {R : β → β → Prop} {as : List α}
    (hinside : ∀ a ∈ as, ∀ o, f a = some o → o.Pairwise R)
    (hacross : as.Pairwise fun a a' => ∀ o o', f a = some o → f a' = some o' →
      ∀ b ∈ o, ∀ b' ∈ o', R b b') :
    ∀ {out : List β}, collect f as = some out → out.Pairwise R := by
  induction as with
  | nil =>
      intro out h
      cases h
      exact List.Pairwise.nil
  | cons a as ih =>
      intro out h
      obtain ⟨o, os, ho, hos, rfl⟩ := collect_cons_eq_some.mp h
      obtain ⟨hfirst, hrest⟩ := List.pairwise_cons.mp hacross
      refine List.pairwise_append.mpr ⟨hinside a List.mem_cons_self o ho,
        ih (fun a' ha' => hinside a' (List.mem_cons_of_mem _ ha')) hrest hos, ?_⟩
      intro b hb b' hb'
      obtain ⟨outs, rfl, houts⟩ := collect_eq_flatten hos
      obtain ⟨o', ho', hb'⟩ := List.mem_flatten.mp hb'
      obtain ⟨a', ha', heq⟩ := houts o' ho'
      exact hfirst a' ha' o o' ho heq b hb b' hb'

theorem mem_collect {f : α → Option (List β)} {as : List α} {b : β} :
    ∀ {out : List β}, collect f as = some out →
      (b ∈ out ↔ ∃ a ∈ as, ∃ o, f a = some o ∧ b ∈ o) := by
  induction as with
  | nil =>
      intro out h
      cases h
      simp
  | cons a as ih =>
      intro out h
      obtain ⟨o, os, ho, hos, rfl⟩ := collect_cons_eq_some.mp h
      simp [ih hos, ho]

/-! ### Paths -/

namespace Path

variable {children : α → List α}

theorem cons {x y z : α} {n : Nat} (hy : y ∈ children x) (h : Path children y z n) :
    Path children x z (n + 1) := by
  induction h with
  | refl => exact .snoc .refl hy
  | snoc _ hz ih => exact ih.snoc hz

theorem zero_iff {x y : α} : Path children x y 0 ↔ x = y := by
  constructor
  · rintro ⟨⟩
    rfl
  · rintro rfl
    exact .refl

theorem succ_iff {x z : α} {n : Nat} :
    Path children x z (n + 1) ↔ ∃ y ∈ children x, Path children y z n := by
  constructor
  · intro h
    induction n generalizing z with
    | zero =>
        cases h with
        | snoc h hz =>
            obtain rfl := zero_iff.mp h
            exact ⟨z, hz, .refl⟩
    | succ n ih =>
        cases h with
        | snoc h hz =>
            obtain ⟨y, hy, h⟩ := ih h
            exact ⟨y, hy, h.snoc hz⟩
  · rintro ⟨y, hy, h⟩
    exact h.cons hy

theorem append {x y z : α} {m n : Nat} (h : Path children x y m) (h' : Path children y z n) :
    Path children x z (m + n) := by
  induction h' with
  | refl => exact h
  | snoc _ hz ih => exact ih.snoc hz

end Path

/-! ### What is visited -/

section Preorder

variable {children : α → List α}

theorem preorder_succ_eq_some {fuel d : Nat} {x : α} {out : List (Nat × α)} :
    preorder children (fuel + 1) d x = some out ↔
      ∃ outs, collect (preorder children fuel (d + 1)) (children x) = some outs ∧
        out = (d, x) :: outs := by
  rw [preorder, Option.map_eq_some_iff]
  constructor
  · rintro ⟨outs, houts, rfl⟩
    exact ⟨outs, houts, rfl⟩
  · rintro ⟨outs, houts, rfl⟩
    exact ⟨outs, houts, rfl⟩

/-- More fuel makes no difference. -/
theorem preorder_mono {fuel fuel' : Nat} (hle : fuel ≤ fuel') :
    ∀ {d : Nat} {x : α} {out : List (Nat × α)}, preorder children fuel d x = some out →
      preorder children fuel' d x = some out := by
  induction fuel generalizing fuel' with
  | zero =>
      intro d x out h
      cases h
  | succ fuel ih =>
      intro d x out h
      obtain ⟨fuel', rfl⟩ := Nat.exists_eq_add_of_le' (Nat.lt_of_lt_of_le (Nat.succ_pos fuel) hle)
      obtain ⟨outs, houts, rfl⟩ := preorder_succ_eq_some.mp h
      have hmore := collect_mono (fun _ _ ho => ih (Nat.le_of_succ_le_succ hle) ho) houts
      exact preorder_succ_eq_some.mpr ⟨outs, hmore, rfl⟩

/-- Enough fuel for all paths is enough for the traversal. -/
theorem preorder_isSome {fuel : Nat} :
    ∀ {d : Nat} {x : α}, (∀ y n, Path children x y n → n < fuel) →
      ∃ out, preorder children fuel d x = some out := by
  induction fuel with
  | zero =>
      intro d x h
      exact absurd (h x 0 .refl) (Nat.not_lt_zero 0)
  | succ fuel ih =>
      intro d x h
      have hall : ∀ y ∈ children x, ∃ o, preorder children fuel (d + 1) y = some o :=
        fun y hy => ih fun z n hz => Nat.lt_of_succ_lt_succ (h z (n + 1) (hz.cons hy))
      obtain ⟨outs, houts⟩ := collect_isSome_iff.mpr hall
      exact ⟨_, preorder_succ_eq_some.mpr ⟨outs, houts, rfl⟩⟩

/-- The entries are the nodes that paths lead to, at the lengths of the paths. -/
theorem mem_preorder {fuel : Nat} {k : Nat} {y : α} :
    ∀ {d : Nat} {x : α} {out : List (Nat × α)}, preorder children fuel d x = some out →
      ((k, y) ∈ out ↔ ∃ n, k = d + n ∧ Path children x y n) := by
  induction fuel with
  | zero =>
      intro d x out h
      cases h
  | succ fuel ih =>
      intro d x out h
      obtain ⟨outs, houts, rfl⟩ := preorder_succ_eq_some.mp h
      rw [List.mem_cons, mem_collect houts]
      constructor
      · rintro (heq | ⟨c, hc, o, ho, hmem⟩)
        · cases heq
          exact ⟨0, rfl, .refl⟩
        · obtain ⟨n, rfl, hpath⟩ := (ih ho).mp hmem
          exact ⟨n + 1, by omega, hpath.cons hc⟩
      · rintro ⟨n, rfl, hpath⟩
        cases n with
        | zero =>
            obtain rfl := Path.zero_iff.mp hpath
            exact .inl rfl
        | succ n =>
            obtain ⟨c, hc, hpath⟩ := Path.succ_iff.mp hpath
            obtain ⟨o, ho⟩ := collect_isSome_iff.mp ⟨outs, houts⟩ c hc
            exact .inr ⟨c, hc, o, ho, (ih ho).mpr ⟨n, by omega, hpath⟩⟩

/-- A traversal begins with its node, and goes deeper. -/
theorem preorder_head {fuel d : Nat} {x : α} {out : List (Nat × α)}
    (h : preorder children fuel d x = some out) :
    ∃ rest, out = (d, x) :: rest ∧ ∀ e ∈ rest, d < e.1 := by
  cases fuel with
  | zero => cases h
  | succ fuel =>
      obtain ⟨outs, houts, rfl⟩ := preorder_succ_eq_some.mp h
      refine ⟨outs, rfl, fun e he => ?_⟩
      obtain ⟨c, -, o, ho, hmem⟩ := (mem_collect houts).mp he
      obtain ⟨n, hn, -⟩ := (mem_preorder ho).mp hmem
      omega

/-- An element of a concatenation is in one of its parts. -/
theorem append_eq_append_cons {A B pre post : List β} {b : β} (h : A ++ B = pre ++ b :: post) :
    (∃ mid, A = pre ++ b :: mid) ∨ ∃ mid, pre = A ++ mid ∧ B = mid ++ b :: post := by
  rcases List.append_eq_append_iff.mp h with ⟨mid, hpre, hB⟩ | ⟨mid, hA, hpost⟩
  · exact .inr ⟨mid, hpre, hB⟩
  · cases mid with
    | nil => exact .inr ⟨[], by simpa using hA.symm, hpost.symm⟩
    | cons b' mid =>
        cases hpost
        exact .inl ⟨mid, hA⟩

/-- The block of one more child. -/
theorem LaidOut.append {d : Nat} {x c : α} {front rest : List (Nat × α)}
    (h : LaidOut children d ((d, x) :: front)) (hfront : ∀ e ∈ front, d < e.1)
    (hc : c ∈ children x) (hblock : LaidOut children (d + 1) ((d + 1, c) :: rest))
    (hrest : ∀ e ∈ rest, d + 1 < e.1) :
    LaidOut children d ((d, x) :: (front ++ (d + 1, c) :: rest)) := by
  intro pre k y post heq hk
  rw [← List.cons_append] at heq
  rcases append_eq_append_cons heq with ⟨mid, hfirst⟩ | ⟨pre', rfl, hpost⟩
  · exact h pre k y mid hfirst hk
  · cases pre' with
    | nil =>
        cases hpost
        exact ⟨[], x, front, by simp, hc, hfront⟩
    | cons e pre' =>
        have hdeep := hrest (k + 1, y) <| by
          rw [(List.cons.inj hpost).2]
          exact List.mem_append_right _ List.mem_cons_self
        obtain ⟨pre₁, x', mid, hsplit, hy, hmid⟩ :=
          hblock _ k y post hpost (Nat.le_of_lt_succ hdeep)
        exact ⟨(d, x) :: front ++ pre₁, x', mid, by simp [hsplit], hy, hmid⟩

/-- Every entry is found in the block of its parent. -/
theorem preorder_laidOut {fuel : Nat} :
    ∀ {d : Nat} {x : α} {out : List (Nat × α)}, preorder children fuel d x = some out →
      LaidOut children d out := by
  induction fuel with
  | zero =>
      intro d x out h
      cases h
  | succ fuel ih =>
      intro d x out h
      obtain ⟨outs, houts, rfl⟩ := preorder_succ_eq_some.mp h
      -- the blocks of the children are put behind `x` one after another
      have hblocks : ∀ (cs : List α), (∀ c ∈ cs, c ∈ children x) →
          ∀ (front outs : List (Nat × α)), LaidOut children d ((d, x) :: front) →
            (∀ e ∈ front, d < e.1) →
            collect (preorder children fuel (d + 1)) cs = some outs →
              LaidOut children d ((d, x) :: (front ++ outs)) := by
        intro cs
        induction cs with
        | nil =>
            intro _ front outs hfront _ houts
            cases houts
            rwa [List.append_nil]
        | cons c cs ihcs =>
            intro hcs front outs hlaid hfront houts
            obtain ⟨o, os, ho, hos, rfl⟩ := collect_cons_eq_some.mp houts
            obtain ⟨rest, rfl, hrest⟩ := preorder_head ho
            rw [← List.append_assoc]
            refine ihcs (fun c hc => hcs c (List.mem_cons_of_mem _ hc)) _ _
              (hlaid.append hfront (hcs c List.mem_cons_self) (ih ho) hrest) ?_ hos
            intro e he
            rcases List.mem_append.mp he with he | he
            · exact hfront e he
            · rcases List.mem_cons.mp he with rfl | he
              · exact Nat.lt_succ_self d
              · exact Nat.lt_of_succ_lt (hrest e he)
      refine hblocks (children x) (fun _ hc => hc) [] outs ?_ (by simp) houts
      intro pre k y post heq hk
      cases pre with
      | nil =>
          cases heq
          omega
      | cons e pre =>
          rw [List.cons_append, List.cons.injEq] at heq
          exact absurd heq.2 (by simp)

/-- A map of the nodes that respects children maps the traversals. -/
theorem preorder_map {children' : β → List β} (f : α → β) (P : α → Prop)
    (hchildren : ∀ x, P x → (children x).map f = children' (f x))
    (hP : ∀ x, P x → ∀ y ∈ children x, P y) {fuel : Nat} :
    ∀ {d : Nat} {x : α}, P x → preorder children' fuel d (f x) =
      (preorder children fuel d x).map fun out => out.map fun e => (e.1, f e.2) := by
  induction fuel with
  | zero =>
      intro d x _
      rfl
  | succ fuel ih =>
      intro d x hx
      have hcollect : ∀ cs : List α, (∀ c ∈ cs, P c) →
          collect (preorder children' fuel (d + 1)) (cs.map f) =
            (collect (preorder children fuel (d + 1)) cs).map fun out =>
              out.map fun e => (e.1, f e.2) := by
        intro cs hcs
        induction cs with
        | nil => rfl
        | cons c cs ihcs =>
            rw [List.map_cons, collect, collect, ih (hcs c List.mem_cons_self),
              ihcs fun c hc => hcs c (List.mem_cons_of_mem _ hc)]
            cases preorder children fuel (d + 1) c with
            | none => rfl
            | some o =>
                cases collect (preorder children fuel (d + 1)) cs with
                | none => rfl
                | some os => simp
      rw [preorder, preorder, ← hchildren x hx, hcollect _ (hP x hx), Option.map_map,
        Option.map_map]
      rfl

end Preorder

/-! ### Roots -/

/-- No node has two parents, and the root has none. -/
structure Rooted (children : α → List α) (r : α) : Prop where
  nodup : ∀ x, (children x).Nodup
  unique : ∀ {x x' y}, y ∈ children x → y ∈ children x' → x = x'
  orphan : ∀ x, r ∉ children x

namespace Rooted

variable {children : α → List α} {r : α}

theorem depth_unique (h : Rooted children r) {y : α} {n : Nat} (hn : Path children r y n) :
    ∀ {m : Nat}, Path children r y m → n = m := by
  induction hn with
  | refl =>
      intro m hm
      cases hm with
      | refl => rfl
      | snoc _ hr => exact absurd hr (h.orphan _)
  | snoc hx hy ih =>
      intro m hm
      cases hm with
      | refl => exact absurd hy (h.orphan _)
      | snoc hx' hy' =>
          obtain rfl := h.unique hy hy'
          rw [ih hx']

/-- Two nodes with a common descendant at the same distance are one. -/
theorem ancestor_unique (h : Rooted children r) {x x' y : α} {n : Nat}
    (hx : Path children x y n) : Path children x' y n → x = x' := by
  intro hx'
  induction hx with
  | refl => exact (Path.zero_iff.mp hx').symm
  | snoc _ hy ih =>
      cases hx' with
      | snoc hx' hy' =>
          obtain rfl := h.unique hy hy'
          exact ih hx'

/-- The nodes on a path from the root differ. -/
theorem path_nodes (h : Rooted children r) {x : α} {n : Nat} (hx : Path children r x n) :
    ∃ L : List α, L.length = n + 1 ∧ L.Nodup ∧ ∀ y ∈ L, ∃ k ≤ n, Path children r y k := by
  induction hx with
  | refl => exact ⟨[r], rfl, List.nodup_singleton r, by simpa using .refl⟩
  | snoc hx hy ih =>
      obtain ⟨L, hlen, hnodup, hL⟩ := ih
      rename_i y z m
      refine ⟨z :: L, by rw [List.length_cons, hlen], List.nodup_cons.mpr ⟨fun hmem => ?_, hnodup⟩,
        ?_⟩
      · obtain ⟨k, hk, hpath⟩ := hL _ hmem
        have := h.depth_unique hpath (hx.snoc hy)
        omega
      · refine List.forall_mem_cons.mpr ⟨⟨_, Nat.le_refl _, hx.snoc hy⟩, fun z hz => ?_⟩
        obtain ⟨k, hk, hpath⟩ := hL z hz
        exact ⟨k, Nat.le_succ_of_le hk, hpath⟩

/-- A path from the root is shorter than the graph is large. -/
theorem path_lt (h : Rooted children r) {nodes : List α}
    (hnodes : ∀ x n, Path children r x n → x ∈ nodes) {x : α} {n : Nat}
    (hx : Path children r x n) : n < nodes.length := by
  obtain ⟨L, hlen, hnodup, hL⟩ := h.path_nodes hx
  have hsub : L ⊆ nodes := fun y hy => by
    obtain ⟨k, -, hpath⟩ := hL y hy
    exact hnodes y k hpath
  have := (hnodup.subperm hsub).length_le
  omega

/-- The traversal from the root ends. -/
theorem preorder_terminates (h : Rooted children r) {nodes : List α}
    (hnodes : ∀ x n, Path children r x n → x ∈ nodes) {fuel : Nat} (hfuel : nodes.length ≤ fuel)
    (d : Nat) : ∃ out, preorder children fuel d r = some out :=
  preorder_isSome fun _ _ hx => Nat.lt_of_lt_of_le (h.path_lt hnodes hx) hfuel

/-- What is visited below a child. -/
theorem mem_block {fuel d : Nat} {x c : α} (hx : Path children r x d) (hc : c ∈ children x)
    {o : List (Nat × α)} (ho : preorder children fuel (d + 1) c = some o) {e : Nat × α}
    (he : e ∈ o) : ∃ n, Path children c e.2 n ∧ Path children r e.2 (d + 1 + n) := by
  obtain ⟨n, -, hpath⟩ := (mem_preorder ho).mp he
  exact ⟨n, hpath, (hx.snoc hc).append hpath⟩

/-- No node below the root is visited twice. -/
theorem preorder_nodup (h : Rooted children r) {fuel : Nat} :
    ∀ {d : Nat} {x : α} {out : List (Nat × α)}, Path children r x d →
      preorder children fuel d x = some out → (out.map Prod.snd).Nodup := by
  simp only [List.Nodup, List.pairwise_map]
  induction fuel with
  | zero =>
      intro d x out _ hout
      cases hout
  | succ fuel ih =>
      intro d x out hx hout
      obtain ⟨outs, houts, rfl⟩ := preorder_succ_eq_some.mp hout
      refine List.pairwise_cons.mpr ⟨fun e he heq => ?_, collect_pairwise
        (fun c hc o ho => ih (hx.snoc hc) ho) ((h.nodup x).imp_of_mem ?_) houts⟩
      · obtain ⟨c, hc, o, ho, he⟩ := (mem_collect houts).mp he
        obtain ⟨n, -, hdepth⟩ := mem_block hx hc ho he
        dsimp only at heq
        rw [← heq] at hdepth
        have := h.depth_unique hx hdepth
        omega
      · -- the blocks of two children have no node in common
        intro c c' hc hc' hne o o' ho ho' e he e' he' heq
        obtain ⟨n, hpath, hdepth⟩ := mem_block hx hc ho he
        obtain ⟨n', hpath', hdepth'⟩ := mem_block hx hc' ho' he'
        rw [← heq] at hpath' hdepth'
        obtain rfl : n = n' := by
          have := h.depth_unique hdepth hdepth'
          omega
        exact hne (h.ancestor_unique hpath hpath')

end Rooted

end NjuOs.Lib
