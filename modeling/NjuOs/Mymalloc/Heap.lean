import NjuOs.Lib.Ledger
import NjuOs.Mymalloc.Basic

/-!
The ledger behind the heap.

`HeapOk` and `ThreadOk` tie a state to a ledger of its blocks: the lists, the
grants and the threads inside `mymalloc` each have the blocks that the ledger
places there. `Rep` leaves out the clause of one thread, so that its step can be
taken apart into writes, pushes, takes and returns; each of these has one lemma.
With `lossy` the ledger may place blocks in no list at all.
-/

namespace NjuOs.Mymalloc

open NjuOs.Lib

/-! ### Places -/

/-- The lists of free blocks. -/
inductive FreeList where
  | heap (h : Nat)
  | global
deriving DecidableEq, Repr

/-- Where a block is: in a list, with a caller, in the hands of a thread that is
inside `mymalloc`, or nowhere. -/
inductive Place where
  | free (f : FreeList)
  | out
  | held (tid : Nat)
  | lost
deriving DecidableEq, Repr

abbrev Blocks := Ledger Place structSize 8

def State.first (s : State) : FreeList → Nat
  | .heap h => s.head h
  | .global => s.globalFreeList

def State.length (s : State) (b : Nat) : Nat := (s.mem b).length

/-- The blocks that a thread has taken or made, and not yet put anywhere. -/
def Pc.held : Pc → List Nat
  | .lockPushRemain _ remain | .pushRemain _ remain => [remain]
  | .lockSplit curr newRemain | .pushSplit curr newRemain => [curr, newRemain]
  | .returnLocal curr | .unlockSplit curr | .setLength curr | .unlockGlobal (some curr) => [curr]
  | _ => []

/-- The block whose header still has its length from before the split. -/
def Pc.splitting : Pc → Option Nat
  | .lockSplit curr _ | .pushSplit curr _ | .unlockSplit curr | .setLength curr => some curr
  | _ => none

/-- The block that is about to be returned. -/
def Pc.ready : Pc → Option Nat
  | .returnLocal curr | .unlockGlobal (some curr) => some curr
  | _ => none

theorem Pc.held_of_splitting {pc : Pc} {b : Nat} (h : pc.splitting = some b) : b ∈ pc.held := by
  cases pc <;> cases h <;> exact List.mem_cons_self

theorem Pc.held_eq_of_ready {pc : Pc} {b : Nat} (h : pc.ready = some b) :
    pc.held = [b] ∧ pc.splitting = none := by
  unfold Pc.ready at h
  split at h <;> cases h <;> exact ⟨rfl, rfl⟩

theorem Pc.held_of_ready {pc : Pc} {b : Nat} (h : pc.ready = some b) : b ∈ pc.held := by
  rw [(held_eq_of_ready h).1]
  exact List.mem_cons_self

/-! ### What the ledger says of a state -/

/-- The rounding of the request does not wrap around. -/
def Unwrapped (request : Nat) : Prop :=
  request + 7 < sizeMod ∧ align8 request + structSize + 4095 < sizeMod

/-- A thread holds the blocks that its program counter names. -/
structure ThreadOk (l : Blocks) (length : Nat → Nat) (t : Nat) (thread : Thread) : Prop where
  held : ∀ b, l.place b = some (.held t) ↔ b ∈ thread.pc.held
  nodup : thread.pc.held.Nodup
  length : ∀ b ∈ thread.pc.held, thread.pc.splitting ≠ some b → length b = l.size b
  splitting : ∀ b, thread.pc.splitting = some b → l.size b = thread.size
  ready : ∀ b, thread.pc.ready = some b → thread.size ≤ l.size b
  size : thread.size = align8 thread.request

/-- The lists and the grants have the blocks that the ledger places there. -/
structure HeapOk (lossy : Prop) (l : Blocks) (s : State) : Prop where
  regions : s.regions = l.regions
  region : ∀ r ∈ s.regions, r.start ≠ 0 ∧ r.start + r.len ≤ sizeMod
  known : ∀ b, l.place b ≠ none → b ∈ s.blocks
  list : ∀ f, ∃ L, Linked 0 s.next (s.first f) L ∧ ∀ b, b ∈ L ↔ l.place b = some (.free f)
  freeLength : ∀ b f, l.place b = some (.free f) → s.length b = l.size b
  outLength : ∀ b, l.place b = some .out → s.length b = l.size b
  out : ∀ b, l.place b = some .out ↔ b ∈ s.grants.map Grant.block
  grants : (s.grants.map Grant.block).Nodup
  fits : ∀ g ∈ s.grants, Unwrapped g.request → g.request ≤ l.size g.block
  kept : ¬ lossy → ∀ b, l.place b ≠ some .lost

/-- The ledger says all of the state but what thread `t` holds. -/
structure Rep (lossy : Prop) (t : Nat) (l : Blocks) (s : State) : Prop
    extends HeapOk lossy l s where
  others : ∀ u, u ≠ t → ThreadOk l s.length u (s.threads u)

/-- The ledger says all of the state. -/
structure Represents (lossy : Prop) (l : Blocks) (s : State) : Prop
    extends HeapOk lossy l s where
  threads : ∀ t, ThreadOk l s.length t (s.threads t)

theorem represents_init (lossy : Prop) : Represents lossy Ledger.empty init where
  regions := rfl
  region _ hr := (nomatch hr)
  known _ hb := absurd rfl hb
  list f := ⟨[], by cases f <;> rfl, fun b => iff_of_false List.not_mem_nil (fun h => nomatch h)⟩
  freeLength _ _ h := (nomatch h)
  outLength _ h := (nomatch h)
  out b := iff_of_false (fun h => nomatch h) List.not_mem_nil
  grants := List.nodup_nil
  fits _ hg := (nomatch hg)
  kept _ _ h := (nomatch h)
  threads t :=
    { held := fun b => iff_of_false (fun h => nomatch h) List.not_mem_nil
      nodup := List.nodup_nil
      length := fun b hb => (nomatch hb)
      splitting := fun b hb => (nomatch hb)
      ready := fun b hb => (nomatch hb)
      size := by simp [init, align8, sizeMod] }

variable {lossy : Prop} {t : Nat} {l : Blocks} {s s' : State}

theorem Represents.rep (h : Represents lossy l s) (t : Nat) : Rep lossy t l s :=
  ⟨h.toHeapOk, fun u _ => h.threads u⟩

theorem Rep.represents (h : Rep lossy t l s) (ht : ThreadOk l s.length t (s.threads t)) :
    Represents lossy l s :=
  ⟨h.toHeapOk, fun u => if hu : u = t then hu ▸ ht else h.others u hu⟩

/-- What a thread does elsewhere does not concern the others. -/
theorem ThreadOk.congr {length length' : Nat → Nat} {l' : Blocks} {u : Nat} {thread : Thread}
    (h : ThreadOk l length u thread)
    (hplace : ∀ b, l'.place b = some (.held u) ↔ l.place b = some (.held u))
    (hsame : ∀ b, l.place b = some (.held u) → length' b = length b ∧ l'.size b = l.size b) :
    ThreadOk l' length' u thread where
  held b := (hplace b).trans (h.held b)
  nodup := h.nodup
  length b hb hne := by
    obtain ⟨hlen, hsize⟩ := hsame b ((h.held b).mpr hb)
    rw [hlen, hsize, h.length b hb hne]
  splitting b hb := by
    rw [(hsame b ((h.held b).mpr (Pc.held_of_splitting hb))).2, h.splitting b hb]
  ready b hb := by
    rw [(hsame b ((h.held b).mpr (Pc.held_of_ready hb))).2]
    exact h.ready b hb
  size := h.size

/-- A thread with empty hands. -/
theorem ThreadOk.of_empty {length : Nat → Nat} {thread : Thread} (hpc : thread.pc.held = [])
    (hheld : ∀ b, l.place b ≠ some (.held t)) (hsize : thread.size = align8 thread.request) :
    ThreadOk l length t thread where
  held b := iff_of_false (hheld b) (hpc ▸ List.not_mem_nil)
  nodup := hpc ▸ List.nodup_nil
  length b hb := (nomatch (hpc ▸ hb : b ∈ ([] : List Nat)))
  splitting b hb := (nomatch (hpc ▸ Pc.held_of_splitting hb : b ∈ ([] : List Nat)))
  ready b hb := (nomatch (hpc ▸ Pc.held_of_ready hb : b ∈ ([] : List Nat)))
  size := hsize

/-- A thread that has nothing but the block it returns. -/
theorem ThreadOk.of_ready {length : Nat → Nat} {thread : Thread} {b : Nat}
    (hpc : thread.pc.ready = some b) (hheld : ∀ c, l.place c = some (.held t) ↔ c = b)
    (hlength : length b = l.size b) (hfits : thread.size ≤ l.size b)
    (hsize : thread.size = align8 thread.request) : ThreadOk l length t thread := by
  obtain ⟨hpcHeld, hpcSplitting⟩ := Pc.held_eq_of_ready hpc
  exact
    { held := fun c => by rw [hheld, hpcHeld, List.mem_singleton]
      nodup := hpcHeld ▸ List.nodup_singleton b
      length := fun c hc _ => by
        rw [hpcHeld, List.mem_singleton] at hc
        rw [hc, hlength]
      splitting := fun c hc => (nomatch (hpcSplitting ▸ hc : none = some c))
      ready := fun c hc => by
        cases hpc.symm.trans hc
        exact hfits
      size := hsize }

/-! ### Facts about the blocks -/

namespace HeapOk

/-- A block lies within the range of `size_t`, and not at the null pointer. -/
theorem bounds (h : HeapOk lossy l s) {b : Nat} (hb : l.place b ≠ none) :
    b ≠ 0 ∧ b + (structSize + l.size b) ≤ sizeMod := by
  obtain ⟨r, hr, hle, hlt⟩ := l.tiling.inside b hb
  obtain ⟨hstart, hend⟩ := h.region r (h.regions ▸ hr)
  exact ⟨by omega, by omega⟩

/-- A list is shorter than the record of all headers. -/
theorem length_le (h : HeapOk lossy l s) {f : FreeList} {L : List Nat}
    (hL : Linked 0 s.next (s.first f) L) (hmem : ∀ b, b ∈ L ↔ l.place b = some (.free f)) :
    L.length ≤ s.blocks.length :=
  hL.nodup.length_le_of_subset fun b hb => h.known b (by simp [(hmem b).mp hb])

end HeapOk

/-- A thread that is not in the middle of anything holds no block. -/
theorem Represents.not_held (h : Represents lossy l s) (hpc : (s.pc t).held = []) (b : Nat) :
    l.place b ≠ some (.held t) := by
  intro hb
  have hmem := ((h.threads t).held b).mp hb
  rw [← State.pc, hpc] at hmem
  cases hmem

/-- A thread that puts its only block somewhere has empty hands. -/
theorem not_held_put {b : Nat} {p : Place} (hheld : ∀ c, l.place c = some (.held t) ↔ c = b)
    (hp : p ≠ .held t) (hb : l.place b ≠ none) (c : Nat) :
    (l.put b p hb).place c ≠ some (.held t) := by
  intro hc
  rcases Ledger.put_place_eq_some.mp hc with ⟨-, heq⟩ | ⟨hne, hc⟩
  · exact hp heq.symm
  · exact hne ((hheld c).mp hc)

/-- A new head of one heap leaves the other lists alone. -/
theorem State.first_of_head {h b : Nat} {f : FreeList}
    (hhead : s'.head = Function.update s.head h b) (hglobal : s'.globalFreeList = s.globalFreeList)
    (hf : f ≠ .heap h) : s'.first f = s.first f := by
  cases f with
  | heap n =>
      have hn : n ≠ h := fun heq => hf (congrArg FreeList.heap heq)
      rw [State.first, hhead, Function.update_of_ne hn, State.first]
  | global => exact hglobal

/-! ### What a step is made of -/

/-- Nothing but memory, the lists and thread `t` changes. -/
structure Frame (t : Nat) (s s' : State) : Prop where
  regions : s'.regions = s.regions
  blocks : s'.blocks = s.blocks
  grants : s'.grants = s.grants
  others : ∀ u, u ≠ t → s'.threads u = s.threads u

/-- The places that thread `t` does not put blocks in, or take them from. -/
def Place.Elsewhere (t : Nat) : Place → Prop
  | .out => True
  | .held u => u ≠ t
  | _ => False

/-- Blocks change places, and the lists with them. -/
theorem Rep.move (h : Rep lossy t l s) (hframe : Frame t s s') {place' : Nat → Option Place}
    (hmove : ∀ b, place' b = none ↔ l.place b = none)
    (hlist : ∀ f, ∃ L, Linked 0 s'.next (s'.first f) L ∧ ∀ b, b ∈ L ↔ place' b = some (.free f))
    (hlength : ∀ b f, place' b = some (.free f) → s'.length b = l.size b)
    (hother : ∀ b p, p.Elsewhere t → (place' b = some p ↔ l.place b = some p) ∧
      (l.place b = some p → s'.length b = s.length b))
    (hkept : ¬ lossy → ∀ b, place' b ≠ some .lost) : Rep lossy t (l.move place' hmove) s' where
  regions := hframe.regions.trans h.regions
  region := by rw [hframe.regions]; exact h.region
  known b hb := by rw [hframe.blocks]; exact h.known b (mt (hmove b).mpr hb)
  list := hlist
  freeLength := hlength
  outLength b hb := by
    obtain ⟨hplace, hsame⟩ := hother b .out trivial
    rw [hsame (hplace.mp hb)]
    exact h.outLength b (hplace.mp hb)
  out b := by
    rw [hframe.grants, ← h.out]
    exact (hother b .out trivial).1
  grants := by rw [hframe.grants]; exact h.grants
  fits := by rw [hframe.grants]; exact h.fits
  kept := hkept
  others u hu := by
    rw [hframe.others u hu]
    exact (h.others u hu).congr (fun b => (hother b (.held u) hu).1) fun b hb =>
      ⟨(hother b (.held u) hu).2 hb, rfl⟩

/-- Only blocks of thread `t` are written to. -/
theorem Rep.write (h : Rep lossy t l s) (hframe : Frame t s s') (hfirst : s'.first = s.first)
    (hmem : ∀ b, l.place b ≠ some (.held t) → s'.mem b = s.mem b) : Rep lossy t l s' := by
  have hlength : ∀ b p, p ≠ .held t → l.place b = some p → s'.length b = s.length b := by
    intro b p hp hb
    rw [State.length, hmem b (by simp [hb, hp]), State.length]
  refine h.move hframe (fun _ => Iff.rfl) (fun f => ?_) (fun b f hb => ?_)
    (fun b p hp => ⟨Iff.rfl, hlength b p ?_⟩) h.kept
  · obtain ⟨L, hL, hmemL⟩ := h.list f
    refine ⟨L, ?_, hmemL⟩
    rw [hfirst]
    exact hL.congr fun b hb => by rw [State.next, hmem b (by simp [(hmemL b).mp hb]), State.next]
  · rw [hlength b _ (by simp) hb]
    exact h.freeLength b f hb
  · rintro rfl
    exact hp rfl

/-- Thread `t` puts a block of its own in front of a list. -/
theorem Rep.push (h : Rep lossy t l s) (hframe : Frame t s s') {f : FreeList} {b : Nat}
    (hb : l.place b = some (.held t)) (hfirst : s'.first f = b)
    (hothers : ∀ f', f' ≠ f → s'.first f' = s.first f') (hnext : s'.next b = s.first f)
    (hlength : s'.length b = l.size b) (hmem : ∀ c, c ≠ b → s'.mem c = s.mem c) :
    Rep lossy t (l.put b (.free f) (by simp [hb])) s' := by
  have hnext' : ∀ c, c ≠ b → s'.next c = s.next c := fun c hc => by
    rw [State.next, hmem c hc, State.next]
  have hlength' : ∀ c, c ≠ b → s'.length c = s.length c := fun c hc => by
    rw [State.length, hmem c hc, State.length]
  refine h.move hframe _ (fun f' => ?_) (fun c f' hc => ?_) (fun c p hp => ?_) fun hl c hc => ?_
  · obtain ⟨L, hL, hmemL⟩ := h.list f'
    have hbL : b ∉ L := by simp [hmemL, hb]
    by_cases hf : f' = f
    · subst hf
      refine ⟨b :: L, ?_, fun c => ?_⟩
      · rw [hfirst]
        exact hL.push hbL (h.bounds (by simp [hb])).1 hnext hnext'
      · rw [List.mem_cons, hmemL]
        by_cases hc : c = b <;> simp [hc]
    · refine ⟨L, ?_, fun c => ?_⟩
      · rw [hothers f' hf]
        exact hL.congr fun c hc => hnext' c fun heq => hbL (heq ▸ hc)
      · rw [hmemL]
        by_cases hc : c = b
        · simp [hc, hb, Ne.symm hf]
        · simp [hc]
  · by_cases hcb : c = b
    · rw [hcb, hlength]
    · rw [Function.update_of_ne hcb] at hc
      rw [hlength' c hcb]
      exact h.freeLength c f' hc
  · have hne : p ≠ .free f ∧ p ≠ .held t := by
      refine ⟨?_, ?_⟩ <;> rintro rfl
      · exact hp
      · exact hp rfl
    by_cases hcb : c = b
    · simp [hcb, hb, hne.1.symm, hne.2.symm]
    · simp [hcb, hlength' c hcb]
  · by_cases hcb : c = b
    · simp [hcb] at hc
    · rw [Function.update_of_ne hcb] at hc
      exact h.kept hl c hc

/-- Where the blocks are after thread `t` has taken `b` out of a list, which is `L'` then. -/
def takePlace (l : Blocks) (t : Nat) (f : FreeList) (b : Nat) (L' : List Nat) (c : Nat) :
    Option Place :=
  if c = b then some (.held t)
  else if l.place c = some (.free f) ∧ c ∉ L' then some .lost else l.place c

theorem takePlace_eq_none {f : FreeList} {b : Nat} {L' : List Nat}
    (hb : l.place b = some (.free f)) (c : Nat) :
    takePlace l t f b L' c = none ↔ l.place c = none := by
  by_cases hc : c = b
  · simp [takePlace, hc, hb]
  · by_cases hlost : l.place c = some (.free f) ∧ c ∉ L'
    · simp [takePlace, hc, hlost]
    · rw [takePlace, if_neg hc, if_neg hlost]

theorem takePlace_held {f : FreeList} {b : Nat} {L' : List Nat} (c : Nat) :
    takePlace l t f b L' c = some (.held t) ↔ c = b ∨ l.place c = some (.held t) := by
  by_cases hc : c = b
  · simp [takePlace, hc]
  · by_cases hlost : l.place c = some (.free f) ∧ c ∉ L' <;> simp [takePlace, hc, hlost]

theorem takePlace_other {f : FreeList} {b : Nat} {L' : List Nat}
    (hb : l.place b = some (.free f)) {p : Place} (h1 : p ≠ .held t) (h2 : p ≠ .lost)
    (h3 : p ≠ .free f) (c : Nat) :
    takePlace l t f b L' c = some p ↔ l.place c = some p := by
  by_cases hc : c = b
  · simp [takePlace, hc, hb, h1.symm, h3.symm]
  · by_cases hlost : l.place c = some (.free f) ∧ c ∉ L'
    · simp [takePlace, hc, hlost, h2.symm, h3.symm]
    · simp [takePlace, hc, hlost]

theorem takePlace_free {f : FreeList} {b : Nat} {L' : List Nat} (hbL' : b ∉ L')
    (hsub : ∀ c ∈ L', l.place c = some (.free f)) (c : Nat) :
    takePlace l t f b L' c = some (.free f) ↔ c ∈ L' := by
  by_cases hc : c = b
  · simp [takePlace, hc, hbL']
  · by_cases hcL : c ∈ L'
    · simp [takePlace, hc, hcL, hsub c hcL]
    · by_cases hcf : l.place c = some (.free f) <;> simp [takePlace, hc, hcL, hcf]

/-- Thread `t` takes a block out of a list. What else leaves the list is lost. -/
theorem Rep.take (h : Rep lossy t l s) (hframe : Frame t s s') {f : FreeList} {b : Nat}
    {L' : List Nat} (hb : l.place b = some (.free f)) (hL' : Linked 0 s'.next (s'.first f) L')
    (hbL' : b ∉ L') (hsub : ∀ c ∈ L', l.place c = some (.free f))
    (hkept : ¬ lossy → ∀ c, l.place c = some (.free f) → c = b ∨ c ∈ L')
    (hothers : ∀ f', f' ≠ f → s'.first f' = s.first f')
    (hnext : ∀ c, l.place c ≠ some (.free f) → s'.next c = s.next c)
    (hlength : s'.length = s.length) :
    Rep lossy t (l.move (takePlace l t f b L') (takePlace_eq_none hb)) s' := by
  refine h.move hframe _ (fun f' => ?_) (fun c f' hc => ?_) (fun c p hp => ?_) fun hl c hc => ?_
  · by_cases hf : f' = f
    · subst hf
      exact ⟨L', hL', fun c => (takePlace_free hbL' hsub c).symm⟩
    · obtain ⟨L, hL, hmemL⟩ := h.list f'
      refine ⟨L, ?_, fun c => ?_⟩
      · rw [hothers f' hf]
        refine hL.congr fun c hc => hnext c ?_
        rw [(hmemL c).mp hc]
        simp [hf]
      · rw [hmemL, takePlace_other hb (by simp) (by simp) (by simp [hf])]
  · rw [hlength]
    by_cases hf : f' = f
    · subst hf
      exact h.freeLength c f' (hsub c ((takePlace_free hbL' hsub c).mp hc))
    · rw [takePlace_other hb (by simp) (by simp) (by simp [hf])] at hc
      exact h.freeLength c f' hc
  · have hne : p ≠ .held t ∧ p ≠ .lost ∧ p ≠ .free f := by
      refine ⟨?_, ?_, ?_⟩ <;> rintro rfl
      · exact hp rfl
      · exact hp
      · exact hp
    exact ⟨takePlace_other hb hne.1 hne.2.1 hne.2.2 c, fun _ => by rw [hlength]⟩
  · unfold takePlace at hc
    split at hc
    · cases hc
    · split at hc
      · next hcb hlost => exact hlost.2 ((hkept hl c hlost.1).resolve_left hcb)
      · exact h.kept hl c hc

/-- Thread `t` makes a new block, of a new region or of the end of a block of its own. -/
theorem Rep.extend (h : Rep lossy t l s) {l' : Blocks} {n : Nat} (hn : l.place n = none)
    (hplace : l'.place = Function.update l.place n (some (.held t)))
    (hsize : ∀ c, l.place c ≠ none → l.place c ≠ some (.held t) → l'.size c = l.size c)
    (hregions : s'.regions = l'.regions)
    (hregion : ∀ r ∈ s'.regions, r.start ≠ 0 ∧ r.start + r.len ≤ sizeMod)
    (hblocks : ∀ b, b ∈ s.blocks ∨ b = n → b ∈ s'.blocks) (hgrants : s'.grants = s.grants)
    (hthreads : ∀ u, u ≠ t → s'.threads u = s.threads u) (hfirst : s'.first = s.first)
    (hmem : s'.mem = s.mem) : Rep lossy t l' s' := by
  have hother : ∀ c p, p ≠ .held t → (l'.place c = some p ↔ l.place c = some p) := by
    intro c p hp
    by_cases hc : c = n
    · simp [hplace, hc, hn, hp.symm]
    · simp [hplace, hc]
  have hsize' : ∀ c p, p ≠ .held t → l.place c = some p → l'.size c = l.size c := fun c p hp hc =>
    hsize c (by simp [hc]) (by simp [hc, hp])
  have hnext : s'.next = s.next := by funext c; rw [State.next, hmem, State.next]
  have hlength : s'.length = s.length := by funext c; rw [State.length, hmem, State.length]
  exact
    { regions := hregions
      region := hregion
      known := fun c hc => hblocks c <| by
        by_cases heq : c = n
        · exact .inr heq
        · refine .inl (h.known c ?_)
          rwa [hplace, Function.update_of_ne heq] at hc
      list := fun f => by
        obtain ⟨L, hL, hmemL⟩ := h.list f
        refine ⟨L, ?_, fun c => (hmemL c).trans (hother c _ (by simp)).symm⟩
        rwa [hfirst, hnext]
      freeLength := fun c f hc => by
        rw [hother c _ (by simp)] at hc
        rw [hlength, hsize' c _ (by simp) hc, h.freeLength c f hc]
      outLength := fun c hc => by
        rw [hother c _ (by simp)] at hc
        rw [hlength, hsize' c _ (by simp) hc, h.outLength c hc]
      out := fun c => by rw [hgrants, hother c _ (by simp), h.out]
      grants := by rw [hgrants]; exact h.grants
      fits := fun g hg hwrap => by
        rw [hgrants] at hg
        rw [hsize' _ .out (by simp) ((h.out _).mpr (List.mem_map_of_mem hg))]
        exact h.fits g hg hwrap
      kept := fun hl c hc => h.kept hl c ((hother c _ (by simp)).mp hc)
      others := fun u hu => by
        rw [hthreads u hu, hlength]
        exact (h.others u hu).congr (fun c => hother c _ (by simp [hu])) fun c hc =>
          ⟨rfl, hsize' c _ (by simp [hu]) hc⟩ }

/-- Thread `t` hands a block of its own out to its caller. -/
theorem Rep.ret (h : Rep lossy t l s) {b request : Nat} (hb : l.place b = some (.held t))
    (hlength : s.length b = l.size b) (hfits : Unwrapped request → request ≤ l.size b)
    (hregions : s'.regions = s.regions) (hblocks : s'.blocks = s.blocks)
    (hgrants : s'.grants = s.grants ++ [⟨b, request⟩])
    (hthreads : ∀ u, u ≠ t → s'.threads u = s.threads u) (hfirst : s'.first = s.first)
    (hmem : s'.mem = s.mem) : Rep lossy t (l.put b .out (by simp [hb])) s' := by
  have hnext : s'.next = s.next := by funext c; rw [State.next, hmem, State.next]
  have hlength' : s'.length = s.length := by funext c; rw [State.length, hmem, State.length]
  have hother : ∀ c p, p ≠ .held t → p ≠ .out →
      ((l.put b .out (by simp [hb])).place c = some p ↔ l.place c = some p) := by
    intro c p h1 h2
    rw [Ledger.put_place_eq_some]
    by_cases hc : c = b
    · simp [hc, hb, h1.symm, h2]
    · simp [hc]
  exact
    { regions := hregions.trans h.regions
      region := by rw [hregions]; exact h.region
      known := fun c hc => by
        rw [hblocks]
        exact h.known c (mt Ledger.put_place_eq_none.mpr hc)
      list := fun f => by
        obtain ⟨L, hL, hmemL⟩ := h.list f
        refine ⟨L, ?_, fun c => (hmemL c).trans (hother c _ (by simp) (by simp)).symm⟩
        rwa [hfirst, hnext]
      freeLength := fun c f hc => by
        rw [hlength']
        exact h.freeLength c f ((hother c _ (by simp) (by simp)).mp hc)
      outLength := fun c hc => by
        rw [hlength']
        rcases Ledger.put_place_eq_some.mp hc with ⟨rfl, -⟩ | ⟨-, hc⟩
        · exact hlength
        · exact h.outLength c hc
      out := fun c => by
        rw [hgrants, Ledger.put_place_eq_some, List.map_append, List.mem_append, ← h.out]
        by_cases hc : c = b <;> simp [hc]
      grants := by
        rw [hgrants, List.map_append]
        refine h.grants.append (List.nodup_singleton _) fun c hc hcb => ?_
        rw [← h.out, List.mem_singleton.mp hcb, hb] at hc
        cases hc
      fits := fun g hg hwrap => by
        rw [hgrants] at hg
        rcases List.mem_append.mp hg with hg | hg
        · exact h.fits g hg hwrap
        · obtain rfl := List.mem_singleton.mp hg
          exact hfits hwrap
      kept := fun hl c hc => h.kept hl c ((hother c _ (by simp) (by simp)).mp hc)
      others := fun u hu => by
        rw [hthreads u hu, hlength']
        exact (h.others u hu).congr (fun c => hother c _ (by simp [hu]) (by simp)) fun c _ =>
          ⟨rfl, rfl⟩ }

end NjuOs.Mymalloc
