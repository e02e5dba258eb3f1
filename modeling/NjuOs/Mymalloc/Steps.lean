import NjuOs.Mymalloc.Heap
import NjuOs.Mymalloc.Taken

/-!
Every step of `mymalloc` keeps a ledger.

`Represents.step`: if a ledger says all of a state, then after a step some ledger
does, as long as `vmalloc` gives fresh regions and no thread searches its heap
from a block that has left it (`CursorOk`). A step that finds its `curr` behind the
head of the list cuts the list short, so the blocks in front of it are lost.
-/

namespace NjuOs.Mymalloc

open NjuOs.Lib

variable {lossy : Prop} {t : Nat} {l : Blocks} {s s' : State}

/-! ### Arithmetic -/

theorem align8_dvd (n : Nat) : 8 ∣ align8 n := Nat.dvd_mul_left ..

/-- In a block the split is exact: the remainder starts right behind the payload. -/
theorem splitRemain_eq {curr size length : Nat} (hcurr : 8 ∣ curr) (hsize : 8 ∣ size)
    (hne : curr ≠ 0) (hle : size ≤ length) (hend : curr + (structSize + length) ≤ sizeMod) :
    splitRemain curr size length =
      if size + structSize < length then
        some (curr + (structSize + size), length - (structSize + size))
      else none := by
  simp only [sizeMod, structSize] at hend
  have hwrap : (size + structSize) % sizeMod = size + structSize :=
    Nat.mod_eq_of_lt (by simp only [sizeMod, structSize]; omega)
  unfold splitRemain
  rw [hwrap]
  by_cases hlt : size + structSize < length
  · rw [if_pos hlt, if_pos hlt]
    simp only [structSize] at hlt
    have hnew : align8 (curr + structSize + size) = curr + (structSize + size) := by
      simp only [align8, sizeMod, structSize]
      omega
    have hrest :
        sub64 (curr + structSize + length) (curr + (structSize + size)) = length - size := by
      simp only [sub64, sizeMod, structSize]
      omega
    simp only [hnew, hrest]
    rw [if_pos (by simp only [structSize]; omega)]
    simp only [structSize, Nat.sub_sub, Nat.add_comm]
  · rw [if_neg hlt, if_neg hlt]

theorem le_align8 {request : Nat} (h : request + 7 < sizeMod) : request ≤ align8 request := by
  rw [align8, Nat.mod_eq_of_lt h]
  omega

theorem alignedLength_dvd (size : Nat) : 4096 ∣ alignedLength size := Nat.dvd_mul_left ..

/-- The block of the fallback has room for the request. -/
theorem le_alignedLength {size : Nat} (h : size + structSize + 4095 < sizeMod) :
    size + structSize ≤ alignedLength size := by
  rw [alignedLength, Nat.mod_eq_of_lt h]
  omega

/-! ### Steps that leave the heap alone -/

theorem Represents.quiet (h : Represents lossy l s) {pc pc' : Pc} (hpc : s.pc t = pc)
    (hthreads : s'.threads = Function.update s.threads t { s.threads t with pc := pc' })
    (hmem : s'.mem = s.mem) (hfirst : s'.first = s.first) (hregions : s'.regions = s.regions)
    (hblocks : s'.blocks = s.blocks) (hgrants : s'.grants = s.grants)
    (hheld : pc'.held = pc.held) (hsplitting : pc'.splitting = pc.splitting)
    (hready : pc'.ready = pc.ready) : ∃ l', Represents lossy l' s' := by
  subst hpc
  have hlength : s'.length = s.length := by funext b; rw [State.length, hmem, State.length]
  have hframe : Frame t s s' := ⟨hregions, hblocks, hgrants, fun u hu => by
    rw [hthreads, Function.update_of_ne hu]⟩
  obtain ⟨held, nodup, length, splitting, ready, size⟩ := h.threads t
  refine ⟨l, ((h.rep t).write hframe hfirst fun _ _ => by rw [hmem]).represents ?_⟩
  rw [hthreads, Function.update_self, hlength]
  exact
    { held := by rw [hheld]; exact held
      nodup := by rw [hheld]; exact nodup
      length := by rw [hheld, hsplitting]; exact length
      splitting := by rw [hsplitting]; exact splitting
      ready := by rw [hready]; exact ready
      size := size }

/-! ### Searching and taking out -/

def State.setFirst (s : State) (f : FreeList) (b : Nat) : State :=
  match f with
  | .heap h => s.setHead h b
  | .global => { s with globalFreeList := b }

/-- A hit is taken out of its list. -/
def State.unlink (s : State) (f : FreeList) (prev b : Nat) : State :=
  if prev ≠ 0 then s.setNext prev (s.next b) else s.setFirst f (s.next b)

/-- A search of a list may start at its head or at the null pointer; further
down only when blocks may be lost. -/
def CursorOk (lossy : Prop) (s : State) (f : FreeList) (curr : Nat) : Prop :=
  curr = 0 ∨ curr = s.first f ∨ lossy ∧ OnList 0 s.next (s.first f) curr

/-- A search ends. A hit has a predecessor in the list, or the search began with it. -/
theorem HeapOk.search (h : HeapOk lossy l s) {f : FreeList} {curr : Nat}
    (hcursor : CursorOk lossy s f curr) (size : Nat) :
    (∃ last, s.search curr size = some (last, 0)) ∨
      ∃ pre b post prev, Linked 0 s.next (s.first f) (pre ++ b :: post) ∧
        (∀ c, c ∈ pre ++ b :: post ↔ l.place c = some (.free f)) ∧ size ≤ s.length b ∧
        s.search curr size = some (prev, b) ∧
        (prev = 0 ∧ (pre = [] ∨ lossy) ∨ ∃ pre', pre = pre' ++ [prev]) := by
  obtain ⟨L, hL, hmem⟩ := h.list f
  have hfuel := h.length_le hL hmem
  -- what is ahead of the cursor, and what is behind it
  obtain ⟨done, todo, rfl, htodo, hdone⟩ : ∃ done todo, L = done ++ todo ∧
      Linked 0 s.next curr todo ∧ (todo = [] ∨ done = [] ∨ lossy) := by
    rcases hcursor with rfl | rfl | ⟨hlossy, hon⟩
    · exact ⟨L, [], by simp, rfl, .inl rfl⟩
    · exact ⟨[], L, rfl, hL, .inr (.inl rfl)⟩
    · obtain ⟨done, todo, rfl⟩ := List.append_of_mem (hL.onList_iff.mp hon)
      exact ⟨done, _, rfl, hL.suffix, .inr (.inr hlossy)⟩
  have hlt : todo.length < s.blocks.length + 1 := by
    rw [List.length_append] at hfuel
    omega
  rcases @seek_cases _ 0 s.next _ (fun b => decide (size ≤ (s.mem b).length)) todo _ 0 curr htodo
    hlt with
    ⟨last, hseek, -⟩ | ⟨pre, b, post, rfl, hhit, -, hseek⟩
  · exact .inl ⟨last, hseek⟩
  · refine .inr ⟨done ++ pre, b, post, _, by simpa using hL, by simpa using hmem,
      of_decide_eq_true hhit, hseek, ?_⟩
    rcases List.eq_nil_or_concat pre with rfl | ⟨pre', prev, rfl⟩
    · refine .inl ⟨rfl, ?_⟩
      simpa using hdone
    · exact .inr ⟨done ++ pre', by simp⟩

theorem State.unlink_frame (s : State) (f : FreeList) (prev b : Nat) :
    Frame t s (s.unlink f prev b) ∧ (s.unlink f prev b).threads = s.threads ∧
      (s.unlink f prev b).length = s.length := by
  have hlength : (s.setNext prev (s.next b)).length = s.length := by
    funext c
    by_cases hc : c = prev <;> simp [State.setNext, State.length, hc]
  unfold State.unlink
  split
  · exact ⟨⟨rfl, rfl, rfl, fun _ _ => rfl⟩, rfl, hlength⟩
  · cases f <;> exact ⟨⟨rfl, rfl, rfl, fun _ _ => rfl⟩, rfl, rfl⟩

theorem State.setFirst_first (s : State) (f f' : FreeList) (b : Nat) :
    (s.setFirst f b).first f' = if f' = f then b else s.first f' := by
  cases f <;> cases f' <;>
    simp [State.setFirst, State.setHead, State.first, Function.update_apply]

/-- A thread takes the hit of its search out of the list. -/
theorem Rep.unlink (h : Rep lossy t l s) {f : FreeList} {curr size prev b : Nat}
    (hcursor : CursorOk lossy s f curr) (hsearch : s.search curr size = some (prev, b))
    (hb : b ≠ 0) :
    ∃ l', Rep lossy t l' (s.unlink f prev b) ∧ l.place b = some (.free f) ∧
      (∀ c, l'.place c = some (.held t) ↔ c = b ∨ l.place c = some (.held t)) ∧
      l'.size = l.size ∧ size ≤ l.size b := by
  rcases h.search hcursor size with
    ⟨last, hmiss⟩ | ⟨pre, b', post, prev', hL, hmem, hle, hhit, hprev⟩
  · rw [hmiss] at hsearch
    cases hsearch
    exact absurd rfl hb
  rw [hhit] at hsearch
  cases hsearch
  have hplace : l.place b = some (.free f) :=
    (hmem b).mp (List.mem_append_right _ List.mem_cons_self)
  obtain ⟨hframe, -, hlength⟩ := s.unlink_frame (t := t) f prev b
  have hnodup := hL.nodup
  -- the list that is left, and what is lost with the block
  obtain ⟨L', hL', hsub, hbL', hkept, hothers, hnext⟩ : ∃ L',
      Linked 0 (s.unlink f prev b).next ((s.unlink f prev b).first f) L' ∧
      (∀ c ∈ L', c ∈ pre ++ b :: post) ∧ b ∉ L' ∧
      (¬ lossy → ∀ c ∈ pre ++ b :: post, c = b ∨ c ∈ L') ∧
      (∀ f', f' ≠ f → (s.unlink f prev b).first f' = s.first f') ∧
      ∀ c, c ∉ pre ++ b :: post → (s.unlink f prev b).next c = s.next c := by
    rcases hprev with ⟨rfl, hfirst⟩ | ⟨pre', rfl⟩
    · have hunlink : s.unlink f 0 b = s.setFirst f (s.next b) := if_neg (by simp)
      have hnext : (s.unlink f 0 b).next = s.next := by
        rw [hunlink]
        cases f <;> rfl
      refine ⟨post, ?_, fun c hc => by simp [hc], ?_, ?_, fun f' hf => ?_, fun c _ => by rw [hnext]⟩
      · rw [hnext, hunlink, State.setFirst_first, if_pos rfl]
        exact hL.suffix.2.2
      · exact (List.nodup_cons.mp hnodup.of_append_right).1
      · intro hlossy c hc
        rw [hfirst.resolve_right hlossy] at hc
        exact List.mem_cons.mp hc
      · rw [hunlink, State.setFirst_first, if_neg hf]
    · have hprev : prev ∈ pre' ++ [prev] ++ b :: post := by simp
      have hunlink : s.unlink f prev b = s.setNext prev (s.next b) := if_pos (hL.ne_null _ hprev)
      have hfirst : (s.unlink f prev b).first = s.first := by
        rw [hunlink]
        rfl
      have hnext : ∀ c, c ≠ prev → (s.unlink f prev b).next c = s.next c := fun c hc => by
        simp [hunlink, State.setNext, State.next, hc]
      rw [List.append_assoc, List.singleton_append] at hL hnodup
      refine ⟨pre' ++ prev :: post, ?_, fun c hc => ?_, fun hbL => ?_, fun _ c hc => ?_,
        fun f' _ => by rw [hfirst], fun c hc => hnext c ?_⟩
      · rw [hfirst]
        exact hL.unlink (by simp [hunlink, State.setNext, State.next]) hnext
      · simp only [List.mem_append, List.mem_cons] at hc ⊢
        tauto
      · have := hnodup
        rw [List.nodup_append, List.nodup_cons, List.nodup_cons] at this
        simp only [List.mem_append, List.mem_cons] at hbL
        grind
      · simp only [List.mem_append, List.mem_cons] at hc ⊢
        tauto
      · rintro rfl
        exact hc hprev
  refine ⟨_, h.take hframe hplace hL' hbL' (fun c hc => (hmem c).mp (hsub c hc))
    (fun hl c hc => hkept hl c ((hmem c).mpr hc)) hothers
    (fun c hc => hnext c (mt (hmem c).mp hc)) hlength, hplace, takePlace_held, rfl, ?_⟩
  rwa [← h.freeLength b f hplace]

/-! ### The steps that change the heap -/

/-- Thread `t` cuts the end off a block of its own. -/
theorem Rep.split (h : Rep lossy t l s) {b m n : Nat} (hb : l.place b = some (.held t))
    (hn : n = b + (structSize + m)) (hm : m + structSize ≤ l.size b) (hunit : 8 ∣ m)
    (s' : State) (hregions : s'.regions = s.regions)
    (hblocks : ∀ c, c ∈ s.blocks ∨ c = n → c ∈ s'.blocks) (hgrants : s'.grants = s.grants)
    (hthreads : ∀ u, u ≠ t → s'.threads u = s.threads u) (hfirst : s'.first = s.first)
    (hmem : s'.mem = s.mem) :
    ∃ l', Rep lossy t l' s' ∧
      (∀ c, l'.place c = some (.held t) ↔ c = n ∨ l.place c = some (.held t)) ∧ n ≠ b ∧
      l'.size b = m ∧ l'.size n = l.size b - (structSize + m) := by
  subst hn
  have hplace : l.place b ≠ none := by simp [hb]
  have hpos : 0 < structSize := by decide
  have hne : b + (structSize + m) ≠ b := by omega
  have hnew : l.place (b + (structSize + m)) = none :=
    Ledger.fresh_split hplace (by omega) (by omega)
  refine ⟨l.split b m (.held t) hplace hm (by decide) ⟨by decide, hunit⟩,
    h.extend hnew rfl (fun c hc hheld => ?_) (hregions.trans h.regions)
      (by rw [hregions]; exact h.region) hblocks hgrants hthreads hfirst hmem, fun c => ?_, hne,
    Function.update_self .., (Function.update_of_ne hne ..).trans (Function.update_self ..)⟩
  · have hcb : c ≠ b := by
      rintro rfl
      exact hheld hb
    have hcn : c ≠ b + (structSize + m) := by
      rintro rfl
      exact hc hnew
    simp [Ledger.split, hcb, hcn]
  · by_cases hc : c = b + (structSize + m) <;> simp [Ledger.split, hc]

/-- Thread `t` gets a new region, as one block. -/
theorem Rep.grow (h : Rep lossy t l s) {start len : Nat} (hne : start ≠ 0)
    (hend : start + len ≤ sizeMod) (hlen : structSize ≤ len)
    (hunit : 8 ∣ start ∧ 8 ∣ len - structSize)
    (hfresh : ∀ r ∈ s.regions, Region.Apart ⟨start, len⟩ r) (s' : State)
    (hregions : s'.regions = s.regions ++ [⟨start, len⟩])
    (hblocks : ∀ c, c ∈ s.blocks ∨ c = start → c ∈ s'.blocks) (hgrants : s'.grants = s.grants)
    (hthreads : ∀ u, u ≠ t → s'.threads u = s.threads u) (hfirst : s'.first = s.first)
    (hmem : s'.mem = s.mem) :
    ∃ l', Rep lossy t l' s' ∧
      (∀ c, l'.place c = some (.held t) ↔ c = start ∨ l.place c = some (.held t)) ∧
      l'.size start = len - structSize := by
  have hpos : 0 < len := Nat.lt_of_lt_of_le (by decide) hlen
  have hfresh' : ∀ r ∈ l.regions, Region.Apart ⟨start, len⟩ r := h.regions ▸ hfresh
  have hnew : l.place start = none := Ledger.fresh_start hpos hfresh'
  refine ⟨l.grow ⟨start, len⟩ (.held t) hlen hpos hfresh' hunit,
    h.extend hnew rfl (fun c hc _ => ?_) (by rw [hregions, h.regions]; rfl) (fun r hr => ?_) hblocks
      hgrants hthreads hfirst hmem, fun c => ?_, Function.update_self ..⟩
  · have hcn : c ≠ start := by
      rintro rfl
      exact hc hnew
    exact Function.update_of_ne hcn ..
  · rw [hregions] at hr
    rcases List.mem_append.mp hr with hr | hr
    · exact h.region r hr
    · rw [List.mem_singleton.mp hr]
      exact ⟨hne, hend⟩
  · by_cases hc : c = start <;> simp [Ledger.grow, hc]

/-- A thread that holds nothing takes a block with room for its request, and the
split of the block is exact. -/
theorem Represents.unlink (h : Represents lossy l s) {f : FreeList} {curr prev b : Nat}
    (hheld : (s.pc t).held = []) (hcursor : CursorOk lossy s f curr)
    (hsearch : s.search curr (s.threads t).size = some (prev, b)) (hb : b ≠ 0) :
    ∃ l', Rep lossy t l' (s.unlink f prev b) ∧ (∀ c, l'.place c = some (.held t) ↔ c = b) ∧
      (s.threads t).size ≤ l'.size b ∧ (s.unlink f prev b).length b = l'.size b ∧
      splitRemain b (s.threads t).size ((s.unlink f prev b).mem b).length =
        if (s.threads t).size + structSize < l'.size b then
          some (b + (structSize + (s.threads t).size),
            l'.size b - (structSize + (s.threads t).size))
        else none := by
  obtain ⟨l₁, h₁, hfree, hheld₁, hsize₁, hle⟩ := (h.rep t).unlink hcursor hsearch hb
  obtain ⟨-, -, hlength⟩ := s.unlink_frame (t := t) f prev b
  have hheld' : ∀ c, l₁.place c = some (.held t) ↔ c = b := fun c => by
    simp [hheld₁, h.not_held hheld]
  have hb₁ : l₁.place b ≠ none := by simp [(hheld' b).mpr rfl]
  have hmem : (s.unlink f prev b).length b = l₁.size b := by
    rw [hlength, h.freeLength b _ hfree, hsize₁]
  obtain ⟨hdvd, -⟩ := l₁.aligned b hb₁
  obtain ⟨hne, hend⟩ := h₁.bounds hb₁
  refine ⟨l₁, h₁, hheld', hsize₁ ▸ hle, hmem, ?_⟩
  rw [State.length] at hmem
  rw [hmem]
  exact splitRemain_eq hdvd ((h.threads t).size ▸ align8_dvd _) hne (hsize₁ ▸ hle) hend

theorem Represents.takeLocal (h : Represents lossy l s) {curr prev b : Nat}
    (hpc : s.pc t = .scanLocal curr) (hcursor : CursorOk lossy s (.heap (heapOf t)) curr)
    (hsearch : s.search curr (s.threads t).size = some (prev, b)) (hb : b ≠ 0) :
    ∃ l', Represents lossy l' (takeLocal s t prev b) := by
  obtain ⟨l₁, h₁, hheld, hle, hlength, hsplit⟩ := h.unlink (by rw [hpc]; rfl) hcursor hsearch hb
  obtain ⟨-, hthreads, -⟩ := s.unlink_frame (t := t) (.heap (heapOf t)) prev b
  have hdvd : 8 ∣ (s.threads t).size := (h.threads t).size ▸ align8_dvd _
  have hreq := (h.threads t).size
  have hunlink : (if prev ≠ 0 then s.setNext prev (s.next b) else s.setHead (heapOf t) (s.next b)) =
      s.unlink (.heap (heapOf t)) prev b := rfl
  unfold Mymalloc.takeLocal
  dsimp only
  rw [hunlink, hsplit]
  rw [← hthreads] at hle hdvd hreq ⊢
  generalize s.unlink (.heap (heapOf t)) prev b = u at *
  have hb₁ : l₁.place b = some (.held t) := (hheld b).mpr rfl
  by_cases hlt : (u.threads t).size + structSize < l₁.size b
  · rw [if_pos hlt]
    -- the block is cut in two, and the remainder is pushed
    obtain ⟨l₂, h₂, hheld₂, hne, hsize, hrest⟩ := h₁.split hb₁ rfl
      (Nat.le_of_lt hlt) hdvd
      { u with blocks := u.blocks ++ [b + (structSize + (u.threads t).size)] } rfl (by simp) rfl
      (fun _ _ => rfl) rfl rfl
    generalize hn : b + (structSize + (u.threads t).size) = n at *
    have hn₂ : l₂.place n = some (.held t) := (hheld₂ n).mpr (.inl rfl)
    have hb₂ : l₂.place b = some (.held t) := (hheld₂ b).mpr (.inr hb₁)
    have hheaders : ∀ c, l₂.place c ≠ some (.held t) → c ≠ b ∧ c ≠ n := fun c hc =>
      ⟨by rintro rfl; exact hc hb₂, by rintro rfl; exact hc hn₂⟩
    have h₃ : Rep lossy t l₂ { u with
        mem := Function.update (Function.update u.mem n
          (Block.mk (l₁.size b - (structSize + (u.threads t).size)) (u.head (heapOf t)) t)) b
          { u.mem b with length := (u.threads t).size }
        blocks := u.blocks ++ [n] } := by
      refine h₂.write ⟨rfl, rfl, rfl, fun _ _ => rfl⟩ rfl fun c hc => ?_
      obtain ⟨hcb, hcn⟩ := hheaders c hc
      simp [hcb, hcn]
    refine ⟨_, Rep.represents (h₃.push (f := .heap (heapOf t)) (b := n) ?_ hn₂ ?_ ?_ ?_ ?_ ?_) ?_⟩
    · exact ⟨rfl, rfl, rfl, fun _ hu => Function.update_of_ne hu ..⟩
    · exact Function.update_self ..
    · exact fun _ => State.first_of_head rfl rfl
    · simp [State.next, State.setPc, hne, State.first]
    · simp [State.length, State.setPc, hne, hrest]
    · exact fun _ _ => rfl
    · refine ThreadOk.of_ready (b := b) ?_ (fun c => ?_) ?_ ?_ ?_
      · simp [State.setPc, Pc.ready]
      · rw [Ledger.put_place_eq_some, hheld₂, hheld]
        grind
      · simp [State.length, State.setPc, hsize]
      · simp [State.setPc, hsize]
      · simpa [State.setPc] using hreq
  · rw [if_neg hlt]
    have h₂ : Rep lossy t l₁ (u.setPc t (.returnLocal b)) :=
      h₁.write ⟨rfl, rfl, rfl, fun _ hu => Function.update_of_ne hu ..⟩ rfl fun _ _ => rfl
    exact ⟨l₁, h₂.represents (ThreadOk.of_ready (by simp [State.setPc, Pc.ready]) hheld hlength
      (by simpa [State.setPc] using hle) (by simpa [State.setPc] using hreq))⟩

theorem Represents.takeGlobal (h : Represents lossy l s) {prev b : Nat}
    (hpc : s.pc t = .scanGlobal)
    (hsearch : s.search s.globalFreeList (s.threads t).size = some (prev, b)) (hb : b ≠ 0) :
    ∃ l', Represents lossy l' (takeGlobal s t prev b) := by
  obtain ⟨l₁, h₁, hheld, hle, hlength, hsplit⟩ :=
    h.unlink (f := .global) (by rw [hpc]; rfl) (.inr (.inl rfl)) hsearch hb
  obtain ⟨-, hthreads, -⟩ := s.unlink_frame (t := t) .global prev b
  have hdvd : 8 ∣ (s.threads t).size := (h.threads t).size ▸ align8_dvd _
  have hreq := (h.threads t).size
  have hunlink : (if prev ≠ 0 then s.setNext prev (s.next b)
      else { s with globalFreeList := s.next b }) = s.unlink .global prev b := rfl
  have hheader : (((s.unlink .global prev b).setOwner b t).mem b).length =
      ((s.unlink .global prev b).mem b).length := by simp [State.setOwner]
  unfold Mymalloc.takeGlobal
  dsimp only
  rw [hunlink, hheader, hsplit]
  rw [← hthreads] at hle hdvd hreq ⊢
  generalize s.unlink .global prev b = u at *
  have hb₁ : l₁.place b = some (.held t) := (hheld b).mpr rfl
  have howner : Rep lossy t l₁ (u.setOwner b t) :=
    h₁.write ⟨rfl, rfl, rfl, fun _ _ => rfl⟩ rfl fun c hc => by
      have hcb : c ≠ b := fun heq => hc ((hheld c).mpr heq)
      exact Function.update_of_ne hcb ..
  have hlength' : (u.setOwner b t).length b = l₁.size b := by
    rw [← hlength]
    simp [State.length, State.setOwner]
  by_cases hlt : (u.threads t).size + structSize < l₁.size b
  · rw [if_pos hlt]
    obtain ⟨l₂, h₂, hheld₂, hne, hsize, hrest⟩ := howner.split hb₁ rfl
      (Nat.le_of_lt hlt) hdvd { u.setOwner b t with
        blocks := u.blocks ++ [b + (structSize + (u.threads t).size)] } rfl
      (by simp [State.setOwner]) rfl (fun _ _ => rfl) rfl rfl
    generalize b + (structSize + (u.threads t).size) = n at *
    -- both parts stay with the thread until the remainder is pushed
    refine ⟨l₂, Rep.represents (h₂.write ?_ rfl fun c hc => ?_) ?_⟩
    · exact ⟨rfl, rfl, rfl, fun _ hu => Function.update_of_ne hu ..⟩
    · have hcn : c ≠ n := fun heq => hc ((hheld₂ c).mpr (.inl heq))
      simp [State.setPc, State.setLength, hcn]
    · exact
        { held := fun c => by
            rw [hheld₂, hheld]
            simp [State.setPc, Pc.held, or_comm]
          nodup := by simp [State.setPc, Pc.held, hne.symm]
          length := fun c hc hwhole => by
            simp only [State.setPc, Function.update_self, Pc.held, Pc.splitting] at hc hwhole
            have hcb : c ≠ b := fun heq => hwhole (congrArg some heq.symm)
            obtain rfl : c = n := by simpa [hcb] using hc
            simp [State.length, State.setPc, State.setLength, hrest]
          splitting := fun c hc => by
            simp only [State.setPc, Function.update_self, Pc.splitting, Option.some.injEq] at hc
            simp [← hc, hsize, State.setPc, State.setLength, State.setOwner]
          ready := fun c hc => by simp [State.setPc, Pc.ready] at hc
          size := by simpa [State.setPc, State.setLength, State.setOwner] using hreq }
  · rw [if_neg hlt]
    have h₂ : Rep lossy t l₁ ((u.setOwner b t).setPc t (.unlockGlobal (some b))) :=
      howner.write ⟨rfl, rfl, rfl, fun _ hu => Function.update_of_ne hu ..⟩ rfl fun _ _ => rfl
    exact ⟨l₁, h₂.represents (ThreadOk.of_ready (by simp [State.setPc, Pc.ready]) hheld hlength'
      (by simpa [State.setPc, State.setOwner] using hle)
      (by simpa [State.setPc, State.setOwner] using hreq))⟩

/-- A block that a thread holds, alone, is pushed. -/
theorem Represents.pushRemain (h : Represents lossy l s) {curr remain : Nat}
    (hpc : s.pc t = .pushRemain curr remain) :
    ∃ l', Represents lossy l' ({ s.setNext remain s.globalFreeList with
      globalFreeList := remain }.setPc t (.unlockPushRemain curr)) := by
  obtain ⟨held, -, length, -, -, size⟩ := h.threads t
  rw [← State.pc, hpc] at held length
  have hremain : l.place remain = some (.held t) := (held remain).mpr List.mem_cons_self
  refine ⟨_, Rep.represents ((h.rep t).push (f := .global) ?_ hremain rfl ?_ ?_ ?_ ?_) ?_⟩
  · exact ⟨rfl, rfl, rfl, fun _ hu => Function.update_of_ne hu ..⟩
  · intro f' hf
    cases f' with
    | heap h' => rfl
    | global => exact absurd rfl hf
  · simp [State.next, State.setPc, State.setNext, State.first]
  · rw [← length remain List.mem_cons_self (by simp [Pc.splitting])]
    simp [State.length, State.setPc, State.setNext]
  · intro c hc
    simp [State.setPc, State.setNext, hc]
  · exact ThreadOk.of_empty (by simp [State.setPc, Pc.held])
      (not_held_put (fun c => (held c).trans List.mem_singleton) (by simp) _)
      (by simpa [State.setPc, State.setNext] using size)

/-- The remainder of a global block is pushed to the heap of the thread. -/
theorem Represents.pushSplit (h : Represents lossy l s) {curr newRemain : Nat}
    (hpc : s.pc t = .pushSplit curr newRemain) :
    ∃ l', Represents lossy l' (((s.setNext newRemain (s.head (heapOf t))).setHead (heapOf t)
      newRemain).setPc t (.unlockSplit curr)) := by
  obtain ⟨held, nodup, length, splitting, -, size⟩ := h.threads t
  rw [← State.pc, hpc] at held nodup length splitting
  have hne : curr ≠ newRemain := by simpa [Pc.held] using nodup
  have hremain : l.place newRemain = some (.held t) := (held _).mpr (by simp [Pc.held])
  refine ⟨_, Rep.represents ((h.rep t).push (f := .heap (heapOf t)) ?_ hremain ?_ ?_ ?_ ?_ ?_) ?_⟩
  · exact ⟨rfl, rfl, rfl, fun _ hu => Function.update_of_ne hu ..⟩
  · exact Function.update_self ..
  · exact fun _ => State.first_of_head rfl rfl
  · simp [State.next, State.setPc, State.setHead, State.setNext, State.first]
  · rw [← length newRemain (by simp [Pc.held]) (by simpa [Pc.splitting] using hne)]
    simp [State.length, State.setPc, State.setHead, State.setNext]
  · intro c hc
    simp [State.setPc, State.setHead, State.setNext, hc]
  · have hlength : ∀ c, c ≠ newRemain → (((s.setNext newRemain (s.head (heapOf t))).setHead
        (heapOf t) newRemain).setPc t (.unlockSplit curr)).length c = s.length c := fun c hc => by
      simp [State.length, State.setPc, State.setHead, State.setNext, hc]
    exact
      { held := fun c => by
          rw [Ledger.put_place_eq_some, held]
          simp [State.setPc, Pc.held]
          grind
        nodup := by simp [State.setPc, Pc.held]
        length := fun c hc hne => by simp_all [State.setPc, Pc.held, Pc.splitting]
        splitting := fun c hc => by
          simp only [State.setPc, Function.update_self, Pc.splitting, Option.some.injEq] at hc
          simpa [← hc, State.setPc, State.setHead, State.setNext] using splitting curr rfl
        ready := fun c hc => by simp [State.setPc, Pc.ready] at hc
        size := by simpa [State.setPc, State.setHead, State.setNext] using size }

/-- The header of a split block gets its length. -/
theorem Represents.setLength (h : Represents lossy l s) {curr : Nat}
    (hpc : s.pc t = .setLength curr) :
    Represents lossy l
      ((s.setLength curr (s.threads t).size).setPc t (.unlockGlobal (some curr))) := by
  obtain ⟨held, -, -, splitting, -, size⟩ := h.threads t
  rw [← State.pc, hpc] at held splitting
  have hcurr : l.place curr = some (.held t) := (held curr).mpr List.mem_cons_self
  refine Rep.represents ((h.rep t).write ?_ rfl fun c hc => ?_) ?_
  · exact ⟨rfl, rfl, rfl, fun _ hu => Function.update_of_ne hu ..⟩
  · have hne : c ≠ curr := by
      rintro rfl
      exact hc hcurr
    simp [State.setPc, State.setLength, hne]
  · have hsize := splitting curr rfl
    refine ThreadOk.of_ready (b := curr) ?_ (fun c => (held c).trans List.mem_singleton) ?_ ?_ ?_
    · simp [State.setPc, Pc.ready]
    · simp [State.length, State.setPc, State.setLength, hsize]
    · simp [State.setPc, State.setLength, hsize]
    · simpa [State.setPc, State.setLength] using size

/-- A thread hands out the block that it returns. -/
theorem Represents.ret (h : Represents lossy l s) {b : Nat} (hready : (s.pc t).ready = some b)
    (hregions : s'.regions = s.regions) (hblocks : s'.blocks = s.blocks)
    (hgrants : s'.grants = s.grants ++ [⟨b, (s.threads t).request⟩])
    (hthreads : s'.threads = Function.update s.threads t { s.threads t with pc := .idle })
    (hfirst : s'.first = s.first) (hmem : s'.mem = s.mem) : ∃ l', Represents lossy l' s' := by
  obtain ⟨held, -, length, -, ready, size⟩ := h.threads t
  obtain ⟨hheld, hsplitting⟩ := Pc.held_eq_of_ready hready
  rw [← State.pc, hheld] at held length
  rw [hsplitting] at length
  have hb : l.place b = some (.held t) := (held b).mpr List.mem_cons_self
  have hlength := length b List.mem_cons_self (by simp)
  have hfits : Unwrapped (s.threads t).request → (s.threads t).request ≤ l.size b :=
    fun hwrap => Nat.le_trans (le_align8 hwrap.1) (size ▸ ready b hready)
  refine ⟨_, Rep.represents ((h.rep t).ret hb hlength hfits hregions hblocks hgrants
    (fun u hu => ?_) hfirst hmem) ?_⟩
  · rw [hthreads, Function.update_of_ne hu]
  · rw [hthreads, Function.update_self]
    exact ThreadOk.of_empty rfl
      (not_held_put (fun c => (held c).trans List.mem_singleton) (by simp) _) size

/-- One turn of the loop of a refill: the front of the block that the thread
holds goes to its heap. -/
theorem Rep.carve (h : Rep lossy t l s) {b n : Nat}
    (hheld : ∀ c, l.place c = some (.held t) ↔ c = b) (hn : n = b + (structSize + blockSize))
    (hm : blockSize + structSize ≤ l.size b) (hknown : n ∈ s.blocks) :
    ∃ l', Rep lossy t l' { s with
        mem := Function.update s.mem b (Block.mk blockSize (s.head (heapOf t)) t)
        head := Function.update s.head (heapOf t) b } ∧
      (∀ c, l'.place c = some (.held t) ↔ c = n) ∧ l'.size n = l.size b - 4120 := by
  have hb : l.place b = some (.held t) := (hheld b).mpr rfl
  obtain ⟨l₁, h₁, hheld₁, hne, hsize, hrest⟩ := h.split hb hn hm (by decide) s rfl
    (fun c hc => hc.elim id fun heq => heq ▸ hknown) rfl (fun _ _ => rfl) rfl rfl
  have hb₁ : l₁.place b = some (.held t) := (hheld₁ b).mpr (.inr hb)
  refine ⟨_, h₁.push (f := .heap (heapOf t)) ?_ hb₁ ?_ ?_ ?_ ?_ ?_, fun c => ?_, ?_⟩
  · exact ⟨rfl, rfl, rfl, fun _ _ => rfl⟩
  · exact Function.update_self ..
  · exact fun _ => State.first_of_head rfl rfl
  · simp [State.next, State.first]
  · simp [State.length, hsize]
  · intro c hc
    simp [hc]
  · rw [Ledger.put_place_eq_some, hheld₁, hheld]
    grind
  · rw [Ledger.put_size, hrest]
    rfl

/-- The blocks of a refill: three for the heap, and one that goes on to the global list. -/
theorem Represents.refillChunk (h : Represents lossy l s) {curr chunk : Nat}
    (hpc : s.pc t = .refill curr) (hne : chunk ≠ 0) (hok : s.VmallocOk chunk initialChunkSize) :
    ∃ l', Represents lossy l' (refillChunk s t curr chunk) := by
  obtain ⟨-, hpage, hend, hfresh⟩ := hok.resolve_left hne
  have hnone := h.not_held (t := t) (by rw [hpc]; rfl)
  have hreq := (h.threads t).size
  obtain ⟨l₁, h₁, hheld₁, hsize₁⟩ := (h.rep t).grow hne hend (by decide)
    ⟨by omega, by decide⟩ hfresh { s with
      regions := s.regions ++ [⟨chunk, 16384⟩]
      blocks := s.blocks ++ [chunk, chunk + 4120, chunk + 8240, chunk + 12360] } rfl
    (fun c hc => by rcases hc with hc | rfl <;> simp [*]) rfl (fun _ _ => rfl) rfl rfl
  obtain ⟨l₂, h₂, hheld₂, hsize₂⟩ := h₁.carve (n := chunk + 4120) (fun c => by simp [hheld₁, hnone])
    rfl (by rw [hsize₁]; decide) (by simp)
  obtain ⟨l₃, h₃, hheld₃, hsize₃⟩ := h₂.carve (n := chunk + 8240) hheld₂
    (by simp [structSize, blockSize]) (by rw [hsize₂, hsize₁]; decide) (by simp)
  obtain ⟨l₄, h₄, hheld₄, hsize₄⟩ := h₃.carve (n := chunk + 12360) hheld₃
    (by simp [structSize, blockSize]) (by rw [hsize₃, hsize₂, hsize₁]; decide) (by simp)
  rw [hsize₃, hsize₂, hsize₁] at hsize₄
  rw [refillChunk_eq]
  refine ⟨l₄, Rep.represents (h₄.write ?_ ?_ fun c hc => ?_) ?_⟩
  · exact ⟨rfl, rfl, rfl, fun _ hu => Function.update_of_ne hu ..⟩
  · funext f
    cases f <;> simp [State.first]
  · have hcn : c ≠ chunk + 12360 := fun heq => hc ((hheld₄ c).mpr heq)
    simp [hcn, blockSize]
  · exact
      { held := fun c => by simp [hheld₄, Pc.held]
        nodup := by simp [Pc.held]
        length := fun c hc _ => by
          obtain rfl : c = chunk + 12360 := by simpa [Pc.held] using hc
          simp [State.length, hsize₄, initialChunkSize, structSize]
        splitting := fun c hc => by simp [Pc.splitting] at hc
        ready := fun c hc => by simp [Pc.ready] at hc
        size := by simpa using hreq }

/-- The block of the fallback is handed out at once. -/
theorem Represents.fallback (h : Represents lossy l s) {vm : Nat} (hpc : s.pc t = .fallback)
    (hne : vm ≠ 0) (hok : s.VmallocOk vm (alignedLength (s.threads t).size)) :
    ∃ l', Represents lossy l' (State.ret { s with
      mem := Function.update s.mem vm
        (Block.mk (sub64 (alignedLength (s.threads t).size) structSize) 0 t)
      regions := s.regions ++ [⟨vm, alignedLength (s.threads t).size⟩]
      blocks := s.blocks ++ [vm] } t vm) := by
  obtain ⟨hpos, hpage, hend, hfresh⟩ := hok.resolve_left hne
  have hnone := h.not_held (t := t) (by rw [hpc]; rfl)
  have hreq := (h.threads t).size
  have hroom := @le_alignedLength (s.threads t).size
  have hdvd := alignedLength_dvd (s.threads t).size
  generalize alignedLength (s.threads t).size = len at *
  have hlen : structSize ≤ len := by
    rw [structSize]
    omega
  obtain ⟨l₁, h₁, hheld₁, hsize₁⟩ := (h.rep t).grow hne hend hlen
    ⟨by omega, by rw [structSize]; omega⟩ hfresh { s with
      regions := s.regions ++ [⟨vm, len⟩]
      blocks := s.blocks ++ [vm] } rfl (by simp) rfl (fun _ _ => rfl) rfl rfl
  have hheld : ∀ c, l₁.place c = some (.held t) ↔ c = vm := fun c => by simp [hheld₁, hnone]
  have hvm : l₁.place vm = some (.held t) := (hheld vm).mpr rfl
  have hsub : sub64 len structSize = len - structSize := by
    simp only [sub64, sizeMod, structSize] at hend ⊢
    omega
  have h₂ : Rep lossy t l₁ { s with
      mem := Function.update s.mem vm (Block.mk (sub64 len structSize) 0 t)
      regions := s.regions ++ [⟨vm, len⟩]
      blocks := s.blocks ++ [vm] } := by
    refine h₁.write ⟨rfl, rfl, rfl, fun _ _ => rfl⟩ rfl fun c hc => ?_
    have hcv : c ≠ vm := fun heq => hc ((hheld c).mpr heq)
    exact Function.update_of_ne hcv ..
  have hfits : Unwrapped (s.threads t).request → (s.threads t).request ≤ l₁.size vm := by
    intro hwrap
    have := le_align8 hwrap.1
    have := hroom (hreq ▸ hwrap.2)
    rw [hsize₁]
    omega
  refine ⟨_, Rep.represents (h₂.ret hvm ?_ hfits ?_ ?_ ?_ ?_ ?_ ?_) ?_⟩
  · simp [State.length, hsub, hsize₁]
  · rfl
  · rfl
  · rfl
  · exact fun _ hu => Function.update_of_ne hu ..
  · rfl
  · rfl
  · exact ThreadOk.of_empty (by simp [State.ret, State.setPc, Pc.held])
      (not_held_put hheld (by simp) _) (by simpa [State.ret, State.setPc] using hreq)

/-! ### Every step -/

/-- Every step of a thread inside `mymalloc` keeps a ledger. -/
theorem Represents.threadStep (h : Represents lossy l s) {vm : Nat}
    (hfresh : (Act.run t vm).Fresh s)
    (hcursor : ∀ curr, s.pc t = .scanLocal curr → CursorOk lossy s (.heap (heapOf t)) curr)
    (hstep : threadStep s t vm = some s') : ∃ l', Represents lossy l' s' := by
  obtain ⟨pc, hpc, htaken⟩ := exists_taken hstep
  cases htaken with
  | @goes op _ _ hgoes =>
      -- the locks are not part of the ledger
      refine h.quiet hpc (s.lockOp_setPc_threads ..) (s.lockOp_mem t op) ?_
        (s.lockOp_regions t op) (s.lockOp_blocks t op) (s.lockOp_grants t op) ?_ ?_ ?_
      · funext f
        cases f with
        | heap n => exact congrFun (s.lockOp_head t op) n
        | global => exact s.lockOp_globalFreeList t op
      all_goals cases hgoes <;> rfl
  | refill hempty hvm =>
      refine h.refillChunk hpc hvm (hfresh _ ?_)
      rw [State.pc] at hpc
      simp [State.vmallocAt, hpc, hempty]
  | pushRemain => exact h.pushRemain hpc
  | takeLocal hb hsearch => exact h.takeLocal hpc (hcursor _ hpc) hsearch hb
  | takeGlobal hb hsearch => exact h.takeGlobal hpc hsearch hb
  | pushSplit => exact h.pushSplit hpc
  | setLength => exact ⟨l, h.setLength hpc⟩
  | @returns _ _ curr hreturns =>
      have hready : (s.pc t).ready = some curr := by
        rw [hpc]
        cases hreturns <;> rfl
      cases hreturns <;> exact h.ret hready rfl rfl rfl rfl rfl rfl
  | fallback hvm =>
      refine h.fallback hpc hvm (hfresh _ ?_)
      rw [State.pc] at hpc
      simp [State.vmallocAt, hpc]

/-- A search of a heap starts where `CursorOk` allows it. -/
def Act.CursorOk (lossy : Prop) (s : State) : Act → Prop
  | .run tid _ =>
      ∀ curr, s.pc tid = .scanLocal curr → Mymalloc.CursorOk lossy s (.heap (heapOf tid)) curr
  | _ => True

theorem Represents.step (h : Represents lossy l s) {a : Act} (hfresh : a.Fresh s)
    (hcursor : a.CursorOk lossy s) (hstep : step s a = some s') : ∃ l', Represents lossy l' s' := by
  rcases step_cases hstep with rfl | ⟨tid, size, rfl, hidle, rfl⟩ | ⟨tid, vm, rfl, hrun⟩
  · exact ⟨l, h⟩
  · have hnone := h.not_held (t := tid) (by rw [hidle]; rfl)
    refine ⟨l, Rep.represents (t := tid) ((h.rep tid).write ?_ rfl fun _ _ => rfl)
      (ThreadOk.of_empty ?_ hnone ?_)⟩
    · exact ⟨rfl, rfl, rfl, fun _ hu => Function.update_of_ne hu ..⟩
    · simp [Pc.held]
    · simp
  · exact h.threadStep hfresh hcursor hrun

/-! ### What a step records -/

/-- The records that a step of thread `t` makes: at most one pointer, for its own
request, and at most one region, what it asked `vmalloc` for. -/
structure Records (s s' : State) (t vm : Nat) : Prop where
  threads : ∃ pc', s'.threads = Function.update s.threads t { s.threads t with pc := pc' }
  grants : s'.grants = s.grants ∨ ∃ b,
    s'.grants = s.grants ++ [⟨b, (s.threads t).request⟩] ∧
      ((s.pc t).ready = some b ∨ s.pc t = .fallback ∧ b = vm ∧ vm ≠ 0)
  regions : s'.regions = s.regions ∨ ∃ length,
    s.vmallocAt t = some length ∧ vm ≠ 0 ∧ s'.regions = s.regions ++ [⟨vm, length⟩]

theorem Records.request {vm : Nat} (h : Records s s' t vm) (u : Nat) :
    (s'.threads u).request = (s.threads u).request := by
  obtain ⟨pc', hthreads⟩ := h.threads
  by_cases hu : u = t <;> simp [hthreads, hu]

theorem takeLocal_regions (s : State) (tid prev curr : Nat) :
    (Mymalloc.takeLocal s tid prev curr).regions = s.regions := by
  unfold Mymalloc.takeLocal
  dsimp only
  split <;> split <;> rfl

theorem takeGlobal_regions (s : State) (tid prev curr : Nat) :
    (Mymalloc.takeGlobal s tid prev curr).regions = s.regions := by
  unfold Mymalloc.takeGlobal
  dsimp only
  split <;> split <;> rfl

theorem threadStep_records {vm : Nat} (hstep : threadStep s t vm = some s') :
    Records s s' t vm := by
  have hquiet : ∀ {s' : State} {pc' : Pc},
      s'.threads = Function.update s.threads t { s.threads t with pc := pc' } →
      s'.grants = s.grants → s'.regions = s.regions → Records s s' t vm :=
    fun hthreads hgrants hregions => ⟨⟨_, hthreads⟩, .inl hgrants, .inl hregions⟩
  obtain ⟨pc, hpc, htaken⟩ := exists_taken hstep
  cases htaken with
  | @goes op =>
      exact hquiet (s.lockOp_setPc_threads ..) (s.lockOp_grants t op) (s.lockOp_regions t op)
  | refill hempty hvm =>
      have hregion : s.vmallocAt t = some initialChunkSize := by
        rw [State.pc] at hpc
        simp [State.vmallocAt, hpc, hempty]
      rw [refillChunk_eq]
      exact ⟨⟨_, rfl⟩, .inl rfl, .inr ⟨_, hregion, hvm, rfl⟩⟩
  | takeLocal => exact hquiet (takeLocal_threads ..) (takeLocal_frame ..).2.2 (takeLocal_regions ..)
  | @takeGlobal prev b =>
      obtain ⟨pc', hthreads, -⟩ := takeGlobal_threads s t prev b
      exact hquiet hthreads (takeGlobal_frame ..).2.2 (takeGlobal_regions ..)
  | pushRemain | pushSplit | setLength => exact hquiet rfl rfl rfl
  | @returns _ _ curr hreturns =>
      have hready : (s.pc t).ready = some curr := by
        rw [hpc]
        cases hreturns <;> rfl
      cases hreturns <;> exact ⟨⟨_, rfl⟩, .inr ⟨curr, rfl, .inl hready⟩, .inl rfl⟩
  | fallback hvm =>
      have hregion : s.vmallocAt t = some (alignedLength (s.threads t).size) := by
        rw [State.pc] at hpc
        simp [State.vmallocAt, hpc]
      exact ⟨⟨_, rfl⟩, .inr ⟨vm, rfl, .inr ⟨hpc, rfl, hvm⟩⟩, .inr ⟨_, hregion, hvm, rfl⟩⟩

end NjuOs.Mymalloc
