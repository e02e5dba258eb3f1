import NjuOs.Mymalloc.Tiled

/-!
Is what `mymalloc` returns as large as what was asked for?

The size goes through four sums in `size_t`. A block of a list is never too
small: a size that has wrapped around to something small is the only way to get
one, and regions lie so far above address 0 that no block is within 4096 bytes of
the largest size. The rounding to pages can wrap too, and asks `vmalloc` for
nothing then, which fails, or for one page: that takes a size above 2^64 - 24. So
these are the requests that are not served (`granted_room_iff`).
-/

namespace NjuOs.Mymalloc

open NjuOs.Lib

/-- The pointer number `i` is one to that many bytes: it is aligned, and the bytes
are in the payload of its block, which overlaps no other one. -/
structure Roomy (s : State) (i : Nat) (g : Grant) : Prop where
  aligned : 8 ∣ g.ptr
  inside : ∃ b, s.At (.caller i) b ∧ b + structSize ≤ g.ptr ∧
    g.ptr + g.request ≤ b + structSize + s.length b ∧
    ∀ site c, s.At site c → site ≠ .caller i →
      Region.Apart ⟨b, structSize + s.length b⟩ ⟨c, structSize + s.length c⟩

/-- The regions are above the first page, and a request that is served and does not
come within a header of 2^64 has not wrapped around. -/
structure SizesOk (s : State) : Prop where
  regions : ∀ r ∈ s.regions, 4096 ≤ r.start
  grants : ∀ g ∈ s.grants, g.request + structSize ≤ sizeMod → Unwrapped g.request

theorem sizesOk_init : SizesOk init where
  regions _ hr := (nomatch hr)
  grants _ hg := (nomatch hg)

/-! ### Sizes -/

/-- A size up to 2^64 - 24 is rounded up to a multiple of 8 in that range. -/
theorem align8_le {request : Nat} (h : request + structSize ≤ sizeMod) :
    align8 request + structSize ≤ sizeMod := by
  simp only [align8, sizeMod, structSize] at *
  omega

/-- The rounding to pages does not wrap around to nothing. -/
theorem unwrapped_of_alignedLength {request : Nat} (h : request + structSize ≤ sizeMod)
    (hpos : 0 < alignedLength (align8 request)) : Unwrapped request := by
  have hle := align8_le h
  generalize halign : align8 request = size at hle hpos
  rw [Unwrapped, halign]
  simp only [alignedLength, sizeMod, structSize] at *
  omega

/-- Nor does it where there is a block of that size above the first page. -/
theorem unwrapped_of_block {request b length : Nat} (h : request + structSize ≤ sizeMod)
    (hpage : 4096 ≤ b) (hend : b + (structSize + length) ≤ sizeMod)
    (hlength : align8 request ≤ length) : Unwrapped request := by
  rw [Unwrapped]
  simp only [sizeMod, structSize] at *
  omega

/-! ### Every step -/

section Steps

variable {l : Blocks} {s s' : State}

/-- A block is above the first page. -/
theorem SizesOk.page_le (h : SizesOk s) {lossy : Prop} (hok : HeapOk lossy l s) {b : Nat}
    (hb : l.place b ≠ none) : 4096 ≤ b := by
  obtain ⟨r, hr, hle, -⟩ := l.tiling.inside b hb
  rw [← hok.regions] at hr
  exact Nat.le_trans (h.regions r hr) hle

theorem SizesOk.threadStep (h : SizesOk s) {t vm : Nat} (hrep : Represents False l s)
    (hfresh : (Act.run t vm).Fresh s) (hstep : threadStep s t vm = some s') : SizesOk s' := by
  have hrecords := threadStep_records hstep
  obtain ⟨held, -, -, -, ready, size⟩ := hrep.threads t
  constructor
  case regions =>
    rcases hrecords.regions with hsame | ⟨length, hasked, hne, hnew⟩
    · rw [hsame]
      exact h.regions
    · -- a page that is not the first one
      obtain ⟨-, hpage, -⟩ := (hfresh length hasked).resolve_left hne
      rw [hnew]
      intro r hr
      rcases List.mem_append.mp hr with hr | hr
      · exact h.regions r hr
      · rw [List.mem_singleton.mp hr]
        exact Nat.le_of_dvd (Nat.pos_of_ne_zero hne) (Nat.dvd_of_mod_eq_zero hpage)
  case grants =>
    rcases hrecords.grants with hsame | ⟨b, hnew, hblock⟩
    · rw [hsame]
      exact h.grants
    · rw [hnew]
      intro g hg hle
      rcases List.mem_append.mp hg with hg | hg
      · exact h.grants g hg hle
      · rw [List.mem_singleton.mp hg] at hle ⊢
        rcases hblock with hready | ⟨hpc, rfl, hne⟩
        · -- the block of a list has room for the rounded size
          have hb : l.place b ≠ none := by
            rw [(held b).mpr (Pc.held_of_ready hready)]
            exact Option.some_ne_none _
          exact unwrapped_of_block hle (h.page_le hrep.toHeapOk hb) (hrep.bounds hb).2
            (size ▸ ready b hready)
        · -- `vmalloc` gave more than nothing
          have hasked : s.vmallocAt t = some (alignedLength (s.threads t).size) := by
            rw [State.pc] at hpc
            simp [State.vmallocAt, hpc]
          obtain ⟨hpos, -⟩ := (hfresh _ hasked).resolve_left hne
          exact unwrapped_of_alignedLength hle (size ▸ hpos)

theorem SizesOk.step (h : SizesOk s) {a : Act} (hrep : Represents False l s)
    (hfresh : a.Fresh s) (hstep : step s a = some s') : SizesOk s' := by
  rcases step_cases hstep with rfl | ⟨tid, size, rfl, -, rfl⟩ | ⟨tid, vm, rfl, hrun⟩
  · exact h
  · exact ⟨h.regions, h.grants⟩
  · exact h.threadStep hrep hfresh hrun

/-- After a sequential run the sizes are in order. -/
theorem sequential_sizesOk {acts : List Act} (hruns : Runs step Sequential init acts s) :
    (∃ l, Represents False l s) ∧ SizesOk s := by
  have hinv : ((∃ l, Represents False l s) ∧ AloneInv s) ∧ SizesOk s := by
    refine hruns.invariant (fun s => ((∃ l, Represents False l s) ∧ AloneInv s) ∧ SizesOk s) ?_
      ⟨⟨⟨_, represents_init False⟩, aloneInv_init⟩, sizesOk_init⟩
    rintro s a s' ⟨⟨⟨l, hrep⟩, halone⟩, hsizes⟩ ⟨hfresh, ha⟩ hstep
    exact ⟨⟨hrep.step hfresh (halone.cursorOk a) hstep, halone.step ha hstep⟩,
      hsizes.step hrep hfresh hstep⟩
  exact ⟨hinv.1.1, hinv.2⟩

end Steps

/-! ### What is granted -/

section Granted

variable {s : State} {i : Nat} {g : Grant}

/-- A caller has the block of its pointer. -/
theorem at_caller_iff (hg : s.grants[i]? = some g) {b : Nat} :
    s.At (.caller i) b ↔ b = g.block := by
  rw [State.At, hg, Option.map_some, Option.some.injEq, eq_comm]

theorem HeapTiled.apart (h : HeapTiled s) {site site' : Site} {b c : Nat} (hb : s.At site b)
    (hc : s.At site' c) (hne : site' ≠ site) :
    Region.Apart ⟨b, structSize + s.length b⟩ ⟨c, structSize + s.length c⟩ := by
  apply h.tiled.apart ⟨site, hb⟩ ⟨site', hc⟩
  rintro rfl
  exact hne (h.onePlace b site' site hc hb)

/-- What has not wrapped around fits. -/
theorem roomy_of_unwrapped (htiled : HeapTiled s) (hg : s.grants[i]? = some g)
    (hfits : g.request ≤ s.length g.block) : Roomy s i g := by
  have hat : s.At (.caller i) g.block := (at_caller_iff hg).mpr rfl
  constructor
  case aligned => exact Nat.dvd_add (htiled.aligned _ _ hat).1 (by decide)
  case inside =>
    refine ⟨g.block, hat, Nat.le_refl _, Nat.add_le_add_left hfits _, fun site c hc hne => ?_⟩
    exact htiled.apart hat hc hne

/-- **What `mymalloc` returns is as large as what was asked for** exactly when a
header more does not exceed 2^64. -/
theorem granted_room_iff {acts : List Act} (hruns : Runs step Sequential init acts s)
    (hidle : ∀ t, s.pc t = .idle) (hg : s.grants[i]? = some g) :
    Roomy s i g ↔ g.request + structSize ≤ sizeMod := by
  obtain ⟨⟨l, hrep⟩, hsizes⟩ := sequential_sizesOk hruns
  have hok := hrep.toHeapOk
  have hmem : g ∈ s.grants := List.mem_of_getElem? hg
  have hout : l.place g.block = some .out := (hok.out _).mpr (List.mem_map_of_mem hmem)
  have hlength := hok.outLength _ hout
  constructor
  · rintro ⟨-, b, hb, hstart, hend, -⟩
    obtain rfl := (at_caller_iff hg).mp hb
    have hplace : l.place g.block ≠ none := by
      rw [hout]
      exact Option.some_ne_none _
    have hpage := hsizes.page_le hok hplace
    have hbound := (hok.bounds hplace).2
    rw [hlength, Grant.ptr] at hend
    omega
  · intro hle
    apply roomy_of_unwrapped (hrep.heapTiled hidle) hg
    rw [hlength]
    exact hok.fits g hmem (hsizes.grants g hmem hle)

end Granted

/-- The second of two callers got the 3968 bytes that it asked for. -/
theorem granted_room_two :
    ∃ s, Runs step Sequential init (firstActs 1 ++ hitActs 65 3968) s ∧
      Roomy s 1 ⟨77928, 3968⟩ := by
  obtain ⟨s, hruns, hidle, hgrants⟩ := twoCalls_runs
  have hg : s.grants[1]? = some ⟨77928, 3968⟩ := by rw [hgrants]; rfl
  exact ⟨s, hruns, (granted_room_iff hruns hidle hg).mpr (by decide)⟩

/-- A request for 2^64 - 1 bytes, the first one: the size wraps around to 0, and the
caller gets a page. -/
theorem granted_page :
    ∃ s, Runs step Sequential init (barrenActs 1 18446744073709551615 ++ [.run 1 65536]) s ∧
      (∀ t, s.pc t = .idle) ∧ s.grants = [⟨65536, 18446744073709551615⟩] ∧
      ¬ Roomy s 0 ⟨65536, 18446744073709551615⟩ := by
  have hsize : align8 18446744073709551615 = 0 := by decide
  obtain ⟨s₁, hbarren, hthreads₁, -, -, hregions₁, hgrants₁⟩ :=
    barren_runs 1 (by decide : 18446744073709551615 ≠ 0)
  rw [hsize] at hthreads₁
  have hok : s₁.VmallocOk 65536 (alignedLength 0) := by
    rw [State.VmallocOk, hregions₁]
    decide
  obtain ⟨s₂, hfallback, hthreads₂, hlength, hgrants₂⟩ :=
    fallback_runs (by rw [hthreads₁, Function.update_self]) (by decide) hok
  rw [hgrants₁, List.nil_append] at hgrants₂
  refine ⟨s₂, (hbarren.append hfallback).and (everyStep_alone (fun _ => rfl) ?_), fun t => ?_,
    hgrants₂, ?_⟩
  · simp
  · rw [State.pc, hthreads₂, hthreads₁]
    by_cases ht : t = 1
    · rw [ht, Function.update_self]
    · rw [Function.update_of_ne ht, Function.update_of_ne ht]
      rfl
  · rintro ⟨-, b, hb, -, hend, -⟩
    have hg : s₂.grants[0]? = some ⟨65536, 18446744073709551615⟩ := by rw [hgrants₂]; rfl
    obtain rfl := (at_caller_iff hg).mp hb
    rw [State.length, hlength] at hend
    revert hend
    decide

end NjuOs.Mymalloc
