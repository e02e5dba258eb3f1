import NjuOs.Mymalloc.Basic

/-!
Calls that no other thread gets in the way of.

Each lemma runs one thread through a part of `mymalloc` and says what that changes:
the refill of an empty heap, the push of its remainder, the split of a block from
the global list, and the two halves of a hit in the heap.
-/

namespace NjuOs.Mymalloc

open NjuOs.Lib

/-- A call of `mymalloc` on an empty heap, up to the remainder of its refill. -/
def refillActs (t size chunk : Nat) : List Act :=
  [.malloc t size, .run t 0, .run t 0, .run t 0, .run t chunk]

/-- A call that takes the first block of its heap. -/
def hitActs (t size : Nat) : List Act := [.malloc t size, .run t 0] ++ List.replicate 4 (.run t 0)

/-- The first call, whose refill gets nothing, up to the fallback. -/
def barrenActs (t size : Nat) : List Act :=
  [.malloc t size, .run t 0, .run t 0, .run t 0, .run t 0, .run t 0] ++ List.replicate 6 (.run t 0)

/-- The first call, for 8 bytes, up to the push of what it split off. -/
def toSplitActs (t : Nat) : List Act := refillActs t 8 65536 ++ List.replicate 9 (.run t 0)

/-- The first call, for 8 bytes. -/
def firstActs (t : Nat) : List Act := toSplitActs t ++ List.replicate 5 (.run t 0)

section Runs

variable {s : State} {t : Nat}

/-- A step of a thread for which `vmalloc`, if it is called, has nothing. -/
theorem runs_run_iff {s' : State} {acts : List Act} :
    Runs step Act.Fresh s (.run t 0 :: acts) s' ↔
      ∃ u, threadStep s t 0 = some u ∧ Runs step Act.Fresh u acts s' := by
  have hfresh : (Act.run t 0).Fresh s := fun length _ => .inl rfl
  rw [Runs.cons_iff, and_iff_right hfresh]
  rfl

theorem runs_malloc_iff {s' : State} {size : Nat} {acts : List Act} (hidle : s.pc t = .idle)
    (hsize : size ≠ 0) :
    Runs step Act.Fresh s (.malloc t size :: acts) s' ↔
      Runs step Act.Fresh { s with
        threads := Function.update s.threads t (.mk size (align8 size) .readHead) } acts s' := by
  have hfresh : (Act.malloc t size).Fresh s := trivial
  rw [State.pc] at hidle
  rw [Runs.cons_iff, and_iff_right hfresh, step, if_neg (not_not_intro hidle), if_neg hsize]
  simp only [Option.some.injEq, exists_eq_left']

/-- A heap that is locked and unlocked again is as free as it was. -/
theorem update_heapLock_of_free (hfree : s.heapLock (heapOf t) = none) :
    Function.update s.heapLock (heapOf t) none = s.heapLock := by
  rw [← hfree, Function.update_eq_self]

theorem refill_runs (size : Nat) {chunk : Nat} (hidle : s.pc t = .idle) (hsize : size ≠ 0)
    (hhead : s.head (heapOf t) = 0) (hfree : s.heapLock (heapOf t) = none) (hchunk : chunk ≠ 0)
    (hok : s.VmallocOk chunk initialChunkSize) :
    ∃ s', Runs step Act.Fresh s (refillActs t size chunk) s' ∧
      s'.threads =
        Function.update s.threads t ⟨size, align8 size, .lockPushRemain 0 (chunk + 12360)⟩ ∧
      s'.heapLock = Function.update s.heapLock (heapOf t) (some t) ∧
      s'.globalLock = s.globalLock ∧ s'.globalFreeList = s.globalFreeList ∧
      s'.regions = s.regions ++ [⟨chunk, initialChunkSize⟩] ∧
      Linked 0 s'.next (s'.head (heapOf t)) [chunk + 8240, chunk + 4120, chunk] ∧
      (∀ b ∈ [chunk + 8240, chunk + 4120, chunk], (s'.mem b).length = blockSize) ∧
      (s'.mem (chunk + 12360)).length = 4000 ∧ s'.grants = s.grants ∧ s'.blocks ≠ [] := by
  have hok' : ∀ s' : State, s'.regions = s.regions → s'.VmallocOk chunk (4 * 4096) := by
    intro s' hregions
    rwa [State.VmallocOk, hregions]
  rw [refillActs, exists_congr fun s' => and_congr_left' (runs_malloc_iff hidle hsize)]
  simp [Runs.cons_iff, Runs.nil_iff, Act.Fresh, State.vmallocAt, step, threadStep, State.setPc,
    hhead, hfree, hchunk, hok', refillChunk_eq, Linked, State.next, blockSize, initialChunkSize]

/-- The thread that refilled pushes the remainder to the global list. -/
theorem push_runs {size remain : Nat}
    (hthread : s.threads t = ⟨size, size, .lockPushRemain 0 remain⟩) (hfree : s.globalLock = none) :
    ∃ s', Runs step Act.Fresh s (List.replicate 4 (.run t 0)) s' ∧
      s'.threads = Function.update s.threads t ⟨size, size, .lockLocal 0⟩ ∧ s'.head = s.head ∧
      s'.heapLock = Function.update s.heapLock (heapOf t) none ∧ s'.globalLock = none ∧
      s'.globalFreeList = remain ∧ s'.regions = s.regions ∧ s'.grants = s.grants ∧
      s'.mem = Function.update s.mem remain { s.mem remain with next := s.globalFreeList } ∧
      s'.blocks = s.blocks := by
  simp [runs_run_iff, Runs.nil_iff, List.replicate, threadStep, State.setPc, State.setNext,
    hthread, hfree]

/-- A thread whose `curr` is null passes by its own list, and splits the first
block of the global one. -/
theorem split_runs (hthread : s.threads t = ⟨8, 8, .lockLocal 0⟩)
    (hremain : s.globalFreeList = 77896) (hlen : (s.mem 77896).length = 4000)
    (hfree : s.heapLock (heapOf t) = none) (hglobal : s.globalLock = none) :
    ∃ s', Runs step Act.Fresh s (List.replicate 5 (.run t 0)) s' ∧ s'.head = s.head ∧
      s'.heapLock = s.heapLock ∧ s'.globalLock = some t ∧ s'.regions = s.regions ∧
      s'.grants = s.grants ∧
      s'.threads = Function.update s.threads t ⟨8, 8, .lockSplit 77896 77928⟩ ∧
      s'.mem = Function.update (Function.update s.mem 77896 { s.mem 77896 with ownerTid := t })
        77928 { s.mem 77928 with length := 3968 } := by
  have hlock := update_heapLock_of_free hfree
  simp [runs_run_iff, Runs.nil_iff, List.replicate, threadStep, State.setPc, State.search, seek,
    takeGlobal, align8, sizeMod, splitRemain, structSize, State.setOwner, State.setLength, sub64,
    State.next, hthread, hfree, hremain, hlen, hglobal, hlock]

theorem search_null (s : State) (size : Nat) : s.search 0 size = some (0, 0) := rfl

/-- A thread whose `curr` is null passes by its own list, and by the global one if
nothing there is large enough. -/
theorem pass_runs {request size last : Nat}
    (hthread : s.threads t = ⟨request, size, .lockLocal 0⟩)
    (hmiss : s.search s.globalFreeList size = some (last, 0))
    (hfree : s.heapLock (heapOf t) = none) (hglobal : s.globalLock = none) :
    Runs step Act.Fresh s (List.replicate 6 (.run t 0))
      { s with threads := Function.update s.threads t ⟨request, size, .fallback⟩ } := by
  have hlock := update_heapLock_of_free hfree
  have hmiss' : ∀ s' : State, s'.mem = s.mem → s'.blocks = s.blocks →
      s'.search s.globalFreeList size = some (last, 0) := by
    intro s' hmem hblocks
    have hnext : s'.next = s.next := by
      funext b
      rw [State.next, hmem, State.next]
    rw [State.search, hnext, hmem, hblocks]
    exact hmiss
  simp [runs_run_iff, Runs.nil_iff, List.replicate, threadStep, State.setPc, search_null, hthread,
    hfree, hglobal, hlock, hmiss']

/-- The fallback gets a region, and hands it out. -/
theorem fallback_runs {request size vm : Nat} (hthread : s.threads t = ⟨request, size, .fallback⟩)
    (hvm : vm ≠ 0) (hok : s.VmallocOk vm (alignedLength size)) :
    ∃ s', Runs step Act.Fresh s [.run t vm] s' ∧
      s'.threads = Function.update s.threads t ⟨request, size, .idle⟩ ∧
      (s'.mem vm).length = sub64 (alignedLength size) structSize ∧
      s'.grants = s.grants ++ [⟨vm, request⟩] := by
  simp [Runs.cons_iff, Runs.nil_iff, Act.Fresh, State.vmallocAt, step, threadStep, State.setPc,
    State.ret, hthread, hvm, hok]

/-- A thread reads the head of its heap. -/
theorem read_runs (size : Nat) (hidle : s.pc t = .idle) (hsize : size ≠ 0) :
    Runs step Act.Fresh s [.malloc t size, .run t 0]
      { s with
        threads := Function.update s.threads t
          (.mk size (align8 size) (.testHead (s.head (heapOf t)))) } := by
  rw [runs_malloc_iff hidle hsize]
  simp [runs_run_iff, Runs.nil_iff, threadStep, State.setPc]

theorem splitRemain_self {size : Nat} (h : size + structSize < sizeMod) (b : Nat) :
    splitRemain b size size = none := by
  rw [splitRemain, Nat.mod_eq_of_lt h, if_neg (by omega)]

/-- It takes the block that it read, if that one has the length it asked for. -/
theorem take_runs {b size : Nat} (hthread : s.threads t = ⟨size, size, .testHead b⟩)
    (hhead : s.head (heapOf t) ≠ 0) (hb : b ≠ 0) (hlen : (s.mem b).length = size)
    (hsize : size + structSize < sizeMod) (hfree : s.heapLock (heapOf t) = none) :
    ∃ s', Runs step Act.Fresh s (List.replicate 4 (.run t 0)) s' ∧ s'.mem = s.mem ∧
      s'.head = Function.update s.head (heapOf t) (s.next b) ∧ s'.heapLock = s.heapLock ∧
      s'.globalLock = s.globalLock ∧ s'.regions = s.regions ∧
      s'.threads = Function.update s.threads t ⟨size, size, .idle⟩ ∧
      s'.grants = s.grants ++ [⟨b, size⟩] := by
  have hlock := update_heapLock_of_free hfree
  simp [runs_run_iff, Runs.nil_iff, List.replicate, threadStep, State.setPc, State.search, seek,
    takeLocal, splitRemain_self hsize, State.setHead, State.ret, State.next, hthread, hhead, hb,
    hlen, hfree, hlock]

/-- A split that nobody gets in the way of. -/
theorem finish_runs (hthread : s.threads t = ⟨8, 8, .lockSplit 77896 77928⟩)
    (hfree : s.heapLock (heapOf t) = none) :
    ∃ s', Runs step Act.Fresh s (List.replicate 5 (.run t 0)) s' ∧
      s'.head (heapOf t) = 77928 ∧ s'.heapLock (heapOf t) = none ∧
      s'.threads = Function.update s.threads t ⟨8, 8, .idle⟩ ∧
      (s'.mem 77928).length = (s.mem 77928).length ∧ s'.next 77928 = s.head (heapOf t) ∧
      s'.grants = s.grants ++ [⟨77896, 8⟩] := by
  simp [runs_run_iff, Runs.nil_iff, List.replicate, threadStep, State.setPc, State.setNext,
    State.setHead, State.setLength, State.ret, State.next, hthread, hfree]

end Runs

/-- The first call of all: a refill, and the remainder taken and split. -/
theorem toSplit_runs (t : Nat) :
    ∃ s, Runs step Act.Fresh init (toSplitActs t) s ∧
      s.threads = Function.update init.threads t ⟨8, 8, .lockSplit 77896 77928⟩ ∧
      s.heapLock (heapOf t) = none ∧ s.globalLock = some t ∧
      s.regions = [⟨65536, initialChunkSize⟩] ∧
      Linked 0 s.next (s.head (heapOf t)) [73776, 69656, 65536] ∧
      (∀ b ∈ [73776, 69656, 65536], (s.mem b).length = blockSize) ∧
      (s.mem 77928).length = 3968 ∧ s.grants = [] := by
  obtain ⟨s₁, hruns₁, hthreads₁, hlock₁, hglobal₁, hlist₁, hregions₁, hlinked₁, hlen₁, hremain₁,
    hgrants₁, -⟩ := @refill_runs init t 8 65536 rfl (by decide) rfl rfl (by decide) (by decide)
  obtain ⟨s₂, hruns₂, hthreads₂, hhead₂, hlock₂, hglobal₂, hlist₂, hregions₂, hgrants₂, hmem₂,
    -⟩ := push_runs (by rw [hthreads₁, Function.update_self]; rfl) hglobal₁
  obtain ⟨s₃, hruns₃, hhead₃, hlock₃, hglobal₃, hregions₃, hgrants₃, hthreads₃, hmem₃⟩ :=
    split_runs (by rw [hthreads₂, Function.update_self]) hlist₂
      (by rw [hmem₂, Function.update_self]; exact hremain₁) (by rw [hlock₂, Function.update_self])
      hglobal₂
  -- neither the push nor the split writes to the blocks in the heap
  have hmem : ∀ b ∈ [73776, 69656, 65536], s₃.mem b = s₁.mem b := by
    intro b hb
    have hne₁ : b ≠ 77896 := by rintro rfl; revert hb; decide
    have hne₂ : b ≠ 77928 := by rintro rfl; revert hb; decide
    rw [hmem₃, Function.update_of_ne hne₂, Function.update_of_ne hne₁, hmem₂,
      Function.update_of_ne hne₁]
  refine ⟨s₃, hruns₁.append (hruns₂.append hruns₃), ?_, ?_, hglobal₃, ?_, ?_, fun b hb => ?_,
    ?_, ?_⟩
  · rw [hthreads₃, hthreads₂, hthreads₁, Function.update_idem, Function.update_idem]
  · rw [hlock₃, hlock₂, Function.update_self]
  · rw [hregions₃, hregions₂, hregions₁]
    rfl
  · rw [hhead₃, hhead₂]
    exact hlinked₁.congr fun b hb => by rw [State.next, hmem b hb, State.next]
  · rw [hmem b hb]
    exact hlen₁ b hb
  · rw [hmem₃, Function.update_self]
  · rw [hgrants₃, hgrants₂, hgrants₁]
    rfl

theorem barren_runs (t : Nat) {size : Nat} (hsize : size ≠ 0) :
    ∃ s, Runs step Act.Fresh init (barrenActs t size) s ∧
      s.threads = Function.update init.threads t ⟨size, align8 size, .fallback⟩ ∧
      s.head = init.head ∧ s.globalFreeList = 0 ∧ s.regions = [] ∧ s.grants = [] := by
  have hidle : init.pc t = .idle := rfl
  have hhead : init.head (heapOf t) = 0 := rfl
  have hfree : init.heapLock (heapOf t) = none := rfl
  obtain ⟨s, hempty, hthreads, hhead', hlock, hglobal, hlist, hregions, hgrants⟩ :
      ∃ s, Runs step Act.Fresh init
          [.malloc t size, .run t 0, .run t 0, .run t 0, .run t 0, .run t 0] s ∧
        s.threads = Function.update init.threads t ⟨size, align8 size, .lockLocal 0⟩ ∧
        s.head = init.head ∧ s.heapLock (heapOf t) = none ∧ s.globalLock = none ∧
        s.globalFreeList = 0 ∧ s.regions = [] ∧ s.grants = [] := by
    rw [exists_congr fun s => and_congr_left' (runs_malloc_iff hidle hsize)]
    simp [runs_run_iff, Runs.nil_iff, threadStep, State.setPc, hhead, hfree]
    exact ⟨rfl, rfl, rfl, rfl⟩
  have hthread : s.threads t = ⟨size, align8 size, .lockLocal 0⟩ := by
    rw [hthreads, Function.update_self]
  have hmiss : s.search s.globalFreeList (align8 size) = some (0, 0) := by
    rw [hlist, search_null]
  refine ⟨_, hempty.append (pass_runs hthread hmiss hlock hglobal), ?_, hhead', hlist, hregions,
    hgrants⟩
  rw [hthreads, Function.update_idem]

theorem first_runs (t : Nat) :
    ∃ s, Runs step Act.Fresh init (firstActs t) s ∧
      s.threads = Function.update init.threads t ⟨8, 8, .idle⟩ ∧
      s.heapLock (heapOf t) = none ∧ s.head (heapOf t) = 77928 ∧
      (s.mem 77928).length = 3968 ∧ s.next 77928 = 73776 ∧ s.grants = [⟨77896, 8⟩] := by
  obtain ⟨s₁, hruns₁, hthreads₁, hlock₁, -, -, hlinked₁, -, hlen₁, hgrants₁⟩ := toSplit_runs t
  obtain ⟨s₂, hruns₂, hhead₂, hlock₂, hthreads₂, hlen₂, hnext₂, hgrants₂⟩ :=
    finish_runs (by rw [hthreads₁, Function.update_self]) hlock₁
  refine ⟨s₂, hruns₁.append hruns₂, ?_, hlock₂, hhead₂, hlen₂.trans hlen₁,
    hnext₂.trans hlinked₁.1, ?_⟩
  · rw [hthreads₂, hthreads₁, Function.update_idem]
  · rw [hgrants₂, hgrants₁]
    rfl

end NjuOs.Mymalloc
