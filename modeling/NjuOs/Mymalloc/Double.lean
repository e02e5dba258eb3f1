import NjuOs.Mymalloc.Deadlock
import NjuOs.Mymalloc.Tiled

/-!
Double allocation.

`no_double_allocation`: however the calls interleave, no memory is handed out
twice and nothing that was handed out is free, in every run in which the block
that a thread read before it took the lock is still in its heap, or null, when the
search begins. `double_1_65` is a run where it is not: two threads read the same
head, and both get it. `no_double_iff`: this can happen to all threads that share
a heap, and to no others.
-/

namespace NjuOs.Mymalloc

open NjuOs.Lib

/-- The size does not wrap around when it is rounded. -/
def Act.Unwrapped : Act → Prop
  | .malloc _ size => Mymalloc.Unwrapped size
  | _ => True

instance : (a : Act) → Decidable a.Unwrapped
  | .malloc _ _ => inferInstanceAs (Decidable (_ ∧ _))
  | .free _ _ => inferInstanceAs (Decidable True)
  | .run _ _ => inferInstanceAs (Decidable True)

/-- The `curr` that a thread searches its heap from is still there, or null. -/
def Act.OnHeap (s : State) : Act → Prop
  | .run tid _ => ∀ curr, s.pc tid = .scanLocal curr →
      curr = 0 ∨ OnList 0 s.next (s.head (heapOf tid)) curr
  | _ => True

/-- What two calls returned does not overlap, and is in no list. -/
structure NoDouble (s : State) : Prop where
  apart : s.grants.Pairwise fun g g' => Region.Apart ⟨g.ptr, g.request⟩ ⟨g'.ptr, g'.request⟩
  notFree : ∀ g ∈ s.grants, ∀ f, ¬ OnList 0 s.next (s.first f) g.block

/-! ### Requests -/

/-- No request wraps around. -/
structure Rounded (s : State) : Prop where
  threads : ∀ t, Unwrapped (s.threads t).request
  grants : ∀ g ∈ s.grants, Unwrapped g.request

theorem rounded_init : Rounded init where
  threads _ := by simp [init, Unwrapped, align8, sizeMod, structSize]
  grants _ hg := (nomatch hg)

theorem Rounded.step {s s' : State} {a : Act} (h : Rounded s) (ha : a.Unwrapped)
    (hstep : step s a = some s') : Rounded s' := by
  rcases step_cases hstep with rfl | ⟨tid, size, rfl, -, rfl⟩ | ⟨tid, vm, rfl, hrun⟩
  · exact h
  · refine ⟨fun t => ?_, h.grants⟩
    by_cases ht : t = tid
    · simpa [ht, Act.Unwrapped] using ha
    · simpa [ht] using h.threads t
  · have hrecords := threadStep_records hrun
    refine ⟨fun t => by rw [hrecords.request]; exact h.threads t, fun g hg => ?_⟩
    rcases hrecords.grants with hsame | ⟨b, hnew, -⟩
    · exact h.grants g (hsame ▸ hg)
    · rw [hnew] at hg
      rcases List.mem_append.mp hg with hg | hg
      · exact h.grants g hg
      · rw [List.mem_singleton.mp hg]
        exact h.threads tid

/-! ### Safety -/

/-- What the ledger places with callers is apart, and in no list. -/
theorem HeapOk.noDouble {lossy : Prop} {l : Blocks} {s : State} (h : HeapOk lossy l s)
    (hgrants : ∀ g ∈ s.grants, Unwrapped g.request) : NoDouble s where
  apart := by
    have hout : ∀ g ∈ s.grants, l.place g.block = some .out := fun g hg =>
      (h.out _).mpr (List.mem_map_of_mem hg)
    have hfits : ∀ g ∈ s.grants, g.request ≤ l.size g.block := fun g hg =>
      h.fits g hg (hgrants g hg)
    refine (List.pairwise_map.mp h.grants).imp_of_mem fun {g g'} hg hg' hne => ?_
    have hroom := hfits g hg
    have hroom' := hfits g' hg'
    rcases Ledger.apart (l := l) (by simp [hout g hg]) (by simp [hout g' hg']) hne with hap | hap
    · left
      simp only [Grant.ptr]
      omega
    · right
      simp only [Grant.ptr]
      omega
  notFree g hg f hfree := by
    have hlist := h.at_list.mp (show s.At (.list f) g.block from hfree)
    rw [(h.out _).mpr (List.mem_map_of_mem hg)] at hlist
    cases hlist

theorem Act.OnHeap.cursorOk {s : State} {a : Act} (h : a.OnHeap s) : a.CursorOk True s := by
  cases a with
  | malloc | free => trivial
  | run tid vm => exact fun curr hpc => (h curr hpc).imp_right fun hon => .inr ⟨trivial, hon⟩

/-- A run whose searches begin on their lists keeps to a ledger, which may lose blocks. -/
theorem onHeap_represents {acts : List Act} {s : State} (hruns : Runs step Act.Fresh init acts s)
    (hsizes : ∀ a ∈ acts, a.Unwrapped) (honHeap : EveryStep step Act.OnHeap init acts) :
    (∃ l, Represents True l s) ∧ Rounded s := by
  have hall := (hruns.and (everyStep_of_forall fun a ha _ => hsizes a ha)).and honHeap
  exact hall.invariant
    (fun s => (∃ l, Represents True l s) ∧ Rounded s)
    (fun ⟨⟨_, hrep⟩, hrounded⟩ ⟨⟨hfresh, hsize⟩, hon⟩ hstep =>
      ⟨hrep.step hfresh hon.cursorOk hstep, hrounded.step hsize hstep⟩)
    ⟨⟨_, represents_init True⟩, rounded_init⟩

/-- **No double allocation**: for all threads and sizes and every interleaving, what
the calls return is apart and is no longer free, as long as every search of a heap
begins at a block that is still in it. -/
theorem no_double_allocation {acts : List Act} {s : State} (hruns : Runs step Act.Fresh init acts s)
    (hsizes : ∀ a ∈ acts, a.Unwrapped) (honHeap : EveryStep step Act.OnHeap init acts) :
    NoDouble s := by
  obtain ⟨⟨l, hrep⟩, hrounded⟩ := onHeap_represents hruns hsizes honHeap
  exact hrep.noDouble hrounded.grants

/-! ### Runs -/

/-- Two threads read the head of the same heap before either of them takes the lock. -/
def raceActs (t t' size : Nat) : List Act :=
  [.malloc t size, .run t 0] ++ [.malloc t' size, .run t' 0] ++
    (List.replicate 4 (.run t 0) ++ List.replicate 4 (.run t' 0))

section Runs

variable {s : State} {t t' : Nat}

/-- Both threads get the block at the head of their heap. -/
theorem race_runs {b size : Nat} (hidle : s.pc t = .idle) (hidle' : s.pc t' = .idle)
    (hheap : heapOf t' = heapOf t) (hne : t' ≠ t) (hhead : s.head (heapOf t) = b) (hb : b ≠ 0)
    (hlen : (s.mem b).length = size) (hsize : size ≠ 0) (haligned : align8 size = size)
    (hwrap : size + structSize < sizeMod) (hnext : s.next b ≠ 0)
    (hfree : s.heapLock (heapOf t) = none) :
    ∃ s', Runs step Act.Fresh s (raceActs t t' size) s' ∧
      s'.grants = s.grants ++ [⟨b, size⟩, ⟨b, size⟩] := by
  have hread := read_runs size hidle hsize
  rw [haligned, hhead] at hread
  have hread' := @read_runs
    { s with threads := Function.update s.threads t ⟨size, size, .testHead b⟩ } t' size
    (by simpa [State.pc, hne] using hidle') hsize
  rw [haligned, hheap, hhead] at hread'
  obtain ⟨s₁, htake, hmem, hhead₁, hheap₁, -, -, hthreads₁, hgrants₁⟩ :=
    @take_runs { s with
        threads := Function.update (Function.update s.threads t (.mk size size (.testHead b))) t'
          (.mk size size (.testHead b)) } t b size
      (by simp [hne.symm]) (hhead ▸ hb) hb hlen hwrap hfree
  -- the second thread finds the lock free, and its block gone
  obtain ⟨s₂, htake', -, -, -, -, -, -, hgrants₂⟩ :=
    @take_runs s₁ t' b size
      (by rw [hthreads₁, Function.update_of_ne hne]; simp)
      (by rw [hhead₁, hheap, Function.update_self]; exact hnext) hb (by rw [hmem]; exact hlen) hwrap
      (by rw [hheap₁, hheap]; exact hfree)
  refine ⟨s₂, (hread.append hread').append (htake.append htake'), ?_⟩
  rw [hgrants₂, hgrants₁, List.append_assoc]
  rfl

end Runs

/-- A thread whose cursor is at the head of its heap searches from a block in it. -/
theorem CursorInv.onHeap {s : State} {a : Act} (h : CursorInv s a.tid) : a.OnHeap s := by
  cases a with
  | malloc | free => trivial
  | run tid vm =>
      intro curr hpc
      rw [Act.tid, CursorInv, hpc] at h
      rcases h with rfl | rfl
      · exact .inl rfl
      · by_cases hhead : s.head (heapOf tid) = 0
        · exact .inl hhead
        · exact .inr (.here hhead)

/-- Calls that run one after another begin every search where they may. -/
theorem sequential_onHeap {acts : List Act} (hall : EveryStep step Sequential init acts) :
    EveryStep step Act.OnHeap init acts :=
  hall.of_invariant AloneInv (fun h ha hstep => h.step ha.2 hstep)
    (fun h _ => (h.cursor _).onHeap) aloneInv_init

theorem no_double_allocation_two :
    ∃ s, Runs step Act.Fresh init (firstActs 1 ++ hitActs 65 3968) s ∧
      s.grants = [⟨77896, 8⟩, ⟨77928, 3968⟩] ∧ NoDouble s := by
  obtain ⟨s, hruns, -, hgrants⟩ := twoCalls_runs
  have hfresh : Runs step Act.Fresh init (firstActs 1 ++ hitActs 65 3968) s :=
    ⟨hruns.every.imp fun _ _ h => h.1, hruns.exec⟩
  exact ⟨s, hfresh, hgrants,
    no_double_allocation hfresh (by decide) (sequential_onHeap hruns.every)⟩

/-- After the first call the two threads both get the block at address 77928. -/
theorem race_double {t t' : Nat} (hheap : heapOf t' = heapOf t) (hne : t' ≠ t) :
    ∃ s, Runs step Act.Fresh init (firstActs t ++ raceActs t t' 3968) s ∧ ¬ NoDouble s := by
  obtain ⟨s₁, hruns₁, hthreads₁, hlock₁, hhead₁, hlen₁, hnext₁, hgrants₁⟩ := first_runs t
  obtain ⟨s₂, hruns₂, hgrants₂⟩ := @race_runs s₁ t t' 77928 3968
    (by rw [State.pc, hthreads₁, Function.update_self])
    (by rw [State.pc, hthreads₁, Function.update_of_ne hne]; rfl) hheap hne hhead₁ (by decide)
    hlen₁ (by decide) (by simp [align8, sizeMod]) (by decide) (by rw [hnext₁]; decide) hlock₁
  refine ⟨s₂, hruns₁.append hruns₂, fun h => ?_⟩
  have hapart := h.apart
  rw [hgrants₂, hgrants₁] at hapart
  revert hapart
  decide

/-- Threads 1 and 65 share a heap. -/
theorem double_1_65 :
    ∃ s, Runs step Act.Fresh init (firstActs 1 ++ raceActs 1 65 3968) s ∧
      (∀ a ∈ firstActs 1 ++ raceActs 1 65 3968, a.Unwrapped) ∧ ¬ NoDouble s := by
  obtain ⟨s, hruns, hdouble⟩ := @race_double 1 65 rfl (by decide)
  exact ⟨s, hruns, by decide, hdouble⟩

/-! ### Threads that share no heap -/

/-- The heads of the heaps of other threads stay. -/
theorem threadStep_head_other {s s' : State} {t vm heap : Nat}
    (hstep : threadStep s t vm = some s') (hne : heap ≠ heapOf t) :
    s'.head heap = s.head heap := by
  obtain ⟨pc, -, htaken⟩ := exists_taken hstep
  cases htaken with
  | @goes op => exact congrFun (s.lockOp_head t op) heap
  | @returns op => exact congrFun (s.lockOp_head t op) heap
  | refill =>
      rw [refillChunk_eq]
      exact Function.update_of_ne hne ..
  | takeLocal => exact takeLocal_head_other s t _ _ hne
  | takeGlobal => rw [takeGlobal_head]
  | pushSplit => exact Function.update_of_ne hne ..
  | pushRemain | setLength | fallback => rfl

theorem step_head_other {s s' : State} {a : Act} {heap : Nat} (hstep : step s a = some s')
    (hne : heap ≠ heapOf a.tid) : s'.head heap = s.head heap := by
  rcases step_cases hstep with rfl | ⟨tid, size, rfl, -, rfl⟩ | ⟨tid, vm, rfl, hrun⟩
  · rfl
  · rfl
  · exact threadStep_head_other hrun hne

/-- Threads of `ids` only are inside `mymalloc`, with their cursors in the right place. -/
structure OwnInv (ids : Nat → Prop) (s : State) : Prop where
  busy : ∀ t, s.pc t ≠ .idle → ids t
  cursor : ∀ t, CursorInv s t

theorem ownInv_init (ids : Nat → Prop) : OwnInv ids init where
  busy _ h := absurd rfl h
  cursor _ := .of_idle rfl

/-- Nobody else changes the head of a heap that is not shared. -/
theorem OwnInv.step {ids : Nat → Prop}
    (hheaps : ∀ t t', ids t → ids t' → heapOf t = heapOf t' → t = t') {s s' : State} {a : Act}
    (h : OwnInv ids s) (ha : ids a.tid) (hstep : step s a = some s') : OwnInv ids s' where
  busy := step_busy h.busy ha hstep
  cursor := by
    obtain ⟨pc', hmove⟩ := step_locks hstep
    intro t
    by_cases ht : t = a.tid
    · subst ht
      exact step_cursor (h.cursor a.tid) hstep
    · by_cases hidle : s.pc t = .idle
      · exact .of_idle ((hmove.pc_other t ht).trans hidle)
      · have hne : heapOf t ≠ heapOf a.tid := fun heq => ht (hheaps t a.tid (h.busy t hidle) ha heq)
        have hcursor := h.cursor t
        rwa [CursorInv, ← hmove.pc_other t ht, ← step_head_other hstep hne] at hcursor

theorem firstActs_tid {t : Nat} {a : Act} (ha : a ∈ firstActs t) : a.tid = t := by
  rcases List.mem_append.mp ha with ha | ha
  · exact toSplitActs_tid ha
  · rw [List.eq_of_mem_replicate ha]
    rfl

theorem raceActs_tid {t t' size : Nat} {a : Act} (ha : a ∈ raceActs t t' size) :
    a.tid = t ∨ a.tid = t' := by
  simp only [raceActs, List.mem_append, List.mem_cons, List.not_mem_nil, or_false,
    List.mem_replicate] at ha
  rcases ha with ((rfl | rfl) | (rfl | rfl)) | (⟨-, rfl⟩ | ⟨-, rfl⟩)
  all_goals first
    | exact .inl rfl
    | exact .inr rfl

/-- **Memory is safe exactly for threads that share no heap**: threads with ids of
some set never get the same memory twice if and only if no two of the ids are
equal modulo `maxThreads`. -/
theorem no_double_iff (ids : Nat → Prop) :
    (∀ acts s, Runs step (Allowed ids) init acts s → (∀ a ∈ acts, a.Unwrapped) → NoDouble s) ↔
      ∀ t t', ids t → ids t' → heapOf t = heapOf t' → t = t' := by
  constructor
  · intro hsafe t t' ht ht' hheap
    by_contra hne
    obtain ⟨s, hruns, hdouble⟩ := race_double hheap.symm (Ne.symm hne)
    refine hdouble (hsafe _ s (hruns.and (everyStep_of_forall fun a ha _ => ?_)) ?_)
    · rcases List.mem_append.mp ha with ha | ha
      · rwa [firstActs_tid ha]
      · rcases raceActs_tid ha with h | h <;> rwa [h]
    · simp [firstActs, toSplitActs, refillActs, raceActs, Act.Unwrapped, Unwrapped, align8,
        structSize, sizeMod]
  · intro hheaps acts s hruns hsizes
    have honHeap : EveryStep step Act.OnHeap init acts :=
      hruns.every.of_invariant (OwnInv ids) (fun h ha hstep => h.step hheaps ha.2 hstep)
        (fun h _ => (h.cursor _).onHeap) (ownInv_init ids)
    obtain ⟨⟨l, hrep⟩, hrounded⟩ :=
      onHeap_represents ⟨hruns.every.imp fun _ _ h => h.1, hruns.exec⟩ hsizes honHeap
    exact hrep.noDouble hrounded.grants

end NjuOs.Mymalloc
