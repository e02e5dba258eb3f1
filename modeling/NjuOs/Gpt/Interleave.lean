import NjuOs.Gpt.Footprint
import NjuOs.Lib.Slice

/-!
The threads of a kernel do not interfere.

Thread `t` of a kernel writes row `t` of each output, and for the attention of each
head's matrices; it reads only inputs and what it writes itself. So every
interleaving of the threads has the effect of running them one after another.
-/

namespace NjuOs.Gpt

open NjuOs.Lib NjuOs.Lib.Prog

variable {A F : Type} (ops : FloatOps F)

/-- The order of the reads and writes of the threads makes no difference. -/
structure Sequential [DecidableEq A] {T : Nat} (threads : Fin T → Prog A F Unit) : Prop where
  /-- No thread writes what another one reads or writes. -/
  separate : ∃ reads writes, Separate reads writes threads
  same : ∀ m m', Completes threads m m' → m' = seqRun threads (List.finRange T) m
  completes : ∀ m, Completes threads m (seqRun threads (List.finRange T) m)
  /-- A run goes on for a bounded number of steps, and can be completed at any time. -/
  bounded : ∀ m schedule pool' m', exec poolStep (threads, m) schedule = some (pool', m') →
    (∀ t, schedule.count t ≤ (threads t).cost m) ∧ ∃ m'', Completes pool' m' m''

theorem sequential_of_separate [DecidableEq A] {T : Nat} {threads : Fin T → Prog A F Unit}
    {reads writes : Fin T → Set A} (h : Separate reads writes threads) : Sequential threads := by
  have hsame : ∀ m m', Completes threads m m' → m' = seqRun threads (List.finRange T) m :=
    fun m m' => h.exec_eq_seqRun (List.nodup_finRange T) List.mem_finRange
  refine ⟨⟨reads, writes, h⟩, hsame, fun m => ?_, fun m schedule pool' m' hexec => ?_⟩
  · obtain ⟨m', hm'⟩ := exists_completes threads m
    exact hsame m m' hm' ▸ hm'
  · exact ⟨h.count_le hexec, exists_completes pool' m'⟩

/-! ### Layer norm -/

section Layernorm

variable (out mean rstd inp weight bias : Nat → A) (T C : Nat)

/-- What thread `t` writes: its row of `out`, and its element of `mean` and `rstd`. -/
def layernormOuts : List (Slice A × (Nat → Nat)) :=
  [(⟨out, T * C⟩, (· / C)), (⟨mean, T⟩, id), (⟨rstd, T⟩, id)]

def layernormIns : List (Slice A) := [⟨inp, T * C⟩, ⟨weight, C⟩, ⟨bias, C⟩]

variable {out mean rstd inp weight bias T C}

theorem layernorm_separate
    (h : NonOverlapping ((layernormOuts out mean rstd T C).map Prod.fst)
      (layernormIns inp weight bias T C)) (B : Nat) :
    Separate
      (fun t : Fin T => shared (layernormIns inp weight bias T C) ∪
        own (layernormOuts out mean rstd T C) t)
      (fun t : Fin T => own (layernormOuts out mean rstd T C) t)
      (layernormForward ops out mean rstd inp weight bias B T C) := by
  refine separate_of_nonOverlapping h fun t => layernormForwardThread_within (fun i hi => ?_) ?_ ?_
    (fun i hi => .inl ?_) (fun i hi => .inl ?_) fun i hi => .inl ?_
  · exact mem_own_row (by simp [layernormOuts]) t.isLt hi
  · exact mem_own_elem (by simp [layernormOuts]) t.isLt
  · exact mem_own_elem (by simp [layernormOuts]) t.isLt
  · exact mem_shared_row (by simp [layernormIns]) t.isLt hi
  · exact @mem_shared A _ ⟨weight, C⟩ (by simp [layernormIns]) _ hi
  · exact @mem_shared A _ ⟨bias, C⟩ (by simp [layernormIns]) _ hi

end Layernorm

/-! ### Matrix multiplication -/

section Matmul

variable (out inp weight : Nat → A) (bias : Option (Nat → A)) (T C OC : Nat)

def matmulOuts : List (Slice A × (Nat → Nat)) := [(⟨out, T * OC⟩, (· / OC))]

def matmulIns : List (Slice A) :=
  [⟨inp, T * C⟩, ⟨weight, OC * C⟩] ++ (bias.map fun bias => ⟨bias, OC⟩).toList

variable {out inp weight bias T C OC}

theorem matmul_separate
    (h : NonOverlapping ((matmulOuts out T OC).map Prod.fst) (matmulIns inp weight bias T C OC))
    (B : Nat) :
    Separate
      (fun t : Fin T => shared (matmulIns inp weight bias T C OC) ∪ own (matmulOuts out T OC) t)
      (fun t : Fin T => own (matmulOuts out T OC) t)
      (matmulForward ops out inp weight bias B T C OC) := by
  refine separate_of_nonOverlapping h fun t => matmulForwardThread_within (fun o ho => ?_)
    (fun i hi => .inl ?_) (fun o ho i hi => .inl ?_) fun p hp o ho => .inl ?_
  · exact mem_own_row (by simp [matmulOuts]) t.isLt ho
  · exact mem_shared_row (by simp [matmulIns]) t.isLt hi
  · exact @mem_shared_row A _ weight OC C o i (by simp [matmulIns]) ho hi
  · obtain rfl : bias = some p := hp
    exact @mem_shared A _ ⟨p, OC⟩ (by simp [matmulIns]) _ ho

end Matmul

/-! ### Attention -/

section Attention

variable (out preatt att inp : Nat → A) (T C NH : Nat)

/-- What thread `t` writes: its row of `out` and its row of each head's matrices. -/
def attentionOuts : List (Slice A × (Nat → Nat)) :=
  [(⟨out, T * C⟩, (· / C)), (⟨preatt, NH * T * T⟩, (· / T % T)), (⟨att, NH * T * T⟩, (· / T % T))]

def attentionIns : List (Slice A) := [⟨inp, T * (C * 3)⟩]

variable {T NH}

variable {out preatt att inp C}

theorem attention_separate
    (h : NonOverlapping ((attentionOuts out preatt att T C NH).map Prod.fst) (attentionIns inp T C))
    (B : Nat) :
    Separate
      (fun t : Fin T => shared (attentionIns inp T C) ∪ own (attentionOuts out preatt att T C NH) t)
      (fun t : Fin T => own (attentionOuts out preatt att T C NH) t)
      (attentionForward ops out preatt att inp B T C NH) := by
  have hself : ∀ {t : Nat} {a : A}, a ∈ own (attentionOuts out preatt att T C NH) t →
      a ∈ (shared (attentionIns inp T C) ∪ own (attentionOuts out preatt att T C NH) t) ∩
        own (attentionOuts out preatt att T C NH) t := fun ha => ⟨.inr ha, ha⟩
  refine separate_of_nonOverlapping h fun t => attentionForwardThread_within
    (fun t2 ht2 j hj => .inl ?_) (fun h hh t2 ht2 => hself ?_) (fun h hh t2 ht2 => hself ?_) t.isLt
    fun j hj => hself ?_
  · exact mem_shared_row (by simp [attentionIns]) (Nat.lt_of_le_of_lt ht2 t.isLt) hj
  · have hlt := Nat.lt_of_le_of_lt ht2 t.isLt
    exact @mem_own A _ ⟨preatt, NH * T * T⟩ (· / T % T) (by simp [attentionOuts]) _ _
      (partIndex_lt hh t.isLt hlt) (partIndex_row t.isLt hlt)
  · exact @mem_own A _ ⟨att, NH * T * T⟩ (· / T % T) (by simp [attentionOuts]) _ _
      (partIndex_lt hh t.isLt ht2) (partIndex_row t.isLt ht2)
  · exact mem_own_row (by simp [attentionOuts]) t.isLt hj

end Attention

/-! ### The kernels -/

/-- **The threaded kernels are sequential**, on tensors that do not overlap. -/
theorem threads_sequential [DecidableEq A] (T C : Nat) :
    (∀ out mean rstd inp weight bias : Nat → A,
      NonOverlapping ((layernormOuts out mean rstd T C).map Prod.fst)
        (layernormIns inp weight bias T C) →
      Sequential (layernormForward ops out mean rstd inp weight bias 1 T C)) ∧
    (∀ OC, ∀ out inp weight : Nat → A, ∀ bias : Option (Nat → A),
      NonOverlapping ((matmulOuts out T OC).map Prod.fst) (matmulIns inp weight bias T C OC) →
      Sequential (matmulForward ops out inp weight bias 1 T C OC)) ∧
    ∀ NH, ∀ out preatt att inp : Nat → A,
      NonOverlapping ((attentionOuts out preatt att T C NH).map Prod.fst) (attentionIns inp T C) →
      Sequential (attentionForward ops out preatt att inp 1 T C NH) :=
  ⟨fun _ _ _ _ _ _ h => sequential_of_separate (layernorm_separate ops h 1),
    fun _ _ _ _ _ h => sequential_of_separate (matmul_separate ops h 1),
    fun _ _ _ _ _ h => sequential_of_separate (attention_separate ops h 1)⟩

/-- Two positions, two channels and two heads. -/
theorem threads_sequential_two :
    Sequential (layernormForward floatOps (0 + ·) (4 + ·) (6 + ·) (8 + ·) (12 + ·) (14 + ·) 1 2 2) ∧
      Sequential (matmulForward floatOps (0 + ·) (4 + ·) (8 + ·) (some (12 + ·)) 1 2 2 2) ∧
      Sequential (attentionForward floatOps (0 + ·) (4 + ·) (12 + ·) (20 + ·) 1 2 2 2) := by
  obtain ⟨hlayernorm, hmatmul, hattention⟩ := @threads_sequential Nat Float32 floatOps _ 2 2
  refine ⟨hlayernorm _ _ _ _ _ _ ?_, hmatmul 2 _ _ _ _ ?_, hattention 2 _ _ _ _ ?_⟩
  · exact @nonOverlapping_flat [(0, 4), (4, 2), (6, 2)] [(8, 4), (12, 2), (14, 2)] (by decide)
  · exact @nonOverlapping_flat [(0, 4)] [(4, 4), (8, 4), (12, 2)] (by decide)
  · exact @nonOverlapping_flat [(0, 4), (4, 8), (12, 8)] [(20, 12)] (by decide)

end NjuOs.Gpt
