import NjuOs.Lib.Pool

/-!
The kernels of `gpt`.

A pointer is given by the addresses of its elements: `p` stands for the function
from `i` to `&p[i]`. The `int` arithmetic of the indices is exact, as it is as long
as the sizes of the tensors fit in an `int`. The operations of `float` are those of
an arbitrary type. Thread creation does not fail.

The threaded kernels are families of threads, one for each position `t < T`; the
others are a single program. A thread is given `B` and does not read it.
-/

namespace NjuOs.Gpt

open NjuOs.Lib NjuOs.Lib.Prog

/-- The operations on `float` and the constants of the kernels. -/
structure FloatOps (F : Type) where
  add : F → F → F
  sub : F → F → F
  mul : F → F → F
  div : F → F → F
  sqrtf : F → F
  expf : F → F
  tanhf : F → F
  /-- `1.0 / x`, in `double`. -/
  recip : F → F
  gt : F → F → Bool
  eq : F → F → Bool
  ofInt : Nat → F
  zero : F
  one : F
  /-- `1e-5f` -/
  eps : F
  /-- `-10000.0f` -/
  lowest : F
  /-- `0.5f` -/
  half : F
  /-- `0.044715f` -/
  cubeFactor : F
  /-- `GELU_SCALING_FACTOR` -/
  geluScaling : F

/-- The operations of the machine. -/
def floatOps : FloatOps Float32 where
  add := (· + ·)
  sub := (· - ·)
  mul := (· * ·)
  div := (· / ·)
  sqrtf := Float32.sqrt
  expf := Float32.exp
  tanhf := Float32.tanh
  recip x := (1.0 / x.toFloat).toFloat32
  gt x y := decide (x > y)
  eq x y := x == y
  ofInt := Float32.ofNat
  zero := 0.0
  one := 1.0
  eps := 1e-5
  lowest := -10000.0
  half := 0.5
  cubeFactor := 0.044715
  geluScaling := (2.0 / 3.14159265358979323846 : Float).toFloat32.sqrt

variable {A F : Type} (ops : FloatOps F)

def encoderForward (out : Nat → A) (inp : Nat → Nat) (wte wpe : Nat → A) (B T C : Nat) :
    Prog A F Unit :=
  forEach B fun b => forEach T fun t =>
    let out_bt := fun i => out (b * T * C + t * C + i)
    let ix := inp (b * T + t)
    let wte_ix := fun i => wte (ix * C + i)
    let wpe_t := fun i => wpe (t * C + i)
    forEach C fun i => do
      put (out_bt i) (ops.add (← get (wte_ix i)) (← get (wpe_t i)))

/-! ### Layer norm -/

def layernormForwardThread (out mean rstd inp weight bias : Nat → A) (C t : Nat) :
    Prog A F Unit := do
  let x := fun i => inp (t * C + i)
  let m ← loop C ops.zero fun i m => do
    return ops.add m (← get (x i))
  let m := ops.div m (ops.ofInt C)
  let v ← loop C ops.zero fun i v => do
    let xshift := ops.sub (← get (x i)) m
    return ops.add v (ops.mul xshift xshift)
  let v := ops.div v (ops.ofInt C)
  let s := ops.div ops.one (ops.sqrtf (ops.add v ops.eps))
  let out_bt := fun i => out (t * C + i)
  forEach C fun i => do
    let n := ops.mul s (ops.sub (← get (x i)) m)
    let o := ops.add (ops.mul n (← get (weight i))) (← get (bias i))
    put (out_bt i) o
  put (mean t) m
  put (rstd t) s

def layernormForward (out mean rstd inp weight bias : Nat → A) (_B T C : Nat) :
    Fin T → Prog A F Unit :=
  fun t => layernormForwardThread ops out mean rstd inp weight bias C t

/-! ### Matrix multiplication -/

/-- `bias` may be `NULL`. -/
def matmulForwardThread (out inp weight : Nat → A) (bias : Option (Nat → A)) (C OC t : Nat) :
    Prog A F Unit :=
  let out_bt := fun o => out (t * OC + o)
  let inp_bt := fun i => inp (t * C + i)
  forEach OC fun o => do
    let val ← bias.elim (pure ops.zero) fun bias => get (bias o)
    let wrow := fun i => weight (o * C + i)
    let val ← loop C val fun i val => do
      return ops.add val (ops.mul (← get (inp_bt i)) (← get (wrow i)))
    put (out_bt o) val

def matmulForward (out inp weight : Nat → A) (bias : Option (Nat → A)) (_B T C OC : Nat) :
    Fin T → Prog A F Unit :=
  fun t => matmulForwardThread ops out inp weight bias C OC t

/-! ### Attention -/

/-- Pass 1: the query dot the keys, and the largest of them. -/
def attentionScores (query_t : Nat → A) (key_t2 : Nat → Nat → A) (preatt_bth : Nat → A)
    (scale : F) (hs t : Nat) : Prog A F F :=
  loop (t + 1) ops.lowest fun t2 maxval => do
    let val ← loop hs ops.zero fun i val => do
      return ops.add val (ops.mul (← get (query_t i)) (← get (key_t2 t2 i)))
    let val := ops.mul val scale
    let maxval := if ops.gt val maxval then val else maxval
    put (preatt_bth t2) val
    return maxval

/-- Pass 2: exponentials and their sum. -/
def attentionExps (preatt_bth att_bth : Nat → A) (maxval : F) (t : Nat) : Prog A F F :=
  loop (t + 1) ops.zero fun t2 expsum => do
    let expv := ops.expf (ops.sub (← get (preatt_bth t2)) maxval)
    let expsum := ops.add expsum expv
    put (att_bth t2) expv
    return expsum

/-- Pass 3: normalize. -/
def attentionNormalize (att_bth : Nat → A) (expsum_inv : F) (T t : Nat) : Prog A F Unit :=
  forEach T fun t2 =>
    if t2 ≤ t then do put (att_bth t2) (ops.mul (← get (att_bth t2)) expsum_inv)
    else put (att_bth t2) ops.zero

/-- Pass 4: accumulate the weighted values. -/
def attentionValues (out_bth att_bth : Nat → A) (value_t2 : Nat → Nat → A) (hs t : Nat) :
    Prog A F Unit := do
  forEach hs fun i => put (out_bth i) ops.zero
  forEach (t + 1) fun t2 => do
    let att_btht2 ← get (att_bth t2)
    forEach hs fun i => do
      put (out_bth i)
        (ops.add (← get (out_bth i)) (ops.mul att_btht2 (← get (value_t2 t2 i))))

def attentionHead (out preatt att inp : Nat → A) (T C NH t h : Nat) : Prog A F Unit := do
  let C3 := C * 3
  let hs := C / NH
  let scale := ops.recip (ops.sqrtf (ops.ofInt hs))
  let query_t := fun i => inp (t * C3 + h * hs + i)
  let preatt_bth := fun t2 => preatt (h * T * T + t * T + t2)
  let att_bth := fun t2 => att (h * T * T + t * T + t2)
  let maxval ← attentionScores ops query_t (fun t2 i => inp (t2 * C3 + h * hs + C + i)) preatt_bth
    scale hs t
  let expsum ← attentionExps ops preatt_bth att_bth maxval t
  let expsum_inv := if ops.eq expsum ops.zero then ops.zero else ops.div ops.one expsum
  attentionNormalize ops att_bth expsum_inv T t
  let out_bth := fun i => out (t * C + h * hs + i)
  attentionValues ops out_bth att_bth (fun t2 i => inp (t2 * C3 + h * hs + C * 2 + i)) hs t

/-- For `NH = 0` the source traps at `C / NH`, in front of the loop: the results about whole passes
and about the values of a head ask for a head. -/
def attentionForwardThread (out preatt att inp : Nat → A) (T C NH t : Nat) : Prog A F Unit :=
  forEach NH (attentionHead ops out preatt att inp T C NH t)

def attentionForward (out preatt att inp : Nat → A) (_B T C NH : Nat) : Fin T → Prog A F Unit :=
  fun t => attentionForwardThread ops out preatt att inp T C NH t

/-! ### Elementwise kernels -/

def geluForward (out inp : Nat → A) (N : Nat) : Prog A F Unit :=
  forEach N fun i => do
    let x ← get (inp i)
    let cube := ops.mul (ops.mul (ops.mul ops.cubeFactor x) x) x
    put (out i) (ops.mul (ops.mul ops.half x)
      (ops.add ops.one (ops.tanhf (ops.mul ops.geluScaling (ops.add x cube)))))

def residualForward (out inp1 inp2 : Nat → A) (N : Nat) : Prog A F Unit :=
  forEach N fun i => do
    put (out i) (ops.add (← get (inp1 i)) (← get (inp2 i)))

/-- The softmax of one row. -/
def softmaxPass (probs_bt logits_bt : Nat → A) (V : Nat) : Prog A F Unit := do
  let maxval ← loop V ops.lowest fun i maxval => do
    if ops.gt (← get (logits_bt i)) maxval then get (logits_bt i) else return maxval
  let sum ← loop V ops.zero fun i sum => do
    put (probs_bt i) (ops.expf (ops.sub (← get (logits_bt i)) maxval))
    return ops.add sum (← get (probs_bt i))
  forEach V fun i => do
    put (probs_bt i) (ops.div (← get (probs_bt i)) sum)

def softmaxForward (probs logits : Nat → A) (B T V : Nat) : Prog A F Unit :=
  forEach B fun b => forEach T fun t =>
    let logits_bt := fun i => logits (b * T * V + t * V + i)
    let probs_bt := fun i => probs (b * T * V + t * V + i)
    softmaxPass ops probs_bt logits_bt V

end NjuOs.Gpt
