import Mathlib.Data.List.TakeWhile
import Mathlib.Tactic.Ring
import Mathlib.Tactic.Linarith

/-!
Bytes, C strings and little-endian words.

A C string is a list of bytes without a NUL (`CString`), and `cstr` reads the
string that starts at an arbitrary run of bytes. `le32` is the memory image of
a `uint32_t` on a little-endian machine and `fromLe` reads such an image back;
`fromLe_le32` is the round trip and `le32_fromLe` its converse on four bytes.
-/

namespace NjuOs.Lib

abbrev Bytes := List UInt8

def newline : UInt8 := 0x0A

def space : UInt8 := 0x20

def lparen : UInt8 := 0x28

def rparen : UInt8 := 0x29

def dot : UInt8 := 0x2E

def question : UInt8 := 0x3F

/-- The C string that starts at `bs`: the bytes before the first NUL. -/
def cstr (bs : Bytes) : Bytes := bs.takeWhile (· ≠ 0)

/-- A NUL-terminated string, without its terminator. -/
structure CString where
  bytes : Bytes
  nulFree : (0 : UInt8) ∉ bytes
deriving DecidableEq

/-- `strlen`, before it is stored in an integer type. -/
def CString.length (s : CString) : Nat := s.bytes.length

/-- The first `n` bytes of a string are again a string. -/
def CString.take (s : CString) (n : Nat) : CString :=
  ⟨s.bytes.take n, fun h => s.nulFree (List.mem_of_mem_take h)⟩

/-- A string of one character. -/
def CString.single (b : UInt8) (h : (0 : UInt8) ∉ [b] := by decide) : CString := ⟨[b], h⟩

/-- A string of `n` equal characters. -/
def CString.replicate (n : Nat) (b : UInt8) (h : b ≠ 0 := by decide) : CString :=
  ⟨List.replicate n b, fun h0 => h (List.eq_of_mem_replicate h0).symm⟩

@[simp] theorem CString.length_replicate (n : Nat) (b : UInt8) (h : b ≠ 0) :
    (CString.replicate n b h).length = n := List.length_replicate

instance : Inhabited CString := ⟨⟨[], by simp⟩⟩

theorem CString.ext_bytes {s t : CString} (h : s.bytes = t.bytes) : s = t := by
  cases s; cases t; simpa using h

theorem CString.take_eq_self {s : CString} {n : Nat} (h : s.length ≤ n) : s.take n = s :=
  CString.ext_bytes (List.take_of_length_le h)

theorem cstr_eq_self {bs : Bytes} (h : (0 : UInt8) ∉ bs) : cstr bs = bs := by
  rw [cstr, List.takeWhile_eq_self_iff]
  intro b hb
  have : b ≠ 0 := fun h0 => h (h0 ▸ hb)
  simpa using this

theorem nul_notMem_cstr (bs : Bytes) : (0 : UInt8) ∉ cstr bs := by
  intro h
  simpa using List.mem_takeWhile_imp h

/-- The string that starts at these bytes. -/
def readString (bs : Bytes) : CString := ⟨cstr bs, nul_notMem_cstr bs⟩

@[simp] theorem cstr_bytes (s : CString) : cstr s.bytes = s.bytes := cstr_eq_self s.nulFree

/-! ### Little-endian words -/

/-- The four bytes of a `uint32_t`, least significant first. -/
def le32 (n : Nat) : Bytes :=
  [UInt8.ofNat n, UInt8.ofNat (n / 2 ^ 8), UInt8.ofNat (n / 2 ^ 16), UInt8.ofNat (n / 2 ^ 24)]

/-- The number whose little-endian bytes are `bs`. -/
def fromLe : Bytes → Nat
  | [] => 0
  | b :: bs => b.toNat + 2 ^ 8 * fromLe bs

@[simp] theorem length_le32 (n : Nat) : (le32 n).length = 4 := rfl

theorem fromLe_lt (bs : Bytes) : fromLe bs < 2 ^ (8 * bs.length) := by
  induction bs with
  | nil => simp [fromLe]
  | cons b bs ih =>
      have hb := b.toNat_lt
      have hpow : 2 ^ (8 * (b :: bs).length) = 2 ^ 8 * 2 ^ (8 * bs.length) := by
        rw [List.length_cons, ← pow_add]; congr 1; ring
      rw [fromLe, hpow]
      omega

/-- A word is read back from its bytes. -/
theorem fromLe_le32 {n : Nat} (h : n < 2 ^ 32) : fromLe (le32 n) = n := by
  simp only [le32, fromLe, UInt8.toNat_ofNat']
  omega

/-- Four bytes are the image of the number they spell. -/
theorem le32_fromLe {bs : Bytes} (h : bs.length = 4) : le32 (fromLe bs) = bs := by
  match bs, h with
  | [a, b, c, d], _ =>
      have ha := a.toNat_lt
      have hb := b.toNat_lt
      have hc := c.toNat_lt
      have hd := d.toNat_lt
      simp only [le32, fromLe, List.cons.injEq, and_true]
      refine ⟨?_, ?_, ?_, ?_⟩ <;> apply UInt8.toNat_inj.mp <;>
        rw [UInt8.toNat_ofNat'] <;> omega

/-- Word number `j`. -/
def wordAt (bs : Bytes) (j : Nat) : Nat := fromLe ((bs.drop (4 * j)).take 4)

theorem wordAt_words {words : List Nat} {j w : Nat} (hj : words[j]? = some w) (hw : w < 2 ^ 32)
    (more : Bytes) : wordAt (words.flatMap le32 ++ more) j = w := by
  induction words generalizing j with
  | nil => cases hj
  | cons v words ih =>
      rw [List.flatMap_cons, List.append_assoc]
      cases j with
      | zero =>
          obtain rfl := Option.some.inj hj
          rw [wordAt, Nat.mul_zero, List.drop_zero, List.take_left' (length_le32 v), fromLe_le32 hw]
      | succ j =>
          have hdrop : (le32 v ++ (words.flatMap le32 ++ more)).drop (4 * (j + 1)) =
              (words.flatMap le32 ++ more).drop (4 * j) := by
            rw [Nat.mul_succ, Nat.add_comm]
            exact @List.drop_length_add_append _ (le32 v) _ (4 * j)
          rw [wordAt, hdrop]
          exact ih hj

end NjuOs.Lib
