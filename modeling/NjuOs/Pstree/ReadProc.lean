import NjuOs.Lib.Scanf
import NjuOs.Pstree.Basic

/-!
Reading the `stat` file of a process.

The kernel prints the name of the command between parentheses and does not look
at what is in it. The format of `read_proc` lets the name end with the first `)`,
so a process is read as it is exactly when its name has none (`read_proc_iff`).
-/

namespace NjuOs.Pstree

open NjuOs.Lib Scanf

/-- `MAX` -/
def maxProcs : Nat := 1024

/-- The length of the arrays for names. -/
def nameSize : Nat := 256

/-- `"%d (%[^)]) %c %d"` -/
def statFormat : List Directive :=
  [.int, .blank, .literal lparen, .set (· ≠ rparen), .literal rparen, .blank, .char, .blank, .int]

/-- A name that `%[^)]` writes behind the end of `name`. -/
def overruns : Item → Bool
  | .text chars => nameSize ≤ chars.length
  | _ => false

/-- `read_proc`; the file is `none` if it cannot be opened. The result is `none` if
`fscanf` writes outside of `name`. -/
def readProc (array : List Proc) (file : Option Bytes) : Option (List Proc) :=
  match file with
  | none => some array
  | some file =>
      let items := scanf statFormat file
      if items.any overruns then none
      else
        match items with
        | [.int pid, .text name, .char _, .int ppid] =>
            if array.length < maxProcs then
              some (array ++ [⟨(readString name).take (nameSize - 1), ppid, pid⟩])
            else some array
        | _ => some array

/-- What the kernel knows of a process. -/
structure Stat where
  pid : Int
  name : CString
  state : UInt8
  ppid : Int
  length : 1 ≤ name.length ∧ name.length ≤ 64
  letter : 0x41 ≤ state ∧ state ≤ 0x5A ∨ 0x61 ≤ state ∧ state ≤ 0x7A
  pidInt : -2 ^ 31 ≤ pid ∧ pid < 2 ^ 31
  ppidInt : -2 ^ 31 ≤ ppid ∧ ppid < 2 ^ 31

/-- The line that it prints, with the other fields behind the pid of the parent. -/
def Stat.line (s : Stat) (more : Bytes) : Bytes :=
  decimalInt s.pid ++ space :: lparen :: (s.name.bytes ++
    rparen :: space :: s.state :: space :: (decimalInt s.ppid ++ space :: more))

/-- The record of the process. -/
def Stat.proc (s : Stat) : Proc := ⟨s.name, s.ppid, s.pid⟩

section Stat

variable (s : Stat) (more : Bytes)

theorem Stat.not_space : isSpace s.state = false := by
  have hlower : 0x41 ≤ s.state.toNat := by
    rcases s.letter with ⟨h, -⟩ | ⟨h, -⟩
    · exact UInt8.le_iff_toNat_le.mp h
    · exact (UInt8.le_iff_toNat_le.mp h).trans' (by decide)
  have hblank : s.state ≠ 0x20 := by
    intro h
    rw [h] at hlower
    exact absurd hlower (by decide)
  have hcontrol : ¬ s.state ≤ 0x0D := by
    rw [UInt8.le_iff_toNat_le]
    exact fun hle => absurd (hlower.trans hle) (by decide)
  simp [isSpace, hblank, hcontrol]

theorem isSpace_space : isSpace space = true := by decide

/-- Up to the name. -/
theorem scanf_front (directives : List Directive) (rest : Bytes) :
    scanf (.int :: .blank :: .literal lparen :: directives)
      (decimalInt s.pid ++ space :: lparen :: rest) = .int s.pid :: scanf directives rest := by
  rw [scanf_int s.pid (by decide), scanf_blank isSpace_space (by decide), scanf_literal]

/-- From behind the name. -/
theorem scanf_back :
    scanf [.literal rparen, .blank, .char, .blank, .int]
      (rparen :: space :: s.state :: space :: (decimalInt s.ppid ++ space :: more)) =
        [.char s.state, .int s.ppid] := by
  rw [scanf_literal, scanf_blank isSpace_space s.not_space, scanf_char,
    scanf_blank_int isSpace_space s.ppid (by decide)]
  rfl

theorem scanf_line_of_notMem (h : rparen ∉ s.name.bytes) :
    scanf statFormat (s.line more) =
      [.int s.pid, .text s.name.bytes, .char s.state, .int s.ppid] := by
  have hchars : ∀ b ∈ s.name.bytes, (decide (b ≠ rparen)) = true := by
    intro b hb
    have hne : b ≠ rparen := fun heq => h (heq ▸ hb)
    simpa using hne
  have hne : s.name.bytes ≠ [] := List.ne_nil_of_length_pos s.length.1
  rw [statFormat, Stat.line, scanf_front, scanf_set hne hchars (by decide), scanf_back]

/-- Where the name has a `)`, what is read of it ends there. -/
theorem scanf_line_of_mem (h : rparen ∈ s.name.bytes) :
    ∃ chars items, rparen ∉ chars ∧
      (scanf statFormat (s.line more) = [.int s.pid] ∨
        scanf statFormat (s.line more) = .int s.pid :: .text chars :: items) := by
  obtain ⟨front, back, hname, hfront⟩ := List.eq_append_cons_of_mem h
  have hchars : ∀ b ∈ front, (decide (b ≠ rparen)) = true := by
    intro b hb
    have hne : b ≠ rparen := fun heq => hfront (heq ▸ hb)
    simpa using hne
  rw [statFormat, Stat.line, scanf_front, hname, List.append_assoc, List.cons_append]
  cases front with
  | nil =>
      refine ⟨[], [], List.not_mem_nil, .inl ?_⟩
      rw [List.nil_append, scanf_set_none (by decide)]
  | cons b front =>
      exact ⟨b :: front, _, hfront,
        .inr (by rw [scanf_set (List.cons_ne_nil b front) hchars (by decide)])⟩

theorem readString_bytes (name : CString) : readString name.bytes = name :=
  CString.ext_bytes (cstr_bytes name)

/-- A record that is appended is made of what `fscanf` has read. -/
theorem readProc_append {array : List Proc} {file : Bytes} {p : Proc}
    (h : readProc array (some file) = some (array ++ [p])) :
    ∃ pid name state ppid,
      scanf statFormat file = [.int pid, .text name, .char state, .int ppid] ∧
        p = ⟨(readString name).take (nameSize - 1), ppid, pid⟩ := by
  have hsame : some array ≠ some (array ++ [p]) := by simp
  simp only [readProc] at h
  split at h
  case isTrue => cases h
  case isFalse =>
    split at h
    case h_1 pid name state ppid hitems =>
      split at h
      case isTrue =>
        have hrecord := List.append_cancel_left (Option.some.inj h)
        exact ⟨pid, name, state, ppid, hitems, (List.singleton_inj.mp hrecord).symm⟩
      case isFalse => exact absurd h hsame
    case h_2 => exact absurd h hsame

/-- **A process is read as it is** exactly when there is no `)` in its name. -/
theorem read_proc_iff {array : List Proc} (hroom : array.length < maxProcs) :
    readProc array (some (s.line more)) = some (array ++ [s.proc]) ↔ rparen ∉ s.name.bytes := by
  constructor
  · intro hread hmem
    obtain ⟨pid, name, state, ppid, hscan, hproc⟩ := readProc_append hread
    obtain ⟨chars, items, hchars, hitems | hitems⟩ := scanf_line_of_mem s more hmem
    · rw [hitems] at hscan
      cases hscan
    · rw [hitems] at hscan
      have htext : chars = name := Item.text.inj (List.cons.inj (List.cons.inj hscan).2).1
      have hname : s.name = (readString name).take (nameSize - 1) := congrArg Proc.name hproc
      rw [hname, ← htext] at hmem
      exact hchars ((List.takeWhile_sublist _).subset (List.mem_of_mem_take hmem))
  · intro h
    have hlen : (readString s.name.bytes).take (nameSize - 1) = s.name := by
      rw [readString_bytes]
      exact CString.take_eq_self (s.length.2.trans (by decide))
    have hfits : ¬ nameSize ≤ s.name.bytes.length :=
      Nat.not_le.mpr (s.length.2.trans_lt (by decide))
    rw [readProc, scanf_line_of_notMem s more h]
    simp only [List.any_cons, List.any_nil, overruns, hfits, hlen, hroom, Stat.proc]
    simp

end Stat

/-- `42 (bash) S 1 ...` -/
def bashStat : Stat where
  pid := 42
  name := ⟨[0x62, 0x61, 0x73, 0x68], by decide⟩
  state := 0x53
  ppid := 1
  length := by decide
  letter := by decide
  pidInt := by decide
  ppidInt := by decide

theorem read_proc_bash :
    readProc [] (some (bashStat.line [])) = some [bashStat.proc] :=
  (read_proc_iff bashStat [] (by decide)).mpr (by decide)

/-- `43 (a)b) S 42 ...` -/
def parenStat : Stat where
  pid := 43
  name := ⟨[0x61, rparen, 0x62], by decide⟩
  state := 0x53
  ppid := 42
  length := by decide
  letter := by decide
  pidInt := by decide
  ppidInt := by decide

/-- The process is not read at all. -/
theorem paren_dropped :
    readProc [] (some (parenStat.line [])) = some [] ∧
      readProc [] (some (parenStat.line [])) ≠ some [parenStat.proc] := by
  decide +kernel

end NjuOs.Pstree
