import NjuOs.Pstree.Printed

/-!
`pstree` as a program: from the directory `/proc` to the text that it prints.

`scan_proc` takes the first `MAX` processes that it meets (`scanLoop_listing`), whatever else is
in the directory and whichever processes end while it is read. What `main` prints is then the
outline of their tree (`main_prints_tree`).
-/

namespace NjuOs.Pstree

open NjuOs.Lib

/-- An entry of the directory, and what `fopen` finds in it at the moment it is read: `none` if
the process has ended. -/
structure Entry where
  name : CString
  stat : Option Bytes

/-- `isdigit(entry->d_name[0])` -/
def numeric (name : CString) : Bool := isDecimalDigit (name.bytes.headD 0)

/-- The loop of `scan_proc`. -/
def scanLoop : List Entry → List Proc → Option (List Proc)
  | [], array => some array
  | entry :: entries, array =>
      if numeric entry.name then (readProc array entry.stat).bind (scanLoop entries)
      else scanLoop entries array

/-- An option that `getopt_long` returns. -/
inductive Opt where
  | showPids
  | numericSort
  | version
  | unknown
deriving DecidableEq

/-- The exit status, and what is printed. -/
abbrev Exit := Nat × Bytes

/-- `main`, behind the options. The directory is `none` if it cannot be opened. The result is
`none` if a name is written out of bounds, or the fuel does not suffice. -/
def run (fuel : Nat) (showPids : Bool) : Option (List Entry) → Option Exit
  | none => some (1, [])
  | some entries =>
      (scanLoop entries []).bind fun array =>
        (output showPids fuel array).map fun text => (0, text)

/-- `main` -/
def main (fuel : Nat) (dir : Option (List Entry)) (showPids : Bool) : List Opt → Option Exit
  | [] => run fuel showPids dir
  | .showPids :: opts => main fuel dir true opts
  | .numericSort :: opts => main fuel dir showPids opts
  | .version :: _ => some (0, ascii "pstree\n")
  | .unknown :: _ => some (1, [])

/-! ### Scanning -/

/-- The processes of a directory, in the order of their entries. -/
inductive Listing : List Entry → List Stat → Prop where
  | nil : Listing [] []
  /-- A process. -/
  | proc {name : CString} {s : Stat} {more : Bytes} {entries : List Entry} {stats : List Stat}
      (hname : numeric name = true) (h : Listing entries stats) :
      Listing (⟨name, some (s.line more)⟩ :: entries) (s :: stats)
  /-- A process that ends before it is read. -/
  | ended {name : CString} {entries : List Entry} {stats : List Stat} (h : Listing entries stats) :
      Listing (⟨name, none⟩ :: entries) stats
  /-- Anything else in the directory. -/
  | other {entry : Entry} {entries : List Entry} {stats : List Stat}
      (hname : numeric entry.name = false) (h : Listing entries stats) :
      Listing (entry :: entries) stats

/-- The table that the processes make. -/
def tableOf (stats : List Stat) : List Proc := (stats.map Stat.proc).take maxProcs

theorem readProc_line {array : List Proc} (hroom : array.length ≤ maxProcs) {s : Stat}
    (more : Bytes) (h : rparen ∉ s.name.bytes) :
    readProc array (some (s.line more)) = some ((array ++ [s.proc]).take maxProcs) := by
  have hlen : (readString s.name.bytes).take (nameSize - 1) = s.name := by
    rw [readString_bytes]
    exact CString.take_eq_self (s.length.2.trans (by decide))
  have hfits : ¬ nameSize ≤ s.name.bytes.length :=
    Nat.not_le.mpr (s.length.2.trans_lt (by decide))
  rw [readProc, scanf_line_of_notMem s more h]
  simp only [List.any_cons, List.any_nil, overruns, hfits, hlen, decide_false, Bool.or_false,
    Bool.false_eq_true, if_false]
  split
  case isTrue hlt =>
    have hall : (array ++ [s.proc]).length ≤ maxProcs := by
      rw [List.length_append]
      exact hlt
    rw [List.take_of_length_le hall]
    rfl
  case isFalse hge => rw [List.take_left' (Nat.le_antisymm hroom (Nat.not_lt.mp hge))]

theorem take_append_take {α : Type} (n : Nat) (l l' : List α) :
    (l.take n ++ l').take n = (l ++ l').take n := by
  rcases Nat.le_total l.length n with hle | hle
  · rw [List.take_of_length_le hle]
  · rw [List.take_left' (List.length_take_of_le hle), List.take_append_of_le_length hle]

theorem scanLoop_listing {entries : List Entry} {stats : List Stat} (h : Listing entries stats)
    (hnames : ∀ s ∈ stats, rparen ∉ s.name.bytes) {array : List Proc}
    (hroom : array.length ≤ maxProcs) :
    scanLoop entries array = some ((array ++ stats.map Stat.proc).take maxProcs) := by
  induction h generalizing array with
  | nil => rw [scanLoop, List.map_nil, List.append_nil, List.take_of_length_le hroom]
  | proc hname _ ih =>
      obtain ⟨hfirst, hrest⟩ := List.forall_mem_cons.mp hnames
      rw [scanLoop, if_pos hname, readProc_line hroom _ hfirst, Option.bind_some,
        ih hrest (List.length_take_le _ _), take_append_take, List.map_cons, List.append_assoc,
        List.singleton_append]
  | ended _ ih =>
      rw [scanLoop]
      simp only [readProc, Option.bind_some, ih hnames hroom, ite_self]
  | other hname _ ih => rw [scanLoop, hname, if_neg Bool.false_ne_true, ih hnames hroom]

theorem scanLoop_tableOf {entries : List Entry} {stats : List Stat} (h : Listing entries stats)
    (hnames : ∀ s ∈ stats, rparen ∉ s.name.bytes) :
    scanLoop entries [] = some (tableOf stats) :=
  scanLoop_listing h hnames (Nat.zero_le maxProcs)

/-! ### Printing -/

theorem main_options {fuel : Nat} {dir : Option (List Entry)} {opts : List Opt}
    (h : ∀ o ∈ opts, o = .showPids ∨ o = .numericSort) (showPids : Bool) :
    main fuel dir showPids opts = run fuel (showPids || decide (Opt.showPids ∈ opts)) dir := by
  induction opts generalizing showPids with
  | nil => simp [main]
  | cons o opts ih =>
      obtain ⟨ho, hopts⟩ := List.forall_mem_cons.mp h
      rcases ho with rfl | rfl
      · rw [main, ih hopts]
        simp
      · rw [main, ih hopts]
        simp

/-- The tree of a table is printed. -/
theorem output_outline {array : List Proc} (h : Table array) (showPids : Bool) :
    ∃ outline, OutlineOf array outline ∧
      ∀ fuel ≥ array.length, output showPids fuel array = some (outlineText showPids outline) := by
  obtain ⟨init, lines, hinit, hlines⟩ := printTree_terminates h
  have hout : ∀ fuel ≥ array.length,
      output showPids fuel array = some (lines.flatMap (render showPids array)) := by
    intro fuel hfuel
    simp only [output, hinit, hlines fuel hfuel, Option.map_some]
  obtain ⟨outline, htext, houtline⟩ := exists_outline h (hout array.length (Nat.le_refl _))
  exact ⟨outline, houtline, fun fuel hfuel => (hout fuel hfuel).trans (congrArg some htext)⟩

section Main

variable {stats : List Stat} {entries : List Entry} {opts : List Opt}

/-- **`pstree` prints the processes of `/proc` as their tree**, whatever is between them in
the directory, as long as no name has a `)`. If there are no more of them than the table
holds, their order in the directory is of no importance. -/
theorem main_prints_tree (hlisting : Listing entries stats)
    (hnames : ∀ s ∈ stats, rparen ∉ s.name.bytes) (htable : Table (tableOf stats))
    (hopts : ∀ o ∈ opts, o = .showPids ∨ o = .numericSort) :
    ∃ outline, OutlineOf (tableOf stats) outline ∧ ∀ fuel ≥ maxProcs,
      main fuel (some entries) false opts =
          some (0, outlineText (decide (Opt.showPids ∈ opts)) outline) ∧
        ∀ stats' entries', stats.length ≤ maxProcs → stats.Perm stats' →
          Listing entries' stats' →
            main fuel (some entries') false opts = main fuel (some entries) false opts := by
  have hrun : ∀ {stats : List Stat} {entries : List Entry} (fuel : Nat), Listing entries stats →
      (∀ s ∈ stats, rparen ∉ s.name.bytes) → main fuel (some entries) false opts =
        (output (decide (Opt.showPids ∈ opts)) fuel (tableOf stats)).map fun text => (0, text) := by
    intro stats entries fuel hlisting hnames
    rw [main_options hopts, Bool.false_or, run, scanLoop_tableOf hlisting hnames, Option.bind_some]
  obtain ⟨outline, houtline, hout⟩ := output_outline htable (decide (Opt.showPids ∈ opts))
  refine ⟨outline, houtline,
    fun fuel hfuel => ⟨?_, fun stats' entries' hroom hperm hlisting' => ?_⟩⟩
  · rw [hrun fuel hlisting hnames, hout fuel ((List.length_take_le _ _).trans hfuel)]
    rfl
  · have hall : ∀ {stats : List Stat}, stats.length ≤ maxProcs →
        tableOf stats = stats.map Stat.proc := fun hroom =>
      List.take_of_length_le (by rwa [List.length_map])
    have hnames' : ∀ s ∈ stats', rparen ∉ s.name.bytes := fun s hs =>
      hnames s (hperm.mem_iff.mpr hs)
    have htables : (tableOf stats).Perm (tableOf stats') := by
      rw [hall hroom, hall (hperm.length_eq ▸ hroom)]
      exact hperm.map _
    rw [hrun fuel hlisting' hnames', hrun fuel hlisting hnames, output_perm htables htable]

/-- `1 (init) S 0 ...` -/
def initStat : Stat :=
  { bashStat with
    pid := 1
    name := ⟨[0x69, 0x6e, 0x69, 0x74], by decide⟩
    ppid := 0
    length := by decide
    pidInt := bashStat.ppidInt
    ppidInt := by decide }

-- with the entry `s`, and a process that has ended
theorem main_prints_tree_two :
    ∃ outline, OutlineOf (tableOf [initStat, bashStat]) outline ∧
      main maxProcs (some [⟨.single 115, none⟩, ⟨.single 49, some (initStat.line [])⟩,
        ⟨.single 55, none⟩, ⟨.single 52, some (bashStat.line [])⟩]) false
        [.numericSort, .showPids] = some (0, outlineText true outline) := by
  have hlisting : Listing [⟨.single 115, none⟩, ⟨.single 49, some (initStat.line [])⟩,
      ⟨.single 55, none⟩, ⟨.single 52, some (bashStat.line [])⟩] [initStat, bashStat] :=
    .other (by decide) (.proc (by decide) (.ended (.proc (by decide) .nil)))
  obtain ⟨outline, houtline, hmain⟩ := @main_prints_tree _ _
    [.numericSort, .showPids] hlisting (by decide) ⟨by decide, by decide⟩ (by decide)
  exact ⟨outline, houtline, (hmain maxProcs (Nat.le_refl _)).1⟩

end Main

end NjuOs.Pstree
