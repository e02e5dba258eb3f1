import NjuOs.Lib.Outline
import NjuOs.Pstree.ReadProc
import NjuOs.Pstree.Tree

/-!
What the printed tree tells.

With `-p` every line ends with a pid, and its indentation gives the depth. So what is
printed can be read back: it determines the processes of the tree and who is below whom
(`printed_tree_determined`), provided that no name contains a newline or begins with a
blank.
-/

namespace NjuOs.Pstree

open NjuOs.Lib

/-! ### Lines -/

/-- What a line says of its process. -/
def Proc.label (p : Proc) : CString × Int := (p.name, p.pid)

/-- The name can be told from the indentation and from the end of its line. -/
def Plain (name : CString) : Prop := newline ∉ name.bytes ∧ name.bytes.head? ≠ some space

/-- A line without the newline. -/
def lineText (showPids : Bool) (depth : Nat) (label : CString × Int) : Bytes :=
  List.replicate (4 * depth) space ++
    (label.1.bytes ++ if showPids then lparen :: (decimalInt label.2 ++ [rparen]) else [])

/-- The text of an outline. -/
def outlineText (showPids : Bool) (outline : List (Nat × CString × Int)) : Bytes :=
  outline.flatMap fun e => lineText showPids e.1 e.2 ++ [newline]

theorem ascii_toString (n : Int) : ascii (toString n) = decimalInt n := by
  cases n with
  | ofNat n => simp [ascii, decimalInt, decimal, Nat.repr_eq_ofList_toDigits, toString, Int.repr]
  | negSucc n => simp [ascii, decimalInt, decimal, Nat.repr_eq_ofList_toDigits, toString, Int.repr]

theorem indentation_eq (depth : Nat) :
    (List.replicate depth (ascii "    ")).flatten = List.replicate (4 * depth) space := by
  induction depth with
  | zero => rfl
  | succ depth ih =>
      rw [List.replicate_succ, List.flatten_cons, ih, Nat.mul_succ, Nat.add_comm,
        List.replicate_add]
      rfl

theorem render_eq (showPids : Bool) (array : List Proc) (line : Nat × Nat) :
    render showPids array line =
      lineText showPids line.1 (procAt array line.2).label ++ [newline] := by
  have hpid : ascii "(" ++ ascii (toString (procAt array line.2).pid) ++ ascii ")" =
      lparen :: (decimalInt (procAt array line.2).pid ++ [rparen]) := by
    rw [ascii_toString]
    rfl
  simp only [render, lineText, Proc.label, indentation_eq, hpid, List.append_assoc]
  rfl

/-! ### Reading a line -/

theorem decimalInt_char {n : Int} {c : UInt8} (h : c ∈ decimalInt n) :
    c = 0x2D ∨ 48 ≤ c.toNat ∧ c.toNat ≤ 57 := by
  rw [decimalInt] at h
  split_ifs at h
  · exact (List.mem_cons.mp h).imp_right decimal_digit
  · exact .inr (decimal_digit h)

theorem notMem_decimalInt {c : UInt8} (hminus : c ≠ 0x2D) (hdigit : c.toNat < 48) (n : Int) :
    c ∉ decimalInt n := fun h =>
  (decimalInt_char h).elim hminus fun hbounds => absurd hbounds.1 (Nat.not_le.mpr hdigit)

theorem decimalInt_injective : Function.Injective decimalInt := by
  have hnat : ∀ {m n : Nat}, decimal m = decimal n → m = n := fun {m n} h => by
    rw [← digitsValue_decimal m, h, digitsValue_decimal]
  have hminus : ∀ m n : Nat, 0x2D :: decimal m ≠ decimal n := fun m n h =>
    absurd (decimal_digit (h ▸ List.mem_cons_self : (0x2D : UInt8) ∈ decimal n)).1 (by decide)
  intro m n h
  rw [decimalInt, decimalInt] at h
  split_ifs at h with hm hn hn
  · have habs := hnat (List.cons.inj h).2
    omega
  · exact absurd h (hminus _ _)
  · exact absurd h.symm (hminus _ _)
  · have habs := hnat h
    omega

/-- The indentation ends where the name begins. -/
theorem indented_inj {m n : Nat} {a b : Bytes} (ha : a.head? ≠ some space)
    (hb : b.head? ≠ some space)
    (h : List.replicate m space ++ a = List.replicate n space ++ b) : m = n ∧ a = b := by
  induction m generalizing n with
  | zero =>
      cases n with
      | zero => exact ⟨rfl, h⟩
      | succ n => exact absurd (congrArg List.head? h) ha
  | succ m ih =>
      cases n with
      | zero => exact absurd (congrArg List.head? h).symm hb
      | succ n =>
          obtain ⟨rfl, rfl⟩ := ih (List.cons.inj h).2
          exact ⟨rfl, rfl⟩

theorem lineText_inj {depth depth' : Nat} {label label' : CString × Int} (hplain : Plain label.1)
    (hplain' : Plain label'.1) (h : lineText true depth label = lineText true depth' label') :
    depth = depth' ∧ label = label' := by
  have hparen : ∀ n : Int, ∀ c ∈ decimalInt n, ¬ c = lparen := fun n c hc heq =>
    notMem_decimalInt (by decide) (by decide) n (heq ▸ hc)
  have hbody : ∀ depth (label : CString × Int), lineText true depth label =
      (List.replicate (4 * depth) space ++ label.1.bytes) ++ lparen :: decimalInt label.2 ++
        [rparen] := fun depth label => by simp [lineText]
  rw [hbody, hbody] at h
  -- the pid is behind the last parenthesis that opens
  obtain ⟨hfront, -, hpid⟩ := append_cons_unique (P := (· = lparen)) rfl rfl (hparen _) (hparen _)
    (List.append_cancel_right h)
  obtain ⟨hdepth, hname⟩ := indented_inj hplain.2 hplain'.2 hfront
  exact ⟨by omega, Prod.ext (CString.ext_bytes hname) (decimalInt_injective hpid)⟩

theorem newline_notMem_lineText {depth : Nat} {label : CString × Int} (hplain : Plain label.1) :
    newline ∉ lineText true depth label := by
  have hpid := notMem_decimalInt (c := newline) (by decide) (by decide) label.2
  have hblank : newline ∉ List.replicate (4 * depth) space := fun h =>
    absurd (List.eq_of_mem_replicate h) (by decide)
  simp only [lineText, if_true, List.mem_append, List.mem_cons, not_or]
  exact ⟨hblank, hplain.1, by decide, hpid, by decide, List.not_mem_nil⟩

theorem outlineText_inj {outline outline' : List (Nat × CString × Int)}
    (hplain : ∀ e ∈ outline, Plain e.2.1) (hplain' : ∀ e ∈ outline', Plain e.2.1)
    (h : outlineText true outline = outlineText true outline') : outline = outline' := by
  induction outline generalizing outline' with
  | nil =>
      cases outline' with
      | nil => rfl
      | cons e' outline' => simp [outlineText] at h
  | cons e outline ih =>
      cases outline' with
      | nil => simp [outlineText] at h
      | cons e' outline' =>
          obtain ⟨he, hrest⟩ := List.forall_mem_cons.mp hplain
          obtain ⟨he', hrest'⟩ := List.forall_mem_cons.mp hplain'
          simp only [outlineText, List.flatMap_cons, List.append_assoc, List.singleton_append] at h
          have hchars : ∀ e : Nat × CString × Int, Plain e.2.1 → ∀ c ∈ lineText true e.1 e.2,
              ¬ c = newline := fun e he c hc heq => newline_notMem_lineText he (heq ▸ hc)
          obtain ⟨hline, -, htext⟩ := append_cons_unique_first (P := (· = newline)) rfl rfl
            (hchars e he) (hchars e' he') h
          obtain ⟨hdepth, hlabel⟩ := lineText_inj he he' hline
          rw [Prod.ext hdepth hlabel, ih hrest hrest' htext]

/-! ### The tree -/

/-- Process `p` is in the tree, at this depth. -/
def Shown (array : List Proc) (p : Proc) (depth : Nat) : Prop :=
  ∃ i, procAt array i = p ∧ Chain array i depth

/-- In the tree `c` is a child of `p`. -/
def ShownUnder (array : List Proc) (c p : Proc) : Prop :=
  ∃ i j n, procAt array i = c ∧ procAt array j = p ∧ Parent array i j ∧ Chain array j n

/-- The lines of a printed table as an outline. -/
def labels (array : List Proc) (lines : List (Nat × Nat)) : List (Nat × CString × Int) :=
  lines.map fun e => (e.1, (procAt array e.2).label)

section Outline

variable {array : List Proc} {outline : List (Nat × CString × Int)}

/-- The outline of the tree of a table. -/
structure OutlineOf (array : List Proc) (outline : List (Nat × CString × Int)) : Prop where
  shown : ∀ l depth, (depth, l) ∈ outline ↔ ∃ p, Shown array p depth ∧ p.label = l
  under : ∀ l l', Below outline l' l ↔
    ∃ c p, ShownUnder array c p ∧ c.label = l ∧ p.label = l'
  once : (outline.map Prod.snd).Nodup

/-- What is printed is the outline of the tree. -/
theorem exists_outline (h : Table array) {showPids : Bool} {fuel : Nat} {text : Bytes}
    (hout : output showPids fuel array = some text) :
    ∃ outline, text = outlineText showPids outline ∧ OutlineOf array outline := by
  obtain ⟨init, hinit⟩ := exists_init h
  rw [output, hinit] at hout
  obtain ⟨lines, hlines, rfl⟩ := Option.map_eq_some_iff.mp hout
  rw [printTree_eq] at hlines
  have hmem : ∀ i depth, (depth, i) ∈ lines ↔ Chain array i depth := fun i depth => by
    rw [mem_preorder hlines, ← path_iff_chain h hinit]
    simp
  have hrooted := buildTree_rooted h hinit
  refine ⟨labels array lines, ?_, fun l depth => ?_, fun l l' => ?_, ?_⟩
  · rw [outlineText, labels, List.flatMap_map]
    exact List.flatMap_congr fun e _ => render_eq showPids array e
  · rw [labels, List.mem_map]
    constructor
    · rintro ⟨⟨depth, i⟩, hi, heq⟩
      obtain ⟨rfl, rfl⟩ := Prod.mk.inj heq
      exact ⟨_, ⟨i, rfl, (hmem i _).mp hi⟩, rfl⟩
    · rintro ⟨p, ⟨i, rfl, hi⟩, rfl⟩
      exact ⟨(depth, i), (hmem i depth).mpr hi, rfl⟩
  · rw [labels, below_map_iff (f := fun i => (procAt array i).label)]
    simp only [below_preorder_iff hrooted.unique hlines, mem_buildTree h, hmem]
    constructor
    · rintro ⟨j, i, ⟨hparent, n, hchain⟩, rfl, rfl⟩
      cases hchain with
      | parent hparent' hchain =>
          obtain rfl :=
            hrooted.unique ((mem_buildTree h).mpr hparent) ((mem_buildTree h).mpr hparent')
          exact ⟨_, _, ⟨i, j, n, rfl, rfl, hparent, hchain⟩, rfl, rfl⟩
    · rintro ⟨c, p, ⟨i, j, n, rfl, rfl, hparent, hchain⟩, rfl, rfl⟩
      exact ⟨j, i, ⟨hparent, n, .parent hparent hchain⟩, rfl, rfl⟩
  · -- the pids of different processes are different
    have hindices : (lines.map Prod.snd).Nodup := hrooted.preorder_nodup .refl hlines
    have hpids : ((lines.map Prod.snd).map fun i => (procAt array i).pid).Nodup := by
      refine hindices.map_on fun i hi j hj heq => ?_
      obtain ⟨⟨depth, i⟩, hline, rfl⟩ := List.mem_map.mp hi
      obtain ⟨⟨depth', j⟩, hline', rfl⟩ := List.mem_map.mp hj
      exact h.pid_injective ((hmem i depth).mp hline).lt_length
        ((hmem j depth').mp hline').lt_length heq
    refine List.Nodup.of_map Prod.snd ?_
    simpa [labels, Proc.label, List.map_map, Function.comp_def] using hpids

theorem OutlineOf.plain (h : OutlineOf array outline) (hplain : ∀ p ∈ array, Plain p.name) :
    ∀ e ∈ outline, Plain e.2.1 := by
  rintro ⟨depth, l⟩ he
  obtain ⟨_, ⟨i, rfl, hi⟩, rfl⟩ := (h.shown l depth).mp he
  exact hplain _ (procAt_mem hi.lt_length)

end Outline

/-- **The printed tree can be read back.** Tables for which the same is printed with `-p` have
the same processes in their trees, by name and pid, at the same depths and under the
same processes. -/
theorem printed_tree_determined {array array' : List Proc} (h : Table array) (h' : Table array')
    (hplain : ∀ p ∈ array, Plain p.name) (hplain' : ∀ p ∈ array', Plain p.name)
    {fuel fuel' : Nat} {text : Bytes} (hout : output true fuel array = some text)
    (hout' : output true fuel' array' = some text) :
    (∀ l depth, (∃ p, Shown array p depth ∧ p.label = l) ↔
      ∃ p, Shown array' p depth ∧ p.label = l) ∧
    ∀ l l', (∃ c p, ShownUnder array c p ∧ c.label = l ∧ p.label = l') ↔
      ∃ c p, ShownUnder array' c p ∧ c.label = l ∧ p.label = l' := by
  obtain ⟨outline, htext, houtline⟩ := exists_outline h hout
  obtain ⟨outline', htext', houtline'⟩ := exists_outline h' hout'
  obtain rfl := outlineText_inj (houtline.plain hplain) (houtline'.plain hplain')
    (htext.symm.trans htext')
  exact ⟨fun l depth => (houtline.shown l depth).symm.trans (houtline'.shown l depth),
    fun l l' => (houtline.under l l').symm.trans (houtline'.under l l')⟩

/-- A child of init, and one whose parent is gone. -/
theorem printed_tree_determined_orphan :
    ∃ text, output true 2 [⟨.single 105, 0, 1⟩, ⟨.single 98, 7, 4⟩] = some text ∧
      output true 2 [⟨.single 98, 1, 4⟩, ⟨.single 105, 3, 1⟩] = some text ∧
      ((∃ c p, ShownUnder [⟨.single 105, 0, 1⟩, ⟨.single 98, 7, 4⟩] c p ∧
        c.label = (.single 98, 4) ∧ p.label = (.single 105, 1)) ↔
        ∃ c p, ShownUnder [⟨.single 98, 1, 4⟩, ⟨.single 105, 3, 1⟩] c p ∧
          c.label = (.single 98, 4) ∧ p.label = (.single 105, 1)) := by
  obtain ⟨text, hout, hout'⟩ : ∃ text,
      output true 2 [⟨.single 105, 0, 1⟩, ⟨.single 98, 7, 4⟩] = some text ∧
        output true 2 [⟨.single 98, 1, 4⟩, ⟨.single 105, 3, 1⟩] = some text :=
    ⟨_, rfl, by decide +kernel⟩
  have hplain : ∀ p ∈ [(⟨.single 105, 0, 1⟩ : Proc), ⟨.single 98, 7, 4⟩], Plain p.name := by
    simp only [Plain]
    decide
  have hplain' : ∀ p ∈ [(⟨.single 98, 1, 4⟩ : Proc), ⟨.single 105, 3, 1⟩], Plain p.name := by
    simp only [Plain]
    decide
  exact ⟨text, hout, hout', (printed_tree_determined ⟨by decide, by decide⟩
    ⟨by decide, by decide⟩ hplain hplain' hout hout').2 _ _⟩

end NjuOs.Pstree
