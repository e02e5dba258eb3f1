import NjuOs.Crepl.Basic

/-!
A line that does not compile leaves the session as it was.

`iteration_spec` says what one iteration does: it reports the line, and the two
copies of the accepted text either stay or get the text of the line
(`Built`). From it, `/tmp/lib.c` and `origin_file` agree after every iteration
and are the accepted texts in the order of the input.
-/

namespace NjuOs.Crepl

open NjuOs.Lib

variable {F : Type}

/-- The line that is left of a buffer. -/
def Report.line (r : Report F) : Bytes := lineOfBuffer r.buffer

/-- The text of the line compiled. -/
def Report.accepted (r : Report F) : Bool := r.lib ≠ -1

/-- What is compiled behind the accepted text, when `n` expressions came before. -/
def lineText (n : Nat) (line : Bytes) : Bytes :=
  if isDefinition line then definitionText line else expressionText n line

/-- `expr_num` after a line. -/
def nextExprNum (n : Nat) (line : Bytes) : Nat := if isDefinition line then n else n + 1

/-- The texts of the lines of a session. -/
def lineTexts : Nat → List Bytes → List Bytes
  | _, [] => []
  | n, line :: lines => lineText n line :: lineTexts (nextExprNum n line) lines

/-! ### NUL bytes -/

theorem lineOfBuffer_nulFree (buffer : Bytes) : (0 : UInt8) ∉ lineOfBuffer buffer :=
  fun h => nul_notMem_cstr buffer ((List.dropLast_sublist _).subset h)

theorem funcName_nulFree (n : Nat) : (0 : UInt8) ∉ funcName n := by
  rw [funcName, List.mem_append, not_or]
  exact ⟨by decide, decimal_nulFree n⟩

theorem lineText_nulFree (n : Nat) {line : Bytes} (h : (0 : UInt8) ∉ line) :
    (0 : UInt8) ∉ lineText n line := by
  rw [lineText]
  split_ifs
  · rw [definitionText, List.mem_append, not_or]
    exact ⟨h, by decide⟩
  · simp only [expressionText, List.mem_append, not_or]
    exact ⟨⟨⟨⟨by decide, funcName_nulFree n⟩, by decide⟩, h⟩, by decide⟩

/-! ### One iteration -/

/-- What the compilation of a file does to `origin_file` and to `/tmp/lib.so`. -/
inductive Built (cc : Compiler F) (file : Bytes) (lib : Int) (originFile : Bytes)
    (tmpo : Option (Library F)) : Bytes → Option (Library F) → Prop where
  | rejected : cc file = none → lib = -1 → Built cc file lib originFile tmpo originFile tmpo
  | accepted (so : Library F) : cc file = some so → lib = 0 →
      Built cc file lib originFile tmpo file (some so)

/-- What an iteration does, with its report. -/
structure IterationSpec (cc : Compiler F) (env : Env F) (s s' : State F) (r : Report F) :
    Prop where
  history : s'.history = s.history ++ [r]
  read : fgets 1024 s.stdin = some (r.buffer, s'.stdin)
  origin : r.origin = cstr s.originFile
  exprNum : r.exprNum = s.exprNum
  text : r.text = lineText s.exprNum r.line
  next : s'.exprNum = nextExprNum s.exprNum r.line
  file : s'.tmpc = some (cstr s'.originFile)
  built : Built cc (r.origin ++ r.text) r.lib s.originFile s.tmpo s'.originFile s'.tmpo
  called : r.called =
    if isDefinition r.line then none
    else (dlsym (if env.dlopen then s'.tmpo else none) (funcName s.exprNum)).map
      fun f => (f, env.call f.code)
  value_iff : ∀ v, .value v ∈ r.output ↔ ∃ f, r.called = some (f, .returns v)

/-- The common part of both branches. -/
theorem compileText_spec (cc : Compiler F) (s : State F) {text : Bytes}
    (nulFree : (0 : UInt8) ∉ text) (errorLine okLine : Nat) {lib : Int} {message : Output}
    {s' : State F} (h : compileText cc s text errorLine okLine = (lib, message, s')) :
    Built cc (cstr s.originFile ++ text) lib s.originFile s.tmpo s'.originFile s'.tmpo ∧
      s'.tmpc = some (cstr s'.originFile) ∧ s'.stdin = s.stdin ∧ s'.history = s.history ∧
      s'.exprNum = s.exprNum ∧ ∀ v, message ≠ .value v := by
  have content : cstr (cstr s.originFile ++ text) = cstr s.originFile ++ text := by
    refine cstr_eq_self ?_
    rw [List.mem_append, not_or]
    exact ⟨nul_notMem_cstr _, nulFree⟩
  cases hcc : cc (cstr s.originFile ++ text) with
  | none =>
      simp only [compileText, compile, Option.bind_some, hcc, if_true, Prod.mk.injEq] at h
      obtain ⟨rfl, rfl, rfl⟩ := h
      exact ⟨.rejected hcc rfl, rfl, rfl, rfl, rfl, fun _ => Output.noConfusion⟩
  | some so =>
      simp only [compileText, compile, Option.bind_some, hcc, saveOrigin, Option.getD_some] at h
      rw [if_neg (by decide)] at h
      obtain ⟨rfl, rfl, rfl⟩ := h
      refine ⟨.accepted so hcc rfl, ?_, rfl, rfl, rfl, fun _ => Output.noConfusion⟩
      rw [content]

theorem define_spec (cc : Compiler F) (env : Env F) {s : State F} {stdin buffer : Bytes}
    (read : fgets 1024 s.stdin = some (buffer, stdin))
    (branch : isDefinition (lineOfBuffer buffer)) :
    ∃ r, IterationSpec cc env s (define cc { s with stdin := stdin } buffer) r := by
  have text : lineText s.exprNum (lineOfBuffer buffer) = definitionText (lineOfBuffer buffer) :=
    if_pos branch
  have nulFree := lineText_nulFree s.exprNum (lineOfBuffer_nulFree buffer)
  rw [text] at nulFree
  obtain ⟨built, file, stdin_eq, -, exprNum, silent⟩ :=
    compileText_spec cc { s with stdin := stdin } nulFree 88 93 rfl
  refine ⟨_, {
    history := rfl
    read := read.trans (congrArg (fun rest => some (buffer, rest)) stdin_eq.symm)
    origin := rfl
    exprNum := rfl
    text := text.symm
    next := exprNum.trans (if_pos branch).symm
    file := file
    built := built
    called := (if_pos branch).symm
    value_iff := fun v => iff_of_false ?_ ?_ }⟩
  · rw [List.mem_singleton]
    exact fun h => silent v h.symm
  · rintro ⟨f, ⟨⟩⟩

theorem Outcome.output_eq_value {outcome : Outcome} {v : Int} :
    .value v = outcome.output ↔ outcome = .returns v := by
  cases outcome with
  | returns result => simp only [output, Output.value.injEq, returns.injEq, eq_comm]
  | sigfpe => exact iff_of_false Output.noConfusion Outcome.noConfusion

section Express

variable {cc : Compiler F} {env : Env F} {s s' : State F} {buffer : Bytes} {lib : Int}
  {message : Output}

/-- The symbol is not found. -/
theorem express_missing
    (build : compileText cc s (expressionText s.exprNum (lineOfBuffer buffer)) 106 111 =
      (lib, message, s'))
    (found : dlsym (if env.dlopen then s'.tmpo else none) (funcName s.exprNum) = none) :
    express cc env s buffer =
      { useOrigin s' with
        handle := if env.dlopen then s'.tmpo else none, exprNum := s.exprNum + 1
        history := s.history ++
          [⟨buffer, s.exprNum, cstr s.originFile, expressionText s.exprNum (lineOfBuffer buffer),
            lib, none, [message, .compileError 125]⟩] } := by
  simp only [express, build, found]

/-- The symbol is found, and the function is called. -/
theorem express_found {func : Definition F}
    (build : compileText cc s (expressionText s.exprNum (lineOfBuffer buffer)) 106 111 =
      (lib, message, s'))
    (found : dlsym (if env.dlopen then s'.tmpo else none) (funcName s.exprNum) = some func) :
    express cc env s buffer =
      { s' with
        handle := if env.dlopen then s'.tmpo else none, exprNum := s.exprNum + 1
        history := s.history ++
          [⟨buffer, s.exprNum, cstr s.originFile, expressionText s.exprNum (lineOfBuffer buffer),
            lib, some (func, env.call func.code),
            [message, (env.call func.code).output]⟩] } := by
  simp only [express, build, found]

end Express

theorem express_spec (cc : Compiler F) (env : Env F) {s : State F} {stdin buffer : Bytes}
    (read : fgets 1024 s.stdin = some (buffer, stdin))
    (branch : ¬ isDefinition (lineOfBuffer buffer)) :
    ∃ r, IterationSpec cc env s (express cc env { s with stdin := stdin } buffer) r := by
  have text : lineText s.exprNum (lineOfBuffer buffer) =
      expressionText s.exprNum (lineOfBuffer buffer) := if_neg branch
  have nulFree := lineText_nulFree s.exprNum (lineOfBuffer_nulFree buffer)
  rw [text] at nulFree
  rcases build : compileText cc { s with stdin := stdin }
    (expressionText s.exprNum (lineOfBuffer buffer)) 106 111 with ⟨lib, message, s1⟩
  obtain ⟨built, file, stdin_eq, -, -, silent⟩ := compileText_spec cc _ nulFree 106 111 build
  have read' : fgets 1024 s.stdin = some (buffer, s1.stdin) := by rw [stdin_eq, read]
  have called : ∀ {func}, dlsym (if env.dlopen then s1.tmpo else none) (funcName s.exprNum) = func →
      func.map (fun f => (f, env.call f.code)) =
        if isDefinition (lineOfBuffer buffer) then none
        else (dlsym (if env.dlopen then s1.tmpo else none) (funcName s.exprNum)).map
          fun f => (f, env.call f.code) := by
    rintro _ rfl
    exact (if_neg branch).symm
  cases found : dlsym (if env.dlopen then s1.tmpo else none) (funcName s.exprNum) with
  | none =>
      rw [express_missing build found]
      refine ⟨_, {
        history := rfl, read := read', origin := rfl, exprNum := rfl, text := text.symm
        next := (if_neg branch).symm, file := rfl, built := built
        called := called found
        value_iff := fun v => iff_of_false ?_ ?_ }⟩
      · rw [List.mem_cons, List.mem_singleton]
        exact not_or.mpr ⟨fun h => silent v h.symm, Output.noConfusion⟩
      · rintro ⟨f, ⟨⟩⟩
  | some func =>
      rw [express_found build found]
      refine ⟨_, {
        history := rfl, read := read', origin := rfl, exprNum := rfl, text := text.symm
        next := (if_neg branch).symm, file := file, built := built
        called := called found
        value_iff := fun v => ?_ }⟩
      rw [List.mem_cons, List.mem_singleton, or_iff_right fun h => silent v h.symm,
        Outcome.output_eq_value]
      constructor
      · exact fun h => ⟨func, by rw [h]⟩
      · rintro ⟨f, h⟩
        exact congrArg Prod.snd (Option.some.inj h)

/-- One iteration: there is one more report, and it says what happened. -/
theorem iteration_spec {cc : Compiler F} {env : Env F} {s s' : State F}
    (h : iteration cc s env = some s') : ∃ r, IterationSpec cc env s s' r := by
  unfold iteration at h
  split at h
  · cases h
  · rename_i buffer stdin read
    split_ifs at h with empty branch
    · cases h
      exact define_spec cc env read branch
    · cases h
      exact express_spec cc env read branch

/-! ### A session -/

/-- `expr_num` after some lines. -/
def exprNumAfter (lines : List Bytes) : Nat := lines.foldl nextExprNum 0

theorem lineTexts_concat (n : Nat) (lines : List Bytes) (line : Bytes) :
    lineTexts n (lines ++ [line]) =
      lineTexts n lines ++ [lineText (lines.foldl nextExprNum n) line] := by
  induction lines generalizing n with
  | nil => rfl
  | cons l lines ih => rw [List.cons_append, lineTexts, ih]; rfl

/-- The texts that some lines left. -/
def acceptedText (history : List (Report F)) : Bytes :=
  (history.filter Report.accepted).flatMap Report.text

/-- Each line was judged by the compiler, behind what was accepted in front of it. -/
def Judged (cc : Compiler F) (history : List (Report F)) : Prop :=
  ∀ before r behind, history = before ++ r :: behind →
    r.origin = acceptedText before ∧ r.accepted = (cc (acceptedText before ++ r.text)).isSome

/-- The accepted text is in both places, and it is that of the lines that compiled. -/
structure Session (cc : Compiler F) (stdin : Bytes) (s : State F) : Prop where
  file : s.tmpc = some (cstr s.originFile)
  accepted : cstr s.originFile = acceptedText s.history
  judged : Judged cc s.history
  texts : s.history.map Report.text = lineTexts 0 (s.history.map Report.line)
  exprNum : s.exprNum = exprNumAfter (s.history.map Report.line)
  input : s.history.flatMap Report.buffer ++ s.stdin = stdin

theorem session_start (cc : Compiler F) (stdin : Bytes) (tmpc : Option Bytes)
    (tmpo : Option (Library F)) : Session cc stdin (start stdin tmpc tmpo) := by
  refine ⟨rfl, rfl, fun before r behind h => ?_, rfl, rfl, rfl⟩
  exact absurd h.symm (by simp [start, saveOrigin, cleanTmpfiles])

theorem Judged.concat {cc : Compiler F} {history : List (Report F)} {r : Report F}
    (h : Judged cc history) (horigin : r.origin = acceptedText history)
    (haccepted : r.accepted = (cc (r.origin ++ r.text)).isSome) : Judged cc (history ++ [r]) := by
  intro before r' behind heq
  rcases List.eq_nil_or_concat behind with rfl | ⟨behind, last, rfl⟩
  · obtain ⟨rfl, hlast⟩ := List.append_inj' heq rfl
    obtain rfl := List.singleton_inj.mp hlast
    exact ⟨horigin, horigin ▸ haccepted⟩
  · rw [List.concat_eq_append, ← List.cons_append, ← List.append_assoc] at heq
    exact h before r' behind (List.append_inj' heq rfl).1

/-- Which text the session holds after the compilation. -/
theorem IterationSpec.accepted {cc : Compiler F} {env : Env F} {s s' : State F} {r : Report F}
    (spec : IterationSpec cc env s s' r) :
    cstr s'.originFile = cstr s.originFile ++ if r.accepted then r.text else [] := by
  have built := spec.built
  rw [spec.origin] at built
  generalize s'.originFile = origin', s'.tmpo = tmpo' at built ⊢
  cases built with
  | rejected hcc hlib => simp [Report.accepted, hlib]
  | accepted so hcc hlib =>
      have nulFree : (0 : UInt8) ∉ cstr s.originFile ++ r.text := by
        rw [List.mem_append, not_or, spec.text]
        exact ⟨nul_notMem_cstr _, lineText_nulFree _ (lineOfBuffer_nulFree _)⟩
      rw [cstr_eq_self nulFree, Report.accepted, hlib]
      rfl

/-- The line is accepted when the compiler takes it. -/
theorem IterationSpec.accepted_eq {cc : Compiler F} {env : Env F} {s s' : State F} {r : Report F}
    (spec : IterationSpec cc env s s' r) : r.accepted = (cc (r.origin ++ r.text)).isSome := by
  have built := spec.built
  generalize s'.originFile = origin', s'.tmpo = tmpo' at built
  cases built with
  | rejected hcc hlib => simp [Report.accepted, hlib, hcc]
  | accepted so hcc hlib => simp [Report.accepted, hlib, hcc]

theorem Session.iteration {stdin : Bytes} {cc : Compiler F} {env : Env F} {s s' : State F}
    (h : Session cc stdin s) (hstep : iteration cc s env = some s') : Session cc stdin s' := by
  obtain ⟨r, spec⟩ := iteration_spec hstep
  refine ⟨spec.file, ?_, ?_, ?_, ?_, ?_⟩
  · rw [spec.accepted, spec.history, h.accepted, acceptedText, acceptedText, List.filter_append,
      List.flatMap_append]
    cases accepted : r.accepted <;> simp [accepted]
  · rw [spec.history]
    exact h.judged.concat (spec.origin.trans h.accepted) spec.accepted_eq
  · rw [spec.history, List.map_append, List.map_append, h.texts, List.map_singleton,
      List.map_singleton, lineTexts_concat, spec.text, h.exprNum]
    rfl
  · rw [spec.history, spec.next, h.exprNum, exprNumAfter, exprNumAfter, List.map_append,
      List.foldl_append]
    rfl
  · rw [spec.history, List.flatMap_append, List.flatMap_singleton, List.append_assoc,
      fgets_append spec.read, h.input]

/-- After every iteration of every session, `/tmp/lib.c` is `origin_file`, and
both are the texts of the lines that compiled, in the order of the input: each of them
behind those in front of it. -/
theorem session_accepted (cc : Compiler F) (stdin : Bytes) (tmpc : Option Bytes)
    (tmpo : Option (Library F)) (envs : List (Env F)) {s : State F}
    (h : exec (iteration cc) (start stdin tmpc tmpo) envs = some s) :
    s.tmpc = some (cstr s.originFile) ∧ cstr s.originFile = acceptedText s.history ∧
      Judged cc s.history ∧ s.history.map Report.text = lineTexts 0 (s.history.map Report.line) ∧
      s.history.flatMap Report.buffer ++ s.stdin = stdin := by
  have inv : Session cc stdin s := exec_invariant (P := fun _ _ => True)
    (fun hs _ hstep => hs.iteration hstep) (session_start cc stdin tmpc tmpo)
    (everyStep_of_forall fun _ _ _ => trivial) h
  exact ⟨inv.file, inv.accepted, inv.judged, inv.texts, inv.input⟩

/-- A compiler that takes files of one line. -/
def oneLine : Compiler Unit := fun file =>
  if file.count newline = 1 then some fun _ => none else none

theorem session_accepted_two_lines :
    ∃ envs : List (Env Unit), ∃ s,
      exec (iteration oneLine) (start (ascii "int f;\n1 +\n") none none) envs = some s ∧
      s.history.map Report.accepted = [true, false] ∧
      s.tmpc = some (cstr s.originFile) ∧ cstr s.originFile = acceptedText s.history ∧
      Judged oneLine s.history ∧
      s.history.map Report.text = lineTexts 0 (s.history.map Report.line) ∧
      s.history.flatMap Report.buffer ++ s.stdin = ascii "int f;\n1 +\n" := by
  let envs : List (Env Unit) := [⟨true, fun _ => .sigfpe⟩, ⟨true, fun _ => .sigfpe⟩]
  obtain ⟨s, run, outcomes⟩ :
      ∃ s, exec (iteration oneLine) (start (ascii "int f;\n1 +\n") none none) envs = some s ∧
        s.history.map Report.accepted = [true, false] := ⟨_, rfl, rfl⟩
  exact ⟨envs, s, run, outcomes, session_accepted oneLine _ none none envs run⟩

end NjuOs.Crepl
