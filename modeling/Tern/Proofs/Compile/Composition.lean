import Tern.Proofs.Compile.Matching
import Tern.Proofs.Compile.Syntax
import Tern.Proofs.Tree.Sequence

/-!
# Statements compile independently of what precedes them

A statement leaves the scopes, the frames and the registers as it found them.  What follows it
is therefore compiled as if it stood at the start of the body, and it fails as it would there.
-/

namespace Tern

namespace Compilation

def unwritten (c : Compilation) : Compilation :=
  { c with assembly := { c.assembly with lines := #[] } }

theorem unwritten_behind {c d : Compilation} (hscopes : d.scopes = c.scopes)
    (hbusy : d.assembly.busy = c.assembly.busy) (hframes : d.assembly.frames = c.assembly.frames) :
    c.unwritten.Behind d.assembly.lines d := by
  refine ⟨hscopes, ?_⟩
  simp [unwritten, Assembly.behind, ← hbusy, ← hframes]

end Compilation

namespace Compile

theorem statements_append (trees trees' : List Expr) :
    statements (trees ++ trees') = (do statements trees; statements trees') := by
  induction trees with
  | nil => rfl
  | cons tree trees ih =>
      simp only [List.cons_append, statements, ih, bind_assoc]
      refine bind_congr fun before => bind_congr fun i => bind_congr fun _ =>
        bind_congr fun after => ?_
      split
      · rw [bind_assoc]
      · rfl

theorem enter_matches {p q : Program} (h : p.SameHead q) : Matches (enter p) (enter q) :=
  .of_concurs (enter_concurs unplaced_pos (DeclList.option_alike_of_unplaced h.globals)
    (Read.alike_of_unplaced h.opening id) (DeclList.option_alike_of_unplaced h.locals))

theorem leave_matches {p q : Program} (hclose : p.body.close.unplaced = q.body.close.unplaced)
    (hfinish : p.finish.unplaced = q.finish.unplaced) : Matches (leave p) (leave q) :=
  .of_concurs (leave_concurs (Read.alike_of_unplaced hclose id)
    (Read.alike_of_unplaced hfinish id))

/-- The lines of a program with the given data, bytes of locals and body. -/
def programLines (data : List Line) (total : Nat) (body : List Instr) : Array Line :=
  (data ++ .label entryLabel ::
    (frameCode total ++ body ++ leaveCode total).map Line.instr).toArray

def remainder (p : Program) : Compile Unit := do
  statements p.body.statements
  leave p

theorem remainder_ok {p : Program} {u : Unit} {c d : Compilation} {total : Nat}
    {outer : List Nat} (h : remainder p c = .ok u d)
    (hframes : c.assembly.frames = total :: outer) :
    ∃ body, d.assembly.lines =
      c.assembly.lines ++ ((body ++ leaveCode total).map Line.instr).toArray := by
  obtain ⟨_, c', hbody, hleave⟩ := bind_eq_ok.1 h
  have htransfer := (statements_take hbody).transfer
  obtain ⟨body, hlines⟩ := htransfer.lines
  refine ⟨body, ?_⟩
  rw [leave_ok hleave (htransfer.frames.trans hframes), hlines]
  simp

theorem remainder_match {p q : Program}
    (hbody : p.body.unplaced = q.body.unplaced) (hfinish : p.finish.unplaced = q.finish.unplaced)
    {front : Array Line} {c c' : Compilation} (hc : c.Behind front c')
    (hfree : c.assembly.busy = []) : Agree front (remainder p c) (remainder q c') := by
  simp only [Block.unplaced, Block.mk.injEq] at hbody
  exact (statements_match hbody.1 hc hfree).bind fun _ d d' _ hd =>
    leave_matches hbody.2 hfinish _ d d' hd

theorem program_apply_enter {p : Program} {u : Unit} {c d : Compilation}
    (h : enter p c = .ok u d) : program p c = remainder p d := by
  rw [program_eq, bind_of_ok h]
  rfl

/-- Once its first statements are compiled, a body is what is left of it. -/
theorem remainder_after {p : Program} {es : List Expr} {b : Block} {u : Unit} {c d : Compilation}
    (hbody : p.body = b.after es) (h : statements es c = .ok u d) :
    remainder p c = remainder { p with body := b } d := by
  have hstatements : p.body.statements = es ++ b.statements := by rw [hbody]; rfl
  have hclose : p.body.close = b.close := by rw [hbody]; rfl
  unfold remainder leave
  rw [hstatements, hclose, statements_append, bind_assoc, bind_of_ok h]

/-- Programs with the same declarations, of which one accepted body is put in front of another:
the other body is compiled as in its own program. -/
theorem joins_compile {p₁ p₂ p : Program} (h : p₁.Joins p₂ p) {u : Unit} {d₁ : Compilation}
    (h₁ : program p₁ { scopes := .builtin } = .ok u d₁) :
    ∃ data total body₁, (∀ l ∈ data, l ≠ .label entryLabel) ∧
      d₁.assembly.lines = programLines data total body₁ ∧
      ((∃ body₂ d₂ d, program p₂ { scopes := .builtin } = .ok () d₂ ∧
          program p { scopes := .builtin } = .ok () d ∧
          d₂.assembly.lines = programLines data total body₂ ∧
          d.assembly.lines = programLines data total (body₁ ++ body₂)) ∨
        ∃ f₂ d₂ f d, program p₂ { scopes := .builtin } = .error f₂ d₂ ∧
          program p { scopes := .builtin } = .error f d ∧ f₂.unplaced = f.unplaced) := by
  obtain ⟨es, b, hbody, hes, hb⟩ := h.body
  simp only [program_eq, bind_eq_ok] at h₁
  obtain ⟨_, c₁, henter₁, _, e₁, hbody₁, hleave₁⟩ := h₁
  obtain ⟨gvs, lvs, data, hentered⟩ := enter_ok henter₁
  have hhead : p₁.SameHead p₂ :=
    ⟨h.head₁.globals.trans h.head₂.globals.symm, h.head₁.opening.trans h.head₂.opening.symm,
      h.head₁.locals.trans h.head₂.locals.symm⟩
  obtain ⟨c₂, henter₂, hc₂⟩ := (enter_matches hhead #[] _ _ (.refl _)).exists_ok henter₁
  obtain ⟨c, henter, hc⟩ := (enter_matches h.head₁ #[] _ _ (.refl _)).exists_ok henter₁
  obtain ⟨e, hfirst, he⟩ := (statements_match hes.symm hc hentered.free).exists_ok hbody₁
  have htakes := statements_take hbody₁
  obtain ⟨body₁, hlines₁⟩ := htakes.transfer.lines
  -- The second body starts with the same scopes, registers and frames in both programs.
  have hx₂ : c₁.unwritten.Behind c₂.assembly.lines c₂ :=
    Compilation.unwritten_behind hc₂.scopes (by rw [hc₂.assembly_eq]) (by rw [hc₂.assembly_eq])
  have hx : c₁.unwritten.Behind e.assembly.lines e := by
    refine Compilation.unwritten_behind (he.scopes.trans htakes.scopes) ?_ ?_
    · rw [he.assembly_eq, htakes.free hentered.free, hentered.free]
    · rw [he.assembly_eq, htakes.transfer.frames]
  have hagree₂ := remainder_match (p := p₂) rfl rfl hx₂ hentered.free
  have hagree := remainder_match (p := p₂) (q := { p with body := b }) hb.symm h.finish.symm hx
    hentered.free
  rw [program_apply_enter henter₂, program_apply_enter henter, remainder_after hbody hfirst]
  refine ⟨data, totalSize lvs, body₁, hentered.noEntry, ?_, ?_⟩
  · rw [leave_ok hleave₁ (htakes.transfer.frames.trans hentered.frames), hlines₁, hentered.entered]
    simp [programLines]
  · cases hr : remainder p₂ c₁.unwritten with
    | ok u y =>
        obtain ⟨d₂, hd₂, hy₂⟩ := hagree₂.exists_ok hr
        obtain ⟨d, hd, hy⟩ := hagree.exists_ok hr
        obtain ⟨body₂, hlines⟩ := remainder_ok hr hentered.frames
        refine .inl ⟨body₂, d₂, d, hd₂, hd, ?_, ?_⟩
        · rw [hy₂.assembly, hc₂.assembly_eq]
          simp [Assembly.behind, Compilation.unwritten, programLines, hlines, hentered.entered]
        · rw [hy.assembly, he.assembly_eq]
          simp [Assembly.behind, Compilation.unwritten, programLines, hlines, hlines₁,
            hentered.entered]
    | error f₂ y =>
        obtain ⟨f, d₂, hd₂, hf₂⟩ := hagree₂.exists_error hr
        obtain ⟨f', d, hd, hf⟩ := hagree.exists_error hr
        exact .inr ⟨f, d₂, f', d, hd₂, hd, hf₂.symm.trans hf⟩

end Compile

/-! ## Texts -/

theorem Diagnostic.ofFailure_congr (file : String) {f f' : Failure}
    (h : f.unplaced = f'.unplaced) :
    (ofFailure file f').code = (ofFailure file f).code ∧
      (ofFailure file f').message = (ofFailure file f).message := by
  cases f with
  | problem e =>
      cases f' with
      | problem e' =>
          simp only [Failure.unplaced, CompileError.unplaced, Failure.problem.injEq,
            CompileError.mk.injEq, and_true] at h
          simp [ofFailure, h]
      | fault g => cases h
  | fault g =>
      cases f' with
      | problem e' => cases h
      | fault g' =>
          simp only [Failure.unplaced, Failure.fault.injEq] at h
          rw [h]
          exact ⟨rfl, rfl⟩

/-- Statements compile independently of what precedes them: behind the statements `s₁` of an
accepted program, a body `s₂` is accepted, with its own code, or rejected as it is alone. -/
theorem statements_compile_independently (file : String) (layout : Layout)
    (output : Option String) (globals locals s₁ s₂ : List Lexeme)
    (text₁ text₂ text : List Char) (lines₁ : Array Line)
    (hglobals : Grammar.Derives .declPart (globals.map Lexeme.kind) [])
    (hlocals : Grammar.Derives .declPart (locals.map Lexeme.kind) [])
    (hs₁ : StartsStatement s₁) (hs₂ : StartsStatement s₂)
    (htext₁ : lexemes? text₁ = some (programLexemes globals locals s₁))
    (htext₂ : lexemes? text₂ = some (programLexemes globals locals s₂))
    (htext : lexemes? text = some (programLexemes globals locals (s₁ ++ s₂)))
    (haccepted : compileLines text₁ = .ok lines₁) :
    ∃ data total body₁, (∀ l ∈ data, l ≠ .label entryLabel) ∧
      lines₁ = Compile.programLines data total body₁ ∧
      (∀ lines₂, compileLines text₂ = .ok lines₂ →
        ∃ body₂, lines₂ = Compile.programLines data total body₂ ∧
          compileLines text = .ok (Compile.programLines data total (body₁ ++ body₂))) ∧
      ∀ d₂, compileText file text₂ layout output = .error d₂ →
        ∃ d, compileText file text layout output = .error d ∧ d.code = d₂.code ∧
          d.message = d₂.message := by
  obtain ⟨c₁, hc₁, htree₁⟩ := Program.ofText?_of_lexemes? htext₁
  obtain ⟨c₂, hc₂, htree₂⟩ := Program.ofText?_of_lexemes? htext₂
  obtain ⟨c, hc, htree⟩ := Program.ofText?_of_lexemes? htext
  have hcomplete := ((compileLines_judges htree₁).1 lines₁ haccepted).1
  have hjoins := Reader.program_joins hglobals hlocals hs₁ hs₂ hc₁ hc₂ hc hcomplete
  obtain ⟨d₁, hprogram₁, rfl⟩ := compileLines_ok haccepted htree₁
  obtain ⟨data, total, body₁, hdata, hlines₁, hboth⟩ := Compile.joins_compile hjoins hprogram₁
  refine ⟨data, total, body₁, hdata, hlines₁, ?_⟩
  simp only [compileText, compileLines_eq, htree₂, htree]
  obtain ⟨body₂, d₂, d, hprogram₂, hprogram, hlines₂, hlines⟩ |
    ⟨f₂, d₂, f, d, hprogram₂, hprogram, hf⟩ := hboth
  · simp only [hprogram₂, hprogram]
    refine ⟨?_, by rintro _ ⟨⟩⟩
    rintro _ ⟨⟩
    exact ⟨body₂, hlines₂, congrArg Except.ok hlines⟩
  · simp only [hprogram₂, hprogram]
    refine ⟨by rintro _ ⟨⟩, ?_⟩
    rintro _ ⟨⟩
    exact ⟨_, rfl, Diagnostic.ofFailure_congr file hf⟩

/-- A program with one global, one local and the given body. -/
def pairText (body : String) : List Char :=
  ("var g: Int begin var x: Int " ++ body ++ " end").toList

def pairDecl (name : String) : List Lexeme :=
  [.keyword .varWord, .identifier name, .symbol .colon, .identifier "Int"]

theorem pairDecl_derives (name : String) :
    Grammar.Derives .declPart ((pairDecl name).map Lexeme.kind) [] :=
  .declPart (.lastDecl (.decl (.type (.noSuffix (by decide) (by decide)))))

def pairAssign (target : String) (value : Lexeme) : List Lexeme :=
  [.identifier target, .symbol .assign, value]

theorem statements_compile_independently_pair :
    (∃ data total body₁ body₂,
      compileLines (pairText "x := 1") = .ok (Compile.programLines data total body₁) ∧
      compileLines (pairText "g := x") = .ok (Compile.programLines data total body₂) ∧
      compileLines (pairText "x := 1 g := x") =
        .ok (Compile.programLines data total (body₁ ++ body₂))) ∧
    ∃ d, compileText "" (pairText "x := 1 y := x") = .error d ∧ d.code = .name ∧
      d.message = "Undeclared identifier \"y\"." := by
  have hstarts : ∀ target value, StartsStatement (pairAssign target value) := by
    simp [StartsStatement, pairAssign, Lexeme.kind]
  let first := pairAssign "x" (.integer "1" none)
  let rest (target : String) := pairAssign target (.identifier "x")
  have hlexemes : ∀ s ∈ [("x := 1", first), ("g := x", rest "g"), ("y := x", rest "y"),
      ("x := 1 g := x", first ++ rest "g"), ("x := 1 y := x", first ++ rest "y")],
      lexemes? (pairText s.1) = some (programLexemes (pairDecl "g") (pairDecl "x") s.2) := by
    decide +kernel
  simp only [List.forall_mem_cons, List.not_mem_nil, false_implies, implies_true, and_true]
    at hlexemes
  obtain ⟨hlex, hlex₂, hlex₃, hlex₁₂, hlex₁₃⟩ := hlexemes
  have hfirst : (compileLines (pairText "x := 1")).toOption.isSome = true := by decide +kernel
  have hsecond : (compileLines (pairText "g := x")).toOption.isSome = true := by decide +kernel
  have hundeclared : problem? (pairText "y := x") = some (.undeclared .var "y") := by
    decide +kernel
  cases hlines₁ : compileLines (pairText "x := 1") with
  | error f => simp [hlines₁, Except.toOption] at hfirst
  | ok lines₁ =>
      constructor
      · cases hlines₂ : compileLines (pairText "g := x") with
        | error f => simp [hlines₂, Except.toOption] at hsecond
        | ok lines₂ =>
            obtain ⟨data, total, body₁, -, rfl, haccepted, -⟩ :=
              statements_compile_independently "" {} none (pairDecl "g") (pairDecl "x") first
                (rest "g") (pairText "x := 1") (pairText "g := x") (pairText "x := 1 g := x") lines₁
                (pairDecl_derives "g") (pairDecl_derives "x") (hstarts _ _) (hstarts _ _) hlex hlex₂
                hlex₁₂ hlines₁
            obtain ⟨body₂, rfl, hboth⟩ := haccepted lines₂ hlines₂
            exact ⟨data, total, body₁, body₂, rfl, rfl, hboth⟩
      · obtain ⟨e, hlines₃, he⟩ := exists_of_problem? hundeclared
        obtain ⟨data, total, body₁, -, rfl, -, hrejected⟩ :=
          statements_compile_independently "" {} none (pairDecl "g") (pairDecl "x") first
            (rest "y") (pairText "x := 1") (pairText "y := x") (pairText "x := 1 y := x") lines₁
            (pairDecl_derives "g") (pairDecl_derives "x") (hstarts _ _) (hstarts _ _) hlex hlex₃
            hlex₁₃ hlines₁
        obtain ⟨d, hd, hcode, hmessage⟩ := hrejected (.ofFailure "" (.problem e)) (by
          rw [compileText, hlines₃])
        refine ⟨d, hd, hcode.trans ?_, hmessage.trans ?_⟩
        · simp [Diagnostic.ofFailure, he, Problem.code]
        · simp only [Diagnostic.ofFailure, he]
          decide

end Tern
