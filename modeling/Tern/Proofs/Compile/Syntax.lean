import Tern.Artifact
import Tern.Proofs.Compile.Run
import Tern.Proofs.Tree.Completeness

/-!
# Programs that compile are those of the grammar

Compiling meets every place of a tree where something is missing, and it reports nothing else as
an error of the grammar.  So a text that compiles is a program, and one that is rejected because
something else was expected is none.
-/

namespace Tern

/-- The problem is that the text says something else than was expected. -/
def Problem.isSyntactic : Problem → Bool
  | .expected .. | .expectedExpression _ | .expectedStatement _ | .other .. => true
  | _ => false

def Failure.isSyntactic : Failure → Bool
  | .problem e => e.problem.isSyntactic
  | .fault _ => false

namespace Compile

/-- The operation succeeds only if `P` holds.  If it does, failures have other reasons than the
syntax. -/
structure Judges {α : Type} (P : Prop) (x : Compile α) : Prop where
  ok : ∀ {c v d}, x c = .ok v d → P
  error : ∀ {c f d}, x c = .error f d → P → f.isSyntactic = false

/-- The operation does not fail because of the syntax. -/
abbrev Plain {α : Type} (x : Compile α) : Prop := Judges True x

variable {α β : Type} {P Q : Prop} {x : Compile α} {f : α → Compile β} {pos : Position}

namespace Judges

theorem bind (hx : Judges P x) (hf : ∀ v, Judges Q (f v)) : Judges (P ∧ Q) (x >>= f) where
  ok h := by
    obtain ⟨v, c, hv, h⟩ := bind_eq_ok.1 h
    exact ⟨hx.ok hv, (hf v).ok h⟩
  error h hboth := by
    rcases bind_eq_error.1 h with h | ⟨v, c, hv, h⟩
    · exact hx.error h hboth.1
    · exact (hf v).error h hboth.2

theorem congr (hx : Judges P x) (h : P ↔ Q) : Judges Q x := propext h ▸ hx

theorem after (hx : Plain x) (hf : ∀ v, Judges Q (f v)) : Judges Q (x >>= f) :=
  (hx.bind hf).congr (iff_of_eq (true_and Q))

theorem before (hx : Judges P x) (hf : ∀ v, Plain (f v)) : Judges P (x >>= f) :=
  (hx.bind hf).congr (iff_of_eq (and_true P))

theorem pure (v : α) : Plain (Pure.pure v : Compile α) where
  ok _ := trivial
  error h := (pure_eq_error.1 h).elim

theorem throw {g : Failure} (h : P → g.isSyntactic = false) :
    Judges P (MonadExcept.throw g : Compile α) where
  ok h := (throw_eq_ok.1 h).elim
  error h' hP := by
    obtain ⟨rfl, -⟩ := throw_eq_error.1 h'
    exact h hP

theorem modify (g : Compilation → Compilation) : Plain (modify g : Compile Unit) where
  ok _ := trivial
  error h := (modify_eq_error.1 h).elim

theorem get : Plain (get : Compile Compilation) where
  ok _ := trivial
  error h := (get_eq_error.1 h).elim

end Judges

theorem emit_plain (x : Emit α) : Plain (emit x) where
  ok _ := trivial
  error h _ := by
    obtain ⟨e, b, -, rfl, -⟩ := emit_eq_error.1 h
    rfl

theorem fail_plain {p : Problem} (hp : p.isSyntactic = false) :
    Plain (fail p pos : Compile α) := .throw fun _ => hp

theorem require_plain (cond : Bool) {p : Problem} (hp : p.isSyntactic = false) :
    Plain (require cond p pos) := by
  unfold require
  split
  · exact .pure ()
  · exact fail_plain hp

theorem take_plain (n : Nat) : Plain (take n) := .modify _

theorem stop_judges {why : CompileError} (hP : ¬ P) : Judges P (stop why : Compile α) :=
  (Judges.modify _).after fun _ => .throw fun h => absurd h hP

theorem pass_judges (n : Nat) (r : Read Unit) : Judges (r = .ok ()) (pass n r) := by
  cases r with
  | ok u => exact (take_plain n).congr (by simp)
  | error why => exact stop_judges nofun

theorem lookup_plain (name : String) : Plain (lookup name) := Judges.get.after fun _ => .pure _

theorem variableOf_plain (id : Ident) : Plain (variableOf id) := by
  refine (lookup_plain _).after fun x => ?_
  split
  · exact .pure _
  · exact fail_plain rfl
  · exact fail_plain rfl

theorem typeOf_plain (id : Ident) : Plain (typeOf id) := by
  refine (lookup_plain _).after fun x => ?_
  split
  · exact .pure _
  · exact fail_plain rfl
  · exact fail_plain rfl

theorem procedureOf_plain (id : Ident) : Plain (procedureOf id) := by
  refine (lookup_plain _).after fun x => ?_
  split
  · exact .pure _
  · exact fail_plain rfl
  · exact fail_plain rfl

theorem variableNamed_plain (id : Ident) : Plain (variableNamed id) :=
  (variableOf_plain id).after fun _ => (require_plain _ rfl).after fun _ => emit_plain _

theorem predefinedType_plain (b : Builtin) : Plain (predefinedType b) := by
  refine Judges.get.after fun c => ?_
  split
  · exact .pure _
  · exact .throw fun _ => rfl

/-! ## Operations on values -/

theorem asValue_plain (i : Item) : Plain (asValue pos i) := by
  cases i with
  | value v => exact .pure v
  | void => exact fail_plain rfl

theorem integer_plain (digits : String) (isLong : Bool) : Plain (integer pos digits isLong) :=
  (predefinedType_plain _).after fun _ => (require_plain _ rfl).after fun _ => .pure _

theorem reference_plain (i : Item) : Plain (reference pos i) :=
  (require_plain _ rfl).after fun _ => emit_plain _

theorem negate_plain (i : Item) : Plain (negate pos i) := by
  refine (asValue_plain i).after fun v => (require_plain _ rfl).after fun _ => ?_
  cases v with
  | const => exact .pure _
  | reg | mem => exact emit_plain _

theorem cast_plain (v : Value) (t : Ty) : Plain (cast pos v t) := by
  refine (require_plain _ rfl).after fun _ => ?_
  cases v with
  | const => exact .pure _
  | reg | mem => exact emit_plain _

theorem binary_plain (op : BinaryOp) (lhs rhs : Value) : Plain (binary op pos lhs rhs) := by
  refine (require_plain _ rfl).after fun _ => (require_plain _ rfl).after fun _ => ?_
  split
  · split
    · exact .pure _
    · next p hfold =>
      obtain rfl : p = .divisionByZero := by
        simp only [Const.fold] at hfold
        split at hfold <;> cases hfold
        rfl
      exact fail_plain rfl
  · exact emit_plain _

theorem checkArguments_plain (id : Ident) (n : Nat) (wants : List Ty) (gots : List Value) :
    Plain (checkArguments id n wants gots) := by
  induction wants generalizing gots n with
  | nil => exact .pure ()
  | cons want wants ih =>
      cases gots with
      | nil => exact .pure ()
      | cons got gots => exact (require_plain _ rfl).after fun _ => ih _ _

theorem call_plain (id : Ident) (p : Procedure) (args : List Value) : Plain (call id p args) :=
  (require_plain _ rfl).after fun _ => (checkArguments_plain _ _ _ _).after fun _ => emit_plain _

theorem assign_plain (target source : Value) : Plain (assign pos target source) :=
  (require_plain _ rfl).after fun _ => emit_plain _

theorem arrayCount_plain (v : Value) : Plain (arrayCount pos v) := by
  cases v with
  | const => exact (require_plain _ rfl).after fun _ => .pure _
  | reg | mem => exact fail_plain rfl

/-! ## Expressions -/

-- The four statements follow the recursion of the functions that compile a tree.
mutual

theorem item_judges : ∀ tree : Expr, Judges tree.Complete (item tree)
  | .missing _ => by
      simp only [item, Expr.Complete]
      exact stop_judges id
  | .integer .. => by
      simp only [item, Expr.Complete]
      exact (take_plain 1).after fun _ => (integer_plain _ _).after fun _ => .pure _
  | .char .. => by
      simp only [item, Expr.Complete]
      exact (take_plain 1).after fun _ => (predefinedType_plain _).after fun _ => .pure _
  | .name _ => by
      simp only [item, Expr.Complete]
      refine (take_plain 1).after fun _ => (lookup_plain _).after fun x => ?_
      split
      · exact call_plain _ _ _
      · exact (variableNamed_plain _).after fun _ => .pure _
  | .call _ args => by
      simp only [item, Expr.Complete]
      exact (take_plain 1).after fun _ => (procedureOf_plain _).after fun _ =>
        (take_plain 1).after fun _ => (arguments_judges args).before fun _ => call_plain _ _ _
  | .element place => by
      simp only [item, Expr.Complete]
      exact (place_judges place).before fun _ => .pure _
  | .assign target _ source => by
      simp only [item, Expr.Complete]
      exact (place_judges target).bind fun _ => (require_plain _ rfl).after fun _ =>
        (take_plain 1).after fun _ => (item_judges source).before fun _ =>
          (asValue_plain _).after fun _ => (assign_plain _ _).after fun _ => .pure _
  | .paren _ inner close => by
      simp only [item, Expr.Complete]
      exact (take_plain 1).after fun _ => (item_judges inner).bind fun _ =>
        (asValue_plain _).after fun _ => (pass_judges 1 close).before fun _ => .pure _
  | .reference _ operand => by
      simp only [item, Expr.Complete]
      exact (take_plain 1).after fun _ => (item_judges operand).before fun _ =>
        (reference_plain _).after fun _ => .pure _
  | .negate _ operand => by
      simp only [item, Expr.Complete]
      exact (take_plain 1).after fun _ => (item_judges operand).before fun _ =>
        (negate_plain _).after fun _ => .pure _
  | .cast operand _ t => by
      simp only [item, Expr.Complete]
      exact (item_judges operand).bind fun _ => (asValue_plain _).after fun _ =>
        (take_plain 1).after fun _ => (type_judges t).before fun _ =>
          (cast_plain _ _).after fun _ => .pure _
  | .binary _ _ lhs rhs => by
      simp only [item, Expr.Complete]
      exact (item_judges lhs).bind fun _ => (asValue_plain _).after fun _ =>
        (take_plain 1).after fun _ => (item_judges rhs).before fun _ =>
          (asValue_plain _).after fun _ => (binary_plain _ _ _).after fun _ => .pure _

theorem place_judges : ∀ tree : Place, Judges tree.Complete (place tree)
  | .var _ => by
      simp only [place, Place.Complete]
      exact (take_plain 1).after fun _ => variableNamed_plain _
  | .element array _ index close => by
      simp only [place, Place.Complete]
      exact (place_judges array).bind fun _ => (require_plain _ rfl).after fun _ =>
        (take_plain 1).after fun _ => (item_judges index).bind fun _ =>
          (asValue_plain _).after fun _ => (require_plain _ rfl).after fun _ =>
            (pass_judges 1 close).before fun _ => emit_plain _

theorem arguments_judges : ∀ tree : Args, Judges tree.Complete (arguments tree)
  | .close close => by
      simp only [arguments, Args.Complete]
      exact (pass_judges 1 close).before fun _ => .pure _
  | .cons arg rest => by
      rw [arguments.eq_2]
      simp only [Args.Complete]
      refine (item_judges arg).bind fun _ => (asValue_plain _).after fun _ => ?_
      cases rest with
      | close r => exact (arguments_judges (.close r)).before fun _ => .pure _
      | cons arg' rest' =>
          exact (take_plain 1).after fun _ =>
            (arguments_judges (.cons arg' rest')).before fun _ => .pure _

theorem type_judges : ∀ tree : TypeExpr, Judges tree.Complete (type tree)
  | .missing _ => by
      simp only [type, TypeExpr.Complete]
      exact stop_judges id
  | .named _ => by
      simp only [type, TypeExpr.Complete]
      exact (typeOf_plain _).after fun _ => (take_plain 1).after fun _ => .pure _
  | .pointer base => by
      simp only [type, TypeExpr.Complete]
      exact (type_judges base).before fun _ => (take_plain 1).after fun _ => .pure _
  | .array base _ count close => by
      simp only [type, TypeExpr.Complete]
      exact (type_judges base).bind fun _ => (take_plain 1).after fun _ =>
        (item_judges count).bind fun _ => (asValue_plain _).after fun _ =>
          (arrayCount_plain _).after fun _ => (pass_judges 1 close).before fun _ =>
            (require_plain _ rfl).after fun _ => .pure _
  | .stopped base _ => by
      simp only [type, TypeExpr.Complete]
      exact ((type_judges base).bind fun _ => stop_judges id).congr (iff_of_eq (and_false _))

end

/-! ## Declarations -/

theorem declared_plain (name : String) : Plain (declared name) := by
  refine Judges.get.after fun c => ?_
  split
  · exact .pure _
  · exact .throw fun _ => rfl

theorem placeVariable_plain (v : Variable) (storage : Storage) :
    Plain (placeVariable v storage) := by
  unfold placeVariable
  split
  · exact .throw fun _ => rfl
  · exact .modify _

theorem layOutGlobals_plain (names : List String) : Plain (layOutGlobals names) := by
  have hexport : Plain (exportLabels names) := by
    induction names with
    | nil => exact .pure ()
    | cons name names ih =>
        refine (declared_plain name).after fun v => ?_
        split
        · exact (emit_plain _).after fun _ => ih
        · exact ih
  have hdefine : Plain (defineGlobals names) := by
    clear hexport
    induction names with
    | nil => exact .pure ()
    | cons name names ih =>
        exact (declared_plain name).after fun v => (emit_plain _).after fun _ =>
          (placeVariable_plain _ _).after fun _ => (emit_plain _).after fun _ => ih
  exact hexport.after fun _ => hdefine

theorem layOutLocals_plain (names : List String) : Plain (layOutLocals names) := by
  have hplace (total : Nat) : Plain (placeLocals total names) := by
    induction names generalizing total with
    | nil => exact .pure _
    | cons name names ih =>
        exact (declared_plain name).after fun v => (placeVariable_plain _ _).after fun _ => ih _
  exact (emit_plain _).after fun _ => (hplace _).after fun _ => emit_plain _

theorem declName_judges (d : Decl) : Judges (∃ id, d.id = .ok id) (declName d) := by
  obtain ⟨exported, id, colon, t⟩ := d
  unfold declName
  cases id with
  | error why =>
      cases exported with
      | none => exact stop_judges nofun
      | some pos =>
          exact Judges.get.after fun _ => (require_plain _ rfl).after fun _ => stop_judges nofun
  | ok id =>
      refine Judges.congr (P := True) ?_ (by simp)
      cases exported with
      | none => exact .pure _
      | some pos =>
          exact Judges.get.after fun _ => (require_plain _ rfl).after fun _ => (take_plain 1).after
            fun _ => (require_plain _ rfl).after fun _ => .pure _

theorem declare_judges (bytes : Nat) (d : Decl) : Judges d.Complete (declare bytes d) := by
  refine (declName_judges d).bind fun id => (pass_judges 2 d.colon).bind fun _ =>
    (type_judges d.type).before fun t => Judges.get.after fun c => ?_
  split
  · exact fail_plain rfl
  · exact (Judges.modify _).after fun _ => (require_plain _ rfl).after fun _ => .pure _

theorem declareAll_judges (bytes : Nat) (ds : List Decl) :
    Judges (∀ d ∈ ds, d.Complete) (declareAll bytes ds) := by
  induction ds generalizing bytes with
  | nil => exact (Judges.pure _).congr (by simp)
  | cons d ds ih =>
      refine Judges.congr ((declare_judges bytes d).bind fun r => ?_) List.forall_mem_cons.symm
      obtain ⟨name, total⟩ := r
      simp only
      split
      · exact (take_plain 1).after fun _ => (ih _).before fun _ => .pure _
      · exact (ih _).before fun _ => .pure _

theorem declList_judges (l : DeclList) : Judges l.Complete (declList l) := by
  refine (pass_judges 1 l.opening).bind fun _ => Judges.get.after fun c => ?_
  split
  · exact (declareAll_judges 0 l.decls).before fun _ => layOutGlobals_plain _
  · exact (emit_plain _).after fun _ => (declareAll_judges _ l.decls).before fun _ =>
      layOutLocals_plain _

theorem declLists_judge (l : Option DeclList) :
    Judges (∀ l' ∈ l, l'.Complete) (l.forM declList) := by
  cases l with
  | none => exact (Judges.pure ()).congr (by simp)
  | some l => exact (declList_judges l).congr (by simp)

/-! ## Programs -/

theorem statement_judges (tree : Expr) : Judges tree.Complete (statement tree) := by
  cases tree with
  | name id =>
      simp only [statement]
      refine Judges.congr (P := True) ?_ (iff_of_true trivial trivial)
      refine (take_plain 1).after fun _ => (lookup_plain _).after fun x => ?_
      split
      · exact call_plain _ _ _
      · exact fail_plain rfl
  | element p => exact (place_judges p).before fun _ => fail_plain rfl
  | missing | integer | char | call | assign | paren | reference | negate | cast | binary =>
      exact item_judges _

theorem statements_judge (trees : List Expr) :
    Judges (∀ tree ∈ trees, tree.Complete) (statements trees) := by
  induction trees with
  | nil => exact (Judges.pure ()).congr (by simp)
  | cons tree trees ih =>
      refine Judges.congr ?_ List.forall_mem_cons.symm
      refine (emit_plain _).after fun before => (statement_judges tree).bind fun i =>
        (emit_plain _).after fun _ => (emit_plain _).after fun after => ?_
      split
      · exact Judges.after (.throw fun _ => rfl) fun _ => ih
      · exact ih

theorem block_judges (b : Block) : Judges b.Complete (block b) :=
  (statements_judge b.statements).bind fun _ => pass_judges 0 b.close

theorem pop_plain : Plain pop := by
  refine Judges.get.after fun c => ?_
  split
  · exact .modify _
  · exact .throw fun _ => rfl

theorem program_judges (p : Program) : Judges p.Complete (program p) :=
  (emit_plain _).after fun _ => (emit_plain _).after fun _ =>
    (declLists_judge p.globals).bind fun _ => (emit_plain _).after fun _ =>
      (pass_judges 1 p.opening).bind fun _ => (Judges.modify _).after fun _ =>
        (emit_plain _).after fun _ => (declLists_judge p.locals).bind fun _ =>
          (block_judges p.body).bind fun _ => (emit_plain _).after fun _ =>
            pop_plain.after fun _ => pass_judges 1 p.finish

theorem statements_isElement {c d : Compilation} {trees : List Expr}
    (h : statements trees c = .ok () d) : ∀ tree ∈ trees, tree.isElement = false := by
  induction trees generalizing c with
  | nil => simp
  | cons tree trees ih =>
      obtain ⟨i, c₁, hi, -, hrest⟩ := statements_cons_ok h
      refine List.forall_mem_cons.2 ⟨?_, ih hrest⟩
      cases tree with
      | element p =>
          simp only [statement, bind_eq_ok, fail_eq_ok, and_false, exists_false] at hi
      | _ => rfl

end Compile

/-! ## Texts -/

/-- The text has the form of a message that tells what was expected and what was found. -/
def IsExpectation (message : String) : Prop :=
  ∃ wanted got, message = "Expected " ++ wanted ++ ", got " ++ got ++ "."

/-- Of the errors of the grammar, only those of the syntax are worded as expectations. -/
theorem isSyntactic_of_isExpectation {p : Problem} (hcode : p.code = .grammar)
    (h : IsExpectation p.message) : p.isSyntactic = true := by
  obtain ⟨wanted, got, hmessage⟩ := h
  have hcomma : ',' ∈ p.message.toList := by
    rw [hmessage]
    simp
  cases p with
  | expectedAssignmentOrCall => exact absurd hcomma (by decide)
  | exportedLocal => exact absurd hcomma (by decide)
  | expected | expectedExpression | expectedStatement | other => rfl
  | _ => cases hcode

theorem Code.eq_grammar_of_text {code : Code} (h : code.text = "TERN101") : code = .grammar := by
  revert h
  cases code <;> decide

theorem compileLines_judges {text : List Char} {tree : Program}
    (htree : Program.ofText? text = .ok tree) :
    (∀ lines, compileLines text = .ok lines →
      tree.Complete ∧ ∀ e ∈ tree.body.statements, e.isElement = false) ∧
    ∀ f, compileLines text = .error f → tree.Complete → f.isSyntactic = false := by
  refine ⟨fun lines h => ?_, fun f h hcomplete => ?_⟩
  · obtain ⟨c, hprogram, -⟩ := compileLines_ok h htree
    refine ⟨(Compile.program_judges tree).ok hprogram, ?_⟩
    simp only [Compile.program, bind_eq_ok] at hprogram
    obtain ⟨_, _, -, _, _, -, _, _, -, _, _, -, _, _, -, _, _, -, _, _, -, _, _, -, _, _, hblock,
      -⟩ := hprogram
    obtain ⟨_, hstatements, -⟩ := Compile.block_ok hblock
    exact Compile.statements_isElement hstatements
  · rw [compileLines_eq, htree] at h
    cases hprogram : Compile.program tree { scopes := .builtin } with
    | ok u c => simp only [hprogram, reduceCtorEq] at h
    | error g c =>
        simp only [hprogram, Except.error.injEq] at h
        subst h
        exact (Compile.program_judges tree).error hprogram hcomplete

/-- A text that lexes and compiles is derivable in the grammar.  One that lexes and is rejected
because something else was expected is not. -/
theorem compiles_grammar_exactly (file : String) (text : List Char) (layout : Layout)
    (output : Option String) (ls : List Lexeme) (hls : lexemes? text = some ls) :
    (∀ artifact, compileText file text layout output = .ok artifact →
      Grammar.IsProgram (ls.map Lexeme.kind ++ [.eof])) ∧
    ∀ diagnostic, compileText file text layout output = .error diagnostic →
      diagnostic.code.text = "TERN101" → IsExpectation diagnostic.message →
      ¬ Grammar.IsProgram (ls.map Lexeme.kind ++ [.eof]) := by
  obtain ⟨c, hspells, htree⟩ := Program.ofText?_of_lexemes? hls
  have hoffers : c.Offers (ls.map Lexeme.kind ++ [.eof]) := by
    have hkinds := hspells.map Lexeme.kind
    rwa [List.map_append] at hkinds
  obtain ⟨haccepted, hrejected⟩ := compileLines_judges htree
  have hsound := Reader.program_sound hoffers
  refine ⟨fun artifact h => ?_, fun diagnostic h hcode hmessage hprogram => ?_⟩
  · cases hlines : compileLines text with
    | error f => simp [compileText, hlines] at h
    | ok lines =>
        obtain ⟨hcomplete, helement⟩ := haccepted lines hlines
        cases hread : Reader.program c with
        | stopped tree why rest =>
            rw [hread] at hsound hcomplete
            exact absurd hcomplete hsound
        | done tree rest =>
            rw [hread] at hsound helement
            obtain ⟨-, _, -, hderives⟩ := hsound
            exact hderives helement
  · cases hlines : compileLines text with
    | ok lines => simp [compileText, hlines] at h
    | error f =>
        obtain rfl : .ofFailure file f = diagnostic := by simpa [compileText, hlines] using h
        have hfinishes := Reader.program_complete hoffers hprogram
        cases hread : Reader.program c with
        | stopped tree why rest =>
            rw [hread] at hfinishes
            exact hfinishes
        | done tree rest =>
            rw [hread] at hsound hrejected
            have hplain := hrejected f hlines hsound.1
            cases f with
            | fault g => cases Code.eq_grammar_of_text hcode
            | problem e =>
                have hsyntactic :=
                  isSyntactic_of_isExpectation (Code.eq_grammar_of_text hcode) hmessage
                exact Bool.false_ne_true (hplain.symm.trans hsyntactic)

/-- An assignment inside an expression, which takes the rest of it. -/
def nestedText : List Char := "var x: Int[4] begin var i: Int x[1] := i := x[2] + 1 end".toList

/-- An assignment without a value. -/
def unfinishedText : List Char := "begin var i: Int i := end".toList

def problem? (text : List Char) : Option Problem :=
  match compileLines text with
  | .error (.problem e) => some e.problem
  | _ => none

theorem exists_of_problem? {text : List Char} {p : Problem} (h : problem? text = some p) :
    ∃ e, compileLines text = .error (.problem e) ∧ e.problem = p := by
  unfold problem? at h
  split at h
  · next e hlines => exact ⟨e, hlines, Option.some.inj h⟩
  · cases h

theorem compiles_grammar_exactly_nested :
    ∃ ls ls', lexemes? nestedText = some ls ∧ lexemes? unfinishedText = some ls' ∧
      Grammar.IsProgram (ls.map Lexeme.kind ++ [.eof]) ∧
      ¬ Grammar.IsProgram (ls'.map Lexeme.kind ++ [.eof]) := by
  have hlex : (lexemes? nestedText).isSome = true ∧ (lexemes? unfinishedText).isSome = true := by
    decide +kernel
  have hnested : (compileLines nestedText).toOption.isSome = true := by decide +kernel
  have hunfinished : problem? unfinishedText = some (.expectedExpression (.keyword .endWord)) := by
    decide +kernel
  obtain ⟨ls, hls⟩ := Option.isSome_iff_exists.1 hlex.1
  obtain ⟨ls', hls'⟩ := Option.isSome_iff_exists.1 hlex.2
  refine ⟨ls, ls', hls, hls', ?_, ?_⟩
  · cases hlines : compileLines nestedText with
    | error f => simp [hlines, Except.toOption] at hnested
    | ok lines =>
        exact (compiles_grammar_exactly "" nestedText {} none ls hls).1 _ (by
          rw [compileText, hlines])
  · obtain ⟨e, hlines, he⟩ := exists_of_problem? hunfinished
    refine (compiles_grammar_exactly "" unfinishedText {} none ls' hls').2
      (.ofFailure "" (.problem e)) (by rw [compileText, hlines]) ?_ ?_
    · simp [Diagnostic.ofFailure, he, Problem.code, Code.text]
    · refine ⟨"expression", "\"end\"", ?_⟩
      simp only [Diagnostic.ofFailure, he]
      decide

end Tern
