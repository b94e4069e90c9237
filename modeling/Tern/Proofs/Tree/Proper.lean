import Mathlib
import Tern.Proofs.Token.Results
import Tern.Session

/-!
# What reading leaves in a tree

Every error that reading a text can meet is an error of the text: none carries the code of a
failure of the compiler itself.  The errors that a tree holds are of that kind, too, its
character literals fit in a byte, and the names that it declares are words.
-/

namespace Tern

/-- The error blames the program, not the compiler. -/
def CompileError.Proper (e : CompileError) : Prop := e.problem.code ≠ .internal

/-- What stands in the text is there, or its absence is a proper error. -/
def ProperRead {α : Type} (r : Read α) : Prop := ∀ e, r = .error e → e.Proper

theorem ProperRead.ok {α : Type} (v : α) : ProperRead (.ok v : Read α) := nofun

theorem ProperRead.error {α : Type} {e : CompileError} (h : e.Proper) :
    ProperRead (.error e : Read α) := by
  intro e' he
  cases he
  exact h

mutual

/-- All errors in the expression are proper, and its characters fit in a byte. -/
def Expr.Proper : Expr → Prop
  | .missing why => why.Proper
  | .integer .. | .name _ => True
  | .char _ value => value.toNat ≤ 0xff
  | .call _ args => args.Proper
  | .element place => place.Proper
  | .assign target _ value => target.Proper ∧ value.Proper
  | .paren _ inner close => inner.Proper ∧ ProperRead close
  | .reference _ operand | .negate _ operand => operand.Proper
  | .cast operand _ type => operand.Proper ∧ type.Proper
  | .binary _ _ lhs rhs => lhs.Proper ∧ rhs.Proper

def Place.Proper : Place → Prop
  | .var _ => True
  | .element array _ index close => array.Proper ∧ index.Proper ∧ ProperRead close

def Args.Proper : Args → Prop
  | .close close => ProperRead close
  | .cons arg rest => arg.Proper ∧ rest.Proper

def TypeExpr.Proper : TypeExpr → Prop
  | .missing why => why.Proper
  | .named _ => True
  | .pointer base => base.Proper
  | .array base _ count close => base.Proper ∧ count.Proper ∧ ProperRead close
  | .stopped base why => base.Proper ∧ why.Proper

end

/-- Letters, digits and underscores only, and no digit at the start. -/
structure IsWord (name : String) : Prop where
  starts : name.toList.head?.any Lexer.startsWord = true
  parts : ∀ c ∈ name.toList, Lexer.isWordPart c = true

/-- What stands in the text is a word, or its absence is a proper error. -/
def ProperName (r : Read Ident) : Prop := ProperRead r ∧ ∀ id, r = .ok id → IsWord id.name

theorem ProperName.ok {id : Ident} (h : IsWord id.name) : ProperName (.ok id) := by
  refine ⟨.ok id, fun id' hid => ?_⟩
  cases hid
  exact h

theorem ProperName.error {e : CompileError} (h : e.Proper) : ProperName (.error e) :=
  ⟨.error h, nofun⟩

def Decl.Proper (d : Decl) : Prop := ProperName d.id ∧ ProperRead d.colon ∧ d.type.Proper

def DeclList.Proper (l : DeclList) : Prop := ProperRead l.opening ∧ ∀ d ∈ l.decls, d.Proper

def Block.Proper (b : Block) : Prop := (∀ e ∈ b.statements, e.Proper) ∧ ProperRead b.close

def Program.Proper (p : Program) : Prop :=
  (∀ l ∈ p.globals, l.Proper) ∧ ProperRead p.opening ∧ (∀ l ∈ p.locals, l.Proper) ∧
    p.body.Proper ∧ ProperRead p.finish

/-! ## Tokens -/

/-- A character literal fits in a byte, and an identifier is a word. -/
def Lexeme.Proper : Lexeme → Prop
  | .char value => value.toNat ≤ 0xff
  | .identifier name => IsWord name
  | _ => True

/-- A token was read, or the text is to blame. -/
def ProperToken (r : Except CompileError Token) : Prop :=
  ProperRead r ∧ ∀ t, r = .ok t → t.lexeme.Proper

theorem ProperToken.eof (pos : Position) : ProperToken (.ok ⟨.eof, pos⟩) := by
  refine ⟨.ok _, fun t ht => ?_⟩
  cases ht
  trivial

namespace Scan

/-- What was read is proper.  If the attempt failed, the text is to blame. -/
def Proper (s : Scan) : Prop :=
  (∀ p, s.result = .error p → p.code ≠ .internal) ∧ ∀ l, s.result = .ok l → l.Proper

theorem proper_ok {l : Lexeme} {taken rest : List Char} (h : l.Proper) :
    Proper ⟨.ok l, taken, rest⟩ := by
  refine ⟨nofun, fun l' hl => ?_⟩
  cases hl
  exact h

theorem proper_error {p : Problem} {taken rest : List Char} (h : p.code ≠ .internal) :
    Proper ⟨.error p, taken, rest⟩ := by
  refine ⟨fun q hq => ?_, nofun⟩
  cases hq
  exact h

theorem word_proper {c : Char} (cs : List Char) (hc : Lexer.startsWord c = true) :
    (word (c :: cs)).Proper := by
  apply proper_ok
  cases Keyword.ofWord? (String.ofList ((c :: cs).takeWhile Lexer.isWordPart)) with
  | some k => trivial
  | none =>
      constructor
      · rw [String.toList_ofList, List.takeWhile_cons_of_pos (Lexer.isWordPart_of_startsWord hc)]
        exact hc
      · intro d hd
        rw [String.toList_ofList] at hd
        exact List.all_eq_true.1 List.all_takeWhile d hd

theorem closeChar_proper {value : Char} (h : value.toNat ≤ 0xff) (cs taken rest : List Char) :
    (closeChar cs value taken rest).Proper := by
  unfold closeChar
  split
  · exact proper_ok h
  · exact proper_error (by decide)

theorem escape?_le {c value : Char} (h : escape? c = some value) : value.toNat ≤ 0xff := by
  unfold escape? at h
  split at h <;> cases h <;> decide

theorem charLiteral_proper (cs body : List Char) : (charLiteral cs body).Proper := by
  unfold charLiteral
  split
  case h_5 c rest =>
    split
    · exact proper_error (by decide)
    · next value hvalue => exact closeChar_proper (escape?_le hvalue) _ _ _
  case h_6 =>
    split
    · exact proper_error (by decide)
    · next hwide => exact closeChar_proper (by omega) _ _ _
  all_goals exact proper_error (by decide)

theorem integer_proper (cs : List Char) : (integer cs).Proper := by
  unfold integer
  simp only
  split
  · exact proper_error (by decide)
  · exact proper_ok trivial

theorem ofChars_proper (cs : List Char) : (ofChars cs).Proper := by
  cases cs with
  | nil => exact proper_ok trivial
  | cons c cs =>
      simp only [ofChars]
      split
      · next hc => exact word_proper cs hc
      · split
        · exact integer_proper _
        · split
          · exact charLiteral_proper _ _
          · split
            · exact proper_ok trivial
            · exact proper_error (by simp [Problem.code])

end Scan

theorem Lexer.next_proper (lx : Lexer) : ProperToken lx.next.1 := by
  obtain ⟨herror, hok⟩ := Scan.ofChars_proper lx.skipTrivia.rest
  simp only [next]
  cases hscan : (Scan.ofChars lx.skipTrivia.rest).result with
  | ok lexeme =>
      refine ⟨.ok _, fun t ht => ?_⟩
      cases ht
      exact hok lexeme hscan
  | error p =>
      refine ⟨.error ?_, nofun⟩
      exact herror p hscan

/-- The tokens and errors of the stream are proper. -/
structure TokenStream.Proper (s : TokenStream) : Prop where
  results : ∀ r ∈ s.results, ProperToken r
  ending : ProperToken s.ending.result

namespace TokenStream

theorem Proper.cons {s : TokenStream} (h : s.Proper) {r : Except CompileError Token}
    (hr : ProperToken r) : (s.cons r).Proper := by
  refine ⟨fun r' hr' => ?_, h.ending⟩
  rcases List.mem_cons.1 hr' with rfl | hr'
  · exact hr
  · exact h.results r' hr'

theorem Proper.next {s : TokenStream} (h : s.Proper) :
    ProperToken s.next.1 ∧ s.next.2.Proper := by
  unfold TokenStream.next
  split
  · exact ⟨h.ending, h⟩
  · next r rs hresults =>
    refine ⟨h.results r (by simp [hresults]), fun r' hr' => ?_, h.ending⟩
    exact h.results r' (by rw [hresults]; exact List.mem_cons_of_mem r hr')

theorem ofLexer_proper (fuel : Nat) (lx : Lexer) : (ofLexer fuel lx).Proper := by
  induction fuel generalizing lx with
  | zero => exact ⟨by simp [ofLexer], .eof _⟩
  | succ fuel ih =>
      have hnext := Lexer.next_proper lx
      unfold ofLexer
      split
      · next t lx' hlx =>
        rw [hlx] at hnext
        split
        · exact ⟨by simp, .eof _⟩
        · exact (ih lx').cons hnext
      · next e lx' hlx =>
        rw [hlx] at hnext
        split
        · exact (ih lx').cons hnext
        · exact ⟨by simp, hnext⟩

end TokenStream

/-- The token at the cursor is proper, and so is what lies in front of it. -/
structure Cursor.Proper (c : Cursor) : Prop where
  current : c.current.lexeme.Proper
  stream : c.stream.Proper

theorem Cursor.Proper.advance {c : Cursor} (h : c.Proper) :
    ProperRead c.advance.1 ∧ c.advance.2.Proper := by
  obtain ⟨hresult, hrest⟩ := TokenStream.Proper.next h.stream
  unfold Cursor.advance
  split
  · next t rest hnext =>
    rw [hnext] at hresult hrest
    exact ⟨.ok (), hresult.2 t rfl, hrest⟩
  · next e rest hnext =>
    rw [hnext] at hresult hrest
    exact ⟨.error (hresult.1 e rfl), h.current, hrest⟩

theorem Cursor.Proper.skip {c : Cursor} (h : c.Proper) (n : Nat) : (c.skip n).Proper := by
  induction n generalizing c with
  | zero => exact h
  | succ n ih => exact ih h.advance.2

theorem Cursor.Proper.start {text : List Char} {c : Cursor}
    (h : Cursor.start (.ofText text) = .ok c) : c.Proper := by
  obtain ⟨hfirst, hrest⟩ := (TokenStream.ofLexer_proper (text.length + 1) (.ofText text)).next
  unfold Cursor.start at h
  split at h
  · next t rest hnext =>
    cases h
    rw [← TokenStream.ofText, hnext] at hfirst hrest
    exact ⟨hfirst.2 t rfl, hrest⟩
  · cases h

/-! ## Phrases -/

/-- The phrase satisfies `P`, and what lies behind it is proper. -/
def Outcome.Proper {α : Type} (P : α → Prop) : Outcome α → Prop
  | .done tree rest => P tree ∧ rest.Proper
  | .stopped tree why rest => P tree ∧ why.Proper ∧ rest.Proper

section

variable {α β : Type} {P : α → Prop} {Q : β → Prop} {c : Cursor}

theorem Outcome.Proper.tree {x : Outcome α} (h : x.Proper P) : P x.tree := by
  cases x <;> exact h.1

theorem Outcome.Proper.rest {x : Outcome α} (h : x.Proper P) : x.rest.Proper := by
  cases x with
  | done tree rest => exact h.2
  | stopped tree why rest => exact h.2.2

theorem Outcome.Proper.andThen {x : Outcome α} {cut : α → CompileError → β}
    {next : α → Cursor → Outcome β} (hx : x.Proper P)
    (hcut : ∀ tree why, P tree → why.Proper → Q (cut tree why))
    (hnext : ∀ tree c, P tree → c.Proper → (next tree c).Proper Q) :
    (x.andThen cut next).Proper Q := by
  cases x with
  | done tree rest => exact hnext tree rest hx.1 hx.2
  | stopped tree why rest => exact ⟨hcut tree why hx.1 hx.2.1, hx.2⟩

theorem Outcome.Proper.map {x : Outcome α} {f : α → β} (hx : x.Proper P)
    (hf : ∀ tree, P tree → Q (f tree)) : (x.map f).Proper Q := by
  cases x with
  | done tree rest => exact ⟨hf tree hx.1, hx.2⟩
  | stopped tree why rest => exact ⟨hf tree hx.1, hx.2⟩

theorem Cursor.Proper.step {cut : CompileError → α} {next : Cursor → Outcome α} (hc : c.Proper)
    (hcut : ∀ why, why.Proper → P (cut why)) (hnext : ∀ c, c.Proper → (next c).Proper P) :
    (c.step cut next).Proper P := by
  obtain ⟨hresult, hrest⟩ := hc.advance
  unfold Cursor.step
  split
  · next rest hadvance =>
    rw [hadvance] at hrest
    exact hnext rest hrest
  · next e rest hadvance =>
    rw [hadvance] at hresult hrest
    exact ⟨hcut e (hresult e rfl), hresult e rfl, hrest⟩

theorem Cursor.Proper.stop {p : Problem} {cut : CompileError → α} (hc : c.Proper)
    (hp : p.code ≠ .internal) (hcut : ∀ why, why.Proper → P (cut why)) :
    (c.stop p cut).Proper P :=
  ⟨hcut ⟨p, c.pos⟩ hp, hp, hc⟩

theorem Cursor.Proper.expect {wanted : Kind} {cut : CompileError → α} {next : Outcome α}
    (hc : c.Proper) (hcut : ∀ why, why.Proper → P (cut why)) (hnext : next.Proper P) :
    (c.expect wanted cut next).Proper P := by
  unfold Cursor.expect
  split
  · exact hnext
  · exact hc.stop nofun hcut

theorem Cursor.Proper.pass {wanted : Kind} {cut : CompileError → α} {next : Cursor → Outcome α}
    (hc : c.Proper) (hcut : ∀ why, why.Proper → P (cut why))
    (hnext : ∀ c, c.Proper → (next c).Proper P) : (c.pass wanted cut next).Proper P :=
  hc.expect hcut (hc.step hcut hnext)

end

namespace Reader

/-- With `fuel` to spend, every phrase that can stand in an expression comes out proper. -/
structure ProperAt (fuel : Nat) : Prop where
  expr : ∀ minPrec {c : Cursor}, c.Proper → (Reader.expr fuel minPrec c).Proper Expr.Proper
  operand : ∀ {c : Cursor}, c.Proper → (Reader.operand fuel c).Proper Expr.Proper
  named : ∀ id {c : Cursor}, c.Proper → (Reader.named fuel id c).Proper Expr.Proper
  assignment : ∀ {p : Place} {c : Cursor}, p.Proper → c.Proper →
    (Reader.assignment fuel p c).Proper Expr.Proper
  args : ∀ {c : Cursor}, c.Proper → (Reader.args fuel c).Proper Args.Proper
  elements : ∀ {p : Place} {c : Cursor}, p.Proper → c.Proper →
    (Reader.elements fuel p c).Proper Place.Proper
  castSuffix : ∀ {e : Expr} {c : Cursor}, e.Proper → c.Proper →
    (Reader.castSuffix fuel e c).Proper Expr.Proper
  operators : ∀ minPrec {e : Expr} {c : Cursor}, e.Proper → c.Proper →
    (Reader.operators fuel minPrec e c).Proper Expr.Proper
  type : ∀ {c : Cursor}, c.Proper → (Reader.type fuel c).Proper TypeExpr.Proper
  suffixes : ∀ {t : TypeExpr} {c : Cursor}, t.Proper → c.Proper →
    (Reader.suffixes fuel t c).Proper TypeExpr.Proper

theorem properAt_zero : ProperAt 0 where
  expr _ _ hc := hc.stop nofun fun _ h => h
  operand hc := hc.stop nofun fun _ h => h
  named _ _ hc := hc.stop nofun fun _ h => h
  assignment _ hc := hc.stop nofun fun _ h => h
  args hc := hc.stop nofun fun _ h => .error h
  elements hp hc := hc.stop nofun fun _ h => ⟨hp, h, .error h⟩
  castSuffix _ hc := hc.stop nofun fun _ h => h
  operators _ _ _ _ hc := hc.stop nofun fun _ h => h
  type hc := hc.stop nofun fun _ h => h
  suffixes ht hc := hc.stop nofun fun _ h => ⟨ht, h⟩

variable {fuel : Nat} {c : Cursor}

namespace ProperAt

theorem expr_succ (ih : ProperAt fuel) (minPrec : Nat) (hc : c.Proper) :
    (Reader.expr (fuel + 1) minPrec c).Proper Expr.Proper := by
  simp only [Reader.expr]
  exact (ih.operand hc).andThen (fun _ _ he _ => he) fun _ _ he hc =>
    (ih.castSuffix he hc).andThen (fun _ _ he _ => he) fun _ _ he hc => ih.operators minPrec he hc

theorem operand_succ (ih : ProperAt fuel) (hc : c.Proper) :
    (Reader.operand (fuel + 1) c).Proper Expr.Proper := by
  have hcurrent := hc.current
  simp only [Reader.operand]
  split
  · exact hc.step (fun _ h => h) fun _ hc => ⟨trivial, hc⟩
  · next value hvalue =>
    rw [hvalue] at hcurrent
    exact hc.step (fun _ h => h) fun _ hc => ⟨hcurrent, hc⟩
  · exact ih.named _ hc
  · refine hc.step (fun _ h => h) fun _ hc => ?_
    exact (ih.expr 0 hc).andThen (fun _ _ he h => ⟨he, .error h⟩) fun _ _ he hc =>
      hc.pass (fun _ h => ⟨he, .error h⟩) fun _ hc => ⟨⟨he, .ok ()⟩, hc⟩
  · exact hc.step (fun _ h => h) fun _ hc => (ih.operand hc).map fun _ he => he
  · exact hc.step (fun _ h => h) fun _ hc => (ih.operand hc).map fun _ he => he
  all_goals exact hc.stop nofun fun _ h => h

theorem named_succ (ih : ProperAt fuel) (id : Ident) (hc : c.Proper) :
    (Reader.named (fuel + 1) id c).Proper Expr.Proper := by
  simp only [Reader.named]
  have hvar : (Place.var id).Proper := trivial
  refine hc.step (fun _ h => h) fun c hc => ?_
  split
  · exact ih.assignment hvar hc
  · refine hc.step (fun _ h => .error h) fun c hc => ?_
    split
    · exact hc.step (fun _ h => .error h) fun _ hc => ⟨.ok (), hc⟩
    · exact (ih.args hc).map fun _ ha => ha
  · refine (ih.elements hvar hc).andThen (fun _ _ hp _ => hp) fun p c hp hc => ?_
    split
    · exact ih.assignment hp hc
    · exact ⟨hp, hc⟩
  · exact ⟨trivial, hc⟩

theorem assignment_succ (ih : ProperAt fuel) {p : Place} (hp : p.Proper) (hc : c.Proper) :
    (Reader.assignment (fuel + 1) p c).Proper Expr.Proper := by
  simp only [Reader.assignment]
  exact hc.step (fun _ h => ⟨hp, h⟩) fun _ hc => (ih.expr 0 hc).map fun _ he => ⟨hp, he⟩

theorem args_succ (ih : ProperAt fuel) (hc : c.Proper) :
    (Reader.args (fuel + 1) c).Proper Args.Proper := by
  simp only [Reader.args]
  refine (ih.expr 0 hc).andThen (fun _ _ he h => ⟨he, .error h⟩) fun e c he hc => ?_
  split
  · exact hc.step (fun _ h => ⟨he, .error h⟩) fun _ hc => (ih.args hc).map fun _ ha => ⟨he, ha⟩
  · exact hc.pass (fun _ h => ⟨he, .error h⟩) fun _ hc => ⟨⟨he, .ok ()⟩, hc⟩

theorem elements_succ (ih : ProperAt fuel) {p : Place} (hp : p.Proper) (hc : c.Proper) :
    (Reader.elements (fuel + 1) p c).Proper Place.Proper := by
  simp only [Reader.elements]
  split
  · refine hc.step (fun _ h => ⟨hp, h, .error h⟩) fun _ hc => ?_
    exact (ih.expr 0 hc).andThen (fun _ _ he h => ⟨hp, he, .error h⟩) fun _ _ he hc =>
      hc.pass (fun _ h => ⟨hp, he, .error h⟩) fun _ hc => ih.elements ⟨hp, he, .ok ()⟩ hc
  · exact ⟨hp, hc⟩

theorem castSuffix_succ (ih : ProperAt fuel) {e : Expr} (he : e.Proper) (hc : c.Proper) :
    (Reader.castSuffix (fuel + 1) e c).Proper Expr.Proper := by
  simp only [Reader.castSuffix]
  split
  · exact hc.step (fun _ h => ⟨he, h⟩) fun _ hc => (ih.type hc).map fun _ ht => ⟨he, ht⟩
  · exact ⟨he, hc⟩

theorem operators_succ (ih : ProperAt fuel) (minPrec : Nat) {e : Expr} (he : e.Proper)
    (hc : c.Proper) : (Reader.operators (fuel + 1) minPrec e c).Proper Expr.Proper := by
  simp only [Reader.operators]
  split
  · exact ⟨he, hc⟩
  · split
    · exact ⟨he, hc⟩
    · refine hc.step (fun _ h => ⟨he, h⟩) fun _ hc => ?_
      exact (ih.expr _ hc).andThen (fun _ _ hr _ => ⟨he, hr⟩) fun _ _ hr hc =>
        ih.operators minPrec ⟨he, hr⟩ hc

theorem type_succ (ih : ProperAt fuel) (hc : c.Proper) :
    (Reader.type (fuel + 1) c).Proper TypeExpr.Proper := by
  simp only [Reader.type]
  split
  · exact hc.step (fun _ h => ⟨trivial, h⟩) fun _ hc => ih.suffixes trivial hc
  · exact hc.stop nofun fun _ h => h

theorem suffixes_succ (ih : ProperAt fuel) {t : TypeExpr} (ht : t.Proper) (hc : c.Proper) :
    (Reader.suffixes (fuel + 1) t c).Proper TypeExpr.Proper := by
  simp only [Reader.suffixes]
  split
  · refine hc.step (fun _ h => ⟨ht, h⟩) fun c hc => ?_
    split
    · exact hc.stop nofun fun _ h => ⟨ht, h⟩
    · exact (ih.expr 0 hc).andThen (fun _ _ he h => ⟨ht, he, .error h⟩) fun _ _ he hc =>
        hc.pass (fun _ h => ⟨ht, he, .error h⟩) fun _ hc => ih.suffixes ⟨ht, he, .ok ()⟩ hc
  · exact hc.step (fun _ h => ⟨ht, h⟩) fun _ hc => ih.suffixes ht hc
  · exact ⟨ht, hc⟩

end ProperAt

theorem properAt (fuel : Nat) : ProperAt fuel := by
  induction fuel with
  | zero => exact properAt_zero
  | succ fuel ih =>
      exact {
        expr := fun minPrec _ => ih.expr_succ minPrec
        operand := ih.operand_succ
        named := fun id _ => ih.named_succ id
        assignment := ih.assignment_succ
        args := ih.args_succ
        elements := ih.elements_succ
        castSuffix := ih.castSuffix_succ
        operators := fun minPrec _ _ => ih.operators_succ minPrec
        type := ih.type_succ
        suffixes := ih.suffixes_succ }

/-! ## Programs -/

theorem declBody_proper (exported : Option Position) (hc : c.Proper) :
    (declBody fuel exported c).Proper Decl.Proper := by
  unfold declBody
  simp only
  split
  · next name hname =>
    have hword : IsWord name := by
      have hproper := hc.current
      rwa [hname] at hproper
    have hcut : ∀ why : CompileError, why.Proper →
        Decl.Proper ⟨exported, .ok ⟨name, c.pos⟩, .error why, .missing why⟩ :=
      fun why h => ⟨.ok hword, .error h, h⟩
    exact hc.step hcut fun _ hc => hc.pass hcut fun _ hc =>
      ((properAt fuel).type hc).map fun _ ht => ⟨.ok hword, .ok (), ht⟩
  · exact hc.stop nofun fun _ h => ⟨.error h, .error h, h⟩

theorem decl_proper (hc : c.Proper) : (decl fuel c).Proper Decl.Proper := by
  unfold decl
  split
  · exact hc.step (fun _ h => ⟨.error h, .error h, h⟩) fun _ hc => declBody_proper _ hc
  · exact declBody_proper _ hc

theorem decls_proper (fuel : Nat) (hc : c.Proper) :
    (decls fuel c).Proper fun ds => ∀ d ∈ ds, d.Proper := by
  induction fuel generalizing c with
  | zero => exact hc.stop nofun (by simp)
  | succ fuel ih =>
      unfold decls
      refine (decl_proper hc).andThen (fun _ _ hd _ => by simpa using hd) fun d c hd hc => ?_
      split
      · refine hc.step (fun why h => ?_) fun _ hc => (ih hc).map fun ds hds => ?_
        · have hcut : Decl.Proper ⟨none, .error why, .error why, .missing why⟩ :=
            ⟨.error h, .error h, h⟩
          simpa using ⟨hd, hcut⟩
        · simpa using ⟨hd, hds⟩
      · exact ⟨by simpa using hd, hc⟩

theorem declList_proper (hc : c.Proper) : (declList c).Proper DeclList.Proper :=
  hc.step (fun _ h => ⟨.error h, by simp⟩) fun _ hc =>
    (decls_proper _ hc).map fun _ hds => ⟨.ok (), hds⟩

theorem declList?_proper (hc : c.Proper) :
    (declList? c).Proper fun l => ∀ l' ∈ l, DeclList.Proper l' := by
  unfold declList?
  split
  · exact (declList_proper hc).map (by simp)
  · exact ⟨by simp, hc⟩

theorem statements_proper (fuel : Nat) (hc : c.Proper) :
    (statements fuel c).Proper Block.Proper := by
  have hnone : ∀ why : CompileError, why.Proper → Block.Proper ⟨[], .error why⟩ :=
    fun _ h => ⟨by simp, .error h⟩
  induction fuel generalizing c with
  | zero => exact hc.stop nofun hnone
  | succ fuel ih =>
      unfold statements
      split
      · exact ⟨⟨by simp, .ok ()⟩, hc⟩
      · refine ((properAt fuel).named _ hc).andThen (fun e _ he h => ⟨by simpa using he, .error h⟩)
          fun e c he hc => (ih hc).map fun b hb => ⟨?_, hb.2⟩
        simpa using ⟨he, hb.1⟩
      · exact hc.stop nofun hnone
      · exact hc.stop nofun hnone

theorem program_proper (hc : c.Proper) : (program c).Proper Program.Proper := by
  have hblock : ∀ why : CompileError, why.Proper → Block.Proper ⟨[], .error why⟩ :=
    fun _ h => ⟨by simp, .error h⟩
  unfold program
  refine (declList?_proper hc).andThen
    (fun gs why hgs h => ⟨hgs, .error h, by simp, hblock why h, .error h⟩) fun gs c hgs hc => ?_
  refine hc.pass (fun why h => ⟨hgs, .error h, by simp, hblock why h, .error h⟩) fun c hc => ?_
  refine (declList?_proper hc).andThen
    (fun ls why hls h => ⟨hgs, .ok (), hls, hblock why h, .error h⟩) fun ls c hls hc => ?_
  refine (statements_proper _ hc).andThen
    (fun b why hb h => ⟨hgs, .ok (), hls, hb, .error h⟩) fun b c hb hc => ?_
  refine hc.step (fun why h => ⟨hgs, .ok (), hls, hb, .error h⟩) fun c hc => ?_
  exact hc.expect (fun why h => ⟨hgs, .ok (), hls, hb, .error h⟩)
    ⟨⟨hgs, .ok (), hls, hb, .ok ()⟩, hc⟩

end Reader

/-! ## Texts -/

/-- The tree of a text, unless its first token cannot be read. -/
def Program.ofText? (text : List Char) : Except CompileError Program :=
  (Cursor.start (.ofText text)).map fun c => (Reader.program c).tree

theorem Program.ofText?_proper (text : List Char) :
    match Program.ofText? text with
    | .ok tree => tree.Proper
    | .error e => e.Proper := by
  have hstream : (TokenStream.ofText text).Proper := TokenStream.ofLexer_proper _ _
  obtain ⟨hfirst, hrest⟩ := hstream.next
  unfold Program.ofText? Cursor.start
  cases hnext : (TokenStream.ofText text).next with
  | mk first rest =>
      rw [hnext] at hfirst hrest
      cases first with
      | error e => exact hfirst.1 e rfl
      | ok t => exact (Reader.program_proper (c := ⟨t, rest⟩) ⟨hfirst.2 t rfl, hrest⟩).tree

theorem compileLines_eq (text : List Char) :
    compileLines text =
      match Program.ofText? text with
      | .error e => .error (.problem e)
      | .ok tree =>
          match Compile.program tree { scopes := .builtin } with
          | .ok _ c => .ok c.assembly.lines
          | .error f _ => .error f := by
  unfold compileLines Session.start Program.ofText?
  cases Cursor.start (.ofText text) with
  | error e => rfl
  | ok c =>
      simp only [Except.map, Session.program, Session.phrase]
      cases Compile.program (Reader.program c).tree { scopes := .builtin } <;> rfl

theorem compileLines_ok {text : List Char} {lines : Array Line} {tree : Program}
    (h : compileLines text = .ok lines) (htree : Program.ofText? text = .ok tree) :
    ∃ c, Compile.program tree { scopes := .builtin } = .ok () c ∧ c.assembly.lines = lines := by
  rw [compileLines_eq, htree] at h
  cases hprogram : Compile.program tree { scopes := .builtin } with
  | ok u c =>
      simp only [hprogram, Except.ok.injEq] at h
      exact ⟨c, rfl, h⟩
  | error f c => simp only [hprogram, reduceCtorEq] at h

end Tern
