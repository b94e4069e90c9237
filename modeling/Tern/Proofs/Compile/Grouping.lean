import Tern.Proofs.Compile.Composition
import Tern.Proofs.Tree.Precedence

/-!
# Parentheses make no difference

An operation compiles the same whether it is spelled with the fewest parentheses that precedence
allows or with parentheses around everything, wherever an expression stands in a statement.
-/

namespace Tern

open Reader

/-- An expression does not go on with such a token. -/
def Kind.endsExpr (kind : Kind) : Bool :=
  kind.endsOperand && kind != .keyword .asWord && kind.binaryOp?.isNone

namespace Kind

variable {kind : Kind} {k : Nat}

theorem endsExpr_binaryOp? (h : kind.endsExpr = true) : kind.binaryOp? = none := by
  simp only [endsExpr, Bool.and_eq_true, Option.isNone_iff_eq_none] at h
  exact h.2

theorem endsExpr_ends (h : kind.endsExpr = true) : kind.Ends k := by
  have hop := endsExpr_binaryOp? h
  simp only [endsExpr, Bool.and_eq_true, bne_iff_ne] at h
  exact .of_binaryOp? h.1.1 h.1.2 hop

end Kind

theorem Likeness.unplaced_loose : (Likeness.unplaced true).Loose :=
  ⟨Likeness.unplaced_pos, rfl⟩

theorem enclosedIf_ne_nil {b : Bool} {ls : List Lexeme} (h : ls ≠ []) : enclosedIf b ls ≠ [] := by
  unfold enclosedIf
  split
  · exact List.cons_ne_nil _ _
  · exact h

theorem Expr.spelling_ne_nil {extra : Expr → Bool} {k : Nat} {e : Expr} (he : e.IsTerm) :
    e.spelling extra k ≠ [] := by
  apply enclosedIf_ne_nil
  cases e with
  | missing | assign | paren => exact he.elim
  | integer | char | name | call | element | reference | negate =>
      rw [Expr.bare]
      exact List.cons_ne_nil _ _
  | cast | binary =>
      rw [Expr.bare]
      exact List.append_ne_nil_of_right_ne_nil _ (List.cons_ne_nil _ _)

/-! ## Lockstep -/

/-- Two spellings of a tree in front of the same lexemes, which take nothing away from it. -/
structure Respelling where
  tree : Expr
  extra : Expr → Bool
  extra' : Expr → Bool
  stop : Lexeme
  rest : List Lexeme
  isTerm : tree.IsTerm
  ends : stop.kind.endsExpr = true

namespace Respelling

variable (R : Respelling) {n n' : Nat} {c c' : Cursor} {ls ls' : List Lexeme}

def first : List Lexeme := R.tree.spelling R.extra 0 ++ R.stop :: R.rest

def second : List Lexeme := R.tree.spelling R.extra' 0 ++ R.stop :: R.rest

/-- The same lexemes, but for the two spellings behind a lexeme that opens an expression. -/
inductive Aligned : List Lexeme → List Lexeme → Prop where
  | same (ls : List Lexeme) : Aligned ls ls
  | opener {l : Lexeme} (hl : l.kind.isOpener = true) : Aligned (l :: R.first) (l :: R.second)
  | cons (l : Lexeme) {ls ls' : List Lexeme} (h : Aligned ls ls') : Aligned (l :: ls) (l :: ls')

theorem Aligned.append {l : Lexeme} (hl : l.kind.isOpener = true) (before : List Lexeme) :
    R.Aligned (before ++ l :: R.first) (before ++ l :: R.second) := by
  induction before with
  | nil => exact .opener hl
  | cons l before ih => exact .cons l ih

variable {R}

/-- Aligned texts start with the same lexeme, and behind it they are aligned or have the two
spellings. -/
theorem Aligned.exists_cons (h : R.Aligned ls ls') (hne : ls ≠ []) :
    ∃ l ks ks', ls = l :: ks ∧ ls' = l :: ks' ∧
      (R.Aligned ks ks' ∨ l.kind.isOpener = true ∧ ks = R.first ∧ ks' = R.second) := by
  cases h with
  | same ls =>
      cases ls with
      | nil => exact absurd rfl hne
      | cons l ks => exact ⟨l, ks, ks, rfl, rfl, .inl (.same ks)⟩
  | opener hl => exact ⟨_, _, _, rfl, rfl, .inr ⟨hl, rfl, rfl⟩⟩
  | cons l h => exact ⟨l, _, _, rfl, rfl, .inl h⟩

theorem reads (R : Respelling) (extra : Expr → Bool) (fuel : Nat)
    (hc : c.Spells id (R.tree.spelling extra 0 ++ R.stop :: R.rest))
    (hfuel : 4 * (R.tree.spelling extra 0 ++ R.stop :: R.rest).length + 2 < fuel) :
    ∃ t d, expr fuel 0 c = .done t d ∧ t.Alike (.unplaced true) R.tree ∧
      d.Spells id (R.stop :: R.rest) :=
  (((R.tree.reads Likeness.unplaced_loose extra R.isTerm).spelled Likeness.unplaced_loose
    (Nat.zero_le 3))).done fuel hc (Kind.endsExpr_ends R.ends)
      (Kind.endsExpr_binaryOp? R.ends) hfuel

theorem kind_ne {extra : Expr → Bool} {x : Symbol}
    (hc : c.Spells id (R.tree.spelling extra 0 ++ R.stop :: R.rest))
    (hx : x = .rparen ∨ x = .rbracket) : c.kind ≠ .symbol x := by
  obtain ⟨t, d, hread, -⟩ := R.reads extra _ hc (Nat.lt_succ_self _)
  exact expr_done_kind hread hx

theorem length_lt (extra : Expr → Bool) :
    (R.stop :: R.rest).length < (R.tree.spelling extra 0 ++ R.stop :: R.rest).length := by
  have hpos : 0 < (R.tree.spelling extra 0).length :=
    List.length_pos_of_ne_nil (Expr.spelling_ne_nil R.isTerm)
  rw [List.length_append]
  omega

/-- The cursors are in front of aligned texts of at most `n` and `n'` lexemes. -/
def Near (R : Respelling) (n n' : Nat) (c c' : Cursor) : Prop :=
  ∃ ls ls', R.Aligned ls ls' ∧ c.Spells id ls ∧ c'.Spells id ls' ∧ ls.length ≤ n ∧ ls'.length ≤ n'

theorem Near.exists_cons (h : R.Near n n' c c') :
    ∃ l ks ks', c.Spells id (l :: ks) ∧ c'.Spells id (l :: ks') ∧ ks.length < n ∧
      ks'.length < n' ∧
      (R.Aligned ks ks' ∨ l.kind.isOpener = true ∧ ks = R.first ∧ ks' = R.second) := by
  obtain ⟨ls, ls', halign, hc, hc', hn, hn'⟩ := h
  have hne : ls ≠ [] := by
    rintro rfl
    cases hc
  obtain ⟨l, ks, ks', rfl, rfl, hks⟩ := halign.exists_cons hne
  exact ⟨l, ks, ks', hc, hc', hn, hn', hks⟩

/-- Cursors in front of aligned texts go in lockstep. -/
def lockstep (R : Respelling) : Lockstep (.unplaced true) where
  near := R.Near
  hole n n' c c' := c.Spells id R.first ∧ c'.Spells id R.second ∧ R.first.length ≤ n ∧
    R.second.length ≤ n'
  seam := False
  mono := by
    rintro m m' n n' c c' ⟨ls, ls', halign, hc, hc', hn, hn'⟩ hm hm'
    exact ⟨ls, ls', halign, hc, hc', by omega, by omega⟩
  same_or_parts := by
    intro n n' c c' h
    obtain ⟨l, ks, ks', hc, hc', -⟩ := h.exists_cons
    exact .inl (hc'.head_eq.trans hc.head_eq.symm)
  pos _ := Likeness.unplaced_pos _ _
  step := by
    intro n n' c c' h hk
    obtain ⟨l, ks, ks', hc, hc', hn, hn', hks⟩ := h.exists_cons
    have hlexeme : c.current.lexeme = l := hc.head_eq
    have hlexeme' : c'.current.lexeme = l := hc'.head_eq
    have hne : c.current.lexeme ≠ .eof := fun heof => Kind.ne_eof hk (congrArg Lexeme.kind heof)
    obtain ⟨d, hadvance, hd⟩ := hc.advance hne
    obtain ⟨d', hadvance', hd'⟩ := hc'.advance (hlexeme' ▸ hlexeme ▸ hne)
    refine ⟨by omega, by omega, .ok hadvance hadvance' ?_⟩
    obtain halign | ⟨hl, rfl, rfl⟩ := hks
    · exact .inl ⟨ks, ks', halign, hd, hd', by omega, by omega⟩
    · exact .inr ⟨by rw [hc.head_kind]; exact hl, hd, hd', by omega, by omega⟩
  hole_pos _ := Likeness.unplaced_pos _ _
  hole_ne h hx := ⟨kind_ne h.1 hx, kind_ne h.2.1 hx⟩
  hole_expr := by
    rintro n n' c c' fuel fuel' ⟨hc, hc', hn, hn'⟩ ⟨hfuel, hfuel'⟩
    obtain ⟨t, d, hread, ht, hd⟩ := R.reads R.extra fuel hc (by
      rw [first] at hn
      omega)
    obtain ⟨t', d', hread', ht', hd'⟩ := R.reads R.extra' fuel' hc' (by
      rw [second] at hn'
      omega)
    have hlt := R.length_lt R.extra
    have hlt' := R.length_lt R.extra'
    rw [first] at hn
    rw [second] at hn'
    rw [hread, hread']
    exact .done (.join (fun h h' => h.trans h'.symm) ht ht')
      ⟨_, _, .same _, hd, hd', by omega, by omega⟩
  budget := by
    rintro n n' c c' ⟨ls, ls', halign, hc, hc', -⟩
    have hbudget := hc.mul_length_le_budget
    have hbudget' := hc'.mul_length_le_budget
    refine ⟨ls.length, ls'.length, ⟨ls, ls', halign, hc, hc', Nat.le_refl _, Nat.le_refl _⟩, ?_, ?_⟩
    · unfold Reader.budget at *; omega
    · unfold Reader.budget at *; omega

end Respelling

/-! ## Texts -/

theorem program_respelled {globals locals before after : List Lexeme} {opener : Lexeme} {e : Expr}
    {c c' : Cursor} (extra extra' : Expr → Bool)
    (hglobals : Grammar.Derives .declPart (globals.map Lexeme.kind) [])
    (hlocals : Grammar.Derives .declPart (locals.map Lexeme.kind) [])
    (hstart : StartsStatement (before ++ [opener])) (hopener : opener.kind.isOpener = true)
    (he : e.IsTerm) (hafter : ∀ l ∈ after.head?, l.kind.endsExpr = true)
    (hc : c.Spells id
      (programLexemes globals locals (before ++ opener :: (e.spelling extra 0 ++ after)) ++ [.eof]))
    (hc' : c'.Spells id
      (programLexemes globals locals (before ++ opener :: (e.spelling extra' 0 ++ after)) ++
        [.eof])) :
    (program c).tree.Alike (.unplaced true) (program c').tree := by
  have heof : .eof ∉ programLexemes globals locals _ := hc.eof_notMem
  simp only [programLexemes, List.mem_append, List.mem_cons, not_or] at heof
  obtain ⟨gs, ls, hhead⟩ := program_head hglobals hlocals heof.1 heof.2.2.1
  have hstart' (ks : List Lexeme) : StartsStatement (before ++ opener :: ks) := by
    cases before with
    | nil => exact hstart
    | cons l before => exact hstart
  obtain ⟨gs₁, ls₁, d, hread, hd, hgs, hls⟩ := hhead c _ (hstart' _) hc
  obtain ⟨gs₂, ls₂, d', hread', hd', hgs', hls'⟩ := hhead c' _ (hstart' _) hc'
  obtain ⟨stop, rest, hstop, hends⟩ : ∃ stop rest,
      after ++ [.keyword .endWord, .eof] = stop :: rest ∧ stop.kind.endsExpr = true := by
    cases after with
    | nil => exact ⟨_, _, rfl, rfl⟩
    | cons l after => exact ⟨_, _, rfl, hafter l rfl⟩
  let R : Respelling := ⟨e, extra, extra', stop, rest, he, hends⟩
  simp only [List.append_assoc, List.cons_append, hstop] at hd hd'
  obtain ⟨n, n', hnear⟩ : R.lockstep.Along d d' :=
    ⟨_, _, _, _, .append R hopener before, hd, hd', Nat.le_refl _, Nat.le_refl _⟩
  rw [hread, hread']
  exact (Lockstep.tail id (DeclList.option_alike_of_unplaced (hgs.trans hgs'.symm))
    (DeclList.option_alike_of_unplaced (hls.trans hls'.symm)) hnear).tree id

/-- Precedence and associativity: wherever an expression can stand in a statement, spelling it
with the fewest parentheses and with parentheses around every operation gives the same lines, or
the same code and message. -/
theorem parentheses_make_no_difference (file : String) (layout : Layout) (output : Option String)
    (globals locals before after : List Lexeme) (opener : Lexeme) (e : Expr)
    (text text' : List Char)
    (hglobals : Grammar.Derives .declPart (globals.map Lexeme.kind) [])
    (hlocals : Grammar.Derives .declPart (locals.map Lexeme.kind) [])
    (hstart : StartsStatement (before ++ [opener])) (hopener : opener.kind.isOpener = true)
    (he : e.IsTerm) (hafter : ∀ l ∈ after.head?, l.kind.endsExpr = true)
    (htext : lexemes? text =
      some (programLexemes globals locals (before ++ opener :: (e.terse ++ after))))
    (htext' : lexemes? text' =
      some (programLexemes globals locals (before ++ opener :: (e.full ++ after)))) :
    (∃ lines, compileLines text = .ok lines ∧ compileLines text' = .ok lines) ∨
    ∃ d d', compileText file text layout output = .error d ∧
      compileText file text' layout output = .error d' ∧ d'.code = d.code ∧
      d'.message = d.message := by
  obtain ⟨c, hc, htree⟩ := Program.ofText?_of_lexemes? htext
  obtain ⟨c', hc', htree'⟩ := Program.ofText?_of_lexemes? htext'
  have halike : Read.Alike (.unplaced true) (Program.Alike (.unplaced true))
      (Program.ofText? text) (Program.ofText? text') := by
    rw [htree, htree']
    exact program_respelled _ _ hglobals hlocals hstart hopener he hafter hc hc'
  obtain hlines | ⟨f, f', hf, hf', hfailure⟩ := compileLines_alike Compile.unplaced_pos halike
  · exact .inl hlines
  · refine .inr ⟨_, _, ?_, ?_, Diagnostic.ofFailure_congr file hfailure.unplaced_eq⟩
    · rw [compileText, hf]
    · rw [compileText, hf']

def groupingTree : Expr :=
  let g := Expr.name ⟨"g", .start⟩
  let x := Expr.name ⟨"x", .start⟩
  let product := Expr.binary .mul .start x (.integer .start "2" false)
  let shift := Expr.binary .shl .start (.integer .start "1" false) (.negate .start x)
  .binary .sub .start (.binary .sub .start g product) shift

theorem parentheses_make_no_difference_nested :
    ∃ lines, compileLines (pairText "x := g - x * 2 - (1 << -x)") = .ok lines ∧
      compileLines (pairText "x := ((g - (x * 2)) - (1 << (-x)))") = .ok lines := by
  have haccepted :
      (compileLines (pairText "x := g - x * 2 - (1 << -x)")).toOption.isSome = true := by
    decide +kernel
  obtain hlines | ⟨d, d', hd, -⟩ :=
    parentheses_make_no_difference "" {} none (pairDecl "g") (pairDecl "x") [.identifier "x"] []
      (.symbol .assign) groupingTree _ _ (pairDecl_derives "g") (pairDecl_derives "x")
      (by simp [StartsStatement, Lexeme.kind]) rfl (by simp [groupingTree, Expr.IsTerm]) nofun
      (show lexemes? (pairText "x := g - x * 2 - (1 << -x)") = _ by decide +kernel)
      (show lexemes? (pairText "x := ((g - (x * 2)) - (1 << (-x)))") = _ by decide +kernel)
  · exact hlines
  · rw [compileText] at hd
    cases hlines : compileLines (pairText "x := g - x * 2 - (1 << -x)") with
    | ok lines => rw [hlines] at hd; cases hd
    | error f => rw [hlines] at haccepted; cases haccepted

end Tern
