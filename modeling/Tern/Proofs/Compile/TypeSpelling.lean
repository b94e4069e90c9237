import Tern.Proofs.Compile.Matching
import Tern.Proofs.Machine.Constants
import Tern.Proofs.Token.Lexical
import Tern.Proofs.Tree.Precedence

/-!
# Types and their spelling

A type is valid if every array in it has a count in range and is not too large.  These are the
types that can be spelled out and read again, and a type that is read is always one of them.
-/

namespace Tern

/-! ## Valid types -/

namespace Ty

/-- Every array in the type has a count in range and is not too large. -/
def IsValid : Ty → Prop
  | builtin _ => True
  | pointer base => base.IsValid
  | array base count =>
      base.IsValid ∧ 1 ≤ count ∧ count ≤ countLimit ∧ count * base.size ≤ sizeLimit

def decIsValid : (t : Ty) → Decidable t.IsValid
  | builtin _ => isTrue trivial
  | pointer base => base.decIsValid
  | array base _ => @instDecidableAnd _ _ base.decIsValid inferInstance

instance : DecidablePred IsValid := decIsValid

/-- The counts of an array of arrays, the outermost first. -/
def counts : Ty → List Nat
  | array base count => count :: base.counts
  | _ => []

theorem size_eq_counts_prod (t : Ty) : t.size = t.counts.prod * t.unit.size := by
  induction t with
  | builtin b => exact (Nat.one_mul _).symm
  | pointer base => exact (Nat.one_mul _).symm
  | array base count ih => rw [counts, unit, List.prod_cons, size_array, ih, Nat.mul_assoc]

def tree : Ty → TypeExpr
  | builtin b => .named ⟨b.name, .start⟩
  | pointer base => .pointer base.tree
  | array base count => .array base.tree .start (.integer .start (toString count) false) (.ok ())

theorem tree_isTerm (t : Ty) : t.tree.IsTerm := by
  induction t with
  | builtin b => trivial
  | pointer base ih => exact ih
  | array base count ih => exact ⟨ih, trivial, rfl⟩

end Ty

/-! ## Lexing -/

/-- The text consists of these lexemes with nothing between them. -/
inductive Lexes : List Char → List Lexeme → Prop where
  | nil : Lexes [] []
  | cons {c : Char} {cs taken rest : List Char} {l : Lexeme} {ls : List Lexeme}
      (hblank : Lexer.isBlank c = false) (hslash : c ≠ '/')
      (hscan : Scan.ofChars (c :: cs) = ⟨.ok l, taken, rest⟩) (hl : l ≠ .eof)
      (hlength : rest.length ≤ cs.length) (hrest : Lexes rest ls) : Lexes (c :: cs) (l :: ls)

namespace Lexes

variable {c : Char} {cs rest : List Char} {l : Lexeme} {ls : List Lexeme}

theorem length_le (h : Lexes cs ls) : ls.length ≤ cs.length := by
  induction h with
  | nil => exact Nat.le_refl 0
  | cons _ _ _ _ hlength _ ih => exact Nat.succ_le_succ (Nat.le_trans ih hlength)

theorem ofLexer (h : Lexes cs ls) {fuel : Nat} (hfuel : ls.length < fuel) (p : Position) :
    (TokenStream.ofLexer fuel ⟨cs, p⟩).lexemes? = some ls := by
  induction h generalizing fuel p with
  | nil =>
      obtain ⟨fuel, rfl⟩ := Nat.exists_eq_add_one_of_ne_zero (Nat.ne_zero_of_lt hfuel)
      rfl
  | @cons c cs taken rest l ls hblank hslash hscan hl _ _ ih =>
      obtain ⟨fuel, rfl⟩ := Nat.exists_eq_add_one_of_ne_zero (Nat.ne_zero_of_lt hfuel)
      have htrivia : Lexer.skipTrivia ⟨c :: cs, p⟩ = ⟨c :: cs, p⟩ := by
        simp [Lexer.skipTrivia, Lexer.dropTrivia, hblank, hslash]
      have hnext : Lexer.next ⟨c :: cs, p⟩ = (.ok ⟨l, p⟩, ⟨rest, p.afterAll taken⟩) := by
        simp only [Lexer.next, htrivia, hscan]
      have hkind : (⟨l, p⟩ : Token).kind ≠ .eof := fun h => hl (Lexeme.eq_eof h)
      have hlexemes := ih (Nat.lt_of_succ_lt_succ hfuel) (p.afterAll taken)
      rw [TokenStream.ofLexer, hnext]
      simp only [if_neg hkind]
      generalize TokenStream.ofLexer fuel ⟨rest, p.afterAll taken⟩ = s at hlexemes ⊢
      obtain ⟨results, ending⟩ := s
      cases ending with
      | stuck e => cases hlexemes
      | eof pos =>
          have hresults : TokenStream.lexemesOf? results = some ls := hlexemes
          rw [TokenStream.lexemesOf?] at hresults
          simp only [TokenStream.lexemes?, TokenStream.cons, TokenStream.lexemesOf?,
            List.mapM_cons, hresults]
          rfl

theorem lexemes? (h : Lexes cs ls) : lexemes? cs = some ls :=
  h.ofLexer (Nat.lt_succ_of_le h.length_le) .start

theorem spelt {s : List Char} (h : l.Spelt s) (hslash : s.head? ≠ some '/')
    (hrest : ∀ d ∈ rest.head?, Lexer.isWordPart d = false ∧ d ≠ '=') (hls : Lexes rest ls) :
    Lexes (s ++ rest) (l :: ls) := by
  have htrivia : ¬ StartsTrivia (s ++ []) := h.not_startsTrivia nofun
  have hscan := Scan.ofChars_spelt h hrest
  cases s with
  | nil => exact absurd rfl h.ne_nil
  | cons c cs =>
      refine .cons ?_ (fun hc => hslash (congrArg some hc)) hscan h.ne_eof (by simp) hls
      cases hblank : Lexer.isBlank c with
      | false => rfl
      | true => exact absurd (.inl hblank) htrivia

theorem builtin (b : Builtin) (hrest : ∀ d ∈ rest.head?, Lexer.isWordPart d = false ∧ d ≠ '=')
    (h : Lexes rest ls) : Lexes (b.name.toList ++ rest) (.identifier b.name :: ls) := by
  have hspelt : (Lexeme.identifier b.name).Spelt b.name.toList := by
    cases b <;> exact .identifier (by decide) (List.all_eq_true.1 (by decide)) (by decide)
  exact .spelt hspelt (by cases b <;> decide) hrest h

theorem symbol {x : Symbol} (h : Lexes rest ls) (hx : x = .star ∨ x = .lbracket ∨ x = .rbracket) :
    Lexes (x.spelling.toList ++ rest) (.symbol x :: ls) := by
  rcases hx with rfl | rfl | rfl <;>
    exact .cons rfl (by decide) rfl (by rintro ⟨⟩) (Nat.le_refl _) h

theorem symbol_head (rest : List Char) {x : Symbol}
    (hx : x = .star ∨ x = .lbracket ∨ x = .rbracket) :
    ∀ d ∈ (x.spelling.toList ++ rest).head?, Lexer.isWordPart d = false ∧ d ≠ '=' := by
  rcases hx with rfl | rfl | rfl <;> rintro d ⟨⟩ <;> decide

theorem digits (n : Nat) (hrest : ∀ d ∈ rest.head?, Lexer.isWordPart d = false ∧ d ≠ '=')
    (h : Lexes rest ls) :
    Lexes ((toString n).toList ++ rest) (.integer (toString n) none :: ls) := by
  rw [Nat.toString_eq_ofList_toDigits, String.toList_ofList]
  have hdigits : ∀ d ∈ Nat.toDigits 10 n, d.isDigit = true :=
    fun d hd => Nat.isDigit_of_mem_toDigits (by decide) (by decide) hd
  have hspelt : (Lexeme.integer (String.ofList (Nat.toDigits 10 n)) none).Spelt
      (Nat.toDigits 10 n ++ []) := .integer Nat.toDigits_ne_nil hdigits nofun
  rw [List.append_nil] at hspelt
  refine .spelt hspelt (fun hslash => ?_) hrest h
  cases hdigits '/' (List.mem_of_mem_head? hslash)

end Lexes

theorem Ty.lexes (t : Ty) {rest : List Char} {ls : List Lexeme}
    (hrest : ∀ d ∈ rest.head?, Lexer.isWordPart d = false ∧ d ≠ '=') (h : Lexes rest ls) :
    Lexes (t.spelling.toList ++ rest) (t.tree.spelling (fun _ => false) ++ ls) := by
  induction t generalizing rest ls with
  | builtin b =>
      rw [Ty.spelling, Ty.tree, TypeExpr.spelling]
      exact .builtin b hrest h
  | pointer base ih =>
      rw [Ty.spelling, Ty.tree, TypeExpr.spelling, String.toList_append, List.append_assoc,
        List.append_assoc]
      exact ih (Lexes.symbol_head rest (.inl rfl)) (Lexes.symbol h (.inl rfl))
  | array base count ih =>
      have hclose := Lexes.symbol h (.inr (.inr rfl))
      have hdigits := Lexes.digits count (Lexes.symbol_head rest (.inr (.inr rfl))) hclose
      have hopen := Lexes.symbol hdigits (.inr (.inl rfl))
      have hcount : enclosedIf
          ((Expr.integer .start (toString count) false).isEnclosed (fun _ => false) 0)
          ((Expr.integer .start (toString count) false).bare fun _ => false) =
          [.integer (toString count) none] := by
        rw [Expr.bare]
        rfl
      rw [Ty.spelling, Ty.tree, TypeExpr.spelling, hcount]
      simp only [String.toList_append, List.append_assoc]
      exact ih (Lexes.symbol_head _ (.inr (.inl rfl))) hopen

/-! ## Compiling -/

theorem Const.reduce_nonneg (t : Ty) (v : Int) : 0 ≤ reduce t v := by
  rw [reduce, Word.unsigned_eq_emod]
  exact Int.emod_nonneg _ (Int.natCast_ne_zero.2 (Nat.ne_of_gt (Nat.two_pow_pos _)))

theorem Const.reduce_lt (t : Ty) (v : Int) : reduce t v < 2 ^ (8 * t.size) := by
  have h := Word.unsigned_lt t.size v
  push_cast at h
  exact h

theorem Const.fold_nonneg {op : BinaryOp} {lt rt t : Ty} {l r n : Int}
    (h : fold op lt l rt r = .ok (t, n)) : 0 ≤ n := by
  simp only [fold] at h
  split at h
  · cases h
    exact reduce_nonneg _ _
  · cases h

theorem Const.ofDigits_toString (n : Nat) : ofDigits (toString n).toList = n := by
  rw [Nat.toString_eq_ofList_toDigits, String.toList_ofList]
  exact Nat.ofDigitChars_toDigits (by decide) (by decide)

theorem Scopes.builtin_lookup (b : Builtin) :
    Scopes.builtin.lookup b.name = some (.type b.name (.builtin b)) := by
  cases b <;> decide +kernel

theorem Scopes.builtin_types {name n : String} {t : Ty}
    (h : Scopes.builtin.lookup name = some (.type n t)) : t.IsValid := by
  obtain ⟨scope, hscope, hmem⟩ := Scopes.lookup_mem h
  obtain rfl : scope = predefined.reverse := by
    simpa [Scopes.builtin, Scopes.ofGlobals] using hscope
  obtain ⟨b, -, -, rfl⟩ : ∃ b ∈ Builtin.all, b.name = n ∧ Ty.builtin b = t := by
    simpa [predefined] using hmem
  trivial

theorem Scopes.builtin_predefinedType (b : Builtin) :
    Scopes.builtin.predefinedType b.name = .ok (.builtin b) := by
  cases b <;> decide +kernel

/-- The names of the builtin types stand for these types. -/
structure Scopes.NamesBuiltins (s : Scopes) : Prop where
  lookup : ∀ b : Builtin, ∃ name, s.lookup b.name = some (.type name (.builtin b))
  predefinedType : ∀ b : Builtin, s.predefinedType b.name = .ok (.builtin b)

theorem Scopes.builtin_namesBuiltins : Scopes.builtin.NamesBuiltins :=
  ⟨fun b => ⟨b.name, builtin_lookup b⟩, builtin_predefinedType⟩

/-- The same compilation, `n` tokens later. -/
def Compilation.later (n : Nat) (c : Compilation) : Compilation :=
  { c with taken := c.taken.map (· + n) }

theorem Compilation.like_later (c : Compilation) (n : Nat) : c.Like (c.later n) := ⟨rfl, rfl⟩

namespace Compile

variable {c d : Compilation} {pos : Position}

theorem take_runs (n : Nat) (c : Compilation) : take n c = .ok () (c.later n) := rfl

theorem require_runs {cond : Bool} {p : Problem} (h : cond = true) :
    require cond p pos c = .ok () c := require_eq_ok.2 ⟨h, rfl⟩

theorem typeOf_builtin (hs : c.scopes.NamesBuiltins) (b : Builtin) :
    typeOf ⟨b.name, pos⟩ c = .ok (.builtin b) c := by
  obtain ⟨name, hname⟩ := hs.lookup b
  rw [typeOf, bind_of_ok (lookup_eq_ok.2 ⟨rfl, rfl⟩), hname]
  rfl

theorem predefinedType_builtin (hs : c.scopes.NamesBuiltins) (b : Builtin) :
    predefinedType b c = .ok (.builtin b) c := by
  rw [predefinedType, bind_of_ok (get_eq_ok.2 ⟨rfl, rfl⟩), hs.predefinedType]
  rfl

theorem item_integer (hs : c.scopes.NamesBuiltins) {digits : String} {isLong : Bool} {b : Builtin}
    {n : Nat} (hb : (if isLong then .long else .int) = b)
    (hdigits : Const.ofDigits digits.toList = n) (hn : n < 2 ^ (8 * b.size)) :
    item (.integer pos digits isLong) c =
      .ok (.value (.const (.builtin b) n)) (c.later 1) := by
  have hfits : Const.reduce (.builtin b) n = n := Const.reduce_of_lt hn
  have htype : predefinedType b (c.later 1) = .ok (.builtin b) (c.later 1) :=
    predefinedType_builtin (c := c.later 1) hs b
  rw [item, bind_of_ok (take_runs 1 c), integer, hb, bind_assoc, bind_of_ok htype, hdigits,
    bind_assoc, bind_of_ok (require_runs (by rw [hfits]; exact beq_self_eq_true _))]
  rfl

theorem arrayCount_runs {t : Ty} {n : Nat} (hpos : 1 ≤ n) (hn : n ≤ Ty.countLimit) :
    arrayCount pos (.const t n) c = .ok n c := by
  have hrange : ((n : Int) != 0 && decide ((n : Int) ≤ Ty.countLimit)) = true := by
    simp only [Bool.and_eq_true, bne_iff_ne, decide_eq_true_eq]
    omega
  rw [arrayCount, bind_of_ok (require_runs hrange)]
  rfl

theorem item_const_nonneg {t : Ty} {k : Int} : ∀ {tree : Expr} {c d : Compilation},
    item tree c = .ok (.value (.const t k)) d → 0 ≤ k
  | .integer .., _, _, h => by
      obtain ⟨c₁, v, -, hv, heq⟩ := item_integer_ok h
      cases heq
      obtain ⟨u, -, -, heq, -⟩ := integer_ok hv
      cases heq
      exact Int.natCast_nonneg _
  | .char .., _, _, h => by
      obtain ⟨u, -, heq, -⟩ := item_char_ok h
      cases heq
      exact Int.natCast_nonneg _
  | .paren .., _, _, h => by
      obtain ⟨c₁, v, c₂, -, hv, -, heq⟩ := item_paren_ok h
      cases heq
      exact item_const_nonneg hv
  | .negate .., _, _, h => by
      obtain ⟨c₁, j, c₂, v, -, -, hv, heq⟩ := item_negate_ok h
      cases heq
      obtain ⟨u, -, -, ⟨s, n, -, hconst, -⟩ | ⟨-, b, hb, -⟩⟩ := negate_ok hv
      · cases hconst
        exact Const.reduce_nonneg _ _
      · obtain ⟨_, _, _, _, _, _, _, _, _, heq, _⟩ := Emit.negate_ok hb
        cases heq
  | .cast .., _, _, h => by
      obtain ⟨u, c₁, c₂, s, c₃, v, -, -, -, hv, heq⟩ := item_cast_ok h
      cases heq
      obtain ⟨-, -, ⟨s', n, -, hconst, -⟩ | ⟨hconst, b, hb, -⟩⟩ := cast_ok hv
      · cases hconst
        exact Const.reduce_nonneg _ _
      · cases convert_isConst hconst hb
  | .binary .., _, _, h => by
      obtain ⟨l, c₁, c₂, r, c₃, v, -, -, -, hv, heq⟩ := item_binary_ok h
      cases heq
      obtain ⟨-, ⟨lt, m, rt, n, _, _, -, -, hfold, hconst, -⟩ | ⟨-, b, hb, -⟩⟩ := binary_ok hv
      · cases hconst
        exact Const.fold_nonneg hfold
      · obtain ⟨_, _, heq⟩ := Emit.operate_eq_reg hb
        cases heq
  | .missing _, _, _, h => by cases item_const_foldable h
  | .name _, _, _, h => by cases item_const_foldable h
  | .call .., _, _, h => by cases item_const_foldable h
  | .element _, _, _, h => by cases item_const_foldable h
  | .assign .., _, _, h => by cases item_const_foldable h
  | .reference .., _, _, h => by cases item_const_foldable h

theorem type_isValid {t : Ty} : ∀ {tree : TypeExpr} {c d : Compilation},
    type tree c = .ok t d → c.scopes = .builtin → t.IsValid
  | .missing _, _, _, h, _ => (type_missing_ok h).elim
  | .named _, _, _, h, hs => by
      obtain ⟨⟨name, hname⟩, -⟩ := type_named_ok h
      exact Scopes.builtin_types (hs ▸ hname)
  | .pointer _, _, _, h, hs => by
      obtain ⟨s, c₁, hbase, -, rfl⟩ := type_pointer_ok h
      exact (type_isValid hbase hs : s.IsValid)
  | .array .., _, _, h, hs => by
      obtain ⟨s, c₁, c₂, u, k, c₃, hbase, -, hk, hzero, hmax, hsize, -, rfl⟩ := type_array_ok h
      have hnonneg := item_const_nonneg hk
      exact ⟨type_isValid hbase hs, by omega, by omega, hsize⟩
  | .stopped .., _, _, h, _ => (type_stopped_ok h).elim

end Compile

namespace Ty

def Denoted (t : Ty) (tree : TypeExpr) : Prop :=
  ∀ c : Compilation, c.scopes.NamesBuiltins → ∃ d, Compile.type tree c = .ok t d ∧ c.Like d

namespace Denoted

open Compile

variable {t : Ty} {tree : TypeExpr} {pos : Position}

theorem builtin (b : Builtin) : (Ty.builtin b).Denoted (.named ⟨b.name, pos⟩) := by
  intro c hs
  refine ⟨_, ?_, c.like_later 1⟩
  rw [type, bind_of_ok (typeOf_builtin hs b), bind_of_ok (take_runs 1 c)]
  rfl

theorem pointer (h : t.Denoted tree) : (Ty.pointer t).Denoted (.pointer tree) := by
  intro c hs
  obtain ⟨d, hbase, hlike⟩ := h c hs
  refine ⟨_, ?_, hlike.trans (d.like_later 1)⟩
  rw [type, bind_of_ok hbase, bind_of_ok (take_runs 1 d)]
  rfl

theorem array {count : Expr} {s : Ty} {n : Nat} (h : t.Denoted tree)
    (hcount : ∀ c : Compilation, c.scopes.NamesBuiltins →
      ∃ d, item count c = .ok (.value (.const s n)) d ∧ c.Like d)
    (hvalid : (Ty.array t n).IsValid) :
    (Ty.array t n).Denoted (.array tree pos count (.ok ())) := by
  intro c hs
  obtain ⟨-, hpos, hn, hsize⟩ := hvalid
  obtain ⟨d, hbase, hlike⟩ := h c hs
  have hs' : (d.later 1).scopes.NamesBuiltins := hlike.scopes ▸ hs
  obtain ⟨d', hitem, hlike'⟩ := hcount _ hs'
  refine ⟨d'.later 1, ?_, hlike.trans ((d.like_later 1).trans (hlike'.trans (d'.like_later 1)))⟩
  rw [type, bind_of_ok hbase, bind_of_ok (take_runs 1 d), bind_of_ok hitem, asValue, pure_bind,
    bind_of_ok (arrayCount_runs hpos hn), Compile.pass, bind_of_ok (take_runs 1 d'),
    bind_of_ok (require_runs (decide_eq_true hsize))]
  rfl

end Denoted

theorem tree_denoted (t : Ty) (ht : t.IsValid) : t.Denoted t.tree := by
  induction t with
  | builtin b => exact .builtin b
  | pointer base ih => exact (ih ht).pointer
  | array base count ih =>
      refine (ih ht.1).array (s := .builtin .int) (fun c hs => ⟨_, ?_, c.like_later 1⟩) ht
      exact Compile.item_integer hs rfl (Const.ofDigits_toString count)
        (Nat.lt_of_le_of_lt ht.2.2.1 (by decide))

end Ty

/-! ## Sessions -/

theorem Reader.type_spelled (t : Ty) :
    ∃ c tree d, Cursor.start (.ofText t.spelling.toList) = .ok c ∧
      Reader.type (budget c) c = .done tree d ∧ tree.Alike (.unplaced true) t.tree ∧
      d.kind = .eof := by
  have hlexes : Lexes (t.spelling.toList ++ []) (t.tree.spelling (fun _ => false) ++ []) :=
    t.lexes nofun .nil
  rw [List.append_nil, List.append_nil] at hlexes
  obtain ⟨c, hstart, hc⟩ := start_of_lexemes? hlexes.lexemes?
  have hloose : (Likeness.unplaced true).Loose := ⟨Likeness.unplaced_pos, rfl⟩
  have hbudget := hc.mul_length_le_budget
  have hpos : 0 < (t.tree.spelling (fun _ => false) ++ [Lexeme.eof]).length := by simp
  obtain ⟨fuel, tree, d, hread, htree, hd, hfuel⟩ :=
    t.tree.reads hloose (fun _ => false) t.tree_isTerm (budget c) hc (by omega)
  have heof : d.kind = .eof := hd.head_kind
  refine ⟨c, tree, d, hstart, ?_, htree, heof⟩
  rw [hread, suffixes_done (by omega)]
  rw [heof]
  exact .of_binaryOp? rfl nofun rfl

/-- Types and their spelling: reading the spelling of a valid type gives the type back and ends
with the text, and whatever type a session reads with the builtin scopes, in whatever text, is
valid and as large as its counts and its unit say. -/
theorem type_spelling_round_trip :
    (∀ t : Ty, t.IsValid → ∃ s s', Session.start t.spelling.toList = .ok s ∧
      Session.type s = .ok t s' ∧ s'.cursor.kind = .eof) ∧
    ∀ (s s' : Session) (t : Ty), s.compilation.scopes = .builtin → Session.type s = .ok t s' →
      t.IsValid ∧ t.size = t.counts.prod * t.unit.size := by
  constructor
  · intro t ht
    obtain ⟨c, tree, d, hstart, hread, htree, heof⟩ := Reader.type_spelled t
    let s : Session := ⟨c, { scopes := .builtin }⟩
    obtain ⟨e, he, -⟩ := t.tree_denoted ht s.compilation Scopes.builtin_namesBuiltins
    have htype : ∃ e', Compile.type tree s.compilation = .ok t e' := by
      have htallies := Compile.type_concurs Compile.unplaced_pos htree #[] _ _ (.refl s.compilation)
      rw [he] at htallies
      generalize Compile.type tree s.compilation = r at htallies ⊢
      cases htallies with
      | ok h => exact ⟨_, rfl⟩
    obtain ⟨e', he'⟩ := htype
    refine ⟨s, ⟨d, e'⟩, ?_, ?_, heof⟩
    · rw [Session.start, hstart]
      rfl
    · simp only [Session.type, Session.phrase, s, hread]
      rw [show (Outcome.done tree d).tree = tree from rfl, he']
      rfl
  · intro s s' t hs h
    refine ⟨?_, t.size_eq_counts_prod⟩
    simp only [Session.type, Session.phrase] at h
    split at h
    · next t' d htype =>
      cases h
      exact Compile.type_isValid htype hs
    · cases h

theorem type_spelling_round_trip_nested :
    ∃ s s' t, Session.start "Long[3]*[7][2]".toList = .ok s ∧ Session.type s = .ok t s' ∧
      s'.cursor.kind = .eof ∧ t.IsValid ∧ t.size = 2 * 7 * 8 := by
  obtain ⟨hread, hvalid⟩ := type_spelling_round_trip
  let t : Ty := .array (.array (.pointer (.array (.builtin .long) 3)) 7) 2
  obtain ⟨s, s', hstart, htype, heof⟩ := hread t (by decide)
  have hs : s.compilation.scopes = .builtin := by
    rw [Session.start] at hstart
    cases hcursor : Cursor.start (.ofText t.spelling.toList) with
    | error e => rw [hcursor] at hstart; cases hstart
    | ok c => rw [hcursor] at hstart; cases hstart; rfl
  obtain ⟨ht, hsize⟩ := hvalid s s' t hs htype
  exact ⟨s, s', t, hstart, htype, heof, ht, hsize⟩

end Tern
