import Tern.Proofs.Compile.TypeSpelling

/-!
# Constant expressions

An expression of literals, negations, casts and binary operators has a type and, unless it
divides by zero, a value, and both are said here without reading or compiling anything.  Every
spelling whose parentheses keep the parts of the expression together compiles to that constant.
-/

namespace Tern

/-! ## Values -/

inductive ConstExpr where
  | int (n : Nat)
  | long (n : Nat)
  | char (value : Char)
  | negate (operand : ConstExpr)
  | cast (operand : ConstExpr) (t : Ty)
  | binary (op : BinaryOp) (lhs rhs : ConstExpr)

namespace ConstExpr

variable {e : ConstExpr}

/-- A binary operation has the type of its wider operand, or of the left one if both are equally
wide. -/
def type : ConstExpr → Ty
  | int _ => .builtin .int
  | long _ => .builtin .long
  | char _ => .builtin .char
  | negate operand => operand.type
  | cast _ t => t
  | binary _ lhs rhs => lhs.type.wider rhs.type

/-- The value, in unsigned arithmetic of the size of each part's type, or nothing if some part
divides by zero. -/
def value? : ConstExpr → Option Nat
  | int n | long n => some n
  | char value => some value.toNat
  | negate operand =>
      operand.value?.map fun n => (2 ^ (8 * operand.type.size) - n) % 2 ^ (8 * operand.type.size)
  | cast operand t => operand.value?.map (· % 2 ^ (8 * t.size))
  | binary op lhs rhs =>
      lhs.value?.bind fun x => rhs.value?.bind (op.result? (lhs.type.wider rhs.type).size x)

/-- Literals are in range, only numbers are negated, nothing is cast to an array, and operands fit
their operators. -/
def WellTyped : ConstExpr → Prop
  | int n => n < 2 ^ 32
  | long n => n < 2 ^ 64
  | char value => value.toNat < 2 ^ 8
  | negate operand => operand.WellTyped ∧ operand.type.isBuiltin = true
  | cast operand t => operand.WellTyped ∧ t.isArray = false ∧ t.IsValid
  | binary op lhs rhs =>
      lhs.WellTyped ∧ rhs.WellTyped ∧ lhs.type.admitsWith op rhs.type = true

def decWellTyped : (e : ConstExpr) → Decidable e.WellTyped
  | int _ | long _ | char _ => Nat.decLt _ _
  | negate operand => @instDecidableAnd _ _ operand.decWellTyped inferInstance
  | cast operand _ => @instDecidableAnd _ _ operand.decWellTyped inferInstance
  | binary _ lhs rhs =>
      @instDecidableAnd _ _ lhs.decWellTyped
        (@instDecidableAnd _ _ rhs.decWellTyped inferInstance)

instance : DecidablePred WellTyped := decWellTyped

theorem type_isArray (h : e.WellTyped) : e.type.isArray = false := by
  induction e with
  | int | long | char => rfl
  | negate operand ih => exact ih h.1
  | cast operand t => exact h.2.1
  | binary op lhs rhs ihl ihr =>
      rw [type, Ty.wider]
      split
      · exact ihr h.2.1
      · exact ihl h.1

theorem value?_lt {n : Nat} (h : e.WellTyped) (hn : e.value? = some n) :
    n < 2 ^ (8 * e.type.size) := by
  induction e generalizing n with
  | int m | long m | char m =>
      cases hn
      exact h
  | negate operand =>
      obtain ⟨m, -, rfl⟩ := Option.map_eq_some_iff.1 hn
      exact Nat.mod_lt _ (Nat.two_pow_pos _)
  | cast operand t =>
      obtain ⟨m, -, rfl⟩ := Option.map_eq_some_iff.1 hn
      exact Nat.mod_lt _ (Nat.two_pow_pos _)
  | binary op lhs rhs ihl =>
      obtain ⟨x, hx, hn⟩ := Option.bind_eq_some_iff.1 hn
      obtain ⟨y, -, hn⟩ := Option.bind_eq_some_iff.1 hn
      exact BinaryOp.result?_lt (Const.lt_wider_left _ (ihl h.1 hx)) hn

end ConstExpr

/-! ## Compiling -/

namespace Compile

variable {α β : Type} {c d : Compilation}

def DividesByZero (x : Compile α) (c : Compilation) : Prop :=
  ∃ pos d, x c = .error (.problem ⟨.divisionByZero, pos⟩) d

theorem DividesByZero.bind {x : Compile α} (h : DividesByZero x c) (f : α → Compile β) :
    DividesByZero (x >>= f) c := by
  obtain ⟨pos, d, hx⟩ := h
  exact ⟨pos, d, bind_eq_error.2 (.inl hx)⟩

theorem DividesByZero.of_bind {x : Compile α} {v : α} {f : α → Compile β} (hx : x c = .ok v d)
    (h : DividesByZero (f v) d) : DividesByZero (x >>= f) c := by
  unfold DividesByZero
  rw [bind_of_ok hx]
  exact h

/-! One lemma for each operation on constants. -/

variable {pos : Position} {s t lt rt : Ty} {n x y : Nat}

theorem negate_const (ht : t.isBuiltin = true) (hn : n < 2 ^ (8 * t.size)) :
    negate pos (.value (.const t n)) c =
      .ok (.const t ((2 ^ (8 * t.size) - n) % 2 ^ (8 * t.size) : Nat)) c := by
  have hnumber : (Value.const t n).type.isBuiltin = true := ht
  rw [negate, asValue, pure_bind, bind_of_ok (require_runs hnumber),
    ← Const.reduce_neg (Nat.le_of_lt hn)]
  rfl

theorem cast_const (hs : s.isArray = false) (ht : t.isArray = false) :
    cast pos (.const s n) t c = .ok (.const t (n % 2 ^ (8 * t.size) : Nat)) c := by
  have hscalars : (!t.isArray && !(Value.const s n).type.isArray) = true := by
    rw [ht]
    exact congrArg (! ·) hs
  rw [cast, bind_of_ok (require_runs hscalars), ← Const.reduce_natCast]
  rfl

theorem binary_const {op : BinaryOp} (pos : Position) (h : lt.admitsWith op rt = true)
    (hx : x < 2 ^ (8 * lt.size)) (hy : y < 2 ^ (8 * rt.size)) :
    binary op pos (.const lt x) (.const rt y) c =
      match op.result? (lt.wider rt).size x y with
      | some n => .ok (.const (lt.wider rt) n) c
      | none => .error (.problem ⟨.divisionByZero, pos⟩) c := by
  have hleft : (Value.const lt x).type.admits op = true := (Bool.and_eq_true _ _ ▸ h).1
  have hboth : (Value.const lt x).type.admitsWith op (Value.const rt y).type = true := h
  rw [binary, bind_of_ok (require_runs hleft), bind_of_ok (require_runs hboth)]
  simp only [Const.fold_eq op hx hy]
  cases op.result? (lt.wider rt).size x y with
  | some n => rfl
  | none => rfl

end Compile

open Compile

/-- Compiling the tree gives the constant that the expression denotes. -/
structure ConstExpr.Evaluates (e : ConstExpr) (tree : Expr) : Prop where
  value : ∀ {c : Compilation} {n : Nat}, c.scopes.NamesBuiltins → e.value? = some n →
    ∃ d, item tree c = .ok (.value (.const e.type n)) d ∧ c.Like d
  zero : ∀ {c : Compilation}, c.scopes.NamesBuiltins → e.value? = none →
    DividesByZero (item tree) c

namespace ConstExpr.Evaluates

variable {e l r : ConstExpr} {t u : Expr} {pos : Position}

theorem integer {digits : String} {isLong : Bool} {b : Builtin} {n : Nat}
    (hb : (if isLong then .long else .int) = b) (hdigits : Const.ofDigits digits.toList = n)
    (hn : n < 2 ^ (8 * b.size)) (htype : e.type = .builtin b) (hvalue : e.value? = some n) :
    e.Evaluates (.integer pos digits isLong) where
  value {c m} hs hm := by
    obtain rfl := Option.some.inj (hvalue.symm.trans hm)
    rw [htype]
    exact ⟨_, item_integer hs hb hdigits hn, c.like_later 1⟩
  zero hs hnone := by
    rw [hvalue] at hnone
    cases hnone

theorem char (value : Char) : (ConstExpr.char value).Evaluates (.char pos value) where
  value {c m} hs hm := by
    obtain rfl := Option.some.inj hm
    have htype : predefinedType .char (c.later 1) = .ok (.builtin .char) (c.later 1) :=
      predefinedType_builtin (c := c.later 1) hs .char
    refine ⟨_, ?_, c.like_later 1⟩
    rw [item, bind_of_ok (take_runs 1 c), bind_of_ok htype]
    rfl
  zero _ hnone := by cases hnone

theorem paren (h : e.Evaluates t) : e.Evaluates (.paren pos t (.ok ())) where
  value {c n} hs hn := by
    obtain ⟨d, hitem, hlike⟩ := h.value (c := c.later 1) hs hn
    refine ⟨d.later 1, ?_, (c.like_later 1).trans (hlike.trans (d.like_later 1))⟩
    rw [item, bind_of_ok (take_runs 1 c), bind_of_ok hitem, asValue, pure_bind, Compile.pass,
      bind_of_ok (take_runs 1 d)]
    rfl
  zero {c} hs hnone := by
    rw [item]
    exact .of_bind (take_runs 1 c) ((h.zero (c := c.later 1) hs hnone).bind _)

theorem negate (h : e.Evaluates t) (he : e.WellTyped) (hbuiltin : e.type.isBuiltin = true) :
    (ConstExpr.negate e).Evaluates (.negate pos t) where
  value {c n} hs hn := by
    obtain ⟨m, hm, rfl⟩ := Option.map_eq_some_iff.1 hn
    obtain ⟨d, hitem, hlike⟩ := h.value (c := c.later 1) hs hm
    refine ⟨d, ?_, (c.like_later 1).trans hlike⟩
    rw [item, bind_of_ok (take_runs 1 c), bind_of_ok hitem,
      bind_of_ok (negate_const hbuiltin (value?_lt he hm))]
    rfl
  zero {c} hs hnone := by
    rw [item]
    exact .of_bind (take_runs 1 c)
      ((h.zero (c := c.later 1) hs (Option.map_eq_none_iff.1 hnone)).bind _)

theorem cast {s : Ty} {tree : TypeExpr} (h : e.Evaluates t) (hs : s.Denoted tree)
    (he : e.type.isArray = false) (harray : s.isArray = false) :
    (ConstExpr.cast e s).Evaluates (.cast t pos tree) where
  value {c n} hc hn := by
    obtain ⟨m, hm, rfl⟩ := Option.map_eq_some_iff.1 hn
    obtain ⟨d, hitem, hlike⟩ := h.value hc hm
    obtain ⟨d', htype, hlike'⟩ := hs (d.later 1) (hlike.scopes ▸ hc)
    refine ⟨d', ?_, hlike.trans ((d.like_later 1).trans hlike')⟩
    rw [item, bind_of_ok hitem, asValue, pure_bind, bind_of_ok (take_runs 1 d), bind_of_ok htype,
      bind_of_ok (cast_const he harray)]
    rfl
  zero {c} hc hnone := by
    rw [item]
    exact (h.zero hc (Option.map_eq_none_iff.1 hnone)).bind _

theorem binary {op : BinaryOp} (hl : l.Evaluates t) (hr : r.Evaluates u)
    (h : (ConstExpr.binary op l r).WellTyped) :
    (ConstExpr.binary op l r).Evaluates (.binary op pos t u) where
  value {c n} hs hn := by
    obtain ⟨hwl, hwr, hadmits⟩ := h
    obtain ⟨x, hx, hn⟩ := Option.bind_eq_some_iff.1 hn
    obtain ⟨y, hy, hn⟩ := Option.bind_eq_some_iff.1 hn
    obtain ⟨d, hitem, hlike⟩ := hl.value hs hx
    obtain ⟨d', hitem', hlike'⟩ := hr.value (c := d.later 1) (hlike.scopes ▸ hs) hy
    refine ⟨d', ?_, hlike.trans ((d.like_later 1).trans hlike')⟩
    have hbinary := binary_const (c := d') pos hadmits (value?_lt hwl hx) (value?_lt hwr hy)
    rw [hn] at hbinary
    rw [item, bind_of_ok hitem, asValue, pure_bind, bind_of_ok (take_runs 1 d), bind_of_ok hitem',
      asValue, pure_bind, bind_of_ok hbinary]
    rfl
  zero {c} hs hnone := by
    obtain ⟨hwl, hwr, hadmits⟩ := h
    rw [item]
    cases hx : l.value? with
    | none => exact (hl.zero hs hx).bind _
    | some x =>
        obtain ⟨d, hitem, hlike⟩ := hl.value hs hx
        have hs' : (d.later 1).scopes.NamesBuiltins := hlike.scopes ▸ hs
        refine .of_bind hitem ?_
        rw [asValue, pure_bind]
        refine .of_bind (take_runs 1 d) ?_
        cases hy : r.value? with
        | none => exact (hr.zero hs' hy).bind _
        | some y =>
            obtain ⟨d', hitem', hlike'⟩ := hr.value hs' hy
            have hresult : op.result? (l.type.wider r.type).size x y = none := by
              rw [value?, hx, hy] at hnone
              exact hnone
            have hbinary :=
              binary_const (c := d') pos hadmits (value?_lt hwl hx) (value?_lt hwr hy)
            rw [hresult] at hbinary
            refine .of_bind hitem' ?_
            rw [asValue, pure_bind]
            exact .bind ⟨pos, d', hbinary⟩ _

end ConstExpr.Evaluates

/-! ## Spelling -/

/-- The digits denote `n`, perhaps behind zeros. -/
def IsNumeral (n : Nat) (digits : String) : Prop :=
  ∃ zeros, digits.toList = List.replicate zeros '0' ++ Nat.toDigits 10 n

theorem Const.ofDigits_zeros (zeros : Nat) (digits : List Char) :
    ofDigits (List.replicate zeros '0' ++ digits) = ofDigits digits := by
  induction zeros with
  | zero => rfl
  | succ zeros ih => exact ih

theorem IsNumeral.ofDigits {n : Nat} {digits : String} (h : IsNumeral n digits) :
    Const.ofDigits digits.toList = n := by
  obtain ⟨zeros, hzeros⟩ := h
  rw [hzeros, Const.ofDigits_zeros]
  exact Nat.ofDigitChars_ten_toDigits

theorem IsNumeral.toString (n : Nat) : IsNumeral n (toString n) := by
  refine ⟨0, ?_⟩
  rw [Nat.toString_eq_ofList_toDigits, String.toList_ofList]
  rfl

/-- The last lexeme belongs to a type, which a `*` or `[` would go on with. -/
def endsInType (ls : List Lexeme) : Bool :=
  match ls.getLast? with
  | some (.identifier _) | some (.symbol .star) | some (.symbol .rbracket) => true
  | _ => false

theorem endsInType_append (ls : List Lexeme) {rs : List Lexeme} (h : endsInType rs = true) :
    endsInType (ls ++ rs) = true := by
  have hne : rs ≠ [] := by
    rintro rfl
    cases h
  rw [endsInType, List.getLast?_append_of_ne_nil _ hne]
  exact h

theorem endsInType_paren (ls : List Lexeme) :
    endsInType (.symbol .lparen :: (ls ++ [.symbol .rparen])) = false := by
  simp [endsInType, List.getLast?_cons]

/-- What is spelled: an expression that holds together as tightly as `k`, or a type. -/
inductive ConstPhrase where
  | expr (k : Nat) (e : ConstExpr)
  | type (t : Ty)

/-- The lexemes spell the phrase.  Literals, negations and parentheses hold together most tightly,
at 4, a cast at 3, and a binary operation as its operator does.  What holds together more tightly
than needed is welcome everywhere; only a cast must not stand to the left of a `*`, which would
belong to its type. -/
inductive ConstPhrase.Spelling : ConstPhrase → List Lexeme → Prop where
  | int {n : Nat} {digits : String} (h : IsNumeral n digits) :
      Spelling (.expr 4 (.int n)) [.integer digits none]
  | long {n : Nat} {digits : String} {suffix : Char} (h : IsNumeral n digits) :
      Spelling (.expr 4 (.long n)) [.integer digits (some suffix)]
  | char (value : Char) : Spelling (.expr 4 (.char value)) [.char value]
  | paren {e : ConstExpr} {ls : List Lexeme} (h : Spelling (.expr 0 e) ls) :
      Spelling (.expr 4 e) (.symbol .lparen :: (ls ++ [.symbol .rparen]))
  | negate {e : ConstExpr} {ls : List Lexeme} (h : Spelling (.expr 4 e) ls) :
      Spelling (.expr 4 (.negate e)) (.symbol .minus :: ls)
  | cast {e : ConstExpr} {t : Ty} {ls rs : List Lexeme} (he : Spelling (.expr 4 e) ls)
      (ht : Spelling (.type t) rs) :
      Spelling (.expr 3 (.cast e t)) (ls ++ .keyword .asWord :: rs)
  | binary (op : BinaryOp) {l r : ConstExpr} {ls rs : List Lexeme}
      (hl : Spelling (.expr op.level l) ls) (hr : Spelling (.expr (op.level + 1) r) rs)
      (hmul : op = .mul → endsInType ls = false) :
      Spelling (.expr op.level (.binary op l r)) (ls ++ .symbol op.symbol :: rs)
  | looser {j k : Nat} {e : ConstExpr} {ls : List Lexeme} (h : Spelling (.expr k e) ls)
      (hk : j ≤ k) : Spelling (.expr j e) ls
  | builtin (b : Builtin) : Spelling (.type (.builtin b)) [.identifier b.name]
  | pointer {t : Ty} {ls : List Lexeme} (h : Spelling (.type t) ls) :
      Spelling (.type (.pointer t)) (ls ++ [.symbol .star])
  | array {t : Ty} {e : ConstExpr} {n : Nat} {ls rs : List Lexeme} (h : Spelling (.type t) ls)
      (he : Spelling (.expr 0 e) rs) (hwell : e.WellTyped) (hn : e.value? = some n) :
      Spelling (.type (.array t n)) (ls ++ .symbol .lbracket :: (rs ++ [.symbol .rbracket]))

theorem Ty.exists_spelling (t : Ty) (ht : t.IsValid) : ∃ ls, (ConstPhrase.type t).Spelling ls := by
  induction t with
  | builtin b => exact ⟨_, .builtin b⟩
  | pointer base ih =>
      obtain ⟨ls, hls⟩ := ih ht
      exact ⟨_, .pointer hls⟩
  | array base count ih =>
      obtain ⟨ls, hls⟩ := ih ht.1
      have hcount : (ConstPhrase.expr 4 (.int count)).Spelling _ := .int (.toString count)
      have hwell : (ConstExpr.int count).WellTyped := Nat.lt_of_le_of_lt ht.2.2.1 (by decide)
      exact ⟨_, .array hls (.looser hcount (by decide)) hwell rfl⟩

/-- With parentheses around every operation, every expression can be spelled. -/
theorem ConstExpr.exists_spelling (e : ConstExpr) (he : e.WellTyped) :
    ∃ ls, (ConstPhrase.expr 4 e).Spelling ls ∧ endsInType ls = false := by
  induction e with
  | int n => exact ⟨_, .int (.toString n), rfl⟩
  | long n => exact ⟨[.integer (toString n) (some 'L')], .long (.toString n), rfl⟩
  | char value => exact ⟨_, .char value, rfl⟩
  | negate operand ih =>
      obtain ⟨ls, hls, -⟩ := ih he.1
      exact ⟨_, .paren (.looser (.negate hls) (Nat.zero_le 4)), endsInType_paren _⟩
  | cast operand t ih =>
      obtain ⟨ls, hls, -⟩ := ih he.1
      obtain ⟨rs, hrs⟩ := t.exists_spelling he.2.2
      exact ⟨_, .paren (.looser (.cast hls hrs) (Nat.zero_le 3)), endsInType_paren _⟩
  | binary op lhs rhs ihl ihr =>
      obtain ⟨ls, hls, hends⟩ := ihl he.1
      obtain ⟨rs, hrs, -⟩ := ihr he.2.1
      have hlevel := op.level_lt
      have hbinary : (ConstPhrase.expr op.level (.binary op lhs rhs)).Spelling _ :=
        .binary op (.looser hls (by omega)) (.looser hrs (by omega)) fun _ => hends
      exact ⟨_, .paren (.looser hbinary (Nat.zero_le _)), endsInType_paren _⟩

/-- Such a token takes nothing away from a constant expression that is spelled by `ls` and holds
together as tightly as `k`. -/
structure Kind.Leaves (k : Nat) (ls : List Lexeme) (kind : Kind) : Prop where
  cast : kind ≠ .keyword .asWord
  operator : ∀ op, kind.binaryOp? = some op → op.level ≤ k
  suffix : endsInType ls = true → kind ≠ .symbol .lbracket ∧ kind ≠ .symbol .star

namespace Kind.Leaves

variable {j k : Nat} {ls rs : List Lexeme} {kind : Kind}

theorem mono (h : kind.Leaves j ls) (hk : j ≤ k) : kind.Leaves k ls :=
  ⟨h.cast, fun op hop => Nat.le_trans (h.operator op hop) hk, h.suffix⟩

theorem of_append_cons {l : Lexeme} (h : kind.Leaves k (ls ++ l :: rs)) : kind.Leaves k rs :=
  ⟨h.cast, h.operator, fun hrs => h.suffix (endsInType_append ls (endsInType_append [l] hrs))⟩

theorem closer {x : Symbol} (hx : x = .rparen ∨ x = .rbracket) : (Kind.symbol x).Leaves k ls := by
  rcases hx with rfl | rfl <;> exact ⟨nofun, nofun, fun _ => ⟨nofun, nofun⟩⟩

theorem symbol {op : BinaryOp} (hmul : op = .mul → endsInType ls = false) :
    (Kind.symbol op.symbol).Leaves op.level ls where
  cast := nofun
  operator op' hop := by
    obtain rfl : op = op' := Option.some.inj (op.binaryOp?_symbol.symm.trans hop)
    exact Nat.le_refl _
  suffix hls := by
    refine ⟨by cases op <;> nofun, fun hstar => ?_⟩
    obtain rfl : op = .mul := by cases op <;> cases hstar; rfl
    rw [hmul rfl] at hls
    cases hls

end Kind.Leaves

/-! ## Reading -/

open Reader

/-- The lexemes are read as a tree that compiles to what the phrase denotes. -/
def ConstPhrase.IsRead : ConstPhrase → List Lexeme → Prop
  | expr k e, ls =>
      e.WellTyped → TakesExpr e.Evaluates (Kind.Leaves k ls) k ls ∧
        (4 ≤ k → TakesOperand e.Evaluates (fun _ => True) ls)
  | type t, ls => t.IsValid → TakesType t.Denoted ls ∧ endsInType ls = true

/-- An operand is read as such whatever follows, and also where an expression is wanted. -/
theorem ConstPhrase.isRead_of_operand {k : Nat} {e : ConstExpr} {ls : List Lexeme}
    (h : e.WellTyped → TakesOperand e.Evaluates (fun _ => True) ls) : (expr k e).IsRead ls :=
  fun he => ⟨(h he).expr fun _ hl => ⟨trivial, hl.cast⟩, fun _ => h he⟩

/-- By induction along the spelling: what a phrase is read as follows from what its parts are read
as, in front of the lexemes that follow them there. -/
theorem ConstPhrase.Spelling.isRead {p : ConstPhrase} {ls : List Lexeme} (h : p.Spelling ls) :
    p.IsRead ls := by
  induction h with
  | @int n digits hdigits =>
      refine isRead_of_operand fun he => .literal (fun pos => .integer pos digits false) nofun ?_
        fun pos => .integer rfl hdigits.ofDigits he rfl rfl
      intro fuel c hlexeme
      rw [operand, hlexeme]
      rfl
  | @long n digits suffix hdigits =>
      refine isRead_of_operand fun he => .literal (fun pos => .integer pos digits true) nofun ?_
        fun pos => .integer rfl hdigits.ofDigits he rfl rfl
      intro fuel c hlexeme
      rw [operand, hlexeme]
      rfl
  | char value =>
      refine isRead_of_operand fun he => .literal (fun pos => .char pos value) nofun ?_
        fun pos => .char value
      intro fuel c hlexeme
      rw [operand, hlexeme]
  | paren h ih =>
      exact isRead_of_operand fun he => (ih he).1.enclosed (.closer (.inl rfl)) .paren
  | negate h ih =>
      refine isRead_of_operand fun he => ((ih he.1).2 (Nat.le_refl 4)).unary .negate ?_
        fun ht => .negate ht he.1 he.2
      intro fuel c hlexeme
      rw [operand, hlexeme]
  | cast he ht ihe iht =>
      rintro ⟨hwell, harray, hvalid⟩
      obtain ⟨htype, hends⟩ := iht hvalid
      refine ⟨((ihe hwell).2 (Nat.le_refl 4)).cast htype trivial ?_
        (fun hu ht => .cast hu ht (ConstExpr.type_isArray hwell) harray),
        fun h => absurd h (by decide)⟩
      intro kind hkind
      exact hkind.suffix (endsInType_append _ (endsInType_append [_] hends))
  | binary op hl hr hmul ihl ihr =>
      intro hwell
      have hlevel := op.level_lt
      have hleaves : (Kind.symbol op.symbol).Leaves op.level _ := .symbol hmul
      rw [← op.precedence_eq_level] at ihl ihr hlevel hleaves ⊢
      refine ⟨(ihl hwell.1).1.binary op.binaryOp?_symbol (ihr hwell.2.1).1 hleaves ?_
        (fun kind op' hkind hop => op'.precedence_eq_level ▸ hkind.operator op' hop)
        fun ht hu => .binary ht hu hwell, fun h => absurd h (by omega)⟩
      intro kind hkind
      exact hkind.of_append_cons.mono (Nat.le_succ _)
  | looser h hk ih =>
      exact fun he => ⟨(ih he).1.mono hk fun kind hkind => hkind.mono hk,
        fun hj => (ih he).2 (Nat.le_trans hj hk)⟩
  | builtin b => exact fun _ => ⟨.named fun pos => .builtin b, rfl⟩
  | pointer h ih =>
      exact fun hvalid => ⟨(ih hvalid).1.pointer fun ht => ht.pointer, endsInType_append _ rfl⟩
  | @array t e n ls rs h he hwell hn ih ihe =>
      intro hvalid
      refine ⟨(ih hvalid.1).1.array (ihe hwell).1 (.closer (.inr rfl)) fun ht hu =>
        ht.array (fun c hs => hu.value hs hn) hvalid, endsInType_append ls ?_⟩
      exact endsInType_append (_ :: rs) rfl

/-! ## Sessions -/

/-- Constant expressions evaluate.  Every expression whose parts fit together can be spelled.
Wherever a session stands in front of a spelling of it that no operator, cast or suffix behind it
goes on with, reading an expression gives the constant of its type and value and ends behind the
spelling, with nothing declared and nothing emitted; if the expression has no value, the
compilation fails with a division by zero. -/
theorem constant_expressions_evaluate (e : ConstExpr) (he : e.WellTyped) :
    (∃ ls, (ConstPhrase.expr 4 e).Spelling ls) ∧
    ∀ (minPrec : Nat) (ls rest : List Lexeme) (stop : Lexeme) (s : Session),
      (ConstPhrase.expr minPrec e).Spelling ls → s.cursor.Spells id (ls ++ stop :: rest) →
      stop.kind.Leaves minPrec ls →
      (∀ op, stop.kind.binaryOp? = some op → op.level < minPrec) →
      s.compilation.scopes.NamesBuiltins →
      (∀ n, e.value? = some n → ∃ s', Session.expr minPrec s = .ok (.const e.type n) s' ∧
        s'.cursor.Spells id (stop :: rest) ∧ s.compilation.Like s'.compilation) ∧
      (e.value? = none → ∃ f s', Session.expr minPrec s = .error f s' ∧
        ∀ file, (Diagnostic.ofFailure file f).code.text = "TERN301" ∧
          (Diagnostic.ofFailure file f).message = "Division by zero in constant expression.") := by
  obtain ⟨ls, hls, -⟩ := e.exists_spelling he
  refine ⟨⟨ls, hls⟩, ?_⟩
  intro minPrec ls rest stop s hls hcursor hleaves hop hscopes
  have hbudget := hcursor.mul_length_le_budget
  have hpos : 0 < (ls ++ stop :: rest).length := by simp
  obtain ⟨tree, d, hread, htree, hd⟩ :=
    (hls.isRead he).1.done (budget s.cursor) hcursor (Nat.le_refl _) hleaves
      (fun op h => op.precedence_eq_level ▸ hop op h) (by omega)
  have houtcome : (Reader.expr (budget s.cursor) minPrec s.cursor).tree = tree := by
    rw [hread]
    rfl
  constructor
  · intro n hn
    obtain ⟨c, hitem, hlike⟩ :=
      htree.value (c := { s.compilation with taken := some 0 }) hscopes hn
    refine ⟨⟨d, c⟩, ?_, hd, hlike.scopes, hlike.assembly⟩
    simp only [Session.expr, Session.phrase, houtcome, Compile.value, bind_of_ok hitem, asValue]
    rw [hread]
    rfl
  · intro hnone
    obtain ⟨pos, c, herror⟩ :=
      (htree.zero (c := { s.compilation with taken := some 0 }) hscopes hnone).bind
        (asValue tree.start)
    have hfails : ∃ s', Session.expr minPrec s = .error (.problem ⟨.divisionByZero, pos⟩) s' := by
      simp only [Session.expr, Session.phrase, houtcome, Compile.value, herror]
      exact ⟨_, rfl⟩
    obtain ⟨s', hs'⟩ := hfails
    exact ⟨_, s', hs', fun file => ⟨rfl, rfl⟩⟩

theorem Session.start_of_lexemes? {text : List Char} {ls : List Lexeme}
    (h : lexemes? text = some ls) : ∃ s, Session.start text = .ok s ∧
      s.cursor.Spells id (ls ++ [.eof]) ∧ s.compilation.scopes.NamesBuiltins := by
  obtain ⟨c, hstart, hc⟩ := Tern.start_of_lexemes? h
  refine ⟨⟨c, { scopes := .builtin }⟩, ?_, hc, Scopes.builtin_namesBuiltins⟩
  rw [Session.start, hstart]
  rfl

/-- Shifts bind weakest, a cast needs its parentheses, and numbers may start with zeros. -/
def shiftedText : List Char := "-(0300 as Byte) * 2L << 'a' - 07".toList

def shiftedExpr : ConstExpr :=
  .binary .shl (.binary .mul (.negate (.cast (.int 300) (.builtin .byte))) (.long 2))
    (.binary .sub (.char 'a') (.int 7))

def shiftedLexemes : List Lexeme :=
  [.symbol .minus, .symbol .lparen, .integer "0300" none, .keyword .asWord, .identifier "Byte",
    .symbol .rparen, .symbol .star, .integer "2" (some 'L'), .symbol .shl, .char 'a',
    .symbol .minus, .integer "07" none]

def zeroText : List Char := "1 / (256 as Byte)".toList

def zeroExpr : ConstExpr := .binary .div (.int 1) (.cast (.int 256) (.builtin .byte))

def zeroLexemes : List Lexeme :=
  [.integer "1" none, .symbol .slash, .symbol .lparen, .integer "256" none, .keyword .asWord,
    .identifier "Byte", .symbol .rparen]

theorem byte_spelling {n : Nat} {digits : String} (h : IsNumeral n digits) :
    (ConstPhrase.expr 4 (.cast (.int n) (.builtin .byte))).Spelling
      [.symbol .lparen, .integer digits none, .keyword .asWord, .identifier "Byte",
        .symbol .rparen] :=
  .paren (.looser (.cast (.int h) (.builtin .byte)) (Nat.zero_le 3))

theorem shifted_spelling : (ConstPhrase.expr 0 shiftedExpr).Spelling shiftedLexemes := by
  have hbyte := byte_spelling (show IsNumeral 300 "0300" from ⟨1, rfl⟩)
  have hlong : (ConstPhrase.expr 4 (.long 2)).Spelling [.integer "2" (some 'L')] := .long ⟨0, rfl⟩
  have hint : (ConstPhrase.expr 4 (.int 7)).Spelling [.integer "07" none] := .int ⟨1, rfl⟩
  have hmul := ConstPhrase.Spelling.binary .mul (.looser hbyte.negate (by decide))
    (.looser hlong (by decide)) fun _ => rfl
  have hsub := ConstPhrase.Spelling.binary .sub (.looser (.char 'a') (by decide))
    (.looser hint (by decide)) nofun
  exact .binary .shl (.looser hmul (by decide)) (.looser hsub (by decide)) nofun

theorem zero_spelling : (ConstPhrase.expr 0 zeroExpr).Spelling zeroLexemes := by
  have hbyte := byte_spelling (show IsNumeral 256 "256" from ⟨0, rfl⟩)
  have hone : (ConstPhrase.expr 4 (.int 1)).Spelling [.integer "1" none] := .int ⟨0, rfl⟩
  have hdiv := ConstPhrase.Spelling.binary .div (.looser hone (by decide))
    (.looser hbyte (by decide)) nofun
  exact .looser hdiv (by decide)

theorem constant_expressions_evaluate_shifted :
    (∃ s s', Session.start shiftedText = .ok s ∧
      Session.expr 0 s = .ok (.const (.builtin .long) 28454158336) s' ∧ s'.cursor.kind = .eof) ∧
    ∃ s f s', Session.start zeroText = .ok s ∧ Session.expr 0 s = .error f s' ∧
      (Diagnostic.ofFailure "a.tern" f).code.text = "TERN301" := by
  have hshifted : lexemes? shiftedText = some shiftedLexemes := by decide +kernel
  have hzero : lexemes? zeroText = some zeroLexemes := by decide +kernel
  have heof (ls : List Lexeme) : (Lexeme.eof).kind.Leaves 0 ls :=
    ⟨nofun, nofun, fun _ => ⟨nofun, nofun⟩⟩
  constructor
  · obtain ⟨s, hstart, hs, hscopes⟩ := Session.start_of_lexemes? hshifted
    obtain ⟨hvalue, -⟩ := (constant_expressions_evaluate shiftedExpr (by decide)).2 0 _ [] .eof s
      shifted_spelling hs (heof _) nofun hscopes
    obtain ⟨s', hs', hcursor, -⟩ := hvalue 28454158336 (by decide +kernel)
    exact ⟨s, s', hstart, hs', hcursor.head_kind⟩
  · obtain ⟨s, hstart, hs, hscopes⟩ := Session.start_of_lexemes? hzero
    obtain ⟨-, hfails⟩ := (constant_expressions_evaluate zeroExpr (by decide)).2 0 _ [] .eof s
      zero_spelling hs (heof _) nofun hscopes
    obtain ⟨f, s', hs', hdiagnostic⟩ := hfails (by decide +kernel)
    exact ⟨s, f, s', hstart, hs', (hdiagnostic "a.tern").1⟩

end Tern
