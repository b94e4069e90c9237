import Tern.Proofs.Tree.Soundness

/-!
# Recursive descent

The functions that read a text call each other without end in sight, and fuel cuts them short.
Here their recursion is laid open: one turn of it, with the recursive calls as a parameter.  A
call that is made behind a token that was passed has less of the text in front of it, and without
passing a token the functions can only call each other in a fixed order.  So the recursion is
well-founded, and the fuel that it is given is never used up.
-/

namespace Tern

/-! ## Passing tokens -/

namespace Cursor

/-- The second cursor is reached from the first by moving on, any number of times. -/
def Follows : Cursor → Cursor → Prop :=
  Relation.ReflTransGen fun c d => c.advance = (.ok (), d)

/-- Between the first cursor and the second lies a token that is not the end of the text. -/
def Passes (c d : Cursor) : Prop :=
  ∃ c₁ c₂, c.Follows c₁ ∧ c₁.kind ≠ .eof ∧ c₁.advance = (.ok (), c₂) ∧ c₂.Follows d

/-- How many tokens can be passed before the end of the text. -/
def remaining (c : Cursor) : Nat := c.stream.results.length + if c.kind = .eof then 0 else 1

variable {c d e : Cursor}

theorem Follows.refl (c : Cursor) : c.Follows c := Relation.ReflTransGen.refl

theorem Follows.advance (h : c.advance = (.ok (), d)) : c.Follows d :=
  Relation.ReflTransGen.single h

theorem Follows.trans (h : c.Follows d) (h' : d.Follows e) : c.Follows e :=
  Relation.ReflTransGen.trans h h'

theorem Passes.advance (hk : c.kind ≠ .eof) (h : c.advance = (.ok (), d)) : c.Passes d :=
  ⟨c, d, .refl c, hk, h, .refl d⟩

theorem Passes.trans_follows (h : c.Passes d) (h' : d.Follows e) : c.Passes e := by
  obtain ⟨c₁, c₂, hbefore, hk, hadvance, hafter⟩ := h
  exact ⟨c₁, c₂, hbefore, hk, hadvance, hafter.trans h'⟩

theorem Follows.trans_passes (h : c.Follows d) (h' : d.Passes e) : c.Passes e := by
  obtain ⟨c₁, c₂, hbefore, hk, hadvance, hafter⟩ := h'
  exact ⟨c₁, c₂, h.trans hbefore, hk, hadvance, hafter⟩

theorem Passes.follows (h : c.Passes d) : c.Follows d := by
  obtain ⟨c₁, c₂, hbefore, -, hadvance, hafter⟩ := h
  exact hbefore.trans ((Follows.advance hadvance).trans hafter)

theorem remaining_le (c : Cursor) : c.remaining ≤ c.length := by
  unfold remaining length
  split <;> omega

theorem remaining_advance_le (c : Cursor) : c.advance.2.remaining ≤ c.remaining := by
  obtain ⟨t, results, ending⟩ := c
  cases results with
  | nil =>
      cases ending with
      | stuck e => exact Nat.le_refl _
      | eof pos => exact Nat.zero_le _
  | cons r rs =>
      cases r with
      | error e => exact Nat.add_le_add_right (Nat.le_succ _) _
      | ok t' => exact (remaining_le ⟨t', rs, ending⟩).trans (Nat.le_add_right _ _)

theorem remaining_advance_lt (hk : c.kind ≠ .eof) (h : c.advance = (.ok (), d)) :
    d.remaining < c.remaining := by
  have hc : c.remaining = c.stream.results.length + 1 := by rw [remaining, if_neg hk]
  rw [hc]
  obtain ⟨t, results, ending⟩ := c
  cases results with
  | nil =>
      cases ending with
      | stuck e => cases h
      | eof pos =>
          cases h
          exact Nat.one_pos
  | cons r rs =>
      cases r with
      | error e => cases h
      | ok t' =>
          cases h
          exact Nat.lt_succ_of_le (remaining_le ⟨t', rs, ending⟩)

theorem Follows.remaining_le (h : c.Follows d) : d.remaining ≤ c.remaining := by
  induction h with
  | refl => exact Nat.le_refl _
  | @tail d e _ hadvance ih =>
      have hle := remaining_advance_le d
      rw [hadvance] at hle
      exact hle.trans ih

theorem Passes.remaining_lt (h : c.Passes d) : d.remaining < c.remaining := by
  obtain ⟨c₁, c₂, hbefore, hk, hadvance, hafter⟩ := h
  calc d.remaining ≤ c₂.remaining := hafter.remaining_le
    _ < c₁.remaining := remaining_advance_lt hk hadvance
    _ ≤ c.remaining := hbefore.remaining_le

theorem kind_ne_eof {l : Lexeme} (h : c.current.lexeme = l) (hl : l.kind ≠ .eof) :
    c.kind ≠ .eof := by
  rwa [kind, Token.kind, h]

/-- The end of the text is met only at the end, and there for good. -/
structure Settled (c : Cursor) : Prop where
  tokens : ∀ t, .ok t ∈ c.stream.results → t.kind ≠ .eof
  ending : c.kind = .eof → c.stream.results = [] ∧ ∃ pos, c.stream.ending = .eof pos

theorem Settled.advance (h : c.Settled) : c.advance.2.Settled := by
  obtain ⟨t, results, ending⟩ := c
  cases results with
  | nil =>
      cases ending with
      | eof pos => exact ⟨fun _ ht => (List.not_mem_nil ht).elim, fun _ => ⟨rfl, pos, rfl⟩⟩
      | stuck e => exact h
  | cons r rs =>
      have htokens : ∀ t, .ok t ∈ rs → t.kind ≠ .eof :=
        fun t ht => h.tokens t (List.mem_cons_of_mem r ht)
      cases r with
      | ok t' => exact ⟨htokens, fun hk => absurd hk (h.tokens t' List.mem_cons_self)⟩
      | error e => exact ⟨htokens, fun hk => by cases (h.ending hk).1⟩

theorem Settled.follows (hc : c.Settled) (h : c.Follows d) : d.Settled := by
  induction h with
  | refl => exact hc
  | tail _ hadvance ih =>
      have hsettled := ih.advance
      rwa [hadvance] at hsettled

theorem Settled.kind_ne_eof (hc : c.Settled) (h : c.advance = (.ok (), d)) (hd : d.kind ≠ .eof) :
    c.kind ≠ .eof := by
  intro hk
  obtain ⟨hresults, pos, hending⟩ := hc.ending hk
  obtain ⟨t, results, ending⟩ := c
  subst hresults hending
  cases h
  exact hd rfl

end Cursor

/-! ## How a phrase ends -/

/-- A phrase that was read leaves the cursor at a place that satisfies `M`.  One that stopped does
not satisfy `C`. -/
def Outcome.Ends {α : Type} (M : Cursor → Prop) (C : α → Prop) : Outcome α → Prop
  | .done _ rest => M rest
  | .stopped tree _ _ => ¬ C tree

section

variable {α β : Type} {M N : Cursor → Prop} {C : α → Prop} {D : β → Prop} {c : Cursor}

namespace Outcome

theorem Ends.andThen {x : Outcome α} {cut : α → CompileError → β}
    {next : α → Cursor → Outcome β} (hx : x.Ends M C)
    (hcut : ∀ tree why, ¬ C tree → ¬ D (cut tree why))
    (hnext : ∀ tree d, M d → (next tree d).Ends N D) : (x.andThen cut next).Ends N D := by
  cases x with
  | done tree rest => exact hnext tree rest hx
  | stopped tree why rest => exact hcut tree why hx

theorem Ends.map {x : Outcome α} {f : α → β} (hx : x.Ends M C) (hM : ∀ d, M d → N d)
    (hf : ∀ tree, D (f tree) → C tree) : (x.map f).Ends N D := by
  cases x with
  | done tree rest => exact hM rest hx
  | stopped tree why rest => exact fun h => hx (hf tree h)

theorem Ends.mono {x : Outcome α} (hx : x.Ends M C) (hM : ∀ d, M d → N d) : x.Ends N C := by
  cases x with
  | done tree rest => exact hM rest hx
  | stopped tree why rest => exact hx

theorem Ends.of_done {x : Outcome α} {tree : α} {d : Cursor} (hx : x.Ends M C)
    (h : x = .done tree d) : M d := by
  subst h
  exact hx

theorem andThen_congr {x y : Outcome α} {cut : α → CompileError → β}
    {next next' : α → Cursor → Outcome β} (hxy : x = y) (hx : x.Ends M C)
    (h : ∀ tree d, M d → next tree d = next' tree d) :
    x.andThen cut next = y.andThen cut next' := by
  subst hxy
  cases x with
  | done tree rest => exact h tree rest hx
  | stopped tree why rest => rfl

end Outcome

namespace Cursor

theorem step_ends {cut : CompileError → α} {next : Cursor → Outcome α}
    (hcut : ∀ why, ¬ C (cut why))
    (hnext : ∀ d, c.advance = (.ok (), d) → (next d).Ends M C) : (c.step cut next).Ends M C := by
  unfold step
  split
  · next u d h => exact hnext d h
  · exact hcut _

theorem stop_ends {p : Problem} {cut : CompileError → α} (hcut : ∀ why, ¬ C (cut why)) :
    (c.stop p cut).Ends M C := hcut _

theorem pass_ends {wanted : Kind} {cut : CompileError → α} {next : Cursor → Outcome α}
    (hwanted : wanted ≠ .eof) (hcut : ∀ why, ¬ C (cut why))
    (hnext : ∀ d, c.Passes d → (next d).Ends M C) : (c.pass wanted cut next).Ends M C := by
  unfold pass expect
  split
  · next hk => exact step_ends hcut fun d h => hnext d (.advance (hk ▸ hwanted) h)
  · exact stop_ends hcut

theorem step_congr {cut : CompileError → α} {next next' : Cursor → Outcome α}
    (h : ∀ d, c.advance = (.ok (), d) → next d = next' d) : c.step cut next = c.step cut next' := by
  unfold step
  split
  · next u d hadvance => exact h d hadvance
  · rfl

theorem pass_congr {wanted : Kind} {cut : CompileError → α} {next next' : Cursor → Outcome α}
    (hwanted : wanted ≠ .eof) (h : ∀ d, c.Passes d → next d = next' d) :
    c.pass wanted cut next = c.pass wanted cut next' := by
  unfold pass expect
  split
  · next hk => exact step_congr fun d hadvance => h d (.advance (hk ▸ hwanted) hadvance)
  · rfl

end Cursor

end

namespace Reader

/-! ## One turn of the recursion -/

/-- A function of the descent and its arguments, the cursor apart. -/
inductive Task where
  | expr (minPrec : Nat)
  | operand
  | named (id : Ident)
  | assignment (p : Place)
  | args
  | elements (p : Place)
  | castSuffix (e : Expr)
  | operators (minPrec : Nat) (lhs : Expr)
  | type
  | suffixes (t : TypeExpr)
  | decls
  | statements

namespace Task

abbrev Tree : Task → Type
  | expr _ | operand | named _ | assignment _ | castSuffix _ | operators .. => Expr
  | args => Args
  | elements _ => Place
  | type | suffixes _ => TypeExpr
  | decls => List Decl
  | statements => Block

/-- Nothing is missing in the tree.  Of a list of declarations nothing is known: where the fuel
runs out it does not show what is missing. -/
def Complete : (t : Task) → t.Tree → Prop
  | expr _ | operand | named _ | assignment _ | castSuffix _ | operators .. => Expr.Complete
  | args => Args.Complete
  | elements _ => Place.Complete
  | type | suffixes _ => TypeExpr.Complete
  | decls => fun _ => False
  | statements => Block.Complete

/-- How far a function gets that succeeds.  What starts with a name does not ask whether there is
one. -/
def Moves : Task → Cursor → Cursor → Prop
  | expr _ | operand | assignment _ | args | type | decls => Cursor.Passes
  | named _ => fun c d => c.Follows d ∧ (c.kind ≠ .eof → c.Passes d)
  | castSuffix _ | operators .. | elements _ | suffixes _ | statements => Cursor.Follows

/-- The place of a function in the order in which the functions call each other without passing a
token. -/
def rank : Task → Nat
  | args | assignment _ => 3
  | expr _ => 2
  | operand | statements => 1
  | named _ | elements _ | castSuffix _ | operators .. | type | suffixes _ | decls => 0

end Task

/-- What every function yields at every place. -/
abbrev Reading := (t : Task) → Cursor → Outcome t.Tree

/-- What the functions of the reader yield with `fuel` to spend. -/
def ofFuel (fuel : Nat) : Reading
  | .expr minPrec => Reader.expr fuel minPrec
  | .operand => Reader.operand fuel
  | .named id => Reader.named fuel id
  | .assignment p => Reader.assignment fuel p
  | .args => Reader.args fuel
  | .elements p => Reader.elements fuel p
  | .castSuffix e => Reader.castSuffix fuel e
  | .operators minPrec lhs => Reader.operators fuel minPrec lhs
  | .type => Reader.type fuel
  | .suffixes t => Reader.suffixes fuel t
  | .decls => Reader.decls fuel
  | .statements => Reader.statements fuel

/-- What the functions of the reader yield with the fuel that they are given. -/
def reading : Reading := fun t c => ofFuel (budget c) t c

/-- A declaration behind `export`, given how its type is read. -/
def declBodyWith (readType : Cursor → Outcome TypeExpr) (exported : Option Position)
    (c : Cursor) : Outcome Decl :=
  match c.current.lexeme with
  | .identifier name =>
      let cut (why : CompileError) : Decl :=
        ⟨exported, .ok ⟨name, c.pos⟩, .error why, .missing why⟩
      c.step cut fun rest =>
        rest.pass (.symbol .colon) cut fun rest =>
          (readType rest).map fun t => ⟨exported, .ok ⟨name, c.pos⟩, .ok (), t⟩
  | _ =>
      c.stop (.expected .identifier c.kind) fun why =>
        ⟨exported, .error why, .error why, .missing why⟩

def declWith (readType : Cursor → Outcome TypeExpr) (c : Cursor) : Outcome Decl :=
  if c.kind = .keyword .exportWord then
    c.step (fun why => ⟨some c.pos, .error why, .error why, .missing why⟩) fun rest =>
      declBodyWith readType (some c.pos) rest
  else declBodyWith readType none c

/-- One turn of each function, given what its calls yield. -/
def body (again : Reading) : Reading
  | .expr minPrec, c =>
      (again .operand c).andThen (fun e _ => e) fun e c =>
        (again (.castSuffix e) c).andThen (fun e _ => e) fun e c => again (.operators minPrec e) c
  | .operand, c =>
      match c.current.lexeme with
      | .integer digits suffix =>
          c.step .missing fun rest => .done (.integer c.pos digits suffix.isSome) rest
      | .char value => c.step .missing fun rest => .done (.char c.pos value) rest
      | .identifier name => again (.named ⟨name, c.pos⟩) c
      | .symbol .lparen =>
          c.step .missing fun inside =>
            (again (.expr 0) inside).andThen (fun e why => .paren c.pos e (.error why))
              fun e rest =>
                rest.pass (.symbol .rparen) (fun why => .paren c.pos e (.error why))
                  fun rest => .done (.paren c.pos e (.ok ())) rest
      | .symbol .amp => c.step .missing fun rest => (again .operand rest).map (.reference c.pos)
      | .symbol .minus => c.step .missing fun rest => (again .operand rest).map (.negate c.pos)
      | .symbol _ | .keyword _ | .eof => c.stop (.expectedExpression c.kind) .missing
  | .named id, c =>
      c.step .missing fun c =>
        match c.kind with
        | .symbol .assign => again (.assignment (.var id)) c
        | .symbol .lparen =>
            c.step (fun why => .call id (.close (.error why))) fun inside =>
              if inside.kind = .symbol .rparen then
                inside.step (fun why => .call id (.close (.error why))) fun rest =>
                  .done (.call id (.close (.ok ()))) rest
              else (again .args inside).map (.call id)
        | .symbol .lbracket =>
            (again (.elements (.var id)) c).andThen (fun p _ => .element p) fun p c =>
              if c.kind = .symbol .assign then again (.assignment p) c else .done (.element p) c
        | _ => .done (.name id) c
  | .assignment p, c =>
      c.step (fun why => .assign p c.pos (.missing why)) fun rest =>
        (again (.expr 0) rest).map (.assign p c.pos)
  | .args, c =>
      (again (.expr 0) c).andThen (fun e why => .cons e (.close (.error why))) fun e c =>
        if c.kind = .symbol .comma then
          c.step (fun why => .cons e (.close (.error why))) fun rest =>
            (again .args rest).map (.cons e)
        else
          c.pass (.symbol .rparen) (fun why => .cons e (.close (.error why))) fun rest =>
            .done (.cons e (.close (.ok ()))) rest
  | .elements p, c =>
      if c.kind = .symbol .lbracket then
        c.step (fun why => .element p c.pos (.missing why) (.error why)) fun inside =>
          (again (.expr 0) inside).andThen (fun e why => .element p c.pos e (.error why))
            fun e rest =>
              rest.pass (.symbol .rbracket) (fun why => .element p c.pos e (.error why))
                fun rest => again (.elements (.element p c.pos e (.ok ()))) rest
      else .done p c
  | .castSuffix e, c =>
      if c.kind = .keyword .asWord then
        c.step (fun why => .cast e c.pos (.missing why)) fun rest =>
          (again .type rest).map (.cast e c.pos)
      else .done e c
  | .operators minPrec lhs, c =>
      match c.kind.binaryOp? with
      | none => .done lhs c
      | some op =>
          if op.precedence < minPrec then .done lhs c
          else
            c.step (fun why => .binary op c.pos lhs (.missing why)) fun rest =>
              (again (.expr (op.precedence + 1)) rest).andThen
                (fun rhs _ => .binary op c.pos lhs rhs) fun rhs rest =>
                  again (.operators minPrec (.binary op c.pos lhs rhs)) rest
  | .type, c =>
      match c.current.lexeme with
      | .identifier name =>
          c.step (.stopped (.named ⟨name, c.pos⟩)) fun rest =>
            again (.suffixes (.named ⟨name, c.pos⟩)) rest
      | _ => c.stop (.expected .identifier c.kind) .missing
  | .suffixes t, c =>
      match c.kind with
      | .symbol .lbracket =>
          c.step (.stopped t) fun inside =>
            if inside.kind = .symbol .rbracket then inside.stop .openArray (.stopped t)
            else
              (again (.expr 0) inside).andThen
                (fun e why => .array t inside.pos e (.error why)) fun e rest =>
                  rest.pass (.symbol .rbracket)
                    (fun why => .array t inside.pos e (.error why)) fun rest =>
                      again (.suffixes (.array t inside.pos e (.ok ()))) rest
      | .symbol .star => c.step (.stopped t) fun rest => again (.suffixes (.pointer t)) rest
      | _ => .done t c
  | .decls, c =>
      (declWith (again .type) c).andThen (fun d _ => [d]) fun d c =>
        if c.kind = .symbol .comma then
          c.step (fun why => [d, ⟨none, .error why, .error why, .missing why⟩]) fun rest =>
            (again .decls rest).map (d :: ·)
        else .done [d] c
  | .statements, c =>
      match c.current.lexeme with
      | .keyword .endWord => .done ⟨[], .ok ()⟩ c
      | .identifier name =>
          (again (.named ⟨name, c.pos⟩) c).andThen (fun e why => ⟨[e], .error why⟩)
            fun e rest =>
              (again .statements rest).map fun b => { b with statements := e :: b.statements }
      | .eof => c.stop (.expected (.keyword .endWord) .eof) fun why => ⟨[], .error why⟩
      | _ => c.stop (.expectedStatement c.kind) fun why => ⟨[], .error why⟩

/-- With fuel to spend, the functions of the reader take one turn and call each other with less. -/
theorem ofFuel_succ (fuel : Nat) : ofFuel (fuel + 1) = body (ofFuel fuel) := by
  funext t c
  cases t with
  | expr minPrec => exact Reader.expr.eq_2 ..
  | operand => exact Reader.operand.eq_2 ..
  | named id => exact Reader.named.eq_2 ..
  | assignment p => exact Reader.assignment.eq_2 ..
  | args => exact Reader.args.eq_2 ..
  | elements p => exact Reader.elements.eq_2 ..
  | castSuffix e => exact Reader.castSuffix.eq_2 ..
  | operators minPrec lhs => exact Reader.operators.eq_2 ..
  | type => exact Reader.type.eq_2 ..
  | suffixes t => exact Reader.suffixes.eq_2 ..
  | decls => exact Reader.decls.eq_2 ..
  | statements => exact Reader.statements.eq_2 ..

/-! ## Progress -/

/-- Whatever succeeds gets ahead, and whatever stops leaves a gap in its tree. -/
def Progressing (f : Reading) : Prop := ∀ t c, (f t c).Ends (t.Moves c) t.Complete

namespace Progressing

variable {f : Reading} {c : Cursor}

theorem expr (hf : Progressing f) (minPrec : Nat) :
    (body f (.expr minPrec) c).Ends c.Passes Expr.Complete := by
  refine (hf .operand c).andThen (fun _ _ h => h) fun e d hoperand => ?_
  refine (hf (.castSuffix e) d).andThen (fun _ _ h => h) fun e' d' hcast => ?_
  exact (hf (.operators minPrec e') d').mono fun d'' hoperators =>
    (hoperand.trans_follows hcast).trans_follows hoperators

theorem operand (hf : Progressing f) : (body f .operand c).Ends c.Passes Expr.Complete := by
  simp only [body]
  split
  · next digits suffix hl =>
    exact Cursor.step_ends (fun _ h => h) fun d hadvance =>
      .advance (Cursor.kind_ne_eof hl (by rintro ⟨⟩)) hadvance
  · next value hl =>
    exact Cursor.step_ends (fun _ h => h) fun d hadvance =>
      .advance (Cursor.kind_ne_eof hl (by rintro ⟨⟩)) hadvance
  · next name hl =>
    exact (hf (.named _) c).mono fun d h => h.2 (Cursor.kind_ne_eof hl (by rintro ⟨⟩))
  · next hl =>
    refine Cursor.step_ends (fun _ h => h) fun d hadvance => ?_
    refine (hf (.expr 0) d).andThen (fun _ _ _ h => by cases h.2) fun e d' hexpr => ?_
    refine Cursor.pass_ends (by decide) (fun _ h => by cases h.2) fun _ hclose => ?_
    exact (Cursor.Follows.advance hadvance).trans_passes (hexpr.trans_follows hclose.follows)
  · refine Cursor.step_ends (fun _ h => h) fun d hadvance => ?_
    exact (hf .operand d).map (fun _ h => (Cursor.Follows.advance hadvance).trans_passes h)
      fun _ h => h
  · refine Cursor.step_ends (fun _ h => h) fun d hadvance => ?_
    exact (hf .operand d).map (fun _ h => (Cursor.Follows.advance hadvance).trans_passes h)
      fun _ h => h
  all_goals exact Cursor.stop_ends fun _ h => h

theorem named (hf : Progressing f) (id : Ident) :
    (body f (.named id) c).Ends ((Task.named id).Moves c) Expr.Complete := by
  simp only [body]
  refine Cursor.step_ends (fun _ h => h) fun c' hadvance => ?_
  have hmoves : ∀ d, c'.Follows d → (Task.named id).Moves c d := fun d hd =>
    ⟨(Cursor.Follows.advance hadvance).trans hd,
      fun hk => (Cursor.Passes.advance hk hadvance).trans_follows hd⟩
  refine Outcome.Ends.mono (M := c'.Follows) ?_ hmoves
  split
  · exact (hf (.assignment (.var id)) c').mono fun d h => h.follows
  · refine Cursor.step_ends (fun _ h => by cases h) fun d hopen => ?_
    split
    · exact Cursor.step_ends (fun _ h => by cases h) fun _ hclose =>
        (Cursor.Follows.advance hopen).trans (.advance hclose)
    · exact (hf .args d).map (fun _ h => (Cursor.Follows.advance hopen).trans h.follows)
        fun _ h => h
  · refine (hf (.elements (.var id)) c').andThen (fun _ _ h => h) fun p d helements => ?_
    split
    · exact (hf (.assignment p) d).mono fun d' h => helements.trans h.follows
    · exact helements
  · exact .refl c'

theorem assignment (hf : Progressing f) (p : Place) :
    (body f (.assignment p) c).Ends c.Passes Expr.Complete :=
  Cursor.step_ends (fun _ h => h.2) fun d hadvance =>
    (hf (.expr 0) d).map (fun _ h => (Cursor.Follows.advance hadvance).trans_passes h)
      fun _ h => h.2

theorem args (hf : Progressing f) : (body f .args c).Ends c.Passes Args.Complete := by
  refine (hf (.expr 0) c).andThen (fun _ _ _ h => by cases h.2) fun e d hexpr => ?_
  split
  · refine Cursor.step_ends (fun _ h => by cases h.2) fun d' hcomma => ?_
    exact (hf .args d').map
      (fun _ h => hexpr.trans_follows ((Cursor.Follows.advance hcomma).trans h.follows))
      fun _ h => h.2
  · exact Cursor.pass_ends (by decide) (fun _ h => by cases h.2) fun d' hclose =>
      hexpr.trans_follows hclose.follows

theorem elements (hf : Progressing f) (p : Place) :
    (body f (.elements p) c).Ends c.Follows Place.Complete := by
  simp only [body]
  split
  · refine Cursor.step_ends (fun _ h => by cases h.2.2) fun d hopen => ?_
    refine (hf (.expr 0) d).andThen (fun _ _ _ h => by cases h.2.2) fun e d' hexpr => ?_
    refine Cursor.pass_ends (by decide) (fun _ h => by cases h.2.2) fun d'' hclose => ?_
    have hindex := (Cursor.Follows.advance hopen).trans (hexpr.follows.trans hclose.follows)
    exact (hf (.elements _) d'').mono fun _ h => hindex.trans h
  · exact .refl c

theorem castSuffix (hf : Progressing f) (e : Expr) :
    (body f (.castSuffix e) c).Ends c.Follows Expr.Complete := by
  simp only [body]
  split
  · refine Cursor.step_ends (fun _ h => h.2) fun d hadvance => ?_
    exact (hf .type d).map (fun _ h => (Cursor.Follows.advance hadvance).trans h.follows)
      fun _ h => h.2
  · exact .refl c

theorem operators (hf : Progressing f) (minPrec : Nat) (lhs : Expr) :
    (body f (.operators minPrec lhs) c).Ends c.Follows Expr.Complete := by
  simp only [body]
  split
  · exact .refl c
  · split
    · exact .refl c
    · refine Cursor.step_ends (fun _ h => h.2) fun d hadvance => ?_
      refine (hf (.expr _) d).andThen (fun _ _ h h' => h h'.2) fun e d' hexpr => ?_
      have hturn := (Cursor.Follows.advance hadvance).trans hexpr.follows
      exact (hf (.operators minPrec _) d').mono fun _ h => hturn.trans h

theorem type (hf : Progressing f) : (body f .type c).Ends c.Passes TypeExpr.Complete := by
  simp only [body]
  split
  · next name hl =>
    refine Cursor.step_ends (fun _ h => h) fun d hadvance => ?_
    exact (hf (.suffixes _) d).mono fun _ h =>
      (Cursor.Passes.advance (Cursor.kind_ne_eof hl (by rintro ⟨⟩)) hadvance).trans_follows h
  · exact Cursor.stop_ends fun _ h => h

theorem suffixes (hf : Progressing f) (t : TypeExpr) :
    (body f (.suffixes t) c).Ends c.Follows TypeExpr.Complete := by
  simp only [body]
  split
  · refine Cursor.step_ends (fun _ h => h) fun d hopen => ?_
    split
    · exact Cursor.stop_ends fun _ h => h
    · refine (hf (.expr 0) d).andThen (fun _ _ _ h => by cases h.2.2) fun e d' hexpr => ?_
      refine Cursor.pass_ends (by decide) (fun _ h => by cases h.2.2) fun d'' hclose => ?_
      have hturn := (Cursor.Follows.advance hopen).trans (hexpr.follows.trans hclose.follows)
      exact (hf (.suffixes _) d'').mono fun _ h => hturn.trans h
  · refine Cursor.step_ends (fun _ h => h) fun d hstar => ?_
    exact (hf (.suffixes _) d).mono fun _ h => (Cursor.Follows.advance hstar).trans h
  · exact .refl c

theorem declBodyWith (hf : Progressing f) (exported : Option Position) :
    (Reader.declBodyWith (f .type) exported c).Ends c.Passes Decl.Complete := by
  unfold Reader.declBodyWith
  split
  · next name hl =>
    refine Cursor.step_ends (fun _ h => by cases h.2.1) fun d hadvance => ?_
    refine Cursor.pass_ends (by decide) (fun _ h => by cases h.2.1) fun d' hcolon => ?_
    exact (hf .type d').map (fun _ h => (Cursor.Follows.advance hadvance).trans_passes
      (hcolon.trans_follows h.follows)) fun _ h => h.2.2
  · exact Cursor.stop_ends fun _ h => by cases h.2.1

theorem declWith (hf : Progressing f) :
    (Reader.declWith (f .type) c).Ends c.Passes Decl.Complete := by
  unfold Reader.declWith
  split
  · refine Cursor.step_ends (fun _ h => by cases h.2.1) fun d hadvance => ?_
    exact (hf.declBodyWith _).mono fun _ h => (Cursor.Follows.advance hadvance).trans_passes h
  · exact hf.declBodyWith none

theorem decls (hf : Progressing f) : (body f .decls c).Ends c.Passes fun _ => False := by
  refine hf.declWith.andThen (fun _ _ _ h => h) fun d c' hdecl => ?_
  split
  · refine Cursor.step_ends (fun _ h => h) fun c'' hcomma => ?_
    exact (hf .decls c'').map
      (fun _ h => hdecl.trans_follows ((Cursor.Follows.advance hcomma).trans h.follows))
      fun _ h => h
  · exact hdecl

theorem statements (hf : Progressing f) :
    (body f .statements c).Ends c.Follows Block.Complete := by
  simp only [body]
  split
  · exact .refl c
  · refine (hf (.named _) c).andThen (fun _ _ _ h => by cases h.2) fun e d hnamed => ?_
    exact (hf .statements d).map (fun _ h => hnamed.1.trans h) fun b h =>
      ⟨fun e' he' => h.1 e' (List.mem_cons_of_mem e he'), h.2⟩
  · exact Cursor.stop_ends fun _ h => by cases h.2
  · exact Cursor.stop_ends fun _ h => by cases h.2

/-- If all that is called makes progress, so does the caller. -/
theorem body (hf : Progressing f) : Progressing (body f)
  | .expr minPrec, _ => hf.expr minPrec
  | .operand, _ => hf.operand
  | .named id, _ => hf.named id
  | .assignment p, _ => hf.assignment p
  | .args, _ => hf.args
  | .elements p, _ => hf.elements p
  | .castSuffix e, _ => hf.castSuffix e
  | .operators minPrec lhs, _ => hf.operators minPrec lhs
  | .type, _ => hf.type
  | .suffixes t, _ => hf.suffixes t
  | .decls, _ => hf.decls
  | .statements, _ => hf.statements

theorem ofFuel (fuel : Nat) : Progressing (ofFuel fuel) := by
  induction fuel with
  | zero =>
      intro t c
      cases t with
      | args => exact fun h => by cases h
      | elements p => exact fun h => h.2.1
      | statements => exact fun h => by cases h.2
      | expr | operand | named | assignment | castSuffix | operators | type | suffixes | decls =>
          exact fun h => h
  | succ fuel ih => exact ofFuel_succ fuel ▸ ih.body

theorem reading : Progressing reading := fun t c => ofFuel (budget c) t c

end Progressing

/-- With enough fuel, a list of declarations that stops has a gap, too. -/
theorem decls_ends (fuel : Nat) {c : Cursor} (hfuel : c.remaining < fuel) :
    (Reader.decls fuel c).Ends c.Passes fun ds => ∀ d ∈ ds, d.Complete := by
  induction fuel generalizing c with
  | zero => cases hfuel
  | succ fuel ih =>
      unfold Reader.decls
      have hdecl : (decl fuel c).Ends c.Passes Decl.Complete := (Progressing.ofFuel fuel).declWith
      refine hdecl.andThen (fun d _ h h' => h (h' d List.mem_cons_self)) fun d c' hdecl => ?_
      split
      · refine Cursor.step_ends (fun why h => ?_) fun c'' hcomma => ?_
        · cases (h _ (List.mem_cons_of_mem d List.mem_cons_self)).2.1
        · have hpassed := hdecl.trans_follows (.advance hcomma)
          have hremaining := hpassed.remaining_lt
          exact (ih (by omega)).map (fun _ h => hpassed.trans_follows h.follows)
            fun ds h d' hd' => h d' (List.mem_cons_of_mem d hd')
      · exact hdecl

theorem declList_ends (c : Cursor) :
    (Reader.declList c).Ends c.Passes DeclList.Complete := by
  refine Cursor.step_ends (fun _ h => by cases h.1) fun d hadvance => ?_
  have hfuel : d.remaining < budget d := by
    have hle := d.remaining_le
    unfold budget
    omega
  exact (decls_ends _ hfuel).map (fun _ h => (Cursor.Follows.advance hadvance).trans_passes h)
    fun _ h => h.2

/-! ## The recursion is well-founded -/

/-- The first call can only be made behind a token that the second has passed, or else it comes
before it in the order of the functions. -/
def Earlier (b a : Task × Cursor) : Prop :=
  a.2.Passes b.2 ∨ (a.2.Follows b.2 ∧ b.1.rank < a.1.rank)

/-- What decreases from call to call. -/
def size (a : Task × Cursor) : Nat := 4 * a.2.remaining + a.1.rank

theorem Task.rank_lt (t : Task) : t.rank < 4 := by
  cases t <;> simp [Task.rank]

theorem Earlier.size_lt {a b : Task × Cursor} (h : Earlier b a) : size b < size a := by
  have hrank := b.1.rank_lt
  unfold size
  rcases h with hpasses | ⟨hfollows, hlt⟩
  · have hremaining := hpasses.remaining_lt
    omega
  · have hremaining := hfollows.remaining_le
    omega

theorem earlier_wellFounded : WellFounded Earlier :=
  Subrelation.wf Earlier.size_lt (measure size).wf

theorem Earlier.follows {a b : Task × Cursor} (h : Earlier b a) : a.2.Follows b.2 := by
  rcases h with hpasses | ⟨hfollows, -⟩
  · exact hpasses.follows
  · exact hfollows

theorem Earlier.trans {a b b' : Task × Cursor} (h' : Earlier b' b) (h : Earlier b a) :
    Earlier b' a := by
  rcases h with hpasses | ⟨hfollows, hlt⟩
  · exact .inl (hpasses.trans_follows h'.follows)
  · rcases h' with hpasses' | ⟨hfollows', hlt'⟩
    · exact .inl (hfollows.trans_passes hpasses')
    · exact .inr ⟨hfollows.trans hfollows', hlt'.trans hlt⟩

instance : IsTrans (Task × Cursor) Earlier := ⟨fun _ _ _ h h' => h.trans h'⟩

/-- However many calls lie between, a function comes back to itself only behind a token that was
passed. -/
theorem passes_of_transGen {a b : Task × Cursor} (h : Relation.TransGen Earlier b a)
    (hrank : a.1.rank ≤ b.1.rank) : a.2.Passes b.2 := by
  rw [Relation.transGen_eq_self] at h
  rcases h with hpasses | ⟨-, hlt⟩
  · exact hpasses
  · exact absurd hlt (Nat.not_lt.2 hrank)

/-- The two readings yield the same for all calls that are earlier. -/
def AgreeBefore (f g : Reading) (a : Task × Cursor) : Prop :=
  ∀ t c, Earlier (t, c) a → f t c = g t c

namespace AgreeBefore

variable {f g : Reading} {c d : Cursor} {t : Task}

theorem passed (h : AgreeBefore f g (t, c)) (t' : Task) (hd : c.Passes d) : f t' d = g t' d :=
  h t' d (.inl hd)

theorem here (h : AgreeBefore f g (t, c)) (t' : Task) (hrank : t'.rank < t.rank) :
    f t' c = g t' c := h t' c (.inr ⟨.refl c, hrank⟩)

theorem expr {minPrec : Nat} (h : AgreeBefore f g (.expr minPrec, c)) (hf : Progressing f) :
    body f (.expr minPrec) c = body g (.expr minPrec) c := by
  have hfirst := h.here .operand (by simp [Task.rank])
  refine Outcome.andThen_congr hfirst (hf .operand c) fun e d hoperand => ?_
  refine Outcome.andThen_congr (h.passed _ hoperand) (hf (.castSuffix e) d) fun e' d' hcast => ?_
  exact h.passed _ (hoperand.trans_follows hcast)

theorem operand (h : AgreeBefore f g (.operand, c)) :
    body f .operand c = body g .operand c := by
  simp only [body]
  split
  · rfl
  · rfl
  · exact h.here (.named _) (by simp [Task.rank])
  · next hl =>
    refine Cursor.step_congr fun d hadvance => ?_
    have hpassed : c.Passes d := .advance (Cursor.kind_ne_eof hl (by decide)) hadvance
    rw [h.passed (.expr 0) hpassed]
  · next hl =>
    refine Cursor.step_congr fun d hadvance => ?_
    rw [h.passed .operand (.advance (Cursor.kind_ne_eof hl (by decide)) hadvance)]
  · next hl =>
    refine Cursor.step_congr fun d hadvance => ?_
    rw [h.passed .operand (.advance (Cursor.kind_ne_eof hl (by decide)) hadvance)]
  all_goals rfl

theorem named {id : Ident} (h : AgreeBefore f g (.named id, c)) (hf : Progressing f)
    (hc : c.Settled) : body f (.named id) c = body g (.named id) c := by
  simp only [body]
  refine Cursor.step_congr fun d hadvance => ?_
  -- Only where there is a token behind the name is anything called.
  have hpassed : d.kind ≠ .eof → c.Passes d := fun hd =>
    .advance (hc.kind_ne_eof hadvance hd) hadvance
  split
  · next hk => exact h.passed _ (hpassed (by rw [hk]; decide))
  · next hk =>
    refine Cursor.step_congr fun d' hopen => ?_
    split
    · rfl
    · rw [h.passed .args ((hpassed (by rw [hk]; decide)).trans_follows (.advance hopen))]
  · next hk =>
    have hd := hpassed (by rw [hk]; decide)
    refine Outcome.andThen_congr (h.passed _ hd) (hf (.elements (.var id)) d) fun p d' hd' => ?_
    split
    · exact h.passed _ (hd.trans_follows hd')
    · rfl
  · rfl

theorem assignment {p : Place} (h : AgreeBefore f g (.assignment p, c)) :
    body f (.assignment p) c = body g (.assignment p) c := by
  refine Cursor.step_congr fun d hadvance => ?_
  rw [h (.expr 0) d (.inr ⟨.advance hadvance, by simp [Task.rank]⟩)]

theorem args (h : AgreeBefore f g (.args, c)) (hf : Progressing f) :
    body f .args c = body g .args c := by
  refine Outcome.andThen_congr (h.here _ (by decide)) (hf (.expr 0) c) fun e d hexpr => ?_
  split
  · refine Cursor.step_congr fun d' hcomma => ?_
    rw [h.passed .args (hexpr.trans_follows (.advance hcomma))]
  · rfl

theorem elements {p : Place} (h : AgreeBefore f g (.elements p, c)) (hf : Progressing f) :
    body f (.elements p) c = body g (.elements p) c := by
  simp only [body]
  split
  · next hk =>
    refine Cursor.step_congr fun d hopen => ?_
    have hpassed : c.Passes d := .advance (by rw [hk]; decide) hopen
    refine Outcome.andThen_congr (h.passed _ hpassed) (hf (.expr 0) d) fun e d' hexpr => ?_
    refine Cursor.pass_congr (by decide) fun d'' hclose => ?_
    exact h.passed _ (hpassed.trans_follows (hexpr.follows.trans hclose.follows))
  · rfl

theorem castSuffix {e : Expr} (h : AgreeBefore f g (.castSuffix e, c)) :
    body f (.castSuffix e) c = body g (.castSuffix e) c := by
  simp only [body]
  split
  · next hk =>
    refine Cursor.step_congr fun d hadvance => ?_
    rw [h.passed .type (.advance (by rw [hk]; decide) hadvance)]
  · rfl

theorem operators {minPrec : Nat} {lhs : Expr} (h : AgreeBefore f g (.operators minPrec lhs, c))
    (hf : Progressing f) :
    body f (.operators minPrec lhs) c = body g (.operators minPrec lhs) c := by
  simp only [body]
  split
  · rfl
  · next op hop =>
    split
    · rfl
    · refine Cursor.step_congr fun d hadvance => ?_
      have hk : c.kind ≠ .eof := fun heof => by rw [heof] at hop; cases hop
      have hpassed : c.Passes d := .advance hk hadvance
      refine Outcome.andThen_congr (h.passed _ hpassed) (hf (.expr _) d) fun e d' hexpr => ?_
      exact h.passed _ (hpassed.trans_follows hexpr.follows)

theorem type (h : AgreeBefore f g (.type, c)) : body f .type c = body g .type c := by
  simp only [body]
  split
  · next name hl =>
    refine Cursor.step_congr fun d hadvance => ?_
    exact h.passed _ (.advance (Cursor.kind_ne_eof hl (by rintro ⟨⟩)) hadvance)
  · rfl

theorem suffixes {u : TypeExpr} (h : AgreeBefore f g (.suffixes u, c)) (hf : Progressing f) :
    body f (.suffixes u) c = body g (.suffixes u) c := by
  simp only [body]
  split
  · next hk =>
    refine Cursor.step_congr fun d hopen => ?_
    split
    · rfl
    · have hpassed : c.Passes d := .advance (by rw [hk]; decide) hopen
      refine Outcome.andThen_congr (h.passed _ hpassed) (hf (.expr 0) d) fun e d' hexpr => ?_
      refine Cursor.pass_congr (by decide) fun d'' hclose => ?_
      exact h.passed _ (hpassed.trans_follows (hexpr.follows.trans hclose.follows))
  · next hk =>
    refine Cursor.step_congr fun d hstar => ?_
    exact h.passed _ (.advance (by rw [hk]; decide) hstar)
  · rfl

theorem declBodyWith (h : ∀ d, c.Passes d → f .type d = g .type d) (exported : Option Position) :
    Reader.declBodyWith (f .type) exported c = Reader.declBodyWith (g .type) exported c := by
  unfold Reader.declBodyWith
  split
  · refine Cursor.step_congr fun d hadvance => ?_
    refine Cursor.pass_congr (by decide) fun d' hcolon => ?_
    rw [h d' ((Cursor.Follows.advance hadvance).trans_passes hcolon)]
  · rfl

theorem decls (h : AgreeBefore f g (.decls, c)) (hf : Progressing f) :
    body f .decls c = body g .decls c := by
  have hdecl : declWith (f .type) c = declWith (g .type) c := by
    unfold declWith
    split
    · refine Cursor.step_congr fun d hadvance => declBodyWith (fun d' hd' => ?_) _
      exact h.passed .type ((Cursor.Follows.advance hadvance).trans_passes hd')
    · exact declBodyWith (fun d' hd' => h.passed .type hd') none
  refine Outcome.andThen_congr hdecl hf.declWith fun d c' hpassed => ?_
  split
  · refine Cursor.step_congr fun c'' hcomma => ?_
    rw [h.passed .decls (hpassed.trans_follows (.advance hcomma))]
  · rfl

theorem statements (h : AgreeBefore f g (.statements, c)) (hf : Progressing f) :
    body f .statements c = body g .statements c := by
  simp only [body]
  split
  · rfl
  · next name hl =>
    have hnamed := h.here (.named ⟨name, c.pos⟩) (by simp [Task.rank])
    refine Outcome.andThen_congr hnamed (hf (.named _) c) fun e d hd => ?_
    rw [h.passed .statements (hd.2 (Cursor.kind_ne_eof hl (by rintro ⟨⟩)))]
  · rfl
  · rfl

/-- One turn of a function depends on earlier calls only. -/
theorem body_eq {t : Task} (h : AgreeBefore f g (t, c)) (hf : Progressing f) (hc : c.Settled) :
    body f t c = body g t c := by
  cases t with
  | expr minPrec => exact h.expr hf
  | operand => exact h.operand
  | named id => exact h.named hf hc
  | assignment p => exact h.assignment
  | args => exact h.args hf
  | elements p => exact h.elements hf
  | castSuffix e => exact h.castSuffix
  | operators minPrec lhs => exact h.operators hf
  | type => exact h.type
  | suffixes u => exact h.suffixes hf
  | decls => exact h.decls hf
  | statements => exact h.statements hf

end AgreeBefore

/-! ## Fuel is never used up -/

variable {t : Task} {c : Cursor}

theorem size_lt_budget (t : Task) (c : Cursor) : size (t, c) < budget c := by
  have hrank := t.rank_lt
  have hremaining := c.remaining_le
  simp only [size, budget]
  omega

/-- Once there is enough fuel, more of it changes nothing. -/
theorem ofFuel_eq {n m : Nat} (hc : c.Settled) (hn : size (t, c) < n) (hm : size (t, c) < m) :
    ofFuel n t c = ofFuel m t c := by
  induction n generalizing m t c with
  | zero => cases hn
  | succ n ih =>
      obtain ⟨m, rfl⟩ := Nat.exists_eq_add_one_of_ne_zero (Nat.ne_zero_of_lt hm)
      rw [ofFuel_succ, ofFuel_succ]
      have hagree : AgreeBefore (ofFuel n) (ofFuel m) (t, c) := by
        intro t' c' hearlier
        have hsize := hearlier.size_lt
        exact ih (hc.follows hearlier.follows) (by omega) (by omega)
      exact hagree.body_eq (.ofFuel n) hc

theorem ofFuel_eq_reading {n : Nat} (hc : c.Settled) (hn : size (t, c) < n) :
    ofFuel n t c = reading t c := ofFuel_eq hc hn (size_lt_budget t c)

/-- What the reader yields is what its functions yield when they call each other without any
fuel. -/
theorem reading_eq (hc : c.Settled) : reading t c = body reading t c := by
  obtain ⟨n, hn⟩ := Nat.exists_eq_add_one_of_ne_zero (Nat.ne_zero_of_lt (size_lt_budget t c))
  have hsize := size_lt_budget t c
  have hagree : AgreeBefore (ofFuel n) reading (t, c) := by
    intro t' c' hearlier
    have hlt := hearlier.size_lt
    exact ofFuel_eq_reading (hc.follows hearlier.follows) (by omega)
  calc reading t c = ofFuel (n + 1) t c := by rw [reading, hn]
    _ = body (ofFuel n) t c := by rw [ofFuel_succ]
    _ = body reading t c := hagree.body_eq (.ofFuel n) hc

/-- Where `P` holds, no other reading satisfies the equations of the recursion. -/
theorem reading_unique {P : Cursor → Prop} {f : Reading} (hsettled : ∀ c, P c → c.Settled)
    (hclosed : ∀ c d, P c → c.Follows d → P d) (hf : ∀ t c, P c → f t c = body f t c) (hc : P c) :
    f t c = reading t c := by
  generalize ha : (t, c) = a
  induction a using earlier_wellFounded.induction generalizing t c with
  | _ a ih =>
      subst ha
      have hagree : AgreeBefore reading f (t, c) := fun t' c' hearlier =>
        (ih (t', c') hearlier (hclosed c c' hc hearlier.follows) rfl).symm
      rw [hf t c hc, reading_eq (hsettled c hc), hagree.body_eq .reading (hsettled c hc)]

end Reader

end Tern
