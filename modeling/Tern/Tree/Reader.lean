import Tern.Token.Stream
import Tern.Tree.Basic

/-!
# Reading syntax trees

Recursive descent over a token stream, with precedence climbing for the binary operators.
Reading never fails: it stops at the first error and records it in the tree.  The functions
that call each other take fuel; `budget` gives them more than they can use.
-/

namespace Tern

/-- The tree of a phrase and the cursor behind it.  A phrase that stopped holds its error in
the tree, and `why` repeats it. -/
inductive Outcome (α : Type) where
  | done (tree : α) (rest : Cursor)
  | stopped (tree : α) (why : CompileError) (rest : Cursor)

namespace Outcome

variable {α β : Type}

def tree : Outcome α → α
  | done tree _ | stopped tree _ _ => tree

def rest : Outcome α → Cursor
  | done _ rest | stopped _ _ rest => rest

/-- Goes on behind a phrase.  When it stopped, `cut` makes the tree of the larger phrase. -/
def andThen (x : Outcome α) (cut : α → CompileError → β) (next : α → Cursor → Outcome β) :
    Outcome β :=
  match x with
  | done tree rest => next tree rest
  | stopped tree why rest => stopped (cut tree why) why rest

/-- Puts a phrase into a larger one that ends with it. -/
def map (f : α → β) : Outcome α → Outcome β
  | done tree rest => done (f tree) rest
  | stopped tree why rest => stopped (f tree) why rest

end Outcome

namespace Cursor

variable {α : Type}

def step (c : Cursor) (cut : CompileError → α) (next : Cursor → Outcome α) : Outcome α :=
  match c.advance with
  | (.ok _, rest) => next rest
  | (.error e, rest) => .stopped (cut e) e rest

/-- Stops with a problem at the current token. -/
def stop (c : Cursor) (p : Problem) (cut : CompileError → α) : Outcome α :=
  .stopped (cut ⟨p, c.pos⟩) ⟨p, c.pos⟩ c

def expect (c : Cursor) (wanted : Kind) (cut : CompileError → α) (next : Outcome α) :
    Outcome α :=
  if c.kind = wanted then next else c.stop (.expected wanted c.kind) cut

def pass (c : Cursor) (wanted : Kind) (cut : CompileError → α) (next : Cursor → Outcome α) :
    Outcome α :=
  c.expect wanted cut (c.step cut next)

end Cursor

namespace Reader

mutual

/-- An expression whose operators bind at least as tightly as `minPrec`. -/
def expr : Nat → Nat → Cursor → Outcome Expr
  | 0, _, c => c.stop (.expectedExpression c.kind) .missing
  | fuel + 1, minPrec, c =>
      (operand fuel c).andThen (fun e _ => e) fun e c =>
        (castSuffix fuel e c).andThen (fun e _ => e) fun e c => operators fuel minPrec e c

/-- A literal, an identifier-led expression, a parenthesis, or a unary operator and its
operand. -/
def operand : Nat → Cursor → Outcome Expr
  | 0, c => c.stop (.expectedExpression c.kind) .missing
  | fuel + 1, c =>
      match c.current.lexeme with
      | .integer digits suffix =>
          c.step .missing fun rest => .done (.integer c.pos digits suffix.isSome) rest
      | .char value => c.step .missing fun rest => .done (.char c.pos value) rest
      | .identifier name => named fuel ⟨name, c.pos⟩ c
      | .symbol .lparen =>
          c.step .missing fun inside =>
            (expr fuel 0 inside).andThen (fun e why => .paren c.pos e (.error why))
              fun e rest =>
                rest.pass (.symbol .rparen) (fun why => .paren c.pos e (.error why))
                  fun rest => .done (.paren c.pos e (.ok ())) rest
      | .symbol .amp => c.step .missing fun rest => (operand fuel rest).map (.reference c.pos)
      | .symbol .minus => c.step .missing fun rest => (operand fuel rest).map (.negate c.pos)
      | .symbol _ | .keyword _ | .eof => c.stop (.expectedExpression c.kind) .missing

/-- What starts with the identifier `id`, on which the cursor stands: an assignment, a call,
an element or the bare name. -/
def named : Nat → Ident → Cursor → Outcome Expr
  | 0, _, c => c.stop (.expectedExpression c.kind) .missing
  | fuel + 1, id, c =>
      c.step .missing fun c =>
        match c.kind with
        | .symbol .assign => assignment fuel (.var id) c
        | .symbol .lparen =>
            c.step (fun why => .call id (.close (.error why))) fun inside =>
              if inside.kind = .symbol .rparen then
                inside.step (fun why => .call id (.close (.error why))) fun rest =>
                  .done (.call id (.close (.ok ()))) rest
              else (args fuel inside).map (.call id)
        | .symbol .lbracket =>
            (elements fuel (.var id) c).andThen (fun p _ => .element p) fun p c =>
              if c.kind = .symbol .assign then assignment fuel p c else .done (.element p) c
        | _ => .done (.name id) c

def assignment : Nat → Place → Cursor → Outcome Expr
  | 0, _, c => c.stop (.expectedExpression c.kind) .missing
  | fuel + 1, p, c =>
      c.step (fun why => .assign p c.pos (.missing why)) fun rest =>
        (expr fuel 0 rest).map (.assign p c.pos)

/-- Arguments separated by commas, and the closing parenthesis. -/
def args : Nat → Cursor → Outcome Args
  | 0, c => c.stop (.expectedExpression c.kind) fun why => .close (.error why)
  | fuel + 1, c =>
      (expr fuel 0 c).andThen (fun e why => .cons e (.close (.error why))) fun e c =>
        if c.kind = .symbol .comma then
          c.step (fun why => .cons e (.close (.error why))) fun rest =>
            (args fuel rest).map (.cons e)
        else
          c.pass (.symbol .rparen) (fun why => .cons e (.close (.error why))) fun rest =>
            .done (.cons e (.close (.ok ()))) rest

/-- Any number of indexes behind a place. -/
def elements : Nat → Place → Cursor → Outcome Place
  | 0, p, c =>
      c.stop (.expectedExpression c.kind) fun why =>
        .element p c.pos (.missing why) (.error why)
  | fuel + 1, p, c =>
      if c.kind = .symbol .lbracket then
        c.step (fun why => .element p c.pos (.missing why) (.error why)) fun inside =>
          (expr fuel 0 inside).andThen (fun e why => .element p c.pos e (.error why)) fun e rest =>
            rest.pass (.symbol .rbracket) (fun why => .element p c.pos e (.error why)) fun rest =>
              elements fuel (.element p c.pos e (.ok ())) rest
      else .done p c

/-- `as` and a type, if they follow. -/
def castSuffix : Nat → Expr → Cursor → Outcome Expr
  | 0, _, c => c.stop (.expectedExpression c.kind) .missing
  | fuel + 1, e, c =>
      if c.kind = .keyword .asWord then
        c.step (fun why => .cast e c.pos (.missing why)) fun rest =>
          (type fuel rest).map (.cast e c.pos)
      else .done e c

/-- Any number of binary operators and operands behind `lhs`.  The operand of an operator
binds tighter than the operator itself, so that chains group to the left. -/
def operators : Nat → Nat → Expr → Cursor → Outcome Expr
  | 0, _, _, c => c.stop (.expectedExpression c.kind) .missing
  | fuel + 1, minPrec, lhs, c =>
      match c.kind.binaryOp? with
      | none => .done lhs c
      | some op =>
          if op.precedence < minPrec then .done lhs c
          else
            c.step (fun why => .binary op c.pos lhs (.missing why)) fun rest =>
              (expr fuel (op.precedence + 1) rest).andThen
                (fun rhs _ => .binary op c.pos lhs rhs) fun rhs rest =>
                  operators fuel minPrec (.binary op c.pos lhs rhs) rest

def type : Nat → Cursor → Outcome TypeExpr
  | 0, c => c.stop (.expected .identifier c.kind) .missing
  | fuel + 1, c =>
      match c.current.lexeme with
      | .identifier name =>
          c.step (.stopped (.named ⟨name, c.pos⟩)) fun rest =>
            suffixes fuel (.named ⟨name, c.pos⟩) rest
      | _ => c.stop (.expected .identifier c.kind) .missing

/-- Any number of `[count]` and `*` behind a type. -/
def suffixes : Nat → TypeExpr → Cursor → Outcome TypeExpr
  | 0, t, c => c.stop (.expectedExpression c.kind) (.stopped t)
  | fuel + 1, t, c =>
      match c.kind with
      | .symbol .lbracket =>
          c.step (.stopped t) fun inside =>
            if inside.kind = .symbol .rbracket then inside.stop .openArray (.stopped t)
            else
              (expr fuel 0 inside).andThen (fun e why => .array t inside.pos e (.error why))
                fun e rest =>
                  rest.pass (.symbol .rbracket)
                    (fun why => .array t inside.pos e (.error why)) fun rest =>
                      suffixes fuel (.array t inside.pos e (.ok ())) rest
      | .symbol .star => c.step (.stopped t) fun rest => suffixes fuel (.pointer t) rest
      | _ => .done t c

end

/-- A declaration behind `export`, whose place is given where it stands. -/
def declBody (fuel : Nat) (exported : Option Position) (c : Cursor) : Outcome Decl :=
  let cut (why : CompileError) : Decl := ⟨exported, .error why, .error why, .missing why⟩
  match c.current.lexeme with
  | .identifier name =>
      let id : Ident := ⟨name, c.pos⟩
      let cut (why : CompileError) : Decl := ⟨exported, .ok id, .error why, .missing why⟩
      c.step cut fun c =>
        c.pass (.symbol .colon) cut fun c =>
          (type fuel c).map fun t => ⟨exported, .ok id, .ok (), t⟩
  | _ => c.stop (.expected .identifier c.kind) cut

def decl (fuel : Nat) (c : Cursor) : Outcome Decl :=
  if c.kind = .keyword .exportWord then
    c.step (fun why => ⟨some c.pos, .error why, .error why, .missing why⟩) fun rest =>
      declBody fuel (some c.pos) rest
  else declBody fuel none c

def decls : Nat → Cursor → Outcome (List Decl)
  | 0, c => c.stop (.expected .identifier c.kind) fun _ => []
  | fuel + 1, c =>
      (decl fuel c).andThen (fun d _ => [d]) fun d c =>
        if c.kind = .symbol .comma then
          c.step (fun why => [d, ⟨none, .error why, .error why, .missing why⟩]) fun rest =>
            (decls fuel rest).map (d :: ·)
        else .done [d] c

/-- More fuel than any phrase that starts at `c` can use: between two tokens at most a few
of the functions above call each other. -/
def budget (c : Cursor) : Nat := 8 * c.length + 8

/-- A declaration list.  The cursor stands on `var`, which is passed whatever it is. -/
def declList (c : Cursor) : Outcome DeclList :=
  c.step (fun why => ⟨.error why, []⟩) fun rest =>
    (decls (budget rest) rest).map fun ds => ⟨.ok (), ds⟩

def declList? (c : Cursor) : Outcome (Option DeclList) :=
  if c.kind = .keyword .varWord then (declList c).map some else .done none c

/-- Statements up to `end`, on which the cursor is left. -/
def statements : Nat → Cursor → Outcome Block
  | 0, c => c.stop (.expectedStatement c.kind) fun why => ⟨[], .error why⟩
  | fuel + 1, c =>
      match c.current.lexeme with
      | .keyword .endWord => .done ⟨[], .ok ()⟩ c
      | .identifier name =>
          (named fuel ⟨name, c.pos⟩ c).andThen (fun e why => ⟨[e], .error why⟩)
            fun e rest =>
              (statements fuel rest).map fun b => { b with statements := e :: b.statements }
      | .eof => c.stop (.expected (.keyword .endWord) .eof) fun why => ⟨[], .error why⟩
      | _ => c.stop (.expectedStatement c.kind) fun why => ⟨[], .error why⟩

def block (c : Cursor) : Outcome Block := statements (budget c) c

def program (c : Cursor) : Outcome Program :=
  (declList? c).andThen
    (fun gs why => ⟨gs, .error why, none, ⟨[], .error why⟩, .error why⟩) fun gs c =>
  c.pass (.keyword .beginWord)
    (fun why => ⟨gs, .error why, none, ⟨[], .error why⟩, .error why⟩) fun c =>
  (declList? c).andThen
    (fun ls why => ⟨gs, .ok (), ls, ⟨[], .error why⟩, .error why⟩) fun ls c =>
  (block c).andThen (fun b why => ⟨gs, .ok (), ls, b, .error why⟩) fun b c =>
  c.step (fun why => ⟨gs, .ok (), ls, b, .error why⟩) fun c =>
  c.expect .eof (fun why => ⟨gs, .ok (), ls, b, .error why⟩)
    (.done ⟨gs, .ok (), ls, b, .ok ()⟩ c)

end Reader

end Tern
