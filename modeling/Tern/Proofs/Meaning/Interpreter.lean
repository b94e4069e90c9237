import Tern.Proofs.Machine.Operation

/-!
# The meaning of programs

An interpreter that works on syntax trees and a flat memory of bytes.  Values are unsigned
numbers of their type's size; a variable or an element is a location until its number is
needed.  Locals lie in a frame below the stack pointer, one below the other.  Some bytes may be
barred; the interpreter gives up where a run would touch one of them.
-/

namespace Tern

namespace Meaning

open Machine

inductive Datum where
  | void
  | number (t : Ty) (n : Nat)
  | location (t : Ty) (a : Addr)
  deriving DecidableEq

inductive Sense where
  | var (t : Ty) (a : Addr)
  | type (t : Ty)
  | procedure (r : Routine)
  deriving DecidableEq

inductive Stop where
  | divisionByZero
  /-- The run touches a byte that is barred. -/
  | stray
  /-- What is to be run has no meaning. -/
  | stuck
  deriving DecidableEq

/-- The memory, and what has been written to files. -/
structure World where
  mem : Memory
  output : List Event

/-- A piece of a run. -/
abbrev Run := EStateM Stop World

/-- The names in scope, the innermost first, the address of the byte that ends a line, and the
bytes that a run must not touch. -/
structure Context where
  names : List (String × Sense)
  newline : Addr
  barred : Addr → Bool

/-- None of the `k` bytes at `a` is barred. -/
def Context.Clear (ctx : Context) (a : Addr) (k : Nat) : Prop :=
  ∀ i < k, ctx.barred (a + BitVec.ofNat 64 i) = false

instance (ctx : Context) (a : Addr) (k : Nat) : Decidable (ctx.Clear a k) :=
  inferInstanceAs (Decidable (∀ i < k, ctx.barred (a + BitVec.ofNat 64 i) = false))

/-- The number that a datum denotes, and its type; an array is no number. -/
def fetch (ctx : Context) : Datum → Run (Ty × Nat)
  | .void => throw .stuck
  | .number t n => pure (t, n)
  | .location t a =>
      if t.isArray then throw .stuck
      else if ctx.Clear a t.size then do
        let w ← get
        return (t, load w.mem a t.size)
      else throw .stray

/-- Where the elements of a datum start, and their type.  A pointer holds that address, an array
is there itself. -/
def elements (ctx : Context) : Datum → Run (Ty × Addr)
  | .location (.array t _) a => pure (t, a)
  | d => do
      let (t, n) ← fetch ctx d
      match t with
      | .pointer t => return (t, BitVec.ofNat 64 n)
      | _ => throw .stuck

def element (ctx : Context) (array index : Datum) : Run Datum := do
  let (t, a) ← elements ctx array
  let (_, i) ← fetch ctx index
  return .location t (a + BitVec.ofNat 64 (i * t.size))

def reference : Datum → Run Datum
  | .location t a => pure (.number (.pointer t) a.toNat)
  | _ => throw .stuck

def negate (ctx : Context) (d : Datum) : Run Datum := do
  let (t, n) ← fetch ctx d
  return .number t ((2 ^ (8 * t.size) - n) % 2 ^ (8 * t.size))

/-- The number of a datum at another type: it loses its high bytes, or gets zeros there. -/
def convert (ctx : Context) (d : Datum) (t : Ty) : Run Datum := do
  let (_, n) ← fetch ctx d
  return .number t (n % 2 ^ (8 * t.size))

/-- Conversion to a type, which is no array.  A location of the same size stays one. -/
def cast (ctx : Context) (d : Datum) (t : Ty) : Run Datum :=
  if t.isArray then throw .stuck
  else
    match d with
    | .location s a =>
        if s.isArray = false ∧ s.size = t.size then pure (.location t a) else convert ctx d t
    | d => convert ctx d t

/-- An operation in the wider type of the two. -/
def binary (ctx : Context) (op : BinaryOp) (lhs rhs : Datum) : Run Datum := do
  let (lt, x) ← fetch ctx lhs
  let (rt, y) ← fetch ctx rhs
  match op.result? (lt.wider rt).size x y with
  | some n => return .number (lt.wider rt) n
  | none => throw .divisionByZero

/-- Stores a number at a location, which is no array. -/
def assign (ctx : Context) (target source : Datum) : Run Datum :=
  match target with
  | .location t a =>
      if t.isArray then throw .stuck
      else do
        let (_, n) ← fetch ctx source
        if ctx.Clear a t.size then
          modify fun w => { w with mem := store w.mem a t.size n }
          return .location t a
        else throw .stray
  | _ => throw .stuck

/-- Writes the byte that ends a line. -/
def writeLine (ctx : Context) : Run Datum := do
  if ctx.barred ctx.newline then throw .stray
  else
    modify fun w => { w with output := w.output ++ [⟨1, [w.mem ctx.newline]⟩] }
    return .void

def call (ctx : Context) : Routine → List Datum → Run Datum
  | .writeEln, [] => writeLine ctx
  | .digitToInt, [d] => do
      let (_, n) ← fetch ctx d
      return .number (.builtin .byte) ((n + 2 ^ 8 - 48) % 2 ^ 8)
  | _, _ => throw .stuck

mutual

def expr (ctx : Context) : Expr → Run Datum
  | .missing _ => throw .stuck
  | .integer _ digits isLong =>
      pure (.number (.builtin (if isLong then .long else .int)) (Const.ofDigits digits.toList))
  | .char _ value => pure (.number (.builtin .char) value.toNat)
  | .name id =>
      match ctx.names.lookup id.name with
      | some (.var t a) => pure (.location t a)
      | some (.procedure r) => call ctx r []
      | _ => throw .stuck
  | .call id as =>
      match ctx.names.lookup id.name with
      | some (.procedure r) => do
          let ds ← arguments ctx as
          call ctx r ds
      | _ => throw .stuck
  | .element p => place ctx p
  | .assign target _ source => do
      let t ← place ctx target
      let d ← expr ctx source
      assign ctx t d
  | .paren _ inner _ => expr ctx inner
  | .reference _ operand => do
      let d ← expr ctx operand
      reference d
  | .negate _ operand => do
      let d ← expr ctx operand
      negate ctx d
  | .cast operand _ te => do
      let d ← expr ctx operand
      let t ← type ctx te
      cast ctx d t
  | .binary op _ lhs rhs => do
      let l ← expr ctx lhs
      let r ← expr ctx rhs
      binary ctx op l r

def place (ctx : Context) : Place → Run Datum
  | .var id =>
      match ctx.names.lookup id.name with
      | some (.var t a) => pure (.location t a)
      | _ => throw .stuck
  | .element array _ index _ => do
      let a ← place ctx array
      let i ← expr ctx index
      element ctx a i

def arguments (ctx : Context) : Args → Run (List Datum)
  | .close _ => pure []
  | .cons arg rest => do
      let d ← expr ctx arg
      let ds ← arguments ctx rest
      return d :: ds

def type (ctx : Context) : TypeExpr → Run Ty
  | .missing _ | .stopped .. => throw .stuck
  | .named id =>
      match ctx.names.lookup id.name with
      | some (.type t) => pure t
      | _ => throw .stuck
  | .pointer base => do
      let t ← type ctx base
      return .pointer t
  | .array base _ count _ => do
      let t ← type ctx base
      let d ← expr ctx count
      let (_, n) ← fetch ctx d
      return .array t n

end

/-- Declares variables in order; `address` gives the place of a variable below the `total` bytes
that were declared before it. -/
def declare (address : Nat → Variable → Addr) : Nat → List Decl → Context → Run (Context × Nat)
  | total, [], ctx => pure (ctx, total)
  | total, d :: ds, ctx =>
      match d.id with
      | .error _ => throw .stuck
      | .ok id => do
          let t ← type ctx d.type
          let a := address total { name := id.name, type := t, exported := d.exported.isSome }
          declare address (total + t.size) ds { ctx with names := (id.name, .var t a) :: ctx.names }

def statements (ctx : Context) : List Expr → Run Unit
  | [] => pure ()
  | e :: es => do
      let _ ← expr ctx e
      statements ctx es

/-- What a program finds when it starts: the places of its labels, the stack pointer, and the
bytes that are barred, which may depend on how many bytes its local variables have. -/
structure Entry where
  place : String → Addr
  rsp : Addr
  barred : Nat → Addr → Bool

namespace Entry

def context (e : Entry) : Context where
  names := Builtin.all.map (fun b => (b.name, .type (.builtin b))) ++
    [("write_eln", .procedure .writeEln), ("d2i", .procedure .digitToInt)]
  newline := e.place Emit.newlineLabel
  barred := fun _ => false

def frame (e : Entry) : Addr := e.rsp - 8

def globalAddress (e : Entry) (_ : Nat) (v : Variable) : Addr := e.place (Emit.globalLabel v)

/-- A local variable is below those that were declared before it. -/
def localAddress (e : Entry) (total : Nat) (v : Variable) : Addr :=
  e.frame - BitVec.ofNat 64 (total + v.type.size)

end Entry

/-- Runs a program; the result tells where its variables are. -/
def program (e : Entry) (tree : Program) : Run Context := do
  let (ctx, _) ← declare e.globalAddress 0 (tree.globals.elim [] DeclList.decls) e.context
  let (ctx, total) ← declare e.localAddress 0 (tree.locals.elim [] DeclList.decls) ctx
  let ctx := { ctx with barred := e.barred total }
  statements ctx tree.body.statements
  return ctx

end Meaning

end Tern
