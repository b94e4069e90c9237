import Tern.Item
import Tern.Token.Basic

/-!
# Why a compilation fails

A problem is a fault of the program being compiled and is reported at a position.  A fault
is a broken assumption of the compiler itself.  Both are causes; their wording is given in
one place each.
-/

namespace Tern

/-- The stable identifier of a kind of diagnostic. -/
inductive Code where
  | unclassified
  | unreadable
  | internal
  | lexical
  | grammar
  | name
  | type
  | constant
  deriving DecidableEq

namespace Code

def all : List Code := [unclassified, unreadable, internal, lexical, grammar, name, type, constant]

def text : Code → String
  | unclassified => "TERN000"
  | unreadable => "TERN001"
  | internal => "TERN002"
  | lexical => "TERN100"
  | grammar => "TERN101"
  | name => "TERN200"
  | type => "TERN300"
  | constant => "TERN301"

end Code

inductive Role where
  | var
  | type
  | procedure
  deriving DecidableEq

namespace Role

def noun : Role → String
  | var => "variable"
  | type => "type"
  | procedure => "procedure"

def missingNoun : Role → String
  | var => "identifier"
  | r => r.noun

end Role

inductive Problem where
  | malformedInteger
  | malformedChar
  | unknownEscape
  | wideChar
  | unterminatedChar
  | unexpectedChar (c : Char)
  | expected (wanted got : Kind)
  | expectedExpression (got : Kind)
  | expectedStatement (got : Kind)
  | expectedAssignmentOrCall
  | exportedLocal
  | undeclared (role : Role) (name : String)
  | wrongRole (role : Role) (name : String)
  | usedInOwnList (name : String)
  | reservedName (name : String)
  | redeclared (name : String)
  | argumentCount (procedure : String) (wanted got : Nat)
  | argumentType (ordinal : Nat) (procedure : String) (wanted got : Ty)
  | notIndexed (t : Ty)
  | badIndex (t index : Ty)
  | assignedArray (t : Ty)
  | assignedTypes (target source : Ty)
  | notAddressable
  | voidValue
  | notNegated (t : Ty)
  | badCast (source target : Ty)
  | unsupported (t : Ty) (op : BinaryOp)
  | operandTypes (left right : Ty)
  | divisionByZero
  | literalTooWide (value : Nat) (t : Ty)
  | openArray
  | variableArraySize
  | arraySizeRange (size : Int)
  | typeTooLarge (t : Ty)
  | scopeTooLarge
  /-- A problem with a code and wording of its own. -/
  | other (code : Code) (text : String)
  deriving DecidableEq

namespace Problem

def code : Problem → Code
  | malformedInteger | malformedChar | unknownEscape | wideChar | unterminatedChar
  | unexpectedChar _ => .lexical
  | expected .. | expectedExpression _ | expectedStatement _ | expectedAssignmentOrCall
  | exportedLocal => .grammar
  | undeclared .. | wrongRole .. | usedInOwnList _ | reservedName _ | redeclared _ => .name
  | argumentCount .. | argumentType .. | notIndexed _ | badIndex .. | assignedArray _
  | assignedTypes .. | notAddressable | voidValue | notNegated _ | badCast .. | unsupported ..
  | operandTypes .. => .type
  | divisionByZero | literalTooWide .. | openArray | variableArraySize | arraySizeRange _
  | typeTooLarge _ | scopeTooLarge => .constant
  | other c _ => c

private def quoted (name : String) : String := "\"" ++ name ++ "\""

def message : Problem → String
  | malformedInteger => "Malformed integer literal."
  | malformedChar => "Malformed character literal."
  | unknownEscape => "Unknown escape in character literal."
  | wideChar => "Character literal does not fit in a byte."
  | unterminatedChar => "Unterminated character literal."
  | unexpectedChar c => "Unexpected character '" ++ Text.firstUnit c ++ "'."
  | expected wanted got => "Expected " ++ wanted.describe ++ ", got " ++ got.describe ++ "."
  | expectedExpression got => "Expected expression, got " ++ got.describe ++ "."
  | expectedStatement got => "Expected statement, got " ++ got.describe ++ "."
  | expectedAssignmentOrCall => "Expected assignment or call."
  | exportedLocal => "Cannot export a non-global variable."
  | undeclared role n => "Undeclared " ++ role.missingNoun ++ " " ++ quoted n ++ "."
  | wrongRole role n => quoted n ++ " is not a " ++ role.noun ++ "."
  | usedInOwnList n =>
      "Variable " ++ quoted n ++ " cannot be used inside its own declaration list."
  | reservedName n =>
      "Cannot export " ++ quoted n ++ ": the name is reserved in assembly output."
  | redeclared n => quoted n ++ " is already declared in this scope."
  | argumentCount p wanted got =>
      "Procedure " ++ quoted p ++ " expects " ++ toString wanted ++ " argument(s), got " ++
        toString got ++ "."
  | argumentType ordinal p wanted got =>
      "Argument " ++ toString ordinal ++ " to " ++ quoted p ++ " expected " ++ wanted.spelling ++
        ", got " ++ got.spelling ++ "."
  | notIndexed t => "Type " ++ t.spelling ++ " does not support indexing."
  | badIndex t index =>
      "Type " ++ t.spelling ++ " cannot be indexed with " ++ index.spelling ++ "."
  | assignedArray t => "Cannot assign to a value of array type " ++ t.spelling ++ "."
  | assignedTypes target source =>
      "Incompatible types " ++ target.spelling ++ " and " ++ source.spelling ++ " in assignment."
  | notAddressable => "Expression is not addressable."
  | voidValue => "Cannot use a void value as an expression."
  | notNegated t => "Cannot negate a value of type " ++ t.spelling ++ "."
  | badCast source target => "Cannot cast " ++ source.spelling ++ " to " ++ target.spelling ++ "."
  | unsupported t op =>
      "Type " ++ t.spelling ++ " does not support operator " ++ quoted op.spelling ++ "."
  | operandTypes l r =>
      "Incompatible types " ++ l.spelling ++ " and " ++ r.spelling ++ " in binary operation."
  | divisionByZero => "Division by zero in constant expression."
  | literalTooWide value t =>
      "Integer literal " ++ toString value ++ " does not fit in " ++ t.spelling ++ "."
  | openArray => "Variable-length arrays are not supported."
  | variableArraySize => "Array size must be constant."
  | arraySizeRange size =>
      "Array size must be between 1 and " ++ toString Ty.countLimit ++ ", got " ++ toString size ++
        "."
  | typeTooLarge t =>
      "Type " ++ t.spelling ++ " is larger than " ++ toString Ty.sizeLimit ++ " bytes."
  | scopeTooLarge =>
      "Variables of this scope take more than " ++ toString Ty.sizeLimit ++ " bytes."
  | other _ text => text

end Problem

structure CompileError where
  problem : Problem
  pos : Position
  deriving DecidableEq

inductive Fault where
  | poolExhausted
  | registerSize (n : Int)
  | operandSize (n : Int)
  | notScalar (n : Nat)
  | unitSize (n : Nat)
  | noFrame
  | noFrameToLeave
  | frameTooLarge (n : Nat)
  | placedTwice (name : String)
  | notPlaced (name : String)
  | noAddress (item : Item)
  | notNegated (item : Item)
  | notIndexed (item : Item)
  | notAssigned (item : Item)
  | voidOperand
  | voidIndex
  | voidSource
  | voidRetyped
  | constCast
  | sizeMismatch
  | notIndexable
  | malformedCall
  | unknownProcedure (name : String)
  | leaked (line : Nat) (busy : List Register)
  | globalScopePopped
  | missingBuiltin (name : String)
  /-- A fault with wording of its own. -/
  | other (text : String)
  deriving DecidableEq

namespace Fault

def message : Fault → String
  | poolExhausted =>
      "register pool exhausted (" ++ toString Register.pool.length ++
        " temporaries live); expression too complex"
  | registerSize n => "invalid size " ++ toString n ++ " given to regName"
  | operandSize n => "invalid size " ++ toString n ++ " given to sizeKeyword"
  | notScalar n => "type of size " ++ toString n ++ " cannot live in a register"
  | unitSize n => "invalid type size " ++ toString n ++ " given to dataDirective"
  | noFrame => "no active frame"
  | noFrameToLeave => "leaveMain without an active frame"
  | frameTooLarge n => "frame of " ++ toString n ++ " bytes"
  | placedTwice name => "storage for " ++ name ++ " assigned twice"
  | notPlaced name => "variable " ++ name ++ " used before its storage was emitted"
  | noAddress item => item.kindName ++ " item given to addressOf"
  | notNegated item => item.kindName ++ " item given to negate"
  | notIndexed item => item.kindName ++ " item given as array to index"
  | notAssigned item => item.kindName ++ " item given as assign target"
  | voidOperand => "void item given to operand"
  | voidIndex => "void item given as index"
  | voidSource => "void item given as assign source"
  | voidRetyped => "called retype on a void item"
  | constCast => "Const item given to cast"
  | sizeMismatch => "lhs and rhs sizes should be the same in binary"
  | notIndexable => "non-indexable item given to index"
  | malformedCall => "malformed d2i call"
  | unknownProcedure name => "invalid procedure " ++ name ++ " given to call"
  | leaked line busy =>
      "statement on line " ++ toString line ++ " leaked registers: \x7b" ++
        String.intercalate "," (busy.map Register.name) ++ "\x7d"
  | globalScopePopped => "attempted to pop the global scope"
  | missingBuiltin name => "builtin type " ++ name ++ " is not declared"
  | other text => text

end Fault

inductive Failure where
  | problem (e : CompileError)
  | fault (f : Fault)
  deriving DecidableEq

instance : Coe Fault Failure := ⟨Failure.fault⟩

end Tern
