import Tern.Operator
import Tern.Source.Position

/-!
# Tokens

A token is a lexeme and the position where it starts.  Its kind is what the grammar
looks at; the end of the text is a token like any other.
-/

namespace Tern

inductive Keyword where
  | varWord
  | exportWord
  | beginWord
  | endWord
  | asWord
  deriving DecidableEq

namespace Keyword

def all : List Keyword := [varWord, exportWord, beginWord, endWord, asWord]

def spelling : Keyword → String
  | varWord => "var"
  | exportWord => "export"
  | beginWord => "begin"
  | endWord => "end"
  | asWord => "as"

/-- The keyword that a word spells, if it is reserved. -/
def ofWord? (word : String) : Option Keyword :=
  all.find? fun k => k.spelling == word

end Keyword

inductive Symbol where
  | assign
  | shl
  | shr
  | colon
  | comma
  | lparen
  | rparen
  | lbracket
  | rbracket
  | amp
  | plus
  | minus
  | star
  | slash
  | percent
  deriving DecidableEq

namespace Symbol

/-- Every symbol, the two-character spellings first, so that `:=` wins over `:`. -/
def all : List Symbol :=
  [assign, shl, shr, colon, comma, lparen, rparen, lbracket, rbracket, amp, plus, minus, star,
    slash, percent]

def spelling : Symbol → String
  | assign => ":="
  | shl => "<<"
  | shr => ">>"
  | colon => ":"
  | comma => ","
  | lparen => "("
  | rparen => ")"
  | lbracket => "["
  | rbracket => "]"
  | amp => "&"
  | plus => "+"
  | minus => "-"
  | star => "*"
  | slash => "/"
  | percent => "%"

def binaryOp? : Symbol → Option BinaryOp
  | plus => some .add
  | minus => some .sub
  | star => some .mul
  | slash => some .div
  | percent => some .mod
  | shl => some .shl
  | shr => some .shr
  | _ => none

/-- Whether a symbol can open a unary expression. -/
def isUnary : Symbol → Bool
  | amp | minus => true
  | _ => false

end Symbol

/-- What the grammar distinguishes about a token. -/
inductive Kind where
  | identifier
  | integer
  | char
  | keyword (k : Keyword)
  | symbol (s : Symbol)
  | eof
  deriving DecidableEq

namespace Kind

def describe : Kind → String
  | identifier => "identifier"
  | integer => "integer literal"
  | char => "character literal"
  | keyword k => "\"" ++ k.spelling ++ "\""
  | symbol s => "\"" ++ s.spelling ++ "\""
  | eof => "end of input"

def binaryOp? : Kind → Option BinaryOp
  | symbol s => s.binaryOp?
  | _ => none

def isUnary : Kind → Bool
  | symbol s => s.isUnary
  | _ => false

end Kind

/-- What a token says.  An integer keeps its digits and its optional `l` or `L`; a
character literal is the character that it denotes. -/
inductive Lexeme where
  | identifier (name : String)
  | integer (digits : String) (suffix : Option Char)
  | char (value : Char)
  | keyword (k : Keyword)
  | symbol (s : Symbol)
  | eof
  deriving DecidableEq

namespace Lexeme

def kind : Lexeme → Kind
  | identifier _ => .identifier
  | integer .. => .integer
  | char _ => .char
  | keyword k => .keyword k
  | symbol s => .symbol s
  | eof => .eof

/-- The text of a lexeme; for a character literal, the character itself. -/
def text : Lexeme → String
  | identifier name => name
  | integer digits suffix => digits ++ (suffix.elim "" Char.toString)
  | char value => value.toString
  | keyword k => k.spelling
  | symbol s => s.spelling
  | eof => ""

end Lexeme

structure Token where
  lexeme : Lexeme
  pos : Position
  deriving DecidableEq

def Token.kind (t : Token) : Kind := t.lexeme.kind

end Tern
