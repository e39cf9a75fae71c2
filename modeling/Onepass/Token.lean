import Onepass.Word

/-!
# Onepass.Token

Tokens. A `Mark` is a token that is fixed by its kind alone: a symbol, a reserved word, the end
of a line, the end of the text. A `Lexeme` is a mark or carries a payload, a `Token` is a lexeme
with its line, and a `Category` is what is left of a lexeme when its payload is forgotten.
-/

namespace Onepass

inductive Mark where
  | plus
  | minus
  | star
  | slash
  | openParen
  | closeParen
  | comma
  | less
  | greater
  | equal
  | concat
  | assign
  | newline
  | eof
  | kPrint
  | kRead
  | kAnd
  | kOr
  | kNot
  | kIf
  | kThen
  | kElse
  | kWhile
  | kDo
  | kEnd
  | kLocal
  | kFunction
  | kReturn
  deriving DecidableEq, Repr

namespace Mark

/-- The name under which messages speak of it. -/
def name : Mark → String
  | .plus => "PLUS"
  | .minus => "MINUS"
  | .star => "MULT"
  | .slash => "DIV"
  | .openParen => "OPEN_PAR"
  | .closeParen => "CLOSE_PAR"
  | .comma => "COMMA"
  | .less => "LOWER"
  | .greater => "BIGGER"
  | .equal => "EQUAL"
  | .concat => "CONCAT"
  | .assign => "ASSIGN"
  | .newline => "NEWLINE"
  | .eof => "EOF"
  | .kPrint => "PRINT"
  | .kRead => "READ"
  | .kAnd => "AND"
  | .kOr => "OR"
  | .kNot => "NOT"
  | .kIf => "IF"
  | .kThen => "THEN"
  | .kElse => "ELSE"
  | .kWhile => "WHILE"
  | .kDo => "DO"
  | .kEnd => "END"
  | .kLocal => "LOCAL"
  | .kFunction => "FUNCTION"
  | .kReturn => "RETURN"

/-- The reserved words. -/
def keywords : List (String × Mark) :=
  [("print", .kPrint), ("read", .kRead), ("and", .kAnd), ("or", .kOr), ("not", .kNot),
   ("if", .kIf), ("then", .kThen), ("else", .kElse), ("while", .kWhile), ("do", .kDo),
   ("end", .kEnd), ("local", .kLocal), ("function", .kFunction), ("return", .kReturn)]

def keyword? (word : String) : Option Mark := keywords.lookup word

/-- The symbols of one character that no longer symbol begins with. -/
def symbols : List (Char × Mark) :=
  [('(', .openParen), (')', .closeParen), ('>', .greater), ('<', .less), ('+', .plus),
   ('-', .minus), ('*', .star), ('/', .slash), (',', .comma)]

def symbol? (c : Char) : Option Mark := symbols.lookup c

end Mark

inductive Category where
  | int
  | string
  | ident
  | mark (m : Mark)
  deriving DecidableEq, Repr

namespace Category

def name : Category → String
  | .int => "INT"
  | .string => "STRING"
  | .ident => "IDENTIFIER"
  | .mark m => m.name

end Category

inductive Lexeme where
  | int (value : Word)
  | string (text : String)
  | ident (name : String)
  | mark (m : Mark)
  deriving DecidableEq, Repr

namespace Lexeme

def category : Lexeme → Category
  | .int _ => .int
  | .string _ => .string
  | .ident _ => .ident
  | .mark m => .mark m

/-- How many line ends the lexeme spans. -/
def lineBreaks : Lexeme → Nat
  | .string text => text.toList.count '\n'
  | .mark .newline => 1
  | _ => 0

end Lexeme

structure Token where
  lexeme : Lexeme
  line : Nat
  deriving DecidableEq, Repr

namespace Token

def category (t : Token) : Category := t.lexeme.category

end Token
end Onepass
