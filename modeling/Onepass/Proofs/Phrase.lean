import Onepass.Token
import Onepass.Tree

/-!
# Onepass.Proofs.Phrase

The grammar of programs. A `Phrase` is what a stretch of a program can be, with the trees that it
stands for, and `Derives p ls` says that the lexemes `ls` make up the phrase `p`.

* program: lines, perhaps a statement that the end of the text closes, the end of the text
* line: nothing or a statement, and a line end
* statement: `x = e`, `f(..)`, `local x`, `local x = e`, `return e`, `print(e)` and the three
  constructs `function f(..)`, `while e do` and `if e then`, whose blocks are lines up to `end`
* operation of level `k`: operations of level `k + 1` with operators of level `k` between them;
  an expression is one of level 1, and behind level 5 comes the operand
* operand: a name, a number, a string, a call, `read()`, an operand behind `+`, `-` or `not`, an
  expression in parentheses
-/

namespace Onepass

namespace BinaryOp

/-- The token of the operator. -/
def mark : BinaryOp → Mark
  | .arith .add => .plus
  | .arith .sub => .minus
  | .arith .mul => .star
  | .arith .div => .slash
  | .arith .and => .kAnd
  | .arith .or => .kOr
  | .relation .greater => .greater
  | .relation .less => .less
  | .relation .equal => .equal
  | .concat => .concat

theorem level_le (op : BinaryOp) : op.level ≤ 5 := by
  rcases op with op | op | _
  · cases op <;> decide
  · cases op <;> decide
  · decide

end BinaryOp

namespace UnaryOp

/-- The token of the operator. -/
def mark : UnaryOp → Mark
  | .plus => .plus
  | .neg => .minus
  | .not => .kNot

end UnaryOp

namespace Lexeme

/-- Names with commas between them. -/
def names : List String → List Lexeme
  | [] => []
  | x :: xs => .ident x :: xs.flatMap fun y => [.mark .comma, .ident y]

theorem names_snoc {xs : List String} (h : xs ≠ []) (y : String) :
    names (xs ++ [y]) = names xs ++ [.mark .comma, .ident y] := by
  cases xs with
  | nil => exact absurd rfl h
  | cons x xs => simp [names]

end Lexeme

/-- What lexemes can make up. -/
inductive Phrase where
  | operand (t : Tree)
  /-- Operators of the level and of tighter ones. -/
  | operation (level : Nat) (t : Tree)
  /-- Expressions with commas between them. -/
  | list (ts : List Tree)
  /-- Parentheses and what a call has between them. -/
  | arguments (ts : List Tree)
  | statement (inFunction : Bool) (t : Tree)
  | lines (inFunction : Bool) (ts : List Tree)
  | program (t : Tree)

/-- An operation of the loosest level. -/
abbrev Phrase.expression (t : Tree) : Phrase := .operation 1 t

/-- The lexemes make up the phrase. -/
inductive Derives : Phrase → List Lexeme → Prop where
  | var {x} : Derives (.operand (.var () x)) [.ident x]
  | int {n} : Derives (.operand (.int () n)) [.int n]
  | str {s} : Derives (.operand (.str () s)) [.string s]
  | read : Derives (.operand (.read ())) [.mark .kRead, .mark .openParen, .mark .closeParen]
  | call {f as ls} : Derives (.arguments as) ls →
      Derives (.operand (.call () f as)) (.ident f :: ls)
  | unary {op t ls} : Derives (.operand t) ls →
      Derives (.operand (.unary () op t)) (.mark op.mark :: ls)
  /-- Parentheses leave no node. -/
  | group {t ls} : Derives (.expression t) ls →
      Derives (.operand t) (.mark .openParen :: (ls ++ [.mark .closeParen]))
  | tightest {t ls} : Derives (.operand t) ls → Derives (.operation 6 t) ls
  | tighter {k t ls} : Derives (.operation (k + 1) t) ls → Derives (.operation k t) ls
  /-- Operators of one level take what stands to their left first. -/
  | binary {k op l r ls rs} : op.level = k → Derives (.operation k l) ls →
      Derives (.operation (k + 1) r) rs →
      Derives (.operation k (.binary () op l r)) (ls ++ .mark op.mark :: rs)
  | first {t ls} : Derives (.expression t) ls → Derives (.list [t]) ls
  | more {ts t ls rs} : Derives (.list ts) ls → Derives (.expression t) rs →
      Derives (.list (ts ++ [t])) (ls ++ .mark .comma :: rs)
  | noArguments : Derives (.arguments []) [.mark .openParen, .mark .closeParen]
  | arguments {ts ls} : Derives (.list ts) ls →
      Derives (.arguments ts) (.mark .openParen :: (ls ++ [.mark .closeParen]))
  | assign {b x t ls} : Derives (.expression t) ls →
      Derives (.statement b (.assign () x t)) (.ident x :: .mark .assign :: ls)
  | invoke {b f as ls} : Derives (.arguments as) ls →
      Derives (.statement b (.call () f as)) (.ident f :: ls)
  | declare {b x} : Derives (.statement b (.declare () x)) [.mark .kLocal, .ident x]
  | define {b x t ls} : Derives (.expression t) ls →
      Derives (.statement b (.define () x t))
        (.mark .kLocal :: .ident x :: .mark .assign :: ls)
  /-- A `return` stands in a function, in whatever constructs of it. -/
  | ret {t ls} : Derives (.expression t) ls →
      Derives (.statement true (.ret () t)) (.mark .kReturn :: ls)
  | print {b t ls} : Derives (.expression t) ls →
      Derives (.statement b (.print () t))
        (.mark .kPrint :: .mark .openParen :: (ls ++ [.mark .closeParen]))
  | function {b f ps body ls} : Derives (.lines true body) ls →
      Derives (.statement b (.function () f ps body))
        (.mark .kFunction :: .ident f :: .mark .openParen :: (Lexeme.names ps ++
          .mark .closeParen :: .mark .newline :: (ls ++ [.mark .kEnd])))
  | loop {b c body cs ls} : Derives (.expression c) cs → Derives (.lines b body) ls →
      Derives (.statement b (.loop () c body))
        (.mark .kWhile :: (cs ++ .mark .kDo :: .mark .newline :: (ls ++ [.mark .kEnd])))
  /-- Without an `else` the second block is empty. -/
  | branch {b c yes cs ls} : Derives (.expression c) cs → Derives (.lines b yes) ls →
      Derives (.statement b (.branch () c yes []))
        (.mark .kIf :: (cs ++ .mark .kThen :: .mark .newline :: (ls ++ [.mark .kEnd])))
  | branchElse {b c yes no cs ls rs} : Derives (.expression c) cs → Derives (.lines b yes) ls →
      Derives (.lines b no) rs →
      Derives (.statement b (.branch () c yes no))
        (.mark .kIf :: (cs ++ .mark .kThen :: .mark .newline :: (ls ++
          .mark .kElse :: .mark .newline :: (rs ++ [.mark .kEnd]))))
  | nil {b} : Derives (.lines b []) []
  /-- A line with nothing on it is a statement too. -/
  | skip {b ts ls} : Derives (.lines b ts) ls →
      Derives (.lines b (ts ++ [.skip ()])) (ls ++ [.mark .newline])
  | line {b ts t ls rs} : Derives (.lines b ts) ls → Derives (.statement b t) rs →
      Derives (.lines b (ts ++ [t])) (ls ++ (rs ++ [.mark .newline]))
  | program {body ls} : Derives (.lines false body) ls →
      Derives (.program (.block () body)) (ls ++ [.mark .eof])
  /-- The end of the text ends the last line. -/
  | openProgram {body t ls rs} : Derives (.lines false body) ls →
      Derives (.statement false t) rs →
      Derives (.program (.block () (body ++ [t]))) (ls ++ (rs ++ [.mark .eof]))

namespace Derives

variable {t : Tree} {ls : List Lexeme}

/-- What is an operation of a level is one of every looser level. -/
theorem looser {j k : Nat} (hkj : k ≤ j) (h : Derives (.operation j t) ls) :
    Derives (.operation k t) ls := by
  induction hkj with
  | refl => exact h
  | step _ ih => exact ih h.tighter

theorem operation {k : Nat} (hk : k ≤ 6) (h : Derives (.operand t) ls) :
    Derives (.operation k t) ls :=
  h.tightest.looser hk

/-- Level 0 has no operators. -/
theorem expression (h : Derives (.operation 0 t) ls) : Derives (.expression t) ls := by
  cases h with
  | tighter h => exact h
  | binary hop => exact absurd hop (Nat.ne_of_gt (BinaryOp.level_pos _))

theorem list_ne_nil {ts : List Tree} (h : Derives (.list ts) ls) : ts ≠ [] := by
  cases h <;> simp

/-- Only a block can have no lexemes. -/
theorem nonempty {p : Phrase} (h : Derives p ls) (hp : ∀ b ts, p ≠ .lines b ts) : ls ≠ [] := by
  induction h with
  | tightest _ ih | tighter _ ih | first _ ih => exact ih nofun
  | nil | skip | line => exact absurd rfl (hp _ _)
  | _ => simp

theorem ne_nil {k : Nat} (h : Derives (.operation k t) ls) : ls ≠ [] := h.nonempty nofun

end Derives
end Onepass
