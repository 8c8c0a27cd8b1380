import FrontEnd.Token.Kind

/-!
Precedence of expressions: the levels, loosest first, and the operators of each.
-/

set_option autoImplicit false

namespace FrontEnd

inductive Precedence where
  | assignment | logicalOr | logicalAnd | bitwiseOr | bitwiseXor | bitwiseAnd | equality
  | comparison | bitwiseShift | additive | multiplicative | cast | prefixUnary | postfixUnary
deriving DecidableEq, Repr

namespace Precedence

/-- The levels in order. -/
def all : List Precedence := [
  .assignment, .logicalOr, .logicalAnd, .bitwiseOr, .bitwiseXor, .bitwiseAnd, .equality,
  .comparison, .bitwiseShift, .additive, .multiplicative, .cast, .prefixUnary, .postfixUnary]

theorem mem_all (p : Precedence) : p ∈ all := by cases p <;> decide

/-- The levels whose operators stand between two operands and nest to the left. -/
def binaryLevels : List Precedence := [
  .logicalOr, .logicalAnd, .bitwiseOr, .bitwiseXor, .bitwiseAnd, .equality, .comparison,
  .bitwiseShift, .additive, .multiplicative]

def operators : Precedence → List TokenKind
  | .assignment => [.equals, .plusEquals, .minusEquals, .multiplyEquals, .divideEquals,
      .moduloEquals, .andEquals, .orEquals, .xorEquals, .leftShiftEquals, .rightShiftEquals]
  | .logicalOr => [.logicalOr]
  | .logicalAnd => [.logicalAnd]
  | .bitwiseOr => [.bitwiseOr]
  | .bitwiseXor => [.caret]
  | .bitwiseAnd => [.ampersand]
  | .equality => [.equalsEquals, .bangEquals]
  | .comparison => [.greater, .greaterEquals, .less, .lessEquals]
  | .bitwiseShift => [.bitwiseShiftLeft, .bitwiseShiftRight]
  | .additive => [.plus, .minus]
  | .multiplicative => [.asterisk, .slash, .modulo]
  | .cast => [.kwAs]
  | .prefixUnary => [.bang, .minus, .ampersand, .caret, .kwNew]
  | .postfixUnary => [.lParen, .lBracket, .dot, .arrow]

/-- How tightly a level binds. -/
def rank (p : Precedence) : Nat := all.idxOf p

instance : LT Precedence := ⟨fun p q => p.rank < q.rank⟩

instance (p q : Precedence) : Decidable (p < q) := inferInstanceAs (Decidable (p.rank < q.rank))

end Precedence

end FrontEnd
