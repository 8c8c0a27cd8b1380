import FrontEnd.Precedence

/-!
Rules: the ways to read a statement, and the table that picks one by the kind of the first token.
-/

set_option autoImplicit false

namespace FrontEnd.Grammar

/-- A level of the expression grammar. -/
inductive ExprRule where
  | level (precedence : Precedence)
  | arrayLiteral
  | qualified
  | primary
deriving DecidableEq, Repr

/-- A level of the type grammar. -/
inductive TypeRule where
  | any
  | pointer
  | path
  | name
deriving DecidableEq, Repr

/-- A way to read a statement. The rules of declarations and control flow skip their first token
whatever it is; the others start with it. -/
inductive Rule where
  | namespaceDecl | functionDecl | variableDecl | structDecl | unionDecl | enumDecl | usingDecl
  | ifElse | whileLoop | doWhile | forLoop | breakLoop | continueLoop | returnValue | free
  | assembly
  | statement
  | expression (rule : ExprRule)
  | typeName (rule : TypeRule)
deriving DecidableEq, Repr

/-- The rule for each kind that has one. -/
abbrev RuleTable := TokenKind → Option Rule

namespace RuleTable

/-- The rules of the language. -/
def standard : RuleTable
  | .kwNamespace => some .namespaceDecl
  | .kwFunc => some .functionDecl
  | .kwStruct => some .structDecl
  | .kwEnum => some .enumDecl
  | .kwUnion => some .unionDecl
  | .kwLet => some .variableDecl
  | .kwVar => some .variableDecl
  | .kwUsing => some .usingDecl
  | .kwIf => some .ifElse
  | .kwWhile => some .whileLoop
  | .kwDo => some .doWhile
  | .kwFor => some .forLoop
  | .kwBreak => some .breakLoop
  | .kwContinue => some .continueLoop
  | .kwReturn => some .returnValue
  | .kwFree => some .free
  | .kwAsm => some .assembly
  | _ => none

/-- Gives a kind a rule in place of the one it had. -/
def register (table : RuleTable) (kind : TokenKind) (rule : Rule) : RuleTable :=
  fun k => if k = kind then some rule else table k

@[simp] theorem register_self (table : RuleTable) (kind : TokenKind) (rule : Rule) :
    table.register kind rule kind = some rule := by
  simp [register]

theorem register_of_ne (table : RuleTable) {kind k : TokenKind} (rule : Rule) (h : k ≠ kind) :
    table.register kind rule k = table k := by
  simp [register, h]

/-- The kinds that have a rule. -/
def kinds (table : RuleTable) : List TokenKind := TokenKind.all.filter (table · |>.isSome)

end RuleTable

end FrontEnd.Grammar
