import FrontEnd.Grammar.Parsed
import FrontEnd.Number.Integer
import FrontEnd.Precedence
import FrontEnd.Tree.Basic

/-!
Reading expressions and types. Each level of precedence reads its operands at the next tighter
level: assignments nest to the right, binary operators and casts to the left, and behind a point
or an arrow everything belongs to the right side. Every call is on fewer tokens, or on the same
tokens at a tighter level.
-/

set_option autoImplicit false

namespace FrontEnd.Grammar

/-- Names with double colons between them. -/
def path (ts : List Token) : Parsed (String × List String) ts.length :=
  (expect .identifier ts).andThen fun name rest _ =>
    match accept? [.scopeResolution] rest with
    | none => .stay (name.value, []) rest
    | some front =>
      (front.chain fun _ rest _ =>
        (path rest).map fun (head, tail) => (name.value, head :: tail)).loose
termination_by ts.length

/-- The number that the first token writes, if it writes one. -/
def literal {α : Type} {ts : List Token} (make : α → Expr) (value? : Option α) (front : Front ts) :
    Parsed Expr ts.length :=
  match value? with
  | some value => front.give (make value)
  | none => .refuse (.numberParseError front.token.value) ts

mutual

/-- Assignments, the loosest level. -/
def assignment (ts : List Token) : Parsed Expr ts.length :=
  (binary Precedence.binaryLevels ts).andThen fun left rest _ =>
    match accept? Precedence.assignment.operators rest with
    | none => .stay left rest
    | some front =>
      (front.chain fun operator rest _ =>
        (assignment rest).map (.binary operator.kind left)).loose
termination_by 32 * ts.length + 20
decreasing_by
  · simp only [Precedence.binaryLevels, List.length_cons, List.length_nil]
    omega
  · omega

/-- Binary operators of the given levels, the loosest first. -/
def binary (levels : List Precedence) (ts : List Token) : Parsed Expr ts.length :=
  match levels with
  | [] => cast ts
  | level :: tighter =>
    (binary tighter ts).andThen fun left rest _ => binaryTail level tighter left rest
termination_by 32 * ts.length + 8 + levels.length
decreasing_by all_goals simp only [List.length_cons, List.length_nil]; omega

/-- The operators of one level behind a left operand, with their right operands. -/
def binaryTail (level : Precedence) (tighter : List Precedence) (left : Expr) (ts : List Token) :
    Parsed Expr (ts.length + 1) :=
  match accept? level.operators ts with
  | none => .stay left ts
  | some front =>
    (front.chain fun operator rest _ =>
      (binary tighter rest).andThen fun right rest _ =>
        binaryTail level tighter (.binary operator.kind left right) rest).loose
termination_by 32 * ts.length + 8 + tighter.length
decreasing_by all_goals omega

/-- Casts of a unary expression. -/
def cast (ts : List Token) : Parsed Expr ts.length :=
  (unary ts).andThen fun operand rest _ => castTail operand rest
termination_by 32 * ts.length + 7
decreasing_by all_goals omega

def castTail (operand : Expr) (ts : List Token) : Parsed Expr (ts.length + 1) :=
  match accept? Precedence.cast.operators ts with
  | none => .stay operand ts
  | some front =>
    (front.chain fun _ rest _ =>
      (typeExpr rest).andThen fun target rest _ => castTail (.cast operand target) rest).loose
termination_by 32 * ts.length
decreasing_by all_goals omega

/-- Operators before their operand. -/
def unary (ts : List Token) : Parsed Expr ts.length :=
  match accept? Precedence.prefixUnary.operators ts with
  | none => access ts
  | some front =>
    front.chain fun operator rest _ =>
      match operator.kind with
      | .ampersand => (access rest).map .addressOf
      | .caret => (access rest).map .dereference
      | .kwNew => (typeExpr rest).map .new
      | kind => (unary rest).map (.unary kind)
termination_by 32 * ts.length + 6
decreasing_by all_goals omega

/-- Calls, subscripts and members behind an expression. -/
def access (ts : List Token) : Parsed Expr ts.length :=
  (arrayLiteral ts).andThen fun base rest _ => accessTail base rest
termination_by 32 * ts.length + 5
decreasing_by all_goals omega

/-- Only a plain name can be called; behind a point or an arrow the rest is the right side. -/
def accessTail (base : Expr) (ts : List Token) : Parsed Expr (ts.length + 1) :=
  match front? ts with
  | none => .stay base ts
  | some front =>
    match front.token.kind with
    | .lParen =>
      match base with
      | .identifier name =>
        (front.chain fun _ rest _ =>
          (listUntil .rParen rest).andThen fun arguments rest _ =>
            accessTail (.call name arguments) rest).loose
      | _ => (Parsed.refuse .invalidCallTarget ts).loose
    | .lBracket =>
      (front.chain fun _ rest _ =>
        (assignment rest).chain fun subscript rest _ =>
          (expect .rBracket rest).andThen fun _ rest _ =>
            accessTail (.index base subscript) rest).loose
    | .dot => (front.chain fun _ rest _ => (access rest).map (.member base)).loose
    | .arrow =>
      (front.chain fun _ rest _ => (access rest).map (.member (.dereference base))).loose
    | _ => .stay base ts
termination_by 32 * ts.length
decreasing_by all_goals omega

/-- Expressions with commas between them, up to the closing token. -/
def listUntil (close : TokenKind) (ts : List Token) : Parsed (List Expr) ts.length :=
  match accept? [close] ts with
  | some front => front.give []
  | none => (elements ts).chain fun values rest _ => (expect close rest).map fun _ => values
termination_by 32 * ts.length + 22
decreasing_by all_goals omega

def elements (ts : List Token) : Parsed (List Expr) ts.length :=
  (assignment ts).andThen fun value rest _ =>
    match accept? [.comma] rest with
    | none => .stay [value] rest
    | some front => (front.chain fun _ rest _ => (elements rest).map (value :: ·)).loose
termination_by 32 * ts.length + 21
decreasing_by all_goals omega

/-- A list of values in brackets, or a qualified expression. -/
def arrayLiteral (ts : List Token) : Parsed Expr ts.length :=
  match accept? [.lBracket] ts with
  | none => qualified ts
  | some front => front.chain fun _ rest _ => (listUntil .rBracket rest).map .arrayLiteral
termination_by 32 * ts.length + 4
decreasing_by all_goals omega

/-- A primary expression, and what a double colon leads to from it. -/
def qualified (ts : List Token) : Parsed Expr ts.length :=
  (primary ts).andThen fun left rest _ =>
    match accept? [.scopeResolution] rest with
    | none => .stay left rest
    | some front => (front.chain fun _ rest _ => (access rest).map (.qualified left)).loose
termination_by 32 * ts.length + 3
decreasing_by all_goals omega

/-- Literals, names and expressions in parentheses. -/
def primary (ts : List Token) : Parsed Expr ts.length :=
  match front? ts with
  | none => .refuse (.expectedPrimaryExpression .eof) ts
  | some front =>
    match front.token.kind with
    | .kwTrue => front.give (.boolean true)
    | .kwFalse => front.give (.boolean false)
    | .kwNull => front.give .null
    | .integer => literal .integer (Number.int64? front.token.value) front
    | .realNumber => literal .realNumber (Number.Binary64.ofText? front.token.value) front
    | .string => front.give (.string front.token.value)
    | .character => front.give (.character front.token.value)
    | .identifier => front.give (.identifier front.token.value)
    | .lParen =>
      front.chain fun _ rest _ =>
        (assignment rest).chain fun inner rest _ => (expect .rParen rest).map fun _ => .group inner
    | kind => .refuse (.expectedPrimaryExpression kind) ts
termination_by 32 * ts.length + 2
decreasing_by all_goals omega

/-- A type in brackets, with or without a size, or a pointer type. -/
def typeExpr (ts : List Token) : Parsed TypeExpr ts.length :=
  match accept? [.lBracket] ts with
  | none => pointerType ts
  | some front =>
    front.chain fun _ rest _ =>
      (typeExpr rest).chain fun element rest _ =>
        match accept? [.comma] rest with
        | none => (expect .rBracket rest).map fun _ => .array element
        | some front =>
          front.chain fun _ rest _ =>
            (assignment rest).chain fun size rest _ =>
              (expect .rBracket rest).map fun _ => .sizedArray element size
termination_by 32 * ts.length + 2
decreasing_by all_goals omega

/-- A caret and a type, or a path. -/
def pointerType (ts : List Token) : Parsed TypeExpr ts.length :=
  match accept? [.caret] ts with
  | none => (path ts).map fun (head, tail) => .path head tail
  | some front => front.chain fun _ rest _ => (typeExpr rest).map .pointer
termination_by 32 * ts.length + 1
decreasing_by all_goals omega

end

/-- Expressions of a level and of every tighter one. -/
def expressionAt (level : Precedence) (ts : List Token) : Parsed Expr ts.length :=
  match level with
  | .assignment => assignment ts
  | .cast => cast ts
  | .prefixUnary => unary ts
  | .postfixUnary => access ts
  | level => binary (Precedence.binaryLevels.dropWhile (· ≠ level)) ts

end FrontEnd.Grammar
