import FrontEnd.Grammar.Expression
import FrontEnd.Grammar.Rule
import FrontEnd.Grammar.Run

/-!
Reading statements. The readers here start behind the first token of their statement, which the
rule table has already looked at. A block reads its statements one by one and recovers from each
that fails, so only what stands outside of blocks makes a statement fail.
-/

set_option autoImplicit false

namespace FrontEnd.Grammar

/-! ### Statements without blocks -/

/-- A construct and the semicolon behind it. -/
def terminated {α : Type} {n : Nat} (p : Parsed α n) : Parsed α n :=
  p.chain fun value rest _ => (expect .semicolon rest).map fun _ => value

def expressionStmt (ts : List Token) : Parsed Stmt ts.length :=
  (terminated (assignment ts)).map .expression

/-- A name, a colon and a type. -/
def typed (ts : List Token) : Parsed (String × TypeExpr) ts.length :=
  (expect .identifier ts).chain fun name rest _ =>
    (expect .colon rest).chain fun _ rest _ => (typeExpr rest).map fun type => (name.value, type)

/-- The initializer of a variable, if there is one. -/
def initializer (ts : List Token) : Parsed (Option Expr) (ts.length + 1) :=
  match accept? [.equals] ts with
  | none => .stay none ts
  | some front => (front.chain fun _ rest _ => (assignment rest).map some).loose

def variableDecl (constant : Bool) (ts : List Token) : Parsed Stmt ts.length :=
  terminated ((typed ts).andThen fun (name, type) rest _ =>
    (initializer rest).map (.variableDecl constant name type))

/-- Fields, each with its semicolon, up to the closing brace. -/
def fields (ts : List Token) : Parsed (List Field) ts.length :=
  match accept? [.rBrace] ts with
  | some front => front.give []
  | none =>
    if headKind ts = .eof then .refuse .missingClosingBrace ts
    else
      (terminated (typed ts)).chain fun (name, type) rest _ =>
        (fields rest).map (⟨name, type⟩ :: ·)
termination_by ts.length

/-- A name and fields in braces. -/
def record (make : String → List Field → Stmt) (ts : List Token) : Parsed Stmt ts.length :=
  (expect .identifier ts).chain fun name rest _ =>
    (expect .lBrace rest).chain fun _ rest _ => (fields rest).map (make name.value)

/-- The value of an enum member that has one of its own; a number that is too large is blamed when
it has been taken. -/
def memberNumber (ts : List Token) : Parsed Int64 ts.length :=
  match expect .integer ts with
  | .done t rest shorter =>
    match Number.int64? t.value with
    | some value => .done value rest shorter
    | none => .failed ⟨.numberParseError t.value, some t⟩ rest (Nat.le_of_lt shorter)
  | .failed failure rest within => .failed failure rest within

/-- The value of an enum member: its own, or else the next one in turn. -/
def memberValue (next : Int64) (ts : List Token) : Parsed Int64 (ts.length + 1) :=
  match accept? [.equals] ts with
  | none => .stay next ts
  | some front => (front.chain fun _ rest _ => memberNumber rest).loose

/-- Enum members with commas between them, the last one with or without a comma. -/
def members (next : Int64) (ts : List Token) : Parsed (List EnumMember) (ts.length + 1) :=
  if headKind ts = .rBrace then .stay [] ts
  else
    ((expect .identifier ts).andThen fun name rest _ =>
      (memberValue next rest).andThen fun value rest _ =>
        match accept? [.comma] rest with
        | none => .stay [⟨name.value, value⟩] rest
        | some front =>
          (front.andThen fun _ rest _ =>
            (members (value + 1) rest).map (⟨name.value, value⟩ :: ·)).loose).loose
termination_by ts.length

def enumDecl (ts : List Token) : Parsed Stmt ts.length :=
  (expect .identifier ts).chain fun name rest _ =>
    (expect .lBrace rest).andThen fun _ rest _ =>
      (members 0 rest).chain fun values rest _ =>
        (expect .rBrace rest).map fun _ => .enumDecl name.value values

/-- The local name behind a name, if there is one. -/
def localName (ts : List Token) : Parsed (Option String) (ts.length + 1) :=
  match accept? [.kwAs] ts with
  | none => .stay none ts
  | some front => (front.chain fun _ rest _ => (expect .identifier rest).map (some ·.value)).loose

def usingDecl (ts : List Token) : Parsed Stmt ts.length :=
  terminated ((expect .identifier ts).andThen fun name rest _ =>
    (localName rest).map (.usingDecl name.value))

/-- A statement that is a single word. -/
def word (statement : Stmt) (ts : List Token) : Parsed Stmt ts.length :=
  (expect .semicolon ts).map fun _ => statement

def returnValue (ts : List Token) : Parsed Stmt ts.length :=
  match accept? [.semicolon] ts with
  | some front => front.give (.returnValue none)
  | none => (terminated (assignment ts)).map fun value => .returnValue (some value)

def free (ts : List Token) : Parsed Stmt ts.length := (terminated (access ts)).map .free

/-- Strings up to the closing brace. -/
def operations (ts : List Token) : Parsed (List String) ts.length :=
  match accept? [.string] ts with
  | some front => front.chain fun t rest _ => (operations rest).map (t.value :: ·)
  | none => (expect .rBrace ts).map fun _ => []
termination_by ts.length

def assembly (ts : List Token) : Parsed Stmt ts.length :=
  (expect .lBrace ts).chain fun _ rest _ => (operations rest).map .assembly

/-- A level of the expression grammar, as a statement without a semicolon. -/
def ExprRule.read : ExprRule → (ts : List Token) → Parsed Expr ts.length
  | .level precedence => expressionAt precedence
  | .arrayLiteral => Grammar.arrayLiteral
  | .qualified => Grammar.qualified
  | .primary => Grammar.primary

/-- A level of the type grammar. -/
def TypeRule.read : TypeRule → (ts : List Token) → Parsed TypeExpr ts.length
  | .any => typeExpr
  | .pointer => pointerType
  | .path => fun ts => (Grammar.path ts).map fun (head, tail) => .path head tail
  | .name => fun ts => (expect .identifier ts).map (.path ·.value [])

/-! ### Functions -/

/-- The mark that makes a parameter variable, if it is there. -/
def variableMark (ts : List Token) : Parsed Bool (ts.length + 1) :=
  match accept? [.kwVar] ts with
  | none => .stay false ts
  | some front => (front.give true).loose

/-- A name, a colon, and a type that a mark makes variable. -/
def param (ts : List Token) : Parsed Param ts.length :=
  (expect .identifier ts).chain fun name rest _ =>
    (expect .colon rest).andThen fun _ rest _ =>
      (variableMark rest).chain fun mark rest _ =>
        (typeExpr rest).map fun type => ⟨name.value, !mark, type⟩

/-- Parameters with commas between them. -/
def params (ts : List Token) : Parsed (List Param) ts.length :=
  (param ts).andThen fun p rest _ =>
    match accept? [.comma] rest with
    | none => .stay [p] rest
    | some front => (front.chain fun _ rest _ => (params rest).map (p :: ·)).loose
termination_by ts.length

/-- Parameters up to the closing parenthesis. -/
def paramList (ts : List Token) : Parsed (List Param) ts.length :=
  match accept? [.rParen] ts with
  | some front => front.give []
  | none => (params ts).chain fun ps rest _ => (expect .rParen rest).map fun _ => ps

/-- The result type, which is `void` unless an arrow leads to another. -/
def resultType (ts : List Token) : Parsed TypeExpr (ts.length + 1) :=
  match accept? [.arrow] ts with
  | none => .stay (.path "void" []) ts
  | some front => (front.chain fun _ rest _ => typeExpr rest).loose

/-- A function's name, with that of its owner before it if it has one. -/
def ownedName (ts : List Token) : Parsed (Option String × String) ts.length :=
  (expect .identifier ts).andThen fun first rest _ =>
    match accept? [.scopeResolution] rest with
    | none => .stay (none, first.value) rest
    | some front =>
      (front.chain fun _ rest _ =>
        (expect .identifier rest).map fun second => (some first.value, second.value)).loose

/-- A function up to its body, as a declaration that waits for the body. -/
def signature (ts : List Token) : Parsed (List Stmt → Stmt) ts.length :=
  (ownedName ts).chain fun (owner, name) rest _ =>
    (expect .lParen rest).chain fun _ rest _ =>
      (paramList rest).andThen fun ps rest _ =>
        (resultType rest).map (.functionDecl owner name ps)

/-- Namespaces inside each other; the body belongs to the innermost. -/
def nested (name : String) (inner : List String) (body : List Stmt) : Stmt :=
  match inner with
  | [] => .namespaceDecl name body
  | next :: inner => .namespaceDecl name [nested next inner body]

/-! ### Statements with blocks -/

section

variable (rules : RuleTable)

mutual

/-- One statement: by the rule of its first token, or else an expression and a semicolon. -/
def statement (ts : List Token) : Run Stmt ts.length :=
  .after (.statement ts.head?) <|
    match _h : rules (headKind ts) with
    | some rule => byRule rule ts
    | none => .silent (expressionStmt ts)
termination_by 16 * ts.length + if ts.length = 0 ∧ rules .eof ≠ some .forLoop then 3 else 7
decreasing_by cases ts <;> grind [headKind]

/-- A statement by a given rule. A rule that is to read any statement would pick itself again, and
reads an expression. -/
def byRule (rule : Rule) (ts : List Token) : Run Stmt ts.length :=
  match rule with
  | .namespaceDecl => .skipping ts (namespaceDecl ts.tail)
  | .functionDecl => .skipping ts (functionDecl ts.tail)
  | .variableDecl =>
    .skipping ts (.silent (variableDecl (headKind ts == TokenKind.kwLet) ts.tail))
  | .structDecl => .skipping ts (.silent (record .structDecl ts.tail))
  | .unionDecl => .skipping ts (.silent (record .unionDecl ts.tail))
  | .enumDecl => .skipping ts (.silent (enumDecl ts.tail))
  | .usingDecl => .skipping ts (.silent (usingDecl ts.tail))
  | .ifElse =>
    .skipping ts ((ifElse ts.tail).map fun (condition, body, otherwise) =>
      .ifElse condition body otherwise)
  | .whileLoop => .skipping ts (whileLoop ts.tail)
  | .doWhile => .skipping ts (doWhile ts.tail)
  | .forLoop => .skipping ts (forLoop ts.tail)
  | .breakLoop => .skipping ts (.silent (word .breakLoop ts.tail))
  | .continueLoop => .skipping ts (.silent (word .continueLoop ts.tail))
  | .returnValue => .skipping ts (.silent (returnValue ts.tail))
  | .free => .skipping ts (.silent (free ts.tail))
  | .assembly => .skipping ts (.silent (assembly ts.tail))
  | .statement => .silent (expressionStmt ts)
  | .expression rule => .silent ((rule.read ts).map .expression)
  | .typeName rule => .silent ((rule.read ts).map .typeName)
termination_by 16 * ts.length + if rule = .forLoop then 6 else 2
decreasing_by all_goals simp only [List.length_tail]; grind

def namespaceDecl (ts : List Token) : Run Stmt ts.length :=
  (Run.silent (path ts)).chain fun (name, inner) rest _ => (block rest).map (nested name inner)
termination_by 16 * ts.length + 1
decreasing_by omega

def functionDecl (ts : List Token) : Run Stmt ts.length :=
  (Run.silent (signature ts)).chain fun declaration rest _ => (block rest).map declaration
termination_by 16 * ts.length + 1
decreasing_by omega

/-- The parts of an `if`. -/
def ifElse (ts : List Token) : Run (Expr × List Stmt × Otherwise) ts.length :=
  (Run.silent (assignment ts)).chain fun condition rest _ =>
    (block rest).andThen fun body rest _ =>
      match accept? [.kwElse] rest with
      | none => .stay (condition, body, .nothing) rest
      | some front =>
        (front.run fun _ rest _ =>
          match accept? [.kwIf] rest with
          | some front =>
            front.run fun _ rest _ => (ifElse rest).map fun (condition', body', otherwise) =>
              (condition, body, .elseIf condition' body' otherwise)
          | none => (block rest).map fun body' => (condition, body, .block body')).loose
termination_by 16 * ts.length + 1
decreasing_by all_goals omega

def whileLoop (ts : List Token) : Run Stmt ts.length :=
  (Run.silent (assignment ts)).chain fun condition rest _ =>
    (block rest).map (.whileLoop condition)
termination_by 16 * ts.length + 1
decreasing_by omega

def doWhile (ts : List Token) : Run Stmt ts.length :=
  (block ts).chain fun body rest _ =>
    (Run.silent (expect .kwWhile rest)).chain fun _ rest _ =>
      .silent ((terminated (assignment rest)).map (.doWhile body))
termination_by 16 * ts.length + 1
decreasing_by omega

/-- Two statements, an expression and a body. If the end of input is to be read as a loop, a loop
that starts there would start again without end, and reads an expression. -/
def forLoop (ts : List Token) : Run Stmt ts.length :=
  (if _h : ts.length = 0 ∧ rules .eof = some .forLoop then .silent (expressionStmt ts)
    else statement ts).chain fun initial rest _ =>
    (statement rest).chain fun condition rest _ =>
      (Run.silent (assignment rest)).chain fun iteration rest _ =>
        (block rest).map (.forLoop initial condition iteration)
termination_by 16 * ts.length + if ts.length = 0 then 5 else 8
decreasing_by all_goals grind

/-- Statements in braces. -/
def block (ts : List Token) : Run (List Stmt) ts.length :=
  (Run.silent (expect .lBrace ts)).andThen fun _ rest _ => blockTail rest
termination_by 16 * ts.length
decreasing_by omega

/-- The statements of a block up to its closing brace, with semicolons between them. -/
def blockTail (ts : List Token) : Run (List Stmt) (ts.length + 1) :=
  .trimming ts (blockRest (skipSemicolons ts))
termination_by 16 * ts.length + 9
decreasing_by
  have := skipSemicolons_length_le ts
  omega

/-- What is left of a block. One that the end of input leaves open is reported and keeps its
statements. -/
def blockRest (ts : List Token) : Run (List Stmt) (ts.length + 1) :=
  match accept? [.rBrace] ts with
  | some front => .silent (front.give []).loose
  | none =>
    if h : headKind ts = .eof then .after (.fault (.here .missingClosingBrace ts)) (.stay [] ts)
    else ((statement ts).recover.andThen h fun rest _ => blockTail rest).loose
termination_by 16 * ts.length + 8
decreasing_by all_goals grind

end

end

end FrontEnd.Grammar
