import FrontEnd.Number.Integer
import FrontEnd.Number.Shortest
import FrontEnd.Tree.Basic

/-!
Outlines of syntax trees: one line for each node, and its children below it, two spaces further
in. A child whose part in its parent is not plain stands below a line that names the part.
-/

set_option autoImplicit false

namespace FrontEnd

inductive Outline where
  | node (label : String) (children : List Outline)

namespace Outline

/-- A line without children. -/
abbrev leaf (label : String) : Outline := .node label []

/-- A label on a line of its own, `depth` steps in. -/
def line (depth : Nat) (label : String) : String :=
  String.ofList (List.replicate (2 * depth) ' ') ++ label ++ "\n"

mutual

/-- The lines of an outline, `depth` steps in. -/
def lines (depth : Nat) : Outline → List String
  | .node label children => line depth label :: linesAll (depth + 1) children

def linesAll (depth : Nat) : List Outline → List String
  | [] => []
  | o :: rest => o.lines depth ++ linesAll depth rest

end

/-- The text of outlines one below the other. -/
def text (outlines : List Outline) : String := String.join (linesAll 0 outlines)

end Outline

/-- Real numbers show at least one decimal, and an exponent below a ten-thousandth and from ten
to the sixteenth on. -/
def realLayout : Number.Binary64.Layout where
  plainFrom := -4
  plainBelow := 16
  wholeTail := ".0"
  mark := "e"
  infinite := "inf"
  undefined := "NaN"

/-- A scoped name nests to the right. -/
def TypeExpr.pathOutline (head : String) : List String → Outline
  | [] => .leaf ("Identifier " ++ head)
  | name :: tail =>
    .node "ScopeResolution" [.leaf ("Identifier " ++ head), TypeExpr.pathOutline name tail]

mutual

def TypeExpr.outline : TypeExpr → Outline
  | .path head tail => TypeExpr.pathOutline head tail
  | .array element => .node "Array" [element.outline]
  | .sizedArray element size => .node "Array" [element.outline, .node "size:" [size.outline]]
  | .pointer pointee => .node "Pointer" [pointee.outline]

def Expr.outline : Expr → Outline
  | .boolean value => .leaf ("Boolean " ++ if value then "true" else "false")
  | .integer value => .leaf ("Integer " ++ Number.int64Text value)
  | .realNumber value => .leaf ("RealNumber " ++ value.text realLayout)
  | .string value => .leaf ("String \"" ++ value ++ "\"")
  | .character value => .leaf ("Character '" ++ value ++ "'")
  | .identifier name => .leaf ("Identifier " ++ name)
  | .null => .leaf "Null"
  | .unary operator operand =>
    .node ("UnaryOperation " ++ operator.spelling) [operand.outline]
  | .binary operator left right =>
    .node ("BinaryOperation " ++ operator.spelling) [left.outline, right.outline]
  | .group inner => .node "GroupingExpression" [inner.outline]
  | .cast operand target => .node "Cast" [operand.outline, .node "to:" [target.outline]]
  | .call name arguments => .node ("FunctionCall " ++ name) (Expr.outlines arguments)
  | .addressOf operand => .node "AddressOf" [operand.outline]
  | .dereference operand => .node "PointerDereference" [operand.outline]
  | .new type => .node "New" [type.outline]
  | .arrayLiteral elements => .node "ArrayInitializer" (Expr.outlines elements)
  | .index array subscript =>
    .node "ArrayAccess" [array.outline, .node "index:" [subscript.outline]]
  | .member left right => .node "MemberAccess" [left.outline, right.outline]
  | .qualified left right => .node "ScopeResolution" [left.outline, right.outline]

def Expr.outlines : List Expr → List Outline
  | [] => []
  | e :: rest => e.outline :: Expr.outlines rest

end

def Param.outline (p : Param) : Outline :=
  .node ((if p.constant then "Param " else "Param var ") ++ p.name ++ ":") [p.type.outline]

def Field.outline (f : Field) : Outline := .node ("Field " ++ f.name ++ ":") [f.type.outline]

def EnumMember.outline (m : EnumMember) : Outline :=
  .leaf (m.name ++ " = " ++ Number.int64Text m.value)

/-- A part that may be missing, below its name. -/
def Expr.partOutline (name : String) (part : Option Expr) : List Outline :=
  part.toList.map fun e => .node name [e.outline]

mutual

def Stmt.outline : Stmt → Outline
  | .namespaceDecl name body => .node ("Namespace " ++ name) (Stmt.outlines body)
  | .functionDecl owner name params returns body =>
    .node ("FunctionDeclaration " ++ (match owner with
      | some owner => owner ++ "::" ++ name
      | none => name))
      (params.map Param.outline
        ++ [.node "returns:" [returns.outline], .node "body:" (Stmt.outlines body)])
  | .variableDecl constant name type initializer =>
    .node ((if constant then "VariableDeclaration let " else "VariableDeclaration var ") ++ name)
      (.node "type:" [type.outline] :: Expr.partOutline "initializer:" initializer)
  | .structDecl name fields => .node ("Struct " ++ name) (fields.map Field.outline)
  | .unionDecl name fields => .node ("Union " ++ name) (fields.map Field.outline)
  | .enumDecl name members => .node ("Enum " ++ name) (members.map EnumMember.outline)
  | .usingDecl name localName =>
    .leaf ("Using " ++ name ++ match localName with
      | some localName => " as " ++ localName
      | none => "")
  | .ifElse condition body otherwise =>
    .node "If" (.node "condition:" [condition.outline] :: .node "then:" (Stmt.outlines body)
      :: otherwise.outlines)
  | .whileLoop condition body =>
    .node "While" [.node "condition:" [condition.outline], .node "body:" (Stmt.outlines body)]
  | .doWhile body condition =>
    .node "DoWhile" [.node "body:" (Stmt.outlines body), .node "condition:" [condition.outline]]
  | .forLoop initial condition iteration body =>
    .node "For" [.node "init:" [initial.outline], .node "condition:" [condition.outline],
      .node "iteration:" [iteration.outline], .node "body:" (Stmt.outlines body)]
  | .breakLoop => .leaf "Break"
  | .continueLoop => .leaf "Continue"
  | .returnValue value => .node "Return" (value.toList.map Expr.outline)
  | .free target => .node "Free" [target.outline]
  | .assembly operations =>
    .node "InlineAsm" (operations.map fun operation => .leaf ("\"" ++ operation ++ "\""))
  | .expression value => value.outline
  | .typeName type => type.outline

def Stmt.outlines : List Stmt → List Outline
  | [] => []
  | s :: rest => s.outline :: Stmt.outlines rest

def Otherwise.outlines : Otherwise → List Outline
  | .nothing => []
  | .block body => [.node "else:" [.node "Block" (Stmt.outlines body)]]
  | .elseIf condition body otherwise =>
    [.node "else:" [.node "If" (.node "condition:" [condition.outline]
      :: .node "then:" (Stmt.outlines body) :: otherwise.outlines)]]

end

/-- The text of a tree on its own. -/
def Stmt.text (s : Stmt) : String := Outline.text [s.outline]

/-- The text of a block on its own. -/
def Stmt.blockText (body : List Stmt) : String := Outline.text [.node "Block" (Stmt.outlines body)]

/-- The outline of a file is the outlines of its statements. -/
def File.text (file : File) : String := Outline.text (Stmt.outlines file)

end FrontEnd
