import FrontEnd.Number.Binary64
import FrontEnd.Token.Kind

/-!
Syntax trees. Types, expressions and statements are kinds of tree of their own, so a tree holds a
type where the language wants a type. An operator is kept as the kind of the token that writes it.
-/

set_option autoImplicit false

namespace FrontEnd

open Number (Binary64)

mutual

/-- A type. The size of an array is an expression. -/
inductive TypeExpr where
  | path (head : String) (tail : List String)
  | array (element : TypeExpr)
  | sizedArray (element : TypeExpr) (size : Expr)
  | pointer (pointee : TypeExpr)

/-- An expression. Strings and characters keep the text between their quotes as it stands. -/
inductive Expr where
  | boolean (value : Bool)
  | integer (value : Int64)
  | realNumber (value : Binary64)
  | string (value : String)
  | character (value : String)
  | identifier (name : String)
  | null
  | unary (operator : TokenKind) (operand : Expr)
  | binary (operator : TokenKind) (left right : Expr)
  | group (inner : Expr)
  | cast (operand : Expr) (target : TypeExpr)
  | call (name : String) (arguments : List Expr)
  | addressOf (operand : Expr)
  | dereference (operand : Expr)
  | new (type : TypeExpr)
  | arrayLiteral (elements : List Expr)
  | index (array subscript : Expr)
  | member (left right : Expr)
  | qualified (left right : Expr)

end

/-- A parameter is constant unless its type is marked. -/
structure Param where
  name : String
  constant : Bool
  type : TypeExpr

structure Field where
  name : String
  type : TypeExpr

structure EnumMember where
  name : String
  value : Int64
deriving DecidableEq, Repr

mutual

/-- A statement. A bare type is one only where a rule for types was made to read statements. -/
inductive Stmt where
  | namespaceDecl (name : String) (body : List Stmt)
  | functionDecl (owner : Option String) (name : String) (params : List Param)
      (returns : TypeExpr) (body : List Stmt)
  | variableDecl (constant : Bool) (name : String) (type : TypeExpr) (initializer : Option Expr)
  | structDecl (name : String) (fields : List Field)
  | unionDecl (name : String) (fields : List Field)
  | enumDecl (name : String) (members : List EnumMember)
  | usingDecl (name : String) (localName : Option String)
  | ifElse (condition : Expr) (body : List Stmt) (otherwise : Otherwise)
  | whileLoop (condition : Expr) (body : List Stmt)
  | doWhile (body : List Stmt) (condition : Expr)
  | forLoop (initial condition : Stmt) (iteration : Expr) (body : List Stmt)
  | breakLoop
  | continueLoop
  | returnValue (value : Option Expr)
  | free (target : Expr)
  | assembly (operations : List String)
  | expression (value : Expr)
  | typeName (type : TypeExpr)

/-- What follows the body of an `if`: nothing, a block, or a further `if`. -/
inductive Otherwise where
  | nothing
  | block (body : List Stmt)
  | elseIf (condition : Expr) (body : List Stmt) (otherwise : Otherwise)

end

/-- The statements of a whole source. -/
abbrev File := List Stmt

/-! ### Words for the kinds of node -/

/-- The word for the kind of a type. -/
def TypeExpr.word : TypeExpr → String
  | .path _ [] => "Identifier"
  | .path _ (_ :: _) => "ScopeResolution"
  | .array _ | .sizedArray _ _ => "Array"
  | .pointer _ => "Pointer"

/-- The word for the kind of an expression. -/
def Expr.word : Expr → String
  | .boolean _ => "Boolean"
  | .integer _ => "Integer"
  | .realNumber _ => "RealNumber"
  | .string _ => "String"
  | .character _ => "Character"
  | .identifier _ => "Identifier"
  | .null => "Null"
  | .unary _ _ => "UnaryOperation"
  | .binary _ _ _ => "BinaryOperation"
  | .group _ => "GroupingExpression"
  | .cast _ _ => "Cast"
  | .call _ _ => "FunctionCall"
  | .addressOf _ => "AddressOf"
  | .dereference _ => "PointerDereference"
  | .new _ => "New"
  | .arrayLiteral _ => "ArrayInitializer"
  | .index _ _ => "ArrayAccess"
  | .member _ _ => "MemberAccess"
  | .qualified _ _ => "ScopeResolution"

/-- The word for the kind of a statement. -/
def Stmt.word : Stmt → String
  | .namespaceDecl _ _ => "Namespace"
  | .functionDecl _ _ _ _ _ => "FunctionDeclaration"
  | .variableDecl _ _ _ _ => "VariableDeclaration"
  | .structDecl _ _ => "Struct"
  | .unionDecl _ _ => "Union"
  | .enumDecl _ _ => "Enum"
  | .usingDecl _ _ => "Using"
  | .ifElse _ _ _ => "If"
  | .whileLoop _ _ => "While"
  | .doWhile _ _ => "DoWhile"
  | .forLoop _ _ _ _ => "For"
  | .breakLoop => "Break"
  | .continueLoop => "Continue"
  | .returnValue _ => "Return"
  | .free _ => "Free"
  | .assembly _ => "InlineAsm"
  | .expression e => e.word
  | .typeName t => t.word

/-- The name that a statement consists of, if it is a bare name. -/
def Stmt.identifier? : Stmt → Option String
  | .expression (.identifier name) => some name
  | .typeName (.path name []) => some name
  | _ => none

end FrontEnd
