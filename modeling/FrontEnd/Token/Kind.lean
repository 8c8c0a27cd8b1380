/-!
The kinds of token: their names in messages, their fixed spellings, and the tables that read a
spelling back. Operators are looked up longest first.
-/

set_option autoImplicit false

namespace FrontEnd

inductive TokenKind where
  | eof | lBrace | rBrace | lParen | rParen | lBracket | rBracket | semicolon | colon | comma
  | dot | plus | minus | asterisk | slash | modulo | ampersand | bitwiseOr | caret | bang
  | equals | greater | less | logicalAnd | logicalOr | bitwiseShiftLeft | bitwiseShiftRight
  | plusEquals | minusEquals | multiplyEquals | divideEquals | moduloEquals | bangEquals
  | andEquals | orEquals | xorEquals | equalsEquals | greaterEquals | lessEquals | arrow
  | scopeResolution | leftShiftEquals | rightShiftEquals | identifier | integer | realNumber
  | string | character | kwNamespace | kwFunc | kwReturn | kwVar | kwLet | kwStruct | kwIf
  | kwElse | kwWhile | kwDo | kwFor | kwTrue | kwFalse | kwNull | kwEnum | kwUnion | kwBreak
  | kwContinue | kwUsing | kwAs | kwNew | kwFree | kwAsm
deriving DecidableEq, Repr

namespace TokenKind

/-- Every kind, once. -/
def all : List TokenKind := [
  .eof, .lBrace, .rBrace, .lParen, .rParen, .lBracket, .rBracket, .semicolon, .colon, .comma,
  .dot, .plus, .minus, .asterisk, .slash, .modulo, .ampersand, .bitwiseOr, .caret, .bang,
  .equals, .greater, .less, .logicalAnd, .logicalOr, .bitwiseShiftLeft, .bitwiseShiftRight,
  .plusEquals, .minusEquals, .multiplyEquals, .divideEquals, .moduloEquals, .bangEquals,
  .andEquals, .orEquals, .xorEquals, .equalsEquals, .greaterEquals, .lessEquals, .arrow,
  .scopeResolution, .leftShiftEquals, .rightShiftEquals, .identifier, .integer, .realNumber,
  .string, .character, .kwNamespace, .kwFunc, .kwReturn, .kwVar, .kwLet, .kwStruct, .kwIf,
  .kwElse, .kwWhile, .kwDo, .kwFor, .kwTrue, .kwFalse, .kwNull, .kwEnum, .kwUnion, .kwBreak,
  .kwContinue, .kwUsing, .kwAs, .kwNew, .kwFree, .kwAsm]

theorem mem_all (k : TokenKind) : k ∈ all := by cases k <;> decide

/-- The name of a kind in diagnostics. -/
def name : TokenKind → String
  | .eof => "EOF"
  | .lBrace => "L_BRACE"
  | .rBrace => "R_BRACE"
  | .lParen => "L_PAREN"
  | .rParen => "R_PAREN"
  | .lBracket => "L_BRACKET"
  | .rBracket => "R_BRACKET"
  | .semicolon => "SEMICOLON"
  | .colon => "COLON"
  | .comma => "COMMA"
  | .dot => "DOT"
  | .plus => "PLUS"
  | .minus => "MINUS"
  | .asterisk => "ASTERISK"
  | .slash => "SLASH"
  | .modulo => "MODULO"
  | .ampersand => "AMPERSAND"
  | .bitwiseOr => "BITWISE_OR"
  | .caret => "CARET"
  | .bang => "BANG"
  | .equals => "EQUALS"
  | .greater => "GREATER"
  | .less => "LESS"
  | .logicalAnd => "LOGICAL_AND"
  | .logicalOr => "LOGICAL_OR"
  | .bitwiseShiftLeft => "BITWISE_SHIFT_LEFT"
  | .bitwiseShiftRight => "BITWISE_SHIFT_RIGHT"
  | .plusEquals => "PLUS_EQUALS"
  | .minusEquals => "MINUS_EQUALS"
  | .multiplyEquals => "MULTIPLY_EQUALS"
  | .divideEquals => "DIVIDE_EQUALS"
  | .moduloEquals => "MODULO_EQUALS"
  | .bangEquals => "BANG_EQUALS"
  | .andEquals => "AND_EQUALS"
  | .orEquals => "OR_EQUALS"
  | .xorEquals => "XOR_EQUALS"
  | .equalsEquals => "EQUALS_EQUALS"
  | .greaterEquals => "GREATER_EQUALS"
  | .lessEquals => "LESS_EQUALS"
  | .arrow => "ARROW"
  | .scopeResolution => "SCOPE_RESOLUTION"
  | .leftShiftEquals => "LEFT_SHIFT_EQUALS"
  | .rightShiftEquals => "RIGHT_SHIFT_EQUALS"
  | .identifier => "IDENTIFIER"
  | .integer => "INTEGER"
  | .realNumber => "REAL_NUMBER"
  | .string => "STRING"
  | .character => "CHARACTER"
  | .kwNamespace => "KW_NAMESPACE"
  | .kwFunc => "KW_FUNC"
  | .kwReturn => "KW_RETURN"
  | .kwVar => "KW_VAR"
  | .kwLet => "KW_LET"
  | .kwStruct => "KW_STRUCT"
  | .kwIf => "KW_IF"
  | .kwElse => "KW_ELSE"
  | .kwWhile => "KW_WHILE"
  | .kwDo => "KW_DO"
  | .kwFor => "KW_FOR"
  | .kwTrue => "KW_TRUE"
  | .kwFalse => "KW_FALSE"
  | .kwNull => "KW_NULL"
  | .kwEnum => "KW_ENUM"
  | .kwUnion => "KW_UNION"
  | .kwBreak => "KW_BREAK"
  | .kwContinue => "KW_CONTINUE"
  | .kwUsing => "KW_USING"
  | .kwAs => "KW_AS"
  | .kwNew => "KW_NEW"
  | .kwFree => "KW_FREE"
  | .kwAsm => "KW_ASM"

/-- The text of an operator or keyword; the kinds whose text varies have none. -/
def spelling : TokenKind → String
  | .lBrace => "\x7b"
  | .rBrace => "\x7d"
  | .lParen => "("
  | .rParen => ")"
  | .lBracket => "["
  | .rBracket => "]"
  | .semicolon => ";"
  | .colon => ":"
  | .comma => ","
  | .dot => "."
  | .plus => "+"
  | .minus => "-"
  | .asterisk => "*"
  | .slash => "/"
  | .modulo => "%"
  | .ampersand => "&"
  | .bitwiseOr => "|"
  | .caret => "^"
  | .bang => "!"
  | .equals => "="
  | .greater => ">"
  | .less => "<"
  | .logicalAnd => "&&"
  | .logicalOr => "||"
  | .bitwiseShiftLeft => "<<"
  | .bitwiseShiftRight => ">>"
  | .plusEquals => "+="
  | .minusEquals => "-="
  | .multiplyEquals => "*="
  | .divideEquals => "/="
  | .moduloEquals => "%="
  | .bangEquals => "!="
  | .andEquals => "&="
  | .orEquals => "|="
  | .xorEquals => "^="
  | .equalsEquals => "=="
  | .greaterEquals => ">="
  | .lessEquals => "<="
  | .arrow => "->"
  | .scopeResolution => "::"
  | .leftShiftEquals => "<<="
  | .rightShiftEquals => ">>="
  | .kwNamespace => "namespace"
  | .kwFunc => "func"
  | .kwReturn => "return"
  | .kwVar => "var"
  | .kwLet => "let"
  | .kwStruct => "struct"
  | .kwIf => "if"
  | .kwElse => "else"
  | .kwWhile => "while"
  | .kwDo => "do"
  | .kwFor => "for"
  | .kwTrue => "true"
  | .kwFalse => "false"
  | .kwNull => "null"
  | .kwEnum => "enum"
  | .kwUnion => "union"
  | .kwBreak => "break"
  | .kwContinue => "continue"
  | .kwUsing => "using"
  | .kwAs => "as"
  | .kwNew => "new"
  | .kwFree => "free"
  | .kwAsm => "asm"
  | .eof | .identifier | .integer | .realNumber | .string | .character => ""

def keywords : List TokenKind := [
  .kwNamespace, .kwFunc, .kwReturn, .kwVar, .kwLet, .kwStruct, .kwIf, .kwElse, .kwWhile, .kwDo,
  .kwFor, .kwTrue, .kwFalse, .kwNull, .kwEnum, .kwUnion, .kwBreak, .kwContinue, .kwUsing, .kwAs,
  .kwNew, .kwFree, .kwAsm]

def isKeyword (k : TokenKind) : Bool := k ∈ keywords

/-- Operators of three characters. -/
def tripleOperators : List TokenKind := [.leftShiftEquals, .rightShiftEquals]

/-- Operators of two characters. -/
def doubleOperators : List TokenKind := [
  .logicalAnd, .logicalOr, .bitwiseShiftLeft, .bitwiseShiftRight, .plusEquals, .minusEquals,
  .multiplyEquals, .divideEquals, .moduloEquals, .bangEquals, .andEquals, .orEquals, .xorEquals,
  .equalsEquals, .greaterEquals, .lessEquals, .arrow, .scopeResolution]

/-- Operators of one character. -/
def singleOperators : List TokenKind := [
  .lBrace, .rBrace, .lParen, .rParen, .lBracket, .rBracket, .semicolon, .colon, .comma, .dot,
  .plus, .minus, .asterisk, .slash, .modulo, .ampersand, .bitwiseOr, .caret, .bang, .equals,
  .greater, .less]

/-- Every operator, a longer spelling before each shorter one. -/
def operators : List TokenKind := tripleOperators ++ doubleOperators ++ singleOperators

/-- The member of a table that has the given spelling. -/
def spelled? (table : List TokenKind) (text : String) : Option TokenKind :=
  table.find? (·.spelling == text)

/-- The keyword that a whole word spells. -/
def keyword? (word : String) : Option TokenKind := spelled? keywords word

/-- The longest operator at the front of a text. -/
def operator? (cs : List Char) : Option TokenKind :=
  operators.find? (·.spelling.toList.isPrefixOf cs)

/-- The kind that a name stands for. -/
def ofName? (text : String) : Option TokenKind := all.find? (·.name == text)

end TokenKind

end FrontEnd
