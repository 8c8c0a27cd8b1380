import FrontEnd.Text.Quoted
import FrontEnd.Token.Basic

/-!
Diagnostics: what can be wrong with a source text, how it is worded, and where it is.
-/

set_option autoImplicit false

namespace FrontEnd

/-- What can be wrong. -/
inductive Cause where
  | unexpectedCharacter (character : Char)
  | unknownOperator (operator : Char)
  | malformedCharacter (found : Char)
  | tooManyDecimalPoints (literal : String)
  | unexpectedEndOfFile
  | fileRead (path reason : String)
  | unexpectedToken (expected found : TokenKind)
  | expectedPrimaryExpression (found : TokenKind)
  | invalidCallTarget
  | numberParseError (text : String)
  | missingClosingBrace
deriving DecidableEq, Repr

namespace Cause

def name : Cause → String
  | .unexpectedCharacter _ => "UnexpectedCharacter"
  | .unknownOperator _ => "UnknownOperator"
  | .malformedCharacter _ => "MalformedCharacter"
  | .tooManyDecimalPoints _ => "TooManyDecimalPoints"
  | .unexpectedEndOfFile => "UnexpectedEndOfFile"
  | .fileRead _ _ => "FileRead"
  | .unexpectedToken _ _ => "UnexpectedToken"
  | .expectedPrimaryExpression _ => "ExpectedPrimaryExpression"
  | .invalidCallTarget => "InvalidCallTarget"
  | .numberParseError _ => "NumberParseError"
  | .missingClosingBrace => "MissingClosingBrace"

/-- The cause in words. -/
def message : Cause → String
  | .unexpectedCharacter c => "unexpected character '" ++ c.toString ++ "'"
  | .unknownOperator c => "unknown operator '" ++ c.toString ++ "'"
  | .malformedCharacter c => "expected ''', got '" ++ c.toString ++ "'"
  | .tooManyDecimalPoints s => "too many decimal points in number " ++ Text.quoted s
  | .unexpectedEndOfFile => "unexpected end of file"
  | .fileRead path reason => "failed to open file " ++ Text.quoted path ++ ": " ++ reason
  | .unexpectedToken expected found => "expected " ++ expected.name ++ ", got " ++ found.name
  | .expectedPrimaryExpression found => "expected primary expression, got " ++ found.name
  | .invalidCallTarget => "only an identifier can be called as a function"
  | .numberParseError s => "error parsing number: " ++ Text.quoted s
  | .missingClosingBrace => "missing closing '\x7d'"

/-- What the reader of a report may try. -/
def tip? : Cause → Option String
  | .unexpectedCharacter _ => none
  | .unknownOperator c => some ("`" ++ c.toString ++ "` is not an operator of the language")
  | .malformedCharacter _ =>
    some "character literals hold exactly one character or one escape sequence"
  | .tooManyDecimalPoints s => some ("Invalid number: `" ++ s ++ "`, remove the extra `.`")
  | .unexpectedEndOfFile =>
    some "is a string, character literal or comment left unterminated?"
  | .fileRead _ _ => none
  | .unexpectedToken .semicolon found =>
    some ("Unexpected token: `" ++ found.name ++ "`, did you miss a semicolon?")
  | .unexpectedToken expected found =>
    some ("Unexpected token: `" ++ found.name ++ "`, expected `" ++ expected.name ++ "`")
  | .expectedPrimaryExpression found =>
    some ("`" ++ found.name ++ "` cannot start an expression")
  | .invalidCallTarget => some "only a plain function name can be called"
  | .numberParseError s =>
    some ("Invalid number: `" ++ s ++ "`, is it above the integer limit?")
  | .missingClosingBrace => some "a block was opened but never closed"

/-- Whether the cause ends the reading of the text. -/
def isFatal : Cause → Bool
  | .unexpectedEndOfFile | .fileRead _ _ => true
  | _ => false

end Cause

/-- A cause and the position that is blamed for it. -/
structure Diagnostic where
  cause : Cause
  position : Position
deriving DecidableEq, Repr

namespace Diagnostic

/-- A diagnostic is written as its position and its message. -/
def text (d : Diagnostic) : String := d.position.text ++ ": " ++ d.cause.message

end Diagnostic

end FrontEnd
