/-!
Source texts: a name to report them by, and the text. Lines end at newlines only; the carriage
returns at the end of a line are not shown.
-/

set_option autoImplicit false

namespace FrontEnd

structure Source where
  name : String
  text : String
deriving DecidableEq, Repr

namespace Source

/-- A text that comes from no file. -/
def unnamed (text : String) : Source := ⟨"<source>", text⟩

/-- The line behind `n` newlines. -/
def lineAfter : Nat → List Char → Option (List Char)
  | 0, cs => some (cs.takeWhile (· ≠ '\n'))
  | n + 1, cs =>
    match cs.dropWhile (· ≠ '\n') with
    | [] => none
    | _ :: rest => lineAfter n rest

/-- A line without the carriage returns at its end. -/
def trimReturns (cs : List Char) : List Char := (cs.reverse.dropWhile (· = '\r')).reverse

/-- The line of a text with the given number, counted from one. -/
def line? (text : String) : Nat → Option String
  | 0 => none
  | n + 1 => (lineAfter n text.toList).map (String.ofList ∘ trimReturns)

end Source

end FrontEnd
