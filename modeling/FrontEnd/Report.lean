import FrontEnd.Diagnostic
import FrontEnd.Source
import FrontEnd.Text.Blank

/-!
Reports: a diagnostic for the reader of a source, with the line that it blames and a caret below
the place. The line is shown without its indentation, and the caret moves left with it.
-/

set_option autoImplicit false

namespace FrontEnd

namespace Report

/-- The bar that divides line numbers of the given width from the text. -/
def bar (width : Nat) : String := String.ofList (List.replicate (width + 1) ' ') ++ "|"

def isIndent (c : Char) : Bool := c = ' ' || c = '\t'

/-- A pointer whose caret is the last of `width` characters. -/
def pointer (width : Nat) : String := String.ofList (List.replicate (width - 1) '-') ++ "^"

/-- Three lines: the number of the line and its text between two bars, the pointer behind the
second bar. -/
def excerpt (place : Place) (line : String) : String :=
  let number := toString place.line
  let text := line.toList
  let indent := (text.takeWhile isIndent).length
  let shown := String.ofList (Text.trimEnd (text.dropWhile isIndent))
  bar number.length ++ "\n"
    ++ number ++ " | " ++ shown ++ "\n"
    ++ bar number.length ++ " " ++ pointer (max (place.column - indent) 1) ++ "\n"

/-- The first lines: what is wrong, and where. -/
def heading (d : Diagnostic) : String :=
  let tip := match d.cause.tip? with
    | some tip => " (" ++ tip ++ ")"
    | none => ""
  "Error: " ++ d.cause.message ++ tip ++ "\n-> " ++ d.position.text ++ "\n"

end Report

/-- The report of a diagnostic; without its line in the text there is no excerpt. -/
def Diagnostic.report (d : Diagnostic) (text : String) : String :=
  match Source.line? text d.position.line with
  | some line => Report.heading d ++ Report.excerpt d.position.toPlace line
  | none => Report.heading d

end FrontEnd
