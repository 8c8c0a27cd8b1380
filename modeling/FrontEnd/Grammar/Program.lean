import FrontEnd.Grammar.Statement

/-!
Whole programs: statement after statement up to the end of input. Every statement that fails is
recorded and recovered from, so a program is always read to its end.
-/

set_option autoImplicit false

namespace FrontEnd.Grammar

/-- The statements that were read, what happened on the way, and the tokens left at the end. -/
structure Program where
  file : File
  events : List Event
  rest : List Token

/-- Reads statements up to the end of input. -/
def program (rules : RuleTable) (ts : List Token) : Program :=
  if _h : headKind (skipSemicolons ts) = .eof then ⟨[], [], skipSemicolons ts⟩
  else
    match (statement rules (skipSemicolons ts)).recover with
    | ⟨first, events, rest, _progress⟩ =>
      let others := program rules rest
      ⟨first.toList ++ others.file, events ++ others.events, others.rest⟩
termination_by ts.length
decreasing_by
  have := skipSemicolons_length_le ts
  have := _progress _h
  omega

/-- The file that a token list writes, with its diagnostics. -/
def parse (tokens : List Token) : File × List Diagnostic :=
  let result := program .standard tokens
  (result.file, result.events.filterMap (Event.diagnostic? (endToken tokens)))

end FrontEnd.Grammar
