import FrontEnd.Grammar.Program

/-!
A session over a token list: a cursor, a rule table that can be changed, and the diagnostics and
log so far. Every reader of the grammar can be asked for at the cursor.
-/

set_option autoImplicit false

namespace FrontEnd.Grammar

/-- The tokens ahead of the cursor are the last ones of `tokens`. -/
structure Session where
  tokens : List Token
  ahead : List Token
  rules : RuleTable
  diagnostics : List Diagnostic
  log : List Log.Record

namespace Session

def ofTokens (tokens : List Token) : Session := ⟨tokens, tokens, .standard, [], []⟩

/-- The token that is found when there is no other. -/
def stop (s : Session) : Token := endToken s.tokens

/-! ### The cursor -/

/-- The token that many places ahead. -/
def peek (s : Session) (depth : Nat) : Token := (s.ahead.drop depth).headD s.stop

def current (s : Session) : Token := s.peek 0

/-- Moves behind the current token, whatever it is. -/
def advance (s : Session) : Token × Session := (s.current, { s with ahead := s.ahead.tail })

def check (s : Session) (kind : TokenKind) : Bool := s.current.kind = kind

def hasTokens (s : Session) : Bool := !s.check .eof

/-- Moves behind the current token if it is of the given kind. -/
def expect (s : Session) (kind : TokenKind) : Except Diagnostic Token × Session :=
  if s.check kind then (.ok s.advance.1, s.advance.2)
  else (.error ⟨.unexpectedToken kind s.current.kind, s.current.position⟩, s)

/-- Moves behind the current token if its kind is one of `kinds`; the end of input never is. -/
def accept (s : Session) (kinds : List TokenKind) : Option TokenKind × Session :=
  if s.hasTokens && s.current.isOneOf kinds then (some s.current.kind, s.advance.2)
  else (none, s)

def skipSemicolons (s : Session) : Session := { s with ahead := Grammar.skipSemicolons s.ahead }

/-! ### Reading -/

/-- Moves the cursor and keeps what the events say. -/
def absorb (s : Session) (events : List Event) (rest : List Token) : Session :=
  { s with
    ahead := rest
    diagnostics := s.diagnostics ++ events.filterMap (Event.diagnostic? s.stop)
    log := s.log ++ events.map (Event.record s.stop) }

/-- The value or the diagnostic of a run at the cursor. A diagnostic is not kept. -/
def take {α : Type} (s : Session) (r : Run α s.ahead.length) : Except Diagnostic α × Session :=
  match r.outcome with
  | .done value rest _ => (.ok value, s.absorb r.events rest)
  | .failed failure rest _ => (.error (failure.diagnostic s.stop), s.absorb r.events rest)

def statement (s : Session) : Except Diagnostic Stmt × Session :=
  s.take (Grammar.statement s.rules s.ahead)

def byRule (s : Session) (rule : Rule) : Except Diagnostic Stmt × Session :=
  match rule with
  | .statement => s.statement
  | rule => s.take (Grammar.byRule s.rules rule s.ahead)

def block (s : Session) : Except Diagnostic (List Stmt) × Session :=
  s.take (Grammar.block s.rules s.ahead)

/-- Reads one statement and recovers if it fails. -/
def recover (s : Session) : Option Stmt × Session :=
  let recovered := (Grammar.statement s.rules s.ahead).recover
  (recovered.statement?, s.absorb recovered.events recovered.rest)

def synchronize (s : Session) : Session :=
  let point := Grammar.synchronize s.ahead
  s.absorb [.resumed point.head?] point

/-- Keeps a diagnostic that comes from outside. -/
def report (s : Session) (d : Diagnostic) : Session :=
  { s with diagnostics := s.diagnostics ++ [d], log := s.log ++ [⟨.warn, .grammar, d.text⟩] }

def register (s : Session) (kind : TokenKind) (rule : Rule) : Session :=
  { s with rules := s.rules.register kind rule }

/-- Reads the whole list anew and forgets earlier diagnostics. -/
def parse (s : Session) : File × Session :=
  let result := program s.rules s.tokens
  let s := { s with diagnostics := [] }.absorb result.events result.rest
  (result.file, { s with log := s.log ++ [⟨.debug, .grammar,
    "parsed " ++ toString result.file.length ++ " top-level statements with "
      ++ toString s.diagnostics.length ++ " errors"⟩] })

end Session

end FrontEnd.Grammar
