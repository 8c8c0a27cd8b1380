import FrontEnd.Grammar.Recovery
import FrontEnd.Log
import FrontEnd.Tree.Basic

/-!
Runs: reading statements also leaves a trail of events, in the order in which they happen. The
diagnostics and the log of a run are views of its events.
-/

set_option autoImplicit false

namespace FrontEnd.Grammar

/-- What happens while statements are read; a missing token is the end of the list. -/
inductive Event where
  | statement (token? : Option Token)
  | fault (failure : Failure)
  | resumed (token? : Option Token)
deriving DecidableEq, Repr

/-- The token that stands for the end of a list: it has the position of the last token. -/
def endToken (tokens : List Token) : Token :=
  ⟨.eof, "", (tokens.getLast?.map Token.position).getD .null⟩

/-- A failure in a list that ends with `stop`. -/
def Failure.diagnostic (stop : Token) (f : Failure) : Diagnostic :=
  ⟨f.cause, (f.token?.getD stop).position⟩

namespace Event

def diagnostic? (stop : Token) : Event → Option Diagnostic
  | .fault f => some (f.diagnostic stop)
  | _ => none

def record (stop : Token) : Event → Log.Record
  | .statement t => ⟨.trace, .statement, "statement at " ++ (t.getD stop).text⟩
  | .fault f => ⟨.warn, .grammar, (f.diagnostic stop).text⟩
  | .resumed t => ⟨.trace, .grammar, "resynchronized at " ++ (t.getD stop).text⟩

end Event

/-- The events of reading from `n` tokens, and what came of it. -/
structure Run (α : Type) (n : Nat) where
  events : List Event
  outcome : Parsed α n

namespace Run

variable {α β : Type} {n : Nat}

/-- Reading that leaves no trail. -/
def silent (outcome : Parsed α n) : Run α n := ⟨[], outcome⟩

/-- A value for which no token is read. -/
def stay (value : α) (ts : List Token) : Run α (ts.length + 1) := silent (.stay value ts)

/-- Forgets that at least one token was read. -/
def loose (r : Run α n) : Run α (n + 1) := ⟨r.events, r.outcome.loose⟩

/-- Goes on behind a value with a reader that may read nothing. -/
def andThen (r : Run α n)
    (next : (value : α) → (rest : List Token) → rest.length < n → Run β (rest.length + 1)) :
    Run β n :=
  match r.outcome with
  | .done value rest shorter =>
    let after := next value rest shorter
    ⟨r.events ++ after.events, after.outcome.before shorter⟩
  | .failed failure rest within => ⟨r.events, .failed failure rest within⟩

/-- Goes on behind a value with a reader that reads at least one token. -/
def chain (r : Run α n)
    (next : (value : α) → (rest : List Token) → rest.length < n → Run β rest.length) : Run β n :=
  r.andThen fun value rest shorter => (next value rest shorter).loose

def map (f : α → β) (r : Run α n) : Run β n := ⟨r.events, r.outcome.map f⟩

/-- Puts an event in front. -/
def after (event : Event) (r : Run α n) : Run α n := ⟨event :: r.events, r.outcome⟩

/-- What was read behind the first token, if there is one, seen from before it. -/
def skipping : (ts : List Token) → Run α ts.tail.length → Run α ts.length
  | [], r => r
  | _ :: _, r => r.loose

/-- What was read behind the semicolons at the front, seen from before them. -/
def trimming (ts : List Token) (r : Run α ((skipSemicolons ts).length + 1)) :
    Run α (ts.length + 1) :=
  ⟨r.events, r.outcome.before (Nat.lt_succ_of_le (skipSemicolons_length_le ts))⟩

end Run

/-- Takes a token and goes on behind it. -/
def Front.run {α : Type} {ts : List Token} (front : Front ts)
    (next : (t : Token) → (rest : List Token) → rest.length < ts.length → Run α rest.length) :
    Run α ts.length :=
  (Run.silent (front.give front.token)).chain next

/-- A statement that was read or recovered from, with the tokens behind it. -/
structure Recovered (ts : List Token) where
  statement? : Option Stmt
  events : List Event
  rest : List Token
  progress : headKind ts ≠ .eof → rest.length < ts.length

/-- A failure ends here: it is recorded, and reading resumes behind it. -/
def Run.recover {ts : List Token} (r : Run Stmt ts.length) : Recovered ts :=
  match r.outcome with
  | .done statement rest shorter => ⟨some statement, r.events, rest, fun _ => shorter⟩
  | .failed failure rest within =>
    ⟨none, r.events ++ [.fault failure, .resumed (synchronize rest).head?], resume ts rest,
      resume_length_lt within⟩

/-- Goes on with the statements behind one that was read before the end of input. -/
def Recovered.andThen {ts : List Token} (r : Recovered ts) (h : headKind ts ≠ .eof)
    (next : (rest : List Token) → rest.length < ts.length → Run (List Stmt) (rest.length + 1)) :
    Run (List Stmt) ts.length :=
  let others := next r.rest (r.progress h)
  ⟨r.events ++ others.events,
    (others.outcome.map (r.statement?.toList ++ ·)).before (r.progress h)⟩

end FrontEnd.Grammar
