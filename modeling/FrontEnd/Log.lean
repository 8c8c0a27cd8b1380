import FrontEnd.Text.Plain

/-!
Log records: what a run says about its own progress, each with a level and the part of the front
end that speaks. A filter lets a level and everything more severe pass.
-/

set_option autoImplicit false

namespace FrontEnd.Log

/-- Levels from the most severe down. -/
inductive Level where
  | error | warn | info | debug | trace
deriving DecidableEq, Repr

namespace Level

def all : List Level := [.error, .warn, .info, .debug, .trace]

def name : Level → String
  | .error => "ERROR"
  | .warn => "WARN"
  | .info => "INFO"
  | .debug => "DEBUG"
  | .trace => "TRACE"

/-- How far a level is from the most severe one. -/
def rank : Level → Nat
  | .error => 0
  | .warn => 1
  | .info => 2
  | .debug => 3
  | .trace => 4

end Level

/-- The least severe level that passes; none passes nothing. -/
abbrev Filter := Option Level

namespace Filter

/-- Reads the name of a filter in any letter case. -/
def ofName? (text : String) : Option Filter :=
  let upper := text.toUpper
  if upper = "OFF" then some none
  else (Level.all.find? (·.name == upper)).map some

def passes (filter : Filter) (level : Level) : Bool :=
  filter.any fun least => level.rank ≤ least.rank

end Filter

/-- The part of the front end that a record comes from. -/
inductive Origin where
  | scan | statement | grammar | scopes | run
deriving DecidableEq, Repr

/-- The origin as it is written in a record. -/
def Origin.target : Origin → String
  | .scan => "tez::lexer::lexer"
  | .statement => "tez::parser::stmt"
  | .grammar => "tez::parser::parser"
  | .scopes => "tez::semantic::symbol_table"
  | .run => "tez"

structure Record where
  level : Level
  origin : Origin
  message : String
deriving DecidableEq, Repr

/-- The records that a filter lets pass, in order. -/
def Filter.select (filter : Filter) (records : List Record) : List Record :=
  records.filter (filter.passes ·.level)

/-- A record on its line, further lines of the message indented by four. -/
def Record.line (r : Record) : String :=
  let level := r.level.name
  "[" ++ level ++ String.ofList (List.replicate (5 - level.length) ' ') ++ " "
    ++ r.origin.target ++ "] " ++ r.message.replace "\n" "\n    " ++ "\n"

/-- A record as it is shown: its line as plain text. A sequence that the message leaves open takes
the end of the line with it. -/
def Record.shown (r : Record) : String := String.ofList (Text.plain r.line.toList)

end FrontEnd.Log
