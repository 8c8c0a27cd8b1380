import FrontEnd.Grammar.Session
import FrontEnd.Scan
import FrontEnd.Tree.Equality
import FrontEnd.Tree.Outline

/-!
The analysis of a source: its scan, and the session that reads the scanned tokens as a file.
-/

set_option autoImplicit false

namespace FrontEnd

structure Analysis where
  scan : Scan
  file : File
  session : Grammar.Session

namespace Analysis

def ofSource (source : Source) : Analysis :=
  let scan := Scan.ofSource source
  let (file, session) := (Grammar.Session.ofTokens scan.tokens).parse
  ⟨scan, file, session⟩

/-- All diagnostics, those of the scan first. -/
def diagnostics (a : Analysis) : List Diagnostic := a.scan.diagnostics ++ a.session.diagnostics

/-- The log of scanning and reading. -/
def steps (a : Analysis) : List Log.Record := a.scan.records ++ a.session.log

/-- The log with its closing summary. -/
def records (a : Analysis) : List Log.Record :=
  a.steps ++ [⟨.debug, .run, "parsed " ++ toString a.file.length ++ " top-level statements ("
    ++ toString a.scan.diagnostics.length ++ " lexer errors, "
    ++ toString a.session.diagnostics.length ++ " parser errors)"⟩]

end Analysis

end FrontEnd
