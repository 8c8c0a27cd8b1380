import FrontEnd.Scan

/-!
A scanner that can be asked between scans: a cursor in a source, and the diagnostics of the last
scan together with those reported since.
-/

set_option autoImplicit false

namespace FrontEnd

/-- The text of the source is `behind ++ ahead`, and the cursor stands between the two. -/
structure Scanner where
  source : Source
  behind : List Char
  ahead : List Char
  diagnostics : List Diagnostic
  split : behind ++ ahead = source.text.toList := by simp

namespace Scanner

/-- A scanner at the start of a source. -/
def ofSource (source : Source) : Scanner where
  source := source
  behind := []
  ahead := source.text.toList
  diagnostics := []

/-- Scans the whole source anew and forgets earlier diagnostics. -/
def scan (s : Scanner) : Scan × Scanner :=
  let scan := Scan.ofSource s.source
  (scan, { source := s.source, behind := s.source.text.toList, ahead := [],
           diagnostics := scan.diagnostics })

/-- The character at the cursor. -/
def next? (s : Scanner) : Option Char := s.ahead.head?

def remainder (s : Scanner) : String := String.ofList s.ahead

def atEnd (s : Scanner) : Bool := s.ahead.isEmpty

/-- The place of the cursor. -/
def place (s : Scanner) : Place := Place.start.after s.behind

def position (s : Scanner) : Position := ⟨s.place, s.source.name⟩

/-- The byte where the line of the cursor starts. -/
def lineStart (s : Scanner) : Nat :=
  (String.ofList s.behind).utf8ByteSize + 1 - s.place.column

/-- The position of a byte of the source, which is taken to be on the line of the cursor; its
column is kept to 32 bits. -/
def positionAt (s : Scanner) (offset : Nat) : Position :=
  ⟨⟨s.place.line, (offset + 1 - s.lineStart) % UInt32.size⟩, s.source.name⟩

/-- Adds a diagnostic, with the record that the log keeps of it. -/
def report (s : Scanner) (d : Diagnostic) : Log.Record × Scanner :=
  (⟨.warn, .scan, d.text⟩, { s with diagnostics := s.diagnostics ++ [d] })

end Scanner

end FrontEnd
