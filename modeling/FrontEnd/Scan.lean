import FrontEnd.Log
import FrontEnd.Segment
import FrontEnd.Source

/-!
Scans: the segments of a source, each with the place where it starts. The tokens, the diagnostics
and the log of a scan are views of its segments.
-/

set_option autoImplicit false

namespace FrontEnd

namespace Segment

/-- The token that a segment at `start` bears. -/
def token? (file : String) (start : Place) (s : Segment) : Option Token :=
  match s.role with
  | .lexeme kind value => some ⟨kind, value, ⟨start, file⟩⟩
  | _ => none

/-- The faults of a segment at `start`, each where it stands. -/
def diagnostics (file : String) (start : Place) (s : Segment) : List Diagnostic :=
  s.faults.map fun f => ⟨f.cause, ⟨start.after (s.text.take f.offset), file⟩⟩

/-- What the log says of a segment: its faults, then its token. -/
def records (file : String) (start : Place) (s : Segment) : List Log.Record :=
  (s.diagnostics file start).map (⟨.warn, .scan, ·.text⟩)
    ++ (s.token? file start).toList.map (⟨.trace, .scan, "token " ++ ·.text⟩)

/-- Consecutive segments, each with its place, from a first place on. -/
def locate (start : Place) : List Segment → List (Place × Segment)
  | [] => []
  | s :: rest => (start, s) :: locate (start.after s.text) rest

end Segment

/-- The segments of a source and the place behind the last one. -/
structure Scan where
  file : String
  located : List (Place × Segment)
  stop : Place
deriving DecidableEq, Repr

namespace Scan

def ofSource (source : Source) : Scan :=
  let text := source.text.toList
  ⟨source.name, Segment.locate .start (Segment.segments text), Place.start.after text⟩

/-- The token that ends every scan. -/
def endToken (scan : Scan) : Token := ⟨.eof, "", ⟨scan.stop, scan.file⟩⟩

/-- The tokens in order, the end token last. -/
def tokens (scan : Scan) : List Token :=
  scan.located.filterMap (fun (start, s) => s.token? scan.file start) ++ [scan.endToken]

def diagnostics (scan : Scan) : List Diagnostic :=
  scan.located.flatMap fun (start, s) => s.diagnostics scan.file start

def records (scan : Scan) : List Log.Record :=
  scan.located.flatMap (fun (start, s) => s.records scan.file start) ++
    [⟨.debug, .scan, "tokenized " ++ scan.file ++ " into " ++ toString scan.tokens.length
      ++ " tokens with " ++ toString scan.diagnostics.length ++ " errors"⟩]

end Scan

end FrontEnd
