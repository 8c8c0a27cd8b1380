import FrontEnd.Analysis
import FrontEnd.Report

/-!
The command: one source file is read, analysed, and shown as asked. Tokens and outline are the
output; the log and the reports go to the side.
-/

set_option autoImplicit false

namespace FrontEnd

/-- Why a file gives no text. -/
inductive ReadFailure where
  | missing
  | directory
  | notText
  | other (reason : String)
deriving DecidableEq, Repr

def ReadFailure.reason : ReadFailure → String
  | .missing => "No such file or directory (os error 2)"
  | .directory => "Is a directory (os error 21)"
  | .notText => "stream did not contain valid UTF-8"
  | .other reason => reason

/-- The source in a file, by the bytes that were found there. -/
def Source.ofContent (name : String) (content : Except ReadFailure ByteArray) :
    Except Diagnostic Source :=
  let refuse (failure : ReadFailure) : Except Diagnostic Source :=
    .error ⟨.fileRead name failure.reason, ⟨⟨0, 0⟩, name⟩⟩
  match content with
  | .error failure => refuse failure
  | .ok bytes =>
    match String.fromUTF8? bytes with
    | some text => .ok ⟨name, text⟩
    | none => refuse .notText

namespace Command

/-- What is shown; the log shows warnings unless told otherwise. -/
structure Options where
  tokens : Bool
  outline : Bool
  filter : Log.Filter
deriving DecidableEq, Repr

structure Output where
  failed : Bool
  main : String
  side : String
deriving DecidableEq, Repr

/-- The filter that an argument names, or else the environment, or else warnings. -/
def filter? (argument environment : Option String) : Option Log.Filter :=
  match argument.or environment with
  | some name => Log.Filter.ofName? name
  | none => some (some .warn)

/-- Shows the analysis of a source. -/
def present (options : Options) (source : Source) : Output :=
  let analysis := Analysis.ofSource source
  let tokens :=
    if options.tokens then String.join (analysis.scan.tokens.map (·.text ++ "\n")) else ""
  let outline := if options.outline then analysis.file.text else ""
  let log := String.join ((options.filter.select analysis.steps).map Log.Record.shown)
  let reports := String.join (analysis.diagnostics.map (·.report source.text))
  { failed := !analysis.diagnostics.isEmpty, main := tokens ++ outline, side := log ++ reports }

/-- Runs the command on the content of a file. -/
def run (options : Options) (name : String) (content : Except ReadFailure ByteArray) : Output :=
  match Source.ofContent name content with
  | .ok source => present options source
  | .error d => { failed := true, main := "", side := "Error: " ++ d.text ++ "\n" }

/-! ### Arguments -/

/-- The arguments of the command. -/
structure Arguments where
  tokens : Bool
  outline : Bool
  level? : Option String
  file? : Option String
deriving DecidableEq, Repr

/-- Takes the one file that can be named. -/
def Arguments.withFile (a : Arguments) (name : String) : Option Arguments :=
  if a.file?.isNone then some { a with file? := some name } else none

/-- Reads options and one file name; behind a double dash everything is a file name. -/
def Arguments.read (a : Arguments) : List String → Option Arguments
  | [] => some a
  | "--tokens" :: rest => Arguments.read { a with tokens := true } rest
  | "--ast" :: rest => Arguments.read { a with outline := true } rest
  | "--log-level" :: level :: rest => Arguments.read { a with level? := some level } rest
  | "--" :: [name] => a.withFile name
  | name :: rest =>
    match name.splitOn "=" with
    | ["--log-level", level] => Arguments.read { a with level? := some level } rest
    | _ =>
      if name.startsWith "-" then none
      else (a.withFile name).bind fun a => a.read rest

end Command

end FrontEnd
