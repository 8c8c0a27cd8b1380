import FrontEnd.Command

/-!
The command line.
-/

set_option autoImplicit false

namespace FrontEnd.Command

/-- The content of a file, or why there is none. -/
def content (name : String) : IO (Except ReadFailure ByteArray) := do
  try
    return .ok (← IO.FS.readBinFile name)
  catch
    | .noFileOrDirectory .. => return .error .missing
    | .inappropriateType .. => return .error .directory
    | e => return .error (.other (toString e))

/-- How the command is called, for one who called it otherwise. -/
def usage : IO UInt32 := do
  IO.eprintln "usage: [--tokens] [--ast] [--log-level LEVEL] FILE"
  return 2

/-- Runs the command on the file that is named and shows what comes out. -/
def execute (options : Options) (name : String) : IO UInt32 := do
  let output := run options name (← content name)
  IO.print output.main
  IO.eprint output.side
  return if output.failed then 1 else 0

end FrontEnd.Command

open FrontEnd.Command in
def main (args : List String) : IO UInt32 := do
  match Arguments.read ⟨false, false, none, none⟩ args with
  | some ⟨tokens, outline, level?, some name⟩ =>
    match filter? level? (← IO.getEnv "RUST_LOG") with
    | some filter => execute ⟨tokens, outline, filter⟩ name
    | none => usage
  | _ => usage
