import TuneRelay.Cli.Program

/-! # The command line program -/
namespace TuneRelay.Main
open Cli

/-- What went wrong with a file. The system gives its error numbers either as they are or
negated, so 20 says "not a folder" in both forms. -/
def fileError : IO.Error → FileError
  | .noFileOrDirectory .. => .notFound
  | .inappropriateType _ code _ => if code = 20 ∨ code = 0 - 20 then .notFolder else .isFolder
  | fault => .other (toString fault)

def result {α : Type} (action : IO α) : IO (Except FileError α) := do
  try
    return .ok (← action)
  catch fault => return .error (fileError fault)

/-- A path whose file cannot be opened is there all the same, unless it leads nowhere. -/
def fileSystem : FileSystem IO where
  Handle := IO.FS.Handle
  fileExists path := do
    match ← result (IO.FS.Handle.mk path .read) with
    | .error .notFound | .error .notFolder => return false
    | _ => return true
  read path := result do return (← IO.FS.readBinFile path).data.toList
  create path := result (IO.FS.Handle.mk path .write)
  fill handle bytes := result do
    handle.write ⟨bytes.toArray⟩
    handle.flush

def usage : String := String.join [
  "Usage: [-c <config>] <command>\n\n",
  "Commands:\n",
  "  compile <input> <output>              compile tune text into a blob\n",
  "  sanitize <input>                      print the sanitized form of tune text\n",
  "  inspect <input>                       print the tempo and the notes of a blob\n",
  "  render [--realtime] <input> <output>  play tune text or a blob into a wave file\n"]

def report : Ending → IO Unit
  | .stopped .help => IO.print usage
  | .stopped .usage => IO.eprint usage
  | .done text => IO.print text
  | .failed fault => IO.eprintln s!"error: {fault.message}"

end TuneRelay.Main

open TuneRelay in
def main (arguments : List String) : IO UInt32 := do
  let ending ← Cli.run .standard Main.fileSystem arguments
  Main.report ending
  return ending.exitCode.toUInt32
