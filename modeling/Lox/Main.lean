import Std.Time.DateTime.Timestamp
import Lox.CommandLine

/-!
# The program

Reads the arguments, the files, and the standard input, and hands them to the
command line. At the prompt every line is answered as soon as it is read.
-/

set_option autoImplicit false

namespace Lox.Main

/-- The bound on the depth of evaluation. It is far beyond the memory of any machine. -/
def depth : Nat := 1000000000000000000

def now : IO Float := do
  let time ← Std.Time.Timestamp.now
  return time.toNanosecondsSinceUnixEpoch.val.toNat.toFloat / 1000000000

/-- A clock that starts at a time and is a microsecond later at every reading. -/
def clockFrom (start : Float) (reading : Nat) : Float := start + reading.toFloat / 1000000

partial def readAll (stream : IO.FS.Stream) (bytes : ByteArray) : IO ByteArray := do
  let more ← stream.read 65536
  if more.isEmpty then return bytes
  readAll stream (bytes ++ more)

/-- Reads a line with its line feed, or nothing at the end of the stream. -/
partial def readLine (stream : IO.FS.Stream) (bytes : ByteArray) : IO ByteArray := do
  let more ← stream.read 1
  if more.isEmpty then return bytes
  let bytes := bytes ++ more
  if more.toList.all CommandLine.inLine then readLine stream bytes
  else return bytes

def readFile (path : String) : IO (Except ReadFailure ByteArray) := do
  try
    return .ok (← IO.FS.readBinFile path)
  catch
    | .noFileOrDirectory .. => return .error .missing
    | .inappropriateType _ 21 _ => return .error .directory
    | error => return .error (.other (toString error))

/-- Answers input lines until the input ends or one is not text, and gives the exit code. -/
partial def prompt (input output errors : IO.FS.Stream) (mode : Mode) (machine : Machine) :
    IO Nat := do
  output.putStr CommandLine.promptText
  output.flush
  let line ← readLine input ByteArray.empty
  if line.isEmpty then return 0
  let machine := { machine with clock := clockFrom (← now) }
  match CommandLine.promptStep depth mode line.toList machine with
  | none =>
      errors.putStr CommandLine.notTextMessage
      return 1
  | some (report, after) =>
      output.write report.written
      output.flush
      errors.putStr report.messages
      prompt input output errors mode after

/-- What the host gives to a request other than a prompt. -/
def hostFor (input : IO.FS.Stream) (request : Request) : IO Host := do
  let clock := clockFrom (← now)
  match request with
  | .script path _ =>
      if CommandLine.isStandardInput path then
        return ⟨← readAll input ByteArray.empty, fun _ => .error .missing, clock⟩
      else
        let file ← readFile path
        return ⟨ByteArray.empty, fun _ => file, clock⟩
  | _ => return ⟨ByteArray.empty, fun _ => .error .missing, clock⟩

end Lox.Main

def main (arguments : List String) : IO UInt32 := do
  let input ← IO.getStdin
  let output ← IO.getStdout
  let errors ← IO.getStderr
  match Lox.Request.ofArguments arguments with
  | .prompt mode =>
      let machine := Lox.Machine.start (Lox.Main.clockFrom 0) none
      return (← Lox.Main.prompt input output errors mode machine).toUInt32
  | request =>
      let host ← Lox.Main.hostFor input request
      let done := Lox.CommandLine.answer Lox.Main.depth host request
      output.write done.output
      output.flush
      errors.putStr done.errors
      return done.code.toUInt32
