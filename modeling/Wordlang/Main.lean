import Std.Time.DateTime
import Wordlang.Command.Run
import Wordlang.Log.Stamp

/-!
# The program

The outer layer of the command: it reads the files that the arguments name, runs the command on what
it found, and writes the outcome.
-/

namespace Wordlang.Main

open Command

/-- Why a file cannot be used. -/
def faultOf : IO.Error → PathFault
  | .noFileOrDirectory .. => .absent
  | .inappropriateType .. => .isDirectory
  | e => .other (toString e)

/-- Reads a file. -/
def readFile (path : String) : IO (Except FileError (List UInt8)) := do
  try
    let bytes ← IO.FS.readBinFile path
    return .ok bytes.toList
  catch e =>
    match faultOf e with
    | .isDirectory => return .error (.reading path .isDirectory)
    | fault => return .error (.opening path fault)

/-- Reads all that comes from a stream. -/
partial def readAll (stream : IO.FS.Stream) (acc : ByteArray) : IO ByteArray := do
  let more ← stream.read 65536
  if more.isEmpty then return acc else readAll stream (acc ++ more)

/-- The files that a run may read. -/
def filesOf : Invocation → List String
  | .compile fs file =>
    (if fs.config = "" then usualConfig else fs.config) :: (file.filter (· ≠ "-")).toList
  | _ => []

/-- Whether a run reads standard input. -/
def needsStdin : Invocation → Bool
  | .compile _ file => file.all (· = "-")
  | _ => false

/-- What a run finds around it. -/
def hostOf (i : Invocation) : IO Host := do
  let files ← (filesOf i).mapM fun p => return (p, ← readFile p)
  let stdin : Except String (List UInt8) ←
    if needsStdin i then
      try
        let bytes ← readAll (← IO.getStdin) ByteArray.empty
        pure (.ok bytes.toList)
      catch e => pure (.error (toString e))
    else pure (.ok [])
  return { stdin, read := fun p => (files.lookup p).getD (.error (.opening p .absent)) }

/-- Writes the file of an outcome. -/
def writeFile (o : Outcome) : IO Outcome := do
  match o.file with
  | none => return o
  | some (path, text) =>
    try
      IO.FS.writeFile path text
      return o
    catch e => return o.refuse (.opening path (faultOf e))

/-- Runs the command. -/
def runCommand (args : List String) : IO Outcome := do
  match Invocation.ofArguments args with
  | .error e => return { failure := some (.usage e) }
  | .ok i => writeFile (i.run (← hostOf i))

end Wordlang.Main

open Wordlang Wordlang.Main in
/-- The program: the outcome of its arguments, with the failure on standard error. -/
def main (args : List String) : IO UInt32 := do
  let o ← runCommand args
  let now ← Std.Time.Timestamp.now
  (← IO.getStdout).putStr o.stdout
  let stderr ← IO.getStderr
  stderr.putStr (o.stderr (Log.stamp now.toSecondsSinceUnixEpoch.toInt.toNat))
  match o.failure with
  | none => return 0
  | some e =>
    stderr.putStrLn (Command.programName ++ ": " ++ e.message)
    return 1
