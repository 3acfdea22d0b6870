import SectorChain.CommandLine
import SectorChain.Shell.Console
import SectorChain.Shell.LogLine
import Std.Time.Zoned

/-!
# The program

The program reads its arguments, starts the disk image and serves the lines of the standard input.
The image file is written back whenever it has changed. Notes go to the standard error output.
-/

namespace SectorChain.Program

open SectorChain.Shell

/-- The time of day. -/
def clock : IO String := do
  let now ← Std.Time.PlainDateTime.now
  return clockText now.time.toMilliseconds.toInt.toNat

/-- Log the notes that were left after the first `start`. -/
def log (verbosity start : Nat) (drive : Drive) : IO Unit := do
  for note in drive.notes.extract start drive.notes.size do
    if note.isShown verbosity then
      IO.eprintln (renderAll false (logLine (← clock) note))

/-- Write what is to be seen. -/
def display (pieces : List Piece) : IO Unit := do
  let out ← IO.getStdout
  out.putStr (renderAll false pieces)
  out.flush

/-- The content of the image file, if it exists. -/
def readImage (path : String) : IO (Option Image) := do
  try
    return some (.ofBytes (← IO.FS.readBinFile path).data)
  catch
    | .noFileOrDirectory .. => return none
    | e => throw e

/-- Write the image file if its content is not `before`. -/
def writeImage (path : String) (before : Option Image) (drive : Drive) : IO Unit := do
  if let some img := drive.device.image? then
    if before ≠ some img then IO.FS.writeBinFile path ⟨img.toBytes⟩

/-- The standard input is read line by line, so it is no terminal to ask a question on. -/
def unasked : Except String Bool := .error "IO error: not a terminal"

/-- Serve the lines of the standard input. -/
partial def serve (o : Options) (s : Session) : IO Unit := do
  IO.eprint s!"{s.cwd}> "
  let line ← (← IO.getStdin).getLine
  let input : Input := if line.isEmpty then .done else .line line.trimAsciiEnd.toString unasked
  let (pieces, next, goOn) := Console.step s input
  log o.verbosity s.drive.notes.size next.drive
  writeImage o.disk s.drive.device.image? next.drive
  display pieces
  if goOn then serve o next else display Console.farewell

/-- Start the image and serve. -/
def run (o : Options) : IO Unit := do
  display Console.banner
  let file ← readImage o.disk
  let boot := Boot.start o.disk file o.sectors o.format
  log o.verbosity 0 boot.drive
  writeImage o.disk file boot.drive
  match Console.session? boot with
  | .error e => display (Console.bootFailure e)
  | .ok s =>
    display Console.welcome
    serve o s

end SectorChain.Program

/-- The program: the exit code is 2 if the arguments are wrong. -/
def main (args : List String) : IO UInt32 := do
  match SectorChain.CommandLine.parse args with
  | .ok o => do
    SectorChain.Program.run o
    return 0
  | .error refusal =>
    match refusal.answer? with
    | some text => IO.print text
    | none => IO.eprintln refusal.message
    return refusal.exitCode.toUInt32
