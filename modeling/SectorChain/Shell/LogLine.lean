import SectorChain.Note
import SectorChain.Shell.Style

/-!
# Log lines

A note is logged as one line: the time of day, the level in brackets, and the wording.
-/

namespace SectorChain.Shell

/-- A level, five characters wide. -/
def levelPiece : Level → Piece
  | .warn => .bold .yellow "WARN "
  | .info => .colored .green "INFO "
  | .debug => .colored .cyan "DEBUG"

/-- `log`: the line of a note that was left at `time`. -/
def logLine (time : String) (note : Note) : List Piece :=
  [.colored .gray time, .plain " [", levelPiece note.level, .plain ("] " ++ note.message)]

/-- `n` with zeros before it, `width` digits wide. -/
def padded (width n : Nat) : String :=
  let digits := toString n
  String.ofList (List.replicate (width - digits.length) '0') ++ digits

/-- `current_timestamp`: the time of day `milliseconds` after midnight, to the millisecond. -/
def clockText (milliseconds : Nat) : String :=
  let seconds := milliseconds / 1000
  padded 2 (seconds / 3600 % 24) ++ ":" ++ padded 2 (seconds / 60 % 60) ++ ":" ++
    padded 2 (seconds % 60) ++ "." ++ padded 3 (milliseconds % 1000)

end SectorChain.Shell
