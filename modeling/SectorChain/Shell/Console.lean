import SectorChain.Boot
import SectorChain.CommandLine
import SectorChain.Shell.Session

/-!
# The console

The console starts a volume from a disk image and then carries out the lines that the user types,
until one of them asks to leave or the input ends. What it writes is given piece by piece.
-/

namespace SectorChain.Shell

/-- What the user does at the prompt. With a line goes the answer to the question that the command
may ask. -/
inductive Input where
  | line (text : String) (answer : Except String Bool)
  | interrupt
  | done

namespace Console

/-- The screen at the start: cleared, with the first line. -/
def banner : List Piece :=
  [.plain "\x1b[2J\x1b[1;1H", .bold .brightYellow "[chainfs Booting...]", .plain "\n"]

/-- The lines before the first prompt. -/
def welcome : List Piece :=
  [.plain s!"\x1b[38;5;14mWelcome to chainfs v{CommandLine.version}\n", .plain resetSequence,
    .colored .gray
      "Type 'help' for available commands. Use ↑↓ for history, Tab for auto-completion.\n",
    .plain "\n"]

/-- The line after a start that failed. -/
def bootFailure (e : VolumeError) : List Piece :=
  [.bold .red "❌ Cannot mount disk:", .plain s!" {e.message}\n"]

/-- The last line. -/
def farewell : List Piece := [.colored .brightYellow "GoodBye!", .plain "\n"]

/-- The answer to a line that is no command. -/
def unknown : List Piece :=
  [.colored .yellow
      "⚠️  Unknown command or missing arguments. Type 'help' for command list.",
    .plain "\n"]

/-- One line at the prompt: what it prints, the session after it, and whether to go on. -/
def step (s : Session) : Input → List Piece × Session × Bool
  | .interrupt => ([.plain "\n"], s, true)
  | .done => ([.colored .yellow "Exiting chainfs...", .plain "\n"], s, false)
  | .line text answer =>
    if (trimmed text.toList).isEmpty then ([], s, true)
    else match Command.parse? text with
      | none => (unknown, s, true)
      | some command =>
        let goOn := command != .exit
        match Session.execute answer command s.quiet with
        | .ok () s => (s.printed, s, goOn)
        | .error e s =>
          (s.printed ++ [.bold .red "❌ Error:", .plain s!" {e.message}\n"], s, goOn)

/-- The lines at the prompt one after the other; the input ends behind the last. -/
def run (s : Session) : List Input → List Piece × Session
  | [] =>
    let (pieces, s, _) := step s .done
    (pieces, s)
  | input :: rest =>
    let (pieces, s, goOn) := step s input
    if goOn then
      let (more, s) := run s rest
      (pieces ++ more, s)
    else (pieces, s)

/-- The session of a volume that was started. -/
def session? (boot : Boot) : Except VolumeError Session :=
  boot.outcome.map fun volume => { drive := boot.drive, volume }

/-- `start_shell`: what a whole run on a disk image writes, and the drive at the end. -/
def transcript (boot : Boot) (inputs : List Input) : List Piece × Drive :=
  match session? boot with
  | .error e => (banner ++ bootFailure e, boot.drive)
  | .ok s =>
    let (pieces, s) := run s inputs
    (banner ++ welcome ++ pieces ++ farewell, s.drive)

end Console

end SectorChain.Shell
