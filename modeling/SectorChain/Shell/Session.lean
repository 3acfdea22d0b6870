import SectorChain.Volume
import SectorChain.Shell.Command
import SectorChain.Shell.Style

/-!
# The shell

A session has a volume, a current directory, and what was printed so far. A command works on the
session; when it fails, what it did and printed before stays.
-/

namespace SectorChain.Shell

/-- A shell in use. -/
structure Session where
  drive : Drive
  volume : Volume
  cwd : String := "/"
  printed : List Piece := []

/-- Why a command failed. -/
inductive ShellError where
  | volume (error : VolumeError)
  | notADirectory (path : String)
  /-- A question could not be asked. -/
  | dialog (message : String)
  deriving DecidableEq, Repr

/-- The wording of a shell error. -/
def ShellError.message : ShellError → String
  | .volume e => e.message
  | .notADirectory path => s!"{path} is not a directory"
  | .dialog message => message

/-- An operation on a session. -/
abbrev ShellM := EStateM ShellError Session

namespace Session

/-- Print pieces of text, and end the line. -/
def print (pieces : List Piece) : ShellM Unit :=
  modify fun s => { s with printed := s.printed ++ pieces ++ [.plain "\n"] }

/-- Use the volume. -/
def use {α : Type} (x : Volume → DriveM α) : ShellM α := fun s =>
  match x s.volume s.drive with
  | .ok a drive => .ok a { s with drive }
  | .error e drive => .error (.volume e) { s with drive }

/-- Change the volume, which stays as the operation left it, also after a failure. -/
def update {α : Type} (x : UpdateM Volume α) : ShellM α := fun s =>
  match x (s.volume, s.drive) with
  | .ok a (volume, drive) => .ok a { s with volume, drive }
  | .error e (volume, drive) => .error (.volume e) { s with volume, drive }

/-- The path that an argument means in the current directory. -/
def resolve (path : String) : ShellM String := return Path.resolve (← get).cwd path

/-! ## Commands -/

/-- `print_help`: the list of commands. -/
def helpText : String :=
  "\n".intercalate ["",
    "  ls [-r] [dir]           List directory (-r: whole tree)",
    "  pwd                     Print current path",
    "  cd <dir>                Change directory",
    "  mkdir <dir>             Create directory",
    "  create <file> <size>    Create a zero-filled file of <size> bytes",
    "  rm [-r] <path>          Remove file or directory (-r: with contents)",
    "  cat <file>              Print file content",
    "  write <file> <off> <s>  Write string into file at offset",
    "  stat <path>             Show header sector, size and block chain",
    "  print                   Dump bitmap, headers and all file contents",
    "  df                      Show free sectors",
    "  open <file>             Open file, print its id",
    "  fread <id> <n>          Read n bytes from an open file",
    "  fwrite <id> <s>         Write string to an open file",
    "  fseek <id> <pos>        Move an open file's position",
    "  close <id>              Close an open file",
    "  files                   List open file ids",
    "  format                  Format virtual disk",
    "  help                    Show this help message",
    "  exit                    Quit the shell", ""]

/-- Whether `part` stands anywhere in the text. -/
def hasPart (part : List Char) : List Char → Bool
  | [] => part.isEmpty
  | c :: rest => part.isPrefixOf (c :: rest) || hasPart part rest

/-- A line of a listing: blue if the mark of a directory is in it. -/
def listingPiece (line : String) : Piece :=
  if hasPart Kind.directory.tag.toList line.toList then .colored .blue line else .plain line

/-- A sector number of an open file, three characters wide or more. -/
def idText (id : Nat) : String :=
  let digits := toString id
  String.ofList (List.replicate (3 - digits.length) ' ') ++ digits

/-- What is known of a file. -/
def statPieces (path : String) (stat : FileStat) : List Piece :=
  [.bold .brightYellow "📊 File Info",
    .plain "\n", .colored .blue "Name", .plain s!": {path}\n",
    .colored .blue "Type", .plain s!": {stat.kind.tag}\n",
    .colored .blue "Size", .plain s!": {stat.length} bytes\n",
    .colored .blue "Header", .plain s!": {stat.sector}\n",
    .colored .blue "Blocks", .plain (": " ++ " -> ".intercalate (stat.chain.map toString) ++ "\n")]

/-- Ask a question. What comes of it is not up to the shell: an answer, or a message that it could
not be asked. -/
def confirm (answer : Except String Bool) : ShellM Bool :=
  match answer with
  | .ok yes => return yes
  | .error message => throw (.dialog message)

/-- `execute_command`: carry out a command. The answer is that to the question whether to format the
disk, should it be asked. -/
def execute (answer : Except String Bool) : Command → ShellM Unit
  | .help => do
    print [.bold .brightCyan "📘 chainfs Commands"]
    print [.colored .gray helpText]
  | .ls path recursive => do
    let target ←
      match path with
      | some p => resolve p
      | none => pure (← get).cwd
    let lines ← use (·.list target recursive)
    if lines.isEmpty then print [.colored .gray "(empty)"]
    lines.forM fun line => print [listingPiece line]
  | .pwd => do print [.plain "📍 ", .colored .cyan (← get).cwd]
  | .cd path => do
    let target ← resolve path
    let stat ← use (·.stat target)
    if stat.kind = .directory then
      modify fun s => { s with cwd := target }
      print [.plain "📂 Moved to ", .colored .blue target]
    else throw (.notADirectory target)
  | .mkdir path => do
    let target ← resolve path
    use (·.makeDirectory target)
    print [.plain "✅ Created directory: ", .colored .green target]
  | .create path size => do
    let target ← resolve path
    use (·.create target size)
    print [.plain "📝 Created file: ", .colored .green target, .plain s!" ({size} bytes)"]
  | .rm path recursive => do
    let target ← resolve path
    use (·.remove target recursive)
    print [.plain "❌ Deleted: ", .colored .red target]
  | .cat path => do
    let target ← resolve path
    let bytes ← use fun v => do
      let f ← v.openPath target
      f.readAt f.length 0
    print [.plain (Bytes.printable bytes)]
  | .write path offset text => do
    let target ← resolve path
    let bytes := Bytes.ofString text
    let written ← use fun v => do (← v.openPath target).writeAt bytes offset
    print [.plain s!"✏️  Wrote {written} of {bytes.length} bytes to ", .colored .cyan target,
      .plain s!" at offset {offset}"]
  | .stat path => do
    let target ← resolve path
    print (statPieces target (← use (·.stat target)))
  | .print => do
    let text ← use Volume.print
    modify fun s => { s with printed := s.printed ++ [.plain text] }
  | .df => do
    let device := (← get).drive.device
    let free ← use Volume.numFree
    print [.plain "💾 ", .colored .green (toString free),
      .plain s!" of {device.sectors} sectors free ({device.sectorSize} bytes per sector)"]
  | .openFile path => do
    let target ← resolve path
    let id ← update (Volume.openById target)
    print [.plain "📂 Opened ", .colored .cyan target, .plain " as id ",
      .colored .green (toString id)]
  | .close id => do
    update (Volume.closeById id)
    print [.plain s!"🔒 Closed id {id}"]
  | .fread id count => do
    let left ← use (·.remainingId id)
    let buffer := Bytes.zeros (min count left)
    let (n, buffer) ← update (UpdateM.beside buffer (Volume.readById id))
    print [.plain (Bytes.printable (buffer.take n))]
    print [.colored .gray s!"({n} bytes)"]
  | .fwrite id text => do
    let written ← update (Volume.writeById id (Bytes.ofString text))
    print [.plain s!"✏️  Wrote {written} bytes to id {id}"]
  | .fseek id position => do
    update (Volume.seekById id position)
    print [.plain s!"↪️  id {id} now at {position}"]
  | .files => do
    let ids := (← get).volume.openFiles.ids
    if ids.isEmpty then print [.colored .gray "(no open files)"]
    ids.forM fun (id, sector) => print [.plain s!"{idText id}  header sector {sector}"]
  | .format => do
    if ← confirm answer then
      print [.plain "💾 Formatting virtual disk..."]
      update do UpdateM.put (← Volume.format)
      modify fun s => { s with cwd := "/" }
    else print [.colored .yellow "Format cancelled."]
  | .exit => print [.bold .yellow "👋 Exiting chainfs shell..."]

/-- The session with nothing printed yet. -/
def quiet (s : Session) : Session := { s with printed := [] }

end Session

end SectorChain.Shell
