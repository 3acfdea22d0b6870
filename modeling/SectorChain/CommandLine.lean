import SectorChain.Layout
import SectorChain.Numeral

/-!
# The command line

Options come in a long form and some in a short one. A value stands behind an equals sign, or
right behind a short option, or in the next argument, where it may not look like an option. Short
options that take no value may share one dash. Only the verbosity may be given more than once.

The value of an option is looked at when the next option begins or the arguments end; an argument
that is no option at all is an error before that.
-/

namespace SectorChain

/-- `Args`: what the arguments ask for. -/
structure Options where
  disk : String := "disk.img"
  sectors : Nat := Layout.imageSectors
  format : Bool := false
  verbosity : Nat := 0
  deriving DecidableEq, Repr

namespace CommandLine

/-- Why no run follows from the arguments. -/
inductive Refusal where
  | help
  | version
  | unknownArgument
  | noValue
  | badNumber
  | repeated
  | unneededValue
  deriving DecidableEq, Repr

/-- An option with a value. -/
inductive Valued where
  | disk
  | sectors
  deriving DecidableEq, Repr

/-- An option without a value. -/
inductive Flag where
  | format
  | verbose
  | help
  | version
  deriving DecidableEq, Repr

/-- What an option is called in the long form. -/
def long? : String → Option (Valued ⊕ Flag)
  | "disk" => some (.inl .disk)
  | "sectors" => some (.inl .sectors)
  | "format" => some (.inr .format)
  | "verbose" => some (.inr .verbose)
  | "help" => some (.inr .help)
  | "version" => some (.inr .version)
  | _ => none

/-- What an option is called in the short form. -/
def short? : Char → Option (Valued ⊕ Flag)
  | 'd' => some (.inl .disk)
  | 'v' => some (.inr .verbose)
  | 'h' => some (.inr .help)
  | 'V' => some (.inr .version)
  | _ => none

/-- One argument by its shape. -/
inductive Argument where
  /-- Two dashes: no options follow. -/
  | endOfOptions
  | long (name : String) (value : Option String)
  | short (letters : List Char)
  | word (text : String)
  deriving DecidableEq, Repr

/-- The text before the first equals sign, and the text behind it if there is one. -/
def splitValue (cs : List Char) : String × Option String :=
  match cs.dropWhile (· != '=') with
  | [] => (String.ofList cs, none)
  | _ :: value => (String.ofList (cs.takeWhile (· != '=')), some (String.ofList value))

/-- The shape of an argument. -/
def Argument.ofString (text : String) : Argument :=
  match text.toList with
  | ['-', '-'] => .endOfOptions
  | '-' :: '-' :: rest =>
    let (name, value) := splitValue rest
    .long name value
  | '-' :: c :: rest => .short (c :: rest)
  | _ => .word text

/-- The options given so far. -/
structure Given where
  disk : Option String := none
  sectors : Option Nat := none
  format : Bool := false
  verbosity : Nat := 0

/-- The greatest verbosity; more of the option changes nothing. -/
def verbosityMax : Nat := 255

/-- The number of sectors that a value asks for: a numeral of 32 bits. Zero may have a sign. -/
def sectorCount? (text : String) : Option Nat :=
  match text.toList with
  | '-' :: digits =>
    if digits.head? = some '+' then none else Numeral.parse? 1 (String.ofList digits)
  | _ => Numeral.parse? 0x100000000 text

namespace Given

/-- An option with its value. The disk must have a name. -/
def set (g : Given) : Valued → String → Except Refusal Given
  | .disk, value =>
    if g.disk.isSome then .error .repeated
    else if value = "" then .error .noValue
    else .ok { g with disk := some value }
  | .sectors, value =>
    if g.sectors.isSome then .error .repeated
    else match sectorCount? value with
      | some n => .ok { g with sectors := some n }
      | none => .error .badNumber

/-- An option without a value. -/
def raise (g : Given) : Flag → Except Refusal Given
  | .format => if g.format then .error .repeated else .ok { g with format := true }
  | .verbose => .ok { g with verbosity := min verbosityMax (g.verbosity + 1) }
  | .help => .error .help
  | .version => .error .version

/-- The options with the usual values where none was given. -/
def options (g : Given) : Options where
  disk := g.disk.getD "disk.img"
  sectors := g.sectors.getD Layout.imageSectors
  format := g.format
  verbosity := g.verbosity

end Given

/-- An option that still waits: for its value, or to have its value looked at. -/
abbrev Waiting := Option (Valued × Option String)

/-- Look at the value of the option that waits. -/
def settle (g : Given) : Waiting → Except Refusal Given
  | none => .ok g
  | some (_, none) => .error .noValue
  | some (option, some value) => g.set option value

/-- The options behind one dash. -/
def readShort (g : Given) (w : Waiting) : List Char → Except Refusal (Given × Waiting)
  | [] => .ok (g, w)
  | c :: rest =>
    match short? c with
    | none => .error .unknownArgument
    | some (.inr flag) => do readShort (← (← settle g w).raise flag) none rest
    | some (.inl option) => do
      let g ← settle g w
      match rest with
      | [] => .ok (g, some (option, none))
      | '=' :: value => return (← g.set option (String.ofList value), none)
      | value => return (← g.set option (String.ofList value), none)

/-- The arguments one after the other. -/
def read (g : Given) (w : Waiting) : List String → Except Refusal Given
  | [] => settle g w
  | arg :: rest =>
    match Argument.ofString arg with
    | .endOfOptions => if rest.isEmpty then settle g w else .error .unknownArgument
    | .long name value =>
      match long? name, value with
      | none, _ => .error .unknownArgument
      | some (.inr _), some _ => .error .unneededValue
      | some (.inr flag), none => do read (← (← settle g w).raise flag) none rest
      | some (.inl option), some value => do read (← (← settle g w).set option value) none rest
      | some (.inl option), none => do read (← settle g w) (some (option, none)) rest
    | .short letters => do
      let (g, w) ← readShort g w letters
      read g w rest
    | .word text =>
      match w with
      | some (option, none) => read g (some (option, some text)) rest
      | _ => .error .unknownArgument

/-- What the arguments ask for. -/
def parse (args : List String) : Except Refusal Options := (read {} none args).map Given.options

/-! ## Texts -/

/-- The text about the options. -/
def helpText : String :=
  "\n".intercalate ["Linked-sector teaching file system shell",
    "",
    "Usage: chainfs [OPTIONS]",
    "",
    "Options:",
    "  -d, --disk <DISK>        Disk image to open (created if missing) [default: disk.img]",
    "      --sectors <SECTORS>  Number of sectors when creating a new image [default: 1024]",
    "      --format             Reformat the image even if it already holds a file system",
    "  -v, --verbose...         Log verbosity (-v info, -vv debug)",
    "  -h, --help               Print help",
    "  -V, --version            Print version",
    ""]

/-- The version of the program. -/
def version : String := "0.1.0"

/-- The text about the version. -/
def versionText : String := s!"chainfs {version}\n"

/-- What a refusal writes as an answer; the other refusals are errors. -/
def Refusal.answer? : Refusal → Option String
  | .help => some helpText
  | .version => some versionText
  | _ => none

/-- The exit code after a refusal. -/
def Refusal.exitCode (r : Refusal) : Nat := if r.answer?.isSome then 0 else 2

/-- The wording of a refusal that is an error. -/
def Refusal.message : Refusal → String
  | .help | .version => ""
  | .unknownArgument => "error: unexpected argument"
  | .noValue => "error: an option lacks its value"
  | .badNumber => "error: the number of sectors is no number of 32 bits"
  | .repeated => "error: an option is given more than once"
  | .unneededValue => "error: an option takes no value"

end CommandLine

end SectorChain
