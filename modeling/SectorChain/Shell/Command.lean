import SectorChain.Numeral
import SectorChain.Shell.Words

/-!
# Commands

A command is one line: its name, then its arguments. Words that are not needed are ignored.
-/

namespace SectorChain.Shell

/-- `Command`: what a user can ask for. Paths are as typed; ids, sizes and positions are below
2 ^ 64. -/
inductive Command where
  | help
  | ls (path : Option String) (recursive : Bool)
  | pwd
  | cd (path : String)
  | mkdir (path : String)
  | create (path : String) (size : Nat)
  | rm (path : String) (recursive : Bool)
  | cat (path : String)
  | write (path : String) (offset : Nat) (text : String)
  | stat (path : String)
  | print
  | df
  | openFile (path : String)
  | close (id : Nat)
  | fread (id count : Nat)
  | fwrite (id : Nat) (text : String)
  | fseek (id position : Nat)
  | files
  | format
  | exit
  deriving DecidableEq, Repr

namespace Command

/-- A numeric argument. -/
def number? (word : String) : Option Nat := Numeral.parse? Numeral.wordLimit word

/-- The words after a flag for whole trees, and whether it was there. -/
def takeRecursive : List String → Bool × List String
  | "-r" :: rest => (true, rest)
  | rest => (false, rest)

/-- The command with this name and these arguments. -/
def ofWords? (name : String) (args : List String) : Option Command :=
  match name with
  | "help" => some .help
  | "ls" =>
    let (recursive, rest) := takeRecursive args
    some (.ls rest.head? recursive)
  | "pwd" => some .pwd
  | "cd" => args.head?.map .cd
  | "mkdir" => args.head?.map .mkdir
  | "create" =>
    match args with
    | path :: size :: _ => (number? size).map (.create path)
    | _ => none
  | "rm" =>
    let (recursive, rest) := takeRecursive args
    rest.head?.map (.rm · recursive)
  | "cat" => args.head?.map .cat
  | "write" =>
    match args with
    | path :: offset :: text@(_ :: _) =>
      (number? offset).map (.write path · (" ".intercalate text))
    | _ => none
  | "stat" => args.head?.map .stat
  | "print" => some .print
  | "df" => some .df
  | "open" => args.head?.map .openFile
  | "close" => args.head?.bind fun id => (number? id).map .close
  | "fread" =>
    match args with
    | id :: count :: _ => do return .fread (← number? id) (← number? count)
    | _ => none
  | "fwrite" =>
    match args with
    | id :: text@(_ :: _) => (number? id).map (.fwrite · (" ".intercalate text))
    | _ => none
  | "fseek" =>
    match args with
    | id :: position :: _ => do return .fseek (← number? id) (← number? position)
    | _ => none
  | "files" => some .files
  | "format" => some .format
  | "exit" => some .exit
  | "quit" => some .exit
  | _ => none

/-- `parse_command`: the command that a line asks for. -/
def parse? (line : String) : Option Command :=
  match words line with
  | [] => none
  | name :: args => ofWords? name args

end Command

end SectorChain.Shell
