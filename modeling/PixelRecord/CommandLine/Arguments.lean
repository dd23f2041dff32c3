import PixelRecord.Composite.Op
import PixelRecord.Space

/-!
Command-line arguments. A line is read from left to right: options with a value
(`--name value` or `--name=value`), the requests for help and for the version,
and the name of a command, whose own options follow it. What a line asks for is
an `Invocation`. What the command line says about itself is made from the same
tables.
-/

namespace PixelRecord.CommandLine

structure CompositeRequest where
  destination : String
  source : String
  mask : Option String
  op : Option Op
  opacity : UInt8
  space : Option SpaceId
  settings : Option String
  output : String
  deriving DecidableEq, Repr

inductive Command where
  /-- Print the channel table of a space. -/
  | info (space : SpaceId)
  /-- Composite an image over another one. -/
  | composite (request : CompositeRequest)
  /-- Take an image to a space and back. -/
  | preview (input : String) (space : SpaceId) (output : String)
  deriving DecidableEq, Repr

inductive Invocation where
  | run (command : Command)
  | help
  | version
  /-- The line is not one that the program understands. -/
  | misuse
  deriving DecidableEq, Repr

inductive ValueKind where
  | text
  | path
  | byte
  | op
  | space
  deriving DecidableEq, Repr

def integer? (cs : List Char) : Option Int :=
  let unsigned (ds : List Char) : Option Int :=
    if ds.isEmpty || !ds.all Char.isDigit then none
    else some (ds.foldl (fun n c => 10 * n + (c.toNat - 48 : Nat)) 0)
  match cs with
  | '-' :: ds => (unsigned ds).map (- ·)
  | '+' :: ds => unsigned ds
  | ds => unsigned ds

def byte? (text : String) : Option UInt8 :=
  match integer? text.toList with
  | some n => if 0 ≤ n ∧ n ≤ 255 then some n.toNat.toUInt8 else none
  | none => none

def ValueKind.admits (kind : ValueKind) (text : String) : Bool :=
  match kind with
  | .text => true
  | .path => !text.isEmpty
  | .byte => (byte? text).isSome
  | .op => (Op.ofText text).toOption.isSome
  | .space => (SpaceId.ofText text).toOption.isSome

/-- Options by name, with what their values have to be. -/
abbrev OptionTable := List (String × ValueKind)

/-- The option that every command takes, before its name or after it. -/
def globalOptions : OptionTable := [("log", .text)]

/-- The commands by name, with their own options. -/
def commands : List (String × OptionTable) :=
  [("info", [("space", .space)]),
    ("composite", [("dst", .path), ("src", .path), ("mask", .path), ("op", .op),
      ("opacity", .byte), ("space", .space), ("config", .path), ("out", .path)]),
    ("preview", [("in", .path), ("space", .space), ("out", .path)])]

/-- Where reading a run of options stopped. -/
inductive Scan where
  | misuse
  | help
  | version
  /-- The line ended. -/
  | finished (values : List (String × String))
  /-- A word came that is no option. -/
  | word (word : String) (rest : List String) (values : List (String × String))

/-- Whether an argument can be the value of the option before it. -/
def isValue (arg : String) : Bool :=
  match arg.toList with
  | ['-'] => true
  | '-' :: _ => false
  | _ => true

/-- An argument's place in the grammar. -/
inductive Shape where
  /-- The sign that no options follow. -/
  | endOfOptions
  | long (name : String) (value : Option String)
  | short (letter : Char)
  | word

def shape (arg : String) : Shape :=
  match arg.toList with
  | ['-', '-'] => .endOfOptions
  | '-' :: '-' :: body =>
    let name := String.ofList (body.takeWhile (· ≠ '='))
    match body.dropWhile (· ≠ '=') with
    | _ :: value => .long name (some (String.ofList value))
    | [] => .long name none
  | '-' :: letter :: _ => .short letter
  | _ => .word

/-- Adds the value of an option, which must be of its kind and the only one. -/
def addValue (table : OptionTable) (values : List (String × String)) (name value : String) :
    Option (List (String × String)) :=
  match table.lookup name with
  | some kind =>
    if kind.admits value && (values.lookup name).isNone then some ((name, value) :: values)
    else none
  | none => none

/-- Reads options up to the first word that is none. A request for help or, at
the `top`, for the version ends the reading where it stands; what comes before
it must be in order, what comes after it is not looked at. -/
def scan (table : OptionTable) (top : Bool) (values : List (String × String)) :
    List String → Scan
  | [] => .finished values
  | arg :: rest =>
    match shape arg with
    | .endOfOptions => if rest.isEmpty then .finished values else .misuse
    | .word => .word arg rest values
    | .short letter =>
      if letter = 'h' then .help
      else if letter = 'V' && top then .version
      else .misuse
    | .long name (some value) =>
      match addValue table values name value with
      | some values => scan table top values rest
      | none => .misuse
    | .long name none =>
      if name = "help" then .help
      else if name = "version" && top then .version
      else
        match rest with
        | value :: rest =>
          if isValue value then
            match addValue table values name value with
            | some values => scan table top values rest
            | none => .misuse
          else .misuse
        | [] => .misuse

/-- The command of a name with the values of its options. Required options must
be there. -/
def command? (name : String) (values : List (String × String)) : Option Command := do
  let space? := (values.lookup "space").bind fun text => (SpaceId.ofText text).toOption
  match name with
  | "info" => return .info (space?.getD .rgba16)
  | "composite" =>
    return .composite
      { destination := ← values.lookup "dst"
        source := ← values.lookup "src"
        mask := values.lookup "mask"
        op := (values.lookup "op").bind fun text => (Op.ofText text).toOption
        opacity := ((values.lookup "opacity").bind byte?).getD 255
        space := space?
        settings := values.lookup "config"
        output := ← values.lookup "out" }
  | "preview" =>
    return .preview (← values.lookup "in") (space?.getD .rgba16) (← values.lookup "out")
  | _ => none

/-- What the words after `help` ask for: nothing, or help on one command. -/
def helpOn : List String → Invocation
  | [] => .help
  | [word] => if word = "help" || (commands.lookup word).isSome then .help else .misuse
  | _ => .misuse

def readCommand (name : String) (args : List String) : Invocation :=
  match commands.lookup name with
  | none => .misuse
  | some table =>
    match scan (globalOptions ++ table) false [] args with
    | .finished values =>
      match command? name values with
      | some command => .run command
      | none => .misuse
    | .help => .help
    | _ => .misuse

def read (args : List String) : Invocation :=
  match scan globalOptions true [] args with
  | .version => .version
  | .help => .help
  | .word name rest _ => if name = "help" then helpOn rest else readCommand name rest
  | _ => .misuse

/-! ### Help -/

def versionText : String := "pixelspace 0.1.0\n"

def ValueKind.placeholder : ValueKind → String
  | .text => "<TEXT>"
  | .path => "<PATH>"
  | .byte => "<0..255>"
  | .op => "<OP>"
  | .space => "<SPACE>"

def optionLine (option : String × ValueKind) : String :=
  "      --" ++ option.1 ++ " " ++ option.2.placeholder ++ "\n"

def commandLines (command : String × OptionTable) : String :=
  "  " ++ command.1 ++ "\n" ++ String.join (command.2.map optionLine)

def helpText : String :=
  "Usage: pixelspace [OPTIONS] <COMMAND>\n\nCommands:\n" ++
    String.join (commands.map commandLines) ++
    "\nOptions:\n" ++ String.join (globalOptions.map optionLine) ++
    "  -h, --help\n  -V, --version\n"

end PixelRecord.CommandLine
