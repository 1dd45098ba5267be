import Caret.Completion
/-!
# Arguments of the command line

Options may stand anywhere. The value of an option is attached to it by an equals sign or is the
next argument; two dashes end the options. Arguments are read from left to right: the first one that
is wrong, or that asks for help or the version, decides.

Results:
* `Request.ofArguments`: what a list of arguments asks for.
-/
namespace Caret.CommandLine

/-- What is asked for. -/
inductive Request
  | nothing
  | help
  | version
  /-- The tokens of a file. -/
  | tokens (file : String)
  /-- The tree of a file. -/
  | tree (file : String)
  | complete (file : String) (pos : Position) (config : Completion.Config) (json : Bool)
  | goto (file : String) (pos : Position) (json : Bool)
  | stack (file : String) (pos : Position)
  deriving DecidableEq, Repr

/-- Why arguments ask for nothing at all. -/
inductive UsageError
  | unexpected (argument : String)
  /-- An option that needs a value stands without one. -/
  | withoutValue (option : String)
  /-- An option that takes no value has one. -/
  | withValue (option : String)
  | repeated (option : String)
  | unfitting (operand value : String)
  | missing (operands : List String)
  | conflict (option other : String)
  deriving DecidableEq, Repr

def UsageError.message : UsageError → String
  | unexpected argument => "unexpected argument '" ++ argument ++ "'"
  | withoutValue option => "a value is required for '" ++ option ++ "'"
  | withValue option => "'" ++ option ++ "' takes no value"
  | repeated option => "'" ++ option ++ "' is given more than once"
  | unfitting operand value => "invalid value '" ++ value ++ "' for " ++ operand
  | missing operands => "missing " ++ ", ".intercalate operands
  | conflict option other => "'" ++ option ++ "' cannot be used with '" ++ other ++ "'"

/-- An argument by its form. -/
inductive Argument
  /-- Two dashes. -/
  | separator
  /-- Two dashes and a name, with what follows the first equals sign. -/
  | long (name : String) (value : Option String)
  /-- A dash and letters. -/
  | short (letters : List Char)
  /-- Anything else; also a lone dash. -/
  | operand

/-- The form of an argument. -/
def Argument.ofString (s : String) : Argument :=
  match s.toList with
  | ['-', '-'] => separator
  | '-' :: '-' :: text =>
    let name := String.ofList (text.takeWhile (· != '='))
    match text.dropWhile (· != '=') with
    | [] => long name none
    | _ :: value => long name (some (String.ofList value))
  | ['-'] => operand
  | '-' :: letters => short letters
  | _ => operand

/-- The value of a run of decimal digits. -/
def ofDigits? (ds : List Char) : Option Nat :=
  if ds ≠ [] ∧ ds.all Char.isDigit then
    some (ds.foldl (fun n d => 10 * n + (d.toNat - '0'.toNat)) 0)
  else none

/-- A number in decimal. It may have a sign, but below zero there is none. -/
def readNumber? (s : String) : Option Nat :=
  match s.toList with
  | '+' :: ds => ofDigits? ds
  | '-' :: ds => (ofDigits? ds).filter (· = 0)
  | ds => ofDigits? ds

/-- The largest line and column. -/
def largest : Nat := 4294967295

/-- What has been read of a file and a place in it. -/
structure Operands where
  file : Option String
  line : Option Nat
  column : Option Nat

namespace Operands

/-- Nothing read yet. -/
def none : Operands := ⟨.none, .none, .none⟩

/-- Take in the next operand: the file, then the line from 1, then the column from 0. -/
def add (o : Operands) (s : String) : Except UsageError Operands :=
  match o with
  | ⟨.none, _, _⟩ => if s.isEmpty then .error (.unfitting "FILE" s) else .ok { o with file := s }
  | ⟨_, .none, _⟩ =>
    match (readNumber? s).filter fun n => 1 ≤ n ∧ n ≤ largest with
    | some n => .ok { o with line := n }
    | .none => .error (.unfitting "LINE" s)
  | ⟨_, _, .none⟩ =>
    match (readNumber? s).filter (· ≤ largest) with
    | some n => .ok { o with column := n }
    | .none => .error (.unfitting "COLUMN" s)
  | _ => .error (.unexpected s)

/-- The file and the place. -/
def complete (o : Operands) : Except UsageError (String × Position) :=
  match o with
  | ⟨some file, some line, some column⟩ => .ok (file, ⟨line, column⟩)
  | ⟨some _, some _, .none⟩ => .error (.missing ["COLUMN"])
  | ⟨some _, .none, _⟩ => .error (.missing ["LINE", "COLUMN"])
  | ⟨.none, _, _⟩ => .error (.missing ["FILE", "LINE", "COLUMN"])

end Operands

/-- What can be done at a place of a file. -/
inductive Command
  | complete
  | goto
  | stack
  deriving DecidableEq, Repr

/-- A switch of a command. -/
inductive Flag
  /-- Answer in JSON. -/
  | json
  | noKeywords
  | noNames
  | ignoreCase
  deriving DecidableEq, Repr

def Flag.name : Flag → String
  | json => "json"
  | noKeywords => "no-keywords"
  | noNames => "no-names"
  | ignoreCase => "ignore-case"

namespace Command

def name : Command → String
  | complete => "complete"
  | goto => "goto"
  | stack => "stack"

/-- The command of this name, which has to be written out in full. -/
def ofName? (s : String) : Option Command := [complete, goto, stack].find? (·.name == s)

/-- The switches that a command has. -/
def flags : Command → List Flag
  | complete => [.json, .noKeywords, .noNames, .ignoreCase]
  | goto => [.json]
  | stack => []

/-- The request of a command. -/
def request (c : Command) (flags : List Flag) (file : String) (pos : Position) : Request :=
  match c with
  | complete =>
    .complete file pos
      { Completion.Config.default with
        keywords := !flags.contains .noKeywords
        names := !flags.contains .noNames
        ignoreCase := flags.contains .ignoreCase }
      (flags.contains .json)
  | goto => .goto file pos (flags.contains .json)
  | stack => .stack file pos

/-- Turn on a switch that the command has and that is not on yet. -/
def turnOn (c : Command) (flags : List Flag) (shown : String) (flag : Flag) :
    Except UsageError (List Flag) :=
  if !c.flags.contains flag then .error (.unexpected shown)
  else if flags.contains flag then .error (.repeated shown)
  else .ok (flag :: flags)

/-- Turn on the switches of these letters; none if they ask for help. -/
def turnOnLetters (c : Command) (flags : List Flag) :
    List Char → Except UsageError (Option (List Flag))
  | [] => .ok flags
  | 'h' :: _ => .ok none
  | 'i' :: rest => do turnOnLetters c (← c.turnOn flags "-i" .ignoreCase) rest
  | letter :: _ => .error (.unexpected (String.ofList ['-', letter]))

/-- Read the arguments of a command. -/
def read (c : Command) (flags : List Flag) (o : Operands) : List String →
    Except UsageError Request
  | [] => do
    let (file, pos) ← o.complete
    pure (c.request flags file pos)
  | s :: rest =>
    match Argument.ofString s with
    | .operand => do read c flags (← o.add s) rest
    | .separator => do
      let (file, pos) ← (← rest.foldlM Operands.add o).complete
      pure (c.request flags file pos)
    | .short letters => do
      match ← c.turnOnLetters flags letters with
      | some flags => read c flags o rest
      | none => pure .help
    | .long "help" none => .ok .help
    | .long name value =>
      match c.flags.find? (·.name == name), value with
      | none, _ => .error (.unexpected s)
      | some _, some _ => .error (.withValue s)
      | some flag, none => do read c (← c.turnOn flags s flag) o rest

end Command

/-- The files whose tokens and whose tree are asked for. -/
structure Listings where
  tokens : Option String
  tree : Option String

namespace Listings

/-- The options that ask for a listing. -/
def options : List String := ["tokens", "tree"]

/-- Ask for the listing of this option, once. -/
def add (l : Listings) (option file : String) : Except UsageError Listings :=
  if !options.contains option then .error (.unexpected ("--" ++ option))
  else if file.isEmpty then .error (.withoutValue ("--" ++ option))
  else if option == "tokens" then
    if l.tokens.isSome then .error (.repeated "--tokens") else .ok { l with tokens := file }
  else if l.tree.isSome then .error (.repeated "--tree")
  else .ok { l with tree := file }

/-- A listing comes before anything else that is asked for, and there is only one. -/
def request (l : Listings) (otherwise : Request) : Except UsageError Request :=
  match l.tokens, l.tree with
  | some _, some _ => .error (.conflict "--tokens" "--tree")
  | some file, none => .ok (.tokens file)
  | none, some file => .ok (.tree file)
  | none, none => .ok otherwise

end Listings

/-- The value of an option that stands by itself: it has no form of its own. -/
def isValue (s : String) : Bool :=
  match Argument.ofString s with
  | .operand => true
  | _ => false

/-- Help for the program, or for a command of this name. -/
def readHelp : List String → Except UsageError Request
  | [] => .ok .help
  | [name] =>
    if name == "help" || (Command.ofName? name).isSome then .ok .help else .error (.unexpected name)
  | _ :: name :: _ => .error (.unexpected name)

/-- Read the arguments up to the name of a command. -/
def readArguments (l : Listings) : List String → Except UsageError Request
  | [] => l.request .nothing
  | s :: rest =>
    match Argument.ofString s with
    | .separator =>
      match rest with
      | [] => l.request .nothing
      | extra :: _ => .error (.unexpected extra)
    | .operand =>
      if s == "help" then readHelp rest
      else
        match Command.ofName? s with
        | none => .error (.unexpected s)
        | some c => do
          match ← c.read [] .none rest with
          | .help => pure .help
          | request => l.request request
    | .short ('V' :: _) => .ok .version
    | .short ('h' :: _) => .ok .help
    | .short _ => .error (.unexpected s)
    | .long "help" none => .ok .help
    | .long "version" none => .ok .version
    | .long option (some value) => do readArguments (← l.add option value) rest
    | .long option none =>
      if !Listings.options.contains option then .error (.unexpected s)
      else
        match rest with
        | [] => .error (.withoutValue s)
        | value :: rest =>
          if isValue value then do readArguments (← l.add option value) rest
          else .error (.withoutValue s)

/-- What arguments ask for. -/
def Request.ofArguments (args : List String) : Except UsageError Request :=
  readArguments ⟨none, none⟩ args

/-- The file that has to be read. -/
def Request.file? : Request → Option String
  | nothing | help | version => none
  | tokens file | tree file => some file
  | complete file .. | goto file .. | stack file .. => some file

end Caret.CommandLine
