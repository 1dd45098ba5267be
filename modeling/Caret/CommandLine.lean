import Caret.CommandLine.Arguments
import Caret.Grammar.Python
import Caret.Scope
import Caret.Server
/-!
# The command line

Every request becomes what is printed and an exit code; the files are given as a function from names
to what is known of them. A request that finds nothing to show ends with exit code 1, one that asks
for nothing with 2.

Results:
* `run`: the outcome of a request.
* `respond`: the outcome of a list of arguments.
-/
namespace Caret.CommandLine

/-- What is known of a file. -/
inductive FileState
  /-- There is no such file, or no way to it. -/
  | inaccessible (why : String)
  /-- A file of this size; its content, or why it cannot be read. -/
  | found (size : Nat) (content : Except String ByteArray)

/-- What the system says about a failure of this number. -/
def systemText? : Nat → Option String
  | 2 => some "No such file or directory"
  | 13 => some "Permission denied"
  | 20 => some "Not a directory"
  | 21 => some "Is a directory"
  | 36 => some "File name too long"
  | 40 => some "Too many levels of symbolic links"
  | _ => none

/-- The failures in which no file is found at the end of a path. -/
def pathFailures : List Nat := [2, 20, 36, 40]

/-- A file that was not read, by the number of the failure and a text for unknown ones. -/
def FileState.ofFailure (number : Nat) (otherwise : String) : FileState :=
  let why := (systemText? number).getD otherwise ++ s!" (os error {number})"
  if pathFailures.contains number then .inaccessible why else .found 0 (.error why)

/-- The size of the largest source that is read, in bytes. -/
def maxSize : Nat := 10485760

/-- The text of a file, or what to tell about it. -/
def FileState.source (file : String) : FileState → Except String Text
  | inaccessible why => .error ("Cannot access file '" ++ file ++ "': " ++ why)
  | found size content =>
    if maxSize < size then
      .error ("Source file '" ++ file ++ s!"' is too large ({size} bytes, max {maxSize} bytes)")
    else
      match content with
      | .error why => .error ("Error reading file '" ++ file ++ "': " ++ why)
      | .ok bytes =>
        match String.fromUTF8? bytes with
        | some s => .ok s.toList
        | none =>
          .error ("Error reading file '" ++ file ++ "': stream did not contain valid UTF-8")

/-- How the program ends: its exit code and what it prints. -/
structure Outcome where
  exitCode : Nat
  stdout : String
  stderr : String
  deriving DecidableEq, Repr

namespace Outcome

def printed (text : String) : Outcome := ⟨0, text, ""⟩

/-- Print a message about what went wrong. -/
def failed (message : String) : Outcome := ⟨1, "", message ++ "\n"⟩

end Outcome

/-- A fault that is not the user's, with its code. -/
def report (code message : String) : String := code ++ "\n\n  × " ++ message ++ "\n"

/-- A file that has been parsed. -/
structure Loaded where
  grammar : Grammar
  source : Text
  module : Module

/-- Read a file and parse it. -/
def load (files : String → FileState) (file : String) : Except String Loaded := do
  let source ← (files file).source file
  let g ← Grammar.python.mapError fun e => report e.code e.message
  let m ← (Module.parse g source).mapError fun e => report e.code e.message
  pure ⟨g, source, m⟩

/-- A text filled with spaces to this many characters. -/
def padded (width : Nat) (s : String) : String :=
  String.ofList (s.toList ++ List.replicate (width - s.length) ' ')

def showToken (t : Token) : String :=
  padded 6 t.start.render ++ " " ++ padded 10 t.kind.render ++ " " ++ Text.quoted t.value ++ "\n"

def showBroken (s : BrokenStatement) : String :=
  "error statement " ++ s.title ++ " at " ++ s.start.render ++ ".." ++ s.stop.render ++
    " before " ++ Text.quoted s.nextValue ++ "\n"

def showDefinition (file : String) (d : Definition) : String :=
  file ++ ":" ++ d.start.render ++ ": " ++ d.kind.render ++ " " ++ String.ofList d.name ++ "\n"

def definitionJson (d : Definition) : Json :=
  .object [("column", .nat d.start.column), ("kind", .string d.kind.render),
    ("line", .nat d.start.line), ("module_path", .orNull (d.modulePath.map .string)),
    ("name", .text d.name)]

def expectedJson (g : Grammar) (e : Completion.Expected) : Json :=
  .object [("keywords", .array (e.keywords.map fun k => .string k.spelling)),
    ("rules", .array (e.expanded.map fun i => .string (g.ruleName i))),
    ("tokens", .array (e.kinds.map fun k => .string k.title))]

def importJson : Completion.ImportResolution → Json
  | .notApplicable => .null
  | .onImportKeyword => .object [("on_import_keyword", .bool true)]
  | .resolved c =>
    .object [("level", .nat c.level), ("names", .array (c.names.map fun n => .text n.value)),
      ("only_modules", .bool c.onlyModules), ("unfinished_dotted", .bool c.unfinishedDotted)]

def reportJson (g : Grammar) (r : Completion.Report) : Json :=
  .object [("candidates", .array (r.candidates.map .text)), ("has_dot", .bool r.parts.hasDot),
    ("import", importJson r.imports), ("name", .text r.parts.name), ("path", .text r.parts.path),
    ("types", .orNull (r.expected.map (expectedJson g)))]

/-- A report as lines: the import path if one is being typed, then the candidates. -/
def showReport (r : Completion.Report) : String :=
  let path := r.imports.context?.map fun c => "# import " ++ String.ofList c.dottedPath ++ "\n"
  path.getD "" ++ String.join (r.candidates.map fun c => String.ofList c ++ "\n")

/-- Print the tokens of a file. -/
def runTokens (files : String → FileState) (file : String) : Except String Outcome := do
  let source ← (files file).source file
  pure (.printed (String.join ((tokenize source).map showToken)))

/-- Print the tree of a file and what was set aside. -/
def runTree (files : String → FileState) (file : String) : Except String Outcome := do
  let l ← load files file
  pure (.printed (l.module.dump ++ String.join (l.module.broken.map showBroken)))

/-- Print the completions at a place. -/
def runComplete (files : String → FileState) (file : String) (pos : Position)
    (config : Completion.Config) (json : Bool) : Except String Outcome := do
  let l ← load files file
  let r ← (Completion.complete l.grammar l.module l.source pos (Scope.evaluator (some file))
    config).mapError fun e => report e.code e.message
  pure (.printed (if json then (reportJson l.grammar r).pretty ++ "\n" else showReport r))

/-- Print the definitions of what is at a place. -/
def runGoto (files : String → FileState) (file : String) (pos : Position) (json : Bool) :
    Except String Outcome := do
  let l ← load files file
  let found := Completion.contextResults (Scope.evaluator (some file)) l.module pos
  let text := if json then (Json.array (found.map definitionJson)).pretty ++ "\n"
    else String.join (found.map (showDefinition file))
  pure ⟨if found.isEmpty then 1 else 0, text, ""⟩

/-- Print the frames that are open at a place. -/
def runStack (files : String → FileState) (file : String) (pos : Position) :
    Except String Outcome := do
  let l ← load files file
  match Completion.stackAt l.grammar l.source l.module pos with
  | .ok stack => pure (.printed (Completion.dumpStack l.grammar stack))
  | .error e => .error (if e.isRecoverable then e.message else report e.code e.message)

/-- What to do when nothing is asked for. -/
def usage : String := "Usage: seer <complete|goto|stack> FILE LINE COLUMN (see --help)\n"

/-- How the program is used. -/
def help : String := String.join [
  "Completions and definitions for Python source\n\n",
  "Usage: seer [OPTIONS] [COMMAND]\n\n",
  "Commands:\n",
  "  complete FILE LINE COLUMN  Complete at a position\n",
  "  goto FILE LINE COLUMN      Find the definitions of what is at a position\n",
  "  stack FILE LINE COLUMN     Print the parser stack captured at a position\n",
  "  help [COMMAND]             Print this message\n\n",
  "Options:\n",
  "  --tokens FILE      Print the token stream\n",
  "  --tree FILE        Print the parse tree\n",
  "  --json             Print JSON (complete, goto)\n",
  "  --no-keywords      Leave keywords out of the candidates (complete)\n",
  "  --no-names         Leave module names out of the candidates (complete)\n",
  "  -i, --ignore-case  Match the typed prefix case-insensitively (complete)\n",
  "  -h, --help         Print this message\n",
  "  -V, --version      Print the version\n"]

/-- The outcome of a request. -/
def run (files : String → FileState) (r : Request) : Outcome :=
  let outcome : Except String Outcome := match r with
    | .nothing => .ok ⟨2, "", usage⟩
    | .help => .ok (.printed help)
    | .version => .ok (.printed ("seer " ++ Server.version ++ "\n"))
    | .tokens file => runTokens files file
    | .tree file => runTree files file
    | .complete file pos config json => runComplete files file pos config json
    | .goto file pos json => runGoto files file pos json
    | .stack file pos => runStack files file pos
  match outcome with
  | .ok o => o
  | .error message => .failed message

/-- The outcome of arguments that ask for nothing. -/
def refuse (e : UsageError) : Outcome :=
  ⟨2, "", "error: " ++ e.message ++ "\n\nFor more information, try '--help'.\n"⟩

/-- The outcome of a list of arguments. -/
def respond (files : String → FileState) (args : List String) : Outcome :=
  match Request.ofArguments args with
  | .ok r => run files r
  | .error e => refuse e

end Caret.CommandLine
