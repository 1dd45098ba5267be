import Caret.Completion
import Caret.Scope
import Caret.Server.Diagnostic
/-!
# A language server

A session holds the documents that an editor has open, each with its text and its tree. Opening and
changing a document parses it and publishes its diagnostics; completions and definitions are
answered from what is stored. After a shutdown requests are refused and notifications ignored.

Results:
* `Session.handle`: one message, what is sent while it is handled, and the answer to a request.
* `Session.document?_store`: storing a document changes that document only.
-/
namespace Caret.Server

/-- An open document. -/
structure Document where
  source : Text
  /-- The tree; none if the source was not parsed. -/
  module : Option Module
  version : Int

/-- What an editor sends. -/
inductive Message
  | handshake
  | ready
  | opened (uri : String) (version : Int) (text : Text)
  /-- The whole text after each of several changes. -/
  | changed (uri : String) (version : Int) (texts : List Text)
  | closed (uri : String)
  | completion (uri : String) (position : ClientPosition)
  | definition (uri : String) (position : ClientPosition)
  | shutdown

namespace Message

/-- The name of the method. -/
def method : Message → String
  | handshake => "initialize"
  | ready => "initialized"
  | opened .. => "textDocument/didOpen"
  | changed .. => "textDocument/didChange"
  | closed _ => "textDocument/didClose"
  | completion .. => "textDocument/completion"
  | definition .. => "textDocument/definition"
  | shutdown => "shutdown"

/-- The message wants an answer. -/
def isRequest : Message → Bool
  | handshake | completion .. | definition .. | shutdown => true
  | _ => false

end Message

/-- What the server sends on its own. -/
inductive Notice
  | log (message : String)
  | diagnostics (uri : String) (found : List Diagnostic) (version : Option Int)

namespace Notice

/-- The name of the method. -/
def method : Notice → String
  | log _ => "window/logMessage"
  | diagnostics .. => "textDocument/publishDiagnostics"

/-- The parameters as they are sent; a log message of type 3 informs. -/
def params : Notice → Json
  | log message => .object [("message", .string message), ("type", .nat 3)]
  | diagnostics uri ds version =>
    .object ([("diagnostics", .array (ds.map (·.json))), ("uri", .string uri)] ++
      (version.map fun v => ("version", Json.int v)).toList)

end Notice

/-- What a candidate is, for an editor. -/
inductive ItemKind
  | function
  | name
  | class'
  | module
  | value
  | keyword
  deriving DecidableEq, Repr

/-- The number that stands for the kind. -/
def ItemKind.number : ItemKind → Nat
  | function => 3
  | name => 6
  | class' => 7
  | module => 9
  | value => 12
  | keyword => 14

def ItemKind.ofDefinition : DefinitionKind → ItemKind
  | .function => function
  | .class' => class'
  | .importing => module
  | .literal => value
  | _ => name

/-- A candidate, for an editor. -/
structure Item where
  label : Text
  kind : ItemKind
  detail : Option String
  deriving DecidableEq, Repr

def Item.json (i : Item) : Json :=
  .object ((i.detail.map fun detail => ("detail", Json.string detail)).toList ++
    [("kind", .nat i.kind.number), ("label", .text i.label)])

/-- A range of a document. -/
structure Location where
  uri : String
  range : Range
  deriving DecidableEq, Repr

def Location.json (l : Location) : Json :=
  .object [("range", l.range.json), ("uri", .string l.uri)]

/-- The answer to a request. -/
inductive Answer
  | capabilities
  /-- The candidates; none if the document is not known. -/
  | items (found : Option (List Item))
  | locations (found : List Location)
  | nothing

/-- The version of the program. -/
def version : String := "0.1.0-alpha.1"

/-- The answer as it is sent: text is synchronised in full, completion is asked for after a dot and
a space, and of definitions a single one stands without brackets. -/
def Answer.json : Answer → Json
  | capabilities => .object [
    ("capabilities", .object [
      ("completionProvider", .object [("triggerCharacters", .array [.string ".", .string " "])]),
      ("definitionProvider", .bool true), ("textDocumentSync", .nat 1)]),
    ("serverInfo", .object [("name", .string "seer-lsp"), ("version", .string version)])]
  | items none => .null
  | items (some found) => .array (found.map (·.json))
  | locations [] => .null
  | locations [l] => l.json
  | locations found => .array (found.map (·.json))
  | nothing => .null

/-- The error of a request after the shutdown. -/
def invalidRequest : Int := -32600

/-- What handling a message gives: what is sent meanwhile and, for a request, the answer or the
number of an error. -/
structure Reply where
  sent : List Notice
  answer : Option (Except Int Answer)

/-- A session with an editor. -/
structure Session where
  /-- The open documents, each under its own name. -/
  documents : List (String × Document)
  isShutDown : Bool

namespace Session

/-- Nothing is open. -/
def new : Session := ⟨[], false⟩

def document? (s : Session) (uri : String) : Option Document := s.documents.lookup uri

/-- Forget a document. -/
def erase (s : Session) (uri : String) : Session :=
  { s with documents := s.documents.filter (·.1 != uri) }

/-- Store a document in place of the one of its name. -/
def store (s : Session) (uri : String) (d : Document) : Session :=
  { s with documents := (uri, d) :: s.documents.filter (·.1 != uri) }

theorem lookup_filter_ne {uri other : String} (h : other ≠ uri) (ds : List (String × Document)) :
    (ds.filter (·.1 != uri)).lookup other = ds.lookup other := by
  induction ds with
  | nil => rfl
  | cons d rest ih =>
    obtain ⟨key, document⟩ := d
    by_cases hk : key = uri
    · have : (other == uri) = false := by simpa using h
      simp [hk, ih, List.lookup_cons, this]
    · simp [hk, ih, List.lookup_cons]

theorem document?_store (s : Session) (uri other : String) (d : Document) :
    (s.store uri d).document? other = if other = uri then some d else s.document? other := by
  by_cases h : other = uri
  · simp [document?, store, h]
  · have : (other == uri) = false := by simpa using h
    simp [document?, store, List.lookup_cons, this, h, lookup_filter_ne h]

/-- Parse a text and say what is wrong with it. -/
def analyze (g : Grammar) (text : Text) : Option Module × List Diagnostic :=
  match Module.parse g text with
  | .ok m => (some m, diagnose m)
  | .error e => (none, [refused e])

/-- Parse and store a text and publish its diagnostics. -/
def take (g : Grammar) (s : Session) (uri : String) (version : Int) (text : Text) :
    Session × List Notice :=
  let (module, diagnostics) := analyze g text
  (s.store uri ⟨text, module, version⟩, [.diagnostics uri diagnostics (some version)])

/-- A candidate with its kind: a reserved word, or else the last definition of the name. -/
def item (words : List Keyword) (definitions : List Definition) (label : Text) : Item :=
  if words.any (·.spelling.toList == label) then ⟨label, .keyword, none⟩
  else
    match definitions.reverse.find? (·.name == label) with
    | some d => ⟨label, .ofDefinition d.kind, some d.kind.render⟩
    | none => ⟨label, .name, none⟩

/-- The candidates at a position of a document; none if the document is not known or something is
wrong with it. -/
def complete (g : Grammar) (s : Session) (uri : String) (position : ClientPosition) :
    Option (List Item) := do
  let document ← s.document? uri
  let module ← document.module
  let report ← (Completion.complete g module document.source (sourcePosition position)
    (Scope.evaluator none) .default).toOption
  let words := (report.expected.map (·.keywords)).getD []
  pure (report.candidates.map (item words (Scope.definitions none module)))

/-- The definitions of what is at a position of a document. -/
def define (s : Session) (uri : String) (position : ClientPosition) : List Location :=
  match (s.document? uri).bind (·.module) with
  | none => []
  | some module =>
    (Completion.contextResults (Scope.evaluator none) module (sourcePosition position)).map
      fun d => ⟨uri, range d.start d.stop⟩

/-- Handle a message before the shutdown. Of several changes the first counts. -/
def serve (g : Grammar) (s : Session) : Message → Session × Reply
  | .handshake => (s, ⟨[], some (.ok .capabilities)⟩)
  | .ready => (s, ⟨[.log "Seer LSP initialized"], none⟩)
  | .opened uri version text =>
    let (s, sent) := s.take g uri version text
    (s, ⟨sent, none⟩)
  | .changed uri version texts =>
    match texts with
    | [] => (s, ⟨[], none⟩)
    | text :: _ =>
      let (s, sent) := s.take g uri version text
      (s, ⟨sent, none⟩)
  | .closed uri => (s.erase uri, ⟨[.diagnostics uri [] none], none⟩)
  | .completion uri position => (s, ⟨[], some (.ok (.items (s.complete g uri position)))⟩)
  | .definition uri position => (s, ⟨[], some (.ok (.locations (s.define uri position)))⟩)
  | .shutdown => ({ s with isShutDown := true }, ⟨[], some (.ok .nothing)⟩)

/-- Handle a message. -/
def handle (g : Grammar) (s : Session) (m : Message) : Session × Reply :=
  if s.isShutDown then
    (s, ⟨[], if m.isRequest then some (.error invalidRequest) else none⟩)
  else s.serve g m

/-- Handle messages one after the other. -/
def run (g : Grammar) (s : Session) : List Message → Session × List Reply
  | [] => (s, [])
  | m :: rest =>
    let (s, reply) := s.handle g m
    let (s, replies) := s.run g rest
    (s, reply :: replies)

end Session

end Caret.Server
