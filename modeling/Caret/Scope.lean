import Caret.Ascending
import Caret.Completion.Evaluator
/-!
# Names of a source

The simplest evaluator: a name refers to every place in the same source that binds a name of its
spelling. Scopes, types and other modules do not count.

Results:
* `Scope.definitions`: every place that binds a name.
* `Scope.evaluator`: the evaluator.
-/
namespace Caret

/-- How a name is bound. -/
inductive DefinitionKind
  | function
  | class'
  | parameter
  | assignment
  | loopTarget
  | withTarget
  | exceptTarget
  | importing
  /-- A literal, as the value of an expression. -/
  | literal
  deriving DecidableEq, Repr

/-- How the kind is shown. -/
def DefinitionKind.render : DefinitionKind → String
  | function => "function"
  | class' => "class"
  | parameter => "parameter"
  | assignment => "assignment"
  | loopTarget => "loop target"
  | withTarget => "with target"
  | exceptTarget => "except target"
  | importing => "import"
  | literal => "literal"

/-- A place that binds a name. -/
structure Definition where
  name : Text
  kind : DefinitionKind
  start : Position
  stop : Position
  modulePath : Option String
  deriving DecidableEq, Repr

namespace Scope

open Completion

/-- The value of a tree, if there is one, is this text. -/
def isText (t : Option Tree) (text : String) : Bool := t.any (·.spells text)

/-- How a target is bound, given the way up from it. Tuples, lists and stars pass the question on to
the branch above. -/
def targetKind? (t : Tree) : List Crumb → Option DefinitionKind
  | [] => none
  | crumb :: path =>
    let up := crumb.fill t
    let first := up.children.head?
    match crumb.rule with
    | "testlist_star_expr" | "exprlist" | "testlist_comp" | "star_expr" => targetKind? up path
    | "atom" => if isText first "(" || isText first "[" then targetKind? up path else none
    | "expr_stmt" => if isText crumb.after.head? "=" then some .assignment else none
    | "for_stmt" | "comp_for" => if crumb.before.length == 1 then some .loopTarget else none
    | "with_item" => if isText crumb.before.head? "as" then some .withTarget else none
    | _ => none

/-- How a name is bound by the branch above it, or as a target further out. -/
def nameKind? (f : Focus) : Option DefinitionKind :=
  match f.path with
  | [] => none
  | crumb :: path =>
    let index := crumb.before.length
    let previous := crumb.before.head?
    let target := targetKind? f.tree f.path
    match crumb.rule with
    | "funcdef" => if index == 1 then some .function else target
    | "classdef" => if index == 1 then some .class' else target
    | "parameters" | "typedargslist" | "varargslist" => some .parameter
    | "tfpdef" | "tfpdef_item" | "vfpdef_item" =>
      if index == 0 || isText previous "*" || isText previous "**" then some .parameter else target
    | "lambdef" | "lambdef_nocond" => if index == 1 then some .parameter else target
    | "import_name" | "dotted_as_names" | "import_as_names" => some .importing
    | "import_as_name" | "dotted_as_name" => if index == 2 then some .importing else target
    | "import_from" => if crumb.before.any (·.spells "import") then some .importing else target
    | "dotted_name" =>
      if index == 0 then
        match path.head?.map (·.rule) with
        | some "import_name" | some "dotted_as_names" => some .importing
        | _ => none
      else target
    | "except_clause" => if isText previous "as" then some .exceptTarget else target
    | _ => target

/-- How a leaf is bound, if it is a name and this is a place that binds it. -/
def bindingKind? (f : Focus) : Option DefinitionKind :=
  match f.tree with
  | .leaf l => if l.kind = .name then nameKind? f else none
  | .branch .. => none

/-- The definition at a leaf. -/
def definitionAt (modulePath : Option String) (l : Leaf) (kind : DefinitionKind) : Definition :=
  ⟨l.value, kind, l.start, l.stop, modulePath⟩

/-- The definition at a place, if it binds a name. -/
def definition? (modulePath : Option String) (f : Focus) : Option Definition := do
  let kind ← bindingKind? f
  let l ← f.tree.leaf?
  pure (definitionAt modulePath l kind)

def site (d : Definition) : Site := ⟨d.modulePath, some d.start.line, some d.start.column⟩

/-- Every place of a source that binds a name, in document order. -/
def definitions (modulePath : Option String) (m : Module) : List Definition :=
  sortDefinitions site ((Focus.root m.root).leaves.filterMap (definition? modulePath))

/-- The places that bind a name of this spelling. -/
def definitionsOf (modulePath : Option String) (m : Module) (name : Text) : List Definition :=
  (definitions modulePath m).filter (·.name == name)

/-- The leaf says what an expression may be: a name, a number, a string or a reserved word. -/
def isValue (l : Leaf) : Bool :=
  l.kind == .name || l.kind == .number || l.kind == .string || l.kind == .keyword

/-- What an expression may be, by its first leaf that says so: the definitions of a name, or a
literal. -/
def valuesOf (modulePath : Option String) (m : Module) (t : Tree) : List Definition :=
  match t.leaves.find? isValue with
  | none => []
  | some l =>
    if l.kind = .name then definitionsOf modulePath m l.value
    else [definitionAt modulePath l .literal]

/-- The names bound before a position, each once and in ascending order. -/
def namesInScope (m : Module) (pos : Position) : List Text :=
  Ascending.ofList (((definitions none m).filter (·.start < pos)).map (·.name))

/-- The evaluator; its definitions carry the path of the source. -/
def evaluator (modulePath : Option String) : Evaluator Definition where
  definitionsOf m f := definitionsOf modulePath m f.tree.value
  valuesOf m f := valuesOf modulePath m f.tree
  namesInScope := namesInScope

end Scope

end Caret
