import Caret.Module
/-!
# Import paths

An import that could not be finished stays among the broken statements with all that was read of it,
so the module path typed so far can be put together again. A finished import is a branch of the
tree, in which the path that leads to the name under the cursor can be read off.

Results:
* `importContext`: the path typed so far in an unfinished import.
* `importTarget?`: the path to a name in a finished import.
-/
namespace Caret.Completion

/-- A name of a module path. -/
structure PathName where
  value : Text
  start : Position
  deriving DecidableEq, Repr

def PathName.ofLeaf (l : Leaf) : PathName := ⟨l.value, l.start⟩

/-- The first, third, fifth … element. -/
def everyOther : List α → List α
  | [] => []
  | [x] => [x]
  | x :: _ :: rest => x :: everyOther rest

/-- The names of a dotted name, given by its children: names and dots take turns. -/
def pathNames (children : List Tree) : List PathName :=
  (everyOther children).filterMap fun t => t.leaf?.map .ofLeaf

/-- What has been typed of an import before the cursor. -/
structure ImportContext where
  /-- The names of the module path. -/
  names : List PathName
  /-- Leading dots of a relative import. -/
  level : Nat
  /-- The `import` of `from … import` is not behind the cursor. -/
  onlyModules : Bool
  /-- The path ends with a dot. -/
  unfinishedDotted : Bool
  deriving DecidableEq, Repr

namespace ImportContext

/-- Nothing typed yet. -/
def empty : ImportContext := ⟨[], 0, true, false⟩

/-- The path as it is written. -/
def dottedPath (c : ImportContext) : Text :=
  List.replicate c.level '.' ++ ['.'].intercalate (c.names.map (·.value))

def addNames (c : ImportContext) (names : List PathName) : ImportContext :=
  { c with names := c.names ++ names }

/-- The names that start at or before the position. -/
def upTo (pos : Position) (names : List PathName) : List PathName := names.filter (·.start ≤ pos)

/-- Take in the children of an unfinished dotted name. -/
def addDotted (pos : Position) (nodes : List Tree) (c : ImportContext) : ImportContext :=
  let c := c.addNames (upTo pos (pathNames nodes))
  if nodes.getLast?.any (·.spells ".") then { c with unfinishedDotted := true } else c

/-- Take in one child of an unfinished `from`. -/
def addFromPart (pos : Position) (c : ImportContext) : Tree → ImportContext
  | .branch rule children =>
    if rule == "dotted_name" then c.addNames (upTo pos (pathNames children)) else c
  | .leaf l =>
    match l.kind with
    | .operator o =>
      if o = .dot ∨ o = .ellipsis then { c with level := c.level + l.value.length } else c
    | .name => c.addNames [.ofLeaf l]
    | .keyword => if (Tree.leaf l).spells "import" then { c with onlyModules := false } else c
    | _ => c

/-- Take in the children of an unfinished `from` that start before the position. -/
def addFrom (pos : Position) (nodes : List Tree) (c : ImportContext) : ImportContext :=
  (nodes.takeWhile (·.start < pos)).foldl (addFromPart pos) c

end ImportContext

/-- What is known of an import at a position. -/
inductive ImportResolution
  /-- There is no unfinished import. -/
  | notApplicable
  /-- The cursor is on the `import` keyword, where nothing can be completed. -/
  | onImportKeyword
  | resolved (context : ImportContext)
  deriving DecidableEq, Repr

/-- The context, if there is one. -/
def ImportResolution.context? : ImportResolution → Option ImportContext
  | resolved context => some context
  | _ => none

/-- The rules of imports. -/
def importRules : List String := ["import_from", "import_name"]

/-- The statement is an import and the position is in it, its start left out. -/
def isImportAt (s : BrokenStatement) (pos : Position) : Bool :=
  importRules.contains s.title && s.start < pos && pos ≤ s.stop

/-- Take in the rules of an unfinished import, outermost first. -/
def resolveImport (pos : Position) (c : ImportContext) :
    List (String × List Tree) → ImportResolution
  | [] => .resolved c
  | (rule, nodes) :: rest =>
    if rule == "dotted_name" then resolveImport pos (c.addDotted pos nodes) rest
    else if rule == "import_name" then
      if nodes.head?.any (·.covers pos) then .onImportKeyword else resolveImport pos c rest
    else if rule == "import_from" then resolveImport pos (c.addFrom pos nodes) rest
    else resolveImport pos c rest

/-- What has been typed of an unfinished import before a position. -/
def importContext (s : BrokenStatement) (pos : Position) : ImportResolution :=
  if isImportAt s pos then resolveImport pos .empty s.frames else .notApplicable

/-- The first unfinished import around a position. -/
def importAt (m : Module) (pos : Position) : ImportResolution :=
  match m.broken.find? (isImportAt · pos) with
  | some s => importContext s pos
  | none => .notApplicable

/-- A name in a finished import and the path that leads to it. -/
structure ImportTarget where
  name : PathName
  /-- The names of the path, this one the last. -/
  path : List PathName
  /-- Leading dots. -/
  level : Nat
  deriving DecidableEq, Repr

/-- The import around a tree, given the way up from it; none if a statement's end comes first. -/
def importAround? (t : Tree) : List Crumb → Option Focus
  | [] => none
  | crumb :: path =>
    let up := crumb.fill t
    if importRules.contains crumb.rule then some ⟨up, path⟩
    else if ["simple_stmt", "file_input", "error_node"].contains crumb.rule then none
    else importAround? up path

/-- The name is bound by `as` and so is no part of a path. -/
def isAlias (f : Focus) : Bool :=
  (f.parentTitle? == some "dotted_as_name" || f.parentTitle? == some "import_as_name") &&
    f.index == 2

/-- A dotted name up to this name, or this name alone. -/
def pathUpTo (f : Focus) (l : Leaf) : List PathName :=
  match f.path with
  | crumb :: _ =>
    if crumb.rule == "dotted_name" then pathNames (crumb.before.reverse ++ [f.tree])
    else [.ofLeaf l]
  | [] => [.ofLeaf l]

/-- The keyword `import`. -/
def isImportKeyword (t : Tree) : Bool := t.title == "keyword" && t.spells "import"

/-- The dots and the names of the module path, given by the children between `from` and `import`. -/
def modulePath : List Tree → Nat × List PathName
  | children => children.foldl
    (fun (level, names) t =>
      if t.spells "." || t.spells "..." then (level + t.value.length, names)
      else if t.title == "dotted_name" then (level, pathNames t.children)
      else (level, names ++ (t.leaf?.map PathName.ofLeaf).toList))
    (0, [])

/-- The path to the name under the cursor in a finished import. -/
def importTarget? (m : Module) (pos : Position) : Option ImportTarget := do
  let f ← m.nameAt? pos
  let l ← f.tree.leaf?
  let statement ← importAround? f.tree f.path
  let name := PathName.ofLeaf l
  if isAlias f then none
  else if statement.tree.title == "import_name" then some ⟨name, pathUpTo f l, 0⟩
  else
    let children := statement.tree.children
    let (level, names) := modulePath ((children.drop 1).takeWhile (!isImportKeyword ·))
    let inModulePath := match children.find? isImportKeyword with
      | some keyword => decide (name.start < keyword.start)
      | none => true
    some ⟨name, if inModulePath then pathUpTo f l else names ++ [name], level⟩

end Caret.Completion
