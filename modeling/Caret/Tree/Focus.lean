import Caret.Tree
/-!
# Places in a tree

A focus is a tree together with the way up to the root: for each branch on the way its name, the
children before and the children after. From it one can go to the parent, to the children and to the
leaf before.

Results:
* `Focus.parent?_child`: the parent of a child is where one came from.
-/
namespace Caret

/-- One step up: a branch with a gap among its children. -/
structure Crumb where
  rule : String
  /-- The children before the gap, the nearest first. -/
  before : List Tree
  /-- The children after the gap. -/
  after : List Tree

/-- The branch with the gap filled. -/
def Crumb.fill (c : Crumb) (t : Tree) : Tree := .branch c.rule (c.before.reverse ++ t :: c.after)

/-- A tree and the way up from it, the nearest branch first. -/
structure Focus where
  tree : Tree
  path : List Crumb

namespace Focus

/-- A whole tree. -/
def root (t : Tree) : Focus := ⟨t, []⟩

/-- The branch above. -/
def parent? (f : Focus) : Option Focus :=
  match f.path with
  | [] => none
  | crumb :: path => some ⟨crumb.fill f.tree, path⟩

/-- The children `rest` of a branch and the ways up from them, the children `before` having been
passed. -/
def childrenFrom (rule : String) (path : List Crumb) (before : List Tree) :
    List Tree → List Focus
  | [] => []
  | t :: rest => ⟨t, ⟨rule, before, rest⟩ :: path⟩ :: childrenFrom rule path (t :: before) rest

def children (f : Focus) : List Focus :=
  match f.tree with
  | .leaf _ => []
  | .branch rule children => childrenFrom rule f.path [] children

/-- The number of children before this one. -/
def index (f : Focus) : Nat :=
  match f.path with
  | [] => 0
  | crumb :: _ => crumb.before.length

/-- The rule of the branch above. -/
def parentTitle? (f : Focus) : Option String := f.path.head?.map (·.rule)

/-- The rules of the branches above, the nearest first. -/
def ancestorTitles (f : Focus) : List String := f.path.map (·.rule)

mutual

/-- The leaves under a tree, each with its way up. -/
def leavesIn (path : List Crumb) : Tree → List Focus
  | .leaf l => [⟨.leaf l, path⟩]
  | .branch rule children => leavesAmong rule path [] children

/-- The leaves under the children `rest` of a branch, the children `before` having been passed. -/
def leavesAmong (rule : String) (path : List Crumb) (before : List Tree) :
    List Tree → List Focus
  | [] => []
  | t :: rest =>
    leavesIn (⟨rule, before, rest⟩ :: path) t ++ leavesAmong rule path (t :: before) rest

end

/-- The leaves under this place, in document order. -/
def leaves (f : Focus) : List Focus := leavesIn f.path f.tree

mutual

/-- The leaf at the end of the last children of a tree. -/
def lastLeafIn? (path : List Crumb) : Tree → Option Focus
  | .leaf l => some ⟨.leaf l, path⟩
  | .branch rule children => lastLeafAmong? rule path [] children

/-- The last leaf of the last of the children `rest`. -/
def lastLeafAmong? (rule : String) (path : List Crumb) (before : List Tree) :
    List Tree → Option Focus
  | [] => none
  | [t] => lastLeafIn? (⟨rule, before, []⟩ :: path) t
  | t :: rest => lastLeafAmong? rule path (t :: before) rest

end

/-- The leaf before a place, found from the way up and the tree there: the last leaf of the nearest
sibling before it, or before a branch above it. -/
def previousLeafFrom? (t : Tree) : List Crumb → Option Focus
  | [] => none
  | crumb :: path =>
    match crumb.before with
    | [] => previousLeafFrom? (crumb.fill t) path
    | sibling :: before => lastLeafIn? (⟨crumb.rule, before, t :: crumb.after⟩ :: path) sibling

/-- The leaf before this place; none at the start of the tree. -/
def previousLeaf? (f : Focus) : Option Focus := previousLeafFrom? f.tree f.path

theorem parent?_of_mem_childrenFrom {rule : String} {path : List Crumb} {before rest : List Tree}
    {c : Focus} (h : c ∈ childrenFrom rule path before rest) :
    c.parent? = some ⟨.branch rule (before.reverse ++ rest), path⟩ := by
  induction rest generalizing before with
  | nil => simp [childrenFrom] at h
  | cons t rest ih =>
    rcases List.mem_cons.1 h with rfl | h
    · rfl
    · simpa using ih h

theorem parent?_child {f c : Focus} (h : c ∈ f.children) : c.parent? = some f := by
  obtain ⟨t, path⟩ := f
  cases t with
  | leaf l => simp [children] at h
  | branch rule ts => simpa using parent?_of_mem_childrenFrom h

end Focus

end Caret
