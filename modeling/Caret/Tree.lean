import Caret.Text.Quoted
import Caret.Token
/-!
# Parse trees

Leaves keep the text and the trivia of their tokens, so a tree holds its source. A branch is named
after the rule that made it; what recovery set aside stands under a branch of its own name.

Results:
* `Tree.leaves_branch`, `Tree.code_branch`: leaves and text of a branch are those of its children,
  one after the other.
-/
namespace Caret

/-- What a leaf holds. -/
inductive LeafKind
  | name
  | keyword
  | operator (o : Operator)
  | number
  | string
  | newline
  | indent
  | dedent
  | endMarker
  /-- A token that has no place in the tree. -/
  | error (kind : TokenKind)
  deriving DecidableEq, Repr

namespace LeafKind

/-- The leaf of a token; a name may be a reserved word of the grammar. -/
def ofToken (isKeyword : Bool) : TokenKind → LeafKind
  | .name => if isKeyword then .keyword else .name
  | .number => .number
  | .string => .string
  | .op o => .operator o
  | .newline => .newline
  | .indent => .indent
  | .dedent => .dedent
  | .endMarker => .endMarker
  | .error => .error .error

/-- The name of the kind. -/
def title : LeafKind → String
  | .name => "name"
  | .keyword => "keyword"
  | .operator _ => "operator"
  | .number => "number"
  | .string => "string"
  | .newline => "newline"
  | .indent => "indent"
  | .dedent => "dedent"
  | .endMarker => "endmarker"
  | .error _ => "error_leaf"

end LeafKind

/-- A token in its place in the tree. -/
structure Leaf where
  kind : LeafKind
  value : Text
  trivia : Text
  start : Position
  deriving DecidableEq, Repr

/-- The position after the leaf's value. -/
def Leaf.stop (l : Leaf) : Position := l.start.advancedBy l.value

/-- A parse tree. -/
inductive Tree
  | leaf (l : Leaf)
  | branch (rule : String) (children : List Tree)

namespace Tree

/-- The name of branches that hold what recovery set aside. -/
def errorNode : String := "error_node"

instance : Inhabited Tree := ⟨.branch "" []⟩

/-- The rule of a branch, the kind of a leaf. -/
def title : Tree → String
  | leaf l => l.kind.title
  | branch rule _ => rule

def children : Tree → List Tree
  | leaf _ => []
  | branch _ children => children

def isLeaf : Tree → Bool
  | leaf _ => true
  | branch .. => false

/-- The leaf itself, if the tree is one. -/
def leaf? : Tree → Option Leaf
  | leaf l => some l
  | branch .. => none

/-- The value of a leaf; a branch has none. -/
def value : Tree → Text
  | leaf l => l.value
  | branch .. => []

/-- The value is this text. -/
def spells (t : Tree) (text : String) : Bool := t.value == text.toList

mutual

/-- The leaf at the end of the first children; none if a branch there is empty. -/
def firstLeaf? : Tree → Option Leaf
  | leaf l => some l
  | branch _ children => firstLeafOf? children

/-- The first leaf of the first tree. -/
def firstLeafOf? : List Tree → Option Leaf
  | [] => none
  | t :: _ => firstLeaf? t

end

mutual

/-- The leaf at the end of the last children; none if a branch there is empty. -/
def lastLeaf? : Tree → Option Leaf
  | leaf l => some l
  | branch _ children => lastLeafOf? children

/-- The last leaf of the last tree. -/
def lastLeafOf? : List Tree → Option Leaf
  | [] => none
  | [t] => lastLeaf? t
  | _ :: rest => lastLeafOf? rest

end

mutual

/-- The leaves, in document order. -/
def leaves : Tree → List Leaf
  | leaf l => [l]
  | branch _ children => leavesOf children

/-- The leaves of several trees. -/
def leavesOf : List Tree → List Leaf
  | [] => []
  | t :: rest => leaves t ++ leavesOf rest

end

mutual

/-- How many leaves and branches there are. -/
def size : Tree → Nat
  | leaf _ => 1
  | branch _ children => sizeAll children + 1

/-- The leaves and branches of several trees. -/
def sizeAll : List Tree → Nat
  | [] => 0
  | t :: rest => size t + sizeAll rest

end

/-- The start of the first leaf, its trivia left out. -/
def start (t : Tree) : Position := (t.firstLeaf?.map (·.start)).getD .start

/-- The end of the last leaf. -/
def stop (t : Tree) : Position := (t.lastLeaf?.map (·.stop)).getD .start

/-- The source text, trivia included. -/
def code (t : Tree) : Text := t.leaves.flatMap fun l => l.trivia ++ l.value

/-- The position is not outside the tree; both ends are inside. -/
def covers (t : Tree) (pos : Position) : Bool := t.start ≤ pos && pos ≤ t.stop

mutual

/-- An outline, a line for each leaf and branch, indented by depth. -/
def outline (depth : Nat) : Tree → String
  | leaf l =>
    String.join (List.replicate depth "  ") ++
      s!"{l.kind.title} {Text.quoted l.value} @{l.start.render}\n"
  | branch rule children =>
    String.join (List.replicate depth "  ") ++ s!"{rule}\n" ++ outlineOf (depth + 1) children

/-- The outlines of several trees. -/
def outlineOf (depth : Nat) : List Tree → String
  | [] => ""
  | t :: rest => outline depth t ++ outlineOf depth rest

end

def dump (t : Tree) : String := t.outline 0

theorem leavesOf_eq_flatMap (ts : List Tree) : leavesOf ts = ts.flatMap leaves := by
  induction ts with
  | nil => rfl
  | cons t rest ih => simp [leavesOf, ih]

@[simp] theorem leaves_branch (rule : String) (children : List Tree) :
    (branch rule children).leaves = children.flatMap leaves := by
  rw [leaves, leavesOf_eq_flatMap]

@[simp] theorem leaves_leaf (l : Leaf) : (leaf l).leaves = [l] := by rw [leaves]

@[simp] theorem code_leaf (l : Leaf) : (leaf l).code = l.trivia ++ l.value := by simp [code]

@[simp] theorem code_branch (rule : String) (children : List Tree) :
    (branch rule children).code = children.flatMap code := by
  rw [code, leaves_branch, List.flatMap_assoc]
  rfl

end Tree

end Caret
