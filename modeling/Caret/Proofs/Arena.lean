import Mathlib.Data.List.Induction
import Mathlib.Data.List.Nodup
import Caret.Tree
/-!
# Trees in an arena

Nodes are kept in the order in which they are made and are spoken of by number. A branch has the
numbers of its children; when it is made, the children are told their parent. From then on the way
up is read off these links: the leaf before a place is found by climbing until there is a sibling
before, and going down to its last leaf.

Nodes that no branch has taken yet are held by whoever builds the tree. As long as a branch is made
only of held nodes and is held instead of them, links and children agree, and what is held in the
end is the root of all.

Results:
* `Arena.WellLinked`: links and children agree, and these nodes have no parent.
* `WellLinked.addLeaf`, `WellLinked.addBranch`: making nodes keeps them well linked.
* `WellLinked.reached_once`: with a single node held, one way leads from it to each node.
* `Stands`: the node stands for a tree; making nodes does not change that.
* `WellLinked.previousLeaf?_leaves`: where every branch has children, the leaf before a leaf is the
  one before it in document order.
-/
namespace Caret

/-- What a node holds: a leaf, or the numbers of a branch's children. -/
inductive Content
  | leaf (l : Leaf)
  | branch (rule : String) (children : List Nat)
  deriving DecidableEq

/-- A node and the number of the branch above it. -/
structure Node where
  content : Content
  parent : Option Nat

/-- Nodes, by number. -/
structure Arena where
  nodes : Array Node

namespace Arena

/-! ## Making nodes -/

def empty : Arena := ⟨#[]⟩

/-- How many nodes there are; the next one gets this number. -/
def size (a : Arena) : Nat := a.nodes.size

def content? (a : Arena) (i : Nat) : Option Content := a.nodes[i]?.map (·.content)

/-- The branch above a node, as its link says. -/
def parent? (a : Arena) (i : Nat) : Option Nat := a.nodes[i]?.bind (·.parent)

def children (a : Arena) (i : Nat) : List Nat :=
  match a.content? i with
  | some (.branch _ children) => children
  | _ => []

def isLeaf (a : Arena) (i : Nat) : Bool :=
  match a.content? i with
  | some (.leaf _) => true
  | _ => false

/-- Make a node, without a parent. -/
def add (a : Arena) (content : Content) : Arena := ⟨a.nodes.push ⟨content, none⟩⟩

/-- Link a node to its parent; without the node nothing happens. -/
def setParent (parent : Nat) (a : Arena) (i : Nat) : Arena :=
  ⟨a.nodes.modify i fun node => { node with parent := some parent }⟩

def addLeaf (a : Arena) (l : Leaf) : Arena := a.add (.leaf l)

/-- Make a branch and link its children to it. -/
def addBranch (a : Arena) (rule : String) (children : List Nat) : Arena :=
  (children.foldl (setParent a.size) a).add (.branch rule children)

/-! ## Going around -/

/-- Go down from a node, at each step to the child with the next index. -/
def follow (a : Arena) : Nat → List Nat → Option Nat
  | i, [] => some i
  | i, k :: path => (a.children i)[k]?.bind fun c => a.follow c path

/-- The leaf at the end of the last children, at most so many levels down. -/
def lastLeafWithin? (a : Arena) : Nat → Nat → Option Nat
  | 0, _ => none
  | n + 1, i =>
    if a.isLeaf i then some i else (a.children i).getLast?.bind (a.lastLeafWithin? n)

/-- The leaf at the end of the last children. They were made before their branch, so there are no
more levels than the number says. -/
def lastLeaf? (a : Arena) (i : Nat) : Option Nat := a.lastLeafWithin? (i + 1) i

/-- The leaves at most so many levels down, in document order. -/
def leavesWithin (a : Arena) : Nat → Nat → List Nat
  | 0, _ => []
  | n + 1, i => if a.isLeaf i then [i] else (a.children i).flatMap (a.leavesWithin n)

/-- The leaves under a node, in document order. -/
def leaves (a : Arena) (i : Nat) : List Nat := a.leavesWithin (i + 1) i

/-- Climb at most so many levels to a sibling before, and go down to its last leaf. -/
def previousLeafWithin? (a : Arena) : Nat → Nat → Option Nat
  | 0, _ => none
  | n + 1, i =>
    match a.parent? i with
    | none => none
    | some b =>
      match (a.children b).idxOf? i with
      | none => none
      | some 0 => a.previousLeafWithin? n b
      | some (k + 1) => (a.children b)[k]?.bind a.lastLeaf?

/-- The leaf before a node. A branch is made after its children, so the climb has no more levels
than there are nodes. -/
def previousLeaf? (a : Arena) (i : Nat) : Option Nat := a.previousLeafWithin? a.size i

variable {a a' : Arena} {held cs : List Nat} {i j b n root : Nat} {c : Content} {l : Leaf}
  {rule : String}

/-! ### What making nodes changes -/

@[simp] theorem size_empty : empty.size = 0 := rfl

@[simp] theorem content?_empty : empty.content? i = none := rfl

@[simp] theorem parent?_empty : empty.parent? i = none := rfl

@[simp] theorem size_add : (a.add c).size = a.size + 1 := by simp [add, size]

theorem content?_add : (a.add c).content? i = if i = a.size then some c else a.content? i := by
  simp only [content?, add, Array.getElem?_push]
  by_cases new : i = a.size
  · rw [if_pos new, if_pos (show i = a.nodes.size from new)]
    rfl
  · rw [if_neg new, if_neg (show i ≠ a.nodes.size from new)]

theorem parent?_of_size_le (h : a.size ≤ i) : a.parent? i = none := by
  rw [parent?, Array.getElem?_eq_none h]
  rfl

@[simp] theorem parent?_add : (a.add c).parent? i = a.parent? i := by
  simp only [parent?, add, Array.getElem?_push]
  by_cases new : i = a.nodes.size
  · rw [if_pos new, Array.getElem?_eq_none (Nat.le_of_eq new.symm)]
    rfl
  · rw [if_neg new]

@[simp] theorem size_setParent : (setParent b a i).size = a.size := by simp [setParent, size]

@[simp] theorem content?_setParent : (setParent b a i).content? j = a.content? j := by
  simp only [content?, setParent, Array.getElem?_modify]
  split
  · rw [Option.map_map]
    rfl
  · rfl

theorem parent?_setParent :
    (setParent b a i).parent? j = if j = i ∧ j < a.size then some b else a.parent? j := by
  simp only [parent?, setParent, Array.getElem?_modify]
  by_cases same : i = j
  · subst same
    by_cases inside : i < a.size
    · rw [if_pos rfl, if_pos ⟨rfl, inside⟩, Array.getElem?_eq_getElem inside]
      rfl
    · rw [if_pos rfl, if_neg (fun h => inside h.2),
        Array.getElem?_eq_none (Nat.le_of_not_lt inside)]
      rfl
  · rw [if_neg same, if_neg (fun h => same h.1.symm)]

@[simp] theorem size_setParents : (cs.foldl (setParent b) a).size = a.size := by
  induction cs generalizing a with
  | nil => rfl
  | cons i cs ih => rw [List.foldl_cons, ih, size_setParent]

@[simp] theorem content?_setParents : (cs.foldl (setParent b) a).content? j = a.content? j := by
  induction cs generalizing a with
  | nil => rfl
  | cons i cs ih => rw [List.foldl_cons, ih, content?_setParent]

theorem parent?_setParents : (cs.foldl (setParent b) a).parent? j =
    if j ∈ cs ∧ j < a.size then some b else a.parent? j := by
  induction cs generalizing a with
  | nil => simp
  | cons i cs ih =>
    rw [List.foldl_cons, ih, size_setParent, parent?_setParent]
    by_cases inside : j < a.size
    · by_cases later : j ∈ cs
      · simp [inside, later]
      · simp [later]
    · simp [inside]

@[simp] theorem size_addLeaf : (a.addLeaf l).size = a.size + 1 := size_add

@[simp] theorem size_addBranch : (a.addBranch rule cs).size = a.size + 1 := by
  rw [addBranch, size_add, size_setParents]

theorem content?_addBranch : (a.addBranch rule cs).content? i =
    if i = a.size then some (.branch rule cs) else a.content? i := by
  rw [addBranch, content?_add, size_setParents, content?_setParents]

theorem parent?_addBranch : (a.addBranch rule cs).parent? i =
    if i ∈ cs ∧ i < a.size then some a.size else a.parent? i := by
  rw [addBranch, parent?_add, parent?_setParents]

theorem content?_of_size_le (h : a.size ≤ i) : a.content? i = none := by
  rw [content?, Array.getElem?_eq_none h]
  rfl

theorem children_of_size_le (h : a.size ≤ i) : a.children i = [] := by
  rw [children, content?_of_size_le h]

theorem children_addLeaf : (a.addLeaf l).children i = a.children i := by
  by_cases new : i = a.size
  · rw [children_of_size_le (Nat.le_of_eq new.symm), children, addLeaf, content?_add, if_pos new]
  · rw [children, addLeaf, content?_add, if_neg new]
    rfl

theorem children_addBranch :
    (a.addBranch rule cs).children i = if i = a.size then cs else a.children i := by
  by_cases new : i = a.size
  · rw [children, content?_addBranch, if_pos new, if_pos new]
  · rw [children, content?_addBranch, if_neg new, if_neg new]
    rfl

/-! ## Links and children -/

/-- Links and children agree, branches are made after their children, which are different, and what
is held are the nodes without a parent. -/
structure WellLinked (a : Arena) (held : List Nat) : Prop where
  parent_iff : ∀ {i b : Nat}, a.parent? i = some b ↔ i ∈ a.children b
  nodup : ∀ b : Nat, (a.children b).Nodup
  older : ∀ {i b : Nat}, i ∈ a.children b → i < b
  held_nodup : held.Nodup
  mem_held : ∀ {i : Nat}, i ∈ held ↔ i < a.size ∧ a.parent? i = none

theorem wellLinked_empty : empty.WellLinked [] := by
  constructor <;> simp [children]

theorem WellLinked.perm {held' : List Nat} (h : a.WellLinked held) (p : held.Perm held') :
    a.WellLinked held' :=
  ⟨h.parent_iff, h.nodup, h.older, p.nodup_iff.1 h.held_nodup, by
    intro i
    rw [← p.mem_iff]
    exact h.mem_held⟩

theorem WellLinked.size_notMem (h : a.WellLinked held) : a.size ∉ held := by
  intro mem
  exact Nat.lt_irrefl _ (h.mem_held.1 mem).1

theorem WellLinked.nodup_concat (h : a.WellLinked (held ++ cs)) : (held ++ [a.size]).Nodup := by
  have nodup := (List.nodup_append.1 h.held_nodup).1
  have new : a.size ∉ held := fun mem => h.size_notMem (List.mem_append_left cs mem)
  rw [← List.concat_eq_append]
  exact nodup.concat new

theorem WellLinked.addLeaf (h : a.WellLinked held) :
    (a.addLeaf l).WellLinked (held ++ [a.size]) := by
  have parent (i : Nat) : (a.addLeaf l).parent? i = a.parent? i := parent?_add
  refine ⟨?_, ?_, ?_, ?_, ?_⟩
  · intro i b
    rw [parent, children_addLeaf]
    exact h.parent_iff
  · intro b
    rw [children_addLeaf]
    exact h.nodup b
  · intro i b hi
    rw [children_addLeaf] at hi
    exact h.older hi
  · rw [← List.append_nil held] at h
    exact h.nodup_concat
  · intro i
    rw [List.mem_append, List.mem_singleton, h.mem_held, parent, size_addLeaf]
    constructor
    · rintro (⟨inside, none⟩ | rfl)
      · exact ⟨by omega, none⟩
      · exact ⟨by omega, parent?_of_size_le (Nat.le_refl _)⟩
    · rintro ⟨inside, none⟩
      by_cases new : i = a.size
      · exact .inr new
      · exact .inl ⟨by omega, none⟩

/-- A child of an older branch is not held, so it is not taken. -/
theorem WellLinked.not_taken (h : a.WellLinked (held ++ cs)) (hi : i ∈ a.children b) :
    i ∉ cs ∧ b ≠ a.size := by
  constructor
  · intro mem
    have none := (h.mem_held.1 (List.mem_append_right held mem)).2
    rw [h.parent_iff.2 hi] at none
    cases none
  · rintro rfl
    rw [children_of_size_le (Nat.le_refl _)] at hi
    cases hi

/-- The children that are taken are linked to the new branch, and no other link changes. -/
theorem WellLinked.parent?_addBranch (h : a.WellLinked (held ++ cs)) :
    (a.addBranch rule cs).parent? i = if i ∈ cs then some a.size else a.parent? i := by
  rw [Arena.parent?_addBranch]
  by_cases hi : i ∈ cs
  · have inside := (h.mem_held.1 (List.mem_append_right held hi)).1
    rw [if_pos ⟨hi, inside⟩, if_pos hi]
  · rw [if_neg (fun both => hi both.1), if_neg hi]

theorem WellLinked.parent_iff_addBranch (h : a.WellLinked (held ++ cs)) :
    (a.addBranch rule cs).parent? i = some b ↔ i ∈ (a.addBranch rule cs).children b := by
  rw [h.parent?_addBranch, children_addBranch]
  by_cases hi : i ∈ cs <;> by_cases new : b = a.size
  · simp [hi, new]
  · rw [if_pos hi, if_neg new]
    constructor
    · rintro ⟨⟩
      exact absurd rfl new
    · intro child
      exact absurd hi (h.not_taken child).1
  · rw [if_neg hi, if_pos new, h.parent_iff]
    constructor
    · intro child
      exact absurd new (h.not_taken child).2
    · intro mem
      exact absurd mem hi
  · rw [if_neg hi, if_neg new]
    exact h.parent_iff

theorem WellLinked.mem_held_addBranch (h : a.WellLinked (held ++ cs)) :
    i ∈ held ++ [a.size] ↔
      i < (a.addBranch rule cs).size ∧ (a.addBranch rule cs).parent? i = none := by
  obtain ⟨-, -, apart⟩ := List.nodup_append.1 h.held_nodup
  rw [h.parent?_addBranch, size_addBranch, List.mem_append, List.mem_singleton]
  constructor
  · rintro (hi | rfl)
    · obtain ⟨inside, none⟩ := h.mem_held.1 (List.mem_append_left cs hi)
      have free : i ∉ cs := fun mem => apart i hi i mem rfl
      exact ⟨by omega, by rw [if_neg free, none]⟩
    · have free : a.size ∉ cs := fun mem => h.size_notMem (List.mem_append_right _ mem)
      exact ⟨by omega, by rw [if_neg free, parent?_of_size_le (Nat.le_refl _)]⟩
  · rintro ⟨inside, none⟩
    by_cases hi : i ∈ cs
    · rw [if_pos hi] at none
      cases none
    rw [if_neg hi] at none
    by_cases new : i = a.size
    · exact .inr new
    · have mem := h.mem_held.2 ⟨by omega, none⟩
      exact .inl ((List.mem_append.1 mem).resolve_right hi)

/-- A branch of held nodes is held instead of them. -/
theorem WellLinked.addBranch (h : a.WellLinked (held ++ cs)) :
    (a.addBranch rule cs).WellLinked (held ++ [a.size]) := by
  refine ⟨h.parent_iff_addBranch, ?_, ?_, h.nodup_concat, h.mem_held_addBranch⟩
  · intro b
    rw [children_addBranch]
    split
    · exact (List.nodup_append.1 h.held_nodup).2.1
    · exact h.nodup b
  · intro i b hi
    rw [children_addBranch] at hi
    split at hi
    · next new => exact new ▸ (h.mem_held.1 (List.mem_append_right held hi)).1
    · exact h.older hi

theorem WellLinked.parent_lt (h : a.WellLinked held) (hp : a.parent? i = some b) :
    i < b ∧ b < a.size := by
  have child := h.parent_iff.1 hp
  refine ⟨h.older child, ?_⟩
  by_contra outside
  rw [children_of_size_le (Nat.le_of_not_lt outside)] at child
  cases child

/-! ## Ways down -/

theorem follow_append (path path' : List Nat) :
    a.follow i (path ++ path') = (a.follow i path).bind fun j => a.follow j path' := by
  induction path generalizing i with
  | nil => rfl
  | cons k path ih =>
    simp only [List.cons_append, follow]
    cases (a.children i)[k]? with
    | none => rfl
    | some c => exact ih

theorem follow_concat {path : List Nat} {k : Nat} : a.follow i (path ++ [k]) = some j ↔
    ∃ b, a.follow i path = some b ∧ (a.children b)[k]? = some j := by
  rw [follow_append, Option.bind_eq_some_iff]
  simp [follow]

/-- Every node lies below one that is held. -/
theorem WellLinked.reached (h : a.WellLinked [root]) (inside : i < a.size) :
    ∃ path, a.follow root path = some i := by
  induction hn : a.size - i using Nat.strongRecOn generalizing i with
  | _ n ih =>
    cases hp : a.parent? i with
    | none =>
      have held := h.mem_held.2 ⟨inside, hp⟩
      exact ⟨[], by rw [List.mem_singleton.1 held]; rfl⟩
    | some b =>
      obtain ⟨newer, below⟩ := h.parent_lt hp
      obtain ⟨path, hpath⟩ := ih (a.size - b) (by omega) below rfl
      obtain ⟨k, hk⟩ := List.mem_iff_getElem?.1 (h.parent_iff.1 hp)
      exact ⟨path ++ [k], follow_concat.2 ⟨b, hpath, hk⟩⟩

theorem WellLinked.parent?_root (h : a.WellLinked [root]) : a.parent? root = none :=
  (h.mem_held.1 (List.mem_singleton_self _)).2

/-- A step down ends at a node with a parent. -/
theorem WellLinked.follow_concat_ne (h : a.WellLinked [root]) {path : List Nat} {k : Nat} :
    a.follow root (path ++ [k]) ≠ some root := by
  intro hj
  obtain ⟨b, -, hk⟩ := follow_concat.1 hj
  have parent := h.parent_iff.2 (List.mem_of_getElem? hk)
  rw [h.parent?_root] at parent
  cases parent

/-- Two ways to a node come over the same branch by the same child, up to the root. -/
theorem WellLinked.follow_inj (h : a.WellLinked [root]) {path path' : List Nat}
    (hp : a.follow root path = some i) (hp' : a.follow root path' = some i) : path = path' := by
  induction path using List.reverseRecOn generalizing i path' with
  | nil =>
    cases hp
    cases path' using List.reverseRecOn with
    | nil => rfl
    | append_singleton path' k => exact absurd hp' h.follow_concat_ne
  | append_singleton path k ih =>
    cases path' using List.reverseRecOn with
    | nil =>
      cases hp'
      exact absurd hp h.follow_concat_ne
    | append_singleton path' k' =>
      obtain ⟨b, hb, hk⟩ := follow_concat.1 hp
      obtain ⟨b', hb', hk'⟩ := follow_concat.1 hp'
      have parent := h.parent_iff.2 (List.mem_of_getElem? hk)
      have parent' := h.parent_iff.2 (List.mem_of_getElem? hk')
      obtain rfl : b = b' := Option.some.inj (parent.symm.trans parent')
      obtain ⟨inside, -⟩ := List.getElem?_eq_some_iff.1 hk
      obtain rfl : k = k' := (List.getElem?_inj inside (h.nodup b)).1 (hk.trans hk'.symm)
      rw [ih hb hb']

/-- With a single node held, one way leads from it to each node. -/
theorem WellLinked.reached_once (h : a.WellLinked [root]) (inside : i < a.size) :
    ∃! path, a.follow root path = some i := by
  obtain ⟨path, hp⟩ := h.reached inside
  exact ⟨path, hp, fun path' hp' => h.follow_inj hp' hp⟩

/-! ## Trees -/

mutual

/-- The node stands for the tree. -/
def Stands (a : Arena) (i : Nat) : Tree → Prop
  | .leaf l => a.content? i = some (.leaf l)
  | .branch rule ts => ∃ cs, a.content? i = some (.branch rule cs) ∧ a.StandAll cs ts

/-- The nodes stand for the trees, one for each. -/
def StandAll (a : Arena) : List Nat → List Tree → Prop
  | [], [] => True
  | i :: cs, t :: ts => a.Stands i t ∧ a.StandAll cs ts
  | _, _ => False

end

theorem standAll_iff {ts : List Tree} : a.StandAll cs ts ↔ List.Forall₂ a.Stands cs ts := by
  induction cs generalizing ts with
  | nil => cases ts <;> simp [StandAll]
  | cons i cs ih => cases ts <;> simp [StandAll, ih]

/-- What nodes hold stays. -/
def Grows (a a' : Arena) : Prop := ∀ {i : Nat} {c : Content}, a.content? i = some c →
  a'.content? i = some c

theorem content?_lt_size (h : a.content? i = some c) : i < a.size := by
  by_contra outside
  rw [content?_of_size_le (Nat.le_of_not_lt outside)] at h
  cases h

theorem grows_addLeaf : a.Grows (a.addLeaf l) := by
  intro i c h
  have old := content?_lt_size h
  rw [addLeaf, content?_add, if_neg (by omega), h]

theorem grows_addBranch : a.Grows (a.addBranch rule cs) := by
  intro i c h
  have old := content?_lt_size h
  rw [content?_addBranch, if_neg (by omega), h]

mutual

theorem Stands.grow (grows : a.Grows a') : ∀ {t : Tree} {i : Nat}, a.Stands i t → a'.Stands i t
  | .leaf _, _, h => by
    rw [Stands] at h ⊢
    exact grows h
  | .branch _ _, _, h => by
    rw [Stands] at h ⊢
    obtain ⟨cs, found, all⟩ := h
    exact ⟨cs, grows found, all.grow grows⟩

theorem StandAll.grow (grows : a.Grows a') :
    ∀ {ts : List Tree} {cs : List Nat}, a.StandAll cs ts → a'.StandAll cs ts
  | [], [], _ => by rw [StandAll]; trivial
  | _ :: _, _ :: _, h => by
    rw [StandAll] at h ⊢
    exact ⟨h.1.grow grows, h.2.grow grows⟩
  | [], _ :: _, h => by simp [StandAll] at h
  | _ :: _, [], h => by simp [StandAll] at h

end

/-- A new branch stands for a branch of what its children stand for. -/
theorem stands_addBranch {ts : List Tree} (h : List.Forall₂ a.Stands cs ts) :
    (a.addBranch rule cs).Stands a.size (.branch rule ts) := by
  rw [Stands]
  refine ⟨cs, ?_, standAll_iff.2 ?_⟩
  · rw [content?_addBranch, if_pos rfl]
  · exact h.imp fun _ _ => Stands.grow grows_addBranch

theorem stands_addLeaf : (a.addLeaf l).Stands a.size (.leaf l) := by
  rw [Stands, addLeaf, content?_add, if_pos rfl]

/-- What lies below a node stands for what lies below its tree. -/
theorem Stands.follow {Q : Tree → Prop} {path : List Nat} {t : Tree}
    (below : ∀ {rule ts}, Q (.branch rule ts) → ∀ t ∈ ts, Q t) (h : a.Stands i t) (ht : Q t)
    (found : a.follow i path = some j) : ∃ u, a.Stands j u ∧ Q u := by
  induction path generalizing i t with
  | nil =>
    cases found
    exact ⟨t, h, ht⟩
  | cons k path ih =>
    obtain ⟨c, hc, found⟩ := Option.bind_eq_some_iff.1 found
    cases t with
    | leaf l =>
      rw [Stands] at h
      rw [children, h] at hc
      cases hc
    | branch rule ts =>
      rw [Stands] at h
      obtain ⟨cs, here, all⟩ := h
      rw [children, here] at hc
      obtain ⟨inside, rfl⟩ := List.getElem?_eq_some_iff.1 hc
      have all := standAll_iff.1 all
      have inside' : k < ts.length := all.length_eq ▸ inside
      exact ih (all.get inside inside') (below ht _ (List.getElem_mem inside')) found

/-! ## Leaves, in document order -/

theorem WellLinked.leavesWithin_eq (h : a.WellLinked held) (enough : i < n) :
    a.leavesWithin n i = a.leaves i := by
  induction i using Nat.strongRecOn generalizing n with
  | _ i ih =>
    cases n with
    | zero => omega
    | succ n =>
      rw [leaves, leavesWithin, leavesWithin]
      split
      · rfl
      · apply List.flatMap_congr
        intro c child
        have older := h.older child
        rw [ih c older (by omega), ih c older older]

/-- The leaves under a branch are those under its children. -/
theorem WellLinked.leaves_eq (h : a.WellLinked held) :
    a.leaves i = if a.isLeaf i then [i] else (a.children i).flatMap a.leaves := by
  rw [leaves, leavesWithin]
  split
  · rfl
  · exact List.flatMap_congr fun c child => h.leavesWithin_eq (h.older child)

theorem WellLinked.lastLeafWithin?_eq (h : a.WellLinked held) (enough : i < n) :
    a.lastLeafWithin? n i = a.lastLeaf? i := by
  induction i using Nat.strongRecOn generalizing n with
  | _ i ih =>
    cases n with
    | zero => omega
    | succ n =>
      rw [lastLeaf?, lastLeafWithin?, lastLeafWithin?]
      split
      · rfl
      · apply Option.bind_congr
        intro c last
        have older := h.older (List.mem_of_getLast? last)
        rw [ih c older (by omega), ih c older older]

mutual

/-- The leaves under a node are those of the tree that it stands for. -/
theorem WellLinked.leaves_stands (h : a.WellLinked held) : ∀ {t : Tree} {i : Nat}, a.Stands i t →
    (a.leaves i).map a.content? = t.leaves.map fun l => some (.leaf l)
  | .leaf l, i, stands => by
    rw [Stands] at stands
    have leaf : a.isLeaf i = true := by rw [isLeaf, stands]
    rw [h.leaves_eq, if_pos leaf, Tree.leaves_leaf, List.map_singleton, List.map_singleton, stands]
  | .branch rule ts, i, stands => by
    rw [Stands] at stands
    obtain ⟨cs, found, all⟩ := stands
    have branch : a.isLeaf i = false := by rw [isLeaf, found]
    have here : a.children i = cs := by rw [children, found]
    rw [h.leaves_eq, if_neg (by simp [branch]), here, Tree.leaves_branch]
    exact h.leaves_standAll all

theorem WellLinked.leaves_standAll (h : a.WellLinked held) :
    ∀ {ts : List Tree} {cs : List Nat}, a.StandAll cs ts →
      (cs.flatMap a.leaves).map a.content? = (ts.flatMap Tree.leaves).map fun l => some (.leaf l)
  | [], [], _ => rfl
  | t :: ts, i :: cs, stands => by
    rw [StandAll] at stands
    rw [List.flatMap_cons, List.flatMap_cons, List.map_append, List.map_append,
      h.leaves_stands stands.1, h.leaves_standAll stands.2]
  | [], _ :: _, stands => by simp [StandAll] at stands
  | _ :: _, [], stands => by simp [StandAll] at stands

end

/-- Every branch has a child. -/
def Fruitful (a : Arena) : Prop := ∀ i < a.size, a.isLeaf i = false → a.children i ≠ []

/-- Where every branch has a child, there is a last leaf under every node. -/
theorem WellLinked.lastLeaf?_eq (h : a.WellLinked held) (fruitful : a.Fruitful)
    (inside : i < a.size) : a.lastLeaf? i = (a.leaves i).getLast? ∧ a.leaves i ≠ [] := by
  induction i using Nat.strongRecOn with
  | _ i ih =>
    rw [h.leaves_eq, lastLeaf?, lastLeafWithin?]
    cases leaf : a.isLeaf i with
    | true => simp
    | false =>
      obtain ⟨front, c, split⟩ :=
        (List.eq_nil_or_concat' (a.children i)).resolve_left (fruitful i inside leaf)
      have older : c < i := h.older (by simp [split])
      obtain ⟨last, filled⟩ := ih c older (by omega)
      have here : a.lastLeafWithin? i c = (a.leaves c).getLast? :=
        (h.lastLeafWithin?_eq older).trans last
      have joined : (a.children i).flatMap a.leaves = front.flatMap a.leaves ++ a.leaves c := by
        rw [split, List.flatMap_append, List.flatMap_singleton]
      simp only [Bool.false_eq_true, if_false]
      rw [joined, split, List.getLast?_concat, Option.bind_some, here,
        List.getLast?_append_of_ne_nil _ filled]
      exact ⟨rfl, fun none => filled (List.append_eq_nil_iff.1 none).2⟩

/-- Where the leaf before a branch is known, the leaf before one of its children is the last one
under the children in front of it, if there are any. -/
theorem WellLinked.previous_child (h : a.WellLinked held) (fruitful : a.Fruitful)
    {front pre post : List Nat} (branch : a.children b = pre ++ i :: post)
    (before : ∀ n, a.size - b ≤ n → a.previousLeafWithin? n b = front.getLast?)
    (enough : a.size - i ≤ n) :
    a.previousLeafWithin? n i = (front ++ pre.flatMap a.leaves).getLast? := by
  have child : i ∈ a.children b := by simp [branch]
  obtain ⟨older, inside⟩ := h.parent_lt (h.parent_iff.2 child)
  have position : (a.children b).idxOf? i = some pre.length := by
    have nodup := h.nodup b
    rw [branch] at nodup ⊢
    have free : i ∉ pre := fun mem =>
      (List.nodup_append.1 nodup).2.2 i mem i List.mem_cons_self rfl
    rw [List.idxOf?_eq_some_iff]
    refine ⟨by simp, by simp, ?_⟩
    intro j hj same
    rw [List.getElem_append_left hj] at same
    exact free (same ▸ List.getElem_mem hj)
  obtain ⟨n, rfl⟩ : ∃ m, n = m + 1 := ⟨n - 1, by omega⟩
  rw [previousLeafWithin?, h.parent_iff.2 child]
  dsimp only
  rw [position]
  cases pre using List.reverseRecOn with
  | nil => simpa using before n (by omega)
  | append_singleton pre sibling =>
    have older' : sibling < b := h.older (by simp [branch])
    obtain ⟨last, filled⟩ := h.lastLeaf?_eq fruitful (Nat.lt_trans older' inside)
    have there : (a.children b)[pre.length]? = some sibling := by simp [branch]
    rw [List.length_append, List.length_singleton]
    dsimp only
    rw [there, Option.bind_some, last, List.flatMap_append, List.flatMap_singleton,
      ← List.append_assoc, List.getLast?_append_of_ne_nil _ filled]

/-- A place in a joined list is a place in one of its parts. -/
theorem flatMap_split {α β : Type} {f : α → List β} {l : List α} {front back : List β} {x : β}
    (h : l.flatMap f = front ++ x :: back) : ∃ pre c post front' back',
      l = pre ++ c :: post ∧ f c = front' ++ x :: back' ∧ front = pre.flatMap f ++ front' := by
  induction l generalizing front with
  | nil => simp at h
  | cons c l ih =>
    rw [List.flatMap_cons, List.append_eq_append_iff] at h
    rcases h with ⟨front', rfl, h⟩ | ⟨tail, here, h⟩
    · obtain ⟨pre, d, post, front'', back', rfl, hd, rfl⟩ := ih h
      exact ⟨c :: pre, d, post, front'', back', rfl, hd, by simp⟩
    · cases tail with
      | nil =>
        have later : l.flatMap f = [] ++ x :: back := h.symm
        obtain ⟨pre, d, post, front'', back', rfl, hd, none⟩ := ih later
        obtain ⟨empty, rfl⟩ := List.append_eq_nil_iff.1 none.symm
        exact ⟨c :: pre, d, post, [], back', rfl, hd, by simp [here, empty]⟩
      | cons y tail =>
        obtain ⟨rfl, -⟩ := List.cons.inj h
        exact ⟨[], c, l, front, tail, rfl, here, rfl⟩

/-- The leaf before a leaf is the last of the leaves in front of it. -/
theorem WellLinked.previousLeaf?_within (h : a.WellLinked held) (fruitful : a.Fruitful)
    {front front' back : List Nat}
    (before : ∀ n, a.size - j ≤ n → a.previousLeafWithin? n j = front.getLast?)
    (leaves : a.leaves j = front' ++ i :: back) :
    a.previousLeaf? i = (front ++ front').getLast? := by
  induction j using Nat.strongRecOn generalizing front front' back with
  | _ j ih =>
    rw [h.leaves_eq] at leaves
    cases leaf : a.isLeaf j with
    | true =>
      rw [if_pos leaf] at leaves
      obtain ⟨rfl, rfl, -⟩ : front' = [] ∧ j = i ∧ back = [] := by
        cases front' <;> simp_all
      rw [List.append_nil]
      exact before _ (by omega)
    | false =>
      rw [if_neg (by simp [leaf])] at leaves
      obtain ⟨pre, c, post, front'', back', branch, here, rfl⟩ := flatMap_split leaves
      rw [← List.append_assoc]
      exact ih c (h.older (by simp [branch]))
        (fun n enough => h.previous_child fruitful branch before enough) here

/-- In document order, the leaf before a leaf is the one before it, and there is none before the
first. -/
theorem WellLinked.previousLeaf?_leaves (h : a.WellLinked [root]) (fruitful : a.Fruitful) {k : Nat}
    (found : (a.leaves root)[k]? = some i) :
    a.previousLeaf? i = if k = 0 then none else (a.leaves root)[k - 1]? := by
  obtain ⟨inside, rfl⟩ := List.getElem?_eq_some_iff.1 found
  have split : a.leaves root = (a.leaves root).take k ++ (a.leaves root)[k] ::
      (a.leaves root).drop (k + 1) := by simp
  have outermost (n : Nat) (enough : a.size - root ≤ n) :
      a.previousLeafWithin? n root = ([] : List Nat).getLast? := by
    have made := (h.mem_held.1 (List.mem_singleton_self _)).1
    obtain ⟨n, rfl⟩ : ∃ m, n = m + 1 := ⟨n - 1, by omega⟩
    rw [previousLeafWithin?, h.parent?_root]
    rfl
  rw [h.previousLeaf?_within fruitful outermost split, List.nil_append, List.getLast?_take]
  split
  · rfl
  · rw [List.getElem?_eq_getElem (by omega), Option.some_or]

end Arena

end Caret
