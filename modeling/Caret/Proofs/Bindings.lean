import Caret.Proofs.Definitions
/-!
# Names in targets

Tuples, lists, stars and brackets pass the question how a name in them is bound on to the branch
above, at every depth of nesting. So all names of a tree that is made of such branches are bound in
one way, which the place of the tree decides.

Results:
* `IsTarget`: a tree that is made of such branches and leaves.
* `Binds`: all names in a tree are bound in this way, and nothing else is.
* `IsTarget.binds`: a target binds its names as its place says.
* `IsTarget.assigned`, `IsTarget.looped`, `IsTarget.managed`: three such places.
-/
namespace Caret.Scope

variable {kind : DefinitionKind} {path : List Crumb} {rule : String} {t : Tree} {l : Leaf}
  {children before rest : List Tree}

/-- Branches that pass the question how a name is bound on to the branch above, whatever is in
them. -/
def passing : List String := ["testlist_star_expr", "exprlist", "testlist_comp", "star_expr"]

/-- Branches above a name for which it is decided as for a target how the name is bound. -/
def aboveTargets : List String := "atom" :: "expr_stmt" :: "for_stmt" :: "with_item" :: passing

/-- The children stand in round or square brackets. -/
def inBrackets (children : List Tree) : Bool :=
  isText children.head? "(" || isText children.head? "["

/-- A tree of leaves, stars, lists and brackets. -/
inductive IsTarget : Tree → Prop
  | leaf (l : Leaf) : IsTarget (.leaf l)
  | list {rule : String} {children : List Tree} (h : rule ∈ passing)
      (all : ∀ t ∈ children, IsTarget t) : IsTarget (.branch rule children)
  | brackets {children : List Tree} (h : inBrackets children = true)
      (all : ∀ t ∈ children, IsTarget t) : IsTarget (.branch "atom" children)

/-- The names below a place are bound in this way, and there is no other definition. -/
def Binds (kind : DefinitionKind) (path : List Crumb) (t : Tree) : Prop := ∀ modulePath,
  (Focus.leavesIn path t).filterMap (definition? modulePath) =
    (t.leaves.filter (·.kind = .name)).map (definitionAt modulePath · kind)

/-- So are the names below the children that are left of a branch. -/
def BindsAmong (kind : DefinitionKind) (rule : String) (path : List Crumb)
    (before rest : List Tree) : Prop := ∀ modulePath,
  (Focus.leavesAmong rule path before rest).filterMap (definition? modulePath) =
    ((rest.flatMap Tree.leaves).filter (·.kind = .name)).map (definitionAt modulePath · kind)

theorem BindsAmong.nil : BindsAmong kind rule path before [] := fun _ => rfl

theorem BindsAmong.cons (h : Binds kind (⟨rule, before, rest⟩ :: path) t)
    (more : BindsAmong kind rule path (t :: before) rest) :
    BindsAmong kind rule path before (t :: rest) := by
  intro modulePath
  rw [Focus.leavesAmong, List.filterMap_append, h, more]
  simp

theorem BindsAmong.branch (h : BindsAmong kind rule path [] children) :
    Binds kind path (.branch rule children) := by
  intro modulePath
  rw [Focus.leavesIn, h, Tree.leaves_branch]

/-- It is enough to look at each child with the children around it. -/
theorem Binds.of_each (h : ∀ before t rest, before.reverse ++ t :: rest = children →
    Binds kind (⟨rule, before, rest⟩ :: path) t) : Binds kind path (.branch rule children) := by
  have among (rest : List Tree) : ∀ before, before.reverse ++ rest = children →
      BindsAmong kind rule path before rest := by
    induction rest with
    | nil => exact fun _ _ => .nil
    | cons t rest ih =>
      intro before split
      exact .cons (h before t rest split) (ih (t :: before) (by simpa using split))
  exact (among children [] rfl).branch

/-- What is no name is not bound. -/
theorem binds_other (h : l.kind ≠ .name) : Binds kind path (.leaf l) := by
  intro modulePath
  simp [Focus.leavesIn, definition?, bindingKind?, h]

/-- Below such branches a name is bound as a target. -/
theorem nameKind?_target {crumb : Crumb} (h : crumb.rule ∈ aboveTargets) :
    nameKind? ⟨t, crumb :: path⟩ = targetKind? t (crumb :: path) := by
  obtain ⟨rule, before, after⟩ := crumb
  simp only [aboveTargets, passing, List.mem_cons, List.not_mem_nil, or_false] at h
  rcases h with rfl | rfl | rfl | rfl | rfl | rfl | rfl | rfl <;> rfl

/-- A list passes the question on. -/
theorem targetKind?_list (h : rule ∈ passing) (split : before.reverse ++ t :: rest = children) :
    targetKind? t (⟨rule, before, rest⟩ :: path) = targetKind? (.branch rule children) path := by
  rw [← split]
  simp only [passing, List.mem_cons, List.not_mem_nil, or_false] at h
  rcases h with rfl | rfl | rfl | rfl <;> rfl

/-- So do brackets. -/
theorem targetKind?_brackets (h : inBrackets children = true)
    (split : before.reverse ++ t :: rest = children) :
    targetKind? t (⟨"atom", before, rest⟩ :: path) =
      targetKind? (.branch "atom" children) path := by
  subst split
  exact if_pos h

/-- A target binds its names as its place says. -/
theorem IsTarget.binds (h : IsTarget t) {crumb : Crumb} (above : crumb.rule ∈ aboveTargets)
    (bound : targetKind? t (crumb :: path) = some kind) : Binds kind (crumb :: path) t := by
  induction h generalizing crumb path with
  | leaf l =>
    by_cases name : l.kind = .name
    · intro modulePath
      simp [Focus.leavesIn, definition?, bindingKind?, name, nameKind?_target above, bound,
        Tree.leaf?]
    · exact binds_other name
  | @list rule children h all ih =>
    refine .of_each fun before t rest split => ?_
    have child : t ∈ children := split ▸ List.mem_append_right _ List.mem_cons_self
    have passed : rule ∈ aboveTargets := by simp [aboveTargets, h]
    exact ih t child passed ((targetKind?_list h split).trans bound)
  | @brackets children h all ih =>
    refine .of_each fun before t rest split => ?_
    have child : t ∈ children := split ▸ List.mem_append_right _ List.mem_cons_self
    have passed : "atom" ∈ aboveTargets := by decide
    exact ih t child passed ((targetKind?_brackets h split).trans bound)

/-- Before an equals sign names are assigned. -/
theorem IsTarget.assigned (h : IsTarget t) {sign : Tree} (equal : sign.spells "=" = true) :
    Binds .assignment (⟨"expr_stmt", before, sign :: rest⟩ :: path) t := by
  have bound : targetKind? t (⟨"expr_stmt", before, sign :: rest⟩ :: path) =
      some .assignment := if_pos equal
  exact h.binds (by simp [aboveTargets]) bound

/-- Second in a loop, names are those of its targets. -/
theorem IsTarget.looped (h : IsTarget t) {first : Tree} :
    Binds .loopTarget (⟨"for_stmt", [first], rest⟩ :: path) t :=
  h.binds (by simp [aboveTargets]) rfl

/-- Behind the word "as", names are those of the target of a context. -/
theorem IsTarget.managed (h : IsTarget t) {word : Tree} (as_ : word.spells "as" = true) :
    Binds .withTarget (⟨"with_item", word :: before, rest⟩ :: path) t := by
  have bound : targetKind? t (⟨"with_item", word :: before, rest⟩ :: path) =
      some .withTarget := if_pos as_
  exact h.binds (by simp [aboveTargets]) bound

end Caret.Scope
