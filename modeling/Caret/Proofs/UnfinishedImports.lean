import Caret.Completion.Imports
import Caret.Proofs.ImportFrames
/-!
# Unfinished imports of one line

An import that ends with its module path, or with a dot behind it, is no statement yet: the line end
has no place, and recovery sets the import aside. What is then resolved at the end of the line is
the path as it was written: its names where they stand, and as many dots as there are in front.

Results:
* `addFrom_front`, `addFromPart_path`, `addDotted_path`: what dots and names add to the context.
* `resolves_open`: what is resolved at the end of a line is read off the frames left open there.
* `unfinished_import`: what is resolved for an `import` with a dot behind its path, and for a `from`
  with dots, a path, and a dot behind it or not.
-/
namespace Caret.Completion

open Caret.Parser Grammar

variable {faces : List (TokenKind × Text)} {column : Nat} {ts : List Token} {t : Token}
  {names : List Text} {n : Text}

/-! ## What is resolved -/

/-- The names of a path that is written from this column on. -/
def namesFrom (column : Nat) : List Text → List PathName
  | [] => []
  | n :: names => ⟨n, ⟨1, column⟩⟩ :: namesFrom (column + n.length + 1) names

/-- The names of a path are those that were written, also if a dot follows. -/
theorem pathNames_laid (h : ts.map Token.bare = laid column (pathFaces (n :: names)))
    (last : List Tree) (short : last = [] ∨ ∃ t, last = [t]) :
    pathNames (plainLeaves ts ++ last) = namesFrom column (n :: names) := by
  unfold pathNames
  induction names generalizing n column ts with
  | nil =>
    obtain ⟨t, rfl, -, value, start⟩ := laid_eq_singleton h
    rw [← value, namesFrom, namesFrom, ← start]
    rcases short with rfl | ⟨t, rfl⟩ <;> rfl
  | cons m names ih =>
    obtain ⟨t, us, rfl, -, value, start, h⟩ := laid_eq_cons h
    obtain ⟨dot, vs, rfl, -, -, -, h⟩ := laid_eq_cons h
    have next : _ = namesFrom (column + n.length + 1) (m :: names) := ih h
    rw [namesFrom, ← start, ← next, ← value]
    rfl

/-- The names of a path start at or before the column behind it. -/
theorem start_namesFrom : ∀ x ∈ namesFrom column names,
    x.start ≤ ⟨1, column + (written (pathFaces names)).length⟩ := by
  induction names using pathFaces.induct generalizing column with
  | case1 => simp [namesFrom]
  | case2 n =>
    intro x hx
    obtain rfl := List.mem_singleton.1 hx
    exact .inr ⟨rfl, Nat.le_add_right _ _⟩
  | case3 n m names ih =>
    intro x hx
    rw [pathFaces, written_cons, written_cons, List.length_append, List.length_append,
      ← Nat.add_assoc, ← Nat.add_assoc]
    rcases List.mem_cons.1 hx with rfl | hx
    · exact .inr ⟨rfl, by simp only [Nat.add_assoc]; exact Nat.le_add_right _ _⟩
    · exact ih x hx

theorem upTo_namesFrom {stop : Nat} (upTo : column + (written (pathFaces names)).length ≤ stop) :
    ImportContext.upTo ⟨1, stop⟩ (namesFrom column names) = namesFrom column names :=
  List.filter_eq_self.2 fun x hx =>
    decide_eq_true (Position.le_trans (start_namesFrom x hx) (.inr ⟨rfl, upTo⟩))

namespace ImportContext

variable {c : ImportContext} {pos : Position} {d stop : Nat}

/-- All children that start before the position are taken in. -/
theorem addFrom_before {nodes : List Tree} (before : ∀ t ∈ nodes, t.start < pos) :
    addFrom pos nodes c = nodes.foldl (addFromPart pos) c := by
  rw [addFrom, List.takeWhile_eq_self_iff.2 fun t ht => decide_eq_true (before t ht)]

/-- Dots count for the level. -/
theorem foldl_dots (dots : ∀ t ∈ ts, t.kind = .op .dot ∨ t.kind = .op .ellipsis) :
    (plainLeaves ts).foldl (addFromPart pos) c =
      { c with level := c.level + (ts.flatMap (·.value)).length } := by
  induction ts generalizing c with
  | nil => rfl
  | cons t ts ih =>
    have one : addFromPart pos c (.leaf (plainLeaf t)) =
        { c with level := c.level + t.value.length } := by
      rcases dots t List.mem_cons_self with kind | kind <;>
        simp [addFromPart, plainLeaf, kind, LeafKind.ofToken]
    have rest := fun u hu => dots u (List.mem_cons_of_mem t hu)
    show (plainLeaves ts).foldl (addFromPart pos) (addFromPart pos c (.leaf (plainLeaf t))) = _
    rw [one, ih rest, List.flatMap_cons, List.length_append, Nat.add_assoc]

/-- A closed path adds its names: a single one is a leaf, several are a branch. -/
theorem addFromPart_path (h : ts.map Token.bare = laid column (pathFaces (n :: names)))
    (upTo : column + (written (pathFaces (n :: names))).length ≤ stop) :
    addFromPart ⟨1, stop⟩ c (Frame.close ⟨pythonRule "dotted_name", 1, plainLeaves ts⟩) =
      c.addNames (namesFrom column (n :: names)) := by
  have own := importTables.names "dotted_name" (by decide)
  cases names with
  | nil =>
    obtain ⟨t, rfl, kind, value, start⟩ := laid_eq_singleton h
    have closed : Frame.close ⟨pythonRule "dotted_name", 1, plainLeaves [t]⟩ =
        .leaf (plainLeaf t) := by
      simp [Frame.close, plainLeaves, own, Frame.keepsSingleChild]
    rw [closed, namesFrom, namesFrom, ← value, ← start]
    simp [addFromPart, plainLeaf, kind, LeafKind.ofToken, PathName.ofLeaf]
  | cons m names =>
    have read := pathNames_laid h [] (.inl rfl)
    rw [List.append_nil] at read
    obtain ⟨t, us, rfl, -, -, -, h⟩ := laid_eq_cons h
    obtain ⟨dot, vs, rfl, -⟩ := laid_eq_cons h
    have closed : Frame.close ⟨pythonRule "dotted_name", 1, plainLeaves (t :: dot :: vs)⟩ =
        .branch "dotted_name" (plainLeaves (t :: dot :: vs)) := by
      simp [Frame.close, plainLeaves, own]
    rw [closed, addFromPart, if_pos (beq_self_eq_true _), read, upTo_namesFrom upTo]

/-- A path with a dot behind it adds its names and is unfinished. -/
theorem addDotted_path (h : ts.map Token.bare = laid column (pathFaces (n :: names)))
    (upTo : column + (written (pathFaces (n :: names))).length ≤ stop) (dot : t.value = ['.']) :
    addDotted ⟨1, stop⟩ (plainLeaves ts ++ plainLeaves [t]) c =
      { c.addNames (namesFrom column (n :: names)) with unfinishedDotted := true } := by
  have last : (plainLeaves ts ++ plainLeaves [t]).getLast?.any (·.spells ".") = true := by
    simp [plainLeaves, Tree.spells, Tree.value, plainLeaf, dot]
  have read := pathNames_laid h (plainLeaves [t]) (.inr ⟨_, rfl⟩)
  rw [addDotted, read, upTo_namesFrom upTo, if_pos last]

/-- What the word and the dots of a `from` add to nothing; what is behind them comes after it. -/
theorem addFrom_front {more : List Tree} (h : ts.map Token.bare = laid 5 (dotFaces d))
    (upTo : 5 + d ≤ stop) (before : ∀ t ∈ more, t.start < ⟨1, stop⟩) :
    addFrom ⟨1, stop⟩ (.leaf ImportRule.importFrom.leaf :: (plainLeaves ts ++ more)) .empty =
      more.foldl (addFromPart ⟨1, stop⟩) ⟨[], d, true, false⟩ := by
  have behind := laid_start h fun face hf => (mem_dotFaces hf).2
  have early : ∀ t ∈ ts, t.start < ⟨1, stop⟩ := by
    intro t ht
    have := behind t ht
    rw [dots_length] at this
    simp only [Position.lt_def] at this ⊢
    omega
  rw [addFrom_before, List.foldl_cons, List.foldl_append]
  · show more.foldl _ ((plainLeaves ts).foldl _ ImportContext.empty) = _
    rw [foldl_dots (kind_dots h), laid_written h, dots_length]
    simp [ImportContext.empty]
  · intro t ht
    rcases List.mem_cons.1 ht with rfl | ht
    · exact .inr ⟨rfl, by show 0 < stop; omega⟩
    · rcases List.mem_append.1 ht with ht | ht
      · obtain ⟨u, hu, rfl⟩ := List.mem_map.1 ht
        exact early u hu
      · exact before t ht

end ImportContext

/-! ## The end of the line -/

/-- At the end of the line, with or without a line end behind it, this is resolved. -/
def Resolves (g : Grammar) (line : Text) (c : ImportContext) : Prop :=
  ∀ ending, ending = [] ∨ ending = ['\n'] → ∃ m, Module.parse g (line ++ ending) = .ok m ∧
    importAt m ⟨1, line.length⟩ = .resolved c

theorem completed_line {line ending : Text} (flat : '\n' ∉ line)
    (h : ending = [] ∨ ending = ['\n']) :
    Module.completed (line ++ ending) = line ++ ['\n'] := by
  rcases h with rfl | rfl
  · have open_ : Module.endsLine line = false := by
      rw [Module.endsLine, beq_eq_false_iff_ne]
      exact fun last => flat (List.mem_of_getLast? last)
    rw [List.append_nil, Module.completed, open_, if_neg Bool.false_ne_true]
  · have ends : Module.endsLine (line ++ ['\n']) = true := by simp [Module.endsLine]
    rw [Module.completed, if_pos ends]

/-- What is resolved in the first broken statement, if this is an import around the position. -/
theorem importAt_first {m : Module} {pos : Position} {s : BrokenStatement}
    {rest : List BrokenStatement} (broken : m.broken = s :: rest)
    (at_ : isImportAt s pos = true) :
    importAt m pos = resolveImport pos .empty s.frames := by
  simp [importAt, broken, at_, importContext]

/-- An import at the start of a source is around the start of the token that sets it aside. -/
theorem isImportAt_setAside {i : ImportRule} {state stop : Nat} {children : List Tree}
    {inner : List Frame} (start : t.start = ⟨1, stop⟩) (behind : 0 < stop) :
    isImportAt (setAside t (i.frame state children :: inner)) ⟨1, stop⟩ = true := by
  have title : (setAside t (i.frame state children :: inner)).title = i.name := i.frame_name
  have begins : (setAside t (i.frame state children :: inner)).start = ⟨1, 0⟩ := rfl
  have ends : (setAside t (i.frame state children :: inner)).stop = ⟨1, stop⟩ := start
  have rules : importRules.contains i.name = true := by cases i <;> decide
  simp [isImportAt, title, begins, ends, rules, -List.contains_eq_mem, Position.lt_def,
    Position.le_def, behind]

/-- What is resolved in an import that its line end leaves open is read off its frames. -/
theorem resolves_open {i : ImportRule} {c : ImportContext}
    (spelled : Spelled (faces ++ [(.newline, ['\n'])]))
    (opens : ∀ ts stop, ts.map Token.bare = laid (i.word.length + 1) faces →
      i.word.length + 1 + (written faces).length = stop →
      ∃ inner children, LeavesOpen i ts inner children ∧ resolveImport ⟨1, stop⟩ .empty
        ((i.name, .leaf i.leaf :: children) :: inner.reverse.map record) = .resolved c) :
    Resolves pythonTables (i.word ++ ' ' :: written faces) c := by
  intro ending hending
  have flat : '\n' ∉ i.word ++ ' ' :: written faces := by
    have word : '\n' ∉ i.word := by cases i <;> decide
    simp [word, flat_written spelled]
  have length : (i.word ++ ' ' :: written faces).length =
      i.word.length + 1 + (written faces).length := by
    rw [List.length_append, List.length_cons]
    omega
  have whole : i.word ++ ' ' :: written faces ++ ['\n'] =
      i.word ++ ' ' :: written (faces ++ [(.newline, ['\n'])]) := by simp
  obtain ⟨ts, more, tokens, laid⟩ := tokenize_line i.spells spelled
  obtain ⟨us, vs, rfl, path, last⟩ := laid_eq_append laid
  obtain ⟨t, rfl, kind, -, start⟩ := laid_eq_singleton last
  obtain ⟨inner, children, opens, resolved⟩ := opens us _ path rfl
  obtain ⟨stack, state, shifted, refused⟩ := opens.refused
  rw [← whole, ← completed_line flat hending, ← List.cons_append, List.append_assoc _ [t],
    List.singleton_append] at tokens
  obtain ⟨flat, class_, -⟩ := classify_plain kind (by decide : (_, 2) ∈ importTokens) nofun
  obtain ⟨m, rest, parsed, broken⟩ := Module.parse_sets_aside python_consistent python_layered
    tokens ((stacks_word i).append shifted) flat class_ refused (aboveSource_import opens.inside)
  refine ⟨m, parsed, ?_⟩
  rw [length, importAt_first broken (isImportAt_setAside start (by omega)), ← resolved,
    ← i.frame_name]
  rfl

/-! ## Every path -/

variable {d : Nat}

/-- A dot behind a path, and the line end. -/
theorem spelled_dotted (own : ∀ m ∈ n :: names, SpellsName m) :
    Spelled (pathFaces (n :: names) ++ [(.op .dot, ['.']), (.newline, ['\n'])]) := by
  refine spelled_path own (spelled_dot .lineEnd ?_ (by decide)) ?_
  · rintro c ⟨⟩
    rfl
  · rintro c ⟨⟩
    decide

/-- Dots before a path. -/
theorem spelled_relative (d : Nat) (own : SpellsName n)
    (h : Spelled (pathFaces (n :: names) ++ faces)) :
    Spelled (dotFaces d ++ (pathFaces (n :: names) ++ faces)) := by
  refine spelled_dots d h ?_
  obtain ⟨c, tail, first, start⟩ := written_path own names faces
  rw [first]
  rintro _ ⟨⟩
  exact ⟨Scanner.ne_of_isNameStart start (by decide), isDigit_of_isNameStart start⟩

/-- A closed tree starts where its first child does. -/
theorem start_close {rule : RuleTable} {state : Nat} {l : Leaf} {rest : List Tree} :
    (Frame.close ⟨rule, state, .leaf l :: rest⟩).start = l.start := by
  rcases Frame.close_cases ⟨rule, state, .leaf l :: rest⟩ with ⟨only, single, -, closed⟩ |
    ⟨closed, -⟩ <;> rw [closed]
  · rw [← (List.cons.inj single).1]
    rfl
  · rfl

theorem start_path (h : ts.map Token.bare = laid column (pathFaces (n :: names))) :
    (Frame.close ⟨pythonRule "dotted_name", 1, plainLeaves ts⟩).start = ⟨1, column⟩ := by
  obtain ⟨faces, first⟩ := pathFaces_cons n names
  rw [first] at h
  obtain ⟨t, us, rfl, -, -, start, -⟩ := laid_eq_cons h
  rw [← start]
  exact start_close

theorem path_wide (own : SpellsName n) (names : List Text) :
    0 < (written (pathFaces (n :: names))).length := by
  obtain ⟨c, tail, first, -⟩ := written_path own names []
  rw [List.append_nil] at first
  rw [first]
  exact Nat.succ_pos _

theorem length_from : ImportRule.importFrom.word.length + 1 = 5 := rfl

theorem length_import : ImportRule.importName.word.length + 1 = 7 := rfl

/-- Only dots behind `from`. -/
theorem resolves_dots (d : Nat) :
    Resolves pythonTables (ImportRule.importFrom.word ++ ' ' :: written (dotFaces d))
      ⟨[], d, true, false⟩ := by
  have spelled : Spelled (dotFaces d ++ [(.newline, ['\n'])]) := by
    refine spelled_dots d .lineEnd ?_
    rintro c ⟨⟩
    decide
  refine resolves_open spelled fun ts stop h width =>
    ⟨_, _, leavesOpen_dots (kind_dots h), ?_⟩
  rw [length_from, dots_length] at width
  have front : ImportContext.addFrom ⟨1, stop⟩ _ .empty = _ :=
    ImportContext.addFrom_front h width.le (List.forall_mem_nil _)
  rw [List.append_nil] at front
  exact congrArg ImportResolution.resolved front

/-- A path behind `from` and dots. -/
theorem resolves_path (d : Nat) (own : ∀ m ∈ n :: names, IsIdentifier m) :
    Resolves pythonTables
      (ImportRule.importFrom.word ++ ' ' :: written (dotFaces d ++ pathFaces (n :: names)))
      ⟨namesFrom (5 + d) (n :: names), d, true, false⟩ := by
  have plain := fun m hm => (own m hm).toSpellsName
  have spelled := spelled_relative d (plain n List.mem_cons_self)
    (spelled_path plain .lineEnd (by rintro c ⟨⟩; decide))
  rw [← List.append_assoc] at spelled
  refine resolves_open spelled fun ts stop h width => ?_
  obtain ⟨ds, ps, rfl, dots, path⟩ := laid_eq_append h
  refine ⟨_, _, leavesOpen_path (kind_dots dots) (fun m hm => (own m hm).free) path, ?_⟩
  rw [length_from, dots_length] at path
  rw [length_from, written_append, List.length_append, dots_length] at width
  have wide := path_wide (plain n List.mem_cons_self) names
  have before : ∀ t ∈ [Frame.close ⟨pythonRule "dotted_name", 1, plainLeaves ps⟩],
      t.start < ⟨1, stop⟩ := by
    intro t ht
    rw [List.mem_singleton.1 ht, start_path path]
    exact .inr ⟨rfl, by dsimp only; omega⟩
  have front := ImportContext.addFrom_front dots (by omega) before
  rw [List.foldl_cons, List.foldl_nil, ImportContext.addFromPart_path path (by omega)] at front
  exact congrArg ImportResolution.resolved front

/-- A path and a dot behind `from` and dots. -/
theorem resolves_path_dot (d : Nat) (own : ∀ m ∈ n :: names, IsIdentifier m) :
    Resolves pythonTables (ImportRule.importFrom.word ++ ' ' :: written
        (dotFaces d ++ (pathFaces (n :: names) ++ [(.op .dot, ['.'])])))
      ⟨namesFrom (5 + d) (n :: names), d, true, true⟩ := by
  have spelled := spelled_relative d (own n List.mem_cons_self).toSpellsName
    (spelled_dotted fun m hm => (own m hm).toSpellsName)
  have whole : dotFaces d ++ (pathFaces (n :: names) ++ [(.op .dot, ['.']), (.newline, ['\n'])]) =
      dotFaces d ++ (pathFaces (n :: names) ++ [(.op .dot, ['.'])]) ++ [(.newline, ['\n'])] := by
    simp
  refine resolves_open (whole ▸ spelled) fun ts stop h width => ?_
  obtain ⟨ds, us, rfl, dots, h⟩ := laid_eq_append h
  obtain ⟨ps, vs, rfl, path, last⟩ := laid_eq_append h
  obtain ⟨t, rfl, kind, value, -⟩ := laid_eq_singleton last
  rw [← List.append_assoc]
  refine ⟨_, _, leavesOpen_from_dot (kind_dots dots) (fun m hm => (own m hm).free) path kind, ?_⟩
  rw [length_from, dots_length] at path
  rw [length_from, written_append, List.length_append, dots_length, written_append,
    List.length_append] at width
  have front : ImportContext.addFrom ⟨1, stop⟩ _ .empty = _ :=
    ImportContext.addFrom_front dots (by omega) (List.forall_mem_nil _)
  rw [List.append_nil] at front
  have frame : record ⟨pythonRule "dotted_name", 0, plainLeaves ps ++ plainLeaves [t]⟩ =
      ("dotted_name", plainLeaves ps ++ plainLeaves [t]) :=
    congrArg (·, _) (importTables.names _ (by decide))
  rw [List.reverse_singleton, List.map_singleton, frame]
  show resolveImport _ (ImportContext.addFrom _ _ _) _ = _
  rw [front]
  exact congrArg ImportResolution.resolved (ImportContext.addDotted_path path (by omega) value)

/-- A path and a dot behind `import`. -/
theorem resolves_name_dot (own : ∀ m ∈ n :: names, IsIdentifier m) :
    Resolves pythonTables (ImportRule.importName.word ++ ' ' :: written
        (pathFaces (n :: names) ++ [(.op .dot, ['.'])]))
      ⟨namesFrom 7 (n :: names), 0, true, true⟩ := by
  have spelled := spelled_dotted fun m hm => (own m hm).toSpellsName
  have whole : pathFaces (n :: names) ++ [(.op .dot, ['.']), (.newline, ['\n'])] =
      pathFaces (n :: names) ++ [(.op .dot, ['.'])] ++ [(.newline, ['\n'])] := by
    simp
  refine resolves_open (whole ▸ spelled) fun ts stop h width => ?_
  obtain ⟨ps, us, rfl, path, last⟩ := laid_eq_append h
  obtain ⟨t, rfl, kind, value, -⟩ := laid_eq_singleton last
  refine ⟨_, _, leavesOpen_name_dot (fun m hm => (own m hm).free) path kind, ?_⟩
  rw [length_import] at path
  rw [length_import, written_append, List.length_append] at width
  have past : (Tree.leaf ImportRule.importName.leaf).covers ⟨1, stop⟩ = false := by
    have ends : (Tree.leaf ImportRule.importName.leaf).stop = ⟨1, 6⟩ := rfl
    simp only [Tree.covers, ends, Position.le_def, Bool.and_eq_false_imp, decide_eq_false_iff_not]
    omega
  have frames : [(⟨pythonRule "dotted_name", 0, plainLeaves ps ++ plainLeaves [t]⟩ : Frame),
      ⟨pythonRule "dotted_as_name", 1, []⟩, ⟨pythonRule "dotted_as_names", 1, []⟩].reverse.map
        record = [("dotted_as_names", []), ("dotted_as_name", []),
          ("dotted_name", plainLeaves ps ++ plainLeaves [t])] := by
    show [((pythonRule "dotted_as_names").name, _), ((pythonRule "dotted_as_name").name, _),
      ((pythonRule "dotted_name").name, _)] = _
    rw [importTables.names "dotted_as_names" (by decide),
      importTables.names "dotted_as_name" (by decide),
      importTables.names "dotted_name" (by decide)]
  have read : ImportContext.addDotted ⟨1, stop⟩ _ .empty = _ :=
    ImportContext.addDotted_path path (by omega) value
  rw [frames]
  show (if (Tree.leaf ImportRule.importName.leaf).covers ⟨1, stop⟩ then .onImportKeyword
    else resolveImport ⟨1, stop⟩ .empty _) = _
  rw [past, if_neg Bool.false_ne_true]
  exact congrArg ImportResolution.resolved read

/-- What is resolved at the end of a one-line import that breaks off: for `import` and a path with
a dot behind it, for `from`, dots and a path or none, and for these with a dot behind the path. The
names are those of the path, each where it starts, and the level is the number of dots before
it. -/
theorem unfinished_import : ∃ g, Grammar.python = .ok g ∧
    ∀ (d : Nat) (names : List Text), (∀ n ∈ names, IsIdentifier n) →
      (names ≠ [] → Resolves g ("import ".toList ++ ['.'].intercalate names ++ ['.'])
        ⟨namesFrom 7 names, 0, true, true⟩) ∧
      Resolves g ("from ".toList ++ List.replicate d '.' ++ ['.'].intercalate names)
        ⟨namesFrom (5 + d) names, d, true, false⟩ ∧
      (names ≠ [] →
        Resolves g ("from ".toList ++ List.replicate d '.' ++ ['.'].intercalate names ++ ['.'])
          ⟨namesFrom (5 + d) names, d, true, true⟩) := by
  refine ⟨pythonTables, python_eq, fun d names own => ?_⟩
  have importWord (text : Text) :
      "import ".toList ++ text = ImportRule.importName.word ++ ' ' :: text := rfl
  have fromWord (text : Text) :
      "from ".toList ++ text = ImportRule.importFrom.word ++ ' ' :: text := rfl
  rw [List.append_assoc, List.append_assoc, List.append_assoc, List.append_assoc, importWord,
    fromWord, fromWord, ← written_pathFaces, ← written_dotFaces]
  cases names with
  | nil =>
    refine ⟨fun none => absurd rfl none, ?_, fun none => absurd rfl none⟩
    simpa [pathFaces, namesFrom] using resolves_dots d
  | cons n names =>
    refine ⟨fun _ => ?_, ?_, fun _ => ?_⟩
    · simpa using resolves_name_dot own
    · simpa using resolves_path d own
    · simpa using resolves_path_dot d own

/-- Two names with a dot behind them, and behind four dots one name, and two with a dot behind. -/
theorem unfinished_import_relative : ∃ g, Grammar.python = .ok g ∧
    Resolves g "import a.b.".toList
      ⟨[⟨['a'], ⟨1, 7⟩⟩, ⟨['b'], ⟨1, 9⟩⟩], 0, true, true⟩ ∧
    Resolves g "from ....a".toList ⟨[⟨['a'], ⟨1, 9⟩⟩], 4, true, false⟩ ∧
    Resolves g "from ....a.b.".toList
      ⟨[⟨['a'], ⟨1, 9⟩⟩, ⟨['b'], ⟨1, 11⟩⟩], 4, true, true⟩ := by
  have own : ∀ n ∈ [['a'], ['b']], IsIdentifier n := by
    intro n hn
    rcases List.mem_pair.1 hn with rfl | rfl <;>
      exact ⟨⟨⟨_, _, rfl, by decide⟩, List.all_eq_true.1 (by decide)⟩, by decide⟩
  obtain ⟨g, tables, all⟩ := unfinished_import
  obtain ⟨dotted, -, relative⟩ := all 4 [['a'], ['b']] own
  obtain ⟨-, single, -⟩ := all 4 [['a']] fun n hn => own n (List.mem_append_left [['b']] hn)
  exact ⟨g, tables, dotted (by simp), single, relative (by simp)⟩

end Caret.Completion
