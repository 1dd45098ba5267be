import Mathlib.Data.List.Induction
import Caret.Proofs.Lossless
import Caret.Server
/-!
# What a session knows of the documents

A document that an editor opens or changes is parsed, stored in place of what was stored under its
name, and reported on; closing it forgets it. So as long as every change carries one text, a session
holds for each open document the text that the editor has, with its tree, and the diagnostics that
were sent last for it are those of that tree. Of several texts in one change the first is taken,
where the editor has the last.

Results:
* `held`, `shown`: the text that an editor has in a document, and the diagnostics that it shows.
* `handle_other`: a message about one document leaves the others as they are.
* `Knows.handle`: what one message does to what is known of a document.
* `Session.follows`: after any messages what is known of each document is what the editor has.
* `Session.stale`: a change with two texts, after which it is not.
-/
namespace Caret.Server

variable {g : Grammar} {s : Session} {m : Message} {ms : List Message} {uri : String}

/-! ## The editor's side -/

/-- The document that the message opens, changes or closes. -/
def Message.about? : Message → Option String
  | opened name .. | changed name .. | closed name => some name
  | _ => none

/-- The text that the editor has in a document after a message, with its version, given what it had
before. Of several texts in a change the last one stays. A change of a document that is not open,
which the protocol does not allow, counts as opening it. -/
def Message.edit (uri : String) (held : Option (Int × Text)) : Message → Option (Int × Text)
  | opened name version text => if name = uri then some (version, text) else held
  | changed name version texts =>
    if name = uri then (texts.getLast?.map fun text => (version, text)).or held else held
  | closed name => if name = uri then none else held
  | _ => held

/-- The text that the editor has in a document after these messages: the last one that it sent,
unless it has closed the document since. -/
def held (uri : String) (ms : List Message) : Option (Int × Text) :=
  ms.foldl (Message.edit uri) none

/-- The diagnostics of a document, and of which version, after a notice. -/
def Notice.show (uri : String) (shown : Option (List Diagnostic × Option Int)) :
    Notice → Option (List Diagnostic × Option Int)
  | diagnostics name found version => if name = uri then some (found, version) else shown
  | log _ => shown

/-- The diagnostics that the editor shows for a document: those that were sent last. -/
def shown (uri : String) (replies : List Reply) : Option (List Diagnostic × Option Int) :=
  (replies.flatMap (·.sent)).foldl (Notice.show uri) none

theorem held_concat : held uri (ms ++ [m]) = m.edit uri (held uri ms) := by
  simp [held]

theorem shown_concat (replies : List Reply) (reply : Reply) :
    shown uri (replies ++ [reply]) = reply.sent.foldl (Notice.show uri) (shown uri replies) := by
  simp [shown]

namespace Session

/-! ## One message -/

theorem document?_erase (s : Session) (uri other : String) :
    (s.erase uri).document? other = if other = uri then none else s.document? other := by
  by_cases own : other = uri
  · rw [if_pos own, own]
    refine List.lookup_eq_none_iff.2 fun d hd => ?_
    have away := (List.mem_filter.1 hd).2
    simp only [bne_iff_ne, ne_eq, eq_comm (a := d.1)] at away
    simpa using away
  · rw [if_neg own]
    exact lookup_filter_ne own s.documents

theorem take_document? (name : String) (version : Int) (text : Text) :
    (s.take g name version text).1.document? uri = if uri = name
      then some ⟨text, (analyze g text).1, version⟩ else s.document? uri :=
  document?_store ..

/-- A message about one document leaves the others as they are. -/
theorem handle_other (other : m.about? ≠ some uri) :
    (s.handle g m).1.document? uri = s.document? uri ∧
      ∀ shown, (s.handle g m).2.sent.foldl (Notice.show uri) shown = shown := by
  have apart {name : String} (h : some name ≠ some uri) : name ≠ uri := fun same => h (same ▸ rfl)
  have taken {name : String} (h : name ≠ uri) (version : Int) (text : Text) :
      (s.take g name version text).1.document? uri = s.document? uri ∧
        ∀ shown, (s.take g name version text).2.foldl (Notice.show uri) shown = shown :=
    ⟨by rw [take_document?, if_neg h.symm], fun shown => if_neg h⟩
  unfold handle
  split
  · exact ⟨rfl, fun _ => rfl⟩
  cases m with
  | opened name version text => exact taken (apart other) version text
  | changed name version texts =>
    cases texts with
    | nil => exact ⟨rfl, fun _ => rfl⟩
    | cons text _ => exact taken (apart other) version text
  | closed name =>
    exact ⟨by rw [serve, document?_erase, if_neg (apart other).symm], fun _ => if_neg (apart other)⟩
  | handshake | ready | completion | definition | shutdown => exact ⟨rfl, fun _ => rfl⟩

/-- What is known of a document is what the editor has: it is stored with its tree, and the
diagnostics of the tree are shown. -/
def Knows (g : Grammar) (uri : String) (s : Session)
    (shown : Option (List Diagnostic × Option Int)) : Option (Int × Text) → Prop
  | none => s.document? uri = none
  | some (version, text) => ∃ m, Module.parse g text = .ok m ∧
      s.document? uri = some ⟨text, some m, version⟩ ∧ shown = some (diagnose m, some version)

/-- A text that was taken in is known. -/
theorem knows_take (ok : g.Consistent) (lay : g.Layered) (version : Int) (text : Text)
    (shown : Option (List Diagnostic × Option Int)) :
    Knows g uri (s.take g uri version text).1
      ((s.take g uri version text).2.foldl (Notice.show uri) shown) (some (version, text)) := by
  obtain ⟨m, parsed, -⟩ := Module.parse_of_layered ok lay text
  have analyzed : analyze g text = (some m, diagnose m) := by rw [analyze, parsed]
  refine ⟨m, parsed, by rw [take_document?, if_pos rfl, analyzed], ?_⟩
  rw [take, analyzed]
  exact if_pos rfl

/-- A message with one text at most keeps what is known of a document in step with the editor. -/
theorem Knows.handle {shown : Option (List Diagnostic × Option Int)} {held : Option (Int × Text)}
    (ok : g.Consistent) (lay : g.Layered) (h : Knows g uri s shown held)
    (running : s.isShutDown = false)
    (single : ∀ name version texts, m = .changed name version texts → texts.length ≤ 1) :
    Knows g uri (s.handle g m).1 ((s.handle g m).2.sent.foldl (Notice.show uri) shown)
      (m.edit uri held) := by
  by_cases own : m.about? = some uri
  · rw [Session.handle, if_neg (by simp [running])]
    cases m with
    | opened name version text =>
      obtain rfl : name = uri := Option.some.inj own
      rw [Message.edit, if_pos rfl]
      exact knows_take ok lay version text shown
    | changed name version texts =>
      obtain rfl : name = uri := Option.some.inj own
      rw [Message.edit, if_pos rfl]
      match texts, single _ _ _ rfl with
      | [], _ => exact h
      | [text], _ => exact knows_take ok lay version text shown
    | closed name =>
      obtain rfl : name = uri := Option.some.inj own
      rw [Message.edit, if_pos rfl]
      exact (document?_erase s name name).trans (if_pos rfl)
    | handshake | ready | completion | definition | shutdown => cases own
  · obtain ⟨same, unseen⟩ := handle_other (g := g) (s := s) own
    have untouched : m.edit uri held = held := by
      have apart {name : String} (h : some name ≠ some uri) : name ≠ uri :=
        fun same => h (same ▸ rfl)
      cases m with
      | opened | changed | closed => exact if_neg (apart own)
      | handshake | ready | completion | definition | shutdown => rfl
    rw [unseen, untouched]
    cases held with
    | none => exact same.trans h
    | some held =>
      obtain ⟨m', parsed, stored, diagnostics⟩ := h
      exact ⟨m', parsed, same.trans stored, diagnostics⟩

/-! ## Any messages -/

theorem run_concat (s : Session) (ms : List Message) (m : Message) : s.run g (ms ++ [m]) =
    (((s.run g ms).1.handle g m).1, (s.run g ms).2 ++ [((s.run g ms).1.handle g m).2]) := by
  induction ms generalizing s with
  | nil => rfl
  | cons m' ms ih =>
    rw [List.cons_append, run, run]
    dsimp only
    rw [ih, List.cons_append]

/-- A session goes on until the shutdown. -/
theorem run_running (running : s.isShutDown = false) (open_ : .shutdown ∉ ms) :
    (s.run g ms).1.isShutDown = false := by
  induction ms using List.reverseRecOn with
  | nil => exact running
  | append_singleton ms m ih =>
    simp only [List.mem_append, List.mem_singleton, not_or] at open_
    have before := ih open_.1
    rw [run_concat, handle, if_neg (by simp [before])]
    cases m with
    | shutdown => exact absurd rfl open_.2
    | changed name version texts => cases texts <;> exact before
    | opened | closed | handshake | ready | completion | definition => exact before

/-- With one text in a change at most, what is known of a document after any messages is what the
editor has. -/
theorem knows_run (ok : g.Consistent) (lay : g.Layered) (open_ : .shutdown ∉ ms)
    (single : ∀ name version texts, .changed name version texts ∈ ms → texts.length ≤ 1) :
    Knows g uri (new.run g ms).1 (shown uri (new.run g ms).2) (held uri ms) := by
  induction ms using List.reverseRecOn with
  | nil => rfl
  | append_singleton ms m ih =>
    simp only [List.mem_append, List.mem_singleton, not_or] at open_ single
    have before := ih open_.1 fun name version texts h => single name version texts (.inl h)
    rw [run_concat, shown_concat, held_concat]
    exact before.handle ok lay (run_running rfl open_.1)
      fun name version texts h => single name version texts (.inr h.symm)

/-- With the Python grammar take any messages before the shutdown, each change with one text at
most. Then a document that the editor has not open is not stored, and one that it has open is stored
with the text that the editor has and with the tree of that text, and the diagnostics sent last for
it are those of the tree. A message about one document leaves the others as they are. -/
theorem follows (ms : List Message) (open_ : .shutdown ∉ ms)
    (single : ∀ name version texts, .changed name version texts ∈ ms → texts.length ≤ 1) :
    ∃ g, Grammar.python = .ok g ∧ ∀ uri,
    (held uri ms = none → (new.run g ms).1.document? uri = none) ∧
    (∀ version text, held uri ms = some (version, text) → ∃ m, Module.parse g text = .ok m ∧
      (new.run g ms).1.document? uri = some ⟨text, some m, version⟩ ∧
      shown uri (new.run g ms).2 = some (diagnose m, some version)) ∧
    ∀ m, m.about? ≠ some uri →
      (new.run g (ms ++ [m])).1.document? uri = (new.run g ms).1.document? uri := by
  refine ⟨_, Grammar.python_eq, fun uri => ?_⟩
  have known : Knows Grammar.pythonTables uri _ _ _ :=
    knows_run Grammar.python_consistent Grammar.python_layered open_ single
  refine ⟨fun none => ?_, fun version text some => ?_, fun m other => ?_⟩
  · rwa [none] at known
  · rwa [some] at known
  · rw [run_concat]
    exact (handle_other other).1

/-- Two documents are opened, one of them is changed and the other closed. -/
theorem follows_two : ∃ g, Grammar.python = .ok g ∧ ∃ ms, .shutdown ∉ ms ∧
    (∀ name version texts, .changed name version texts ∈ ms → texts.length ≤ 1) ∧
    (new.run g ms).1.document? "b.py" = none ∧
    ∃ m, Module.parse g "y = 1\n".toList = .ok m ∧
      (new.run g ms).1.document? "a.py" = some ⟨"y = 1\n".toList, some m, 2⟩ ∧
      shown "a.py" (new.run g ms).2 = some (diagnose m, some 2) := by
  let ms : List Message := [.opened "a.py" 1 "x".toList, .opened "b.py" 1 ")".toList,
    .changed "a.py" 2 ["y = 1\n".toList], .closed "b.py"]
  have open_ : .shutdown ∉ ms := by simp [ms]
  have single : ∀ name version texts, .changed name version texts ∈ ms → texts.length ≤ 1 := by
    rintro name version texts h
    simp only [ms, List.mem_cons, List.not_mem_nil, reduceCtorEq, Message.changed.injEq,
      false_or, or_false] at h
    rw [h.2.2]
    decide
  obtain ⟨g, python, knows⟩ := follows ms open_ single
  obtain ⟨-, kept, -⟩ := knows "a.py"
  obtain ⟨gone, -, -⟩ := knows "b.py"
  exact ⟨g, python, ms, open_, single, gone rfl, kept 2 _ rfl⟩

/-- After a change with two texts the first is stored, and the editor has the second. -/
theorem stale : ∃ g, Grammar.python = .ok g ∧ ∃ ms : List Message,
    held "a.py" ms = some (2, ")\n".toList) ∧
    ∃ m, Module.parse g "y\n".toList = .ok m ∧
      (new.run g ms).1.document? "a.py" = some ⟨"y\n".toList, some m, 2⟩ := by
  obtain ⟨m, parsed, -⟩ := Module.parse_of_layered Grammar.python_consistent
    Grammar.python_layered "y\n".toList
  let change : Message := .changed "a.py" 2 ["y\n".toList, ")\n".toList]
  refine ⟨_, Grammar.python_eq, [.opened "a.py" 1 "x\n".toList, change], rfl, m, parsed, ?_⟩
  have running : (new.run Grammar.pythonTables [.opened "a.py" 1 "x\n".toList]).1.isShutDown =
    false := run_running rfl (by simp)
  have split : [.opened "a.py" 1 "x\n".toList, change] =
    [Message.opened "a.py" 1 "x\n".toList] ++ [change] := rfl
  rw [split, run_concat, handle, running, if_neg Bool.false_ne_true]
  simp only [change, serve, take_document?, if_true]
  rw [analyze, parsed]

end Session

end Caret.Server
