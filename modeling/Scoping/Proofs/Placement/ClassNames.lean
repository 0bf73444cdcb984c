import Scoping.Proofs.Nesting.Occurrences
import Scoping.Proofs.Placement.BindingNames

/-! Names that are bound twice at one place. Only a class declaration binds its name
so, once around the class and once in it. -/

namespace Scoping

/-- The name of a class declaration that the walk visits stands at a place. -/
def NamesClassAt (settings : Settings) (root : Node) (place : Location) : Prop :=
  ∃ past future inMethod node name, Arrives settings root past (.visit inMethod node) future ∧
    node.kind = "ClassDeclaration" ∧ node.child? "id" = some name ∧ name.location = place

variable {settings : Settings} {root node : Node} {past begun middle : List Event} {event next : Event}
  {inMethod : Bool} {tasks before between after first last : List Task} {binding again : Binding}

theorem Task.not_mem_of_bindings_eq_nil (h : bindings tasks = []) (hBinding : event.binding? = some binding) :
    .emit event ∉ tasks := by
  intro hMem
  have hThere := mem_bindings.2 ⟨event, hMem, hBinding⟩
  rw [h] at hThere
  cases hThere

/-- Work that binds two names. -/
theorem Task.bindings_two (hBinding : event.binding? = some binding) (hNext : next.binding? = some again) :
    bindings (before ++ .emit event :: (between ++ .emit next :: after)) =
      bindings before ++ binding :: (bindings between ++ again :: bindings after) := by
  simp [hBinding, hNext]

/-- The definition of the name of a class. -/
def Event.className (node name : Node) : Event :=
  .define .current name { kind := .className, name, node }

/-- A class that binds its name twice does so first of all, and once its own scope is
open. -/
theorem Walker.twice_in_class {walker : Walker} (hRole : Role.ofKind node.kind = .classDefinition)
    (hTasks : walker.tasks node = before ++ .emit event :: (between ++ .emit next :: after))
    (hBinding : event.binding? = some binding) (hNext : next.binding? = some again) :
    node.kind = "ClassDeclaration" ∧ ∃ name, node.child? "id" = some name ∧ before = [] ∧
      event = .className node name ∧ next = .className node name ∧
      between = walker.visitOptional node "superClass" ++ [.emit (.enter .classBody node false)] := by
  have hBindings := bindings_tasks walker node
  rw [hTasks, Task.bindings_two hBinding hNext, Scoping.bindings, hRole] at hBindings
  dsimp only at hBindings
  have hLength := congrArg List.length hBindings
  cases hName : node.child? "id" with
  | none => simp [Node.named, hName] at hLength
  | some name =>
      by_cases hKind : node.kind = "ClassDeclaration"
      · have hNames : defineClassName node = [.emit (.className node name)] := by
          simp [defineClassName, optional, hName, Event.className]
        have hAll : walker.tasks node = .emit (.className node name) ::
            ((walker.visitOptional node "superClass" ++ [.emit (.enter .classBody node false)]) ++
              ([.emit (.className node name)] ++ (walker.visitRequired node "body" ++
                [.emit (.leave node), .emit (.endDeclaration node)]))) := by
          rw [tasks, hRole]
          simp [defineClass, hKind, hNames]
        rw [hAll] at hTasks
        cases before with
        | cons task before =>
            -- The rest of the work binds just one name.
            have hRest := congrArg (List.length ∘ Task.bindings) (List.cons.inj hTasks).2
            simp [Task.bindings_two hBinding hNext, Event.binding?, Event.className] at hRest
            omega
        | nil =>
            obtain ⟨hFirst, hRest⟩ := List.cons.inj hTasks
            cases hFirst
            obtain ⟨ahead, behind, rfl, hInside⟩ := exists_of_append_eq hRest
              (Task.not_mem_of_bindings_eq_nil (by simp [Event.binding?]) hNext)
              (Task.not_mem_of_bindings_eq_nil (by simp [Event.binding?]) hNext)
            cases ahead with
            | nil =>
                cases hInside
                exact ⟨hKind, name, rfl, rfl, rfl, rfl, List.append_nil _⟩
            | cons task ahead => simp at hInside
      · simp [Node.named, hName, hKind] at hLength
        omega

/-- Of two events of the work at a node the later one comes after the other there. -/
theorem Occurs.exists_between (h : Occurs settings root past event begun inMethod node before after)
    (hLater : Occurs settings root (past ++ event :: middle) next begun inMethod node first last) :
    ∃ between, first = before ++ .emit event :: between ∧ after = between ++ .emit next :: last := by
  have hPast := hLater.past
  rw [h.past, List.append_assoc, List.append_cancel_left_eq] at hPast
  have hLength := congrArg List.length hPast
  rw [List.length_append, List.length_cons] at hLength
  rcases cases_of_append_cons_eq (h.split.symm.trans hLater.split) with
    ⟨more, rfl, -⟩ | ⟨rfl, -⟩ | ⟨between, rfl, rfl⟩
  · rw [List.flatMap_append, List.length_append] at hLength
    omega
  · omega
  · exact ⟨between, rfl, rfl⟩

/-- Where one identifier is bound twice, the node is a class declaration. -/
theorem Occurs.class_of_twice (hCustom : settings.keys.custom = []) (hNames : root.NamesOnce)
    (h : Occurs settings root past event begun inMethod node before
      (between ++ .emit next :: last))
    (hBinding : event.binding? = some binding) (hNext : next.binding? = some again)
    (hSame : binding.identifier.location = again.identifier.location) :
    node.kind = "ClassDeclaration" ∧ ∃ name, node.child? "id" = some name ∧ before = [] ∧
      event = .className node name ∧ next = .className node name ∧
      between = Walker.visitOptional { settings, inMethod } node "superClass" ++
        [.emit (.enter .classBody node false)] := by
  by_cases hRole : Role.ofKind node.kind = .classDefinition
  · exact Walker.twice_in_class hRole h.split hBinding hNext
  · -- Elsewhere all that is bound at a node stands apart.
    have hScattered := (layout_bindings hCustom (hNames.of_holds (.inr h.contains)) hRole).scattered
    rw [← Walker.bindings_tasks { settings, inMethod }, h.split, Task.bindings_two hBinding hNext,
      Binding.identifiers, List.map_append, List.map_cons, List.map_append, List.map_cons]
      at hScattered
    have hApart := (List.pairwise_cons.1 (List.pairwise_append.1 hScattered).2.1).1
      again.identifier (List.mem_append_right _ List.mem_cons_self)
    exact absurd (hSame ▸ List.suffix_refl _) hApart.1

/-- Two definitions are not by one identifier, or it is that of a class declaration, and
they go to different scopes. -/
def Note.Apart (settings : Settings) (root : Node) (note other : Note) : Prop :=
  note.identifier.location = other.identifier.location →
    note.scope ≠ other.scope ∧ NamesClassAt settings root note.identifier.location

instance : Std.Symm (Note.Apart settings root) :=
  ⟨fun _ _ h hSame => ⟨(h hSame.symm).1.symm, hSame ▸ (h hSame.symm).2⟩⟩

namespace SymbolTable

variable {table : SymbolTable} {tree : Tree} {later future : List Event} {note other : Note}

/-- A definition in the current scope. -/
theorem exists_head_of_note {name : Node} {found : Note} (h : Entry.note? settings
      (Trail.after settings past, .after past (.className node name)) = some found) :
    ∃ frame rest, Trail.after settings past = frame :: rest ∧ found.scope = frame.scope := by
  rcases Entry.note_cases h with ⟨destination, frame, hEvent, hFrame, hScope⟩ | ⟨_, _, hEvent, -⟩
  · obtain ⟨rfl, -, -⟩ := Event.define.inj hEvent
    obtain ⟨rest, hTrail⟩ := List.head?_eq_some_iff.1 hFrame
    exact ⟨frame, rest, hTrail, hScope⟩
  · cases hEvent

/-- The two definitions of a class declaration go to different scopes. -/
theorem scope_ne_of_class (hOk : analyze settings tree = .ok table) {name : Node}
    (hVisit : Arrives settings tree.root past (.visit inMethod node) future)
    (hTasks : Walker.tasks { settings, inMethod } node = .emit (.className node name) ::
      (Walker.visitOptional { settings, inMethod } node "superClass" ++
        .emit (.enter .classBody node false) :: after))
    (hLater : later = past ++ (.emit (.className node name) ::
      (Walker.visitOptional { settings, inMethod } node "superClass" ++
        [.emit (.enter .classBody node false)])).flatMap (Task.events settings))
    (hNote : Entry.note? settings (Trail.after settings past, .after past (.className node name)) =
      some note)
    (hOther : Entry.note? settings (Trail.after settings later, .after later (.className node name)) =
      some other) : note.scope ≠ other.scope := by
  obtain ⟨frame, rest, hTrail, hHere⟩ := exists_head_of_note hNote
  obtain ⟨inner, around, hInner, hThere⟩ := exists_head_of_note hOther
  -- What comes before the scope of the class leaves the scopes as they were.
  have hNeutral : Walker.Neutral node (.emit (.className node name) ::
      Walker.visitOptional { settings, inMethod } node "superClass") :=
    Walker.neutral_emit.2 ⟨trivial, Walker.neutral_visitOptional⟩
  have hEnter := hVisit.inside
    (show _ = (.emit (.className node name) ::
      Walker.visitOptional { settings, inMethod } node "superClass") ++ _ from hTasks)
  have hSame := Trail.after_append_of_neutral hNeutral
    ((tracks_stands settings tree.root).visit hVisit).1
  rw [← List.cons_append, List.flatMap_append, List.flatMap_singleton, Task.events_emit,
    ← List.append_assoc] at hLater
  rw [hLater, Trail.after_concat] at hInner
  obtain ⟨scope, hScope, -, -, hUpper⟩ := (chronicle_of_analyze_eq_ok hOk).openings.opened _
    (entry_mem_programLog hEnter) _ .classBody node ⟨rfl, false, rfl⟩
  obtain ⟨rfl, -⟩ := List.cons.inj hInner
  rw [hHere, hThere]
  intro hEq
  have hLt := (spec_of_analyze_eq_ok hOk).2.1.upper_lt _ frame.scope
    (by rw [upper?_of_getElem? hScope, hUpper, hSame, hTrail]; rfl)
  exact Nat.lt_irrefl _ (hEq ▸ hLt)

variable (hOk : analyze settings tree = .ok table)
  (hKeys : settings.options.childVisitorKeys = none) (hNames : tree.root.NamesOnce)

include hOk hKeys hNames

/-- Two definitions by one identifier are those of a class declaration, and go to
different scopes. -/
theorem pairwise_notes : ((programLog settings tree.root).filterMap (Entry.note? settings)).Pairwise
    (Note.Apart settings tree.root) := by
  refine List.pairwise_filterMap.2 (pairwise_programLog
    fun past event middle next future hEvents note hNote other hOther hSame => ?_)
  have hCustom := Settings.keys_eq_of_none hKeys
  have hBinding : event.binding? = _ := (Entry.binding_of_note? hNote).1
  have hAgain : next.binding? = _ := (Entry.binding_of_note? hOther).1
  have hName := Event.identifier?_of_binding? hBinding
  have hNext := Event.identifier?_of_binding? hAgain
  have hMore : programEvents settings tree.root = (past ++ event :: middle) ++ next :: future := by
    rw [hEvents, List.append_assoc, List.cons_append]
  obtain ⟨begun, inMethod, node, before, after, hOccurs⟩ :=
    (arrives_of_events hEvents).exists_occurs hName
  obtain ⟨started, flag, also, first, last, hLater⟩ := (arrives_of_events hMore).exists_occurs hNext
  obtain ⟨rfl, rfl, rfl⟩ := hOccurs.same hCustom hNames hLater hName hNext hSame
  obtain ⟨between, rfl, rfl⟩ := hOccurs.exists_between hLater
  obtain ⟨hKind, name, hId, rfl, rfl, rfl, rfl⟩ :=
    hOccurs.class_of_twice hCustom hNames hBinding hAgain hSame
  obtain ⟨rest, hVisit⟩ := hOccurs.visit
  have hPlace : name = note.identifier := congrArg Binding.identifier (Option.some.inj hBinding)
  refine ⟨?_, begun, rest, inMethod, node, name, hVisit, hKind, hId, congrArg Node.location hPlace⟩
  have hBegun : past = begun := by rw [hOccurs.past]; exact List.append_nil _
  subst hBegun
  exact scope_ne_of_class hOk hVisit (by simpa using hOccurs.split) hLater.past hNote hOther

end SymbolTable

end Scoping
