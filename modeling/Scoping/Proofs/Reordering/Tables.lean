import Scoping.Proofs.Reordering.Translation
import Scoping.Proofs.Walk.Passing

/-! The tables of a program and of its rearrangement. One is there just if the
other is, and the scopes with their names are the same in both. -/

namespace Scoping

namespace Translation

variable {t : Translation} {settings : Settings} {root : Node} {trail : Trail} {entry : Entry}

/-- A scope opens for the root or for a node inside it. -/
theorem holds_of_enter {kind : ScopeKind} {block : Node} {inMethod : Bool}
    (h : .enter kind block inMethod ∈ programEvents settings root) : root.Holds block := by
  obtain ⟨openings, hOpens, hProgram⟩ := Trail.exists_openings settings root
  rw [programEvents, hProgram, List.flatMap_cons, Task.events_emit, List.singleton_append,
    List.flatMap_append, List.flatMap_append] at h
  rcases List.mem_cons.1 h with hFirst | h
  · cases hFirst
    exact .inl rfl
  · rcases List.mem_append.1 h with hOpening | h
    · obtain ⟨task, hTask, hMem⟩ := List.mem_flatMap.1 hOpening
      obtain ⟨found, rfl, hFound⟩ := hOpens task hTask
      rw [Task.events_emit, List.mem_singleton] at hMem
      subst hMem
      rcases hFound with hMarks | ⟨_, _, -, hEnter⟩
      · exact hMarks.elim
      · cases hEnter
        exact .inl rfl
    · rcases List.mem_append.1 h with hInside | hLast
      · obtain ⟨task, hTask, hMem⟩ := List.mem_flatMap.1 hInside
        obtain ⟨child, hChild, rfl⟩ := List.mem_map.1 hTask
        have hContains := ChildKeys.contains_of_mem_children hChild
        rcases (belongs_of_mem_events hMem).1 with rfl | hBlock
        · exact .inr hContains
        · exact .inr (hContains.trans hBlock)
      · rw [List.flatMap_cons, Task.events_emit, List.flatMap_nil, List.append_nil,
          List.mem_singleton] at hLast
        cases hLast

theorem opensStrict_trail {block : Node} (hSuits : t.nodes.SuitsAll block) (kind : ScopeKind)
    (inMethod : Bool) :
    (t.trail trail).opensStrict settings kind (t.nodes.node block) inMethod =
      trail.opensStrict settings kind block inMethod := by
  have hHead : (t.trail trail).head?.any Frame.strict = trail.head?.any Frame.strict := by
    cases trail <;> rfl
  rw [Trail.opensStrict, Trail.opensStrict, hHead, Rearrangement.strictByDirective_node hSuits]

theorem trail_eq_nil_iff : t.trail trail = [] ↔ trail = [] :=
  List.map_eq_nil_iff

theorem exists_child_node_iff {block : Node} {name : String} :
    (∃ child, (t.nodes.node block).child name = .ok child) ↔
      ∃ child, block.child name = .ok child := by
  unfold Node.child
  rw [Rearrangement.child?_node, Rearrangement.kind_node]
  cases block.child? name with
  | none => exact Iff.rfl
  | some child => exact iff_of_true ⟨_, rfl⟩ ⟨_, rfl⟩

/-- An event passes just if what it becomes does. -/
theorem passes_entry (hSuits : ∀ kind block inMethod,
      entry.2.event = .enter kind block inMethod → t.nodes.SuitsAll block) :
    (t.entry entry).1.Passes settings (t.entry entry).2.event ↔
      entry.1.Passes settings entry.2.event := by
  rw [trail_entry, event_entry]
  obtain ⟨trail, number, event⟩ := entry
  cases event with
  | enter kind block inMethod =>
      simp only [Trail.Passes, Rearrangement.event, opensStrict_trail (hSuits kind block inMethod rfl),
        exists_child_node_iff, trail_eq_nil_iff]
  | leave | endDeclaration | fail => exact Iff.rfl
  | setStrict | define | use | directEval | thisExpression | bodyStart =>
      exact not_congr trail_eq_nil_iff

/-- A program can be analyzed just if what it becomes can, as their logs have the
same entries. -/
theorem Carries.exists_analyze_iff {tree : Tree} (hSuits : t.nodes.SuitsAll tree.root)
    (h : t.Carries (programLog settings tree.root)
      (programLog settings (t.nodes.tree tree).root)) :
    (∃ later, analyze settings (t.nodes.tree tree) = .ok later) ↔
      ∃ table, analyze settings tree = .ok table := by
  have hPasses : ∀ entry ∈ programLog settings tree.root,
      ((t.entry entry).1.Passes settings (t.entry entry).2.event ↔
        entry.1.Passes settings entry.2.event) := by
    refine fun entry hEntry => passes_entry fun kind block inMethod hEvent => ?_
    have hMem := List.mem_map_of_mem (f := Numbered.event) (SymbolTable.mem_of_mem_log hEntry)
    rw [map_event_numbered, hEvent] at hMem
    rcases holds_of_enter hMem with rfl | hContains
    · exact hSuits
    · exact hSuits.of_contains hContains
  rw [SymbolTable.exists_analyze_iff, SymbolTable.exists_analyze_iff]
  constructor
  · exact fun hAll entry hEntry => (hPasses entry hEntry).1 (hAll _ (h.mem hEntry))
  · intro hAll other hOther
    obtain ⟨entry, hEntry, rfl⟩ := h.exists_mem hOther
    exact (hPasses entry hEntry).2 (hAll entry hEntry)

/-- The finished tables of two logs, of which one carries the entries of the other. -/
structure Links (t : Translation) (settings : Settings) (history moved : List Entry)
    (table later : SymbolTable) : Prop where
  carries : t.Carries history moved
  before : SymbolTable.Chronicle settings history table []
  after : SymbolTable.Chronicle settings moved later []

/-- Scopes of the same kind in the same place, with the same flags. -/
structure SameScope (t : Translation) (before after : Scope) : Prop where
  kind : after.kind = before.kind
  block : after.block = t.nodes.node before.block
  upper : after.upper = before.upper.map t.scope
  variableScope : after.variableScope = t.scope before.variableScope
  strict : after.strict = before.strict
  dynamic : after.dynamic = before.dynamic
  directEval : after.directEval = before.directEval
  usesThis : after.usesThis = before.usesThis

/-- Names that the same nodes declare, in any order. -/
structure SameNaming (t : Translation) (before after : Naming) : Prop where
  identifiers : (before.identifiers.toList.map t.nodes.node).Perm after.identifiers.toList
  definitions :
    (before.definitions.toList.map fun definition => (t.nodes.definition definition).unnumbered).Perm
      (after.definitions.toList.map Definition.unnumbered)

variable {history moved : List Entry} {table later : SymbolTable} {position : ScopeId}
  {scope : Scope} {name : String}

theorem Links.exists_scope (h : t.Links settings history moved table later)
    (hScope : table.scopes[position]? = some scope) :
    ∃ other, later.scopes[t.scope position]? = some other ∧ t.SameScope scope other := by
  obtain ⟨frame, hKnows, rfl⟩ := h.before.recounts.shown position scope hScope
  obtain ⟨found, hFound, hBefore⟩ := h.before.recounts.describes hKnows
  cases hFound.symm.trans hScope
  obtain ⟨other, hOther, hAfter⟩ := h.after.recounts.describes (h.carries.knows hKnows)
  have hDynamic := (h.after.flags.dynamic (t.scope frame.scope) other hOther).trans
    (or_congr Iff.rfl (h.carries.exists_iff fun _ => clouds_entry))
  have hEval := (h.after.flags.directEval (t.scope frame.scope) other hOther).trans
    (h.carries.exists_iff fun _ => holdsAt_entry event_eq_directEval)
  have hThis := (h.after.flags.usesThis (t.scope frame.scope) other hOther).trans
    (h.carries.exists_iff fun _ => holdsAt_entry event_eq_thisExpression)
  have hKind : other.kind = scope.kind := hAfter.kind.trans hBefore.kind.symm
  refine ⟨other, hOther, hKind, hAfter.block.trans (congrArg t.nodes.node hBefore.block.symm),
    hAfter.upper.trans (congrArg (Option.map t.scope) hBefore.upper.symm),
    hAfter.variableScope.trans (congrArg t.scope hBefore.variableScope.symm),
    hAfter.strict.trans hBefore.strict.symm, ?_, ?_, ?_⟩
  · rw [Bool.eq_iff_iff, hDynamic, h.before.flags.dynamic _ scope hScope, hKind]
  · rw [Bool.eq_iff_iff, hEval, h.before.flags.directEval _ scope hScope]
  · rw [Bool.eq_iff_iff, hThis, h.before.flags.usesThis _ scope hScope]

/-- The scopes of the one table are those of the other. -/
theorem Links.scopes (h : t.Links settings history moved table later) (position : ScopeId) :
    Option.Rel t.SameScope table.scopes[position]? later.scopes[t.scope position]? := by
  cases hScope : table.scopes[position]? with
  | some scope =>
      obtain ⟨other, hOther, hSame⟩ := h.exists_scope hScope
      rw [hOther]
      exact .some hSame
  | none =>
      cases hOther : later.scopes[t.scope position]? with
      | none => exact .none
      | some other =>
          obtain ⟨after, hAfter, hPosition⟩ := h.after.recounts.shown _ other hOther
          obtain ⟨frame, hKnows, rfl⟩ := h.carries.exists_knows hAfter
          obtain rfl : frame.scope = position := scope_inj.1 hPosition
          obtain ⟨scope, hFound, -⟩ := h.before.recounts.describes hKnows
          cases hScope.symm.trans hFound

theorem Links.upper? (h : t.Links settings history moved table later) (position : ScopeId) :
    later.upper? (t.scope position) = (table.upper? position).map t.scope := by
  unfold SymbolTable.upper?
  have hScopes := h.scopes position
  generalize table.scopes[position]? = before at hScopes ⊢
  generalize later.scopes[t.scope position]? = after at hScopes ⊢
  cases hScopes with
  | some hSame => exact hSame.upper
  | none => rfl

/-- The scopes around a scope stay around it. -/
theorem Links.enclosing (h : t.Links settings history moved table later) (position : ScopeId) :
    later.enclosing (t.scope position) = (table.enclosing position).map t.scope := by
  induction position using Nat.strongRecOn with
  | ind position ih =>
      have hUpper := h.upper? position
      cases hBefore : table.upper? position with
      | none =>
          rw [hBefore] at hUpper
          rw [SymbolTable.enclosing_of_outermost hBefore, SymbolTable.enclosing_of_outermost hUpper]
          rfl
      | some upper =>
          rw [hBefore] at hUpper
          have hLt := h.before.recounts.follows.nested.upper_lt position upper hBefore
          have hFalls := h.after.recounts.follows.nested.upper_lt _ _ hUpper
          rw [SymbolTable.enclosing_of_upper hBefore hLt,
            SymbolTable.enclosing_of_upper hUpper hFalls, ih upper hLt, List.map_cons]

theorem unnumbered_of_forall₂ {notes : List Note} {definitions : List Definition}
    (h : List.Forall₂ (SymbolTable.Makes history table trail) notes definitions) :
    definitions.map Definition.unnumbered = notes.map fun note => note.definition.unnumbered := by
  induction h with
  | nil => rfl
  | cons hMakes _ ih =>
      rw [List.map_cons, List.map_cons, ih, hMakes.eq]
      rfl

theorem sameNaming_of_reports {notes others : List Note} {naming other : Naming}
    {past : List Entry} {before : SymbolTable} (hNotes : (notes.map t.note).Perm others)
    (hBefore : SymbolTable.Reports past before trail notes naming)
    (hAfter : SymbolTable.Reports history table trail others other) :
    t.SameNaming naming other where
  identifiers := by
    rw [hBefore.identifiers, hAfter.identifiers, List.map_map]
    have hPerm := hNotes.map Note.identifier
    rw [List.map_map] at hPerm
    exact hPerm
  definitions := by
    have hUnnumbered : (fun definition => (t.nodes.definition definition).unnumbered) =
        t.nodes.definition ∘ Definition.unnumbered := rfl
    rw [unnumbered_of_forall₂ hAfter.definitions, hUnnumbered, ← List.map_map,
      unnumbered_of_forall₂ hBefore.definitions, List.map_map]
    have hPerm := hNotes.map fun note => note.definition.unnumbered
    rw [List.map_map] at hPerm
    exact hPerm

/-- Each scope has the names that it had, and the same nodes declare them. -/
theorem Links.naming (h : t.Links settings history moved table later) (position : ScopeId)
    (name : String) :
    Option.Rel t.SameNaming (table.namingIn Scope.variables position name)
      (later.namingIn Scope.variables (t.scope position) name) := by
  have hNotes : ((notesOf settings history position name).map t.note).Perm
      (notesOf settings moved (t.scope position) name) :=
    h.carries.perm_notesOf position name
  have hNil : notesOf settings moved (t.scope position) name ≠ [] ↔
      notesOf settings history position name ≠ [] := by
    rw [← List.length_pos_iff, ← List.length_pos_iff, ← hNotes.length_eq, List.length_map]
  have hBefore := h.before.noted.isSome position name
  have hAfter := h.after.noted.isSome (t.scope position) name
  rw [hNil, h.carries.exists_iff fun _ => opensArguments_entry, ← hBefore] at hAfter
  have hReports := sameNaming_of_reports hNotes (h.before.noted.reports position name)
    (h.after.noted.reports (t.scope position) name)
  revert hAfter hReports
  cases table.namingIn Scope.variables position name <;>
    cases later.namingIn Scope.variables (t.scope position) name <;> intro hAfter hReports
  · exact .none
  · simp at hAfter
  · simp at hAfter
  · exact .some hReports

end Translation

end Scoping
