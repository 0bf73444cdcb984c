import Scoping.Proofs.Chronicle.Order
import Scoping.Proofs.Table.Distinct

/-! The names of each scope, with all that declares them, as the entries of a
walk give them. -/

namespace Scoping

/-- Whether a function declaration binds its name in the scope that it stands
in, as `SymbolTable.bindsFunctions`. -/
def Frame.bindsFunctions (settings : Settings) (frame : Frame) (upper? : Option Frame) : Bool :=
  let byPolicy := settings.options.blockFunctions.bindsInBlock settings.edition frame.strict
  match frame.kind with
  | .block =>
      !(upper?.any fun upper =>
        upper.kind = .function && upper.block.child? "body" == some frame.block) && byPolicy
  | .switchBody => byPolicy
  | _ => true

namespace Trail

/-- The open scope that a `var` goes to. -/
def holding? (trail : Trail) : Option Frame :=
  trail.head?.bind fun frame => trail.find? fun other => other.scope = frame.holder

/-- The open scope that a definition goes to. -/
def destination? (settings : Settings) (trail : Trail) : Destination → Option Frame
  | .current => trail.head?
  | .variableScope => trail.holding?
  | .functionDeclaration =>
      trail.head?.bind fun frame =>
        if frame.bindsFunctions settings trail.tail.head? then some frame else trail.holding?

end Trail

/-- A definition that an entry makes in a scope, and how often the body of the
function there has begun. -/
structure Note where
  scope : ScopeId
  bodies : Nat
  identifier : Node
  definition : Definition

/-- The definition at an entry, if it makes one. A named function expression
defines its own name in the scope that opens for it. -/
def Entry.note? (settings : Settings) (entry : Entry) : Option Note :=
  match entry.2.event with
  | .define destination identifier definition =>
      if identifier.isIdentifier then
        (entry.1.destination? settings destination).map fun frame =>
          ⟨frame.scope, frame.bodies, identifier, definition⟩
      else none
  | .enter .functionName block _ =>
      match block.child "id" with
      | .ok name =>
          if name.isIdentifier then
            some ⟨entry.2.number, 0, name, { kind := .functionName, name, node := block }⟩
          else none
      | .error _ => none
  | _ => none

/-- An entry opens a function that has an `arguments` of its own. -/
def Entry.OpensArguments (entry : Entry) (scope : ScopeId) : Prop :=
  entry.2.number = scope ∧ ∃ block inMethod, entry.2.event = .enter .function block inMethod ∧
    block.kind ≠ "ArrowFunctionExpression"

/-- The definitions of a name in a scope, in order. -/
def notesOf (settings : Settings) (history : List Entry) (scope : ScopeId) (name : String) :
    List Note :=
  (history.filterMap (Entry.note? settings)).filter fun note =>
    note.scope = scope ∧ note.identifier.name = name

theorem notesOf_concat {settings : Settings} {history : List Entry} {entry : Entry}
    {scope : ScopeId} {name : String} :
    notesOf settings (history ++ [entry]) scope name =
      notesOf settings history scope name ++ (entry.note? settings).toList.filter fun note =>
        note.scope = scope ∧ note.identifier.name = name := by
  unfold notesOf
  rw [List.filterMap_append, List.filter_append]
  cases hNote : entry.note? settings <;> simp [hNote]

namespace SymbolTable

variable {settings : Settings} {history : List Entry} {table next : SymbolTable} {trail : Trail}
  {event : Event} {position : ScopeId} {name : String}

theorem Follows.holding? (h : Follows table trail) {scope : ScopeId}
    (hCurrent : table.current = .ok scope) :
    ∃ frame ∈ trail, trail.holding? = some frame ∧ table.variableScope scope = frame.scope := by
  obtain ⟨head, rest, rfl, rfl⟩ := h.head hCurrent
  have hHolder : head.holder = table.variableScope head.scope := Option.some.inj (h.holder? hCurrent)
  have hMem := h.nested.variableScope_mem (mem_of_current_eq_ok hCurrent)
  rw [h.stack] at hMem
  obtain ⟨frame, hFrame, hScope⟩ := List.mem_map.1 hMem
  cases hFind : (head :: rest).find? fun other => other.scope = head.holder with
  | none =>
      have hNone := List.find?_eq_none.1 hFind frame hFrame
      rw [hHolder, hScope] at hNone
      simp at hNone
  | some found =>
      have hSame := List.find?_some hFind
      rw [decide_eq_true_eq, hHolder] at hSame
      exact ⟨found, List.mem_of_find?_eq_some hFind, hFind, hSame.symm⟩

/-- The policy for function declarations is the same by a scope and by the frame
that describes it, if the frame around describes the scope around. -/
theorem bindsFunctions_eq_of_describes {frame : Frame} {rest : Trail} {scope : Scope}
    (hScope : frame.Describes scope) (hUpper : scope.upper = rest.head?.map Frame.scope)
    (hAround : ∀ upper ∈ rest.head?, ∃ around, table.scopes[upper.scope]? = some around ∧
      upper.Describes around) :
    table.bindsFunctions settings scope = frame.bindsFunctions settings rest.head? := by
  have hBody : table.isFunctionBody scope = rest.head?.any fun upper =>
      upper.kind = .function && upper.block.child? "body" == some frame.block := by
    rw [isFunctionBody, hUpper, hScope.block]
    cases rest with
    | nil => rfl
    | cons upper rest =>
        obtain ⟨around, hFound, hDescribed⟩ := hAround upper rfl
        simp [hFound, hDescribed.kind, hDescribed.block]
  cases hKind : frame.kind <;>
    simp [bindsFunctions, Frame.bindsFunctions, hScope.kind, hKind, hScope.strict, hBody]

theorem Follows.upper_eq {frame : Frame} {rest : Trail} (h : Follows table (frame :: rest)) {scope : Scope}
    (hScope : table.scopes[frame.scope]? = some scope) :
    scope.upper = rest.head?.map Frame.scope := by
  obtain ⟨found, hFound, hEq⟩ :=
    h.nested.chain frame.scope (rest.map Frame.scope) (by simp [h.stack])
  cases hFound.symm.trans hScope
  rw [hEq, List.head?_map]

/-- The policy for function declarations is the same by the table and by the
events. -/
theorem Follows.bindsFunctions_eq {frame : Frame} {rest : Trail}
    (h : Follows table (frame :: rest)) :
    table.scopes[frame.scope]?.all (table.bindsFunctions settings) =
      frame.bindsFunctions settings rest.head? := by
  obtain ⟨scope, hScope, hDescribes⟩ := h.frame frame List.mem_cons_self
  rw [hScope, Option.all_some]
  exact bindsFunctions_eq_of_describes hDescribes (h.upper_eq hScope) fun upper hUpper =>
    h.frame upper (List.mem_cons_of_mem _ (List.mem_of_mem_head? hUpper))

/-- A definition goes to an open scope, and the events tell to which. -/
theorem Follows.destination_eq (h : Follows table trail) (settings : Settings) {scope : ScopeId}
    (hCurrent : table.current = .ok scope) (destination : Destination) :
    ∃ frame ∈ trail, trail.destination? settings destination = some frame ∧
      table.destination settings scope destination = frame.scope := by
  obtain ⟨head, rest, rfl, rfl⟩ := h.head hCurrent
  cases destination with
  | current => exact ⟨head, List.mem_cons_self, rfl, rfl⟩
  | variableScope => exact h.holding? hCurrent
  | functionDeclaration =>
      have hTrail : Trail.destination? settings (head :: rest) .functionDeclaration =
        if head.bindsFunctions settings rest.head? then some head
        else Trail.holding? (head :: rest) := rfl
      unfold SymbolTable.destination
      rw [h.bindsFunctions_eq, hTrail]
      by_cases hBinds : head.bindsFunctions settings rest.head? = true
      · rw [if_pos hBinds, if_pos hBinds]
        exact ⟨head, List.mem_cons_self, rfl, rfl⟩
      · rw [if_neg hBinds, if_neg hBinds]
        exact h.holding? hCurrent

/-- What declares a name after an event that declares none. -/
theorem naming_congr (hPlaced : Placed table)
    (hLists : next.scopes[position]?.map Scope.variables =
      table.scopes[position]?.map Scope.variables)
    (hVariables : ∀ (var : VariableId) (before : Variable), table.Listed Scope.variables var →
      table.variables[var]? = some before → ∃ after, next.variables[var]? = some after ∧
        after.name = before.name ∧ after.naming = before.naming) :
    next.namingIn Scope.variables position name = table.namingIn Scope.variables position name := by
  refine namingIn_congr hPlaced.homes_variables hLists (fun var before hListed hBefore => ?_)
    fun var before hLookup hBefore => ?_
  · obtain ⟨after, hAfter, hName, -⟩ := hVariables var before hListed hBefore
    exact ⟨after, hAfter, hName⟩
  · obtain ⟨entry, hEntry, hFind⟩ := Option.bind_eq_some_iff.1 hLookup
    obtain ⟨after, hAfter, -, hNaming⟩ := hVariables var before
      ⟨position, entry, hEntry, Array.mem_of_find?_eq_some hFind⟩ hBefore
    exact ⟨after, hAfter, hNaming⟩

theorem naming_still (h : Nested table table.stack) (hStill : event.IsStill)
    (hOk : table.apply settings event = .ok next) :
    next.namingIn Scope.variables position name = table.namingIn Scope.variables position name := by
  obtain ⟨hSame, hVariables⟩ := still_apply hStill hOk
  refine naming_congr h.toPlaced ?_ fun var before _ hBefore => ?_
  · have hBoth := congrArg (Option.map fun lists => lists.1.1) (hSame.lists position)
    rw [Option.map_map, Option.map_map] at hBoth
    exact hBoth
  · obtain ⟨after, hAfter, hEq⟩ := hVariables var before hBefore
    exact ⟨after, hAfter, by rw [hEq], by rw [hEq]; rfl⟩

theorem naming_leave (h : Nested table table.stack) (hNamed : table.Named) {block : Node}
    (hOk : table.leaveAll settings block = .ok next) :
    next.namingIn Scope.variables position name = table.namingIn Scope.variables position name := by
  obtain ⟨-, hCloses⟩ := closes_leaveAll h hOk
  refine naming_congr h.toPlaced ?_ fun var before hListed hBefore => ?_
  · cases hBefore : table.scopes[position]? with
    | none =>
        have hNone : next.scopes[position]? = none := by
          rw [Array.getElem?_eq_none_iff, hCloses.scopesSize]
          exact Array.getElem?_eq_none_iff.1 hBefore
        rw [hNone]
    | some before =>
        obtain ⟨after, hAfter, hSettles⟩ := hCloses.scope position before hBefore
        rw [hAfter, hSettles]
        rfl
  · obtain ⟨after, hAfter, hSettles, -⟩ :=
      hCloses.variable_ var before hBefore (hNamed.apart var hListed)
    exact ⟨after, hAfter, by rw [hSettles], by rw [hSettles]; rfl⟩

theorem naming_define (h : Placed table) (position : ScopeId) (name : String) {scope : ScopeId}
    (hScope : ∃ entry, table.scopes[scope]? = some entry) {identifier : Node}
    (hIdentifier : identifier.isIdentifier = true) (definition : Definition) :
    (table.define scope identifier definition).namingIn Scope.variables position name =
      if position = scope ∧ name = identifier.name then
        some (((table.namingIn Scope.variables scope identifier.name).getD {}).add identifier
          { definition with serial := table.definitionCount })
      else table.namingIn Scope.variables position name := by
  rw [define, if_pos hIdentifier]
  dsimp only
  rw [h.declare_eq_declareIn]
  refine namingIn_defineIn h.homes_variables ?_ hScope identifier definition
  exact fun _ _ => rfl

/-- A scope that opens has no names yet. -/
theorem naming_addScope (h : Nested table table.stack) (kind : ScopeKind) (block : Node)
    (strict : Bool) (position : ScopeId) (name : String) :
    (table.addScope kind block strict).2.namingIn Scope.variables position name =
      table.namingIn Scope.variables position name := by
  have hVariables : (table.addScope kind block strict).2.variables = table.variables := by
    rw [addScope_snd]
    split <;> rfl
  by_cases hNew : position = table.scopes.size
  · have hNone : table.scopes[position]? = none := by
      rw [hNew]
      exact Array.getElem?_eq_none (Nat.le_refl _)
    have hFresh := getElem?_addScope h kind block strict position
    rw [if_pos hNew] at hFresh
    simp [namingIn, lookupIn, hFresh, hNone, freshScope]
  · refine naming_congr h.toPlaced ?_ fun var before _ hBefore => ⟨before, ?_, rfl, rfl⟩
    · rw [getElem?_addScope h, if_neg hNew, Option.map_map]
      rfl
    · rw [hVariables, hBefore]

/-- How an entry changes what declares a name. It adds the definition that it
notes, and no other. No name but that of the arguments of a function is added
without a definition. -/
inductive Names.Change (settings : Settings) (entry : Entry) (table next : SymbolTable)
    (position : ScopeId) (name : String) : Prop where
  | defined (note : Note) (noted : entry.note? settings = some note)
      (scope_eq : note.scope = position) (name_eq : note.identifier.name = name)
      (naming : next.namingIn Scope.variables position name =
        some (((table.namingIn Scope.variables position name).getD {}).add note.identifier
          { note.definition with serial := table.definitionCount }))
  | kept (other : ∀ note, entry.note? settings = some note →
        ¬ (note.scope = position ∧ note.identifier.name = name))
      (same : (next.namingIn Scope.variables position name).getD {} =
        (table.namingIn Scope.variables position name).getD {})
      (isSome : (next.namingIn Scope.variables position name).isSome = true ↔
        (table.namingIn Scope.variables position name).isSome = true ∨
          (name = "arguments" ∧ Entry.OpensArguments entry position))

theorem namesChange_of_same {signal : Numbered}
    (hNone : Entry.note? settings (trail, signal) = none)
    (hOpens : ¬ Entry.OpensArguments (trail, signal) position)
    (hSame : next.namingIn Scope.variables position name =
      table.namingIn Scope.variables position name) :
    Names.Change settings (trail, signal) table next position name := by
  refine .kept (fun note hNote => ?_) (by rw [hSame]) ?_
  · rw [hNone] at hNote
    cases hNote
  · rw [hSame]
    exact (or_iff_left fun hBoth => hOpens hBoth.2).symm

/-- An entry that notes a definition, which is added to its own name and no other. -/
theorem namesChange_of_note {signal : Numbered} {note : Note}
    (hNote : Entry.note? settings (trail, signal) = some note)
    (hOpens : ¬ Entry.OpensArguments (trail, signal) position)
    (hNaming : next.namingIn Scope.variables position name =
      if position = note.scope ∧ name = note.identifier.name then
        some (((table.namingIn Scope.variables position name).getD {}).add note.identifier
          { note.definition with serial := table.definitionCount })
      else table.namingIn Scope.variables position name) :
    Names.Change settings (trail, signal) table next position name := by
  by_cases hHere : position = note.scope ∧ name = note.identifier.name
  · rw [if_pos hHere] at hNaming
    exact .defined note hNote hHere.1.symm hHere.2.symm hNaming
  · rw [if_neg hHere] at hNaming
    refine .kept (fun other hOther => ?_) (by rw [hNaming]) ?_
    · cases hNote.symm.trans hOther
      exact fun hBoth => hHere ⟨hBoth.1.symm, hBoth.2.symm⟩
    · rw [hNaming]
      exact (or_iff_left fun hBoth => hOpens hBoth.2).symm

theorem not_opensArguments (hEvent : ∀ block inMethod, event ≠ .enter .function block inMethod) :
    ¬ Entry.OpensArguments (trail, table.signalFor event) position := by
  rintro ⟨-, block, inMethod, hEnter, -⟩
  exact hEvent block inMethod hEnter

theorem namesChange_define (h : Follows table trail) {destination : Destination} {identifier : Node}
    {definition : Definition}
    (hOk : table.apply settings (.define destination identifier definition) = .ok next) :
    Names.Change settings (trail, table.signalFor (.define destination identifier definition))
      table next position name := by
  obtain ⟨scope, hCurrent, hNext⟩ := exists_of_bind_ok hOk
  cases hNext
  obtain ⟨frame, hFrame, hDestination, hEq⟩ :=
    h.destination_eq settings hCurrent destination
  have hOpens : ¬ Entry.OpensArguments
      (trail, table.signalFor (.define destination identifier definition)) position :=
    not_opensArguments (by simp)
  rw [hEq]
  by_cases hIdentifier : identifier.isIdentifier = true
  · have hNote : Entry.note? settings
        (trail, table.signalFor (.define destination identifier definition)) =
          some ⟨frame.scope, frame.bodies, identifier, definition⟩ := by
      simp [Entry.note?, signalFor, hIdentifier, hDestination]
    refine namesChange_of_note hNote hOpens ?_
    rw [naming_define h.nested.toPlaced position name
      (h.nested.exists_of_mem (h.stack ▸ List.mem_map_of_mem hFrame)) hIdentifier definition]
    refine ite_congr rfl (fun hHere => ?_) fun _ => rfl
    rw [hHere.1, hHere.2]
  · rw [define, if_neg hIdentifier]
    exact namesChange_of_same (by simp [Entry.note?, signalFor, hIdentifier]) hOpens rfl

/-- The scope that an entry opens has no name yet. -/
theorem naming_addScope_size (h : Nested table table.stack) (kind : ScopeKind) (block : Node)
    (strict : Bool) (name : String) :
    (table.addScope kind block strict).2.namingIn Scope.variables table.scopes.size name = none := by
  rw [naming_addScope h]
  simp [namingIn, lookupIn]

/-- A function that is no arrow function has its arguments. -/
theorem namesChange_arguments (h : Nested table table.stack) {block : Node} {inMethod strict : Bool}
    (hOther : block.kind ≠ "ArrowFunctionExpression")
    (hNext : next.namingIn Scope.variables position name =
      ((table.addScope .function block strict).2.declare table.scopes.size
        "arguments").2.namingIn Scope.variables position name) :
    Names.Change settings (trail, table.signalFor (.enter .function block inMethod)) table next
      position name := by
  have hNested := (advances_addScope h .function block strict).nested
  have hDeclare : next.namingIn Scope.variables position name =
      if position = table.scopes.size ∧ name = "arguments" then some {}
      else table.namingIn Scope.variables position name := by
    rw [hNext, hNested.declare_eq_declareIn, namingIn_declareIn hNested.homes_variables ?_
      (hNested.exists_of_mem List.mem_cons_self), naming_addScope_size h, naming_addScope h]
    · rfl
    · exact fun _ _ => rfl
  refine .kept (fun note hFound => by cases hFound) ?_ ?_
  · rw [hDeclare]
    split
    · next hHere =>
        rw [hHere.1, ← naming_addScope h .function block strict, naming_addScope_size h]
        rfl
    · rfl
  · rw [hDeclare]
    by_cases hHere : position = table.scopes.size ∧ name = "arguments"
    · rw [if_pos hHere]
      exact iff_of_true rfl (.inr ⟨hHere.2, hHere.1.symm, block, inMethod, rfl, hOther⟩)
    · rw [if_neg hHere]
      exact (or_iff_left fun hBoth => hHere ⟨hBoth.2.1.symm, hBoth.1⟩).symm

/-- A named function expression has its own name in the scope that opens for it. -/
theorem namesChange_functionName (h : Nested table table.stack) {block child : Node}
    {inMethod strict : Bool} (hChild : block.child "id" = .ok child)
    (hNext : next.namingIn Scope.variables position name =
      ((table.addScope .functionName block strict).2.define table.scopes.size child
        { kind := .functionName, name := child, node := block }).namingIn Scope.variables
          position name) :
    Names.Change settings (trail, table.signalFor (.enter .functionName block inMethod)) table next
      position name := by
  have hNested := (advances_addScope h .functionName block strict).nested
  have hOpens : ¬ Entry.OpensArguments
      (trail, table.signalFor (.enter .functionName block inMethod)) position :=
    not_opensArguments (by simp)
  by_cases hIdentifier : child.isIdentifier = true
  · have hNote : Entry.note? settings
        (trail, table.signalFor (.enter .functionName block inMethod)) = some
          ⟨table.scopes.size, 0, child, { kind := .functionName, name := child, node := block }⟩ := by
      simp [Entry.note?, signalFor, Event.opens, hChild, hIdentifier]
    have hCount : (table.addScope .functionName block strict).2.definitionCount =
        table.definitionCount := by
      rw [addScope_snd]
      split <;> rfl
    refine namesChange_of_note hNote hOpens ?_
    rw [hNext, naming_define hNested.toPlaced position name
      (hNested.exists_of_mem List.mem_cons_self) hIdentifier, naming_addScope h, naming_addScope h,
      hCount]
    refine ite_congr rfl (fun hHere => ?_) fun _ => rfl
    rw [hHere.1, hHere.2]
  · refine namesChange_of_same (by simp [Entry.note?, signalFor, hChild, hIdentifier]) hOpens ?_
    rw [hNext, define, if_neg hIdentifier, naming_addScope h]

theorem namesChange_enter (h : Nested table table.stack) {kind : ScopeKind} {block : Node}
    {inMethod : Bool} (hOk : table.enter settings kind block inMethod = .ok next) :
    Names.Change settings (trail, table.signalFor (.enter kind block inMethod)) table next position
      name := by
  obtain ⟨strict, own, -, hOwn, -, rfl⟩ := enter_eq_ok hOk
  have hAdd := naming_addScope h kind block strict position name
  unfold declareOwn at hOwn
  split at hOwn
  · split at hOwn
    · next hArrow =>
        cases hOwn
        refine namesChange_of_same rfl ?_ hAdd
        rintro ⟨-, other, flag, hEnter, hOther⟩
        cases hEnter
        exact hOther hArrow
    · next hOther =>
        cases hOwn
        exact namesChange_arguments h hOther rfl
  · obtain ⟨child, hChild, hNext⟩ := exists_of_bind_ok hOwn
    cases hNext
    exact namesChange_functionName h hChild rfl
  · next hFunction hName =>
      cases hOwn
      refine namesChange_of_same ?_ ?_ hAdd
      · unfold Entry.note? signalFor
        split
        · next hEvent => cases hEvent
        · next hEvent =>
            cases hEvent
            exact absurd rfl hName
        · rfl
      · rintro ⟨-, other, flag, hEnter, -⟩
        cases hEnter
        exact hFunction rfl

/-- Every event changes the names as its entry tells. -/
theorem namesChange_apply (h : Follows table trail) (hNamed : table.Named)
    (hOk : table.apply settings event = .ok next) (position : ScopeId) (name : String) :
    Names.Change settings (trail, table.signalFor event) table next position name := by
  cases event with
  | enter kind block inMethod => exact namesChange_enter h.nested hOk
  | define destination identifier definition => exact namesChange_define h hOk
  | leave block =>
      exact namesChange_of_same rfl (not_opensArguments (by simp))
        (naming_leave h.nested hNamed hOk)
  | fail failure => cases hOk
  | setStrict | use | directEval | thisExpression | bodyStart | endDeclaration =>
      exact namesChange_of_same rfl (not_opensArguments (by simp))
        (naming_still h.nested (by trivial) hOk)

end SymbolTable

end Scoping
