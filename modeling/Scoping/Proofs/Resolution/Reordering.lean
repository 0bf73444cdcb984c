import Scoping.Proofs.Reordering.Tables
import Scoping.Proofs.Resolution.Finished

/-! What references mean as the statements of a body change places. The search
outward comes by the same scopes, and each of them rules the same. -/

namespace Scoping

theorem Entry.Records.records {entry : Entry} {frame : Frame} {use : Use}
    (h : Entry.Records entry frame use) : entry.2.event.records = true := by
  rw [h.event]
  exact h.isIdentifier

namespace SymbolTable

variable {settings : Settings} {history : List Entry} {table : SymbolTable} {trail : Trail}
  {position : ScopeId} {id : ReferenceId} {reference : Reference} {name : String}
  {notes : List Note} {declared : Variable}

/-- The own variable of a scope under a name is the one of that name in its list. -/
theorem Placed.ownVariable?_eq (h : Placed table) (position : ScopeId) (name : String) :
    table.ownVariable? position name = table.ownIn Scope.variables position name := by
  rw [ownVariable?, h.lookup?_eq, ownIn]

/-- What declares a name in a scope is read off the variable that the scope owns under the
name. -/
theorem Placed.namingIn_eq_map_ownVariable? (h : Placed table) (position : ScopeId)
    (name : String) :
    table.namingIn Scope.variables position name =
      (table.ownVariable? position name).map fun own => own.2.naming := by
  rw [namingIn_eq_map_ownIn, h.ownVariable?_eq]

/-- A reference is recorded at an entry, in the scope that was the current one. -/
theorem Chronicle.exists_entry (h : Chronicle settings history table trail)
    (hReference : table.references[id]? = some reference) :
    ∃ entry ∈ history, ∃ frame use, entry.2.number = id ∧ Entry.Records entry frame use ∧
      reference.toUse = use.under frame.strict ∧ reference.scope = frame.scope := by
  obtain ⟨entry, hEntry, rfl, frame, use, hRecords⟩ := h.recordings.known id reference hReference
  obtain ⟨found, hFound, hUse, hScope⟩ := h.recordings.recorded entry hEntry frame use hRecords
  cases hFound.symm.trans hReference
  exact ⟨entry, hEntry, frame, use, rfl, hRecords, hUse, hScope⟩

/-- The definitions of a variable are those that the log notes of its name in its scope. -/
theorem Chronicle.reports_own (h : Chronicle settings history table trail) {var : VariableId}
    (hOwn : table.ownVariable? position name = some (var, declared)) :
    Reports history table trail (notesOf settings history position name) declared.naming := by
  have hReports := h.noted.reports position name
  rw [h.recounts.follows.nested.namingIn_eq_map_ownVariable?, hOwn] at hReports
  exact hReports

/-- A variable has a definition just if the log notes one. -/
theorem Reports.definitions_ne_iff (h : Reports history table trail notes declared.naming) :
    declared.definitions ≠ #[] ↔ notes ≠ [] := by
  have hLength := h.definitions.length_eq
  rw [← List.length_pos_iff, hLength, Array.length_toList, ← Array.size_pos_iff]
  rfl

theorem Makes.isVar {note : Note} {definition : Definition}
    (h : Makes history table trail note definition) : definition.isVar = note.definition.isVar := by
  rw [h.eq]
  rfl

/-- Whether a variable stays in a dynamic global scope is told by the kinds of what the log
notes. -/
theorem Reports.isFixed_iff (h : Reports history table trail notes declared.naming) :
    declared.IsFixed ↔ notes ≠ [] ∧ ∀ note ∈ notes, note.definition.isVar = false := by
  rw [Variable.IsFixed, h.definitions_ne_iff]
  refine and_congr Iff.rfl ⟨fun hAll note hNote => ?_, fun hAll definition hDefinition => ?_⟩
  · obtain ⟨definition, hDefinition, hMakes⟩ := exists_of_forall₂_left h.definitions hNote
    rw [← hMakes.isVar]
    exact hAll definition (Array.mem_toList_iff.1 hDefinition)
  · obtain ⟨note, hNote, hMakes⟩ :=
      exists_of_forall₂_right h.definitions (Array.mem_toList_iff.2 hDefinition)
    rw [hMakes.isVar]
    exact hAll note hNote

/-- Whether a body hides a name from a reference is told by how often it had
begun as the reference was recorded, and as the name was declared. -/
theorem Chronicle.hidesUntilBody_iff (h : Chronicle settings history table trail) {entry : Entry}
    (hEntry : entry ∈ history) (hRecords : entry.2.event.records = true) {frame last : Frame}
    (hFrame : frame ∈ entry.1) (hLast : trail.Knows history last)
    (hSame : last.scope = frame.scope) {owner : Scope}
    (hOwner : table.scopes[frame.scope]? = some owner) {var : VariableId}
    (hOwn : table.ownVariable? frame.scope name = some (var, declared)) :
    owner.HidesUntilBody entry.2.number declared ↔
      owner.kind = .function ∧ owner.block.kind ≠ "Program" ∧ frame.bodies < last.bodies ∧
        notesOf settings history frame.scope name ≠ [] ∧
        ∀ note ∈ notesOf settings history frame.scope name, last.bodies ≤ note.bodies := by
  refine and_congr_right fun hKind => and_congr_right fun _ => ?_
  have hReports := h.reports_own hOwn
  have hEarly := ((h.timed.references entry hEntry hRecords).2 frame hFrame last hLast hSame owner
    hOwner hKind).2
  -- A definition comes before the last beginning of the body just if its note says so.
  have hLate : ∀ {note definition}, note ∈ notesOf settings history frame.scope name →
      Makes history table trail note definition →
        ((∃ start, owner.bodyStart = some start ∧ definition.serial < start.definitions) ↔
          note.bodies < last.bodies) := by
    intro note definition hNote hMakes
    have hScope : note.scope = frame.scope := (of_decide_eq_true (List.mem_filter.1 hNote).2).1
    exact (hMakes.precedes last hLast (hSame.trans hScope.symm) owner (hScope.symm ▸ hOwner)
      hKind).2
  constructor
  · rintro ⟨start, hStart, hLt, hSome, hAll⟩
    refine ⟨hEarly.1 ⟨start, hStart, hLt⟩, hReports.definitions_ne_iff.1 hSome,
      fun note hNote => Nat.le_of_not_lt fun hBefore => ?_⟩
    obtain ⟨definition, hDefinition, hMakes⟩ := exists_of_forall₂_left hReports.definitions hNote
    obtain ⟨same, hBegun, hSerial⟩ := (hLate hNote hMakes).2 hBefore
    cases hBegun.symm.trans hStart
    exact Nat.not_le_of_lt hSerial (hAll definition (Array.mem_toList_iff.1 hDefinition))
  · rintro ⟨hBodies, hSome, hAll⟩
    obtain ⟨start, hStart, hLt⟩ := hEarly.2 hBodies
    refine ⟨start, hStart, hLt, hReports.definitions_ne_iff.2 hSome,
      fun definition hDefinition => Nat.le_of_not_lt fun hSerial => ?_⟩
    obtain ⟨note, hNote, hMakes⟩ :=
      exists_of_forall₂_right hReports.definitions (Array.mem_toList_iff.2 hDefinition)
    exact Nat.not_lt_of_le (hAll note hNote) ((hLate hNote hMakes).1 ⟨start, hStart, hSerial⟩)

/-- What one search outward for a reference comes to. -/
structure Route where
  /-- The variable that the reference means. -/
  resolved : Option VariableId
  tainted : Bool
  /-- The scopes that do not resolve it. -/
  through : List ScopeId

/-- One search outward for a reference. -/
def route (settings : Settings) (table : SymbolTable) (id : ReferenceId) : List ScopeId → Route
  | [] => ⟨none, false, []⟩
  | scope :: around =>
      match table.verdict settings scope id with
      | .binds var => ⟨some var, false, []⟩
      | .outward =>
          let further := table.route settings id around
          ⟨further.resolved, table.taints settings scope || further.tainted,
            scope :: further.through⟩
      | .stop => ⟨none, false, scope :: around⟩

/-- A search that is sent outward by some scopes goes on as it would from beyond them. -/
theorem route_append_of_outward {passed rest : List ScopeId}
    (h : ∀ scope ∈ passed, table.verdict settings scope id = .outward) :
    table.route settings id (passed ++ rest) =
      ⟨(table.route settings id rest).resolved,
        passed.any (table.taints settings) || (table.route settings id rest).tainted,
        passed ++ (table.route settings id rest).through⟩ := by
  induction passed with
  | nil => rfl
  | cons scope passed ih =>
      rw [List.cons_append, route, h scope List.mem_cons_self,
        ih fun inner hInner => h inner (List.mem_cons_of_mem _ hInner), List.any_cons, Bool.or_assoc]
      rfl

/-- A reference has gone the way of one search in the finished table. -/
structure Routed (settings : Settings) (table : SymbolTable) (id : ReferenceId)
    (reference : Reference) (route : Route) : Prop where
  resolved : reference.resolved = route.resolved
  tainted : reference.tainted = route.tainted
  foot : Footprint table id [reference.scope] [] route.through route.resolved.toList

/-- Each reference of a finished table has gone the way of one search. -/
theorem Settled.routed (h : Settled settings table id reference) :
    Routed settings table id reference
      (table.route settings id (table.enclosing reference.scope)) := by
  cases h with
  | resolved passed around scope var course binds resolved foot =>
      have hEnd : table.route settings id (scope :: around) = ⟨some var, false, []⟩ := by
        rw [route, binds]
      rw [course.enclosing, route_append_of_outward course.letOut.outward, hEnd]
      exact ⟨resolved, course.tainted.trans (Bool.or_false _).symm, by rwa [List.append_nil]⟩
  | lost passed hidden course stops unresolved foot =>
      have hEnd : table.route settings id hidden = ⟨none, false, hidden⟩ := by
        cases hidden with
        | nil => rfl
        | cons scope around => rw [route, stops scope rfl]
      rw [course.enclosing, route_append_of_outward course.letOut.outward, hEnd]
      exact ⟨unresolved, course.tainted.trans (Bool.or_false _).symm, foot⟩

end SymbolTable

namespace Translation

open SymbolTable

variable {t : Translation} {settings : Settings} {history moved : List Entry}
  {table later : SymbolTable} {position : ScopeId} {id : ReferenceId} {reference : Reference}
  {name : String}

/-- The variables of one name in a scope and in what it has become. -/
def SameVariable (t : Translation) (table later : SymbolTable) (var other : VariableId) : Prop :=
  ∃ position name, table.lookup? position name = some var ∧
    later.lookup? (t.scope position) name = some other

/-- A name that is defined somewhere in a scope still is after the rearrangement. -/
theorem Carries.notesOf_ne_iff (h : t.Carries history moved) :
    notesOf settings moved (t.scope position) name ≠ [] ↔
      notesOf settings history position name ≠ [] := by
  rw [← List.length_pos_iff, ← List.length_pos_iff, ← (h.perm_notesOf position name).length_eq,
    List.length_map]

/-- What is so of all definitions of a name in a scope depends on no order. -/
theorem Carries.forall_notesOf_iff (h : t.Carries history moved) {p q : Note → Prop}
    (hSame : ∀ note, q (t.note note) ↔ p note) :
    (∀ note ∈ notesOf settings moved (t.scope position) name, q note) ↔
      ∀ note ∈ notesOf settings history position name, p note := by
  simp only [← (h.perm_notesOf position name).mem_iff, List.forall_mem_map, hSame]

/-- A scope and what it has become have a name both or neither. -/
theorem Links.ownVariable? (h : t.Links settings history moved table later) (position : ScopeId)
    (name : String) :
    Option.Rel (fun own other => t.SameVariable table later own.1 other.1 ∧
        t.SameNaming own.2.naming other.2.naming)
      (table.ownVariable? position name) (later.ownVariable? (t.scope position) name) := by
  have hNaming := h.naming position name
  rw [h.before.recounts.follows.nested.namingIn_eq_map_ownVariable?,
    h.after.recounts.follows.nested.namingIn_eq_map_ownVariable?] at hNaming
  cases hBefore : table.ownVariable? position name with
  | none =>
      cases hAfter : later.ownVariable? (t.scope position) name with
      | none => exact .none
      | some other =>
          rw [hBefore, hAfter] at hNaming
          cases hNaming
  | some own =>
      cases hAfter : later.ownVariable? (t.scope position) name with
      | none =>
          rw [hBefore, hAfter] at hNaming
          cases hNaming
      | some other =>
          rw [hBefore, hAfter] at hNaming
          cases hNaming with
          | some hSame =>
              exact .some ⟨⟨position, name, (ownVariable?_eq_some.1 hBefore).1,
                (ownVariable?_eq_some.1 hAfter).1⟩, hSame⟩

/-- A name is hidden from a reference just if it is from what that has become. -/
theorem Links.hidesUntilBody_iff (h : t.Links settings history moved table later) {entry : Entry}
    (hEntry : entry ∈ history) (hRecords : entry.2.event.records = true) {frame : Frame}
    (hFrame : frame ∈ entry.1) {owner other : Scope}
    (hOwner : table.scopes[frame.scope]? = some owner)
    (hOther : later.scopes[t.scope frame.scope]? = some other) (hSame : t.SameScope owner other)
    {own found : VariableId × Variable} (hOwn : table.ownVariable? frame.scope name = some own)
    (hFound : later.ownVariable? (t.scope frame.scope) name = some found) :
    other.HidesUntilBody (t.reference entry.2.number) found.2 ↔
      owner.HidesUntilBody entry.2.number own.2 := by
  obtain ⟨last, hLast, hScope⟩ := h.before.recounts.shown _ owner hOwner
  have hMem : t.frame frame ∈ (t.entry entry).1 := by
    rw [trail_entry]
    exact List.mem_map_of_mem hFrame
  have hMoves : (t.entry entry).2.event.records = true :=
    (Renumbering.records_event entry.2.event).trans hRecords
  have hAfter := h.after.hidesUntilBody_iff (h.carries.mem hEntry) hMoves hMem
    (h.carries.knows hLast) (congrArg t.scope hScope) hOther hFound
  rw [number_of_records hRecords] at hAfter
  rw [hAfter, h.before.hidesUntilBody_iff hEntry hRecords hFrame hLast hScope hOwner hOwn,
    hSame.kind, hSame.block, Rearrangement.kind_node]
  refine and_congr_right fun _ => and_congr_right fun _ => and_congr_right fun _ => ?_
  exact and_congr h.carries.notesOf_ne_iff (h.carries.forall_notesOf_iff fun _ => Iff.rfl)

theorem Links.isFixed_iff (h : t.Links settings history moved table later)
    {own found : VariableId × Variable} (hOwn : table.ownVariable? position name = some own)
    (hFound : later.ownVariable? (t.scope position) name = some found) :
    found.2.IsFixed ↔ own.2.IsFixed := by
  rw [(h.after.reports_own hFound).isFixed_iff, (h.before.reports_own hOwn).isFixed_iff]
  exact and_congr h.carries.notesOf_ne_iff (h.carries.forall_notesOf_iff fun _ => Iff.rfl)

theorem under_use (use : Use) (strict : Bool) :
    (t.nodes.use use).under strict = t.nodes.use (use.under strict) := by
  cases strict <;> rfl

/-- A reference becomes one of the same use, in what its scope has become. -/
theorem Links.exists_reference (h : t.Links settings history moved table later)
    (hReference : table.references[id]? = some reference) :
    ∃ other, later.references[t.reference id]? = some other ∧
      other.toUse = t.nodes.use reference.toUse ∧ other.scope = t.scope reference.scope := by
  obtain ⟨entry, hEntry, frame, use, rfl, hRecords, hUse, hScope⟩ :=
    h.before.exists_entry hReference
  obtain ⟨other, hOther, hOtherUse, hOtherScope⟩ :=
    h.after.recordings.recorded _ (h.carries.mem hEntry) _ _ (records_entry hRecords)
  rw [number_of_records hRecords.records] at hOther
  refine ⟨other, hOther, ?_, ?_⟩
  · rw [hOtherUse, hUse]
    exact under_use use frame.strict
  · rw [hOtherScope, hScope]
    rfl

/-- What becomes of a reference in a scope and in what that has become. -/
inductive SameVerdict (t : Translation) (table later : SymbolTable) : Verdict → Verdict → Prop where
  | binds {var other : VariableId} (same : t.SameVariable table later var other) :
      SameVerdict t table later (.binds var) (.binds other)
  | outward : SameVerdict t table later .outward .outward
  | stop : SameVerdict t table later .stop .stop

/-- Each scope around a reference rules as it did. -/
theorem Links.verdict (h : t.Links settings history moved table later)
    (hReference : table.references[id]? = some reference)
    (hPosition : position ∈ table.enclosing reference.scope) :
    t.SameVerdict table later (table.verdict settings position id)
      (later.verdict settings (t.scope position) (t.reference id)) := by
  obtain ⟨other, hOther, hUse, -⟩ := h.exists_reference hReference
  obtain ⟨entry, hEntry, current, use, rfl, hRecords, -, hScope⟩ :=
    h.before.exists_entry hReference
  rw [hScope, h.before.surrounded entry hEntry current hRecords.current] at hPosition
  obtain ⟨frame, hFrame, rfl⟩ := List.mem_map.1 hPosition
  obtain ⟨owner, hOwner, -⟩ := h.before.openings.frames entry hEntry frame hFrame
  obtain ⟨moved, hMoved, hSame⟩ := h.exists_scope hOwner
  have hName : other.identifier.name = reference.identifier.name := by
    rw [hUse]
    exact Rearrangement.name_node
  -- Of the scope and of the reference a verdict asks nothing that has changed.
  simp only [SymbolTable.verdict, hOwner, hReference, hMoved, hOther, hSame.kind, hSame.dynamic,
    hName]
  have hVariables := h.ownVariable? frame.scope reference.identifier.name
  -- Both scopes have a variable of the name, or neither does.
  cases hOwn : table.ownVariable? frame.scope reference.identifier.name with
  | none =>
      cases hFound : later.ownVariable? (t.scope frame.scope) reference.identifier.name with
      | some found =>
          rw [hOwn, hFound] at hVariables
          cases hVariables
      | none =>
          dsimp only
          split_ifs
          · exact .outward
          · exact .stop
          · exact .stop
          · exact .outward
  | some own =>
      cases hFound : later.ownVariable? (t.scope frame.scope) reference.identifier.name with
      | none =>
          rw [hOwn, hFound] at hVariables
          cases hVariables
      | some found =>
          have hHides := h.hidesUntilBody_iff hEntry hRecords.records hFrame hOwner hMoved hSame hOwn
            hFound
          have hFixed := h.isFixed_iff hOwn hFound
          rw [hOwn, hFound] at hVariables
          cases hVariables with
          | some hBoth =>
              dsimp only
              simp only [hHides, hFixed]
              split_ifs
              · exact .outward
              · exact .stop
              · exact .binds hBoth.1
              · exact .stop
              · exact .outward
              · exact .binds hBoth.1

theorem Links.taints (h : t.Links settings history moved table later) (position : ScopeId) :
    later.taints settings (t.scope position) = table.taints settings position := by
  unfold SymbolTable.taints
  have hScopes := h.scopes position
  generalize table.scopes[position]? = before at hScopes ⊢
  generalize later.scopes[t.scope position]? = after at hScopes ⊢
  cases hScopes with
  | some hSame => simp [hSame.kind]
  | none => rfl

/-- Searches that come by the same scopes, and find the same variable if any. -/
structure SameRoute (t : Translation) (table later : SymbolTable) (before after : Route) : Prop where
  resolved : Option.Rel (t.SameVariable table later) before.resolved after.resolved
  tainted : after.tainted = before.tainted
  through : after.through = before.through.map t.scope

/-- The search for a reference finds the variable that its variable has become,
and comes by the same scopes. -/
theorem Links.route (h : t.Links settings history moved table later)
    (hReference : table.references[id]? = some reference) {way : List ScopeId}
    (hWay : ∀ position ∈ way, position ∈ table.enclosing reference.scope) :
    t.SameRoute table later (table.route settings id way)
      (later.route settings (t.reference id) (way.map t.scope)) := by
  induction way with
  | nil => exact ⟨.none, rfl, rfl⟩
  | cons position around ih =>
      have hFurther := ih fun other hOther => hWay other (List.mem_cons_of_mem _ hOther)
      have hVerdict := h.verdict hReference (hWay position List.mem_cons_self)
      rw [List.map_cons, SymbolTable.route, SymbolTable.route, h.taints]
      generalize table.verdict settings position id = before at hVerdict ⊢
      generalize later.verdict settings (t.scope position) (t.reference id) = after at hVerdict ⊢
      cases hVerdict with
      | binds hSame => exact ⟨.some hSame, rfl, rfl⟩
      | outward =>
          exact ⟨hFurther.resolved, congrArg (table.taints settings position || ·) hFurther.tainted,
            congrArg (t.scope position :: ·) hFurther.through⟩
      | stop => exact ⟨.none, rfl, rfl⟩

end Translation

end Scoping
