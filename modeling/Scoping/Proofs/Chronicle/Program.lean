import Scoping.Proofs.Chronicle.Recordings
import Scoping.Proofs.Chronicle.Reports
import Scoping.Proofs.Chronicle.Surroundings
import Scoping.Proofs.Table.Implicit
import Scoping.Proofs.Walk.Balance

/-! The log of a whole program. The finished table holds what its entries say:
each scope is opened at one of them, and each reference and definition is made
at one. -/

namespace Scoping

/-- A scope as a frame has given it. Whether it is strict may have changed
since. -/
structure Frame.Places (frame : Frame) (scope : Scope) : Prop where
  kind : scope.kind = frame.kind
  block : scope.block = frame.block
  upper : scope.upper = frame.upper
  variableScope : scope.variableScope = frame.holder

/-- An entry opens a scope. -/
structure Entry.Opens (entry : Entry) (position : ScopeId) (kind : ScopeKind) (block : Node) :
    Prop where
  number : entry.2.number = position
  event : ∃ inMethod, entry.2.event = .enter kind block inMethod

/-- An entry makes a definition where its event goes, or in the scope of a name
that it opens. -/
theorem Entry.note_cases {settings : Settings} {entry : Entry} {note : Note}
    (h : entry.note? settings = some note) :
    (∃ destination frame, entry.2.event = .define destination note.identifier note.definition ∧
      entry.1.destination? settings destination = some frame ∧ note.scope = frame.scope) ∨
    ∃ block inMethod, entry.2.event = .enter .functionName block inMethod ∧
      note.scope = entry.2.number ∧ block.child? "id" = some note.identifier ∧
      note.definition = { kind := .functionName, name := note.identifier, node := block } := by
  unfold Entry.note? at h
  split at h
  · next destination identifier definition hEvent =>
      split at h
      · obtain ⟨frame, hFrame, rfl⟩ := Option.map_eq_some_iff.1 h
        exact .inl ⟨destination, frame, hEvent, hFrame, rfl⟩
      · cases h
  · next block inMethod hEvent =>
      split at h
      · next name hName =>
          split at h
          · cases h
            unfold Node.child at hName
            split at hName
            · next child hChild =>
                cases hName
                exact .inr ⟨block, inMethod, hEvent, rfl, hChild, rfl⟩
            · cases hName
          · cases h
      · cases h
  · cases h

/-- What is on the right of two related lists has a partner on the left. -/
theorem exists_of_forall₂_right {α β : Type} {R : α → β → Prop} {first : List α} {second : List β}
    (h : List.Forall₂ R first second) {b : β} (hMem : b ∈ second) : ∃ a ∈ first, R a b := by
  obtain ⟨position, hPosition, rfl⟩ := List.mem_iff_getElem.1 hMem
  have hLt : position < first.length := h.length_eq ▸ hPosition
  exact ⟨first[position], List.getElem_mem hLt, h.get hLt hPosition⟩

theorem exists_of_forall₂_left {α β : Type} {R : α → β → Prop} {first : List α} {second : List β}
    (h : List.Forall₂ R first second) {a : α} (hMem : a ∈ first) : ∃ b ∈ second, R a b :=
  exists_of_forall₂_right h.flip hMem

namespace SymbolTable

/-- The scopes of a table are those that the entries open, and those that are
open at an entry stay where they are. -/
structure Openings (history : List Entry) (table : SymbolTable) : Prop where
  opened : ∀ entry ∈ history, ∀ position kind block, Entry.Opens entry position kind block →
    ∃ scope, table.scopes[position]? = some scope ∧ scope.kind = kind ∧ scope.block = block ∧
      scope.upper = entry.1.current?
  known : ∀ (position : ScopeId) (scope : Scope), table.scopes[position]? = some scope →
    ∃ entry ∈ history, Entry.Opens entry position scope.kind scope.block
  frames : ∀ entry ∈ history, ∀ frame ∈ entry.1, ∃ scope,
    table.scopes[frame.scope]? = some scope ∧ frame.Places scope

variable {settings : Settings} {history : List Entry} {table next : SymbolTable} {trail : Trail}
  {event : Event}

theorem openings_empty : Openings [] {} :=
  ⟨fun _ hEntry => (nomatch hEntry), fun _ _ h => by simp at h, fun _ hEntry => nomatch hEntry⟩

/-- A scope that is there keeps its place. -/
theorem exists_place_apply (h : Follows table trail) (hOk : table.apply settings event = .ok next)
    {position : ScopeId} {before : Scope} (hBefore : table.scopes[position]? = some before) :
    ∃ after, next.scopes[position]? = some after ∧ after.kind = before.kind ∧
      after.block = before.block ∧ after.upper = before.upper ∧
      after.variableScope = before.variableScope := by
  obtain ⟨after, hAfter, hChanges⟩ := changes_apply h hOk hBefore
  exact ⟨after, hAfter, hChanges.kind, hChanges.block, hChanges.upper, hChanges.variableScope⟩

/-- An event opens at most the scope that its entry says, at the number that it says. -/
theorem openings_apply (hRecounts : Recounts history table trail) (h : Openings history table)
    (hOk : table.apply settings event = .ok next) :
    Openings (history ++ [(trail, table.signalFor event)]) next := by
  have hFollows := hRecounts.follows
  refine ⟨fun entry hEntry position kind block hOpens => ?_, fun position after hAfter => ?_,
    fun entry hEntry frame hFrame => ?_⟩
  · rcases List.mem_append.1 hEntry with hOld | hNew
    · obtain ⟨before, hBefore, hKind, hBlock, hUpper⟩ := h.opened entry hOld position kind block hOpens
      obtain ⟨after, hAfter, hSame⟩ := exists_place_apply hFollows hOk hBefore
      exact ⟨after, hAfter, hSame.1.trans hKind, hSame.2.1.trans hBlock, hSame.2.2.1.trans hUpper⟩
    · obtain rfl := List.mem_singleton.1 hNew
      obtain ⟨rfl, inMethod, hEvent⟩ := hOpens
      obtain rfl : event = .enter kind block inMethod := hEvent
      obtain ⟨-, ⟨strict, -, after, hAfter, hEq⟩, -⟩ := scopes_enter hFollows.nested hOk
      refine ⟨after, hAfter, by rw [hEq]; rfl, by rw [hEq]; rfl, ?_⟩
      rw [hEq, hFollows.current?]
      rfl
  · rcases exists_before hFollows hOk hAfter with ⟨before, hBefore, hChanges⟩ |
      ⟨rfl, kind, block, inMethod, strict, rfl, hEq⟩
    · obtain ⟨entry, hEntry, hOpens⟩ := h.known position before hBefore
      rw [hChanges.kind, hChanges.block]
      exact ⟨entry, List.mem_append_left _ hEntry, hOpens⟩
    · refine ⟨_, List.mem_append_right _ List.mem_cons_self, rfl, inMethod, ?_⟩
      rw [hEq]
      rfl
  · have hBefore : ∃ scope, table.scopes[frame.scope]? = some scope ∧ frame.Places scope := by
      rcases List.mem_append.1 hEntry with hOld | hNew
      · exact h.frames entry hOld frame hFrame
      · obtain rfl := List.mem_singleton.1 hNew
        obtain ⟨scope, hScope, hDescribes⟩ := hFollows.frame frame hFrame
        exact ⟨scope, hScope, hDescribes.kind, hDescribes.block, hDescribes.upper,
          hDescribes.variableScope⟩
    obtain ⟨before, hScope, hPlaces⟩ := hBefore
    obtain ⟨after, hAfter, hKind, hBlock, hUpper, hHolder⟩ := exists_place_apply hFollows hOk hScope
    exact ⟨after, hAfter, hKind.trans hPlaces.kind, hBlock.trans hPlaces.block,
      hUpper.trans hPlaces.upper, hHolder.trans hPlaces.variableScope⟩

/-- No scope is around a global one. -/
def Outermost (table : SymbolTable) : Prop :=
  ∀ (position : ScopeId) (scope : Scope), table.scopes[position]? = some scope →
    scope.kind = .global → scope.upper = none

/-- A global scope opens only where no scope is open. -/
theorem outermost_apply (hFollows : Follows table trail) (h : Outermost table)
    (hOk : table.apply settings event = .ok next) : Outermost next := by
  intro position after hAfter hGlobal
  rcases exists_before hFollows hOk hAfter with ⟨before, hBefore, hChanges⟩ |
    ⟨rfl, kind, block, inMethod, strict, rfl, hEq⟩
  · rw [hChanges.upper]
    exact h position before hBefore (hChanges.kind.symm.trans hGlobal)
  · rw [hEq] at hGlobal
    obtain ⟨_, _, -, -, hKind, -⟩ := enter_eq_ok hOk
    rw [hEq]
    exact List.head?_eq_none_iff.2 (hKind hGlobal)

/-- A `var` stays in a scope whose kind holds them, and goes from any other where
one in the scope around goes. -/
def Holding (table : SymbolTable) : Prop :=
  ∀ (position : ScopeId) (scope : Scope), table.scopes[position]? = some scope →
    (scope.kind.holdsVars = true → scope.variableScope = position) ∧
      (scope.kind.holdsVars = false → ∀ upper, scope.upper = some upper →
        scope.variableScope = table.variableScope upper)

theorem holding_empty : Holding {} :=
  fun _ _ h => by simp at h

/-- A scope that opens finds in the one around it where its `var`s go. -/
theorem holding_apply (hFollows : Follows table trail) (h : Holding table)
    (hOk : table.apply settings event = .ok next) : Holding next := by
  have hUpper : ∀ upper, (∃ scope, table.scopes[upper]? = some scope) →
      next.variableScope upper = table.variableScope upper := by
    rintro upper ⟨scope, hScope⟩
    obtain ⟨after, hAfter, -, -, -, hSame⟩ := exists_place_apply hFollows hOk hScope
    rw [variableScope_of_getElem? hAfter, variableScope_of_getElem? hScope, hSame]
  intro position after hAfter
  rcases exists_before hFollows hOk hAfter with ⟨before, hBefore, hChanges⟩ |
    ⟨rfl, kind, block, inMethod, strict, rfl, hEq⟩
  · obtain ⟨hHolds, hGoes⟩ := h position before hBefore
    rw [hChanges.kind, hChanges.variableScope, hChanges.upper]
    refine ⟨hHolds, fun hKind upper hOut => ?_⟩
    have hLt := hFollows.nested.upper_lt position upper (by rw [upper?_of_getElem? hBefore, hOut])
    have hExists := Array.getElem?_eq_getElem (Nat.lt_trans hLt (lt_of_getElem?_scopes hBefore))
    rw [hUpper upper ⟨_, hExists⟩]
    exact hGoes hKind upper hOut
  · rw [hEq]
    refine ⟨fun hKind => if_pos hKind, fun hKind upper hOut => ?_⟩
    have hHead : table.stack.head? = some upper := hOut
    rw [hUpper upper (hFollows.nested.exists_of_mem (List.mem_of_mem_head? hHead))]
    have hNot : ¬ kind.holdsVars = true := Bool.eq_false_iff.1 hKind
    simp only [freshScope, hHead, Option.map_some, Option.getD_some]
    exact if_neg hNot

/-- All that the entries of a walk say of a table. -/
structure Chronicle (settings : Settings) (history : List Entry) (table : SymbolTable)
    (trail : Trail) : Prop where
  recounts : Recounts history table trail
  openings : Openings history table
  outermost : Outermost table
  holding : Holding table
  flags : Flags history table
  surrounded : Surrounded history table
  recordings : Recordings history table
  timed : Timed history table trail
  named : table.Named
  assigned : AllAssigned table
  noted : Noted settings history table trail

/-- An event adds one entry, and what all entries say of the table stays right. -/
theorem chronicle_apply (h : Chronicle settings history table trail)
    (hOk : table.apply settings event = .ok next) :
    Chronicle settings (history ++ [(trail, table.signalFor event)]) next
      (trail.step settings (table.signalFor event)) where
  recounts := recounts_apply h.recounts hOk
  openings := openings_apply h.recounts h.openings hOk
  outermost := outermost_apply h.recounts.follows h.outermost hOk
  holding := holding_apply h.recounts.follows h.holding hOk
  flags := flags_apply h.recounts h.flags hOk
  surrounded := surrounded_apply h.recounts h.surrounded hOk
  recordings := recordings_apply h.recounts h.recordings hOk
  timed := timed_apply h.recounts h.timed hOk
  named := named_apply h.recounts.follows.nested h.named hOk
  assigned := allAssigned_apply h.assigned h.named h.recounts.follows.nested hOk
  noted := noted_apply h.recounts h.named h.timed.bounded h.noted hOk

theorem chronicle_empty (settings : Settings) : Chronicle settings [] {} [] where
  recounts := recounts_empty
  openings := openings_empty
  outermost := fun _ _ h => by simp at h
  holding := holding_empty
  flags := flags_empty
  surrounded := surrounded_empty
  recordings := recordings_empty
  timed := timed_empty
  named := named_empty
  assigned := allAssigned_empty
  noted := noted_empty

/-- The finished table of a program is told by its log. -/
theorem chronicle_of_analyze_eq_ok {tree : Tree} (hOk : analyze settings tree = .ok table) :
    Chronicle settings (programLog settings tree.root) table [] := by
  obtain ⟨hStack, -, -, hRun⟩ := spec_of_analyze_eq_ok hOk
  have hChronicle := (recounts_induction (P := Chronicle settings)
    (fun _ _ _ _ _ _ h hApply => chronicle_apply h hApply)
    recounts_empty (chronicle_empty settings) hRun).2
  rw [List.nil_append] at hChronicle
  have hTrail := hChronicle.recounts.follows.stack
  rw [hStack] at hTrail
  rw [List.map_eq_nil_iff.1 hTrail.symm] at hChronicle
  exact hChronicle

/-- In a finished table each scope lists as children just the scopes that it is right
around. -/
theorem parented_of_analyze_eq_ok {tree : Tree} (hOk : analyze settings tree = .ok table) :
    Parented table :=
  (recounts_induction (P := fun _ table _ => Parented table)
    (fun _ _ _ _ _ hRecounts hTable hApply => parented_apply hRecounts.follows hTable hApply)
    recounts_empty parented_empty (spec_of_analyze_eq_ok hOk).2.2.2).2

/-- A variable of a table has the definitions that the log notes, in order. -/
theorem Chronicle.reports (h : Chronicle settings history table trail) {var : VariableId}
    {declared : Variable} (hDeclared : table.variables[var]? = some declared) {scope : Scope}
    (hScope : table.scopes[declared.scope]? = some scope) (hVar : var ∈ scope.variables) :
    Reports history table trail (notesOf settings history declared.scope declared.name)
      declared.naming := by
  have hReports := h.noted.reports declared.scope declared.name
  have hLookup := h.named.indexed.found declared.scope scope hScope var hVar declared hDeclared
  rw [namingIn, hLookup, Option.bind_some, hDeclared] at hReports
  exact hReports

/-- What defines a name of a scope stands at one of the entries. -/
theorem Chronicle.exists_note (h : Chronicle settings history table trail) {var : VariableId}
    {declared : Variable} (hDeclared : table.variables[var]? = some declared) {scope : Scope}
    (hScope : table.scopes[declared.scope]? = some scope) (hVar : var ∈ scope.variables)
    {definition : Definition} (hDefinition : definition ∈ declared.definitions) :
    ∃ entry ∈ history, ∃ note, Entry.note? settings entry = some note ∧
      note.scope = declared.scope ∧ note.identifier.name = declared.name ∧
      definition = { note.definition with serial := definition.serial } := by
  obtain ⟨note, hNote, hMakes⟩ := exists_of_forall₂_right
    (h.reports hDeclared hScope hVar).definitions (Array.mem_toList_iff.2 hDefinition)
  obtain ⟨hMem, hSame⟩ := List.mem_filter.1 hNote
  obtain ⟨entry, hEntry, hFound⟩ := List.mem_filterMap.1 hMem
  rw [decide_eq_true_eq] at hSame
  exact ⟨entry, hEntry, note, hFound, hSame.1, hSame.2, hMakes.eq⟩

/-- What stands at an entry defines a name of a scope. -/
theorem Chronicle.exists_definition (h : Chronicle settings history table trail) {entry : Entry}
    (hEntry : entry ∈ history) {note : Note} (hNote : entry.note? settings = some note) :
    ∃ (var : VariableId) (declared : Variable) (definition : Definition),
      table.lookup? note.scope note.identifier.name = some var ∧
      table.variables[var]? = some declared ∧
      declared.scope = note.scope ∧ declared.name = note.identifier.name ∧
      definition ∈ declared.definitions ∧
      definition = { note.definition with serial := definition.serial } := by
  have hMem : note ∈ notesOf settings history note.scope note.identifier.name :=
    List.mem_filter.2 ⟨List.mem_filterMap.2 ⟨entry, hEntry, hNote⟩, by simp⟩
  have hSome := (h.noted.isSome note.scope note.identifier.name).2 (.inl (List.ne_nil_of_mem hMem))
  obtain ⟨naming, hNaming⟩ := Option.isSome_iff_exists.1 hSome
  obtain ⟨var, hLookup, hFound⟩ := Option.bind_eq_some_iff.1 hNaming
  obtain ⟨declared, hDeclared, rfl⟩ := Option.map_eq_some_iff.1 hFound
  obtain ⟨same, hSame, hScope, hName⟩ :=
    h.recounts.follows.nested.homes_variables.exists_of_lookupIn hLookup
  cases hSame.symm.trans hDeclared
  rw [← h.recounts.follows.nested.lookup?_eq] at hLookup
  have hReports := h.noted.reports note.scope note.identifier.name
  rw [hNaming, Option.getD_some] at hReports
  obtain ⟨definition, hDefinition, hMakes⟩ := exists_of_forall₂_left hReports.definitions hMem
  exact ⟨var, _, definition, hLookup, hDeclared, hScope, hName, Array.mem_toList_iff.1 hDefinition,
    hMakes.eq⟩

/-- Where a `var` goes it stays. -/
theorem Chronicle.exists_holder {tree : Tree} (h : Chronicle settings history table [])
    (hOk : analyze settings tree = .ok table) {position : ScopeId} {scope : Scope}
    (hScope : table.scopes[position]? = some scope) :
    ∃ holder, table.scopes[scope.variableScope]? = some holder ∧
      holder.kind.holdsVars = true ∧ holder.variableScope = scope.variableScope := by
  obtain ⟨-, hNested, hRooted, -⟩ := spec_of_analyze_eq_ok hOk
  induction position using Nat.strongRecOn generalizing scope with
  | ind position ih =>
      obtain ⟨hHolds, hGoes⟩ := h.holding position scope hScope
      by_cases hKind : scope.kind.holdsVars = true
      · rw [hHolds hKind]
        exact ⟨scope, hScope, hKind, hHolds hKind⟩
      · cases hUpper : scope.upper with
        | none =>
            obtain rfl := hRooted.upper position scope hScope hUpper
            obtain ⟨root, hRoot, hGlobal⟩ := hRooted.global
            cases hRoot.symm.trans hScope
            rw [hGlobal] at hKind
            exact absurd rfl hKind
        | some upper =>
            have hLt := hNested.upper_lt position upper (by rw [upper?_of_getElem? hScope, hUpper])
            have hAround := Array.getElem?_eq_getElem
              (Nat.lt_trans hLt (lt_of_getElem?_scopes hScope))
            rw [hGoes (by simpa using hKind) upper hUpper, variableScope_of_getElem? hAround]
            exact ih upper hLt hAround

end SymbolTable

end Scoping
