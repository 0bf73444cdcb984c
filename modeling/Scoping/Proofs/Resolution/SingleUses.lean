import Scoping.Proofs.Nesting.Occurrences
import Scoping.Proofs.Resolution.Reordering
import Scoping.Proofs.Walk.Reads

/-! The uses of one identifier. All of them are part of the work at one node. Either one of them
reads, and is the only one, or they write to one name from one scope. -/

namespace Scoping

/-- A use as it is recorded differs from the use only in the global that it makes. -/
theorem Use.eq_of_under (use : Use) (strict : Bool) :
    use.under strict = { use with implicitGlobal := (use.under strict).implicitGlobal } := by
  unfold under
  split <;> rfl

namespace SymbolTable

variable {settings : Settings} {table : SymbolTable} {tree : Tree} {root node other : Node}
  {past begun later started : List Event} {inMethod flag : Bool} {before after first last : List Task}
  {frame place : Frame} {use usage : Use} {id : ReferenceId} {reference : Reference} {identifier : Node}

/-- A reference, with the use in the work at a node that it records. -/
structure MadeAt (settings : Settings) (root : Node) (id : ReferenceId) (reference : Reference)
    (past begun : List Event) (inMethod : Bool) (node : Node) (before after : List Task) (use : Use)
    (frame : Frame) : Prop where
  occurs : Occurs settings root past (.use use) begun inMethod node before after
  identifier : use.identifier.isIdentifier = true
  number : id = past.countP Event.records
  current : (Trail.after settings past).head? = some frame
  use : reference.toUse = use.under frame.strict
  scope : reference.scope = frame.scope

theorem exists_madeAt (hOk : analyze settings tree = .ok table)
    (hReference : table.references[id]? = some reference) :
    ∃ past begun inMethod node before after use frame,
      MadeAt settings tree.root id reference past begun inMethod node before after use frame := by
  obtain ⟨entry, hEntry, frame, use, hNumber, ⟨hEvent, hIdentifier, hCurrent⟩, hUse, hScope⟩ :=
    (chronicle_of_analyze_eq_ok hOk).exists_entry hReference
  obtain ⟨past, future, event, hArrives, rfl⟩ := mem_programLog.1 hEntry
  obtain rfl : event = .use use := hEvent
  obtain ⟨begun, inMethod, node, before, after, hOccurs⟩ := hArrives.exists_occurs rfl
  refine ⟨past, begun, inMethod, node, before, after, use, frame, hOccurs, hIdentifier, ?_, hCurrent, hUse,
    hScope⟩
  rw [← hNumber]
  simp [Numbered.after, Event.opens, Event.records, hIdentifier]

namespace MadeAt

theorem reference_identifier
    (h : MadeAt settings root id reference past begun inMethod node before after use frame) :
    reference.identifier = use.identifier := by
  rw [h.use, Use.eq_of_under]

theorem access (h : MadeAt settings root id reference past begun inMethod node before after use frame) :
    reference.access = use.access := by
  rw [h.use, Use.eq_of_under]

/-- Two references made at once are one, and those that are made with the same scopes open stand
in one. -/
theorem scope_eq {again : ReferenceId} {found : Reference}
    (h : MadeAt settings root id reference past begun inMethod node before after use frame)
    (hOther : MadeAt settings root again found later started flag other first last usage place)
    (hSame : Trail.after settings past = Trail.after settings later) :
    reference.scope = found.scope := by
  have hFrame : frame = place := Option.some.inj (h.current.symm.trans (hSame ▸ hOther.current))
  rw [h.scope, hOther.scope, hFrame]

variable (hKeys : settings.options.childVisitorKeys = none) (hNames : root.NamesOnce)

include hKeys hNames

/-- References by one identifier are one if the first reads, and stand in one scope. -/
theorem same {again : ReferenceId} {found : Reference}
    (h : MadeAt settings root id reference past begun inMethod node before after use frame)
    (hOther : MadeAt settings root again found later started flag other first last usage place)
    (hSame : reference.identifier.location = found.identifier.location) :
    reference.scope = found.scope ∧ (reference.access.reads = true → again = id) := by
  rw [h.reference_identifier, hOther.reference_identifier] at hSame
  obtain ⟨rfl, rfl, rfl⟩ :=
    h.occurs.same (Settings.keys_eq_of_none hKeys) hNames hOther.occurs rfl rfl hSame
  rcases Walker.only_or_write h.occurs.mem_tasks with hOnly | ⟨hWrite, hRole⟩
  · have hPast : past = later := by
      rw [h.occurs.past, hOther.occurs.past, hOnly.eq_nil h.occurs.split, hOnly.eq_nil hOther.occurs.split]
    exact ⟨h.scope_eq hOther (by rw [hPast]), fun _ => by rw [h.number, hOther.number, hPast]⟩
  · refine ⟨h.scope_eq hOther (h.occurs.after_eq_after hOther.occurs hRole trivial trivial), fun hReads => ?_⟩
    rw [h.access, hWrite] at hReads
    cases hReads

end MadeAt

/-- A reference that reads is no first value, and takes all of a value if it gives one. -/
theorem MadeAt.of_reads
    (h : MadeAt settings root id reference past begun inMethod node before after use frame)
    (hReads : reference.access.reads = true) : reference.init = false ∧ reference.isPartial = false ∧
      (reference.writeExpr.isSome = true → reference.access.writes = true) := by
  rw [h.access] at hReads
  rcases Walker.only_or_write h.occurs.mem_tasks with hOnly | ⟨hWrite, -⟩
  · rw [h.use, Use.eq_of_under]
    exact ⟨hOnly.init, hOnly.isPartial, hOnly.writeExpr⟩
  · rw [hWrite] at hReads
    cases hReads

/-- A reference by an identifier. -/
structure ReferenceBy (table : SymbolTable) (identifier : Node) (id : ReferenceId)
    (reference : Reference) : Prop where
  found : table.references[id]? = some reference
  identifier : (reference.identifier == identifier) = true

/-- What a table holds of the uses of an identifier. -/
structure SingleUses (table : SymbolTable) (identifier : Node) : Prop where
  /-- They stand in one scope, and all other scopes find none. -/
  home : ∃ home, (∀ id reference, table.ReferenceBy identifier id reference → reference.scope = home) ∧
    ∀ scope ≠ home, table.referenceAt scope identifier = .ok none
  /-- One that reads is the only one. -/
  reads : ∀ id reference, table.ReferenceBy identifier id reference → reference.access.reads = true →
    (∀ other found, table.ReferenceBy identifier other found → other = id) ∧
      reference.init = false ∧ reference.isPartial = false ∧
      (reference.writeExpr.isSome = true → reference.access.writes = true)

/-- A closed scope finds only what stands in it. -/
theorem referenceAt_eq_none (hOk : analyze settings tree = .ok table)
    (hIdentifier : identifier.isIdentifier = true) {scope : ScopeId}
    (h : ∀ id reference, table.ReferenceBy identifier id reference → reference.scope ≠ scope) :
    table.referenceAt scope identifier = .ok none := by
  obtain ⟨hStack, hNested, -⟩ := spec_of_analyze_eq_ok hOk
  unfold referenceAt
  split
  · rfl
  · next entry hEntry =>
      have hClosed : entry.isClosed = true := by
        have hOpen := hNested.open_iff scope entry hEntry
        simpa [Scope.isClosed] using hOpen
      have hNone : (entry.references.find? fun id =>
          table.references[id]?.any fun reference => reference.identifier == identifier) = none := by
        refine Array.find?_eq_none.2 fun id hMem hAny => ?_
        obtain ⟨reference, hReference, hScope⟩ :=
          (accounted_of_analyze_eq_ok hOk).scope_of_mem hNested hEntry hMem
        rw [hReference, Option.any_some] at hAny
        exact h id reference ⟨hReference, hAny⟩ hScope
      simp [hClosed, hIdentifier, hNone]

/-- References by one identifier stand in one scope, and one that reads is the only one. -/
theorem ReferenceBy.same (hOk : analyze settings tree = .ok table)
    (hKeys : settings.options.childVisitorKeys = none) (hNames : tree.root.NamesOnce)
    {again : ReferenceId} {found : Reference} (h : table.ReferenceBy identifier id reference)
    (hOther : table.ReferenceBy identifier again found) :
    reference.scope = found.scope ∧ (reference.access.reads = true → again = id) := by
  obtain ⟨_, _, _, _, _, _, _, _, hMade⟩ := exists_madeAt hOk h.found
  obtain ⟨_, _, _, _, _, _, _, _, hAlso⟩ := exists_madeAt hOk hOther.found
  exact hMade.same hKeys hNames hAlso
    ((Node.beq_iff.1 h.identifier).trans (Node.beq_iff.1 hOther.identifier).symm)

/-- An identifier that is read is used once, and one that is only written is used from one
scope, however the walk comes to it. -/
theorem identifiers_used_once (hOk : analyze settings tree = .ok table)
    (hKeys : settings.options.childVisitorKeys = none) (hNames : tree.root.NamesOnce)
    (hIdentifier : identifier.isIdentifier = true) : SingleUses table identifier where
  home := by
    by_cases hUsed : ∃ id reference, table.ReferenceBy identifier id reference
    · obtain ⟨id, reference, hFirst⟩ := hUsed
      have hHome : ∀ other found, table.ReferenceBy identifier other found →
          found.scope = reference.scope := fun other found hOther =>
        (hOther.same hOk hKeys hNames hFirst).1
      exact ⟨reference.scope, hHome, fun scope hScope => referenceAt_eq_none hOk hIdentifier
        fun other found hOther => (hHome other found hOther).trans_ne hScope.symm⟩
    · have hNone : ∀ id reference, ¬ table.ReferenceBy identifier id reference :=
        fun id reference h => hUsed ⟨id, reference, h⟩
      exact ⟨0, fun id reference h => absurd h (hNone id reference), fun scope _ =>
        referenceAt_eq_none hOk hIdentifier fun id reference h => absurd h (hNone id reference)⟩
  reads := fun id reference hFirst hReads => by
    obtain ⟨_, _, _, _, _, _, _, _, hMade⟩ := exists_madeAt hOk hFirst.found
    exact ⟨fun other found hOther => (hFirst.same hOk hKeys hNames hOther).2 hReads,
      hMade.of_reads hReads⟩

/-- The program `[a = b] = c; d += 1`. -/
def readAndWritten : Tree where
  root := {
    location := []
    kind := "Program"
    entries := [("type", .string "Program"), ("body", .array [
      assignment "=" (.object [("type", .string "ArrayPattern"), ("elements", .array [
        .object [("type", .string "AssignmentPattern"), ("left", name "a"), ("right", name "b")]])])
        (name "c"),
      assignment "+=" (name "d") (.object [("type", .string "Literal")])])] }
where
  name (text : String) : Json := .object [("type", .string "Identifier"), ("name", .string text)]
  assignment (operator : String) (left right : Json) : Json :=
    .object [("type", .string "ExpressionStatement"), ("expression", .object [
      ("type", .string "AssignmentExpression"), ("operator", .string operator), ("left", left),
      ("right", right)])]

/-- Only `a` is used twice, as it may take a default. -/
theorem identifiers_used_once_readAndWritten :
    ∃ table first, analyze ⟨{}, 9⟩ readAndWritten = .ok table ∧
      table.references.map (fun reference => (reference.identifier.name, reference.access)) =
        #[("a", .write), ("a", .write), ("b", .read), ("c", .read), ("d", .readWrite)] ∧
      table.references[0]? = some first ∧ first.identifier.isIdentifier = true ∧
      SingleUses table first.identifier := by
  have hAnalyze : (analyze ⟨{}, 9⟩ readAndWritten).toOption.map (fun table =>
      (table.references.map (fun reference => (reference.identifier.name, reference.access)),
        table.references[0]?.map fun reference => reference.identifier.isIdentifier)) =
        some (#[("a", .write), ("a", .write), ("b", .read), ("c", .read), ("d", .readWrite)],
          some true) := by
    decide +kernel
  have hNames : readAndWritten.root.NamesOnce := by
    have hValue : Json.NamesOnce (.object readAndWritten.root.entries) := by
      simp [readAndWritten, readAndWritten.name, readAndWritten.assignment]
    exact Node.namesOnce_of_ofJson? hValue rfl
  obtain ⟨table, hOk, hObserved⟩ := exists_of_map_toOption _ hAnalyze
  obtain ⟨hSeen, hRead⟩ := Prod.mk.inj hObserved
  obtain ⟨first, hFirst, hIdentifier⟩ := Option.map_eq_some_iff.1 hRead
  exact ⟨table, first, hOk, hSeen, hFirst, hIdentifier,
    identifiers_used_once hOk rfl hNames hIdentifier⟩

end SymbolTable

end Scoping
