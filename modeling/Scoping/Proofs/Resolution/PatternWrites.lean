import Scoping.Proofs.Resolution.Globals
import Scoping.Proofs.Resolution.SingleUses
import Scoping.Proofs.Walk.Receiving

/-! The writes to the names of a pattern. The references by each name are those of its values
by default, outermost first, and then those of what the node of the pattern gives. -/

namespace Scoping

/-- A use without the global that it may make. -/
def Use.bare (use : Use) : Use :=
  { use with implicitGlobal := none }

/-- What a table keeps of the use that an event is. -/
def Event.recorded? : Event → Option Use
  | .use usage => if usage.identifier.isIdentifier then some usage.bare else none
  | _ => none

theorem Use.bare_under (use : Use) (strict : Bool) : (use.under strict).bare = use.bare := by
  rw [use.eq_of_under strict]
  rfl

theorem countP_records (events : List Event) :
    events.countP Event.records = (events.filterMap Event.recorded?).length := by
  rw [List.length_filterMap_eq_countP]
  refine List.countP_congr fun event _ => ?_
  cases event with
  | use usage => by_cases h : usage.identifier.isIdentifier <;> simp [Event.records, Event.recorded?, h]
  | _ => simp [Event.records, Event.recorded?]

/-- Where a scope is from which a node gives values to a pattern. -/
def Home.Holds (home : Home) (settings : Settings) (table : SymbolTable) (past : List Event)
    (node : Node) (scope : ScopeId) : Prop :=
  match home with
  | .current => SymbolTable.CurrentAfter settings past scope
  | .own kind => table.BelongsTo scope kind node

/-- What the identifier of a use takes. -/
def Use.taken (use : Use) : Taken :=
  ⟨use.writeExpr, use.isPartial⟩

theorem Target.map_taken (target : Target) (source : Option Node) (init : Bool) (values : List Taken) :
    (target.uses source init values).map (Use.taken ∘ Use.bare) = values := by
  rw [Target.uses, List.map_map]
  exact List.map_id values

namespace SymbolTable

variable {settings : Settings} {table : SymbolTable} {tree : Tree} {node pattern identifier : Node}
  {past begun future : List Event} {event : Event} {inMethod : Bool} {before after : List Task}
  {home : Home} {init : Bool} {values : Node → List Taken} {target : Target}

/-- The references by an identifier, in the order in which they are recorded. -/
def referencesBy (table : SymbolTable) (identifier : Node) : List Reference :=
  table.references.toList.filter (·.identifier == identifier)

/-- All that a table has of an identifier are writes of some values, one after another, from
one scope. -/
structure WritesOnly (table : SymbolTable) (identifier : Node) (scope : ScopeId) (init : Bool)
    (values : List Taken) : Prop where
  taken : (table.referencesBy identifier).map (·.toUse.taken) = values
  alike : ∀ reference ∈ table.referencesBy identifier,
    reference.access = .write ∧ reference.init = init ∧ reference.scope = scope

/-- The references of a table are the uses in its program that it keeps, in that order. -/
theorem map_bare (hOk : analyze settings tree = .ok table) :
    table.references.toList.map (·.toUse.bare) =
      (programEvents settings tree.root).filterMap Event.recorded? := by
  have hSize := (sizes_after (spec_of_analyze_eq_ok hOk).2.2.2).2
  refine map_toList_eq_filterMap (hSize.trans (countP_records _)) fun position reference hReference => ?_
  obtain ⟨past, _, _, _, _, _, use, frame, hMade⟩ := exists_madeAt hOk hReference
  obtain ⟨future, hArrives⟩ := hMade.occurs.arrives
  refine ⟨past, _, future, hArrives.events_eq, hMade.number.trans (countP_records past), ?_⟩
  rw [Event.recorded?, if_pos hMade.identifier, hMade.use, Use.bare_under]

/-- The references by an identifier are the uses at its place. -/
theorem map_referencesBy (hOk : analyze settings tree = .ok table)
    (hUses : ∀ use ∈ usesAt identifier.location (programEvents settings tree.root),
      use.identifier.isIdentifier = true) :
    (table.referencesBy identifier).map (·.toUse.bare) =
      (usesAt identifier.location (programEvents settings tree.root)).map Use.bare := by
  have hFilter : (table.referencesBy identifier).map (·.toUse.bare) =
      (table.references.toList.map (·.toUse.bare)).filter (·.identifier == identifier) := by
    rw [List.filter_map]
    rfl
  rw [hFilter, map_bare hOk, List.filter_filterMap, usesAt, List.map_filterMap]
  refine List.filterMap_congr fun event hEvent => ?_
  cases event with
  | use usage =>
      by_cases hPlace : usage.identifier.location = identifier.location
      · have hKept := hUses usage (mem_usesAt.2 ⟨hEvent, hPlace⟩)
        simp [Event.recorded?, Event.useAt?, hKept, hPlace, Use.bare, Node.beq_iff]
      · by_cases hKept : usage.identifier.isIdentifier <;>
          simp [Event.recorded?, Event.useAt?, hKept, hPlace, Use.bare, Node.beq_iff]
  | _ => simp [Event.recorded?, Event.useAt?]

/-- A name of a pattern is defined or used in the scope from which the node of the pattern
gives values to it. -/
theorem exists_home (hOk : analyze settings tree = .ok table)
    (h : node.GivesTo pattern home init values)
    (hOccurs : Occurs settings tree.root past event begun inMethod node before after)
    (hValues : event.Values) :
    ∃ frame, (Trail.after settings past).head? = some frame ∧
      home.Holds settings table begun node frame.scope := by
  obtain ⟨future, hArrives⟩ := hOccurs.arrives
  obtain ⟨rest, hVisit⟩ := hOccurs.visit
  have hEvent : event ≠ .enter .global tree.root false := by
    rintro rfl
    exact hValues
  obtain ⟨frame, around, hTrail⟩ := List.exists_cons_of_ne_nil (after_ne_nil hArrives hEvent)
  refine ⟨frame, congrArg List.head? hTrail, ?_⟩
  obtain ⟨openings, inside, rest, hStretch, hOpened⟩ := h.exists_stretch { settings, inMethod }
  have hAfter := hOccurs.after_eq hStretch hValues
  cases home with
  | current =>
      obtain rfl : openings = [] := hOpened
      rw [List.append_nil] at hAfter
      obtain ⟨middle, hMiddle, -⟩ :=
        exists_run_of_append (hVisit.events ▸ (spec_of_analyze_eq_ok hOk).2.2.2)
      exact currentAfter_of_cons hMiddle (hAfter.symm.trans hTrail)
  | own kind =>
      obtain ⟨first, flag, rfl⟩ := hOpened
      rw [← List.append_assoc, Trail.after_concat, hTrail] at hAfter
      obtain ⟨rfl, -⟩ := List.cons.inj hAfter
      obtain ⟨scope, hScope, hPlaces⟩ := (chronicle_of_analyze_eq_ok hOk).openings.frames _
        (entry_mem_programLog hArrives) _ (hTrail ▸ List.mem_cons_self)
      exact ⟨scope, hScope, hPlaces.kind, hPlaces.block⟩

section

variable (hOk : analyze settings tree = .ok table) (hKeys : settings.options.childVisitorKeys = none)
  (hNames : tree.root.NamesOnce) (h : node.GivesTo pattern home init values)
include hOk hKeys hNames h

/-- The references by a name of a pattern stand in the scope from which the node of the
pattern gives values to it. -/
theorem scope_of_mem_referencesBy {frame : Frame} {reference : Reference}
    (hOccurs : Occurs settings tree.root past event begun inMethod node before after)
    (hName : event.identifier? = some identifier) (hValues : event.Values)
    (hFrame : (Trail.after settings past).head? = some frame)
    (hReference : reference ∈ table.referencesBy identifier) : reference.scope = frame.scope := by
  obtain ⟨hMem, hSame⟩ := List.mem_filter.1 hReference
  obtain ⟨id, hId⟩ := List.mem_iff_getElem?.1 hMem
  rw [Array.getElem?_toList] at hId
  obtain ⟨_, _, _, _, _, _, _, place, hMade⟩ := exists_madeAt hOk hId
  rw [Node.beq_iff, hMade.reference_identifier] at hSame
  obtain ⟨rfl, rfl, rfl⟩ := hOccurs.same (Settings.keys_eq_of_none hKeys) hNames hMade.occurs hName rfl
    hSame.symm
  obtain ⟨openings, inside, rest, hStretch, -⟩ := h.exists_stretch { settings, inMethod }
  -- Both come in the stretch that the openings of the node are before.
  have hAfter := (hOccurs.after_eq hStretch hValues).trans (hMade.occurs.after_eq hStretch trivial).symm
  rw [hMade.scope, Option.some.inj (hMade.current.symm.trans (hAfter ▸ hFrame))]

/-- A name of a pattern takes its values by default, and then what the node of the pattern gives,
from one scope. -/
theorem exists_writesOnly (hVisit : Arrives settings tree.root past (.visit inMethod node) future)
    (hTarget : target ∈ Pattern.targetsIn settings.keys pattern) :
    ∃ scope, home.Holds settings table past node scope ∧
      WritesOnly table target.identifier scope init (target.byDefault ++ values target.identifier) := by
  have hCustom := Settings.keys_eq_of_none hKeys
  have hNode := hNames.of_holds (.inr hVisit.contains)
  -- A name that takes no value is defined, and that event comes in the same scope.
  obtain ⟨event, hEvent, hName, hValues⟩ := h.exists_event { settings, inMethod } hCustom hNode hTarget
  obtain ⟨before, after, hSplit⟩ := List.append_of_mem hEvent
  have hOccurs : Occurs settings tree.root _ event past inMethod node before after :=
    ⟨⟨future, hVisit⟩, hSplit, rfl⟩
  obtain ⟨frame, hFrame, hHolds⟩ := exists_home hOk h hOccurs hValues
  obtain ⟨source, hTasks⟩ := h.usesAt_tasks { settings, inMethod } hCustom hNode hTarget
  have hUses := (hOccurs.usesAt_eq hCustom hNames hName).trans hTasks
  have hKept : ∀ use ∈ usesAt target.identifier.location (programEvents settings tree.root),
      use.identifier.isIdentifier = true := by
    intro use hUse
    obtain ⟨found, hFound, hMem⟩ := Pattern.exists_of_mem_targetsIn hTarget
    rw [Target.mem_uses (hUses ▸ hUse), Node.isIdentifier, (Pattern.noted_ofNode hFound hMem).kind]
    rfl
  have hReferences := map_referencesBy hOk hKept
  rw [hUses] at hReferences
  refine ⟨frame.scope, hHolds, ?_, fun reference hReference => ?_⟩
  · have hTaken := congrArg (List.map Use.taken) hReferences
    rw [List.map_map, List.map_map, target.map_taken] at hTaken
    exact hTaken
  · have hMem : reference.toUse.bare ∈ (target.uses source init
        (target.byDefault ++ values target.identifier)).map Use.bare :=
      hReferences ▸ List.mem_map.2 ⟨reference, hReference, rfl⟩
    obtain ⟨usage, hUsage, hSame⟩ := List.mem_map.1 hMem
    obtain ⟨taken, -, rfl⟩ := List.mem_map.1 hUsage
    exact ⟨congrArg Use.access hSame.symm, congrArg Use.init hSame.symm,
      scope_of_mem_referencesBy hOk hKeys hNames h hOccurs hName hValues hFrame hReference⟩

/-- The references by each name of a pattern are writes from one scope: of the values by default
around the name, outermost first, and then of what the node of the pattern gives. -/
theorem patterns_write_in_order (hVisit : Arrives settings tree.root past (.visit inMethod node) future)
    (hIdentifier : identifier ∈ Pattern.identifiersIn settings.keys pattern) :
    ∃ scope defaults, home.Holds settings table past node scope ∧
      Pattern.DefaultsOf Pattern.defaultKinds pattern identifier defaults ∧
      (∀ assignment ∈ defaults, ∃ right, assignment.child? "right" = some right) ∧
      WritesOnly table identifier scope init
        (defaults.map (Taken.ofAssignment identifier) ++ values identifier) := by
  obtain ⟨target, hTarget, rfl⟩ := List.mem_map.1 hIdentifier
  obtain ⟨scope, hHolds, hWrites⟩ := exists_writesOnly hOk hKeys hNames h hVisit hTarget
  obtain ⟨found, hFound, hMem⟩ := Pattern.exists_of_mem_targetsIn hTarget
  exact ⟨scope, target.defaults, hHolds, (Pattern.tells_ofNode hFound hMem).defaults,
    fun assignment hDefault => Pattern.exists_right hFound hMem hDefault, hWrites⟩

end

/-- The program `let [[a = b] = c, d] = e;`. -/
def nestedDefaults : Tree where
  root := {
    location := []
    kind := "Program"
    entries := [("type", .string "Program"), ("body", .array [.object [
      ("type", .string "VariableDeclaration"), ("kind", .string "let"), ("declarations", .array [
        .object [("type", .string "VariableDeclarator"), ("id", array [
          default (array [default (name "a") (name "b")]) (name "c"), name "d"]), ("init", name "e")]])]])] }
where
  name (text : String) : Json := .object [("type", .string "Identifier"), ("name", .string text)]
  array (elements : List Json) : Json :=
    .object [("type", .string "ArrayPattern"), ("elements", .array elements)]
  default (left right : Json) : Json :=
    .object [("type", .string "AssignmentPattern"), ("left", left), ("right", right)]

/-- Of its three values the name `a` takes all of `b` only, which is the innermost default. -/
theorem patterns_write_in_order_nestedDefaults :
    ∃ table past future declaration declarator pattern name scope defaults,
      analyze ⟨{}, 9⟩ nestedDefaults = .ok table ∧
      table.references.map (fun reference =>
        (reference.identifier.name, reference.writeExpr.map Node.name, reference.isPartial)) =
          #[("a", some "c", true), ("a", some "b", false), ("a", some "e", true), ("d", some "e", true),
            ("b", none, false), ("c", none, false), ("e", none, false)] ∧
      nestedDefaults.root.NamesOnce ∧
      Arrives ⟨{}, 9⟩ nestedDefaults.root past (.visit false declaration) future ∧
      declaration.GivesTo pattern .current true (fun name => Taken.ofDeclarator name declarator) ∧
      name ∈ Pattern.identifiersIn (⟨{}, 9⟩ : Settings).keys pattern ∧ name.name = "a" ∧
      Home.Holds .current ⟨{}, 9⟩ table past declaration scope ∧
      Pattern.DefaultsOf Pattern.defaultKinds pattern name defaults ∧
      (∀ assignment ∈ defaults, ∃ right, assignment.child? "right" = some right) ∧
      WritesOnly table name scope true
        (defaults.map (Taken.ofAssignment name) ++ Taken.ofDeclarator name declarator) := by
  have hAnalyze : (analyze ⟨{}, 9⟩ nestedDefaults).toOption.map (fun table =>
      table.references.map fun reference =>
        (reference.identifier.name, reference.writeExpr.map Node.name, reference.isPartial)) =
          some #[("a", some "c", true), ("a", some "b", false), ("a", some "e", true),
            ("d", some "e", true), ("b", none, false), ("c", none, false), ("e", none, false)] := by
    decide +kernel
  have hNames : nestedDefaults.root.NamesOnce := by
    have hValue : Json.NamesOnce (.object nestedDefaults.root.entries) := by
      simp [nestedDefaults, nestedDefaults.name, nestedDefaults.array, nestedDefaults.default]
    exact Node.namesOnce_of_ofJson? hValue rfl
  obtain ⟨declaration, declarator, pattern, hSplit, hRole, hDeclared, hPattern, hIdentifiers⟩ :
      ∃ declaration declarator pattern,
        (∃ before after, Walker.program { settings := ⟨{}, 9⟩ } nestedDefaults.root =
          before ++ .visit false declaration :: after) ∧
        Role.ofKind declaration.kind = .variableDeclaration ∧
        declaration.children "declarations" = [declarator] ∧ declarator.child? "id" = some pattern ∧
        (Pattern.identifiersIn (⟨{}, 9⟩ : Settings).keys pattern).map Node.name = ["a", "d"] :=
    ⟨_, _, _, ⟨[_], _, rfl⟩, rfl, rfl, rfl, by decide +kernel⟩
  obtain ⟨table, hOk, hSeen⟩ := exists_of_map_toOption _ hAnalyze
  obtain ⟨before, after, hSplit⟩ := hSplit
  obtain ⟨name, hName, hText⟩ := List.mem_map.1 (hIdentifiers ▸ List.mem_cons_self)
  have hGives : declaration.GivesTo pattern .current true fun name => Taken.ofDeclarator name declarator :=
    .declaration hRole (hDeclared ▸ List.mem_cons_self) hPattern
  obtain ⟨scope, defaults, hWrites⟩ :=
    patterns_write_in_order hOk rfl hNames hGives (.program hSplit) hName
  exact ⟨table, _, _, declaration, declarator, pattern, name, scope, defaults, hOk, hSeen, hNames,
    .program hSplit, hGives, hName, hText, hWrites⟩

end SymbolTable

end Scoping
