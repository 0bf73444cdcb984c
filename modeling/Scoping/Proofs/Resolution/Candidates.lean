import Scoping.Proofs.Nesting.Occurrences
import Scoping.Proofs.Placement.Stretches
import Scoping.Proofs.Resolution.Alike
import Scoping.Proofs.Walk.Writes

/-! The references that can make a global of one identifier. All of them come of the
writes to one target, one after another, and they are left in the global scope together. -/

namespace Scoping

/-- The writes to one target in the work at a node, and what comes before and after
them. That writes to other targets. -/
structure WritesTo (node : Node) (target : Target) (tasks : List Task) (last : Use)
    (first : List Event) (rest : List Task) : Prop where
  split : tasks = first.map .emit ++ ((target.writes node last).map .emit ++ rest)
  last : last.Writes node target
  first : ∀ use, .use use ∈ first → use.identifier.location ≠ target.identifier.location
  rest : ∀ use, .emit (.use use) ∈ rest → use.identifier.location ≠ target.identifier.location

/-- A target of what stands left in a node that assigns. -/
def Node.AssignsTo (keys : ChildKeys) (node : Node) (target : Target) : Prop :=
  node.AssignsLeft ∧ ∃ left found, node.child? "left" = some left ∧
    Pattern.ofNode keys left = .ok found ∧ target ∈ found.targets

variable {settings : Settings} {root node : Node} {past begun : List Event} {usage last use : Use}
  {inMethod : Bool} {before after rest : List Task} {target other : Target} {first : List Event}
  {targets : List Target} {lasts : Target → Use}

theorem Node.AssignsLeft.role (h : node.AssignsLeft) : Role.ofKind node.kind ∈
    [Role.assignment, .forEach, .variableDeclaration, .function, .catchClause] := by
  rcases h with ⟨hKind, -⟩ | ⟨hKind, -⟩
  · rw [hKind]
    decide
  · have hRole : Role.ofKind node.kind = .forEach := Role.ofKind_of_mem hKind
    rw [hRole]
    decide

theorem ne_of_mem_writes (hLast : ∀ target, (lasts target).Writes node target)
    (h : .use use ∈ targets.flatMap fun target => target.writes node (lasts target))
    (hApart : ∀ found ∈ targets, found.identifier.location ≠ other.identifier.location) :
    use.identifier.location ≠ other.identifier.location := by
  obtain ⟨found, hFound, hMem⟩ := List.mem_flatMap.1 h
  obtain ⟨same, hEq, hWrites⟩ := Target.exists_of_mem_writes hMem (hLast found)
  cases hEq
  rw [hWrites.identifier]
  exact hApart found hFound

/-- Only the writes to a target are at the place of it. -/
theorem Node.AssignsTo.exists_writesTo (h : node.AssignsTo settings.keys target)
    (hCustom : settings.keys.custom = []) (hNames : node.NamesOnce)
    (hUse : .emit (.use usage) ∈ Walker.tasks { settings, inMethod } node) :
    ∃ last first rest, WritesTo node target (Walker.tasks { settings, inMethod } node) last first rest := by
  obtain ⟨hSource, left, found, hLeft, hFound, hTarget⟩ := h
  obtain ⟨lasts, behind, hWrites⟩ := Walker.exists_writes hSource hLeft hFound hUse
  have hScattered := Pattern.scattered_collect hCustom
    (hNames.of_holds (.inr (Node.contains_of_child? hLeft))) hFound
  obtain ⟨ahead, later, hTargets⟩ := List.append_of_mem hTarget
  rw [hTargets, List.map_append, List.map_cons, Node.Scattered, List.pairwise_append,
    List.pairwise_cons] at hScattered
  obtain ⟨-, ⟨hLater, -⟩, hAhead⟩ := hScattered
  refine ⟨lasts target, ahead.flatMap fun target => target.writes node (lasts target),
    (later.flatMap fun target => target.writes node (lasts target)).map .emit ++ behind, ?_,
    hWrites.last target, fun use hMem => ?_, fun use hMem => ?_⟩
  · rw [hWrites.split, hTargets]
    simp only [List.flatMap_append, List.flatMap_cons, List.map_append, List.append_assoc]
  · refine ne_of_mem_writes hWrites.last hMem fun found hMember hSame => ?_
    exact (hAhead _ (List.mem_map_of_mem hMember) _ List.mem_cons_self).1 (hSame ▸ List.suffix_refl _)
  · rcases List.mem_append.1 hMem with hEmit | hBehind
    · obtain ⟨event, hEvent, hEq⟩ := List.mem_map.1 hEmit
      cases hEq
      refine ne_of_mem_writes hWrites.last hEvent fun found hMember hSame => ?_
      exact (hLater _ (List.mem_map_of_mem hMember)).1 (hSame ▸ List.suffix_refl _)
    · exact absurd hBehind (hWrites.behind use)

/-- What comes before one of the writes to a target. -/
theorem WritesTo.exists_take (h : WritesTo node target (Walker.tasks { settings, inMethod } node) last
      first rest) (hOccurs : Occurs settings root past (.use use) begun inMethod node before after)
    (hPlace : use.identifier.location = target.identifier.location) :
    ∃ count < target.defaults.length + 1,
      past = begun ++ (first ++ (target.writes node last).take count) := by
  obtain ⟨ahead, behind, rfl, hInside⟩ := exists_of_append_eq (h.split.symm.trans hOccurs.split)
    (fun hMem => by
      obtain ⟨event, hEvent, hEq⟩ := List.mem_map.1 hMem
      cases hEq
      exact h.first use hEvent hPlace)
    fun hMem => h.rest use hMem hPlace
  obtain ⟨taken, more, hWrites, rfl, hMore⟩ := List.map_eq_append_iff.1 hInside
  obtain ⟨event, dropped, rfl, -, -⟩ := List.map_eq_cons_iff.1 hMore
  refine ⟨taken.length, ?_, ?_⟩
  · rw [← Target.length_writes target node last, hWrites, List.length_append]
    exact Nat.lt_add_of_pos_right (Nat.succ_pos _)
  · rw [hOccurs.past, hWrites, List.take_left, List.flatMap_append, flatMap_events_emit,
      flatMap_events_emit]

/-- Each of the writes to a target comes at its place among them. -/
theorem WritesTo.exists_occurs {future : List Event}
    (h : WritesTo node target (Walker.tasks { settings, inMethod } node) last first rest)
    (hVisit : Arrives settings root begun (.visit inMethod node) future) {count : Nat}
    (hCount : count < target.defaults.length + 1) :
    ∃ use before after, use.Writes node target ∧
      Occurs settings root (begun ++ (first ++ (target.writes node last).take count)) (.use use) begun
        inMethod node before after := by
  rw [← Target.length_writes target node last] at hCount
  obtain ⟨use, hUse, hWrites⟩ := Target.exists_of_mem_writes (List.getElem_mem hCount) h.last
  refine ⟨use, (first ++ (target.writes node last).take count).map .emit,
    ((target.writes node last).drop (count + 1)).map .emit ++ rest, hWrites, ⟨_, hVisit⟩, ?_,
    by rw [flatMap_events_emit]⟩
  have hAll : (target.writes node last).map Task.emit =
      ((target.writes node last).take count).map .emit ++
        .emit (.use use) :: ((target.writes node last).drop (count + 1)).map .emit := by
    rw [← hUse, ← List.map_cons, List.getElem_cons_drop, ← List.map_append, List.take_append_drop]
  rw [h.split, hAll, List.map_append]
  simp only [List.append_assoc, List.cons_append]

namespace SymbolTable

variable {table : SymbolTable} {tree : Tree} {id : ReferenceId} {reference : Reference}
  {place : Location}

/-- A reference to the identifier at a place, which can make a global of its name. -/
def Candidate (table : SymbolTable) (place : Location) (id : ReferenceId) : Prop :=
  ∃ reference, table.references[id]? = some reference ∧ reference.identifier.location = place ∧
    reference.implicitGlobal.isSome = true

theorem RecordsAt.exists_occurs (h : RecordsAt settings root id node use) :
    use.identifier.isIdentifier = true ∧ ∃ past begun inMethod before after,
      Occurs settings root past (.use use) begun inMethod node before after ∧
        id = past.countP Event.records := by
  obtain ⟨begun, inMethod, rest, before, after, hVisit, hTasks, hIdentifier, rfl⟩ := h
  exact ⟨hIdentifier, _, begun, inMethod, before, after, ⟨⟨rest, hVisit⟩, hTasks, rfl⟩, rfl⟩

/-- A candidate is a write to a target of a node that assigns. -/
theorem Candidate.exists_occurs (hOk : analyze settings tree = .ok table) (h : Candidate table place id) :
    ∃ node target use past begun inMethod before after, node.AssignsTo settings.keys target ∧
      use.identifier = target.identifier ∧ use.identifier.location = place ∧
      use.identifier.isIdentifier = true ∧
      Occurs settings tree.root past (.use use) begun inMethod node before after ∧
      id = past.countP Event.records := by
  obtain ⟨reference, hReference, rfl, hMakes⟩ := h
  obtain ⟨node, hNode⟩ := Option.isSome_iff_exists.1 hMakes
  obtain ⟨same, home, use, hSame, -, -, hRecords, hIdentifier, -, hAssigns⟩ :=
    (implicitGlobal_iff hOk hReference).1 hNode
  cases hSame.symm.trans hReference
  obtain ⟨left, found, hLeft, hFound, target, hTarget, hEq⟩ := hAssigns.target
  obtain ⟨hIs, past, begun, inMethod, before, after, hOccurs, hId⟩ := RecordsAt.exists_occurs hRecords
  exact ⟨node, target, use, past, begun, inMethod, before, after,
    ⟨hAssigns.source, left, found, hLeft, hFound, hTarget⟩, hEq, by rw [hIdentifier], hIs, hOccurs, hId⟩

theorem number_of_use (hIdentifier : use.identifier.isIdentifier = true) :
    (Numbered.after past (.use use)).number = past.countP Event.records := by
  simp [Numbered.after, Event.opens, Event.records, hIdentifier]

/-- A use of an identifier is recorded in the scope that is the current one. -/
theorem exists_records (h : Occurs settings root past (.use use) begun inMethod node before after)
    (hIdentifier : use.identifier.isIdentifier = true) :
    (Trail.after settings past, Numbered.after past (.use use)) ∈ programLog settings root ∧
      ∃ frame, Entry.Records (Trail.after settings past, .after past (.use use)) frame use := by
  obtain ⟨future, hArrives⟩ := h.arrives
  obtain ⟨frame, rest, hTrail⟩ := List.exists_cons_of_ne_nil (after_ne_nil hArrives nofun)
  exact ⟨entry_mem_programLog hArrives, frame, rfl, hIdentifier, by rw [hTrail]; rfl⟩

/-- Of two writes to one target in the work at a node, one is a candidate just if the
other is, and they are left together. -/
theorem candidate_of_writes (hOk : analyze settings tree = .ok table) {later : List Event}
    {again : Use} {ahead behind : List Task} (hSource : node.AssignsLeft)
    (h : Occurs settings tree.root past (.use use) begun inMethod node before after)
    (hOther : Occurs settings tree.root later (.use again) begun inMethod node ahead behind)
    (hIdentifier : use.identifier.isIdentifier = true)
    (hCandidate : Candidate table place (past.countP Event.records))
    (hAgain : again.Writes node target) (hSame : use.identifier = target.identifier) :
    Candidate table place (later.countP Event.records) ∧
      (Leaves settings table (past.countP Event.records) →
        Leaves settings table (later.countP Event.records)) := by
  have hChronicle := chronicle_of_analyze_eq_ok hOk
  have hNames : again.identifier = use.identifier := hAgain.identifier.trans hSame.symm
  have hAlso : again.identifier.isIdentifier = true := by rw [hNames, hIdentifier]
  obtain ⟨hEntry, frame, hRecords⟩ := exists_records h hIdentifier
  obtain ⟨hFound, -, -⟩ := exists_records hOther hAlso
  have hTrail := h.after_eq_after hOther hSource.role trivial trivial
  have hAgainRecords : Entry.Records (Trail.after settings later, .after later (.use again)) frame again :=
    ⟨rfl, hAlso, hTrail ▸ hRecords.current⟩
  obtain ⟨reference, hReference, hPlace, hMakes⟩ := hCandidate
  obtain ⟨same, hHere, hUse, -⟩ := hChronicle.recordings.recorded _ hEntry frame use hRecords
  obtain ⟨other, hThere, hUsed, -⟩ := hChronicle.recordings.recorded _ hFound frame again hAgainRecords
  rw [number_of_use hIdentifier] at hHere
  rw [number_of_use hAlso] at hThere
  cases hHere.symm.trans hReference
  have hSloppy : frame.strict = false := by
    rw [Bool.eq_false_iff]
    intro hStrict
    rw [hUse, Use.under, if_pos hStrict] at hMakes
    cases hMakes
  refine ⟨⟨other, hThere, ?_, ?_⟩, fun hLeaves => ?_⟩
  · rw [hUsed, Use.identifier_under, hNames, ← hPlace, hUse, Use.identifier_under]
  · rw [hUsed, Use.under, if_neg (by simp [hSloppy]), hAgain.implicitGlobal]
    rfl
  · rw [← number_of_use hAlso]
    rw [← number_of_use hIdentifier] at hLeaves
    exact hChronicle.leaves_of_alike hEntry hFound hTrail hRecords hAgainRecords (by rw [hNames]) hLeaves

/-- The number of a reference to a target, among those of its node. -/
theorem countP_writes {count : Nat} (hLast : last.Writes node target)
    (hIdentifier : target.identifier.isIdentifier = true) (hCount : count < target.defaults.length + 1) :
    (begun ++ (first ++ (target.writes node last).take count)).countP Event.records =
      (begun ++ first).countP Event.records + count := by
  have hAll : ∀ event ∈ (target.writes node last).take count, event.records = true := by
    intro event hEvent
    obtain ⟨use, rfl, hWrites⟩ := Target.exists_of_mem_writes (List.mem_of_mem_take hEvent) hLast
    rw [Event.records, hWrites.identifier, hIdentifier]
  rw [← List.append_assoc, List.countP_append, List.countP_eq_length.2 hAll, List.length_take,
    Target.length_writes, Nat.min_eq_left (Nat.le_of_lt hCount)]

/-- All the candidates at a place are writes to one target, and are recorded one after
another. They are left together. -/
theorem Candidate.exists_range (hOk : analyze settings tree = .ok table)
    (hKeys : settings.options.childVisitorKeys = none) (hNames : tree.root.NamesOnce)
    (h : Candidate table place id) :
    ∃ past future inMethod node target start,
      Arrives settings tree.root past (.visit inMethod node) future ∧
      node.AssignsTo settings.keys target ∧ target.identifier.location = place ∧
      ∀ other, (Candidate table place other ↔
          start ≤ other ∧ other < start + (target.defaults.length + 1)) ∧
        (Candidate table place other → Leaves settings table id → Leaves settings table other) := by
  have hCustom := Settings.keys_eq_of_none hKeys
  obtain ⟨node, target, use, past, begun, inMethod, before, after, hAssigns, hSame, rfl, hIdentifier,
    hOccurs, rfl⟩ := h.exists_occurs hOk
  obtain ⟨future, hVisit⟩ := hOccurs.visit
  obtain ⟨last, first, rest, hWrites⟩ := hAssigns.exists_writesTo hCustom
    (hNames.of_holds (.inr hOccurs.contains)) hOccurs.mem_tasks
  have hNumber := @countP_writes node begun last target first
  -- One write for each default and one for the value: as many candidates in a row.
  have hEach : ∀ count < target.defaults.length + 1,
      Candidate table use.identifier.location ((begun ++ first).countP Event.records + count) ∧
        (Leaves settings table (past.countP Event.records) →
          Leaves settings table ((begun ++ first).countP Event.records + count)) := by
    intro count hCount
    obtain ⟨again, ahead, behind, hAgain, hOther⟩ := hWrites.exists_occurs hVisit hCount
    rw [← hNumber hWrites.last (hSame ▸ hIdentifier) hCount]
    exact candidate_of_writes hOk hAssigns.1 hOccurs hOther hIdentifier h hAgain hSame
  -- No candidate of the place is outside of that row, as all are brought by one node.
  have hRange : ∀ other, Candidate table use.identifier.location other →
      ∃ count < target.defaults.length + 1, other = (begun ++ first).countP Event.records + count := by
    intro other hOther
    obtain ⟨also, -, again, later, started, flag, ahead, behind, -, -, hPlace, -, hThere, rfl⟩ :=
      hOther.exists_occurs hOk
    obtain ⟨rfl, rfl, rfl⟩ := hOccurs.same hCustom hNames hThere rfl rfl hPlace.symm
    obtain ⟨count, hCount, rfl⟩ := hWrites.exists_take hThere (hPlace.trans (by rw [hSame]))
    exact ⟨count, hCount, hNumber hWrites.last (hSame ▸ hIdentifier) hCount⟩
  refine ⟨begun, future, inMethod, node, target, (begun ++ first).countP Event.records, hVisit,
    hAssigns, by rw [hSame], fun other => ⟨⟨fun hOther => ?_, fun hBounds => ?_⟩, fun hOther => ?_⟩⟩
  · obtain ⟨count, hCount, rfl⟩ := hRange other hOther
    exact ⟨Nat.le_add_right _ _, Nat.add_lt_add_left hCount _⟩
  · obtain ⟨count, rfl⟩ := Nat.exists_eq_add_of_le hBounds.1
    exact (hEach count (Nat.lt_of_add_lt_add_left hBounds.2)).1
  · obtain ⟨count, hCount, rfl⟩ := hRange other hOther
    exact (hEach count hCount).2

end SymbolTable

end Scoping
