import Scoping.Proofs.Chronicle.Program
import Scoping.Proofs.Reordering.Renumbering

/-! What the entries of a log say, as nodes are moved and numbers are exchanged.
All of it is about scopes, names and places alone, so that it is said of what
these have become. -/

namespace Scoping

/-- What becomes of the nodes of a document, and of the numbers that a walk gives. -/
structure Translation where
  nodes : Rearrangement
  numbers : Renumbering

namespace Translation

variable (t : Translation)

def scope (scope : ScopeId) : ScopeId :=
  t.numbers.scopes scope

def reference (id : ReferenceId) : ReferenceId :=
  t.numbers.references id

def frame (frame : Frame) : Frame :=
  t.numbers.frame (t.nodes.frame frame)

def trail (trail : Trail) : Trail :=
  trail.map t.frame

def entry (entry : Entry) : Entry :=
  t.numbers.entry (t.nodes.entry entry)

def note (note : Note) : Note where
  scope := t.scope note.scope
  bodies := note.bodies
  identifier := t.nodes.node note.identifier
  definition := t.nodes.definition note.definition

variable {t} {settings : Settings} {trail : Trail} {frame : Frame} {entry : Entry}
  {history moved : List Entry} {position : ScopeId}

/-- No two scopes get the same number. -/
theorem scope_inj {first second : ScopeId} : t.scope first = t.scope second ↔ first = second :=
  t.numbers.scopes.injective.eq_iff

@[simp] theorem trail_entry : (t.entry entry).1 = t.trail entry.1 := by
  simp only [Translation.entry, Renumbering.entry, Rearrangement.entry, Renumbering.trail,
    Rearrangement.trail, List.map_map]
  rfl

@[simp] theorem event_entry : (t.entry entry).2.event = t.nodes.event entry.2.event :=
  rfl

/-- An event that records a reference carries the number of that reference. -/
theorem number_of_records (h : entry.2.event.records = true) :
    (t.entry entry).2.number = t.reference entry.2.number := by
  have hOpens : (t.nodes.event entry.2.event).opens = false := by
    rw [Renumbering.opens_event]
    cases hEvent : entry.2.event <;> first | rfl | simp [hEvent, Event.records] at h
  exact (if_neg (by simp [Rearrangement.entry, Rearrangement.signal, hOpens])).trans
    (if_pos ((Renumbering.records_event entry.2.event).trans h))

/-- The innermost open scope becomes the innermost one. -/
theorem head?_trail : (t.trail trail).head? = trail.head?.map t.frame :=
  List.head?_map

/-- A `var` goes to what the scope has become where it went before, as this depends on kinds
only. -/
theorem holder?_trail : (t.trail trail).holder? = trail.holder?.map t.scope := by
  cases trail <;> rfl

theorem map_scope_trail : (t.trail trail).map Frame.scope = (trail.map Frame.scope).map t.scope := by
  rw [Translation.trail, List.map_map, List.map_map]
  rfl

/-- The way out of the innermost scope goes through the same scopes. -/
theorem outward_trail : (t.trail trail).outward = trail.outward.map t.scope := by
  cases trail with
  | nil => rfl
  | cons frame rest =>
      have hOutward : (t.trail (frame :: rest)).outward =
          ((t.trail (frame :: rest)).map Frame.scope).dropWhile
            fun scope => scope ≠ t.scope frame.holder := rfl
      rw [hOutward, map_scope_trail, List.dropWhile_map, Trail.outward]
      congr 2
      funext scope
      simp [scope_inj]

theorem closing_trail (event : Event) :
    (t.trail trail).closing (t.nodes.event event) = (trail.closing event).map t.frame := by
  cases event with
  | leave block =>
      have hClosing : (t.trail trail).closing (t.nodes.event (.leave block)) =
          (t.trail trail).takeWhile fun frame => frame.block == t.nodes.node block := rfl
      rw [hClosing, Translation.trail, List.takeWhile_map, Trail.closing]
      congr 2
      funext frame
      exact Rearrangement.beq_node
  | _ => rfl

/-- The open scope that holds a `var` becomes the one that holds it. -/
theorem holding?_trail : (t.trail trail).holding? = trail.holding?.map t.frame := by
  unfold Trail.holding?
  rw [head?_trail]
  cases trail with
  | nil => rfl
  | cons frame rest =>
      simp only [List.head?_cons, Option.map_some, Option.bind_some, Translation.trail]
      rw [List.find?_map]
      congr 2
      funext other
      exact decide_eq_decide.2 scope_inj

/-- Whether a function declaration binds its name in a scope is seen from the kinds of two
scopes and from what the options say. -/
theorem bindsFunctions_frame {upper? : Option Frame} :
    (t.frame frame).bindsFunctions settings (upper?.map t.frame) =
      frame.bindsFunctions settings upper? := by
  have hBody : ∀ upper : Frame,
      ((t.frame upper).block.child? "body" == some (t.frame frame).block) =
        (upper.block.child? "body" == some frame.block) := by
    intro upper
    have hChild : (t.frame upper).block.child? "body" =
        (upper.block.child? "body").map t.nodes.node := Rearrangement.child?_node
    rw [hChild]
    cases upper.block.child? "body" with
    | none => rfl
    | some body => exact Rearrangement.beq_node
  unfold Frame.bindsFunctions
  rw [Option.any_map]
  simp only [hBody]
  rfl

/-- A definition goes to what its scope has become. -/
theorem destination?_trail (destination : Destination) :
    (t.trail trail).destination? settings destination =
      (trail.destination? settings destination).map t.frame := by
  cases destination with
  | current => exact head?_trail
  | variableScope => exact holding?_trail
  | functionDeclaration =>
      cases trail with
      | nil => rfl
      | cons frame rest =>
          have hBefore : Trail.destination? settings (frame :: rest) .functionDeclaration =
              if frame.bindsFunctions settings rest.head? then some frame
              else Trail.holding? (frame :: rest) := rfl
          have hAfter : (t.trail (frame :: rest)).destination? settings .functionDeclaration =
              if (t.frame frame).bindsFunctions settings (t.trail rest).head?
              then some (t.frame frame) else (t.trail (frame :: rest)).holding? := rfl
          rw [hBefore, hAfter, head?_trail, bindsFunctions_frame, holding?_trail]
          split <;> rfl

/-- A definition at an entry becomes one at what the entry has become. -/
theorem note?_entry : (t.entry entry).note? settings = (entry.note? settings).map t.note := by
  obtain ⟨trail, number, event⟩ := entry
  cases event with
  | define destination identifier definition =>
      have hNote : ∀ (trail : Trail) (number : Nat) (identifier : Node) (definition : Definition),
          Entry.note? settings (trail, ⟨number, .define destination identifier definition⟩) =
            if identifier.isIdentifier then
              (trail.destination? settings destination).map fun frame =>
                ⟨frame.scope, frame.bodies, identifier, definition⟩
            else none := fun _ _ _ _ => rfl
      refine (hNote (t.entry (trail, ⟨number, .define destination identifier definition⟩)).1
        number (t.nodes.node identifier) (t.nodes.definition definition)).trans ?_
      rw [hNote, trail_entry, destination?_trail, Rearrangement.isIdentifier_node]
      split
      · rw [Option.map_map, Option.map_map]
        rfl
      · rfl
  | enter kind block inMethod =>
      cases kind with
      | functionName =>
          have hChild : (t.nodes.node block).child? "id" = (block.child? "id").map t.nodes.node :=
            Rearrangement.child?_node
          cases hId : block.child? "id" with
          | none => simp [Entry.note?, Rearrangement.event, Node.child, hChild, hId]
          | some name =>
              have hNumber : (t.entry (trail, ⟨number, .enter .functionName block inMethod⟩)).2.number =
                  t.scope number := rfl
              cases hName : name.isIdentifier <;>
                simp [Entry.note?, Rearrangement.event, Node.child, hChild, hId, hName, hNumber,
                  Translation.note, Rearrangement.definition]
      | _ => rfl
  | _ => rfl

theorem opensArguments_entry : Entry.OpensArguments (t.entry entry) (t.scope position) ↔
    Entry.OpensArguments entry position := by
  obtain ⟨trail, number, event⟩ := entry
  cases event with
  | enter kind block inMethod =>
      have hNumber : (t.entry (trail, ⟨number, .enter kind block inMethod⟩)).2.number =
          t.scope number := rfl
      simp [Entry.OpensArguments, hNumber, scope_inj, Rearrangement.event]
  | _ => simp [Entry.OpensArguments, Rearrangement.event]

/-- An event that no other becomes comes where a `var` goes to the scope just if it did
before. -/
theorem holdsAt_entry {event : Event}
    (hEvent : ∀ other, t.nodes.event other = event ↔ other = event) :
    Entry.HoldsAt (t.entry entry) event (t.scope position) ↔
      Entry.HoldsAt entry event position := by
  simp only [Entry.HoldsAt, event_entry, trail_entry, holder?_trail, hEvent, Option.map_eq_some_iff,
    scope_inj, exists_eq_right]

/-- A call of eval names no node, so it stays what it is and nothing else becomes one. -/
theorem event_eq_directEval (event : Event) :
    t.nodes.event event = .directEval ↔ event = .directEval := by
  cases event <;> simp [Rearrangement.event]

/-- A use of `this` names no node either. -/
theorem event_eq_thisExpression (event : Event) :
    t.nodes.event event = .thisExpression ↔ event = .thisExpression := by
  cases event <;> simp [Rearrangement.event]

/-- What makes a scope dynamic are kinds and calls of eval, neither of which is moved. -/
theorem clouds_entry : Entry.Clouds (t.entry entry) (t.scope position) ↔
    Entry.Clouds entry position := by
  simp only [Entry.Clouds, event_entry, event_eq_directEval, trail_entry, outward_trail,
    List.mem_map, scope_inj, exists_eq_right]

/-- A use is recorded in what its scope has become. -/
theorem records_entry {use : Use} (h : Entry.Records entry frame use) :
    Entry.Records (t.entry entry) (t.frame frame) (t.nodes.use use) where
  event := by
    rw [event_entry, h.event]
    rfl
  isIdentifier := h.isIdentifier
  current := by
    rw [trail_entry, head?_trail, h.current]
    rfl

/-- The entries of one log are those of another, translated, in any order. -/
def Carries (t : Translation) (history moved : List Entry) : Prop :=
  (history.map t.entry).Perm moved

/-- No entry is lost. -/
theorem Carries.mem (h : t.Carries history moved) (hEntry : entry ∈ history) :
    t.entry entry ∈ moved :=
  h.mem_iff.1 (List.mem_map_of_mem hEntry)

/-- No entry is added. -/
theorem Carries.exists_mem (h : t.Carries history moved) {other : Entry} (hOther : other ∈ moved) :
    ∃ entry ∈ history, t.entry entry = other :=
  List.mem_map.1 (h.mem_iff.2 hOther)

/-- What holds of an entry of the one log holds of one of the other. -/
theorem Carries.exists_iff (h : t.Carries history moved) {p q : Entry → Prop}
    (hSame : ∀ entry, q (t.entry entry) ↔ p entry) :
    (∃ entry ∈ moved, q entry) ↔ ∃ entry ∈ history, p entry := by
  constructor
  · rintro ⟨other, hOther, hHolds⟩
    obtain ⟨entry, hEntry, rfl⟩ := h.exists_mem hOther
    exact ⟨entry, hEntry, (hSame entry).1 hHolds⟩
  · rintro ⟨entry, hEntry, hHolds⟩
    exact ⟨t.entry entry, h.mem hEntry, (hSame entry).2 hHolds⟩

/-- A scope that is known becomes one that is known, and no other is. -/
theorem Carries.knows (h : t.Carries history moved) (hKnows : Trail.Knows history [] frame) :
    Trail.Knows moved [] (t.frame frame) := by
  rcases hKnows with hOpen | ⟨entry, hEntry, hFrame⟩
  · cases hOpen
  · refine .inr ⟨_, h.mem hEntry, ?_⟩
    rw [trail_entry, event_entry, closing_trail]
    exact List.mem_map_of_mem hFrame

/-- Every scope that the second log knows has become of one that the first log knows. -/
theorem Carries.exists_knows (h : t.Carries history moved) {other : Frame}
    (hKnows : Trail.Knows moved [] other) :
    ∃ frame, Trail.Knows history [] frame ∧ t.frame frame = other := by
  rcases hKnows with hOpen | ⟨after, hAfter, hFrame⟩
  · cases hOpen
  · obtain ⟨entry, hEntry, rfl⟩ := h.exists_mem hAfter
    rw [trail_entry, event_entry, closing_trail] at hFrame
    obtain ⟨frame, hMem, rfl⟩ := List.mem_map.1 hFrame
    exact ⟨frame, .inr ⟨entry, hEntry, hMem⟩, rfl⟩

/-- The definitions of a name in a scope become those of the name in what the
scope has become. -/
theorem Carries.perm_notesOf (h : t.Carries history moved) (position : ScopeId) (name : String) :
    ((notesOf settings history position name).map t.note).Perm
      (notesOf settings moved (t.scope position) name) := by
  have hNotes := (h.filterMap (Entry.note? settings)).filter
    fun note => note.scope = t.scope position ∧ note.identifier.name = name
  refine List.Perm.trans (.of_eq ?_) hNotes
  have hMap : (history.map t.entry).filterMap (Entry.note? settings) =
      (history.filterMap (Entry.note? settings)).map t.note := by
    rw [List.filterMap_map, List.map_filterMap]
    exact List.filterMap_congr fun entry _ => note?_entry
  rw [hMap, List.filter_map, notesOf]
  congr 2
  funext note
  simp [Translation.note, scope_inj]

end Translation

end Scoping
