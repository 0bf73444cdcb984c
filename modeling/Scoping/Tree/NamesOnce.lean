import Scoping.Tree.Apart
import Scoping.Tree.Basic

/-! No object of a document that was read has two entries of one name: of two that
a text spells the later gives the value. -/

namespace Scoping

namespace Json

/-- No object in a value has two entries of one name. -/
inductive NamesOnce : Json → Prop where
  | null : NamesOnce .null
  | bool (value : Bool) : NamesOnce (.bool value)
  | number (value : Number) : NamesOnce (.number value)
  | string (value : String) : NamesOnce (.string value)
  | array {items : List Json} (each : ∀ item ∈ items, NamesOnce item) : NamesOnce (.array items)
  | object {entries : List (String × Json)} (names : (entries.map Prod.fst).Nodup)
      (each : ∀ entry ∈ entries, NamesOnce entry.2) : NamesOnce (.object entries)

@[simp] theorem namesOnce_string (value : String) : NamesOnce (.string value) :=
  .string value

@[simp] theorem namesOnce_array {items : List Json} :
    NamesOnce (.array items) ↔ ∀ item ∈ items, NamesOnce item :=
  ⟨fun h => by cases h; assumption, .array⟩

@[simp] theorem namesOnce_object {entries : List (String × Json)} :
    NamesOnce (.object entries) ↔
      (entries.map Prod.fst).Nodup ∧ ∀ entry ∈ entries, NamesOnce entry.2 :=
  ⟨fun h => by cases h; constructor <;> assumption, fun h => .object h.1 h.2⟩

variable {entries : List (String × Json)} {name : String} {value : Json}

/-- What a search for a name finds is an entry of that name. -/
theorem mem_of_lookup (h : entries.lookup name = some value) : (name, value) ∈ entries := by
  obtain ⟨before, after, rfl, -⟩ := List.lookup_eq_some_iff.1 h
  exact List.mem_append_right _ List.mem_cons_self

/-- Where there is an entry of the name, the names stay what they are. -/
theorem names_insertEntry (h : (entries.lookup name).isSome = true) (value : Json) :
    (insertEntry name value entries).map Prod.fst = entries.map Prod.fst := by
  induction entries with
  | nil => cases h
  | cons entry rest ih =>
      obtain ⟨key, old⟩ := entry
      by_cases hKey : key = name
      · simp [insertEntry, hKey]
      · have hNe : (name == key) = false := by simpa using fun hEq => hKey hEq.symm
        rw [List.lookup_cons, hNe] at h
        simp [insertEntry, hKey, ih h]

/-- An entry after another is put in is that one or was there before. -/
theorem mem_insertEntry {entry : String × Json} (h : entry ∈ insertEntry name value entries) :
    entry.2 = value ∨ entry ∈ entries := by
  induction entries with
  | nil => exact .inl (congrArg Prod.snd (List.mem_singleton.1 h))
  | cons first rest ih =>
      obtain ⟨key, old⟩ := first
      unfold insertEntry at h
      split at h
      · rcases List.mem_cons.1 h with rfl | hRest
        · exact .inl rfl
        · exact .inr (List.mem_cons_of_mem _ hRest)
      · rcases List.mem_cons.1 h with rfl | hRest
        · exact .inr List.mem_cons_self
        · exact (ih hRest).imp id (List.mem_cons_of_mem _)

/-- A container that is being read has no name twice so far. -/
def Frame.NamesOnce : Frame → Prop
  | .array items => Json.NamesOnce (.array items)
  | .object entries _ => Json.NamesOnce (.object entries)

namespace Progress

/-- No name stands twice in one of the objects that have been read so far. -/
def NamesOnce : Progress → Prop
  | .start outer | .startOrEnd outer | .nameOrEnd outer => ∀ frame ∈ outer, frame.NamesOnce
  | .afterItem items outer => Json.NamesOnce (.array items) ∧ ∀ frame ∈ outer, frame.NamesOnce
  | .name entries outer | .afterName entries _ outer | .afterEntry entries outer =>
      Json.NamesOnce (.object entries) ∧ ∀ frame ∈ outer, frame.NamesOnce
  | .done value => Json.NamesOnce value

variable {outer : List Frame} {limit : Option Nat} {token : Token} {progress next : Progress}

/-- A value that is complete is put into the container around it, by name or as the next
item. -/
theorem namesOnce_supply (hValue : Json.NamesOnce value) (hOuter : ∀ frame ∈ outer, frame.NamesOnce) :
    (supply value outer).NamesOnce := by
  cases outer with
  | nil => exact hValue
  | cons frame outer =>
      obtain ⟨hFrame, hRest⟩ := List.forall_mem_cons.1 hOuter
      cases frame with
      | array items =>
          exact ⟨namesOnce_array.2 (List.forall_mem_cons.2 ⟨hValue, namesOnce_array.1 hFrame⟩), hRest⟩
      | object entries key =>
          obtain ⟨hNames, hEach⟩ := namesOnce_object.1 hFrame
          refine ⟨namesOnce_object.2 ?_, hRest⟩
          split
          · next hSome =>
              rw [names_insertEntry hSome]
              refine ⟨hNames, fun entry hEntry => ?_⟩
              rcases mem_insertEntry hEntry with hNew | hOld
              · exact hNew ▸ hValue
              · exact hEach entry hOld
          · next hNone =>
              refine ⟨List.nodup_cons.2 ⟨fun hMem => ?_, hNames⟩, List.forall_mem_cons.2 ⟨hValue, hEach⟩⟩
              obtain ⟨entry, hEntry, hKey⟩ := List.mem_map.1 hMem
              simp only [Bool.not_eq_true, Option.isSome_eq_false_iff, Option.isNone_iff_eq_none,
                List.lookup_eq_none_iff] at hNone
              simpa [hKey] using hNone entry hEntry

theorem namesOnce_begin (hToken : ∀ value, token = .scalar value → Json.NamesOnce value)
    (hOuter : ∀ frame ∈ outer, frame.NamesOnce) (h : begin limit outer token = some next) :
    next.NamesOnce := by
  unfold begin at h
  split at h
  · cases h
    exact namesOnce_supply (hToken _ rfl) hOuter
  · split at h <;> cases h
    exact hOuter
  · split at h <;> cases h
    exact hOuter
  · cases h

/-- No token of a text makes a name stand twice. -/
theorem namesOnce_step (hProgress : progress.NamesOnce)
    (hToken : ∀ value, token = .scalar value → Json.NamesOnce value)
    (h : progress.step limit token = some next) : next.NamesOnce := by
  have hNone : Json.NamesOnce (.object []) := .object .nil (List.forall_mem_nil _)
  unfold step at h
  split at h
  · exact namesOnce_begin hToken hProgress h
  · split at h
    · cases h
      exact namesOnce_supply (.array (List.forall_mem_nil _)) hProgress
    · have hFrame : (Frame.array []).NamesOnce := Json.NamesOnce.array (List.forall_mem_nil _)
      exact namesOnce_begin hToken (List.forall_mem_cons.2 ⟨hFrame, hProgress⟩) h
  · obtain ⟨hItems, hOuter⟩ := hProgress
    split at h <;> cases h
    · exact List.forall_mem_cons.2 ⟨hItems, hOuter⟩
    · refine namesOnce_supply (.array fun item hItem => ?_) hOuter
      exact namesOnce_array.1 hItems item (List.mem_reverse.1 hItem)
  · split at h <;> cases h
    exact hProgress
  · split at h <;> cases h
    · exact ⟨hNone, hProgress⟩
    · exact namesOnce_supply hNone hProgress
  · split at h <;> cases h
    exact List.forall_mem_cons.2 hProgress
  · obtain ⟨hEntries, hOuter⟩ := hProgress
    split at h <;> cases h
    · exact ⟨hEntries, hOuter⟩
    · obtain ⟨hNames, hEach⟩ := namesOnce_object.1 hEntries
      refine namesOnce_supply (.object ?_ fun entry hEntry => ?_) hOuter
      · rw [List.map_reverse]
        exact (List.reverse_perm _).nodup_iff.2 hNames
      · exact hEach entry (List.mem_reverse.1 hEntry)
  · cases h

theorem namesOnce_of_read {c : Char} {rest after : List Char}
    (h : Token.read c rest = some (.scalar value, after)) : Json.NamesOnce value := by
  have hNumber : ∀ {negative : Bool} {cs last : List Char} {found : Json},
      Token.readNumber negative cs = some (found, last) → Json.NamesOnce found := by
    intro negative cs last found hFound
    simp only [Token.readNumber, Option.bind_eq_bind, Option.pure_def] at hFound
    split at hFound
    · cases hFound
    · obtain ⟨_, -, hFound⟩ := Option.bind_eq_some_iff.1 hFound
      obtain ⟨_, -, hFound⟩ := Option.bind_eq_some_iff.1 hFound
      obtain ⟨number, -, hFound⟩ := Option.bind_eq_some_iff.1 hFound
      cases hFound
      exact .number number
  unfold Token.read at h
  split at h
  case h_7 =>
    obtain ⟨_, -, hEq⟩ := Option.map_eq_some_iff.1 h
    cases hEq
    exact .string _
  case h_8 =>
    obtain ⟨_, hFound, hEq⟩ := Option.map_eq_some_iff.1 h
    cases hEq
    exact hNumber hFound
  case h_9 =>
    split at h <;> cases h
    exact .null
  case h_10 | h_11 =>
    split at h <;> cases h
    exact .bool _
  case h_12 =>
    split at h
    · obtain ⟨_, hFound, hEq⟩ := Option.map_eq_some_iff.1 h
      cases hEq
      exact hNumber hFound
    · cases h
  all_goals cases h

/-- A text that is read through has brought no name twice. -/
theorem namesOnce_run {cs : List Char} (hProgress : progress.NamesOnce)
    (h : run limit progress cs = some value) : Json.NamesOnce value := by
  fun_induction run limit progress cs with
  | case1 =>
      cases h
      exact hProgress
  | case2 => cases h
  | case3 progress c rest hBlank ih => exact ih hProgress h
  | case4 => cases h
  | case5 => cases h
  | case6 progress c rest hBlank token after hRead hLt next hStep ih =>
      refine ih (namesOnce_step hProgress (fun scalar hScalar => ?_) hStep) h
      exact namesOnce_of_read (hScalar ▸ hRead)

end Progress

theorem namesOnce_of_read? {limit : Option Nat} {text : String} (h : read? limit text = some value) :
    NamesOnce value := by
  have hStart : (Progress.start []).NamesOnce := List.forall_mem_nil _
  exact Progress.namesOnce_run hStart h

end Json

namespace Node

/-- What is held by a value whose names stand once has its names once. -/
theorem namesOnce_of_ofJson? {location : Location} {value : Json} {root : Node}
    (hValue : value.NamesOnce) (h : ofJson? location value = some root) : root.NamesOnce := by
  obtain ⟨-, hEntries⟩ := ofJson?_eq_some h
  have hRoot : Json.NamesOnce (.object root.entries) := hEntries ▸ hValue
  have hChild : ∀ {node child : Node} {name : String}, Json.NamesOnce (.object node.entries) →
      child ∈ node.children name → Json.NamesOnce (.object child.entries) := by
    intro node child name hNode hMem
    have hEach := (Json.namesOnce_object.1 hNode).2
    rcases mem_children hMem with ⟨value, hFound, hHere⟩ | ⟨items, position, item, hItems, hItem, hHere⟩
    · exact (ofJson?_eq_some hHere).2 ▸ hEach _ (Json.mem_of_lookup hFound)
    · have hArray := Json.namesOnce_array.1 (hEach _ (Json.mem_of_lookup hItems))
      exact (ofJson?_eq_some hHere).2 ▸ hArray item (List.mem_of_getElem? hItem)
  have hHeld : ∀ inner, root.Holds inner → Json.NamesOnce (.object inner.entries) := by
    rintro inner (rfl | hContains)
    · exact hRoot
    · induction hContains with
      | single hHas =>
          obtain ⟨name, hMem⟩ := hHas
          exact hChild hRoot hMem
      | tail _ hHas ih =>
          obtain ⟨name, hMem⟩ := hHas
          exact hChild ih hMem
  exact fun inner hInner => (Json.namesOnce_object.1 (hHeld inner hInner)).1

end Node

namespace Tree

/-- A document that was read has no name twice in one node. -/
theorem namesOnce_of_ofText? {text : String} {tree : Tree} (h : ofText? text = .ok tree) :
    tree.root.NamesOnce := by
  unfold ofText? at h
  split at h
  · next value hRead =>
      unfold ofJson? at h
      split at h
      · next root hRoot =>
          cases h
          exact Node.namesOnce_of_ofJson? (Json.namesOnce_of_read? hRead) hRoot
      · cases h
  · cases h

end Tree

end Scoping
