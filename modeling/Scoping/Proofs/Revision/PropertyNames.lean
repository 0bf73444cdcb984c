import Scoping.Proofs.Placement.Identifiers
import Scoping.Proofs.Revision.Runs
import Scoping.Tree.Apart

/-! The name of a member or of a property is no code, unless it is computed. Whatever
stands in its place, the program is analyzed all the same, and no use stands in it. -/

namespace Scoping

/-- What becomes of the name of a member or of a property. -/
inductive NameChange where
  | keep
  | remove
  | put (value : Json)
  deriving Inhabited

namespace NameChange

/-- What becomes of the entry that holds a name. -/
def entry (name : String) (value : Json) : NameChange → List (String × Json)
  | .keep => [(name, value)]
  | .remove => []
  | .put other => [(name, other)]

/-- The entries of an object, with another name if the object has a plain one. -/
def entries (change : NameChange) (fields : List (String × Json)) : List (String × Json) :=
  fields.flatMap fun (name, value) =>
    if Json.IsPlainName fields name then change.entry name value else [(name, value)]

variable {change : NameChange} {fields : List (String × Json)} {name : String}

theorem entries_keep (fields : List (String × Json)) : entries .keep fields = fields := by
  simp [entries, entry]

/-- An object without a plain name stays as it is. -/
theorem entries_of_forall (h : ∀ name, ¬ Json.IsPlainName fields name) :
    change.entries fields = fields := by
  simp [entries, h]

theorem lookup_entry (value : Json) (hNe : name ≠ key) :
    (change.entry key value).lookup name = none := by
  cases change <;> simp [entry, List.lookup_cons, beq_eq_false_iff_ne.2 hNe]

/-- What is found under any other name stays the same. -/
theorem lookup_entries (h : ¬ Json.IsPlainName fields name) :
    (change.entries fields).lookup name = fields.lookup name := by
  have hEach : ∀ rest : List (String × Json), (rest.flatMap fun (key, value) =>
      if Json.IsPlainName fields key then change.entry key value else [(key, value)]).lookup name =
      rest.lookup name := by
    intro rest
    induction rest with
    | nil => rfl
    | cons item rest ih =>
        obtain ⟨key, value⟩ := item
        rw [List.flatMap_cons, List.lookup_append, ih, List.lookup_cons]
        by_cases hName : name = key
        · subst hName
          simp [h]
        · dsimp only
          rw [beq_eq_false_iff_ne.2 hName]
          split
          · rw [lookup_entry value hName, Option.none_or]
          · simp [List.lookup_cons, beq_eq_false_iff_ne.2 hName]
  exact hEach fields

theorem lookup_remove (h : Json.IsPlainName fields name) :
    (entries .remove fields).lookup name = none := by
  refine List.lookup_eq_none_iff.2 fun item hItem => ?_
  obtain ⟨⟨key, value⟩, -, hMem⟩ := List.mem_flatMap.1 hItem
  dsimp only at hMem
  split at hMem
  · cases hMem
  · next hPlain =>
      rw [List.mem_singleton.1 hMem]
      exact bne_iff_ne.2 fun (hEq : name = key) => hPlain (hEq ▸ h)

theorem not_isPlainName_of_iterates {keys : ChildKeys} (h : keys.Iterates fields) :
    ¬ Json.IsPlainName fields name := by
  obtain ⟨-, kind, hKind, -, hUnknown⟩ := h
  rintro ⟨⟨hMember, -⟩ | ⟨hProperty, -⟩, -⟩
  · cases hKind.symm.trans hMember
    exact absurd hUnknown (by decide)
  · cases hKind.symm.trans hProperty
    exact absurd hUnknown (by decide)

/-- Another name for each object at a place. -/
def revision (keys : ChildKeys) (names : Location → NameChange) : Revision keys where
  change location fields := (names location).entries fields
  lookup_change _ _ _ h := lookup_entries h
  names_change _ _ h := congrArg _ (entries_of_forall fun _ => not_isPlainName_of_iterates h)

variable {keys : ChildKeys} {names : Location → NameChange} {root node inner : Node}

theorem keepsAll_revision (h : names node.location = .keep) : (revision keys names).KeepsAll node := by
  intro name
  change ((names node.location).entries _).lookup name = _
  rw [h, entries_keep]

/-- Where names are only removed, the fields of a node hold what they held, and a
removed name holds nothing. -/
theorem exists_of_mem_children
    (hNames : ∀ location, names location = .keep ∨ names location = .remove)
    (h : inner ∈ ((revision keys names).node node).children name) :
    (∃ child ∈ node.children name, inner = (revision keys names).node child) ∧
      ¬ (names node.location = .remove ∧ Json.IsPlainName node.entries name) := by
  have hKept : ¬ (names node.location = .remove ∧ Json.IsPlainName node.entries name) := by
    rintro ⟨hRemoved, hPlain⟩
    have hNone : ((revision keys names).node node).value? name = none := by
      change ((names node.location).entries _).lookup name = none
      rw [hRemoved]
      exact lookup_remove (Revision.isPlainName_entries.2 hPlain)
    simp [Node.children, Node.child?, hNone] at h
  have hKeeps : (revision keys names).Keeps node name := by
    rcases hNames node.location with hKeep | hRemoved
    · exact keepsAll_revision hKeep name
    · exact Revision.keeps_of_not_isPlainName fun hPlain => hKept ⟨hRemoved, hPlain⟩
  rw [Revision.children_node hKeeps] at h
  obtain ⟨child, hChild, rfl⟩ := List.mem_map.1 h
  exact ⟨⟨child, hChild, rfl⟩, hKept⟩

/-- A place that is in none of the names that are removed from the nodes of a document. -/
def LeavesOut (names : Location → NameChange) (root : Node) (place : Location) : Prop :=
  ∀ node name, root.Holds node → names node.location = .remove →
    Json.IsPlainName node.entries name → ¬ .field name :: node.location <:+ place

theorem leavesOut_root : LeavesOut names root root.location := by
  intro node name hNode _ _ hBelow
  have hLength := (hBelow.trans hNode.below).length_le
  rw [List.length_cons] at hLength
  exact Nat.not_succ_le_self _ hLength

/-- A field of a node that is no removed name is in none. -/
theorem LeavesOut.child {child : Node} (h : LeavesOut names root node.location)
    (hNode : root.Holds node) (hChild : child ∈ node.children name)
    (hKept : ¬ (names node.location = .remove ∧ Json.IsPlainName node.entries name)) :
    LeavesOut names root child.location := by
  intro other field hOther hRemoved hPlain hBelow
  have hField : .field field :: other.location <:+ .field name :: node.location := by
    rcases Node.location_cases hChild with hLocation | ⟨position, hLocation⟩ <;>
      rw [hLocation] at hBelow
    · exact hBelow
    · rcases List.suffix_cons_iff.1 hBelow with hEq | hRest
      · cases hEq
      · exact hRest
  rcases List.suffix_cons_iff.1 hField with hEq | hRest
  · obtain ⟨hName, hLocation⟩ := List.cons.inj hEq
    cases Step.field.inj hName
    cases hOther.eq_of_location hNode hLocation
    exact hKept ⟨hRemoved, hPlain⟩
  · exact h other field hOther hRemoved hPlain hRest

/-- Where names are only removed, no node stands where one was. -/
theorem exists_of_holds (hNames : ∀ location, names location = .keep ∨ names location = .remove)
    (h : ((revision keys names).node root).Holds inner) :
    ∃ found, root.Holds found ∧ inner = (revision keys names).node found ∧
      LeavesOut names root found.location := by
  have hStep : ∀ {node inner : Node}, root.Holds node → LeavesOut names root node.location →
      ((revision keys names).node node).HasChild inner →
      ∃ found, root.Holds found ∧ inner = (revision keys names).node found ∧
        LeavesOut names root found.location := by
    rintro node inner hNode hLeaves ⟨name, hMem⟩
    obtain ⟨⟨child, hChild, rfl⟩, hKept⟩ := exists_of_mem_children hNames hMem
    exact ⟨child, hNode.trans (.inr (Node.contains_of_mem_children hChild)), rfl,
      hLeaves.child hNode hChild hKept⟩
  rcases h with rfl | hContains
  · exact ⟨root, root.holds_self, rfl, leavesOut_root⟩
  · induction hContains with
    | single hChild => exact hStep root.holds_self leavesOut_root hChild
    | tail _ hChild ih =>
        obtain ⟨node, hNode, rfl, hLeaves⟩ := ih
        exact hStep hNode hLeaves hChild

end NameChange

namespace Tree

/-- A place at which a name is free: it is not the root, and is in no import. -/
def IsFree (tree : Tree) (place : Location) : Prop :=
  place ≠ [] ∧ ∀ node ∈ tree.nodes, node.kind = "ImportDeclaration" → ¬ node.location <:+ place

instance (tree : Tree) (place : Location) : Decidable (tree.IsFree place) :=
  inferInstanceAs (Decidable (_ ∧ ∀ _ ∈ tree.nodes, _ → _))

end Tree

variable {settings : Settings} {value : Json} {tree : Tree} {table : SymbolTable}

/-- With other names in free places a document is analyzed all the same. -/
theorem NameChange.analyze_tree {names : Location → NameChange}
    (hTree : Tree.ofJson? value = .ok tree) (hNames : ∀ place, names place ≠ .keep → tree.IsFree place) :
    analyze settings ((revision settings.keys names).tree tree) =
      (analyze settings tree).map (revision settings.keys names).table := by
  have hRoot := Tree.ofJson?_eq_ok hTree
  have hTyped := Node.isTyped_of_ofJson? hRoot
  have hLocation : tree.root.location = [] := (Node.ofJson?_eq_some hRoot).1
  have hKept : ∀ place, ¬ tree.IsFree place → names place = .keep := fun place hNot => by
    by_contra hChanged
    exact hNot (hNames place hChanged)
  refine Revision.analyze_tree hTyped ?_ fun outer hOuter hKind inner hInner => ?_
  · exact keepsAll_revision (hKept _ fun hFree => hFree.1 hLocation)
  · refine keepsAll_revision (hKept _ fun hFree => ?_)
    exact hFree.2 outer (Tree.mem_nodes_of_holds hTyped hLocation hOuter) hKind hInner.below

/-- No identifier that is used stands in a name at a free place: the name may as well be left
out, and what is used then stands in what is left. -/
theorem NameChange.leavesOut_identifier (hTree : Tree.ofJson? value = .ok tree)
    (hOk : analyze settings tree = .ok table) {id : ReferenceId} {reference : Reference}
    (hReference : table.references[id]? = some reference) :
    LeavesOut (fun place => if tree.IsFree place then .remove else .keep) tree.root
      reference.identifier.location := by
  let names : Location → NameChange := fun place => if tree.IsFree place then .remove else .keep
  have hAgain : analyze settings ((revision settings.keys names).tree tree) =
      (analyze settings tree).map (revision settings.keys names).table :=
    NameChange.analyze_tree hTree fun place hChanged => by
      by_contra hNot
      exact hChanged (if_neg hNot)
  rw [hOk] at hAgain
  have hSame : ((revision settings.keys names).table table).references[id]? =
      some ((revision settings.keys names).reference reference) := by
    rw [Revision.getElem?_references, hReference]
    rfl
  have hHolds := SymbolTable.holds_identifier hAgain hSame
  obtain ⟨found, -, hFound, hLeaves⟩ := exists_of_holds (fun place => by
    by_cases hFree : tree.IsFree place
    · exact .inr (if_pos hFree)
    · exact .inl (if_neg hFree)) hHolds
  have hLocation := congrArg Node.location hFound
  change reference.identifier.location = found.location at hLocation
  rwa [hLocation]

/-- The names of members and properties say nothing. Where such a name is not computed, it
may be any value, or be left out: the analysis fails in the same way, or gives the same
table of the same nodes. So no identifier that is used stands in such a name. -/
theorem analyze_of_names {names : Location → NameChange} (hTree : Tree.ofJson? value = .ok tree)
    (hNames : ∀ place, names place ≠ .keep → tree.IsFree place) :
    Tree.ofJson? ((NameChange.revision settings.keys names).json [] value) =
        .ok ((NameChange.revision settings.keys names).tree tree) ∧
      analyze settings ((NameChange.revision settings.keys names).tree tree) =
        (analyze settings tree).map (NameChange.revision settings.keys names).table ∧
      ∀ table, analyze settings tree = .ok table → ∀ (id : ReferenceId) (reference : Reference),
        table.references[id]? = some reference → ∀ node name, tree.root.Holds node →
          tree.IsFree node.location → Json.IsPlainName node.entries name →
            ¬ .field name :: node.location <:+ reference.identifier.location := by
  refine ⟨Revision.ofJson?_tree hTree, NameChange.analyze_tree hTree hNames, ?_⟩
  intro table hOk id reference hReference node name hNode hFree hPlain
  exact NameChange.leavesOut_identifier hTree hOk hReference node name hNode (if_pos hFree) hPlain

namespace NameChange

/-- The program `({ k: v }).p`. -/
def memberOfObject : Tree where
  root := {
    location := []
    kind := "Program"
    entries := [("type", .string "Program"), ("body", .array [
      .object [("type", .string "ExpressionStatement"), ("expression",
        .object [("type", .string "MemberExpression"), ("computed", .bool false),
          ("object", .object [("type", .string "ObjectExpression"), ("properties", .array [
            .object [("type", .string "Property"), ("computed", .bool false),
              ("key", identifier "k"), ("value", identifier "v")]])]),
          ("property", identifier "p")])]])] }
where
  identifier (name : String) : Json :=
    .object [("type", .string "Identifier"), ("name", .string name)]

/-- The place of the member. -/
def memberPlace : Location :=
  [.field "expression", .index 0, .field "body"]

/-- Another program for `p`, and no name for `k`. -/
def programForName (place : Location) : NameChange :=
  if place = memberPlace then .put (.object memberOfObject.root.entries)
  else if place = .index 0 :: .field "properties" :: .field "object" :: memberPlace then .remove
  else .keep

theorem analyze_of_names_memberOfObject :
    ∃ table : SymbolTable,
      Tree.ofJson? (.object memberOfObject.root.entries) = .ok memberOfObject ∧
      (∀ place, programForName place ≠ .keep → memberOfObject.IsFree place) ∧
      analyze ⟨{}, 9⟩ memberOfObject = .ok table ∧
      table.references.map (fun reference => reference.identifier.name) = #["v"] ∧
      analyze ⟨{}, 9⟩ ((revision (Settings.mk {} 9).keys programForName).tree memberOfObject) =
        .ok ((revision (Settings.mk {} 9).keys programForName).table table) := by
  have hNames : (analyze ⟨{}, 9⟩ memberOfObject).toOption.map
      (fun table => table.references.map fun reference => reference.identifier.name) =
        some #["v"] := by
    decide +kernel
  have hFree : ∀ place, programForName place ≠ .keep → memberOfObject.IsFree place := by
    intro place hChanged
    unfold programForName at hChanged
    split at hChanged
    · next hMember => exact hMember ▸ (by decide +kernel)
    · split at hChanged
      · next hProperty => exact hProperty ▸ (by decide +kernel)
      · exact absurd rfl hChanged
  obtain ⟨table, hOk, hFound⟩ := exists_of_map_toOption _ hNames
  obtain ⟨-, hAgain, -⟩ := @analyze_of_names ⟨{}, 9⟩ (.object memberOfObject.root.entries)
    memberOfObject programForName rfl hFree
  rw [hOk] at hAgain
  exact ⟨table, rfl, hFree, hOk, hFound, hAgain⟩

end NameChange

end Scoping
