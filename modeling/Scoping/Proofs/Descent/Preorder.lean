import Scoping.Proofs.Descent.Children
import Scoping.Tree.NamesOnce

/-! The walk of a document is the preorder of the relation from a node to its children:
that relation alone tells which nodes it lists, how often and in which order. -/

namespace Scoping

/-- A list that has nothing twice has two items in one order only. -/
theorem not_sublist_of_nodup {α : Type} {items : List α} {first second : α} (h : items.Nodup)
    (hOrder : [first, second].Sublist items) : ¬ [second, first].Sublist items := by
  intro hBack
  obtain ⟨before, after, rfl, hFirst, hSecond⟩ := List.cons_sublist_iff.1 hOrder
  obtain ⟨front, back, hSplit, hFront, hRest⟩ := List.cons_sublist_iff.1 hBack
  have hApart := (List.nodup_append.1 h).2.2
  have hBackApart := (List.nodup_append.1 (hSplit ▸ h)).2.2
  rw [List.singleton_sublist] at hSecond hRest
  rcases List.append_eq_append_iff.1 hSplit with ⟨middle, rfl, -⟩ | ⟨middle, rfl, -⟩
  · exact hBackApart _ (List.mem_append_left _ hFirst) _ hRest rfl
  · exact hApart _ (List.mem_append_left _ hFront) _ hSecond rfl

namespace ChildKeys

/-- A child that a descent goes into. -/
def Child (keys : ChildKeys) (node child : Node) : Prop :=
  child ∈ keys.children node

/-- A way down along the children, of any length. -/
def Reaches (keys : ChildKeys) : Node → Node → Prop :=
  Relation.ReflTransGen keys.Child

/-- One node is below a child of this one, the other below a later child. -/
def Beside (keys : ChildKeys) (node first second : Node) : Prop :=
  ∃ left right, [left, right].Sublist (keys.children node) ∧ keys.Reaches left first ∧
    keys.Reaches right second

/-- The order in which nodes below `start` are met: a node before what is below it, and what
is below a child before what is below a later one. -/
inductive Precedes (keys : ChildKeys) (start first second : Node) : Prop where
  | around (below : Relation.TransGen keys.Child first second)
  | beside (node : Node) (reached : keys.Reaches start node) (order : keys.Beside node first second)

variable {keys : ChildKeys} {start node other child first second inner : Node} {nodes : List Node}

theorem Child.hasChild (h : keys.Child node child) : node.HasChild child :=
  hasChild_of_mem_children h

/-- A descent goes to different children by different steps. -/
theorem branching_child (keys : ChildKeys) : Node.Branching keys.Child :=
  Node.branching_hasChild.mono Child.hasChild

theorem Reaches.holds (h : keys.Reaches start node) : start.Holds node :=
  (branching_child keys).holds h

/-- Every way down leads to a place inside. -/
theorem Reaches.below (h : keys.Reaches start node) : start.location <:+ node.location :=
  (branching_child keys).below h

theorem contains_of_transGen (h : Relation.TransGen keys.Child first second) :
    first.Contains second :=
  h.lift id fun _ _ => Child.hasChild

/-- A node is below one child at most. -/
theorem Child.eq_of_reaches (hFirst : keys.Child node first) (hSecond : keys.Child node second)
    (hInner : keys.Reaches first inner) (hAlso : keys.Reaches second inner) : first = second := by
  rcases (branching_child keys).eq_or_apart hFirst hSecond with hEq | hApart
  · exact hEq
  · exact absurd hAlso.below (hApart.not_below hInner.below)

/-- Nodes beside each other are both below the node at which their ways part. -/
theorem Beside.reaches (h : keys.Beside node first second) :
    keys.Reaches node first ∧ keys.Reaches node second := by
  obtain ⟨left, right, hOrder, hLeft, hRight⟩ := h
  have hChildren := hOrder.subset
  exact ⟨.head (hChildren (by simp)) hLeft, .head (hChildren (by simp)) hRight⟩

/-- The order below a child is the order below any node from which the child can be reached.
-/
theorem Precedes.mono (h : keys.Precedes child first second) (hStart : keys.Reaches start child) :
    keys.Precedes start first second := by
  cases h with
  | around below => exact .around below
  | beside node reached order => exact .beside node (hStart.trans reached) order

/-- A walk lists just what can be reached. -/
theorem mem_walk_iff : node ∈ keys.walk start ↔ keys.Reaches start node := by
  induction start using walk.induct keys with
  | case1 start ih =>
      rw [walk_eq, List.mem_cons, List.mem_flatMap]
      constructor
      · rintro (rfl | ⟨child, hChild, hNode⟩)
        · exact .refl
        · exact .head hChild ((ih child hChild).1 hNode)
      · intro h
        rcases Relation.ReflTransGen.cases_head h with rfl | ⟨child, hChild, hRest⟩
        · exact .inl rfl
        · exact .inr ⟨child, hChild, (ih child hChild).2 hRest⟩

/-- The walk meets nodes in order. -/
theorem pairwise_walk (keys : ChildKeys) (start : Node) :
    (keys.walk start).Pairwise (keys.Precedes start) := by
  induction start using walk.induct keys with
  | case1 start ih =>
      rw [walk_eq, List.pairwise_cons, List.pairwise_flatMap]
      refine ⟨fun node hNode => ?_, fun child hChild => ?_, ?_⟩
      · obtain ⟨child, hChild, hInner⟩ := List.mem_flatMap.1 hNode
        exact .around (.head' hChild (mem_walk_iff.1 hInner))
      · exact (ih child hChild).imp fun h => h.mono (.single hChild)
      · refine List.pairwise_iff_forall_sublist.2 fun hOrder first hFirst second hSecond => ?_
        exact .beside start .refl ⟨_, _, hOrder, mem_walk_iff.1 hFirst, mem_walk_iff.1 hSecond⟩

section

-- A list of fields that names one twice would have the walk meet a node twice.
variable (hCustom : keys.ListsOnce) (hNames : start.NamesOnce)
include hCustom hNames

theorem apart_of_sublist {left right : Node} (hNode : keys.Reaches start node)
    (h : [left, right].Sublist (keys.children node)) :
    Location.Apart left.location right.location :=
  List.pairwise_iff_forall_sublist.1 (scattered_children hCustom (hNames node hNode.holds)) h

/-- Nodes beside each other stand apart, so that neither can be reached from the other. -/
theorem Beside.apart (h : keys.Beside node first second) (hNode : keys.Reaches start node) :
    Location.Apart first.location second.location := by
  obtain ⟨left, right, hOrder, hLeft, hRight⟩ := h
  exact (apart_of_sublist hCustom hNames hNode hOrder).mono hLeft.below hRight.below

/-- Two nodes that are below two children of a node are not both below one of them. -/
theorem Beside.eq_of_reaches (h : keys.Beside node first second) (hNode : keys.Reaches start node)
    (hOther : keys.Reaches node other) (hFirst : keys.Reaches other first)
    (hSecond : keys.Reaches other second) : node = other := by
  rcases Relation.ReflTransGen.cases_head hOther with rfl | ⟨child, hChild, hRest⟩
  · rfl
  · obtain ⟨left, right, hOrder, hLeft, hRight⟩ := h
    obtain rfl : child = left :=
      hChild.eq_of_reaches (hOrder.subset (by simp)) (hRest.trans hFirst) hLeft
    obtain rfl : child = right :=
      hChild.eq_of_reaches (hOrder.subset (by simp)) (hRest.trans hSecond) hRight
    exact absurd (List.suffix_refl _) (apart_of_sublist hCustom hNames hNode hOrder).1

/-- Two nodes come in one order under one node only. -/
theorem Beside.unique (h : keys.Beside node first second) (hNode : keys.Reaches start node)
    (hAlso : keys.Beside other second first) (hOther : keys.Reaches start other) : node = other := by
  obtain ⟨hFirst, hSecond⟩ := h.reaches
  obtain ⟨hAlsoSecond, hAlsoFirst⟩ := hAlso.reaches
  rcases List.suffix_or_suffix_of_suffix hFirst.below hAlsoFirst.below with hBelow | hBelow
  · exact h.eq_of_reaches hCustom hNames hNode
      ((branching_child keys).through hNode hOther hBelow) hAlsoFirst hAlsoSecond
  · exact (hAlso.eq_of_reaches hCustom hNames hOther
      ((branching_child keys).through hOther hNode hBelow) hSecond hFirst).symm

/-- Of two nodes beside each other one comes first for good. -/
theorem Beside.asymm (h : keys.Beside node first second) (hNode : keys.Reaches start node) :
    ¬ keys.Beside node second first := by
  rintro ⟨left, right, hOrder, hLeft, hRight⟩
  obtain ⟨before, after, hOther, hBefore, hAfter⟩ := h
  obtain rfl : left = after := Child.eq_of_reaches (hOrder.subset (by simp))
    (hOther.subset (by simp)) hLeft hAfter
  obtain rfl : right = before := Child.eq_of_reaches (hOrder.subset (by simp))
    (hOther.subset (by simp)) hRight hBefore
  have hScattered := scattered_children hCustom (hNames node hNode.holds)
  exact not_sublist_of_nodup hScattered.nodup hOrder hOther

/-- No two nodes each come before the other. -/
theorem Precedes.asymm (h : keys.Precedes start first second) : ¬ keys.Precedes start second first := by
  intro hBack
  cases h with
  | around below =>
      cases hBack with
      | around back =>
          exact (contains_of_transGen below).not_below (contains_of_transGen back).below
      | beside node reached order =>
          exact (order.apart hCustom hNames reached).2 (contains_of_transGen below).below
  | beside node reached order =>
      cases hBack with
      | around back => exact (order.apart hCustom hNames reached).2 (contains_of_transGen back).below
      | beside other reachedOther back =>
          obtain rfl := order.unique hCustom hNames reached back reachedOther
          exact order.asymm hCustom hNames reached back

/-- A walk lists no node twice. -/
theorem nodup_walk : (keys.walk start).Nodup := by
  refine List.Pairwise.imp (fun hOrder hEq => ?_) (pairwise_walk keys start)
  subst hEq
  exact hOrder.asymm hCustom hNames hOrder

end

/-- A list of all that can be reached from a node, each once, in the order in which it is
met. -/
structure IsPreorder (keys : ChildKeys) (start : Node) (nodes : List Node) : Prop where
  mem_iff : ∀ node, node ∈ nodes ↔ keys.Reaches start node
  nodup : nodes.Nodup
  ordered : nodes.Pairwise (keys.Precedes start)

/-- A walk lists what it reaches in preorder, for documents that name each field once. -/
theorem isPreorder_walk (hCustom : keys.ListsOnce) (hNames : start.NamesOnce) :
    keys.IsPreorder start (keys.walk start) where
  mem_iff _ := mem_walk_iff
  nodup := nodup_walk hCustom hNames
  ordered := pairwise_walk keys start

/-- There is one preorder of what can be reached. -/
theorem IsPreorder.eq (h : keys.IsPreorder start nodes) {others : List Node}
    (hOthers : keys.IsPreorder start others) (hCustom : keys.ListsOnce) (hNames : start.NamesOnce) :
    nodes = others := by
  have hPerm : nodes.Perm others := (List.perm_ext_iff_of_nodup h.nodup hOthers.nodup).2 fun node =>
    (h.mem_iff node).trans (hOthers.mem_iff node).symm
  exact hPerm.eq_of_pairwise
    (fun first second _ _ hOrder hBack => absurd hBack (hOrder.asymm hCustom hNames))
    h.ordered hOthers.ordered

/-- The children of a node are found in the fields that are known of it, by what these hold.
-/
theorem mem_children_iff : child ∈ keys.children node ↔
    ∃ name ∈ keys.fields node, node.FieldHolds name child := by
  simp only [children, List.mem_flatMap, Node.mem_children_iff]

/-- What a walk visits, and what its steps are. -/
structure Descends (keys : ChildKeys) (start : Node) : Prop where
  visits : ∀ nodes, keys.IsPreorder start nodes ↔ nodes = keys.walk start
  children : ∀ node, start.Holds node → (keys.children node).Nodup ∧ ∀ child,
    (child ∈ keys.children node ↔ ∃ name ∈ keys.fields node, node.FieldHolds name child) ∧
      (child ∈ keys.children node → node.Contains child)
  skips : ∀ (step : Step) (around : Location) (value : Json),
    start.valueAt? (step :: around) = some value → Node.PassedBy step value →
      ∀ node ∈ keys.walk start, ¬ step :: around ++ start.location <:+ node.location

/-- A walk is the one preorder of what is reached along the children of nodes. Those are
nodes that fields hold, each of them once, so that holes, objects that are no nodes and
arrays in arrays are never gone into. Lists of fields that are given as they are known
change none of it. No document that was read has two entries of one name in an object,
see Tree.namesOnce_of_ofText?. -/
theorem walk_descends (hCustom : keys.ListsOnce) (hNames : start.NamesOnce) :
    keys.Descends start ∧ ∀ (copied : List (String × List String)), copied ⊆ knownFields →
      ∀ (fallback : Fallback) (node : Node),
        children ⟨copied, fallback⟩ node = children ⟨[], fallback⟩ node ∧
          walk ⟨copied, fallback⟩ node = walk ⟨[], fallback⟩ node := by
  refine ⟨⟨fun nodes => ⟨fun h => ?_, ?_⟩, fun node hNode => ⟨?_, fun child => ?_⟩, ?_⟩, ?_⟩
  · exact h.eq (isPreorder_walk hCustom hNames) hCustom hNames
  · rintro rfl
    exact isPreorder_walk hCustom hNames
  · exact (scattered_children hCustom (hNames node hNode)).nodup
  · exact ⟨mem_children_iff, contains_of_mem_children⟩
  · intro step around value hValue hPassed node hNode
    exact (mem_walk_iff.1 hNode).holds.not_below_passedBy hValue hPassed
  · exact fun copied hCopied fallback node =>
      ⟨children_copied hCopied fallback node, walk_copied hCopied fallback node⟩

/-- A node of a kind that is not known, with a hole, an array in an array, an object that
is no node, and a node in which lists of fields are given. -/
def listAndPair : Node where
  location := []
  kind := "List"
  entries := [("type", .string "List"),
    ("items", .array [.null, leaf, .array [leaf], .object [("inner", leaf)]]),
    ("extra", .object [("inner", leaf)]), ("parent", leaf),
    ("pair", .object [("type", .string "Pair"), ("first", leaf), ("second", leaf), ("third", leaf)])]
where
  leaf : Json := .object [("type", .string "Leaf")]

/-- The fields of the pair are visited in the order that is given for them, the type among
them. Lists given for the first two kinds that are known change no walk. -/
theorem walk_descends_listAndPair :
    let keys : ChildKeys := { custom := [("Pair", ["third", "type", "first"])] }
    (keys.walk listAndPair).map (fun node => node.location.path) =
        ["", "/items/1", "/pair", "/pair/third", "/pair/first"] ∧
      keys.ListsOnce ∧ listAndPair.NamesOnce ∧ keys.Descends listAndPair ∧
      ∀ fallback, children ⟨knownFields.take 2, fallback⟩ listAndPair =
          children ⟨[], fallback⟩ listAndPair ∧
        walk ⟨knownFields.take 2, fallback⟩ listAndPair = walk ⟨[], fallback⟩ listAndPair := by
  intro keys
  have hCustom : keys.ListsOnce := List.forall_mem_singleton.2 (by decide)
  have hNames : listAndPair.NamesOnce := by
    have hValue : Json.NamesOnce (.object listAndPair.entries) := by
      simp [listAndPair, listAndPair.leaf, Json.NamesOnce.null]
    exact Node.namesOnce_of_ofJson? hValue rfl
  have hPaths : (keys.walk listAndPair).map (fun node => node.location.path) =
      ["", "/items/1", "/pair", "/pair/third", "/pair/first"] := by
    decide +kernel
  obtain ⟨hDescends, hCopied⟩ := walk_descends hCustom hNames
  exact ⟨hPaths, hCustom, hNames, hDescends, fun fallback =>
    hCopied (knownFields.take 2) (List.take_subset 2 knownFields) fallback listAndPair⟩

end ChildKeys

end Scoping
