import Mathlib.Data.List.Nodup
import Scoping.Proofs.Reordering.Rearrangement
import Scoping.Tree.ChildKeys
import Scoping.Tree.Directive
import Scoping.Tree.Holding

/-! The statements of a body in another order, with its directives where they
were. -/

namespace Scoping

/-- A statement that says it is a directive, or that holds nothing but a string. -/
def Node.IsDirective (node : Node) : Prop :=
  node.kind = "ExpressionStatement" ∧
    ((node.text? "directive").isSome ∨ ∃ expression, node.child? "expression" = some expression ∧
      expression.kind = "Literal" ∧ (expression.text? "value").isSome)

theorem Node.directive?_of_not_isDirective {node : Node} (h : ¬ node.IsDirective) :
    node.directive? = .ok none := by
  unfold directive?
  split
  · rfl
  · next hKind =>
      rw [ne_eq, not_not] at hKind
      have hText : node.text? "directive" = none := by
        by_contra hSome
        exact h ⟨hKind, .inl (Option.isSome_iff_ne_none.2 hSome)⟩
      rw [hText]
      cases hChild : node.child? "expression" with
      | none => rfl
      | some expression =>
          dsimp only
          split
          · rfl
          · next hLiteral =>
              rw [ne_eq, not_not] at hLiteral
              have hValue : expression.text? "value" = none := by
                by_contra hSome
                exact h ⟨hKind, .inr ⟨expression, hChild, hLiteral,
                  Option.isSome_iff_ne_none.2 hSome⟩⟩
              rw [hValue]

/-- Strict code depends on the directives alone, and on where they stand. -/
theorem Node.prologueIsStrict_congr {first second : List Node}
    (h : first.map Node.directive? = second.map Node.directive?) :
    prologueIsStrict first = prologueIsStrict second := by
  induction first generalizing second with
  | nil =>
      rw [List.map_nil, eq_comm, List.map_eq_nil_iff] at h
      rw [h]
  | cons node rest ih =>
      cases second with
      | nil => cases h
      | cons other others =>
          simp only [List.map_cons, List.cons.injEq] at h
          rw [prologueIsStrict, prologueIsStrict, h.1, ih h.2]

theorem Node.directive?_node {r : Rearrangement} {node : Node} :
    (r.node node).directive? = node.directive? := by
  simp only [directive?, Rearrangement.kind_node, Rearrangement.text?_node,
    Rearrangement.child?_node]
  cases node.text? "directive" <;> cases node.child? "expression" <;>
    simp only [Option.map_none, Option.map_some, Rearrangement.kind_node,
      Rearrangement.text?_node]

namespace Rearrangement

/-- What is moved of a body, if it is the one of this node, are nodes that are no
directives. Nothing of another field is moved. -/
structure Suits (r : Rearrangement) (node : Node) : Prop where
  name_eq : ∀ name, .field name :: node.location = r.place → name = "body"
  statements : ∀ items, node.value? "body" = some (.array items) →
    .field "body" :: node.location = r.place → ∀ position, r.order position ≠ position →
      ∃ item statement, items[position]? = some item ∧
        Node.ofJson? (.index position :: r.place) item = some statement ∧
        ¬ statement.IsDirective

variable {r : Rearrangement} {node : Node} {name : String} {items : List Json}

theorem Suits.fits (h : r.Suits node) (hItems : node.value? name = some (.array items)) :
    r.Fits (.field name :: node.location) items := fun hPlace position hMoved => by
  obtain rfl := h.name_eq name hPlace
  obtain ⟨item, -, hItem, -⟩ := h.statements items hItems hPlace position hMoved
  exact (List.getElem?_eq_some_iff.1 hItem).1

/-- Items with their positions, of which each goes to another position. -/
theorem perm_zipIdx {α β : Type} {before : List α} {after : List β} {change : Nat → α → β}
    {move : Nat → Nat} (hMove : Function.Bijective move)
    (h : ∀ position, after[move position]? = before[position]?.map (change position)) :
    (before.zipIdx.map fun (item, position) => (change position item, move position)).Perm
      after.zipIdx := by
  have hNodup : ∀ {γ : Type} (items : List γ), (items.zipIdx.map Prod.snd).Nodup := by
    intro γ items
    rw [List.zipIdx_map_snd]
    exact List.nodup_range'
  refine (List.perm_ext_iff_of_nodup (.of_map Prod.snd ?_) (.of_map _ (hNodup after))).2 ?_
  · rw [List.map_map]
    have hMoved := (hNodup before).map hMove.injective
    rwa [List.map_map] at hMoved
  · rintro ⟨item, position⟩
    rw [List.mk_mem_zipIdx_iff_getElem?, List.mem_map]
    constructor
    · rintro ⟨⟨old, start⟩, hOld, hEq⟩
      cases hEq
      rw [h, List.mk_mem_zipIdx_iff_getElem?.1 hOld]
      rfl
    · intro hItem
      obtain ⟨start, rfl⟩ := hMove.surjective position
      rw [h, Option.map_eq_some_iff] at hItem
      obtain ⟨old, hOld, rfl⟩ := hItem
      exact ⟨(old, start), List.mk_mem_zipIdx_iff_getElem?.2 hOld, rfl⟩

theorem filterMap_zipIdx_congr {α β γ : Type} {first : List α} {second : List β}
    {f : α × Nat → Option γ} {g : β × Nat → Option γ} (hLength : first.length = second.length)
    (h : ∀ position, (first[position]?.bind fun item => f (item, position)) =
      second[position]?.bind fun item => g (item, position)) :
    first.zipIdx.filterMap f = second.zipIdx.filterMap g := by
  have hMap : first.zipIdx.map f = second.zipIdx.map g := by
    refine List.ext_getElem (by simp [hLength]) fun position hFirst hSecond => ?_
    rw [List.length_map, List.length_zipIdx] at hFirst hSecond
    simpa [hFirst, hSecond] using h position
  have hEq := congrArg (List.filterMap id) hMap
  rwa [List.filterMap_map, List.filterMap_map] at hEq

theorem position_bijective (location : Location) : Function.Bijective (r.position location) := by
  unfold Rearrangement.position
  split
  · exact r.order.bijective
  · exact Function.bijective_id

/-- The nodes of a field stay those of the field. -/
theorem children_node (h : r.Suits node) :
    ((node.children name).map r.node).Perm ((r.node node).children name) := by
  unfold Node.children
  rw [value?_node, child?_node]
  cases hValue : node.value? name with
  | none => simp [Node.child?, hValue]
  | some value =>
      cases value with
      | array items =>
          have hItems := (perm_zipIdx (position_bijective _)
            (getElem?_json (h.fits hValue))).filterMap fun entry =>
              Node.ofJson? (.index entry.2 :: .field name :: r.location node.location) entry.1
          rw [List.filterMap_map] at hItems
          rw [List.map_filterMap]
          refine List.Perm.trans (List.Perm.of_eq ?_) hItems
          refine List.filterMap_congr fun entry _ => ?_
          exact (ofJson?_json (.index entry.2 :: .field name :: node.location) entry.1).symm
      | object entries =>
          simp only [Option.map_some, json]
          cases node.child? name <;> exact .refl _
      | _ => simp [Node.child?, hValue, Node.ofJson?, json]

/-- Only the nodes of a body can change their order. -/
theorem children_node_of_ne (h : r.Suits node) (hName : name ≠ "body") :
    (r.node node).children name = (node.children name).map r.node := by
  have hPlace : .field name :: node.location ≠ r.place := fun hEq => hName (h.name_eq name hEq)
  unfold Node.children
  rw [value?_node, child?_node]
  cases hValue : node.value? name with
  | none => simp [Node.child?, hValue]
  | some value =>
      cases value with
      | array items =>
          simp only [Option.map_some, json, List.map_filterMap]
          refine filterMap_zipIdx_congr (length_json _ _) fun position => ?_
          have hItem := getElem?_json (h.fits hValue) position
          rw [Rearrangement.position, if_neg hPlace] at hItem
          rw [hItem, Option.bind_map]
          refine Option.bind_congr' rfl fun item _ => ?_
          have hSame := ofJson?_json (r := r) (.index position :: .field name :: node.location) item
          rw [location, Rearrangement.position, if_neg hPlace] at hSame
          exact hSame
      | object entries =>
          simp only [Option.map_some, json]
          cases node.child? name <;> rfl
      | _ => simp [Node.child?, hValue, Node.ofJson?, json]

@[simp] theorem fields_node {keys : ChildKeys} : keys.fields (r.node node) = keys.fields node := by
  simp [ChildKeys.fields]

theorem keyed_node {keys : ChildKeys} (h : r.Suits node) :
    ((keys.children node).map r.node).Perm (keys.children (r.node node)) := by
  rw [ChildKeys.children, ChildKeys.children, fields_node, List.map_flatMap]
  exact List.Perm.flatMap_left _ fun name _ => children_node h

theorem directive?_ofJson? (location : Location) (value : Json) :
    (Node.ofJson? (r.location location) (r.json location value)).map Node.directive? =
      (Node.ofJson? location value).map Node.directive? := by
  rw [ofJson?_json, Option.map_map]
  exact congrArg (Option.map · _) (funext fun _ => Node.directive?_node)

/-- At each position of an array stands a node that says the same as a directive
as the one before, or none. -/
theorem said_node (h : r.Suits node) (hItems : node.value? name = some (.array items))
    (position : Nat) :
    ((r.arranged (.field name :: node.location)
        (r.items (.field name :: node.location) 0 items))[position]?.bind fun item =>
      Node.ofJson? (.index position :: .field name :: r.location node.location) item).map
        Node.directive? =
      (items[position]?.bind fun item =>
        Node.ofJson? (.index position :: .field name :: node.location) item).map
          Node.directive? := by
  obtain ⟨start, rfl⟩ := (position_bijective (r := r) (.field name :: node.location)).surjective
    position
  rw [getElem?_json (h.fits hItems)]
  have hStart : ((items[start]?.map (r.json (.index start :: .field name :: node.location))).bind
      fun item => Node.ofJson? (r.location (.index start :: .field name :: node.location)) item).map
        Node.directive? =
      (items[start]?.bind fun item =>
        Node.ofJson? (.index start :: .field name :: node.location) item).map
          Node.directive? := by
    cases items[start]? with
    | none => rfl
    | some item => exact directive?_ofJson? _ item
  refine hStart.trans ?_
  by_cases hMoved : r.position (.field name :: node.location) start = start
  · rw [hMoved]
  · have hPlace : .field name :: node.location = r.place := by
      by_contra hOther
      exact hMoved (if_neg hOther)
    have hStill : ∀ position, r.order position ≠ position →
        (items[position]?.bind fun item =>
          Node.ofJson? (.index position :: .field name :: node.location) item).map
            Node.directive? = some (.ok none) := by
      intro position hPosition
      obtain rfl := h.name_eq name hPlace
      obtain ⟨item, statement, hItem, hNode, hPlain⟩ :=
        h.statements items hItems hPlace position hPosition
      rw [hPlace, hItem, Option.bind_some, hNode, Option.map_some,
        Node.directive?_of_not_isDirective hPlain]
    have hOrder : r.position (.field name :: node.location) start = r.order start := if_pos hPlace
    rw [hOrder] at hMoved ⊢
    rw [hStill start hMoved, hStill _ fun hEq => hMoved (r.order.injective hEq)]

/-- What a statement that stays, or that is moved, has to say as a directive. -/
theorem directives_node (h : r.Suits node) :
    ((r.node node).children name).map Node.directive? =
      (node.children name).map Node.directive? := by
  unfold Node.children
  rw [value?_node, child?_node]
  cases hValue : node.value? name with
  | none => simp [Node.child?, hValue]
  | some value =>
      cases value with
      | array items =>
          simp only [Option.map_some, json, List.map_filterMap]
          refine filterMap_zipIdx_congr (length_json _ _) fun position => ?_
          have hSaid := said_node h hValue position
          rw [Option.map_bind, Option.map_bind] at hSaid
          exact hSaid
      | object entries =>
          simp only [Option.map_some, json]
          cases node.child? name with
          | none => rfl
          | some child => simp [Node.directive?_node]
      | _ => simp [Node.child?, hValue, Node.ofJson?, json]

theorem saysStrict_node (h : r.Suits node) : (r.node node).saysStrict = node.saysStrict :=
  Node.prologueIsStrict_congr (directives_node h)

/-- Every node of a document is suited, if the node is whose body is rearranged. -/
theorem Suits.of_holds {root block : Node} (h : r.Suits block) (hBlock : root.Holds block)
    (hPlace : .field "body" :: block.location = r.place) (hNode : root.Holds node) :
    r.Suits node where
  name_eq name hName := by
    rw [← hPlace, List.cons.injEq] at hName
    exact Step.field.inj hName.1
  statements items hItems hBody := by
    rw [← hPlace, List.cons.injEq] at hBody
    cases hNode.eq_of_location hBlock hBody.2
    exact h.statements items hItems hPlace

end Rearrangement

end Scoping
