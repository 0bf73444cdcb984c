import Scoping.Proofs.Descent.Branching
import Scoping.Tree.PatternLemmas

/-! What a pattern notes of an identifier that it binds: whether it is all of the pattern,
whether it takes what is left over, and the values by default around it. -/

namespace Scoping.Pattern

/-- The assignments of some kinds in a pattern through whose left sides an identifier is
reached, outermost first. -/
structure DefaultsOf (kinds : List String) (pattern identifier : Node) (defaults : List Node) :
    Prop where
  mem_iff : ∀ node, node ∈ defaults ↔ pattern.Holds node ∧ node.kind ∈ kinds ∧
    ∃ left, node.child? "left" = some left ∧ left.Holds identifier
  ordered : defaults.Pairwise Node.Contains

/-- A rest element in a node that collects an identifier for what is left over. -/
def RestOf (node identifier : Node) : Prop :=
  ∃ rest, node.Holds rest ∧ rest.kind = "RestElement" ∧ rest.child? "argument" = some identifier

/-- What a target tells of its identifier: that it is the whole pattern, that a rest element
collects it, and the values by default for it. -/
structure Tells (kinds : List String) (pattern : Node) (target : Target) : Prop where
  whole : target.whole = true ↔ target.identifier = pattern
  rest : target.rest = true ↔ RestOf pattern target.identifier
  defaults : DefaultsOf kinds pattern target.identifier target.defaults

variable {kinds : List String} {node child left identifier inner : Node} {defaults : List Node}
  {name : String}

theorem defaultsOf_self (kinds : List String) (node : Node) : DefaultsOf kinds node node [] where
  mem_iff inner := by
    refine ⟨fun hMem => absurd hMem List.not_mem_nil, ?_⟩
    rintro ⟨hInner, -, left, hLeft, hHeld⟩
    have hInside := hInner.contains ((Node.contains_of_child? hLeft).trans_holds hHeld)
    exact absurd (List.suffix_refl _) hInside.not_below
  ordered := .nil

namespace DefaultsOf

/-- A node that is no such assignment has the values by default that its child has. -/
theorem of_child (h : DefaultsOf kinds child identifier defaults) (hChild : child ∈ node.children name)
    (hHeld : child.Holds identifier) (hKind : node.kind ∉ kinds) :
    DefaultsOf kinds node identifier defaults where
  mem_iff inner := by
    rw [h.mem_iff]
    constructor
    · rintro ⟨hInner, hRest⟩
      exact ⟨.trans (.inr (Node.contains_of_mem_children hChild)) hInner, hRest⟩
    · rintro ⟨rfl | hInner, hInnerKind, left, hLeft, hLeftHeld⟩
      · exact absurd hInnerKind hKind
      · have hAround := (Node.contains_of_child? hLeft).trans_holds hLeftHeld
        exact ⟨hInner.holds_of_below hChild hAround.below hHeld.below, hInnerKind, left, hLeft, hLeftHeld⟩
  ordered := h.ordered

/-- An assignment comes before those in its left side. -/
theorem cons (h : DefaultsOf kinds left identifier defaults) (hLeft : node.child? "left" = some left)
    (hHeld : left.Holds identifier) (hKind : node.kind ∈ kinds) :
    DefaultsOf kinds node identifier (node :: defaults) where
  mem_iff inner := by
    rw [List.mem_cons, h.mem_iff]
    constructor
    · rintro (rfl | ⟨hInner, hRest⟩)
      · exact ⟨inner.holds_self, hKind, left, hLeft, hHeld⟩
      · exact ⟨.trans (.inr (Node.contains_of_child? hLeft)) hInner, hRest⟩
    · rintro ⟨rfl | hInner, hInnerKind, other, hOther, hOtherHeld⟩
      · exact .inl rfl
      · have hAround := (Node.contains_of_child? hOther).trans_holds hOtherHeld
        have hInLeft := hInner.holds_of_below (Node.mem_children_of_child? hLeft) hAround.below hHeld.below
        exact .inr ⟨hInLeft, hInnerKind, other, hOther, hOtherHeld⟩
  ordered := List.pairwise_cons.2
    ⟨fun inner hInner => (Node.contains_of_child? hLeft).trans_holds ((h.mem_iff inner).1 hInner).1,
      h.ordered⟩

end DefaultsOf

/-- A rest element that collects an identifier in a child is no other node. -/
theorem restOf_iff_of_child (hChild : child ∈ node.children name) (hHeld : child.Holds identifier) :
    RestOf node identifier ↔ RestOf child identifier ∨
      node.kind = "RestElement" ∧ node.child? "argument" = some identifier := by
  constructor
  · rintro ⟨rest, rfl | hRest, hKind, hArgument⟩
    · exact .inr ⟨hKind, hArgument⟩
    · have hAround := (Node.contains_of_child? hArgument).below
      exact .inl ⟨rest, hRest.holds_of_below hChild hAround hHeld.below, hKind, hArgument⟩
  · rintro (⟨rest, hRest, hKind, hArgument⟩ | ⟨hKind, hArgument⟩)
    · exact ⟨rest, .trans (.inr (Node.contains_of_mem_children hChild)) hRest, hKind, hArgument⟩
    · exact ⟨node, node.holds_self, hKind, hArgument⟩

theorem not_restOf_self : ¬ RestOf node node := by
  rintro ⟨rest, hRest, -, hArgument⟩
  exact (hRest.contains (Node.contains_of_child? hArgument)).not_below (List.suffix_refl _)

theorem part_eq_default_iff {kind : String} :
    Part.ofKind kind = .default ↔ kind ∈ ["AssignmentPattern", "AssignmentExpression"] := by
  unfold Part.ofKind
  split <;> simp_all

theorem part_eq_rest_iff {kind : String} : Part.ofKind kind = .rest ↔ kind = "RestElement" := by
  unfold Part.ofKind
  split <;> simp_all

theorem part_eq_identifier_iff {kind : String} :
    Part.ofKind kind = .identifier ↔ kind = "Identifier" := by
  unfold Part.ofKind
  split <;> simp_all

/-- The kinds of the assignments that give a value by default. -/
def defaultKinds : List String :=
  ["AssignmentPattern", "AssignmentExpression"]

/-- What the innermost rest element around a place collects is around this node. -/
def Place.Surrounds (place : Place) (node : Node) : Prop :=
  ∀ rest ∈ place.innermostRest, ∀ argument, rest.child? "argument" = some argument →
    argument.Holds node

/-- A rest element collects an identifier, in this node or right around it. -/
def Place.Collects (place : Place) (node identifier : Node) : Prop :=
  RestOf node identifier ∨
    identifier = node ∧ ∃ rest ∈ place.innermostRest, rest.child? "argument" = some node

/-- What a target tells of its identifier, which is in the part `node` of a pattern. -/
structure Noted (place : Place) (node : Node) (target : Target) : Prop where
  kind : target.identifier.kind = "Identifier"
  held : node.Holds target.identifier
  whole : target.whole = (target.identifier == place.root)
  rest : target.rest = true ↔ place.Collects node target.identifier
  defaults : ∃ inner, target.defaults = place.defaults ++ inner ∧
    DefaultsOf defaultKinds node target.identifier inner ∧
      ∀ assignment ∈ inner, ∃ right, assignment.child? "right" = some right

variable {place : Place} {target : Target} {found : Pattern} {keys : ChildKeys}

theorem Place.Surrounds.of_child (h : place.Surrounds node) (hChild : child ∈ node.children name) :
    place.Surrounds child :=
  fun rest hRest argument hArgument =>
    (h rest hRest argument hArgument).trans (.inr (Node.contains_of_mem_children hChild))

/-- The rest element right around an identifier collects it. -/
theorem Place.Surrounds.rest_target (h : place.Surrounds node) :
    (place.target node).rest = true ↔ place.Collects node node := by
  have hSame : ∀ rest ∈ place.innermostRest,
      ((rest.child? "argument" == some node) = true ↔ rest.child? "argument" = some node) := by
    intro rest hRest
    cases hArgument : rest.child? "argument" with
    | none => simp
    | some argument =>
        have hAround := h rest hRest argument hArgument
        refine ⟨fun hEq => congrArg some ?_, fun hEq => ?_⟩
        · exact argument.holds_self.eq_of_location hAround (Node.beq_iff.1 hEq)
        · rw [Option.some.inj hEq]
          exact Node.beq_iff.2 rfl
  have hAny : (place.target node).rest = true ↔
      ∃ rest ∈ place.innermostRest, rest.child? "argument" = some node := by
    cases hInner : place.innermostRest with
    | none => simp [Place.target, hInner]
    | some rest => simpa [Place.target, hInner] using hSame rest hInner
  rw [hAny, Place.Collects, or_iff_right not_restOf_self, and_iff_right rfl]

/-- What collects an identifier in a child collects it in the node, and no other does if
the node is no rest element. -/
theorem Place.Surrounds.collects_iff (h : place.Surrounds node) (hChild : child ∈ node.children name)
    (hHeld : child.Holds identifier) (hKind : node.kind ≠ "RestElement") :
    place.Collects node identifier ↔ place.Collects child identifier := by
  have hInside : node.Contains identifier := (Node.contains_of_mem_children hChild).trans_holds hHeld
  have hNode : identifier ≠ node := by
    rintro rfl
    exact hInside.not_below (List.suffix_refl _)
  have hNone : ∀ rest ∈ place.innermostRest, rest.child? "argument" ≠ some child := by
    intro rest hRest hArgument
    have hAround := (h rest hRest child hArgument).below
    exact (Node.contains_of_mem_children hChild).not_below hAround
  unfold Place.Collects
  rw [restOf_iff_of_child hChild hHeld]
  simp only [hKind, hNode, false_and, or_false]
  refine (or_iff_left ?_).symm
  rintro ⟨-, rest, hRest, hArgument⟩
  exact hNone rest hRest hArgument

/-- A node that is neither a rest element nor an assignment leaves the notes as they are. -/
theorem Noted.of_child (h : Noted place child target) (hChild : child ∈ node.children name)
    (hSurrounds : place.Surrounds node) (hRest : Part.ofKind node.kind ≠ .rest)
    (hDefault : Part.ofKind node.kind ≠ .default) : Noted place node target where
  kind := h.kind
  held := .trans (.inr (Node.contains_of_mem_children hChild)) h.held
  whole := h.whole
  rest := h.rest.trans (hSurrounds.collects_iff hChild h.held (mt part_eq_rest_iff.2 hRest)).symm
  defaults := by
    obtain ⟨inner, hEq, hInner, hRight⟩ := h.defaults
    exact ⟨inner, hEq, hInner.of_child hChild h.held (mt part_eq_default_iff.2 hDefault), hRight⟩

/-- An assignment is the outermost of the values by default in it. -/
theorem Noted.of_left {right : Node}
    (h : Noted { place with defaults := place.defaults ++ [node] } left target)
    (hLeft : node.child? "left" = some left) (hRight : node.child? "right" = some right)
    (hSurrounds : place.Surrounds node) (hKind : node.kind ∈ defaultKinds) :
    Noted place node target where
  kind := h.kind
  held := .trans (.inr (Node.contains_of_child? hLeft)) h.held
  whole := h.whole
  rest := by
    have hRest : node.kind ≠ "RestElement" := by
      intro hEq
      exact absurd (hEq ▸ hKind) (by decide)
    exact h.rest.trans
      (hSurrounds.collects_iff (Node.mem_children_of_child? hLeft) h.held hRest).symm
  defaults := by
    obtain ⟨inner, hEq, hInner, hRights⟩ := h.defaults
    refine ⟨node :: inner, ?_, hInner.cons hLeft h.held hKind, ?_⟩
    · rw [hEq, List.append_assoc]
      rfl
    · exact List.forall_mem_cons.2 ⟨⟨right, hRight⟩, hRights⟩

/-- A rest element collects its argument, if that is an identifier. -/
theorem Noted.of_argument {argument : Node}
    (h : Noted { place with innermostRest := some node } argument target)
    (hArgument : node.child? "argument" = some argument) (hKind : node.kind = "RestElement") :
    Noted place node target where
  kind := h.kind
  held := .trans (.inr (Node.contains_of_child? hArgument)) h.held
  whole := h.whole
  rest := by
    have hInside := (Node.contains_of_child? hArgument).trans_holds h.held
    have hNode : target.identifier ≠ node := by
      intro hEq
      exact hInside.not_below (hEq ▸ List.suffix_refl _)
    rw [h.rest, Place.Collects, Place.Collects,
      restOf_iff_of_child (Node.mem_children_of_child? hArgument) h.held]
    simp [hKind, hNode, hArgument, eq_comm]
  defaults := by
    obtain ⟨inner, hEq, hInner, hRight⟩ := h.defaults
    have hDefault : node.kind ∉ defaultKinds := by
      rw [hKind]
      decide
    exact ⟨inner, hEq, hInner.of_child (Node.mem_children_of_child? hArgument) h.held hDefault, hRight⟩

/-- A target of the patterns of several nodes is a target of one of them. -/
theorem exists_of_mem_concat {nodes : List Node} {find : Node → Except Failure Pattern}
    (h : concat (nodes.map find) = .ok found) (hTarget : target ∈ found.targets) :
    ∃ node ∈ nodes, ∃ part, find node = .ok part ∧ target ∈ part.targets := by
  obtain ⟨parts, hParts⟩ := exists_of_concat_eq_ok h
  rw [hParts, concat_map_ok] at h
  cases h
  obtain ⟨part, hPart, hMem⟩ := List.mem_flatMap.1 hTarget
  obtain ⟨node, hNode, hFind⟩ := List.mem_map.1 (hParts ▸ List.mem_map_of_mem hPart)
  exact ⟨node, hNode, part, hFind, hMem⟩

/-- What is noted of the targets of a pattern holds of the document. The induction is on
the collection, and takes the rest element and the assignments around a node along. -/
theorem noted_collect (h : collect keys place node = .ok found) (hSurrounds : place.Surrounds node)
    (hTarget : target ∈ found.targets) : Noted place node target := by
  fun_induction collect keys place node generalizing found with
  | case1 place node hPart =>
      cases h
      obtain rfl := List.mem_singleton.1 hTarget
      exact ⟨part_eq_identifier_iff.1 hPart, node.holds_self, rfl, hSurrounds.rest_target, [],
        (List.append_nil _).symm, defaultsOf_self _ node, List.forall_mem_nil _⟩
  | case3 | case14 =>
      cases h
      exact absurd hTarget List.not_mem_nil
  | case5 place node hPart key value hValue hKey inner hInner ih =>
      cases h
      have hChild := Node.mem_children_of_child? hValue
      exact (ih hInner (hSurrounds.of_child hChild) hTarget).of_child hChild hSurrounds
        (by simp [hPart]) (by simp [hPart])
  | case9 place node hPart left hLeft inner right hRight hInner ih =>
      cases h
      have hMem : target ∈ inner.targets := (List.mem_append.1 hTarget).resolve_right List.not_mem_nil
      have hChild := Node.mem_children_of_child? hLeft
      exact (ih hInner (hSurrounds.of_child hChild) hMem).of_left hLeft (Node.child_eq_ok.1 hRight)
        hSurrounds (part_eq_default_iff.1 hPart)
  | case11 place node hPart argument hArgument ih =>
      have hArgumentSurrounds : Place.Surrounds { place with innermostRest := some node } argument := by
        intro rest hRest other hOther
        obtain rfl := Option.mem_some_iff.1 hRest
        obtain rfl := Option.some.inj (hArgument.symm.trans hOther)
        exact argument.holds_self
      exact (ih h hArgumentSurrounds hTarget).of_argument hArgument (part_eq_rest_iff.1 hPart)
  | case17 place node hPart callee hCallee inner hInner ih =>
      cases h
      have hChild := Node.mem_children_of_child? hCallee
      exact (ih hInner (hSurrounds.of_child hChild) hTarget).of_child hChild hSurrounds
        (by simp [hPart]) (by simp [hPart])
  | case18 place node hOther ih =>
      rw [List.attach_map_val] at h
      obtain ⟨child, hChild, part, hPart, hMem⟩ := exists_of_mem_concat h hTarget
      obtain ⟨name, -, hField⟩ := List.mem_flatMap.1 hChild
      exact (ih child hChild hPart (hSurrounds.of_child hField) hMem).of_child hField hSurrounds
        (by simp [hOther]) (by simp [hOther])
  | case2 | case4 | case6 | case7 | case8 | case10 | case12 | case13 | case15 | case16 => cases h

section

variable (h : ofNode keys node = .ok found) (hTarget : target ∈ found.targets)
include h hTarget

theorem noted_ofNode : Noted { root := node } node target :=
  noted_collect h (fun _ hRest => nomatch hRest) hTarget

theorem tells_ofNode : Tells defaultKinds node target := by
  have hNoted := noted_ofNode h hTarget
  refine ⟨?_, ?_, ?_⟩
  · rw [hNoted.whole, Node.beq_iff]
    exact ⟨hNoted.held.eq_of_location node.holds_self, congrArg Node.location⟩
  · rw [hNoted.rest, Place.Collects, or_iff_left]
    rintro ⟨-, rest, hRest, -⟩
    cases hRest
  · obtain ⟨inner, hEq, hInner, -⟩ := hNoted.defaults
    exact hEq ▸ hInner

theorem exists_right {assignment : Node} (hDefault : assignment ∈ target.defaults) :
    ∃ right, assignment.child? "right" = some right := by
  obtain ⟨inner, hEq, -, hRight⟩ := (noted_ofNode h hTarget).defaults
  rw [hEq, List.nil_append] at hDefault
  exact hRight assignment hDefault

end

end Scoping.Pattern
