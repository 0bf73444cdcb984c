import Scoping.Tree.Apart
import Scoping.Tree.PatternLemmas

/-! Where the parts of a pattern stand: its ordinary code is scattered, and apart
from the targets. -/

namespace Scoping.Pattern

/-- All parts of a pattern stand at places of this kind, and its ordinary code
apart from all else. -/
structure Lies (Here : Location → Prop) (pattern : Pattern) : Prop where
  targets : ∀ target ∈ pattern.targets, Here target.identifier.location
  evaluated : ∀ inner ∈ pattern.evaluated, Here inner.location
  scattered : Node.Scattered pattern.evaluated
  apart : ∀ inner ∈ pattern.evaluated, ∀ target ∈ pattern.targets,
    Location.Apart target.identifier.location inner.location

variable {Here There : Location → Prop} {pattern first second : Pattern} {node child : Node}
  {name : String}

theorem Lies.mono (h : Lies Here pattern) (hPlaces : ∀ place, Here place → There place) :
    Lies There pattern where
  targets := fun target hTarget => hPlaces _ (h.targets target hTarget)
  evaluated := fun inner hInner => hPlaces _ (h.evaluated inner hInner)
  scattered := h.scattered
  apart := h.apart

theorem Lies.append (hFirst : Lies Here first) (hSecond : Lies There second)
    (hApart : ∀ place other, Here place → There other → Location.Apart place other) :
    Lies (fun place => Here place ∨ There place) (first ++ second) where
  targets := fun target hTarget => (List.mem_append.1 hTarget).imp
    (hFirst.targets target) (hSecond.targets target)
  evaluated := fun inner hInner => (List.mem_append.1 hInner).imp
    (hFirst.evaluated inner) (hSecond.evaluated inner)
  scattered := List.pairwise_append.2 ⟨hFirst.scattered, hSecond.scattered,
    fun inner hInner other hOther =>
      hApart _ _ (hFirst.evaluated inner hInner) (hSecond.evaluated other hOther)⟩
  apart := fun inner hInner target hTarget => by
    rcases List.mem_append.1 hInner with hInner | hInner <;>
      rcases List.mem_append.1 hTarget with hTarget | hTarget
    · exact hFirst.apart inner hInner target hTarget
    · exact (hApart _ _ (hFirst.evaluated inner hInner) (hSecond.targets target hTarget)).symm
    · exact hApart _ _ (hFirst.targets target hTarget) (hSecond.evaluated inner hInner)
    · exact hSecond.apart inner hInner target hTarget

theorem lies_evaluating {nodes : List Node} (hNodes : ∀ inner ∈ nodes, Here inner.location)
    (hScattered : Node.Scattered nodes) : Lies Here (evaluating nodes) :=
  ⟨fun _ hTarget => (nomatch hTarget), hNodes, hScattered, fun _ _ _ hTarget => nomatch hTarget⟩

/-- What two fields of a node bring to a pattern. -/
theorem Lies.fields {field : String}
    (hFirst : Lies (.field name :: node.location <:+ ·) first)
    (hSecond : Lies (.field field :: node.location <:+ ·) second) (hName : name ≠ field) :
    Lies (node.location <:+ ·) (first ++ second) := by
  refine (hFirst.append hSecond fun place other hPlace hOther =>
    (Location.apart_fields hName node.location).mono hPlace hOther).mono ?_
  rintro place (hPlace | hPlace) <;> exact (List.suffix_cons _ _).trans hPlace

theorem Lies.of_child? (h : Lies (child.location <:+ ·) pattern) (hChild : node.child? name = some child) :
    Lies (.field name :: node.location <:+ ·) pattern :=
  h.mono fun _ hPlace => (Node.below_field_of_child? hChild).trans hPlace

theorem lies_child (h : node.child name = .ok child) :
    Lies (.field name :: node.location <:+ ·) (evaluating [child]) := by
  refine lies_evaluating (fun inner hInner => ?_) (List.pairwise_singleton _ _)
  rw [List.mem_singleton.1 hInner]
  exact Node.below_field_of_child? (Node.child_eq_ok.1 h)

theorem lies_computedName {nodes : List Node} (h : computedName node name = .ok nodes) :
    Lies (.field name :: node.location <:+ ·) (evaluating nodes) := by
  rcases computedName_eq_ok h with rfl | ⟨key, hKey, rfl⟩
  · exact lies_evaluating (fun _ hInner => absurd hInner List.not_mem_nil) .nil
  · exact lies_child (Node.child_eq_ok.2 hKey)

/-- The patterns of scattered nodes. -/
theorem lies_concat {nodes : List Node} {find : Node → Except Failure Pattern} {all : Pattern}
    (h : concat (nodes.map find) = .ok all) (hScattered : Node.Scattered nodes)
    (hEach : ∀ node ∈ nodes, ∀ pattern, find node = .ok pattern →
      Lies (node.location <:+ ·) pattern) :
    Lies (fun place => ∃ node ∈ nodes, node.location <:+ place) all := by
  induction nodes generalizing all with
  | nil =>
      cases h
      exact ⟨fun _ h => (nomatch h), fun _ h => (nomatch h), .nil, fun _ h => nomatch h⟩
  | cons node nodes ih =>
      rw [List.map_cons] at h
      obtain ⟨hApart, hRest⟩ := List.pairwise_cons.1 hScattered
      cases hFind : find node with
      | error failure =>
          rw [hFind] at h
          cases h
      | ok pattern =>
          rw [hFind, concat] at h
          split at h
          · cases h
          · next others hOthers =>
              cases h
              have hNodes := ih hOthers hRest fun other hOther =>
                hEach other (List.mem_cons_of_mem _ hOther)
              refine ((hEach node List.mem_cons_self pattern hFind).append hNodes ?_).mono
                fun _ => by simp
              rintro place other hPlace ⟨found, hFound, hOther⟩
              exact (hApart found hFound).mono hPlace hOther

/-- The parts of a pattern stand apart in the node of the pattern. -/
theorem lies_collect {keys : ChildKeys} (hCustom : keys.custom = []) {place : Place} {found : Pattern}
    (hNames : node.NamesOnce) (h : collect keys place node = .ok found) :
    Lies (node.location <:+ ·) found := by
  -- Each part looks into its fields once, so what it finds in one stands apart from the
  -- rest.
  fun_induction collect keys place node generalizing found with
  | case1 place node =>
      cases h
      refine ⟨fun target hTarget => ?_, fun _ h => absurd h List.not_mem_nil, .nil,
        fun _ h => absurd h List.not_mem_nil⟩
      rw [List.mem_singleton.1 hTarget]
      exact List.suffix_refl _
  | case3 place node _ key _ hKey =>
      cases h
      exact (lies_computedName hKey).mono fun _ => (List.suffix_cons _ _).trans
  | case5 place node _ key value hValue hKey inner hInner ih =>
      cases h
      have hChild := ih (hNames.of_holds (.inr (Node.contains_of_child? hValue))) hInner
      exact (lies_computedName hKey).fields (hChild.of_child? hValue) (by decide)
  | case9 place node _ left hLeft inner right hRight hInner ih =>
      cases h
      have hChild := ih (hNames.of_holds (.inr (Node.contains_of_child? hLeft))) hInner
      exact (hChild.of_child? hLeft).fields (lies_child hRight) (by decide)
  | case11 place node _ argument hArgument ih =>
      have hChild := ih (hNames.of_holds (.inr (Node.contains_of_child? hArgument))) h
      exact (hChild.of_child? hArgument).mono fun _ => (List.suffix_cons _ _).trans
  | case14 place node _ key object hObject hKey =>
      cases h
      exact (lies_computedName hKey).fields (lies_child hObject) (by decide)
  | case17 place node _ callee hCallee inner hInner ih =>
      cases h
      have hChild := ih (hNames.of_holds (.inr (Node.contains_of_child? hCallee))) hInner
      have hArguments : Lies (.field "arguments" :: node.location <:+ ·)
          (evaluating (node.children "arguments")) :=
        lies_evaluating (fun _ => Node.below_field) (Node.scattered_children node "arguments")
      exact hArguments.fields (hChild.of_child? hCallee) (by decide)
  | case18 place node _ ih =>
      rw [List.attach_map_val] at h
      have hChildren := ChildKeys.scattered_children (ChildKeys.listsOnce_of_nil hCustom)
        (hNames node node.holds_self)
      refine (lies_concat h hChildren fun child hChild pattern hPattern => ?_).mono ?_
      · exact ih child hChild
          (hNames.of_holds (.inr (ChildKeys.contains_of_mem_children hChild))) hPattern
      · rintro place ⟨child, hChild, hPlace⟩
        exact (ChildKeys.contains_of_mem_children hChild).below.trans hPlace
  | case2 | case4 | case6 | case7 | case8 | case10 | case12 | case13 | case15 | case16 => cases h

/-- The targets of scattered patterns are scattered. -/
theorem scattered_concat {nodes : List Node} {find : Node → Except Failure Pattern} {all : Pattern}
    (h : concat (nodes.map find) = .ok all) (hScattered : Node.Scattered nodes)
    (hEach : ∀ node ∈ nodes, ∀ pattern, find node = .ok pattern →
      Lies (node.location <:+ ·) pattern ∧ Node.Scattered (pattern.targets.map Target.identifier)) :
    Node.Scattered (all.targets.map Target.identifier) := by
  induction nodes generalizing all with
  | nil =>
      cases h
      exact .nil
  | cons node nodes ih =>
      rw [List.map_cons] at h
      obtain ⟨hApart, hRest⟩ := List.pairwise_cons.1 hScattered
      have hOthers : ∀ other ∈ nodes, ∀ pattern, find other = .ok pattern →
          Lies (other.location <:+ ·) pattern ∧
            Node.Scattered (pattern.targets.map Target.identifier) :=
        fun other hOther => hEach other (List.mem_cons_of_mem _ hOther)
      cases hFind : find node with
      | error failure =>
          rw [hFind] at h
          cases h
      | ok pattern =>
          rw [hFind, concat] at h
          split at h
          · cases h
          · next others hFound =>
              cases h
              obtain ⟨hLies, hPattern⟩ := hEach node List.mem_cons_self pattern hFind
              have hLater := lies_concat hFound hRest fun other hOther found hOk =>
                (hOthers other hOther found hOk).1
              show Node.Scattered ((pattern.targets ++ others.targets).map Target.identifier)
              rw [List.map_append]
              refine List.pairwise_append.2 ⟨hPattern, ih hFound hRest hOthers, ?_⟩
              intro first hFirst second hSecond
              obtain ⟨target, hTarget, rfl⟩ := List.mem_map.1 hFirst
              obtain ⟨later, hMem, rfl⟩ := List.mem_map.1 hSecond
              obtain ⟨other, hOther, hBelow⟩ := hLater.targets later hMem
              exact (hApart other hOther).mono (hLies.targets target hTarget) hBelow

/-- No two targets of a pattern stand at the same place. -/
theorem scattered_collect {keys : ChildKeys} (hCustom : keys.custom = []) {place : Place} {found : Pattern}
    (hNames : node.NamesOnce) (h : collect keys place node = .ok found) :
    Node.Scattered (found.targets.map Target.identifier) := by
  fun_induction collect keys place node generalizing found with
  | case1 =>
      cases h
      exact List.pairwise_singleton _ _
  | case3 | case14 =>
      cases h
      exact .nil
  | case5 place node _ key value hValue hKey inner hInner ih =>
      cases h
      have hTargets := ih (hNames.of_holds (.inr (Node.contains_of_child? hValue))) hInner
      exact hTargets
  | case9 place node _ left hLeft inner right hRight hInner ih =>
      cases h
      show Node.Scattered ((inner.targets ++ []).map Target.identifier)
      rw [List.append_nil]
      exact ih (hNames.of_holds (.inr (Node.contains_of_child? hLeft))) hInner
  | case11 place node _ argument hArgument ih =>
      exact ih (hNames.of_holds (.inr (Node.contains_of_child? hArgument))) h
  | case17 place node _ callee hCallee inner hInner ih =>
      cases h
      have hTargets := ih (hNames.of_holds (.inr (Node.contains_of_child? hCallee))) hInner
      exact hTargets
  | case18 place node _ ih =>
      rw [List.attach_map_val] at h
      have hChildren := ChildKeys.scattered_children (ChildKeys.listsOnce_of_nil hCustom)
        (hNames node node.holds_self)
      refine scattered_concat h hChildren fun child hChild pattern hPattern => ?_
      have hChildNames := hNames.of_holds (.inr (ChildKeys.contains_of_mem_children hChild))
      exact ⟨lies_collect hCustom hChildNames hPattern, ih child hChild hChildNames hPattern⟩
  | case2 | case4 | case6 | case7 | case8 | case10 | case12 | case13 | case15 | case16 => cases h

end Scoping.Pattern
