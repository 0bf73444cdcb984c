import Mathlib.Data.Set.List
import Scoping.Proofs.Reordering.Statements
import Scoping.Tree.PatternLemmas

/-! Patterns of a rearranged document. They have the same targets and the same
ordinary code inside, but for the order of what a body holds. -/

namespace Scoping

namespace Rearrangement

/-- All the nodes at and inside a node are suited. -/
def SuitsAll (r : Rearrangement) (node : Node) : Prop :=
  ∀ inner, node.Holds inner → r.Suits inner

def target (r : Rearrangement) (target : Target) : Target where
  identifier := r.node target.identifier
  whole := target.whole
  rest := target.rest
  defaults := target.defaults.map r.node

def placed (r : Rearrangement) (place : Pattern.Place) : Pattern.Place where
  root := r.node place.root
  defaults := place.defaults.map r.node
  innermostRest := place.innermostRest.map r.node

/-- A pattern that has become another. -/
structure Becomes (r : Rearrangement) (before after : Pattern) : Prop where
  targets : (before.targets.map r.target).Perm after.targets
  evaluated : (before.evaluated.map r.node).Perm after.evaluated

variable {r : Rearrangement} {node child : Node} {name : String} {keys : ChildKeys}
  {place : Pattern.Place}

theorem SuitsAll.self (h : r.SuitsAll node) : r.Suits node :=
  h node (.inl rfl)

theorem SuitsAll.of_contains (h : r.SuitsAll node) (hInner : node.Contains child) :
    r.SuitsAll child := fun inner hHolds => by
  rcases hHolds with rfl | hContains
  · exact h inner (.inr hInner)
  · exact h inner (.inr (hInner.trans hContains))

theorem Becomes.append {a b a' b' : Pattern} (hFirst : r.Becomes a a') (hSecond : r.Becomes b b') :
    r.Becomes (a ++ b) (a' ++ b') where
  targets := by
    have hAppend := hFirst.targets.append hSecond.targets
    rwa [← List.map_append] at hAppend
  evaluated := by
    have hAppend := hFirst.evaluated.append hSecond.evaluated
    rwa [← List.map_append] at hAppend

theorem becomes_evaluating {nodes moved : List Node} (h : (nodes.map r.node).Perm moved) :
    r.Becomes (.evaluating nodes) (.evaluating moved) :=
  ⟨.refl _, h⟩

theorem target_placed : (r.placed place).target (r.node node) = r.target (place.target node) := by
  have hRest : (r.placed place).innermostRest.any
      (fun rest => rest.child? "argument" == some (r.node node)) =
      place.innermostRest.any fun rest => rest.child? "argument" == some node := by
    cases hInner : place.innermostRest with
    | none => simp [placed, hInner]
    | some rest =>
        simp only [placed, hInner, Option.map_some, Option.any_some, child?_node]
        cases rest.child? "argument" with
        | none => rfl
        | some argument => exact beq_node
  simp only [Pattern.Place.target, hRest, target]
  simp only [placed, beq_node]

theorem computedName_node {key : List Node} (h : Pattern.computedName node name = .ok key) :
    Pattern.computedName (r.node node) name = .ok (key.map r.node) := by
  unfold Pattern.computedName at h ⊢
  rw [flag_node]
  split at h
  · next hComputed =>
      rw [if_pos hComputed]
      split at h
      · cases h
      · next found hFound =>
          cases h
          rw [child_node_of_eq_ok hFound]
          rfl
  · next hPlain =>
      cases h
      rw [if_neg hPlain]
      rfl

theorem exists_perm_of_map_ok {before after : List (Except Failure Pattern)}
    (hPerm : before.Perm after) {found : List Pattern} (hFound : before = found.map .ok) :
    ∃ parts : List Pattern, after = parts.map .ok ∧ found.Perm parts := by
  subst hFound
  have hParts : after ∈ Set.range (List.map (Except.ok : Pattern → Except Failure Pattern)) := by
    rw [Set.range_list_map]
    intro pattern hPattern
    obtain ⟨part, -, rfl⟩ := List.mem_map.1 (hPerm.mem_iff.2 hPattern)
    exact Set.mem_range_self part
  obtain ⟨parts, rfl⟩ := hParts
  exact ⟨parts, rfl, (List.map_perm_map_iff fun _ _ hEq => Except.ok.inj hEq).1 hPerm⟩

theorem concat_becomes {nodes moved : List Node} {each other : Node → Except Failure Pattern}
    {all : Pattern} (hNodes : (nodes.map r.node).Perm moved)
    (h : Pattern.concat (nodes.map each) = .ok all)
    (hEach : ∀ inner ∈ nodes, ∀ found, each inner = .ok found →
      ∃ after, other (r.node inner) = .ok after ∧ r.Becomes found after) :
    ∃ after, Pattern.concat (moved.map other) = .ok after ∧ r.Becomes all after := by
  have hKept : ∃ after, Pattern.concat ((nodes.map r.node).map other) = .ok after ∧
      r.Becomes all after := by
    clear hNodes
    induction nodes generalizing all with
    | nil =>
        cases h
        exact ⟨{}, rfl, .refl _, .refl _⟩
    | cons inner rest ih =>
        rw [List.map_cons, Pattern.concat.eq_def] at h
        cases hInner : each inner with
        | error failure =>
            rw [hInner] at h
            cases h
        | ok pattern =>
            simp only [hInner] at h
            split at h
            · cases h
            · next others hOthers =>
                cases h
                obtain ⟨first, hFirst, hBecomes⟩ := hEach inner List.mem_cons_self pattern hInner
                obtain ⟨after, hAfter, hRest⟩ := ih hOthers fun node hNode =>
                  hEach node (List.mem_cons_of_mem _ hNode)
                refine ⟨first ++ after, ?_, hBecomes.append hRest⟩
                rw [List.map_cons, List.map_cons, hFirst, Pattern.concat, hAfter]
  obtain ⟨after, hAfter, hBecomes⟩ := hKept
  obtain ⟨found, hFound⟩ := Pattern.exists_of_concat_eq_ok hAfter
  obtain ⟨parts, hParts, hPerm⟩ := exists_perm_of_map_ok (hNodes.map other) hFound
  rw [hFound, Pattern.concat_map_ok] at hAfter
  cases hAfter
  rw [hParts, Pattern.concat_map_ok]
  exact ⟨_, rfl, hBecomes.targets.trans (hPerm.flatMap_right _),
    hBecomes.evaluated.trans (hPerm.flatMap_right _)⟩

/-- A node that is a pattern still is one, of the same parts. -/
theorem collect_node {found : Pattern} (hSuits : r.SuitsAll node)
    (h : Pattern.collect keys place node = .ok found) :
    ∃ after, Pattern.collect keys (r.placed place) (r.node node) = .ok after ∧
      r.Becomes found after := by
  -- The place of a part depends on what is around it, so the induction is for all places.
  fun_induction Pattern.collect keys place node generalizing found with
  | case1 place node hPart =>
      cases h
      refine ⟨⟨[r.target (place.target node)], []⟩, ?_, .refl _, .refl _⟩
      rw [Pattern.collect_eq, kind_node, hPart, target_placed]
  | case3 place node hPart key hNone hKey =>
      cases h
      refine ⟨.evaluating (key.map r.node), ?_, becomes_evaluating (.refl _)⟩
      rw [Pattern.collect_eq, kind_node, hPart, child?_node, hNone, computedName_node hKey]
      rfl
  | case5 place node hPart key value hValue hKey inner hInner ih =>
      cases h
      obtain ⟨after, hAfter, hBecomes⟩ := ih (hSuits.of_contains (Node.contains_of_child? hValue)) hInner
      refine ⟨.evaluating (key.map r.node) ++ after, ?_,
        (becomes_evaluating (.refl _)).append hBecomes⟩
      rw [Pattern.collect_eq, kind_node, hPart, child?_node, hValue, computedName_node hKey]
      simp only [Option.map_some, hAfter]
  | case9 place node hPart left hLeft inner right hRight hInner ih =>
      cases h
      obtain ⟨after, hAfter, hBecomes⟩ := ih (hSuits.of_contains (Node.contains_of_child? hLeft)) hInner
      refine ⟨after ++ .evaluating [r.node right], ?_,
        hBecomes.append (becomes_evaluating (.refl _))⟩
      rw [Pattern.collect_eq, kind_node, hPart]
      simp only [placed, List.map_append] at hAfter
      simp only [child?_node, hLeft, child_node_of_eq_ok hRight, Option.map_some, placed]
      rw [← List.map_singleton (f := r.node), hAfter]
  | case11 place node hPart argument hArgument ih =>
      obtain ⟨after, hAfter, hBecomes⟩ :=
        ih (hSuits.of_contains (Node.contains_of_child? hArgument)) h
      refine ⟨after, ?_, hBecomes⟩
      rw [Pattern.collect_eq, kind_node, hPart]
      simp only [child?_node, hArgument, Option.map_some]
      exact hAfter
  | case14 place node hPart key object hObject hKey =>
      cases h
      refine ⟨.evaluating ((key ++ [object]).map r.node), ?_, becomes_evaluating (.refl _)⟩
      rw [Pattern.collect_eq, kind_node, hPart]
      simp only [computedName_node hKey, child_node_of_eq_ok hObject, List.map_append,
        List.map_cons, List.map_nil]
  | case17 place node hPart callee hCallee inner hInner ih =>
      cases h
      obtain ⟨after, hAfter, hBecomes⟩ :=
        ih (hSuits.of_contains (Node.contains_of_child? hCallee)) hInner
      refine ⟨.evaluating ((node.children "arguments").map r.node) ++ after, ?_,
        (becomes_evaluating (.refl _)).append hBecomes⟩
      rw [Pattern.collect_eq, kind_node, hPart]
      simp only [child?_node, hCallee, Option.map_some, hAfter,
        children_node_of_ne hSuits.self (show "arguments" ≠ "body" by decide)]
  -- Only the parts of an object or an array may have changed their order.
  | case18 place node hPart ih =>
      rw [List.attach_map_val] at h
      rw [Pattern.collect_eq, kind_node, hPart]
      refine concat_becomes (keyed_node hSuits.self) h fun inner hInner found hFound => ?_
      exact ih inner hInner (hSuits.of_contains (ChildKeys.contains_of_mem_children hInner)) hFound
  -- What is left are patterns that cannot be read.
  | case2 | case4 | case6 | case7 | case8 | case10 | case12 | case13 | case15 | case16 => cases h

theorem ofNode_node {found : Pattern} (hSuits : r.SuitsAll node)
    (h : Pattern.ofNode keys node = .ok found) :
    ∃ after, Pattern.ofNode keys (r.node node) = .ok after ∧ r.Becomes found after :=
  collect_node hSuits h

end Rearrangement

end Scoping
