import Scoping.Proofs.Walk.Regular
import Scoping.Proofs.Walk.UseSites

/-! Which uses the work at a node brings. Just the writes to the targets of an
assignment, or of the head of a loop, can make a global of their name. -/

namespace Scoping

/-- A node that assigns to what stands left in it: a plain assignment, or a loop
whose head declares nothing. -/
def Node.AssignsLeft (node : Node) : Prop :=
  (node.kind = "AssignmentExpression" ∧ node.text? "operator" = some "=") ∨
    (node.kind ∈ ["ForInStatement", "ForOfStatement"] ∧
      ∀ left ∈ node.child? "left", left.kind ≠ "VariableDeclaration")

/-- A write to a target of what a node assigns to, be it of the value that is
assigned or of one that the target takes by default. -/
structure Use.Assigns (keys : ChildKeys) (use : Use) (node : Node) : Prop where
  source : node.AssignsLeft
  target : ∃ left found, node.child? "left" = some left ∧ Pattern.ofNode keys left = .ok found ∧
    ∃ target ∈ found.targets, use.identifier = target.identifier
  access : use.access = .write

/-- A use that the work at a node brings can make a global just if it assigns,
and then it is the node that makes it. -/
def Use.Told (keys : ChildKeys) (node : Node) (use : Use) : Prop :=
  ∀ source, use.implicitGlobal = some source ↔ source = node ∧ use.Assigns keys node

namespace Walker

variable {walker : Walker} {node : Node}

/-- What is emitted at a pattern is for one of its targets. -/
theorem exists_target_of_mem_bindAndVisit {pattern : Node} {each : Target → List Event} {use : Use}
    (h : .emit (.use use) ∈ walker.bindAndVisit pattern each) :
    ∃ found, Pattern.ofNode walker.settings.keys pattern = .ok found ∧
      ∃ target ∈ found.targets, .use use ∈ each target := by
  unfold bindAndVisit at h
  split at h
  · simp at h
  · next found hFound =>
      rcases List.mem_append.1 h with hEmit | hVisit
      · obtain ⟨event, hEvent, hEq⟩ := List.mem_map.1 hEmit
        cases hEq
        obtain ⟨target, hTarget, hMem⟩ := List.mem_flatMap.1 hEvent
        exact ⟨found, hFound, target, hTarget, hMem⟩
      · obtain ⟨inner, -, hEq⟩ := List.mem_map.1 hVisit
        cases hEq

/-- The writes to the targets of a pattern that a node assigns to. -/
theorem told_of_mem_targets {left : Node} {each : Target → List Event} {use : Use}
    (hSource : node.AssignsLeft) (hLeft : node.child? "left" = some left)
    (h : .emit (.use use) ∈ walker.bindAndVisit left each)
    (hEach : ∀ target, .use use ∈ each target → use.identifier = target.identifier ∧
      use.access = .write ∧ use.implicitGlobal = some node) :
    use.Told walker.settings.keys node := by
  obtain ⟨found, hFound, target, hTarget, hMem⟩ := exists_target_of_mem_bindAndVisit h
  obtain ⟨hIdentifier, hAccess, hGlobal⟩ := hEach target hMem
  intro source
  rw [hGlobal, Option.some.injEq, eq_comm]
  exact (and_iff_left ⟨hSource, ⟨left, found, hLeft, hFound, target, hTarget, hIdentifier⟩,
    hAccess⟩).symm

theorem told_of_none {keys : ChildKeys} {use : Use} (hNone : use.implicitGlobal = none)
    (hSource : ¬ node.AssignsLeft) : use.Told keys node := by
  intro source
  rw [hNone]
  exact ⟨nofun, fun h => absurd h.2.source hSource⟩

/-- A default of a target, or the write of the whole value. -/
theorem assigns_of_mem {target : Target} {use write : Use}
    (h : .use use ∈ writeDefaults target node false ++ [.use write])
    (hWrite : write.identifier = target.identifier ∧ write.access = .write ∧
      write.implicitGlobal = some node) :
    use.identifier = target.identifier ∧ use.access = .write ∧ use.implicitGlobal = some node := by
  rcases List.mem_append.1 h with hDefault | hLast
  · obtain ⟨assignment, -, hEq⟩ := List.mem_map.1 hDefault
    cases hEq
    exact ⟨rfl, rfl, rfl⟩
  · cases List.mem_singleton.1 hLast
    exact hWrite

theorem not_assignsLeft_of_role (hAssignment : Role.ofKind node.kind ≠ .assignment)
    (hLoop : Role.ofKind node.kind ≠ .forEach) : ¬ node.AssignsLeft := by
  rintro (⟨hKind, -⟩ | ⟨hKind, -⟩)
  · exact hAssignment (by rw [hKind]; rfl)
  · exact hLoop (Role.ofKind_of_mem hKind)

theorem told_assign {left : Node} {use : Use} (hRole : Role.ofKind node.kind = .assignment)
    (hLeft : node.child? "left" = some left) (h : .emit (.use use) ∈ walker.assign node left) :
    use.Told walker.settings.keys node := by
  have hKind : node.kind = "AssignmentExpression" := Role.kind_eq hRole rfl
  unfold assign at h
  split at h
  · simp [visit] at h
  · split at h
    · next hOperator =>
        exact told_of_mem_targets (.inl ⟨hKind, hOperator⟩) hLeft h fun target hMem =>
          assigns_of_mem hMem ⟨rfl, rfl, rfl⟩
    · next hOperator =>
        cases List.mem_singleton.1 h
        refine told_of_none rfl ?_
        rintro (⟨-, hPlain⟩ | ⟨hLoop, -⟩)
        · exact hOperator hPlain
        · simp [hKind] at hLoop

theorem told_loopOver {left right : Node} {use : Use} (hRole : Role.ofKind node.kind = .forEach)
    (hLeft : node.child? "left" = some left)
    (h : .emit (.use use) ∈ walker.loopOver node left right) :
    use.Told walker.settings.keys node := by
  have hKind : node.kind ∈ ["ForInStatement", "ForOfStatement"] := Role.mem_kinds hRole nofun
  by_cases hDeclares : left.kind = "VariableDeclaration"
  · have hRegular : Regular walker.inMethod False (walker.loopOver node left right) :=
      regular_loopOver fun hOther => hOther hDeclares
    refine told_of_none ((hRegular _ h).resolve_right id) ?_
    rintro (⟨hAssignment, -⟩ | ⟨-, hOther⟩)
    · simp [hAssignment] at hKind
    · exact hOther left hLeft hDeclares
  · rw [loopOver, if_neg hDeclares] at h
    rcases List.mem_append.1 h with hTargets | hRight
    · refine told_of_mem_targets (.inr ⟨hKind, fun other hOther => ?_⟩) hLeft hTargets
        fun target hMem => assigns_of_mem hMem ⟨rfl, rfl, rfl⟩
      cases hLeft.symm.trans hOther
      exact hDeclares
    · simp [visit] at hRight

/-- A use that the work at a node brings can make a global just if it is a write
to a target that the node assigns to. -/
theorem told_of_mem_tasks {use : Use} (h : .emit (.use use) ∈ walker.tasks node) :
    use.Told walker.settings.keys node := by
  have hOther : ∀ {role : Role}, Role.ofKind node.kind = role →
      role ∉ [Role.program, .assignment, .forEach] → use.Told walker.settings.keys node := by
    rintro role rfl hNone
    simp only [List.mem_cons, List.not_mem_nil, or_false, not_or] at hNone
    obtain ⟨hProgram, hAssignment, hLoop⟩ := hNone
    exact told_of_none ((isRegular_of_emit_mem_tasks hProgram h).resolve_right
      (not_or_intro hAssignment hLoop)) (not_assignsLeft_of_role hAssignment hLoop)
  cases usedBy_of_mem_tasks h with
  | assignment role left child mem => exact told_assign role child mem
  | forEach role left right child values mem => exact told_loopOver role child mem
  | identifier role | update role | variableDeclaration role | function role | catchClause role =>
      exact hOther role (by simp)

end Walker

end Scoping
