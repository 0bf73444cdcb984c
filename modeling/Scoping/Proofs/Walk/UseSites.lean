import Scoping.Proofs.Walk.Work

/-! Where the work at a node uses a name by itself. All other uses inside the node are those of
nodes that it visits. -/

namespace Scoping.Walker

variable {walker : Walker} {node : Node} {name : String} {use : Use}

@[simp] theorem use_not_mem_map_visit {nodes : List Node} :
    .emit (.use use) ∉ nodes.map walker.visit := by
  simp [visit]

@[simp] theorem use_not_mem_descend : .emit (.use use) ∉ walker.descend node :=
  fun h => isSimple_of_mem_descend h

@[simp] theorem use_not_mem_visitRequired : .emit (.use use) ∉ walker.visitRequired node name :=
  fun h => isSimple_of_mem_visitRequired h

@[simp] theorem use_not_mem_visitOptional : .emit (.use use) ∉ walker.visitOptional node name :=
  fun h => isSimple_of_mem_visitOptional h

@[simp] theorem use_not_mem_visitComputed : .emit (.use use) ∉ walker.visitComputed node name :=
  fun h => isSimple_of_mem_visitComputed h

@[simp] theorem use_not_mem_defineClassName : .emit (.use use) ∉ defineClassName node := fun h => by
  obtain ⟨_, _, hEq, -⟩ := (mem_defineClassName h).define
  cases hEq

theorem use_not_mem_optional {next : Node → List Task} (h : ∀ child, .emit (.use use) ∉ next child) :
    .emit (.use use) ∉ optional node name next := fun hMem => by
  obtain ⟨child, -, hNext⟩ := mem_optional hMem
  exact h child hNext

@[simp] theorem use_not_mem_importNames : .emit (.use use) ∉ walker.importNames node := fun h => by
  rcases mem_importNames h with hSimple | ⟨_, _, hEq, -⟩
  · exact hSimple
  · cases hEq

theorem use_not_mem_program : .emit (.use use) ∉ walker.program node := fun h => by
  rcases mem_program h with hSimple | ⟨_, hEq⟩ | hEq | ⟨_, _, hEq⟩
  · exact hSimple
  all_goals cases hEq

/-- The ways in which the work at a node comes to use a name. -/
inductive UsedBy (walker : Walker) (node : Node) (use : Use) : Prop where
  | identifier (role : Role.ofKind node.kind = .identifier)
      (eq : use = { identifier := node, access := .read })
  | update (role : Role.ofKind node.kind = .update) (argument : Node)
      (child : node.child? "argument" = some argument) (pattern : Pattern.isPattern argument = true)
      (eq : use = { identifier := argument, access := .readWrite })
  | assignment (role : Role.ofKind node.kind = .assignment) (left : Node)
      (child : node.child? "left" = some left) (mem : .emit (.use use) ∈ walker.assign node left)
  | forEach (role : Role.ofKind node.kind = .forEach) (left right : Node)
      (child : node.child? "left" = some left) (values : node.child? "right" = some right)
      (mem : .emit (.use use) ∈ walker.loopOver node left right)
  | variableDeclaration (role : Role.ofKind node.kind = .variableDeclaration)
      (mem : .emit (.use use) ∈ walker.declareVariables node false)
  | function (role : Role.ofKind node.kind = .function)
      (mem : .emit (.use use) ∈ walker.defineParameters node)
  | catchClause (role : Role.ofKind node.kind = .catchClause)
      (mem : .emit (.use use) ∈ walker.catchError node)

/-- A function uses names only where it gives its parameters values. -/
theorem use_mem_defineFunction (h : .emit (.use use) ∈ walker.defineFunction node) :
    .emit (.use use) ∈ walker.defineParameters node := by
  unfold defineFunction at h
  simp only [List.mem_append, List.mem_cons, use_not_mem_visitRequired, Task.emit.injEq,
    reduceCtorEq, List.not_mem_nil, or_false, false_or] at h
  rcases h with (hName | hOwn) | hMem
  · split at hName
    · exact absurd hName (use_not_mem_optional fun _ => by simp)
    · cases hName
  · split at hOwn <;> simp at hOwn
  · exact hMem

theorem usedBy_of_mem_tasks (h : .emit (.use use) ∈ walker.tasks node) : UsedBy walker node use := by
  unfold tasks at h
  cases hRole : Role.ofKind node.kind <;> simp only [hRole] at h
  case program => exact absurd h use_not_mem_program
  case identifier =>
    cases List.mem_singleton.1 h
    exact .identifier hRole rfl
  case update =>
    rcases mem_required h with hSimple | ⟨argument, hArgument, hMem⟩
    · exact hSimple.elim
    · split at hMem
      · next hPattern =>
          cases List.mem_singleton.1 hMem
          exact .update hRole argument hArgument hPattern rfl
      · exact absurd hMem use_not_mem_descend
  case assignment =>
    rcases List.mem_append.1 h with hLeft | hRight
    · rcases mem_required hLeft with hSimple | ⟨left, hChild, hMem⟩
      · exact hSimple.elim
      · exact .assignment hRole left hChild hMem
    · exact absurd hRight use_not_mem_visitRequired
  case forEach =>
    rcases mem_required h with hSimple | ⟨left, hLeft, hLoop⟩
    · exact hSimple.elim
    rcases mem_required hLoop with hSimple | ⟨right, hRight, hOver⟩
    · exact hSimple.elim
    refine .forEach hRole left right hLeft hRight ?_
    simpa using hOver
  case variableDeclaration => exact .variableDeclaration hRole h
  case catchClause => exact .catchClause hRole h
  case function => exact .function hRole (use_mem_defineFunction h)
  case call =>
    rcases List.mem_append.1 h with hCallee | hDescend
    · rcases mem_required hCallee with hSimple | ⟨callee, -, hMem⟩
      · exact hSimple.elim
      · split at hMem <;> simp at hMem
    · exact absurd hDescend use_not_mem_descend
  case field =>
    rcases List.mem_append.1 h with hKey | hValue
    · exact absurd hKey use_not_mem_visitComputed
    · exact absurd hValue (use_not_mem_optional fun _ => by simp [within, visit])
  case classDefinition =>
    unfold defineClass at h
    split at h <;> simp at h
  case exportDeclaration =>
    split at h
    · cases h
    · split at h <;> simp [visit] at h
  case block | switchStatement | forLoop | importDeclaration =>
    split at h <;> simp [within] at h
  all_goals simp [within] at h

end Scoping.Walker
