import Scoping.Proofs.Walk.Uses
import Scoping.Proofs.Walk.Work

/-! The work at a node that assigns to what stands left in it. Each target is written
once for each default that it may take, and once more. -/

namespace Scoping

/-- The writes of a value to a target, for a node that assigns. The write of what is
assigned comes after those of the defaults. -/
def Target.writes (source : Node) (target : Target) (last : Use) : List Event :=
  Walker.writeDefaults target source false ++ [.use last]

/-- A write to a target that can make a global. -/
structure Use.Writes (use : Use) (source : Node) (target : Target) : Prop where
  identifier : use.identifier = target.identifier
  access : use.access = .write
  implicitGlobal : use.implicitGlobal = some source

variable {node left source : Node} {target : Target} {event : Event} {last usage : Use}

theorem Target.length_writes (target : Target) (source : Node) (last : Use) :
    (target.writes source last).length = target.defaults.length + 1 := by
  simp [writes, Walker.writeDefaults]

theorem Target.exists_of_mem_writes (h : event ∈ target.writes source last)
    (hLast : last.Writes source target) : ∃ use, event = .use use ∧ use.Writes source target := by
  rcases List.mem_append.1 h with hDefault | hMem
  · obtain ⟨assignment, -, rfl⟩ := List.mem_map.1 hDefault
    exact ⟨_, rfl, rfl, rfl, rfl⟩
  · exact ⟨last, List.mem_singleton.1 hMem, hLast⟩

/-- Work that begins with the writes to some targets, and uses nothing after them. -/
structure BeginsWithWrites (node : Node) (targets : List Target) (last : Target → Use)
    (tasks behind : List Task) : Prop where
  split : tasks = (targets.flatMap fun target => target.writes node (last target)).map .emit ++ behind
  last : ∀ target, (last target).Writes node target
  behind : ∀ use, .emit (.use use) ∉ behind

namespace Walker

variable {walker : Walker} {found : Pattern}

theorem not_use_of_isSimple {tasks : List Task} (h : ∀ task ∈ tasks, task.IsSimple) (use : Use) :
    .emit (.use use) ∉ tasks :=
  fun hMem => h _ hMem

theorem exists_writes_assignment (hKind : node.kind = "AssignmentExpression")
    (hOperator : node.text? "operator" = some "=") (hLeft : node.child? "left" = some left)
    (hFound : Pattern.ofNode walker.settings.keys left = .ok found)
    (hUse : .emit (.use usage) ∈ walker.tasks node) :
    ∃ last behind, BeginsWithWrites node found.targets last (walker.tasks node) behind := by
  have hRole : Role.ofKind node.kind = .assignment := by rw [hKind]; rfl
  rw [tasks_assignment hRole hLeft] at hUse ⊢
  by_cases hPattern : Pattern.isPattern left = true
  · rw [assign, hPattern, if_neg (by simp), if_pos hOperator, bindAndVisit, hFound, List.append_assoc]
    refine ⟨_, _, rfl, fun target => ⟨rfl, rfl, rfl⟩, not_use_of_isSimple fun task hTask => ?_⟩
    rcases List.mem_append.1 hTask with hVisit | hRight
    · obtain ⟨inner, -, rfl⟩ := List.mem_map.1 hVisit
      trivial
    · exact isSimple_of_mem_visitRequired hRight
  · rw [assign, if_pos (by simpa using hPattern)] at hUse
    refine absurd hUse (not_use_of_isSimple (fun task hTask => ?_) usage)
    rcases List.mem_append.1 hTask with hVisit | hRight
    · rw [List.mem_singleton.1 hVisit]
      trivial
    · exact isSimple_of_mem_visitRequired hRight

theorem exists_writes_forEach (hRole : Role.ofKind node.kind = .forEach)
    (hKind : left.kind ≠ "VariableDeclaration") (hLeft : node.child? "left" = some left)
    (hFound : Pattern.ofNode walker.settings.keys left = .ok found)
    (hUse : .emit (.use usage) ∈ walker.tasks node) :
    ∃ last behind, BeginsWithWrites node found.targets last (walker.tasks node) behind := by
  obtain ⟨right, hRight⟩ := exists_right_of_mem hRole hLeft hUse (by exact id)
  rw [tasks_forEach hRole hLeft hRight, loopOver, if_neg hKind, bindAndVisit, hFound]
  simp only [List.append_assoc]
  refine ⟨_, _, rfl, fun target => ⟨rfl, rfl, rfl⟩, fun use hMem => ?_⟩
  simp only [List.mem_append, List.mem_singleton, reduceCtorEq, or_false, Task.emit.injEq] at hMem
  rcases hMem with hVisit | hOver | hBody
  · obtain ⟨inner, -, hEq⟩ := List.mem_map.1 hVisit
    cases hEq
  · cases hOver
  · exact isSimple_of_mem_visitRequired hBody

/-- A node that assigns to a pattern first writes to the targets of the pattern. -/
theorem exists_writes (hSource : node.AssignsLeft) (hLeft : node.child? "left" = some left)
    (hFound : Pattern.ofNode walker.settings.keys left = .ok found)
    (hUse : .emit (.use usage) ∈ walker.tasks node) :
    ∃ last behind, BeginsWithWrites node found.targets last (walker.tasks node) behind := by
  rcases hSource with ⟨hKind, hOperator⟩ | ⟨hKind, hOther⟩
  · exact exists_writes_assignment hKind hOperator hLeft hFound hUse
  · exact exists_writes_forEach (Role.ofKind_of_mem hKind) (hOther left hLeft) hLeft hFound hUse

end Walker

end Scoping
