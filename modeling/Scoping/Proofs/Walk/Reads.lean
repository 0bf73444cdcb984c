import Scoping.Proofs.Walk.FirstValues

/-! The uses that read. All other uses are writes to the targets of a pattern, of which there may
be several to one name. The work at a node that reads a name uses nothing else. -/

namespace Scoping.Walker

variable {walker : Walker} {node : Node} {use other : Use} {tasks : List Task}

/-- A use that begins some work, in which there is no other. It takes all of the value that it
gives, if it gives one. -/
structure OnlyUse (tasks : List Task) (use : Use) : Prop where
  first : ∃ rest, tasks = .emit (.use use) :: rest ∧ ∀ other, .emit (.use other) ∉ rest
  init : use.init = false
  isPartial : use.isPartial = false
  writeExpr : use.writeExpr.isSome = true → use.access.writes = true

theorem OnlyUse.eq_nil (h : OnlyUse tasks use) {before after : List Task}
    (hSplit : tasks = before ++ .emit (.use other) :: after) : before = [] := by
  obtain ⟨rest, rfl, hRest⟩ := h.first
  cases before with
  | nil => rfl
  | cons first before =>
      rw [List.cons_append, List.cons.injEq] at hSplit
      exact absurd (hSplit.2 ▸ List.mem_append_right _ List.mem_cons_self) (hRest other)

theorem access_of_mem_writeDefaults {target : Target} {source : Option Node} {init : Bool}
    (h : .use use ∈ writeDefaults target source init) : use.access = .write := by
  obtain ⟨assignment, -, hEq⟩ := List.mem_map.1 h
  cases hEq
  rfl

theorem access_of_mem_write {target : Target} {source : Option Node} {init : Bool} {write : Use}
    (hWrite : write.access = .write)
    (h : .use use ∈ writeDefaults target source init ++ [.use write]) : use.access = .write := by
  rcases List.mem_append.1 h with hDefault | hLast
  · exact access_of_mem_writeDefaults hDefault
  · cases List.mem_singleton.1 hLast
    exact hWrite

theorem access_of_mem_define {target : Target} {define : Event} {source : Option Node} {init : Bool}
    (hDefine : define ≠ .use use) (h : .use use ∈ define :: writeDefaults target source init) :
    use.access = .write :=
  access_of_mem_writeDefaults ((List.mem_cons.1 h).resolve_left hDefine.symm)

theorem access_of_mem_defineParameters (h : .emit (.use use) ∈ walker.defineParameters node) :
    use.access = .write := by
  obtain ⟨⟨parameter, position⟩, -, hMem⟩ := List.mem_flatMap.1 h
  obtain ⟨target, -, hUse⟩ := exists_target_of_mem hMem
  exact access_of_mem_define (by simp) hUse

theorem access_of_mem_catchError (h : .emit (.use use) ∈ walker.catchError node) :
    use.access = .write := by
  simp only [catchError, List.cons_append, List.append_assoc, List.mem_cons, List.mem_append,
    use_not_mem_visitRequired, Task.emit.injEq, reduceCtorEq, List.not_mem_nil, or_false,
    false_or] at h
  obtain ⟨parameter, -, hBinds⟩ := mem_optional h
  obtain ⟨target, -, hUse⟩ := exists_target_of_mem hBinds
  exact access_of_mem_define (by simp) hUse

theorem access_of_mem_declareVariables {declaration : Node} {inLoopHead : Bool}
    (h : .emit (.use use) ∈ walker.declareVariables declaration inLoopHead) :
    use.access = .write := by
  obtain ⟨⟨declarator, position⟩, -, hMem⟩ := List.mem_flatMap.1 h
  have hTargets : .emit (.use use) ∈ walker.declareTargets declaration declarator position := by
    cases inLoopHead <;> simpa using hMem
  rcases mem_required hTargets with hSimple | ⟨id, -, hBinds⟩
  · exact hSimple.elim
  · obtain ⟨target, -, hUse⟩ := exists_target_of_mem hBinds
    rcases List.mem_append.1 hUse with hDefine | hWrite
    · exact access_of_mem_define (by simp) hDefine
    · split at hWrite
      · cases hWrite
      · cases List.mem_singleton.1 hWrite
        rfl

theorem access_of_mem_loopOver {left right : Node}
    (h : .emit (.use use) ∈ walker.loopOver node left right) : use.access = .write := by
  unfold loopOver at h
  split at h
  · simp only [List.append_assoc, List.mem_append, List.mem_cons] at h
    rcases h with hEnter | hDeclared | hFirst | hRight | hEnds
    · split at hEnter
      · cases List.mem_singleton.1 hEnter
      · cases hEnter
    · exact access_of_mem_declareVariables hDeclared
    · split at hFirst
      · cases hFirst
      · rcases mem_required hFirst with hSimple | ⟨id, -, hMem⟩
        · exact hSimple.elim
        · obtain ⟨target, -, hUse⟩ := exists_target_of_mem_bind hMem
          cases List.mem_singleton.1 hUse
          rfl
    · cases hRight
    · obtain ⟨declarator, -, hEq⟩ := List.mem_map.1 hEnds
      cases hEq
  · rcases List.mem_append.1 h with hTargets | hRight
    · obtain ⟨target, -, hUse⟩ := exists_target_of_mem hTargets
      exact access_of_mem_write rfl hUse
    · cases List.mem_singleton.1 hRight

/-- An assignment writes to the targets of what stands left in it. If it combines the value with
the one that is there, it reads and writes the one name that stands there. -/
theorem only_or_write_of_assignment (hRole : Role.ofKind node.kind = .assignment) {left : Node}
    (hLeft : node.child? "left" = some left) (h : .emit (.use use) ∈ walker.assign node left) :
    OnlyUse (walker.tasks node) use ∨ use.access = .write := by
  rw [tasks_assignment hRole hLeft]
  unfold assign at h ⊢
  split at h
  · cases List.mem_singleton.1 h
  · split at h
    · obtain ⟨target, -, hUse⟩ := exists_target_of_mem h
      exact .inr (access_of_mem_write rfl hUse)
    · next hPattern hOperator =>
        cases List.mem_singleton.1 h
        rw [if_neg hPattern, if_neg hOperator]
        exact .inl ⟨⟨_, rfl, fun _ => use_not_mem_visitRequired⟩, rfl, rfl, fun _ => rfl⟩

/-- A use that is no plain write is the only one that the work at its node brings. -/
theorem only_or_write (h : .emit (.use use) ∈ walker.tasks node) :
    OnlyUse (walker.tasks node) use ∨ (use.access = .write ∧ Role.ofKind node.kind ∈
      [Role.assignment, .forEach, .variableDeclaration, .function, .catchClause]) := by
  cases usedBy_of_mem_tasks h with
  | identifier role eq =>
      refine .inl ⟨⟨[], ?_, fun _ => List.not_mem_nil⟩, ?_, ?_, ?_⟩ <;> rw [eq]
      · rw [tasks, role]
      · exact fun hSome => absurd hSome Bool.false_ne_true
  | update role argument child pattern eq =>
      refine .inl ⟨⟨[], ?_, fun _ => List.not_mem_nil⟩, ?_, ?_, ?_⟩ <;> rw [eq]
      · simp [tasks, role, required, child, pattern]
      · exact fun hSome => absurd hSome Bool.false_ne_true
  | assignment role left child mem =>
      exact (only_or_write_of_assignment role child mem).imp_right fun hWrite => ⟨hWrite, by simp [role]⟩
  | forEach role left right _ _ mem => exact .inr ⟨access_of_mem_loopOver mem, by simp [role]⟩
  | variableDeclaration role mem =>
      exact .inr ⟨access_of_mem_declareVariables mem, by simp [role]⟩
  | function role mem => exact .inr ⟨access_of_mem_defineParameters mem, by simp [role]⟩
  | catchClause role mem => exact .inr ⟨access_of_mem_catchError mem, by simp [role]⟩

end Scoping.Walker
