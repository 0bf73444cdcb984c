import Scoping.Proofs.Table.Ledger
import Scoping.Proofs.Walk.Arriving

/-! The end of a declaration that a variable remembers, told by the events of a
walk: it is the first end of one of its declarations after its definition. -/

namespace Scoping.SymbolTable

variable {settings : Settings} {past : List Event} {table next : SymbolTable} {event : Event}
  {bound : Nat}

/-- A declaration ends after a definition has been made, and so many references
have been recorded by then. -/
def EndsAfter (settings : Settings) (past : List Event) (serial : Nat) (node : Node)
    (count : Nat) : Prop :=
  ∃ before after middle, past = before ++ .endDeclaration node :: after ∧
    ({} : SymbolTable).run settings before = .ok middle ∧ serial < middle.definitionCount ∧
      count = middle.references.size

/-- What a table says of declarations is what the events before have told it. -/
structure Ledgered (settings : Settings) (past : List Event) (bound : Nat) (table : SymbolTable) :
    Prop where
  bounded : ∀ var, ∀ definition ∈ table.definitionsOf var, definition.serial < table.definitionCount
  declared : ∀ location var, var ∈ table.declaredAt location ↔
    ∃ definition ∈ table.definitionsOf var, definition.StandsAt location
  dates : ∀ var, ∀ count ∈ table.endedAt var, count ≤ bound
  earlier : ∀ {serial node count}, EndsAfter settings past serial node count →
    serial < table.definitionCount
  ended : ∀ var limit, (∃ count ∈ table.endedAt var, count ≤ limit) ↔
    ∃ definition ∈ table.definitionsOf var, ∃ node count,
      EndsAfter settings past definition.serial node count ∧ definition.StandsAt node.location ∧
        count ≤ limit

theorem not_endsAfter_nil {serial count : Nat} {node : Node} :
    ¬ EndsAfter settings [] serial node count := by
  rintro ⟨before, after, middle, hSplit, -⟩
  simp at hSplit

theorem ledgered_empty : Ledgered settings [] 0 {} where
  bounded := fun _ _ h => by simp [definitionsOf] at h
  declared := fun _ _ => by simp [declaredAt, definitionsOf]
  dates := fun _ _ h => by simp [endedAt] at h
  earlier := fun h => absurd h not_endsAfter_nil
  ended := fun _ _ => by simp [endedAt, definitionsOf]

theorem Ledgered.of_same (h : Ledgered settings past bound table) (hSame : SameLedger table next) :
    Ledgered settings past bound next where
  bounded := fun var => by
    rw [hSame.definitionsOf, hSame.definitionCount]
    exact h.bounded var
  declared := fun location var => by
    rw [declaredAt, hSame.declared, hSame.definitionsOf]
    exact h.declared location var
  dates := fun var => by
    rw [hSame.endedAt]
    exact h.dates var
  earlier := fun hEnds => by
    rw [hSame.definitionCount]
    exact h.earlier hEnds
  ended := fun var limit => by
    rw [hSame.endedAt, hSame.definitionsOf]
    exact h.ended var limit

/-- A new definition comes after all ends that there have been. -/
theorem Ledgered.addDefinition (h : Ledgered settings past bound table) {var : VariableId}
    (hVar : ∃ declared, table.variables[var]? = some declared) (identifier : Node)
    (definition : Definition) :
    Ledgered settings past bound (table.addDefinition var identifier definition) := by
  refine ⟨fun other found hFound => ?_, fun location other => ?_, fun other => ?_, fun hEnds => ?_,
    fun other limit => ?_⟩
  · rcases (mem_definitionsOf_addDefinition hVar).1 hFound with hOld | ⟨-, rfl⟩
    · exact Nat.lt_succ_of_lt (h.bounded other found hOld)
    · exact Nat.lt_succ_self _
  · rw [mem_declaredAt_addDefinition, h.declared]
    constructor
    · rintro (⟨hStands, rfl⟩ | ⟨found, hFound, hStands⟩)
      · exact ⟨_, (mem_definitionsOf_addDefinition hVar).2 (.inr ⟨rfl, rfl⟩), hStands⟩
      · exact ⟨found, (mem_definitionsOf_addDefinition hVar).2 (.inl hFound), hStands⟩
    · rintro ⟨found, hFound, hStands⟩
      rcases (mem_definitionsOf_addDefinition hVar).1 hFound with hOld | ⟨rfl, rfl⟩
      · exact .inr ⟨found, hOld, hStands⟩
      · exact .inl ⟨hStands, rfl⟩
  · rw [endedAt_addDefinition]
    exact h.dates other
  · exact Nat.lt_succ_of_lt (h.earlier hEnds)
  · rw [endedAt_addDefinition, h.ended]
    constructor
    · rintro ⟨found, hFound, hRest⟩
      exact ⟨found, (mem_definitionsOf_addDefinition hVar).2 (.inl hFound), hRest⟩
    · rintro ⟨found, hFound, node, count, hEnds, hRest⟩
      rcases (mem_definitionsOf_addDefinition hVar).1 hFound with hOld | ⟨rfl, rfl⟩
      · exact ⟨found, hOld, node, count, hEnds, hRest⟩
      · exact absurd (h.earlier hEnds) (Nat.lt_irrefl _)

/-- The ends after one more event. -/
theorem endsAfter_concat (hRun : ({} : SymbolTable).run settings past = .ok table) {serial count : Nat}
    {node : Node} : EndsAfter settings (past ++ [event]) serial node count ↔
      EndsAfter settings past serial node count ∨
        (event = .endDeclaration node ∧ serial < table.definitionCount ∧
          count = table.references.size) := by
  constructor
  · rintro ⟨before, after, middle, hSplit, hBefore, hRest⟩
    rcases List.eq_nil_or_concat after with rfl | ⟨front, last, rfl⟩
    · obtain ⟨rfl, hEvent⟩ := List.append_inj' hSplit rfl
      cases hRun.symm.trans hBefore
      exact .inr ⟨(List.cons.inj hEvent).1, hRest⟩
    · rw [List.concat_eq_append, ← List.cons_append, ← List.append_assoc] at hSplit
      exact .inl ⟨before, front, middle, (List.append_inj' hSplit rfl).1, hBefore, hRest⟩
  · rintro (⟨before, after, middle, rfl, hRest⟩ | ⟨rfl, hRest⟩)
    · exact ⟨before, after ++ [event], middle, by simp, hRest⟩
    · exact ⟨past, [], table, rfl, hRun, hRest⟩

/-- A first end that is not after the one at hand stays the first. -/
theorem exists_mem_or_some {found : Option Nat} {last limit : Nat}
    (h : ∀ count ∈ found, count ≤ last) :
    (∃ count ∈ found.or (some last), count ≤ limit) ↔
      (∃ count ∈ found, count ≤ limit) ∨ last ≤ limit := by
  cases found with
  | none => simp
  | some first =>
      have hLe := h first rfl
      simp only [Option.some_or, Option.mem_some_iff, exists_eq_left']
      exact ⟨.inl, fun hEither => hEither.elim id (Nat.le_trans hLe)⟩

theorem Ledgered.endDeclaration (h : Ledgered settings past table.references.size table)
    (hRun : ({} : SymbolTable).run settings past = .ok table) (node : Node) :
    Ledgered settings (past ++ [.endDeclaration node]) table.references.size
      (table.endDeclaration node) := by
  have hNotes := notesEnds_endDeclaration table node
  refine ⟨fun var => ?_, fun location var => ?_, fun var count hCount => ?_, fun hEnds => ?_,
    fun var limit => ?_⟩
  · rw [hNotes.definitionsOf, hNotes.definitionCount]
    exact h.bounded var
  · rw [declaredAt, hNotes.declared, hNotes.definitionsOf]
    exact h.declared location var
  · rw [hNotes.endedAt] at hCount
    split at hCount
    · cases hEnded : table.endedAt var with
      | none =>
          rw [hEnded, Option.none_or, Option.mem_some_iff] at hCount
          exact Nat.le_of_eq hCount.symm
      | some first =>
          rw [hEnded, Option.some_or, ← hEnded] at hCount
          exact h.dates var count hCount
    · exact h.dates var count hCount
  · rw [hNotes.definitionCount]
    rcases (endsAfter_concat hRun).1 hEnds with hOld | ⟨-, hSerial, -⟩
    · exact h.earlier hOld
    · exact hSerial
  -- What has ended by now had ended before, or ends at this node.
  · have hSplit : (∃ definition ∈ table.definitionsOf var, ∃ ended count,
        EndsAfter settings (past ++ [.endDeclaration node]) definition.serial ended count ∧
          definition.StandsAt ended.location ∧ count ≤ limit) ↔
        (∃ count ∈ table.endedAt var, count ≤ limit) ∨
          (var ∈ table.declaredAt node.location ∧ table.references.size ≤ limit) := by
      rw [h.ended, h.declared]
      constructor
      · rintro ⟨definition, hMem, ended, count, hEnds, hStands, hLe⟩
        rcases (endsAfter_concat hRun).1 hEnds with hOld | ⟨hEvent, -, rfl⟩
        · exact .inl ⟨definition, hMem, ended, count, hOld, hStands, hLe⟩
        · cases hEvent
          exact .inr ⟨⟨definition, hMem, hStands⟩, hLe⟩
      · rintro (⟨definition, hMem, ended, count, hEnds, hRest⟩ | ⟨⟨definition, hMem, hStands⟩, hLe⟩)
        · exact ⟨definition, hMem, ended, count, (endsAfter_concat hRun).2 (.inl hEnds), hRest⟩
        · exact ⟨definition, hMem, node, _,
            (endsAfter_concat hRun).2 (.inr ⟨rfl, h.bounded var definition hMem, rfl⟩), hStands, hLe⟩
    rw [hNotes.definitionsOf, hSplit, hNotes.endedAt]
    simp only [Array.mem_toList_iff]
    by_cases hVar : var ∈ table.declaredAt node.location
    · have hLt : var < table.variables.size := by
        obtain ⟨definition, hMem, -⟩ := (h.declared _ _).1 hVar
        by_contra hNot
        rw [SymbolTable.definitionsOf, Array.getElem?_eq_none (Nat.le_of_not_lt hNot)] at hMem
        simp at hMem
      rw [if_pos ⟨hVar, hLt⟩, exists_mem_or_some (h.dates var)]
      simp only [hVar, true_and]
    · rw [if_neg fun hBoth => hVar hBoth.1]
      simp only [hVar, false_and, or_false]

theorem ledgered_apply (h : Ledgered settings past table.references.size table)
    (hNested : Nested table table.stack) (hRun : ({} : SymbolTable).run settings past = .ok table)
    (hOk : table.apply settings event = .ok next) :
    Ledgered settings (past ++ [event]) next.references.size next := by
  by_cases hEnd : ∃ node, event = .endDeclaration node
  · obtain ⟨node, rfl⟩ := hEnd
    cases hOk
    rw [(notesEnds_endDeclaration table node).references]
    exact h.endDeclaration hRun node
  · have hEvent : ∀ node, event ≠ .endDeclaration node := fun node hEq => hEnd ⟨node, hEq⟩
    have hNext := ledger_apply (P := Ledgered settings past table.references.size)
      (fun _ _ hSame hTable => hTable.of_same hSame)
      (fun _ _ identifier definition _ hVar hTable =>
        hTable.addDefinition hVar identifier definition)
      hNested h hEvent (fun _ => id) hOk
    have hSize : table.references.size ≤ next.references.size := by
      rw [(sizes_apply hNested hOk).2]
      exact Nat.le_add_right _ _
    have hSame : ∀ {serial node count}, EndsAfter settings (past ++ [event]) serial node count ↔
        EndsAfter settings past serial node count := fun {serial node count} => by
      rw [endsAfter_concat hRun, or_iff_left fun hLast => hEvent node hLast.1]
    exact ⟨hNext.bounded, hNext.declared,
      fun var count hCount => Nat.le_trans (hNext.dates var count hCount) hSize,
      fun hEnds => hNext.earlier (hSame.1 hEnds), fun var limit => by
        simp only [hSame]
        exact hNext.ended var limit⟩

/-- The ends that a walk notes are the first ends of what it defines. -/
theorem ledgered_of_run (hOk : ({} : SymbolTable).run settings past = .ok table) :
    Ledgered settings past table.references.size table := by
  induction past using List.reverseRecOn generalizing table with
  | nil =>
      cases hOk
      exact ledgered_empty
  | append_singleton past event ih =>
      obtain ⟨middle, hMiddle, hLast⟩ := exists_run_of_append hOk
      obtain ⟨next, hNext, hEnd⟩ := exists_of_bind_ok hLast
      cases hEnd
      exact ledgered_apply (ih hMiddle) (follows_after hMiddle).nested hMiddle hNext

/-- A definition is one that an event of a walk makes; it has been counted then. -/
def MadeBy (settings : Settings) (past : List Event) (definition : Definition) : Prop :=
  ∃ before destination identifier made after table,
    past = before ++ .define destination identifier made :: after ∧
      ({} : SymbolTable).run settings (before ++ [.define destination identifier made]) = .ok table ∧
        definition = { made with serial := definition.serial } ∧
          definition.serial < table.definitionCount

theorem MadeBy.append {definition : Definition} (h : MadeBy settings past definition)
    (events : List Event) : MadeBy settings (past ++ events) definition := by
  obtain ⟨before, destination, identifier, made, after, table, rfl, hRest⟩ := h
  exact ⟨before, destination, identifier, made, after ++ events, table, by simp, hRest⟩

/-- All that a table says of the definitions of classes and lexical declarations
is said by an event. -/
def AllMade (settings : Settings) (past : List Event) (table : SymbolTable) : Prop :=
  ∀ var, ∀ definition ∈ table.definitionsOf var, definition.isLexical = true →
    MadeBy settings past definition

theorem AllMade.of_same (h : AllMade settings past table) (hSame : SameLedger table next) :
    AllMade settings past next :=
  fun var definition hMem => h var definition (hSame.definitionsOf var ▸ hMem)

theorem AllMade.addDefinition (h : AllMade settings past table) {var : VariableId}
    (hVar : ∃ declared, table.variables[var]? = some declared) (identifier : Node)
    {definition : Definition} (hMade : definition.isLexical = true →
      MadeBy settings past { definition with serial := table.definitionCount }) :
    AllMade settings past (table.addDefinition var identifier definition) := by
  intro other found hFound hLexical
  rw [definitionsOf_addDefinition hVar] at hFound
  split at hFound
  · rcases Array.mem_push.1 hFound with hOld | rfl
    · exact h var found hOld hLexical
    · exact hMade hLexical
  · exact h other found hFound hLexical

theorem allMade_apply (h : AllMade settings past table) (hNested : Nested table table.stack)
    (hRun : ({} : SymbolTable).run settings past = .ok table)
    (hOk : table.apply settings event = .ok next) : AllMade settings (past ++ [event]) next := by
  have hBefore : AllMade settings (past ++ [event]) table :=
    fun var definition hMem hLexical => (h var definition hMem hLexical).append _
  cases event with
  | endDeclaration node =>
      cases hOk
      intro var definition hMem
      rw [(notesEnds_endDeclaration table node).definitionsOf] at hMem
      exact hBefore var definition hMem
  | define destination identifier made =>
      obtain ⟨scope, hCurrent, hNext⟩ := exists_of_bind_ok hOk
      cases hNext
      have hScope : table.destination settings scope destination ∈ table.stack :=
        hNested.destination_mem (mem_of_current_eq_ok hCurrent) destination
      unfold define
      split
      · obtain ⟨-, declared, hDeclared, -⟩ := advances_declare hNested hScope identifier.name
        have hSame := sameLedger_declare table
          (table.destination settings scope destination) identifier.name
        refine (hBefore.of_same hSame).addDefinition ⟨declared, hDeclared⟩ identifier fun _ => ?_
        refine ⟨past, destination, identifier, made, [], _, rfl, run_concat hRun hOk, rfl, ?_⟩
        unfold define
        rw [if_pos ‹_›]
        exact Nat.lt_succ_self _
      · exact hBefore
  | enter | leave | setStrict | use | directEval | thisExpression | bodyStart | fail =>
      exact ledger_apply (P := AllMade settings (past ++ [_]))
        (Q := fun definition => definition.isLexical = false)
        (fun _ _ hSame hTable => hTable.of_same hSame)
        (fun _ _ identifier definition hOther hVar hTable =>
          hTable.addDefinition hVar identifier fun hLexical => by simp [hOther] at hLexical)
        hNested hBefore (fun _ hEnd => by cases hEnd) (fun _ => id) hOk

theorem allMade_of_run (hOk : ({} : SymbolTable).run settings past = .ok table) :
    AllMade settings past table := by
  induction past using List.reverseRecOn generalizing table with
  | nil =>
      cases hOk
      intro var definition hMem
      simp [definitionsOf] at hMem
  | append_singleton past event ih =>
      obtain ⟨middle, hMiddle, hLast⟩ := exists_run_of_append hOk
      obtain ⟨next, hNext, hEnd⟩ := exists_of_bind_ok hLast
      cases hEnd
      exact allMade_apply (ih hMiddle) (follows_after hMiddle).nested hMiddle hNext

end Scoping.SymbolTable
