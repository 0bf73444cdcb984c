import Scoping.Proofs.Reordering.Implicit
import Scoping.Proofs.Walk.Arriving

/-! What a program means does not depend on the order of its statements. The
statements of one body are moved, its directives stay where they are, and the
finished table is the same but for the order of its lists and for what depends on
which of two statements comes first: the uses before the end of a declaration. -/

namespace Scoping

namespace SymbolTable

variable {table : SymbolTable} {list : Scope → Array VariableId} {position : ScopeId}

theorem none_not_mem_namesIn (h : table.Homes list) : none ∉ table.namesIn list position := by
  unfold namesIn
  cases hEntry : table.scopes[position]? with
  | none => exact List.not_mem_nil
  | some entry =>
      rw [Option.map_some, Option.getD_some, List.mem_map]
      rintro ⟨var, hVar, hNone⟩
      obtain ⟨declared, hDeclared, -⟩ := h position entry hEntry var (Array.mem_toList_iff.1 hVar)
      rw [hDeclared] at hNone
      cases hNone

end SymbolTable

namespace Translation

open SymbolTable

variable {t : Translation} {settings : Settings} {history moved : List Entry}
  {table later : SymbolTable}

/-- Two finished tables that say the same of what has been moved. Their lists may
be in another order, and nothing is said of whether a use comes before the end of
a declaration. -/
structure SameTable (t : Translation) (table later : SymbolTable) : Prop where
  scopes : ∀ position : ScopeId,
    Option.Rel (fun before after => t.SameScope before after ∧ t.SameLists before after)
      table.scopes[position]? later.scopes[t.scope position]?
  names : ∀ position, (table.namesIn Scope.variables position).Perm
    (later.namesIn Scope.variables (t.scope position))
  found : ∀ position name, Option.Rel (t.SameEntry table later)
    (table.ownVariable? position name) (later.ownVariable? (t.scope position) name)
  «variables» : ∀ position name, Option.Rel (t.SameEntry table later)
    (table.ownIn Scope.variables position name)
    (later.ownIn Scope.variables (t.scope position) name)
  implicitVariables : ∀ position name, Option.Rel (t.SameEntry table later)
    (table.ownIn Scope.implicitVariables position name)
    (later.ownIn Scope.implicitVariables (t.scope position) name)
  references : ∀ id : ReferenceId, Option.Rel (t.SameReference table later)
    table.references[id]? later.references[t.reference id]?
  globalScope : later.globalScope = table.globalScope.map t.scope
  implicitPending : ∃ global other, table.scopes[(0 : ScopeId)]? = some global ∧
    later.scopes[(0 : ScopeId)]? = some other ∧
      (global.implicitPending.toList.map t.reference).Perm other.implicitPending.toList

theorem Pairs.sameTable (h : t.Pairs settings history moved table later) :
    t.SameTable table later where
  scopes position := by
    have hScopes := h.scopes position
    have hLists := fun scope other => @Pairs.sameLists t settings history moved table later position h
      scope other
    generalize table.scopes[position]? = before at hScopes hLists ⊢
    generalize later.scopes[t.scope position]? = after at hScopes hLists ⊢
    cases hScopes with
    | none => exact .none
    | some hSame => exact .some ⟨hSame, hLists _ _ rfl rfl⟩
  names position := by
    refine (List.perm_ext_iff_of_nodup
      (h.before.named.indexed.nodup_namesIn h.first.nested.homes_variables position)
      (h.after.named.indexed.nodup_namesIn h.second.nested.homes_variables _)).2 fun name => ?_
    cases name with
    | none =>
        exact iff_of_false (none_not_mem_namesIn h.first.nested.homes_variables)
          (none_not_mem_namesIn h.second.nested.homes_variables)
    | some name =>
        rw [← isSome_lookupIn_iff, ← isSome_lookupIn_iff, ← h.first.nested.lookup?_eq,
          ← h.second.nested.lookup?_eq]
        exact iff_of_eq (congrArg (· = true) (h.lookup?_isSome position name).symm)
  found position name := by
    rw [h.first.nested.ownVariable?_eq, h.second.nested.ownVariable?_eq]
    exact h.variables position name
  «variables» := h.variables
  implicitVariables := h.implicitVariables
  references := h.references
  globalScope := by
    rw [h.first.rooted.globalScope, h.second.rooted.globalScope, Option.map_some, h.scope_zero]
  implicitPending := by
    obtain ⟨global, hGlobal⟩ := h.first.leftover
    obtain ⟨other, hOther⟩ := h.second.leftover
    exact ⟨global, other, hGlobal.found, hOther.found, h.perm_left hGlobal hOther⟩

end Translation

namespace Rearrangement

variable {r : Rearrangement} {settings : Settings} {tree : Tree} {block : Node} {items : List Json}
  {table : SymbolTable}

/-- The statements of a body may come in any order. If they are moved, with the
directives left where they are, the program is analyzed all the same, and the
table says the same of the scopes, of the names in them and of the references. -/
theorem sameTable_of_analyze_eq_ok (hBlock : tree.root.Holds block)
    (hPlace : r.place = .field "body" :: block.location)
    (hItems : block.value? "body" = some (.array items))
    (hMoved : ∀ position, r.order position ≠ position → ∃ item statement,
      items[position]? = some item ∧
        Node.ofJson? (.index position :: r.place) item = some statement ∧ ¬ statement.IsDirective)
    (hOk : analyze settings tree = .ok table) :
    ∃ (later : SymbolTable) (numbers : Renumbering), analyze settings (r.tree tree) = .ok later ∧
      (Translation.mk r numbers).SameTable table later := by
  have hSuits : r.Suits block := by
    refine ⟨fun name hName => ?_, fun found hFound _ => ?_⟩
    · rw [hPlace, List.cons.injEq] at hName
      exact Step.field.inj hName.1
    · cases hItems.symm.trans hFound
      exact hMoved
  have hAll : r.SuitsAll tree.root := fun inner hInner =>
    hSuits.of_holds hBlock hPlace.symm hInner
  obtain ⟨numbers, hCarries⟩ := Renumbering.exists_programLog_perm hAll
    fun failure => SymbolTable.fail_not_mem_of_run (SymbolTable.spec_of_analyze_eq_ok hOk).2.2.2
  have hSame : (Translation.mk r numbers).Carries (programLog settings tree.root)
      (programLog settings (r.tree tree).root) := hCarries
  obtain ⟨later, hLater⟩ := (hSame.exists_analyze_iff hAll).2 ⟨table, hOk⟩
  have hPairs : (Translation.mk r numbers).Pairs settings _ _ table later :=
    ⟨⟨hSame, SymbolTable.chronicle_of_analyze_eq_ok hOk,
      SymbolTable.chronicle_of_analyze_eq_ok hLater⟩, SymbolTable.finished_of_analyze_eq_ok hOk,
      SymbolTable.finished_of_analyze_eq_ok hLater⟩
  exact ⟨later, numbers, hLater, hPairs.sameTable⟩

/-- The program `"use strict"; x; y = x; let x`. -/
def useBeforeLet : Tree where
  root := {
    location := []
    kind := "Program"
    entries := [("type", .string "Program"), ("body", .array statements)] }
where
  identifier (name : String) : Json :=
    .object [("type", .string "Identifier"), ("name", .string name)]
  expression (value : Json) : Json :=
    .object [("type", .string "ExpressionStatement"), ("expression", value)]
  statements : List Json := [
    expression (.object [("type", .string "Literal"), ("value", .string "use strict"),
      ("raw", .string "'use strict'")]),
    expression (identifier "x"),
    expression (.object [("type", .string "AssignmentExpression"), ("operator", .string "="),
      ("left", identifier "y"), ("right", identifier "x")]),
    .object [("type", .string "VariableDeclaration"), ("kind", .string "let"),
      ("declarations", .array [.object [("type", .string "VariableDeclarator"),
        ("id", identifier "x")]])]]

/-- The declaration goes first, so that no use of its name comes before its end any
more. What the uses mean is the same. -/
theorem sameTable_of_analyze_eq_ok_useBeforeLet :
    ∃ (table later : SymbolTable) (numbers : Renumbering),
      analyze ⟨{}, 9⟩ useBeforeLet = .ok table ∧
      analyze ⟨{}, 9⟩ ((Rearrangement.mk [.field "body"] (.swap 1 3)).tree useBeforeLet) =
        .ok later ∧
      table.references.map Reference.inDeadZone = #[true, false, true] ∧
      later.references.map Reference.inDeadZone = #[false, false, false] ∧
      (Translation.mk ⟨[.field "body"], .swap 1 3⟩ numbers).SameTable table later := by
  have hBefore : (analyze ⟨{}, 9⟩ useBeforeLet).toOption.map
      (fun table => table.references.map Reference.inDeadZone) = some #[true, false, true] := by
    decide +kernel
  have hAfter : (analyze ⟨{}, 9⟩
      ((Rearrangement.mk [.field "body"] (.swap 1 3)).tree useBeforeLet)).toOption.map
        (fun table => table.references.map Reference.inDeadZone) = some #[false, false, false] := by
    decide +kernel
  have hMoved : ∀ position, Equiv.swap 1 3 position ≠ position → ∃ item statement,
      useBeforeLet.statements[position]? = some item ∧
        Node.ofJson? [.index position, .field "body"] item = some statement ∧
          ¬ statement.IsDirective := by
    intro position hSwapped
    have hEither : position = 1 ∨ position = 3 := by
      by_contra hNeither
      rw [not_or] at hNeither
      exact hSwapped (Equiv.swap_apply_of_ne_of_ne hNeither.1 hNeither.2)
    rcases hEither with rfl | rfl
    · refine ⟨_, _, rfl, rfl, ?_⟩
      rintro ⟨-, hText | ⟨expression, hExpression, hLiteral, -⟩⟩
      · cases hText
      · cases hExpression
        exact absurd hLiteral (by decide)
    · exact ⟨_, _, rfl, rfl, fun hDirective => nomatch hDirective.1⟩
  obtain ⟨table, hOk, hZones⟩ := exists_of_map_toOption _ hBefore
  obtain ⟨other, hOther, hLater⟩ := exists_of_map_toOption _ hAfter
  obtain ⟨later, numbers, hAgain, hSame⟩ := sameTable_of_analyze_eq_ok
    (r := ⟨[.field "body"], .swap 1 3⟩) useBeforeLet.root.holds_self rfl rfl hMoved hOk
  cases hAgain.symm.trans hOther
  exact ⟨table, other, numbers, hOk, hOther, hZones, hLater, hSame⟩

end Rearrangement

end Scoping
