import Scoping.Proofs.Resolution.Leftover

/-! Where the declarations of a variable come from. A name that a scope has of its
own is declared by what the walk defines there; the names that the program makes
global are declared by the assignments that reach the global scope. -/

namespace Scoping.SymbolTable

variable {settings : Settings} {table : SymbolTable} {tree : Tree} {var : VariableId}
  {declared : Variable}

/-- A name that a scope has of its own. -/
def Own (table : SymbolTable) (var : VariableId) (declared : Variable) : Prop :=
  ∃ scope, table.scopes[declared.scope]? = some scope ∧ var ∈ scope.variables

/-- A name that is not of a scope's own is one that the program makes global. -/
theorem exists_global_of_not_own (hOk : analyze settings tree = .ok table)
    (hDeclared : table.variables[var]? = some declared) (hOwn : ¬ Own table var declared) :
    declared.scope = 0 ∧ ∃ global, table.scopes[(0 : ScopeId)]? = some global ∧
      var ∈ global.implicitVariables := by
  have hChronicle := chronicle_of_analyze_eq_ok hOk
  obtain ⟨scope, hScope, hLists⟩ := hChronicle.named.owned var declared hDeclared
  have hImplicit := hLists.resolve_left fun hMem => hOwn ⟨scope, hScope, hMem⟩
  have hGlobal := (hChronicle.assigned var ⟨_, scope, hScope, hImplicit⟩).global _ scope hScope
    hImplicit
  have hZero := (spec_of_analyze_eq_ok hOk).2.2.1.upper _ scope hScope
    (hChronicle.outermost _ scope hScope hGlobal)
  exact ⟨hZero, scope, hZero ▸ hScope, hImplicit⟩

/-- What declares a variable, all together. -/
theorem origin_of_analyze_eq_ok (hOk : analyze settings tree = .ok table)
    (hDeclared : table.variables[var]? = some declared) :
    (Own table var declared ∧ Reports (programLog settings tree.root) table []
      (notesOf settings (programLog settings tree.root) declared.scope declared.name)
      declared.naming) ∨
    (¬ Own table var declared ∧ Naming.Assigned (some declared.naming)
      ((table.leftAssignments 0).filter fun assignment => assignment.1.name = declared.name)) := by
  have hChronicle := chronicle_of_analyze_eq_ok hOk
  by_cases hOwn : Own table var declared
  · obtain ⟨scope, hScope, hMem⟩ := id hOwn
    exact .inl ⟨hOwn, hChronicle.reports hDeclared hScope hMem⟩
  · obtain ⟨hZero, global, hGlobal, hImplicit⟩ := exists_global_of_not_own hOk hDeclared hOwn
    obtain ⟨_, hLeftover⟩ := leftover_of_analyze_eq_ok hOk
    have hAssigned := hLeftover.assigned declared.name
    rw [namingIn, hChronicle.named.others.found 0 global hGlobal var hImplicit declared hDeclared,
      Option.bind_some, hDeclared] at hAssigned
    exact .inr ⟨hOwn, hAssigned⟩

/-- Each declaration of a variable is a definition by one identifier. -/
theorem size_identifiers_eq (hOk : analyze settings tree = .ok table)
    (hDeclared : table.variables[var]? = some declared) :
    declared.identifiers.size = declared.definitions.size := by
  rw [← Array.length_toList, ← Array.length_toList]
  rcases origin_of_analyze_eq_ok hOk hDeclared with ⟨-, hReports⟩ | ⟨-, hAssigned⟩
  · have hIdentifiers := congrArg List.length hReports.identifiers
    rw [List.length_map] at hIdentifiers
    exact hIdentifiers.trans hReports.definitions.length_eq
  · have hIdentifiers := congrArg List.length hAssigned.identifiers
    have hDefinitions := congrArg List.length hAssigned.definitions
    rw [List.length_map] at hIdentifiers hDefinitions
    rw [List.length_map] at hDefinitions
    exact hIdentifiers.trans hDefinitions.symm

end Scoping.SymbolTable
