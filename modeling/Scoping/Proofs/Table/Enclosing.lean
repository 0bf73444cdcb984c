import Mathlib.Data.List.Sort
import Scoping.SymbolTable.Basic

namespace Scoping.SymbolTable

variable {table other : SymbolTable} {scope upper : ScopeId}

/-- A change of one of the things in an array, seen through a view of each. -/
theorem map_modify {α β : Type} {view : α → β} {change : α → α} {seen : β → β}
    (h : ∀ entry, view (change entry) = seen (view entry)) (entries : Array α) (position : Nat) :
    (entries.modify position change).map view = (entries.map view).modify position seen := by
  refine Array.ext_getElem? fun other => ?_
  simp only [Array.getElem?_map, Array.getElem?_modify]
  split
  · simp [Function.comp_def, h]
  · rfl

@[simp] theorem getElem?_modifyScope (table : SymbolTable) (scope position : ScopeId)
    (change : Scope → Scope) :
    (table.modifyScope scope change).scopes[position]? =
      if scope = position then table.scopes[position]?.map change else table.scopes[position]? :=
  Array.getElem?_modify

@[simp] theorem variables_modifyScope (change : Scope → Scope) :
    (table.modifyScope scope change).variables = table.variables :=
  rfl

@[simp] theorem references_modifyScope (change : Scope → Scope) :
    (table.modifyScope scope change).references = table.references :=
  rfl

@[simp] theorem getElem?_modifyVariable (table : SymbolTable) (var position : VariableId)
    (change : Variable → Variable) :
    (table.modifyVariable var change).variables[position]? =
      if var = position then table.variables[position]?.map change
      else table.variables[position]? :=
  Array.getElem?_modify

@[simp] theorem getElem?_modifyReference (table : SymbolTable) (id position : ReferenceId)
    (change : Reference → Reference) :
    (table.modifyReference id change).references[position]? =
      if id = position then table.references[position]?.map change
      else table.references[position]? :=
  Array.getElem?_modify

/-- Every scope is opened after the one around it. -/
def UppersFall (table : SymbolTable) : Prop :=
  ∀ scope upper, table.upper? scope = some upper → upper < scope

/-- The way out goes to the upper scope first. -/
theorem enclosing_of_upper (hUpper : table.upper? scope = some upper) (h : upper < scope) :
    table.enclosing scope = scope :: table.enclosing upper := by
  rw [enclosing]
  simp [hUpper, h]

theorem enclosing_zero (table : SymbolTable) : table.enclosing 0 = [0] := by
  rw [enclosing]
  split
  · rw [if_neg (Nat.not_lt_zero _)]
  · rfl

/-- From the outermost scope there is no way further out. -/
theorem enclosing_of_outermost (h : table.upper? scope = none) :
    table.enclosing scope = [scope] := by
  rw [enclosing]
  simp [h]

theorem exists_enclosing_eq_cons (table : SymbolTable) (scope : ScopeId) :
    ∃ around, table.enclosing scope = scope :: around := by
  rw [enclosing]
  exact ⟨_, rfl⟩

theorem mem_enclosing_self : scope ∈ table.enclosing scope := by
  rw [enclosing]
  exact List.mem_cons_self

/-- A scope on the way out is the scope itself, or on the way out of the upper one. -/
theorem mem_enclosing_cases {inner : ScopeId} (h : inner ∈ table.enclosing scope) :
    inner = scope ∨ ∃ upper, table.upper? scope = some upper ∧ inner ∈ table.enclosing upper := by
  rw [enclosing] at h
  rcases List.mem_cons.1 h with rfl | hRest
  · exact .inl rfl
  · split at hRest
    · next upper hUpper =>
        split at hRest
        · exact .inr ⟨upper, hUpper, hRest⟩
        · cases hRest
    · cases hRest

/-- The scope around is on the way out, provided it has opened earlier. -/
theorem upper_mem_enclosing (hFall : table.UppersFall) (hUpper : table.upper? scope = some upper) :
    upper ∈ table.enclosing scope := by
  rw [enclosing_of_upper hUpper (hFall _ _ hUpper)]
  exact List.mem_cons_of_mem _ mem_enclosing_self

/-- Each scope on the way out has opened earlier than those inside. -/
theorem le_of_mem_enclosing {inner : ScopeId} (h : inner ∈ table.enclosing scope) :
    inner ≤ scope := by
  fun_induction enclosing table scope with
  | case1 scope ih =>
      rcases List.mem_cons.1 h with rfl | hRest
      · exact Nat.le_refl _
      · split at hRest
        · next upper hUpper =>
            split at hRest
            · next hLt => exact Nat.le_of_lt (Nat.lt_of_le_of_lt (ih upper hLt hRest) hLt)
            · cases hRest
        · cases hRest

/-- The scopes around a scope are met in falling order, so each is met once. -/
theorem enclosing_sortedGT : (table.enclosing scope).Pairwise (· > ·) := by
  fun_induction enclosing table scope with
  | case1 scope ih =>
      refine List.pairwise_cons.2 ⟨?_, ?_⟩
      · intro inner hInner
        split at hInner
        · split at hInner
          · next hLt => exact Nat.lt_of_le_of_lt (le_of_mem_enclosing hInner) hLt
          · cases hInner
        · cases hInner
      · split
        · next upper _ =>
            split
            · next hLt => exact ih upper hLt
            · exact List.Pairwise.nil
        · exact List.Pairwise.nil

/-- The way out comes by no scope twice. -/
theorem enclosing_nodup : (table.enclosing scope).Nodup :=
  enclosing_sortedGT.imp fun h => Nat.ne_of_gt h

/-- Two tables that agree on the scopes around the scopes up to one agree on
the whole way out of it. -/
theorem enclosing_congr
    (h : ∀ position ≤ scope, table.upper? position = other.upper? position) :
    table.enclosing scope = other.enclosing scope := by
  fun_induction enclosing table scope with
  | case1 scope ih =>
      rw [enclosing, ← h scope (Nat.le_refl _)]
      congr 1
      split
      · next upper _ =>
          split
          · next hLt =>
              exact ih upper hLt fun position hPosition =>
                h position (Nat.le_trans hPosition (Nat.le_of_lt hLt))
          · rfl
      · rfl

/-- What follows a scope on the way out of another is the way out of it. -/
theorem enclosing_of_append {passed around : List ScopeId} {start : ScopeId}
    (h : table.enclosing start = passed ++ scope :: around) :
    table.enclosing scope = scope :: around := by
  fun_induction enclosing table start generalizing passed with
  | case1 start ih =>
      cases passed with
      | nil =>
          simp only [List.nil_append, List.cons.injEq] at h
          obtain ⟨rfl, rfl⟩ := h
          rw [enclosing]
      | cons head passed =>
          simp only [List.cons_append, List.cons.injEq] at h
          obtain ⟨-, hRest⟩ := h
          split at hRest
          · split at hRest
            · next upper _ hLt => exact ih upper hLt hRest
            · cases passed <;> cases hRest
          · cases passed <;> cases hRest

/-- The way out of a scope inside another comes by all that is around the other. -/
theorem enclosing_subset_of_mem {inner : ScopeId} (h : inner ∈ table.enclosing scope) :
    table.enclosing inner ⊆ table.enclosing scope := by
  obtain ⟨passed, rest, hSplit⟩ := List.append_of_mem h
  rw [enclosing_of_append hSplit, hSplit]
  exact List.subset_append_right _ _

/-- The next scope on the way out is the one around. -/
theorem upper?_of_enclosing {around : List ScopeId} (hFall : table.UppersFall)
    (h : table.enclosing scope = scope :: around) : table.upper? scope = around.head? := by
  cases hUpper : table.upper? scope with
  | none =>
      rw [enclosing_of_outermost hUpper] at h
      simp [← (List.cons.inj h).2]
  | some upper =>
      rw [enclosing_of_upper hUpper (hFall _ _ hUpper)] at h
      rw [← (List.cons.inj h).2, enclosing]
      rfl

end Scoping.SymbolTable
