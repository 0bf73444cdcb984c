import Scoping.Proofs.Table.Building
import Scoping.SymbolTable.Query

/-! The list of all scopes and the index of the scopes of a node are written as
scopes open, and read later. They say what the scopes themselves say. -/

namespace Scoping.SymbolTable

/-- Every scope is once in the list of all scopes and once among the scopes of
its node, both in order of opening, and it is marked if it is there for a name. -/
structure Registered (table : SymbolTable) : Prop where
  opened : table.opened.toList = List.range table.scopes.size
  openedBy : ∀ location, ((table.openedBy.lookup location).getD #[]).toList =
    (List.range table.scopes.size).filter fun scope =>
      table.scopes[scope]?.any fun entry => entry.block.location = location
  ofFunctionName : ∀ (scope : ScopeId) (entry : Scope), table.scopes[scope]? = some entry →
    (entry.ofFunctionName = true ↔ entry.kind = .functionName)

/-- Two tables with the same scopes, and with the same notes of them. -/
structure SameRegistry (table next : SymbolTable) : Prop where
  opened : next.opened = table.opened
  openedBy : next.openedBy = table.openedBy
  origins : next.scopes.map Scope.origin = table.scopes.map Scope.origin

variable {settings : Settings} {table middle next : SymbolTable} {scope outer : ScopeId}
  {add : VariableId → Scope → Scope} {name : String} {node : Node}

theorem SameRegistry.refl (table : SymbolTable) : SameRegistry table table :=
  ⟨rfl, rfl, rfl⟩

theorem SameRegistry.trans (hFirst : SameRegistry table middle)
    (hSecond : SameRegistry middle next) : SameRegistry table next :=
  ⟨hSecond.opened.trans hFirst.opened, hSecond.openedBy.trans hFirst.openedBy,
    hSecond.origins.trans hFirst.origins⟩

/-- If scopes and names stay, so do the notes that were made of the scopes. -/
theorem Stays.sameRegistry (h : Stays table next) : SameRegistry table next := by
  refine ⟨h.opened, h.openedBy, Array.ext_getElem? fun position => ?_⟩
  have hOrigin := congrArg (Option.map Prod.fst) (h.scopes position)
  rw [Option.map_map, Option.map_map] at hOrigin
  rw [Array.getElem?_map, Array.getElem?_map]
  exact hOrigin

/-- A name that is declared is noted in its scope, not in the list of scopes. -/
theorem sameRegistry_declareBy (hAdd : ∀ var entry, (add var entry).origin = entry.origin)
    (found : Option VariableId) (scope : ScopeId) (name : String) :
    SameRegistry table (table.declareBy found add scope name).2 := by
  cases found with
  | some var => exact .refl table
  | none =>
      refine ⟨rfl, rfl, Array.ext_getElem? fun position => ?_⟩
      have hScopes : (table.addVariable scope name).2.scopes = table.scopes := rfl
      rw [Array.getElem?_map, Array.getElem?_map, declareBy, getElem?_modifyScope, hScopes]
      split
      · rw [Option.map_map]
        exact Option.map_congr fun entry _ => hAdd _ entry
      · rfl

theorem sameRegistry_declare (table : SymbolTable) (scope : ScopeId) (name : String) :
    SameRegistry table (table.declare scope name).2 := by
  rw [declare_eq_declareBy]
  refine sameRegistry_declareBy ?_ _ scope name
  exact fun _ _ => rfl

theorem sameRegistry_declareImplicit (table : SymbolTable) (scope : ScopeId) (name : String) :
    SameRegistry table (table.declareImplicit scope name).2 := by
  rw [declareImplicit_eq_declareBy]
  refine sameRegistry_declareBy ?_ _ scope name
  exact fun _ _ => rfl

theorem sameRegistry_addDefinition (table : SymbolTable) (var : VariableId) (identifier : Node)
    (definition : Definition) : SameRegistry table (table.addDefinition var identifier definition) :=
  ⟨rfl, rfl, rfl⟩

theorem sameRegistry_define (table : SymbolTable) (scope : ScopeId) (identifier : Node)
    (definition : Definition) : SameRegistry table (table.define scope identifier definition) := by
  unfold define
  split
  · exact (sameRegistry_declare table scope identifier.name).trans
      (sameRegistry_addDefinition _ _ _ _)
  · exact .refl table

theorem SameRegistry.getElem?_map_origin (h : SameRegistry table next) (position : ScopeId) :
    next.scopes[position]?.map Scope.origin = table.scopes[position]?.map Scope.origin := by
  rw [← Array.getElem?_map, ← Array.getElem?_map, h.origins]

theorem SameRegistry.size (h : SameRegistry table next) : next.scopes.size = table.scopes.size := by
  simpa using congrArg Array.size h.origins

/-- The notes are right as long as neither they nor the origins of the scopes change. -/
theorem Registered.of_same (h : table.Registered) (hSame : SameRegistry table next) :
    next.Registered where
  opened := by rw [hSame.opened, hSame.size, h.opened]
  openedBy := fun location => by
    rw [hSame.openedBy, hSame.size, h.openedBy]
    refine List.filter_congr fun position _ => ?_
    have hOrigin := congrArg (Option.any fun origin => origin.2.1.location = location)
      (hSame.getElem?_map_origin position)
    rw [Option.any_map, Option.any_map] at hOrigin
    exact hOrigin.symm
  ofFunctionName := fun position after hAfter => by
    have hOrigin := hSame.getElem?_map_origin position
    rw [hAfter, Option.map_some, eq_comm, Option.map_eq_some_iff] at hOrigin
    obtain ⟨before, hBefore, hEq⟩ := hOrigin
    simp only [Scope.origin, Prod.mk.injEq] at hEq
    rw [← hEq.1, ← hEq.2.2]
    exact h.ofFunctionName position before hBefore

/-- A scope that opens is noted last, in the list and with its node. -/
theorem Registered.pushScope (h : table.Registered) {fresh : Scope} (hFresh : fresh.IsFresh) :
    (table.pushScope fresh).Registered where
  opened := by
    have hOpened : (table.pushScope fresh).opened.toList =
        table.opened.toList ++ [table.scopes.size] := Array.toList_push
    rw [hOpened, h.opened, size_pushScope, List.range_succ]
  openedBy := fun location => by
    have hOld : (List.range table.scopes.size).filter (fun scope =>
          (table.pushScope fresh).scopes[scope]?.any fun entry => entry.block.location = location) =
        ((table.openedBy.lookup location).getD #[]).toList := by
      rw [h.openedBy]
      refine List.filter_congr fun position hPosition => ?_
      rw [getElem?_pushScope, if_neg (Nat.ne_of_lt (List.mem_range.1 hPosition))]
    have hNew : (table.pushScope fresh).scopes[table.scopes.size]? = some fresh := by
      rw [getElem?_pushScope, if_pos rfl]
    rw [size_pushScope, List.range_succ, List.filter_append, hOld, List.filter_singleton, hNew]
    show ((List.lookup location (changeAt _ _ _)).getD #[]).toList = _
    rw [lookup_changeAt]
    by_cases hHere : location = fresh.block.location
    · rw [if_pos hHere, hHere]
      simp
    · rw [if_neg hHere]
      simp [Ne.symm hHere]
  ofFunctionName := fun position entry hEntry => by
    rcases cases_of_pushScope hEntry with ⟨-, rfl⟩ | hBefore
    · exact hFresh.ofFunctionName
    · exact h.ofFunctionName position entry hBefore

/-- No scope, and nothing noted. -/
theorem registered_empty : Registered {} where
  opened := rfl
  openedBy := fun _ => rfl
  ofFunctionName := fun _ _ h => by simp at h

/-- Whatever happens to the names of a table, its scopes stay registered. -/
theorem Builds.registered (h : Builds table next) (hTable : table.Registered) :
    next.Registered := by
  induction h with
  | stay hStays => exact hTable.of_same hStays.sameRegistry
  | «open» hFresh => exact hTable.pushScope hFresh
  | openFunction hFresh _ hStays =>
      exact (hTable.pushScope hFresh).of_same
        (hStays.sameRegistry.trans (sameRegistry_declare _ _ _))
  | define => exact hTable.of_same (sameRegistry_define _ _ _ _)
  | defineImplicit =>
      exact hTable.of_same
        ((sameRegistry_declareImplicit _ _ _).trans (sameRegistry_addDefinition _ _ _ _))
  | trans _ _ ihFirst ihSecond => exact ihSecond (ihFirst hTable)

/-- After any run from the empty table the notes are right. -/
theorem registered_of_run {events : List Event}
    (hOk : ({} : SymbolTable).run settings events = .ok table) : table.Registered :=
  (builds_run hOk).registered registered_empty

/-- The scopes of a node are those that have it as their block. -/
theorem Registered.scopesOf_eq (h : table.Registered) (node : Node) :
    table.scopesOf node = (List.range table.scopes.size).filter fun scope =>
      table.scopes[scope]?.any fun entry => entry.block == node := by
  refine (h.openedBy node.location).trans (List.filter_congr fun scope _ => ?_)
  congr 1
  funext entry
  exact (beq_eq_decide _ _).symm

/-- A scope that is there only for the name of a function is not of the kind of
functions, so that every scope of a node is asked for. -/
theorem Registered.isAsked (h : table.Registered) (hScope : scope ∈ table.scopesOf node) :
    table.isAsked scope = true := by
  rw [h.scopesOf_eq, List.mem_filter, Option.any_eq_true] at hScope
  obtain ⟨-, entry, hEntry, -⟩ := hScope
  rw [SymbolTable.isAsked, hEntry, Option.any_some, Bool.not_eq_true']
  by_contra hBoth
  rw [Bool.not_eq_false, Bool.and_eq_true, decide_eq_true_iff] at hBoth
  obtain ⟨hFunction, hOwn⟩ := hBoth
  have hName := (h.ofFunctionName scope entry hEntry).1 hOwn
  exact absurd (hFunction.symm.trans hName) (by decide)

/-- To search a list for what every item satisfies is to take the first of them. -/
theorem find?_eq_head? {α : Type} {keep : α → Bool} {items : List α}
    (h : ∀ item ∈ items, keep item = true) : items.find? keep = items.head? := by
  cases items with
  | nil => rfl
  | cons item items => rw [List.find?_cons, h item List.mem_cons_self, List.head?_cons]

/-- Neither the number of the scopes of a node nor what they are there for makes a
difference: the outermost of them is found, or the innermost. -/
theorem Registered.acquire_eq (h : table.Registered) (node : Node) (inner : Bool) :
    table.acquire node inner =
      if inner then (table.scopesOf node).getLast? else (table.scopesOf node).head? := by
  have hAll : ∀ scope ∈ (if inner then (table.scopesOf node).reverse else table.scopesOf node),
      table.isAsked scope = true := fun scope hScope => by
    refine h.isAsked (?_ : scope ∈ table.scopesOf node)
    split at hScope
    · exact List.mem_reverse.1 hScope
    · exact hScope
  unfold acquire
  split
  · next scope hSingle => cases inner <;> rw [hSingle] <;> rfl
  · rw [find?_eq_head? hAll]
    split
    · exact List.head?_reverse
    · rfl

/-- Asked for the outermost scope of a node, a table gives the one that has opened first. -/
theorem Registered.acquire_outer (h : table.Registered) (node : Node) :
    table.acquire node false = (table.scopesOf node).head? :=
  h.acquire_eq node false

/-- Asked for the innermost scope of a node, a table gives the one that has opened last. -/
theorem Registered.acquire_inner (h : table.Registered) (node : Node) :
    table.acquire node true = (table.scopesOf node).getLast? :=
  h.acquire_eq node true

/-- The index has a scope under a node just if the scope is of the node. -/
theorem Registered.mem_scopesOf (h : table.Registered) :
    scope ∈ table.scopesOf node ↔
      ∃ entry, table.scopes[scope]? = some entry ∧ entry.block.location = node.location := by
  rw [h.scopesOf_eq, List.mem_filter, List.mem_range, Option.any_eq_true]
  simp only [Node.beq_iff]
  exact and_iff_right_of_imp fun ⟨_, hEntry, _⟩ => lt_of_getElem?_scopes hEntry

/-- The scopes of a node are listed in the order in which they have opened. -/
theorem Registered.pairwise_scopesOf (h : table.Registered) (node : Node) :
    (table.scopesOf node).Pairwise (· < ·) := by
  rw [h.scopesOf_eq]
  exact List.pairwise_lt_range.filter _

/-- The outermost scope of a node is the one that has opened first. -/
theorem Registered.le_of_acquire_outer (h : table.Registered)
    (hOuter : table.acquire node false = some outer) (hInner : scope ∈ table.scopesOf node) :
    outer ≤ scope := by
  obtain ⟨rest, hCons⟩ := List.head?_eq_some_iff.1 ((h.acquire_outer node).symm.trans hOuter)
  have hOrder := h.pairwise_scopesOf node
  rw [hCons] at hOrder hInner
  rcases List.mem_cons.1 hInner with rfl | hRest
  · exact Nat.le_refl _
  · exact Nat.le_of_lt ((List.pairwise_cons.1 hOrder).1 scope hRest)

/-- The innermost scope of a node is the one that has opened last. -/
theorem Registered.acquire_inner_eq_some_iff (h : table.Registered) :
    table.acquire node true = some scope ↔
      scope ∈ table.scopesOf node ∧ ∀ other ∈ table.scopesOf node, other ≤ scope := by
  have hOrder := h.pairwise_scopesOf node
  rw [h.acquire_inner]
  constructor
  · intro hLast
    obtain ⟨rest, hEq⟩ := List.getLast?_eq_some_iff.1 hLast
    rw [hEq] at hOrder ⊢
    refine ⟨List.mem_append_right _ List.mem_cons_self, fun other hOther => ?_⟩
    rcases List.mem_append.1 hOther with hRest | hSame
    · exact Nat.le_of_lt ((List.pairwise_append.1 hOrder).2.2 other hRest scope List.mem_cons_self)
    · exact Nat.le_of_eq (List.mem_singleton.1 hSame)
  · rintro ⟨hMem, hLast⟩
    obtain ⟨last, hSome⟩ := Option.ne_none_iff_exists'.1
      (mt List.getLast?_eq_none_iff.1 (List.ne_nil_of_mem hMem))
    obtain ⟨rest, hEq⟩ := List.getLast?_eq_some_iff.1 hSome
    rw [hSome]
    rw [hEq] at hMem hLast hOrder
    rcases List.mem_append.1 hMem with hRest | hSame
    · have hLt := (List.pairwise_append.1 hOrder).2.2 scope hRest last List.mem_cons_self
      exact absurd (hLast last (List.mem_append_right _ List.mem_cons_self)) (Nat.not_le.2 hLt)
    · rw [List.mem_singleton.1 hSame]

end Scoping.SymbolTable
