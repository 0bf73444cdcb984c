import Scoping.Analyze
import Scoping.Proofs.Revision.Tables
import Scoping.Proofs.Revision.Walks

/-! The analysis of a revised document is that of the document before, with the
revised nodes in it. -/

namespace Scoping.Revision

open SymbolTable

variable {keys : ChildKeys} {r : Revision keys} {table : SymbolTable} {settings : Settings}
  {scope : ScopeId} {id : ReferenceId} {kind : ScopeKind} {block : Node}

/-! Opening a scope. -/

theorem hasExpressionBody_node : hasExpressionBody (r.node block) = hasExpressionBody block := by
  unfold hasExpressionBody
  rw [kind_node, child_node (keeps block (by decide))]
  cases block.child "body" <;> rfl

/-- Directives are literals, which a revision keeps. -/
theorem strictByDirective_node :
    strictByDirective kind (r.node block) = strictByDirective kind block := by
  unfold strictByDirective
  rw [saysStrict_node, hasExpressionBody_node, kind_node, child?_node (keeps block (by decide))]
  cases block.child? "body" with
  | none => rfl
  | some body => simp only [Option.map_some, saysStrict_node]

theorem isStrict_table :
    (r.table table).scopes[scope]?.any Scope.strict = table.scopes[scope]?.any Scope.strict := by
  rw [getElem?_scopes, Option.any_map]
  rfl

/-- A scope is strict in the revised table just if it was before. -/
theorem opensStrict_table (inMethod : Bool) :
    (r.table table).opensStrict settings kind (r.node block) inMethod =
      table.opensStrict settings kind block inMethod := by
  have hUpper : (r.table table).stack.head?.any
      (fun upper => (r.table table).scopes[upper]?.any Scope.strict) =
      table.stack.head?.any fun upper => table.scopes[upper]?.any Scope.strict :=
    congrArg (Option.any · _) (funext fun _ => isStrict_table)
  unfold opensStrict
  rw [hUpper, strictByDirective_node]

/-- A scope that opens for a revised node is the revision of the scope for the node before.
-/
theorem freshScope_table (strict : Bool) :
    (r.table table).freshScope kind (r.node block) strict =
      r.scope (table.freshScope kind block strict) := by
  have hSize : (r.table table).scopes.size = table.scopes.size := Array.size_map
  have hAround : (r.table table).variableScope = table.variableScope :=
    funext fun _ => variableScope_table
  unfold freshScope
  rw [hSize, hAround, stack_table]
  rfl

theorem pushScope_table (fresh : Scope) :
    (r.table table).pushScope (r.scope fresh) = r.table (table.pushScope fresh) := by
  have hSize : (r.table table).scopes.size = table.scopes.size := Array.size_map
  unfold pushScope
  rw [hSize]
  simp only [Revision.table, Array.map_push]
  rfl

theorem addScope_table (strict : Bool) :
    (r.table table).addScope kind (r.node block) strict =
      ((table.addScope kind block strict).1, r.table (table.addScope kind block strict).2) := by
  have hSize : (r.table table).scopes.size = table.scopes.size := Array.size_map
  unfold addScope
  rw [hSize, stack_table, freshScope_table, pushScope_table]
  dsimp only
  cases table.stack.head? with
  | none => rfl
  | some upper => exact Prod.ext rfl (modifyScope_table rfl fun _ => rfl)

/-- The own name of a scope is read from its node, and fails to be read in the same way. -/
theorem declareOwn_table :
    (r.table table).declareOwn scope kind (r.node block) =
      (table.declareOwn scope kind block).map r.table := by
  unfold declareOwn
  rw [kind_node, declare_table, child_node (keeps block (by decide))]
  split
  · split <;> rfl
  · cases block.child "id" with
    | error failure => rfl
    | ok name => exact congrArg Except.ok (define_table name { kind := .functionName, name, node := block })
  · rfl

/-- A scope opens for a revised node as for the node before, in every part. -/
theorem enter_table (inMethod : Bool) :
    (r.table table).enter settings kind (r.node block) inMethod =
      (table.enter settings kind block inMethod).map r.table := by
  unfold enter
  rw [opensStrict_table]
  cases table.opensStrict settings kind block inMethod with
  | error failure => rfl
  | ok strict =>
      simp only [bind, Except.bind, addScope_table, declareOwn_table]
      cases (table.addScope kind block strict).2.declareOwn (table.addScope kind block strict).1 kind block with
      | error failure => rfl
      | ok next =>
          simp only [Except.map]
          split
          · rw [stack_table]
            split <;> rfl
          · rfl

/-! Definitions and uses. -/

theorem isFunctionBody_table (entry : Scope) :
    (r.table table).isFunctionBody (r.scope entry) = table.isFunctionBody entry := by
  have hUpper : ((r.scope entry).upper.bind fun upper => (r.table table).scopes[upper]?) =
      (entry.upper.bind fun upper => table.scopes[upper]?).map r.scope := by
    simp only [getElem?_scopes, Option.map_bind]
    rfl
  unfold isFunctionBody
  rw [hUpper, Option.any_map]
  refine congrArg (Option.any · _) (funext fun upper => ?_)
  exact congrArg _ (beq_child?_node (keeps upper.block (by decide)))

theorem bindsFunctions_table (entry : Scope) :
    (r.table table).bindsFunctions settings (r.scope entry) = table.bindsFunctions settings entry := by
  unfold bindsFunctions
  rw [isFunctionBody_table]
  rfl

/-- Where a definition goes depends on kinds of scopes and their numbers. -/
theorem destination_table (destination : Destination) :
    (r.table table).destination settings scope destination =
      table.destination settings scope destination := by
  have hBinds : (r.table table).scopes[scope]?.all ((r.table table).bindsFunctions settings) =
      table.scopes[scope]?.all (table.bindsFunctions settings) := by
    rw [getElem?_scopes]
    cases table.scopes[scope]? with
    | none => rfl
    | some entry => exact bindsFunctions_table entry
  unfold SymbolTable.destination
  rw [variableScope_table, hBinds]

/-- A use gets the same marks from the scope that it stands in. -/
theorem useIn_table (use : Use) :
    (r.table table).useIn scope (r.use use) = r.use (table.useIn scope use) := by
  unfold useIn
  rw [isStrict_table]
  split <;> rfl

/-! Closing a scope. -/

theorem name_reference :
    ((r.table table).references[id]?.map fun reference => reference.identifier.name) =
      table.references[id]?.map fun reference => reference.identifier.name := by
  rw [getElem?_references, Option.map_map]
  exact congrArg (Option.map · _) (funext fun _ => name_node)

/-- A reference means the same variable, as its name and the index of the scope are kept. -/
theorem resolution?_table :
    (r.table table).resolution? scope id = table.resolution? scope id := by
  have hName : ∀ reference, (r.reference reference).identifier.name = reference.identifier.name :=
    fun reference => name_node
  simp only [resolution?, bind, getElem?_references, getElem?_variables, getElem?_scopes, Option.bind_map,
    Function.comp_def, hName, lookup?_table, declaresTooLate_scope]
  rfl

theorem staysGlobal_table (name : String) :
    (r.table table).staysGlobal settings scope name = table.staysGlobal settings scope name := by
  unfold staysGlobal
  rw [lookup?_table]
  cases table.lookup? scope name with
  | none => rfl
  | some var =>
      simp only [Option.bind_some, getElem?_variables, Option.any_map, Function.comp_def,
        Revision.variable, isEmpty_map, Array.any_map]
      rfl

/-- A reference that is resolved is listed in the same places. -/
theorem resolve_table (var : VariableId) :
    (r.table table).resolve scope id var = r.table (table.resolve scope id var) := by
  unfold resolve
  rw [getElem?_references, getElem?_variables]
  cases table.references[id]? with
  | none => rfl
  | some reference =>
      cases table.variables[var]? with
      | none => rfl
      | some entry =>
          have hZone : (r.table table).isInDeadZone scope id (r.reference reference) (r.variable entry) =
              table.isInDeadZone scope id reference entry := by
            unfold isInDeadZone
            rw [hasDeadZone_variable, sameFunction_table]
            rfl
          dsimp only [Option.map_some]
          rw [hZone, sameFunction_table]
          exact modifyReference_table (modifyVariable_table rfl fun _ => rfl) fun _ => rfl

theorem delegate_table :
    (r.table table).delegate scope id = (table.delegate scope id).map r.table := by
  have hPassed : (r.table table).modifyScope scope
      (fun entry => { entry with through := entry.through.push id }) =
      r.table (table.modifyScope scope fun entry => { entry with through := entry.through.push id }) :=
    modifyScope_table rfl fun _ => rfl
  unfold delegate
  rw [hPassed, upper?_table]
  cases table.upper? scope with
  | none => rfl
  | some upper =>
      dsimp only
      rw [pending_table]
      cases table.scopes[upper]?.bind Scope.pending with
      | none => rfl
      | some waiting => exact congrArg Except.ok (modifyScope_table rfl fun _ => rfl)

theorem abandon_table : (r.table table).abandon scope id = r.table (table.abandon scope id) := by
  unfold abandon
  rw [enclosing_table]
  exact foldl_table fun _ _ => modifyScope_table rfl fun _ => rfl

theorem resolveOrDelegate_table :
    (r.table table).resolveOrDelegate scope id = (table.resolveOrDelegate scope id).map r.table := by
  unfold resolveOrDelegate
  rw [resolution?_table]
  cases table.resolution? scope id with
  | none => exact delegate_table
  | some var => exact congrArg Except.ok (resolve_table var)

/-- Each reference fares the same as the scope closes, or fails in the same way. -/
theorem closeReference_table (closing : Closing) :
    closeReference settings scope closing (r.table table) id =
      (closeReference settings scope closing table id).map r.table := by
  cases closing with
  | resolving => exact resolveOrDelegate_table
  | tainting =>
      have hTainted : (r.table table).modifyReference id
          (fun reference => { reference with tainted := true }) =
          r.table (table.modifyReference id fun reference => { reference with tainted := true }) :=
        modifyReference_table rfl fun _ => rfl
      exact (congrArg (delegate · scope id) hTainted).trans delegate_table
  | abandoning => exact congrArg Except.ok abandon_table
  | byName =>
      simp only [closeReference]
      rw [name_reference, staysGlobal_table]
      split
      · exact resolveOrDelegate_table
      · exact congrArg Except.ok abandon_table

/-- The assignments that make names global are those to the revised identifiers. -/
theorem implicitGlobals_table :
    (r.table table).implicitGlobals scope =
      (table.implicitGlobals scope).map fun (identifier, node) => (r.node identifier, r.node node) := by
  unfold implicitGlobals
  rw [pending_table, Array.map_filterMap]
  refine congrArg (Array.filterMap · _) (funext fun id => ?_)
  rw [getElem?_references]
  cases table.references[id]? with
  | none => rfl
  | some reference =>
      have hName : (r.reference reference).identifier.name = reference.identifier.name := name_node
      simp only [Option.map_some, bind, Option.bind_some, hName, lookup?_table]
      cases hGlobal : reference.implicitGlobal with
      | none => simp [Revision.reference, Revision.use, hGlobal]
      | some node =>
          simp only [Revision.reference, Revision.use, hGlobal, Option.map_some, Option.bind_some]
          split <;> rfl

theorem defineImplicit_table :
    (r.table table).defineImplicit scope = r.table (table.defineImplicit scope) := by
  unfold defineImplicit
  rw [implicitGlobals_table, Array.foldl_map, ← Array.foldl_toList, ← Array.foldl_toList]
  refine modifyScope_table (foldl_table fun table (identifier, node) => ?_) fun _ => rfl
  dsimp only
  rw [isIdentifier_node, name_node, declareImplicit_table]
  split
  · exact addDefinition_table _ identifier { kind := .implicitGlobal, name := identifier, node }
  · rfl

/-- A scope closes alike, whatever a revision has changed of the nodes. -/
theorem close_table :
    (r.table table).close settings scope = (table.close settings scope).map r.table := by
  unfold close
  rw [getElem?_scopes]
  cases table.scopes[scope]? with
  | none => rfl
  | some entry =>
      have hImplicit : (if (r.scope entry).kind = .global then (r.table table).defineImplicit scope
          else r.table table) =
          r.table (if entry.kind = .global then table.defineImplicit scope else table) := by
        rw [defineImplicit_table, ← apply_ite r.table]
        rfl
      have hClosed : ∀ table : SymbolTable, (r.table table).modifyScope scope
          (fun entry => { entry with pending := none }) =
          r.table (table.modifyScope scope fun entry => { entry with pending := none }) :=
        fun table => modifyScope_table rfl fun _ => rfl
      dsimp only [Option.map_some]
      rw [hImplicit, hClosed, ← Array.foldlM_toList, ← Array.foldlM_toList]
      exact foldlM_table fun _ _ => closeReference_table _

theorem leave_table :
    (r.table table).leave settings =
      (table.leave settings).map fun (scope, table) => (scope, r.table table) := by
  unfold leave
  rw [stack_table]
  cases table.stack with
  | nil => rfl
  | cons scope stack =>
      have hClose : { r.table table with stack }.close settings scope =
          ({ table with stack }.close settings scope).map r.table :=
        (close_table : (r.table { table with stack }).close settings scope = _)
      dsimp only
      rw [hClose]
      cases { table with stack }.close settings scope with
      | error failure => rfl
      | ok next =>
          simp only [Except.map, bind, Except.bind, upper?_table]
          split <;> rfl

/-- The scopes of a node are found again by its place. -/
theorem leaveAll_table (node : Node) :
    (r.table table).leaveAll settings (r.node node) =
      (table.leaveAll settings node).map r.table := by
  have hBelongs : (fun scope : ScopeId => (r.table table).scopes[scope]?.any
      fun entry : Scope => entry.block == r.node node) =
      fun scope : ScopeId => table.scopes[scope]?.any fun entry : Scope => entry.block == node := by
    funext scope
    rw [getElem?_scopes, Option.any_map]
    rfl
  unfold leaveAll
  rw [hBelongs, stack_table]
  refine foldlM_table fun table scope => ?_
  rw [leave_table]
  cases table.leave settings <;> rfl

/-- A change that depends on the current scope. -/
theorem onCurrent_table {before after : ScopeId → SymbolTable}
    (h : ∀ scope, after scope = r.table (before scope)) :
    (do return after (← (r.table table).current) : Except Failure SymbolTable) =
      Except.map r.table (do return before (← table.current)) := by
  rw [current_table]
  cases table.current with
  | error failure => rfl
  | ok scope => exact congrArg Except.ok (h scope)

/-- What an event does to a table, it does to the revised one. -/
theorem apply_table (event : Event) :
    (r.table table).apply settings (r.event event) = (table.apply settings event).map r.table := by
  cases event with
  | enter kind block inMethod => exact enter_table inMethod
  | leave block => exact leaveAll_table block
  | setStrict strict => exact onCurrent_table fun _ => setStrict_table strict
  | define destination identifier definition =>
      refine onCurrent_table fun scope => ?_
      rw [destination_table, define_table]
  | use use =>
      simp only [SymbolTable.apply, Revision.event, useIn_table, record_table, current_table]
      cases table.current <;> rfl
  | directEval =>
      refine onCurrent_table fun scope => ?_
      rw [variableScope_table, detectEval_table]
  | thisExpression =>
      refine onCurrent_table fun scope => ?_
      rw [variableScope_table, detectThis_table]
  | bodyStart => exact onCurrent_table fun _ => markBodyStart_table
  | endDeclaration node => exact congrArg Except.ok (endDeclaration_table node)
  | fail failure => rfl

/-- Events that are revised one by one do to the revised table what they did before. -/
theorem run_table (events : List Event) :
    (r.table table).run settings (events.map r.event) = (table.run settings events).map r.table := by
  unfold run
  rw [List.foldlM_map]
  exact foldlM_table fun _ => apply_table

end Scoping.Revision

namespace Scoping

variable {settings : Settings}

/-- The analysis does not depend on what a revision changes. -/
theorem Revision.analyze_tree {r : Revision settings.keys} {tree : Tree} (hTyped : tree.root.IsTyped)
    (hKeeps : r.KeepsAll tree.root) (hImports : r.KeepsImports tree.root) :
    analyze settings (r.tree tree) = (analyze settings tree).map r.table := by
  have hEmpty : r.table {} = {} := by simp [Revision.table]
  have hRun : ({} : SymbolTable).run settings (programEvents settings (r.node tree.root)) =
      (({} : SymbolTable).run settings (programEvents settings tree.root)).map r.table := by
    rw [Revision.programEvents_node hTyped hKeeps hImports, ← Revision.run_table, hEmpty]
  unfold analyze
  rw [Revision.tree, hRun]
  cases ({} : SymbolTable).run settings (programEvents settings tree.root) with
  | error failure => rfl
  | ok table =>
      simp only [Except.map, bind, Except.bind, Revision.stack_table]
      split <;> simp_all [pure, Except.pure, throw, throwThe, MonadExceptOf.throw]

end Scoping
