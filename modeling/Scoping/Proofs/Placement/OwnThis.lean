import Scoping.Proofs.Options.Bands
import Scoping.Proofs.Placement.Remarks
import Scoping.Proofs.Resolution.Isolation
import Scoping.Proofs.Walk.Holders
import Scoping.Tree.Nodes

/-! The functions that need a `this`. A use of `this` is one of the function, static block or
field that is nearest around it. -/

namespace Scoping

variable {settings : Settings} {root node inner other first : Node} {past future : List Event}
  {inMethod : Bool} {place lower : Location} {position : ScopeId}

namespace Node.Rebinds

theorem below (h : node.Rebinds place) : node.location <:+ place ∧ node.location ≠ place := by
  rcases h with ⟨-, hBelow, hNe⟩ | ⟨-, hBelow⟩
  · exact ⟨hBelow, hNe⟩
  · refine ⟨(List.suffix_cons _ _).trans hBelow, fun hEq => ?_⟩
    have hLength := hBelow.length_le
    rw [← hEq, List.length_cons] at hLength
    omega

theorem mono (h : node.Rebinds place) (hBelow : place <:+ lower) : node.Rebinds lower := by
  rcases h with ⟨hKind, hHere, hNe⟩ | ⟨hKind, hHere⟩
  · exact .inl ⟨hKind, hHere.trans hBelow, fun hEq =>
      hNe (hHere.eq_of_length_le (hEq ▸ hBelow.length_le))⟩
  · exact .inr ⟨hKind, hHere.trans hBelow⟩

/-- Between a node and a place that finds a scope of it, each other place does so too. -/
theorem of_between (h : node.Rebinds lower) (hHere : node.location <:+ place)
    (hNe : node.location ≠ place) (hBelow : place <:+ lower) : node.Rebinds place := by
  rcases h with ⟨hKind, -⟩ | ⟨hKind, hField⟩
  · exact .inl ⟨hKind, hHere, hNe⟩
  · refine .inr ⟨hKind, List.suffix_of_suffix_length_le hField hBelow ?_⟩
    exact Nat.lt_of_le_of_ne hHere.length_le fun hEq => hNe (hHere.eq_of_length hEq)

end Node.Rebinds

/-- The walk goes from a node to another, which finds no scope of the node. -/
def Keeps (settings : Settings) (root node inner : Node) : Prop :=
  Goes settings root node inner ∧ ¬ node.Rebinds inner.location

theorem leads_of_keeps (h : Relation.ReflTransGen (Keeps settings root) node inner) :
    Leads settings root node inner :=
  Relation.ReflTransGen.mono (fun _ _ hStep => hStep.1) _ _ h

/-- On a way on which no node has opened a scope for variables, no visited node around the end
of the way has, but for those around its beginning. -/
theorem not_rebinds_of_keeps (hFirst : Leads settings root root first)
    (hKeeps : Relation.ReflTransGen (Keeps settings root) first node)
    (hOther : Leads settings root root other) (hBelow : first.location <:+ other.location) :
    ¬ other.Rebinds node.location := by
  induction hKeeps with
  | refl =>
      intro hRebinds
      obtain ⟨hHere, hNe⟩ := hRebinds.below
      exact hNe (hHere.eq_of_length_le hBelow.length_le)
  | @tail node next hRest hStep ih =>
      obtain ⟨hGoes, hNot⟩ := hStep
      intro hRebinds
      obtain ⟨hHere, hNe⟩ := hRebinds.below
      by_cases hAround : other.location <:+ node.location ∧ other.location ≠ node.location
      · exact ih (hRebinds.of_between hAround.1 hAround.2 hGoes.contains.below)
      · have hInside : node.location <:+ other.location := by
          rcases List.suffix_or_suffix_of_suffix hHere hGoes.contains.below with hAbove | hInside
          · by_cases hSame : other.location = node.location
            · exact hSame ▸ List.suffix_refl _
            · exact absurd ⟨hAbove, hSame⟩ hAround
          · exact hInside
        have hWay := (hFirst.trans (leads_of_keeps hRest)).through hOther hInside
        rcases Relation.ReflTransGen.cases_head hWay with rfl | ⟨found, hFound, hRest⟩
        · exact hNot hRebinds
        · have hOuter : found.location <:+ other.location := Leads.below hRest
          rcases hGoes.eq_or_apart hFound with rfl | hApart
          · exact hNe (hHere.eq_of_length_le hOuter.length_le)
          · exact hApart.2 (hOuter.trans hHere)

/-- The scope for variables at a node, and at what it visits first, is this one: the program
has opened it before all visits, or a node around it has. -/
inductive Houses (settings : Settings) (root : Node) (position : ScopeId) (first : Node) : Prop where
  | program (goes : Goes settings root root first)
      (holder : (Trail.after settings (programOpenings settings root)).holder? = some position)
  | inside (outer : Node) (begun rest : List Event) (inMethod : Bool) (head behind : List Task)
      (kind : ScopeKind) (block : Node) (told : Bool)
      (visit : Arrives settings root begun (.visit inMethod outer) rest)
      (goes : Goes settings root outer first) (rebinds : outer.Rebinds first.location)
      (split : Walker.tasks { settings, inMethod } outer =
        head ++ .emit (.enter kind block told) :: behind)
      (function : kind = .function → block = outer)
      (number : (begun ++ head.flatMap (Task.events settings)).countP Event.opens = position)

theorem Houses.leads (h : Houses settings root position first) : Leads settings root root first := by
  cases h with
  | program goes => exact .single goes
  | inside outer _ _ _ _ _ _ _ _ visit goes => exact .tail visit.leads goes

/-- As the walk of a program comes to its first visits, the program has just opened its
scopes. -/
theorem after_of_program {before after : List Task}
    (h : Walker.program { settings } root = before ++ .visit inMethod node :: after) :
    Trail.after settings (before.flatMap (Task.events settings)) =
      Trail.after settings (programOpenings settings root) := by
  rw [program_eq_openings] at h
  obtain ⟨ahead, behind, rfl, hDescend⟩ := exists_of_append_eq h (by simp) (by simp)
  have hAhead : Walker.Neutral root ahead := fun task hTask =>
    Walker.neutral_descend task (hDescend ▸ List.mem_append_left _ hTask)
  rw [List.flatMap_append, flatMap_events_emit]
  exact Trail.after_append_of_neutral hAhead (owned_openings settings root).clear

theorem Goes.of_split {before after : List Task} {flag : Bool} (hContains : root.Contains node)
    (h : Walker.tasks { settings, inMethod } node = before ++ .visit flag inner :: after) :
    Goes settings root node inner := by
  refine .inside hContains ?_
  rw [← Walker.visits_tasks { settings, inMethod }]
  exact Task.mem_visits.2 ⟨flag, h ▸ List.mem_append_right _ List.mem_cons_self⟩

theorem Goes.of_program {before after : List Task} {flag : Bool}
    (h : Walker.program { settings } root = before ++ .visit flag inner :: after) :
    Goes settings root root inner := by
  refine .program ?_
  rw [← Walker.visits_program { settings }]
  exact Task.mem_visits.2 ⟨flag, h ▸ List.mem_append_right _ List.mem_cons_self⟩

theorem Goes.exists_split_of_program (h : Goes settings root root inner) :
    ∃ before flag after, Walker.program { settings } root = before ++ .visit flag inner :: after := by
  cases h with
  | program mem =>
      rw [← Walker.visits_program { settings }] at mem
      obtain ⟨flag, hTask⟩ := Task.mem_visits.1 mem
      obtain ⟨before, after, hSplit⟩ := List.append_of_mem hTask
      exact ⟨before, flag, after, hSplit⟩
  | inside contains => exact absurd (List.suffix_refl _) contains.not_below

/-- The walk comes to each node with a scope for variables that has been opened on the way to
it, and no other has after that. -/
theorem Arrives.exists_house (hRole : ∀ node, Visits settings root node → Role.ofKind node.kind ≠ .program)
    {base : ScopeId} (hBase : (Trail.after settings (programOpenings settings root)).holder? = some base)
    (h : Arrives settings root past (.visit inMethod node) future) :
    ∃ position first, (Trail.after settings past).holder? = some position ∧
      Houses settings root position first ∧ Relation.ReflTransGen (Keeps settings root) first node := by
  generalize hTask : Task.visit inMethod node = task at h
  induction h generalizing inMethod node with
  | program split =>
      subst hTask
      exact ⟨base, node, after_of_program split ▸ hBase, .program (.of_program split) hBase, .refl⟩
  | @inside past future flag outer before after task visit split ih =>
      subst hTask
      obtain ⟨position, first, hHolder, hHouses, hKeeps⟩ := ih rfl
      have hGoes := Goes.of_split visit.contains split
      rcases visit.holder_cases (hRole _ ⟨_, _, _, visit⟩) hHolder split with
        ⟨hNot, hSame⟩ | ⟨hRebinds, head, kind, block, told, behind, hSplit, -, hFunction, hOpened⟩
      · exact ⟨position, first, hSame, hHouses, .tail hKeeps ⟨hGoes, hNot⟩⟩
      · exact ⟨_, node, hOpened, .inside outer past future flag head behind kind block told visit hGoes
          hRebinds hSplit hFunction rfl, .refl⟩

/-- From a node on the walk takes the scope for variables along, as long as no visited node
has opened another. -/
theorem Arrives.exists_of_leads
    (hRole : ∀ node, Visits settings root node → Role.ofKind node.kind ≠ .program)
    (hLeads : Leads settings root node inner)
    (h : Arrives settings root past (.visit inMethod node) future)
    (hHolder : (Trail.after settings past).holder? = some position)
    (hFree : ∀ other, Visits settings root other → node.location <:+ other.location →
      ¬ other.Rebinds inner.location) :
    ∃ past inMethod future, Arrives settings root past (.visit inMethod inner) future ∧
      (Trail.after settings past).holder? = some position := by
  induction hLeads using Relation.ReflTransGen.head_induction_on generalizing past inMethod future with
  | refl => exact ⟨past, inMethod, future, h, hHolder⟩
  | @head node next hNext hRest ih =>
      obtain ⟨before, flag, after, hSplit⟩ := hNext.exists_split h.contains inMethod
      have hBelow : next.location <:+ inner.location := Leads.below hRest
      rcases h.holder_cases (hRole _ ⟨_, _, _, h⟩) hHolder hSplit with ⟨-, hSame⟩ | ⟨hRebinds, -⟩
      · exact ih (h.inside hSplit) hSame fun other hOther hInside =>
          hFree other hOther (hNext.contains.below.trans hInside)
      · exact absurd (hRebinds.mono hBelow) (hFree node ⟨_, _, _, h⟩ (List.suffix_refl _))

/-- What is visited at a node on the way to a place is around all that is visited on that
way. -/
theorem Goes.below_of_leads (h : Goes settings root node first) (hOther : Leads settings root node other)
    (hNe : other.location ≠ node.location) (hFirst : first.location <:+ place)
    (hPlace : other.location <:+ place) : first.location <:+ other.location := by
  rcases Relation.ReflTransGen.cases_head hOther with rfl | ⟨found, hFound, hRest⟩
  · exact absurd rfl hNe
  · have hRest : found.location <:+ other.location := Leads.below hRest
    rcases h.eq_or_apart hFound with rfl | hApart
    · exact hRest
    · exact absurd (hRest.trans hPlace) (hApart.not_below hFirst)

theorem Goes.inFields_of_function (h : Goes settings root node inner) (hContains : root.Contains node)
    (hRole : Role.ofKind node.kind = .function) :
    node.location.InFields ["params", "body"] inner.location := by
  cases h with
  | program => exact absurd (List.suffix_refl _) hContains.not_below
  | inside _ mem => exact Walker.inFields_of_mem_function hRole mem

/-- A visited use of `this` that is one of a function: it stands in the parameters or the body
of the function, with no other visited function, static block or field value in between. An
arrow function in between counts as any other. -/
structure IsThisOf (settings : Settings) (root block node : Node) : Prop where
  visited : Visits settings root node
  kind : node.kind = "ThisExpression"
  /-- A program that is a function has no parameters, and all of it is its body. -/
  inside : block = root ∨ block.location.InFields ["params", "body"] node.location
  nearest : ∀ other, Visits settings root other → block.location <:+ other.location →
    other.location ≠ block.location → ¬ other.Rebinds node.location

namespace SymbolTable

variable {table : SymbolTable} {tree : Tree} {scope : Scope} {options : Options}

theorem role_ne_program (hOk : analyze settings tree = .ok table) (h : Visits settings tree.root node) :
    Role.ofKind node.kind ≠ .program := by
  obtain ⟨past, inMethod, future, hArrives⟩ := h
  exact fun hRole => enterGlobal_not_mem_visit hOk hArrives node false (enterGlobal_mem_events hRole)

/-- A scope uses `this` if the walk visits such a use where a `var` would go to the scope. -/
theorem usesThis_iff (hOk : analyze settings tree = .ok table)
    (hScope : table.scopes[position]? = some scope) :
    scope.usesThis = true ↔ ∃ past inMethod node future,
      Arrives settings tree.root past (.visit inMethod node) future ∧ node.kind = "ThisExpression" ∧
        (Trail.after settings past).holder? = some position := by
  rw [(chronicle_of_analyze_eq_ok hOk).flags.usesThis position scope hScope,
    exists_holdsAt_iff (show Event.IsRemark .thisExpression from trivial)]
  simp only [Walker.mem_this_iff]

/-- The innermost scope of a program holds the variables at its first visits. -/
theorem exists_base (hOk : analyze settings tree = .ok table) :
    ∃ base : Nat, (Trail.after settings (programOpenings settings tree.root)).holder? = some base ∧
      base + 1 = (programOpenings settings tree.root).countP Event.opens := by
  obtain ⟨opened, hOpened⟩ := exists_run_openings hOk
  obtain ⟨asks, asksFunction, -, -, hTrail⟩ := exists_programTrail_of_run hOpened
  rw [hTrail, countP_programOpenings]
  unfold programTrail
  cases settings.globalReturn <;> cases settings.hasBlockScopes && settings.isModule <;>
    exact ⟨_, rfl, rfl⟩

/-- If a program is a function, nothing else holds its variables. -/
theorem function_of_program {position : Nat} (hOptions : Settings.ofOptions? options = .ok settings)
    (hOk : analyze settings tree = .ok table) (hScope : table.scopes[position]? = some scope)
    (hKind : scope.kind = .function)
    (hLt : position < (programOpenings settings tree.root).countP Event.opens) :
    position + 1 = (programOpenings settings tree.root).countP Event.opens := by
  obtain ⟨asks, asksFunction, -, -, hFrames⟩ := exists_programTrail hOk
  have hPosition := hLt
  rw [← List.mem_range, ← List.mem_reverse, ← map_scope_programTrail settings _ asks asksFunction]
    at hPosition
  obtain ⟨frame, hFrame, rfl⟩ := List.mem_map.1 hPosition
  obtain ⟨same, hSame, hDescribes⟩ := hFrames frame hFrame
  cases hSame.symm.trans hScope
  have hFunction : frame.kind = .function := hDescribes.kind.symm.trans hKind
  simp only [programTrail, List.mem_append, List.mem_ite_nil_right, List.mem_singleton] at hFrame
  rcases hFrame with (⟨-, rfl⟩ | ⟨hReturn, rfl⟩) | rfl
  · cases hFunction
  · have hBody : settings.HasBody := by
      obtain ⟨edition, -, -, rfl⟩ := Settings.exists_of_ofOptions?_eq_ok hOptions
      refine Settings.hasBody_of_ofOptions? hOptions ?_
      rw [Settings.globalReturn, Bool.or_eq_true, decide_eq_true_iff] at hReturn
      exact hReturn.imp_right .inl
    rw [hBody.countP_openings]
  · cases hFunction

/-- The scope of a function keeps a use of `this` that the walk comes to while a `var` goes
to the scope. -/
theorem isThisOf_of_arrives (hOk : analyze settings tree = .ok table)
    (hScope : table.scopes[position]? = some scope) (hKind : scope.kind = .function)
    (hArrives : Arrives settings tree.root past (.visit inMethod node) future)
    (hNode : node.kind = "ThisExpression") (hHolder : (Trail.after settings past).holder? = some position) :
    IsThisOf settings tree.root scope.block node := by
  obtain ⟨base, hBase, hCount⟩ := exists_base hOk
  obtain ⟨found, first, hFound, hHouses, hKeeps⟩ :=
    hArrives.exists_house (fun _ => role_ne_program hOk) hBase
  obtain rfl : found = position := Option.some.inj (hFound.symm.trans hHolder)
  have hVisited : Visits settings tree.root node := ⟨_, _, _, hArrives⟩
  have hFirst := hHouses.leads
  have hBelow : first.location <:+ node.location := (leads_of_keeps hKeeps).below
  -- The nearest house of the scope is the program, or a function around the node.
  cases hHouses with
  | program hGoes hSame =>
      obtain rfl : base = found := Option.some.inj (hBase.symm.trans hSame)
      have hRoot : scope.block = tree.root := by
        rcases exists_opening_cases hOk hScope with
          ⟨-, hRoot⟩ | ⟨begun, flag, outer, rest, before, after, told, hVisit, hTasks, hPosition⟩
        · exact hRoot
        · have hLe := countP_programOpenings_le hVisit
          rw [List.countP_append] at hPosition
          omega
      refine ⟨hVisited, hNode, .inl hRoot, fun other hOther hHere hNe hRebinds => ?_⟩
      rw [hRoot] at hHere hNe
      exact not_rebinds_of_keeps hFirst hKeeps hOther.leads
        (hGoes.below_of_leads hOther.leads hNe hBelow hRebinds.below.1) hRebinds
  | inside outer begun rest flag head behind kind block told hVisit hGoes hRebinds hSplit hFunction hNumber =>
      obtain ⟨same, hSame, hSameKind, hSameBlock, -⟩ := (chronicle_of_analyze_eq_ok hOk).openings.opened _
        (mem_programLog.2 ⟨_, _, _, hVisit.inside hSplit, rfl⟩) _ _ _ ⟨hNumber, told, rfl⟩
      cases hSame.symm.trans hScope
      obtain rfl : kind = .function := hSameKind.symm.trans hKind
      obtain rfl : block = outer := hFunction rfl
      rw [hSameBlock]
      have hRole : Role.ofKind block.kind = .function := Walker.role_of_mem_enter_function
        (role_ne_program hOk ⟨_, _, _, hVisit⟩) (hSplit ▸ List.mem_append_right head List.mem_cons_self)
      have hOuter : Visits settings tree.root block := ⟨_, _, _, hVisit⟩
      refine ⟨hVisited, hNode, .inr ?_, fun other hOther hHere hNe hRebinds => ?_⟩
      · obtain ⟨name, hName, hField⟩ := hGoes.inFields_of_function hVisit.contains hRole
        exact ⟨name, hName, hField.trans hBelow⟩
      · exact not_rebinds_of_keeps hFirst hKeeps hOther.leads
          (hGoes.below_of_leads (hOuter.through hOther hHere) hNe hBelow hRebinds.below.1) hRebinds

/-- The walk comes to what is of a function while a `var` goes to the scope of the function. -/
theorem exists_arrives_of_isThisOf (hOptions : Settings.ofOptions? options = .ok settings)
    (hOk : analyze settings tree = .ok table) (hScope : table.scopes[position]? = some scope)
    (hKind : scope.kind = .function) (h : IsThisOf settings tree.root scope.block node) :
    ∃ past inMethod future, Arrives settings tree.root past (.visit inMethod node) future ∧
      (Trail.after settings past).holder? = some position := by
  have hRole := fun node => @role_ne_program settings node table tree hOk
  -- The scope is the one of a program that is a function, or a function that the walk
  -- visits has opened it.
  rcases exists_opening_cases hOk hScope with
    ⟨hLt, hRoot⟩ | ⟨begun, flag, outer, rest, before, after, told, hVisit, hTasks, hPosition⟩
  · obtain ⟨base, hBase, hCount⟩ := exists_base hOk
    have hLast := function_of_program hOptions hOk hScope hKind hLt
    obtain rfl : base = position := Nat.succ.inj (hCount.trans hLast.symm)
    rw [hRoot] at h
    rcases Relation.ReflTransGen.cases_head h.visited.leads with rfl | ⟨first, hGoes, hRest⟩
    · exact absurd (List.suffix_refl _) h.visited.contains.not_below
    obtain ⟨before, flag, after, hSplit⟩ := hGoes.exists_split_of_program
    refine (Arrives.program hSplit).exists_of_leads hRole hRest (after_of_program hSplit ▸ hBase)
      fun other hOther hInside => h.nearest other hOther ?_ ?_
    · exact hOther.contains.below
    · exact hOther.contains.location_ne
  · rw [hKind] at hTasks
    have hOuter : Visits settings tree.root outer := ⟨_, _, _, hVisit⟩
    have hFunction : Role.ofKind outer.kind = .function := Walker.role_of_mem_enter_function
      (hRole _ hOuter) (hTasks ▸ List.mem_append_right before List.mem_cons_self)
    obtain ⟨own, hOwn⟩ := @Walker.exists_function_head outer { settings, inMethod := flag } hFunction
    obtain ⟨rfl, hBlock⟩ := hOwn hTasks rfl
    rw [hBlock] at h
    have hField := h.inside.resolve_left fun hRoot => hOuter.contains.location_ne (by rw [hRoot])
    rcases Relation.ReflTransGen.cases_head (hOuter.through h.visited hField.below) with
      rfl | ⟨first, hGoes, hRest⟩
    · rw [h.kind] at hFunction
      cases hFunction
    obtain ⟨before, method, after, hSplit⟩ := hGoes.exists_split hVisit.contains flag
    obtain ⟨base, hBase, -⟩ := exists_base hOk
    obtain ⟨holder, -, hHolder, -⟩ := hVisit.exists_house hRole hBase
    rcases hVisit.holder_cases (hRole _ hOuter) hHolder hSplit with
      ⟨hNot, -⟩ | ⟨-, head, kind, block, told, behind, hOpens, hHolds, -, hOpened⟩
    · exact absurd (Walker.rebinds_of_function hFunction hGoes.contains) hNot
    obtain ⟨rfl, -⟩ := hOwn hOpens hHolds
    refine (hVisit.inside hSplit).exists_of_leads hRole hRest (hPosition ▸ hOpened)
      fun other hOther hInside => h.nearest other hOther ?_ ?_
    · exact hGoes.contains.below.trans hInside
    · exact fun hEq => hGoes.contains.not_below (hEq ▸ hInside)

/-- The scope of a function that can be analyzed statically says that the function needs a
`this` just if there is a use that is one of the function. -/
theorem needsThis_iff (hOptions : Settings.ofOptions? options = .ok settings)
    (hOk : analyze settings tree = .ok table) (hScope : table.scopes[position]? = some scope)
    (hKind : scope.kind = .function) (hStatic : scope.dynamic = false) :
    table.needsThis position = true ↔ ∃ node, IsThisOf settings tree.root scope.block node := by
  have hNeeds : table.needsThis position = true ↔ scope.usesThis = true := by
    simp [needsThis, hScope, hKind, hStatic]
  rw [hNeeds, usesThis_iff hOk hScope]
  constructor
  · rintro ⟨past, inMethod, node, future, hArrives, hNode, hHolder⟩
    exact ⟨node, isThisOf_of_arrives hOk hScope hKind hArrives hNode hHolder⟩
  · rintro ⟨node, h⟩
    obtain ⟨past, inMethod, future, hArrives, hHolder⟩ :=
      exists_arrives_of_isThisOf hOptions hOk hScope hKind h
    exact ⟨past, inMethod, node, future, hArrives, h.kind, hHolder⟩

/-- A program with one function `f`, its parameters and the statements of its body. -/
def functionWith (parameters statements : List Json) : Tree where
  root := {
    location := []
    kind := "Program"
    entries := [("type", .string "Program"), ("body", .array [.object [
      ("type", .string "FunctionDeclaration"), ("id", identifier "f"), ("params", .array parameters),
      ("body", .object [("type", .string "BlockStatement"), ("body", .array statements)])]])] }
where
  identifier (text : String) : Json :=
    .object [("type", .string "Identifier"), ("name", .string text)]

/-- The program `function f(a = this) {}`. -/
def thisInDefault : Tree :=
  functionWith [.object [("type", .string "AssignmentPattern"), ("left", functionWith.identifier "a"),
    ("right", .object [("type", .string "ThisExpression")])]] []

/-- A default counts as the function it belongs to. -/
theorem needsThis_iff_thisInDefault :
    ∃ table scope, Settings.ofOptions? {} = .ok ⟨{}, 9⟩ ∧ analyze ⟨{}, 9⟩ thisInDefault = .ok table ∧
      table.scopes[1]? = some scope ∧ scope.kind = .function ∧ scope.dynamic = false ∧
      ∃ node, IsThisOf ⟨{}, 9⟩ thisInDefault.root scope.block node := by
  have hOptions : Settings.ofOptions? {} = .ok ⟨{}, 9⟩ := rfl
  have hAnalyze : (analyze ⟨{}, 9⟩ thisInDefault).toOption.map (fun table =>
      (table.scopes[1]?.map fun scope => (scope.kind, scope.dynamic), table.needsThis 1)) =
        some (some (.function, false), true) := by
    decide +kernel
  obtain ⟨table, hOk, hObserved⟩ := exists_of_map_toOption _ hAnalyze
  obtain ⟨hFunction, hNeeds⟩ := Prod.mk.inj hObserved
  obtain ⟨scope, hScope, hSeen⟩ := Option.map_eq_some_iff.1 hFunction
  obtain ⟨hKind, hStatic⟩ := Prod.mk.inj hSeen
  exact ⟨table, scope, hOptions, hOk, hScope, hKind, hStatic,
    (needsThis_iff hOptions hOk hScope hKind hStatic).1 hNeeds⟩

/-- The program `function f() { () => this }`. -/
def thisInArrow : Tree :=
  functionWith [] [.object [("type", .string "ExpressionStatement"), ("expression", .object [
    ("type", .string "ArrowFunctionExpression"), ("params", .array []),
    ("body", .object [("type", .string "ThisExpression")])])]]

/-- An arrow function takes the use from the function around it, though it has no `this` of its
own. -/
theorem this_missed_thisInArrow :
    ∃ table scope node, analyze ⟨{}, 9⟩ thisInArrow = .ok table ∧ table.scopes[1]? = some scope ∧
      scope.kind = .function ∧ scope.block.kind = "FunctionDeclaration" ∧ scope.dynamic = false ∧
      table.needsThis 1 = false ∧ Visits ⟨{}, 9⟩ thisInArrow.root node ∧ node.kind = "ThisExpression" ∧
      scope.block.location.InFields ["params", "body"] node.location ∧
      ∀ other, Visits ⟨{}, 9⟩ thisInArrow.root other → other.kind ≠ "ArrowFunctionExpression" →
        other.location ≠ scope.block.location → ¬ other.Rebinds node.location := by
  have hAnalyze : (analyze ⟨{}, 9⟩ thisInArrow).toOption.map (fun table =>
      (table.scopes[1]?.map fun scope => (scope.kind, scope.block.kind, scope.dynamic),
        table.needsThis 1, table.scopes[3]?.map Scope.usesThis)) =
        some (some (.function, "FunctionDeclaration", false), false, some true) := by
    decide +kernel
  have hPlace : (analyze ⟨{}, 9⟩ thisInArrow).toOption.map (fun table =>
      table.scopes[1]?.map fun scope => scope.block.location) =
        some (some [.index 0, .field "body"]) := by
    decide +kernel
  have hNodes : ∀ node, Visits ⟨{}, 9⟩ thisInArrow.root node → node ∈ thisInArrow.nodes :=
    fun node hNode => Tree.mem_nodes_of_holds rfl rfl (.inr hNode.contains)
  have hUses : ∀ node ∈ thisInArrow.nodes, node.kind = "ThisExpression" →
      .field "body" :: [.index 0, .field "body"] <:+ node.location := by
    decide +kernel
  have hOthers : ∀ node ∈ thisInArrow.nodes, node.kind ≠ "ArrowFunctionExpression" →
      node.location ≠ [.index 0, .field "body"] →
      Role.ofKind node.kind ∉ [.function, .staticBlock, .field] := by
    decide +kernel
  obtain ⟨table, hOk, hObserved⟩ := exists_of_map_toOption _ hAnalyze
  obtain ⟨same, hSame, hLocated⟩ := exists_of_map_toOption _ hPlace
  cases hSame.symm.trans hOk
  simp only [Prod.mk.injEq] at hObserved
  obtain ⟨hFunction, hNeeds, hArrow⟩ := hObserved
  obtain ⟨scope, hScope, hSeen⟩ := Option.map_eq_some_iff.1 hFunction
  simp only [Prod.mk.injEq] at hSeen
  obtain ⟨hKind, hBlock, hStatic⟩ := hSeen
  rw [hScope, Option.map_some, Option.some.injEq] at hLocated
  obtain ⟨arrow, hInner, hUsed⟩ := Option.map_eq_some_iff.1 hArrow
  obtain ⟨past, inMethod, node, future, hArrives, hNode, -⟩ := (usesThis_iff hOk hInner).1 hUsed
  have hVisited : Visits ⟨{}, 9⟩ thisInArrow.root node := ⟨past, inMethod, future, hArrives⟩
  rw [← hLocated] at hUses hOthers
  exact ⟨table, scope, node, hOk, hScope, hKind, hBlock, hStatic, hNeeds, hVisited, hNode,
    ⟨"body", by simp, hUses node (hNodes node hVisited) hNode⟩,
    fun other hOther hArrowNot hNe hRebinds =>
      hOthers other (hNodes other hOther) hArrowNot hNe (Walker.rebinds_role hRebinds)⟩

end SymbolTable

end Scoping
