import Scoping.Proofs.Resolution.Static
import Scoping.Proofs.Resolution.Tally

/-! Which references are tainted: those that come out of the body of a `with`
one scope at a time. A scope that stops the search of a reference puts it into
all the scopes around at once, and the body of a `with` among them does not
taint it. -/

namespace Scoping.SymbolTable

variable {settings : Settings} {table : SymbolTable} {tree : Tree} {id : ReferenceId}
  {reference : Reference} {inner position : ScopeId} {body : Scope}

/-- A scope that hands what it does not resolve to the scope around: the body of
a `with`, or a static scope. -/
def HandsOut (table : SymbolTable) (position : ScopeId) : Prop :=
  ∃ owner, table.scopes[position]? = some owner ∧
    (owner.kind = .withBody ∨ owner.dynamic = false)

/-- A reference has passed through the body of a `with`, and every scope that it
came by before has handed it on. -/
def HandedOut (table : SymbolTable) (id : ReferenceId) (reference : Reference) : Prop :=
  ∃ inner body before around, table.scopes[inner]? = some body ∧ body.kind = .withBody ∧
    id ∈ body.through ∧ table.enclosing reference.scope = before ++ inner :: around ∧
    ∀ position ∈ before, table.HandsOut position

theorem verdict_ne_stop_of_handsOut (hPlaced : Placed table)
    (hFound : table.references[id]? = some reference)
    (hPessimistic : settings.options.optimistic = false) (h : table.HandsOut position) :
    table.verdict settings position id ≠ .stop := by
  obtain ⟨owner, hOwner, hKind | hStatic⟩ := h
  · simp [verdict, hOwner, hFound, hKind, hPessimistic]
  · rw [verdict_of_static hOwner hFound (hPlaced.with_dynamic position owner hOwner) (.inl hStatic)]
    cases table.ownVariable? position reference.identifier.name with
    | none => simp
    | some own => by_cases hHidden : owner.HidesUntilBody id own.2 <;> simp [hHidden]

/-- A scope that a reference has passed lists it. -/
theorem Footprint.mem_through {recorded waiting through : List ScopeId} {listed : List VariableId}
    (h : Footprint table id recorded waiting through listed)
    (hBody : table.scopes[inner]? = some body) : id ∈ body.through ↔ inner ∈ through := by
  rw [← Array.count_pos_iff, ← occurrences_of_getElem? hBody, h.through, List.count_pos_iff]

/-- A tainted reference has left the body of a `with`, and has come to it by
scopes that each let it out. -/
theorem Course.handedOut_of_tainted {passed rest recorded waiting through : List ScopeId}
    {listed : List VariableId} (h : Course settings table id reference passed rest)
    (hFoot : Footprint table id recorded waiting through listed) (hPassed : passed ⊆ through)
    (hOutermost : Outermost table) (hPessimistic : settings.options.optimistic = false)
    (hTainted : reference.tainted = true) : table.HandedOut id reference := by
  rw [h.tainted, List.any_eq_true] at hTainted
  obtain ⟨inner, hInner, hTaints⟩ := hTainted
  obtain ⟨body, hBody, -⟩ := h.letOut.closed inner hInner
  obtain ⟨before, after, rfl⟩ := List.append_of_mem hInner
  have hWay : table.enclosing reference.scope = before ++ inner :: (after ++ rest) := by
    rw [h.enclosing, List.append_assoc, List.cons_append]
  refine ⟨inner, body, before, after ++ rest, hBody, ((taints_of_getElem? hBody).1 hTaints).1,
    (hFoot.mem_through hBody).2 (hPassed hInner), hWay, fun position hBefore => ?_⟩
  have hMem : position ∈ before ++ inner :: after := List.mem_append_left _ hBefore
  obtain ⟨owner, hOwner, -⟩ := h.letOut.closed position hMem
  rcases static_of_verdict_outward hOwner hPessimistic (h.letOut.outward position hMem) with
    hWith | hGlobal | hStatic
  · exact ⟨owner, hOwner, .inl hWith⟩
  · exact absurd hGlobal (hOutermost.kind_ne_global hWay hBefore hOwner)
  · exact ⟨owner, hOwner, .inr hStatic⟩

theorem Course.tainted_of_mem {passed rest : List ScopeId}
    (h : Course settings table id reference passed rest)
    (hPessimistic : settings.options.optimistic = false)
    (hBody : table.scopes[inner]? = some body) (hKind : body.kind = .withBody)
    (hInner : inner ∈ passed) : reference.tainted = true := by
  rw [h.tainted, List.any_eq_true]
  exact ⟨inner, hInner, (taints_of_getElem? hBody).2 ⟨hKind, hPessimistic⟩⟩

/-- A reference whose search has stopped is not handed on to any scope further
out. -/
theorem Course.mem_passed_of_stop {passed hidden before around : List ScopeId}
    (h : Course settings table id reference passed hidden) (hPlaced : Placed table)
    (hPessimistic : settings.options.optimistic = false)
    (hStops : ∀ scope ∈ hidden.head?, table.verdict settings scope id = .stop)
    (hBody : table.scopes[inner]? = some body) (hKind : body.kind = .withBody)
    (hWay : table.enclosing reference.scope = before ++ inner :: around)
    (hBefore : ∀ position ∈ before, table.HandsOut position) : inner ∈ passed := by
  have hSplit : passed ++ hidden = before ++ inner :: around := h.enclosing.symm.trans hWay
  have hMem : inner ∈ passed ++ hidden := hSplit ▸ List.mem_append_right _ List.mem_cons_self
  refine (List.mem_append.1 hMem).resolve_right fun hHidden => ?_
  cases hidden with
  | nil => cases hHidden
  | cons scope hidden =>
      have hStop := hStops scope rfl
      rcases List.mem_cons.1 hHidden with rfl | hLater
      · exact verdict_ne_stop_of_handsOut hPlaced h.found hPessimistic
          ⟨body, hBody, .inl hKind⟩ hStop
      · -- The way out falls in number, so that the scope that stops lies before.
        have hFalls : (passed ++ scope :: hidden).Pairwise (· > ·) :=
          h.enclosing ▸ enclosing_sortedGT
        have hInside : inner < scope :=
          List.rel_of_pairwise_cons (List.pairwise_append.1 hFalls).2.1 hLater
        have hScope : scope ∈ before ++ inner :: around :=
          hSplit ▸ List.mem_append_right _ List.mem_cons_self
        rcases List.mem_append.1 hScope with hEarlier | hFrom
        · exact verdict_ne_stop_of_handsOut hPlaced h.found hPessimistic (hBefore scope hEarlier)
            hStop
        · have hFallsFrom : (before ++ inner :: around).Pairwise (· > ·) := hSplit ▸ hFalls
          rcases List.mem_cons.1 hFrom with rfl | hAround
          · exact absurd hInside (lt_irrefl _)
          · exact absurd (List.rel_of_pairwise_cons (List.pairwise_append.1 hFallsFrom).2.1 hAround)
              (lt_asymm hInside)

theorem Settled.tainted_iff (h : Settled settings table id reference) (hPlaced : Placed table)
    (hOutermost : Outermost table) (hPessimistic : settings.options.optimistic = false) :
    reference.tainted = true ↔ table.HandedOut id reference := by
  cases h with
  | resolved passed around scope var course binds resolved foot =>
      refine ⟨course.handedOut_of_tainted foot (List.Subset.refl _) hOutermost hPessimistic, ?_⟩
      rintro ⟨inner, body, -, -, hBody, hKind, hThrough, -⟩
      exact course.tainted_of_mem hPessimistic hBody hKind ((foot.mem_through hBody).1 hThrough)
  | lost passed hidden course stops unresolved foot =>
      refine ⟨course.handedOut_of_tainted foot (List.subset_append_left _ _) hOutermost
        hPessimistic, ?_⟩
      rintro ⟨inner, body, before, around, hBody, hKind, -, hWay, hBefore⟩
      exact course.tainted_of_mem hPessimistic hBody hKind
        (course.mem_passed_of_stop hPlaced hPessimistic stops hBody hKind hWay hBefore)

theorem Settled.tainted_eq_false (h : Settled settings table id reference)
    (hOptimistic : settings.options.optimistic = true) : reference.tainted = false := by
  obtain ⟨passed, rest, hCourse⟩ :
      ∃ passed rest, Course settings table id reference passed rest := by
    cases h with
    | resolved passed around scope var course binds resolved foot => exact ⟨_, _, course⟩
    | lost passed hidden course stops unresolved foot => exact ⟨_, _, course⟩
  rw [hCourse.tainted, List.any_eq_false]
  intro position hPassed
  obtain ⟨owner, hOwner, -⟩ := hCourse.letOut.closed position hPassed
  simp [taints_of_getElem? hOwner, hOptimistic]

/-- A variable is tainted by a reference of its own alone. -/
theorem Tallied.exists_tainted {var : VariableId} {declared : Variable} (h : Tallied table var)
    (hDeclared : table.variables[var]? = some declared) (hTainted : declared.tainted = true) :
    ∃ (id : ReferenceId) (reference : Reference), table.references[id]? = some reference ∧
      reference.tainted = true := by
  obtain ⟨id, -, hId⟩ := h.tainted.1 (by rw [marksOf_of_getElem? hDeclared]; exact hTainted)
  obtain ⟨reference, hFound, hReference⟩ := (Option.any_eq_true _ _).1 hId
  exact ⟨id, reference, hFound, hReference⟩

/-- A reference is tainted just if it is handed out of the body of a `with`. It
then goes through that body; but one whose search has stopped below does so too,
and is not tainted. An optimistic analysis taints nothing. -/
theorem tainted_iff_handedOut (hOk : analyze settings tree = .ok table) :
    table.UppersFall ∧
    (settings.options.optimistic = false → ∀ (id : ReferenceId) (reference : Reference),
      table.references[id]? = some reference →
        (reference.tainted = true ↔ table.HandedOut id reference)) ∧
    (settings.options.optimistic = true →
      (∀ (id : ReferenceId) (reference : Reference), table.references[id]? = some reference →
        reference.tainted = false) ∧
      ∀ (var : VariableId) (declared : Variable), table.variables[var]? = some declared →
        declared.tainted = false) := by
  have hPlaced := (spec_of_analyze_eq_ok hOk).2.1.toPlaced
  have hOutermost := (chronicle_of_analyze_eq_ok hOk).outermost
  have hUntainted : settings.options.optimistic = true →
      ∀ (id : ReferenceId) (reference : Reference), table.references[id]? = some reference →
        reference.tainted = false := fun hOptimistic id reference hFound =>
    (settled_of_analyze_eq_ok hOk hFound).tainted_eq_false hOptimistic
  refine ⟨hPlaced.upper_lt, fun hPessimistic id reference hFound =>
    (settled_of_analyze_eq_ok hOk hFound).tainted_iff hPlaced hOutermost hPessimistic,
    fun hOptimistic => ⟨hUntainted hOptimistic, fun var declared hDeclared => ?_⟩⟩
  by_contra hTainted
  obtain ⟨id, reference, hFound, hReference⟩ :=
    (allTallied_of_analyze_eq_ok hOk var).exists_tainted hDeclared (by simpa using hTainted)
  rw [hUntainted hOptimistic id reference hFound] at hReference
  cases hReference

/-- Of two uses of a name, the one inside the `with` is tainted, and in an
optimistic analysis neither is. -/
theorem tainted_iff_handedOut_nameInsideWith :
    ∃ table relaxed, analyze ⟨{}, 9⟩ nameInsideWith = .ok table ∧
      analyze ⟨{ optimistic := true }, 9⟩ nameInsideWith = .ok relaxed ∧
      table.references.map Reference.tainted = #[false, true] ∧
      (∀ (id : ReferenceId) (reference : Reference), table.references[id]? = some reference →
        (reference.tainted = true ↔ table.HandedOut id reference)) ∧
      relaxed.references.size = 2 ∧
      ∀ (id : ReferenceId) (reference : Reference), relaxed.references[id]? = some reference →
        reference.tainted = false := by
  have hAnalyze : (analyze ⟨{}, 9⟩ nameInsideWith).toOption.map (fun table =>
      table.references.map Reference.tainted) = some #[false, true] := by
    decide +kernel
  have hRelaxed : (analyze ⟨{ optimistic := true }, 9⟩ nameInsideWith).toOption.map
      (fun table => table.references.size) = some 2 := by
    decide +kernel
  obtain ⟨table, hOk, hTainted⟩ := exists_of_map_toOption _ hAnalyze
  obtain ⟨relaxed, hOther, hSize⟩ := exists_of_map_toOption _ hRelaxed
  exact ⟨table, relaxed, hOk, hOther, hTainted, (tainted_iff_handedOut hOk).2.1 rfl, hSize,
    ((tainted_iff_handedOut hOther).2.2 rfl).1⟩

/-- The program `with ({}) (function () { eval() })`. -/
def evalInsideWith : Tree where
  root := {
    location := []
    kind := "Program"
    entries := [("type", .string "Program"), ("body", .array [.object [
      ("type", .string "WithStatement"),
      ("object", .object [("type", .string "ObjectExpression"), ("properties", .array [])]),
      ("body", statement (.object [("type", .string "FunctionExpression"), ("id", .null),
        ("params", .array []), ("body", .object [("type", .string "BlockStatement"),
          ("body", .array [statement (.object [("type", .string "CallExpression"),
            ("callee", .object [("type", .string "Identifier"), ("name", .string "eval")]),
            ("arguments", .array [])])])])]))]])] }
where
  statement (expression : Json) : Json :=
    .object [("type", .string "ExpressionStatement"), ("expression", expression)]

/-- The function stops the search for `eval`, which so goes through the body of
the `with` without being tainted. -/
theorem not_tainted_evalInsideWith :
    ∃ table reference body, analyze ⟨{}, 9⟩ evalInsideWith = .ok table ∧
      table.references[0]? = some reference ∧ reference.tainted = false ∧
      table.scopes[1]? = some body ∧ body.kind = .withBody ∧ 0 ∈ body.through := by
  have hAnalyze : (analyze ⟨{}, 9⟩ evalInsideWith).toOption.map (fun table =>
      (table.references[0]?.map Reference.tainted,
        table.scopes[1]?.map fun body => (body.kind, body.through))) =
        some (some false, some (.withBody, #[0])) := by
    decide +kernel
  obtain ⟨table, hOk, hObserved⟩ := exists_of_map_toOption _ hAnalyze
  obtain ⟨hReference, hBody⟩ := Prod.mk.inj hObserved
  obtain ⟨reference, hFound, hTainted⟩ := Option.map_eq_some_iff.1 hReference
  obtain ⟨body, hScope, hSeen⟩ := Option.map_eq_some_iff.1 hBody
  obtain ⟨hKind, hThrough⟩ := Prod.mk.inj hSeen
  exact ⟨table, reference, body, hOk, hFound, hTainted, hScope, hKind, by simp [hThrough]⟩

end Scoping.SymbolTable
