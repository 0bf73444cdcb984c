import Scoping.Proofs.Options.Bands
import Scoping.Proofs.Placement.Strictness

/-! Where functions declared in blocks bind their names. Before edition 6 all rules
agree on that, and in strict code they always do. A program that is strict from the
start is strict all through, so no rule can change what is found of it. -/

namespace Scoping

variable {settings : Settings} {root : Node} {past future : List Event} {event : Event}
  {policy : BlockFunctions}

/-- The same settings with another rule for functions in blocks. -/
def Settings.withBlockFunctions (settings : Settings) (policy : BlockFunctions) : Settings :=
  { settings with options := { settings.options with blockFunctions := policy } }

theorem Settings.readAlike_withBlockFunctions (settings : Settings) (policy : BlockFunctions) :
    (settings.withBlockFunctions policy).ReadAlike settings where
  keys := rfl
  isModule := rfl
  globalReturn := rfl
  knowsStrict := rfl
  hasBlockScopes := rfl
  impliedStrict := rfl
  ignoreEval := rfl

/-- All the code of a program is strict, by the options or by its directives. -/
def Settings.MakesStrict (settings : Settings) (root : Node) : Prop :=
  settings.isModule = true ∨ settings.options.impliedStrict = true ∨
    (root.kind = "Program" ∧ root.UsesStrict)

namespace Trail

variable {trail : Trail} {head frame : Frame} {signal : Numbered} {signals : List Numbered}

/-- What is inside a strict scope is strict. -/
def Tight (trail : Trail) : Prop :=
  trail.Pairwise fun inner outer => outer.strict = true → inner.strict = true

theorem Tight.head_strict (h : trail.Tight) (hHead : head ∈ trail.head?) (hFrame : frame ∈ trail)
    (hStrict : frame.strict = true) : head.strict = true := by
  obtain ⟨rest, rfl⟩ := List.head?_eq_some_iff.1 hHead
  rcases List.mem_cons.1 hFrame with rfl | hAround
  · exact hStrict
  · exact (List.pairwise_cons.1 h).1 frame hAround hStrict

theorem Tight.opening (h : trail.Tight) (hKnows : settings.knowsStrict = true) (number : Nat)
    (kind : ScopeKind) (block : Node) (inMethod : Bool) :
    Tight (trail.opening settings number kind block inMethod :: trail) := by
  refine List.pairwise_cons.2 ⟨fun outer hOuter hStrict => ?_, h⟩
  have hHead : trail.head?.any Frame.strict = true := by
    obtain ⟨head, hSome⟩ := Option.ne_none_iff_exists'.1
      (mt List.head?_eq_none_iff.1 (List.ne_nil_of_mem hOuter))
    rw [hSome, Option.any_some]
    exact h.head_strict hSome hOuter hStrict
  simp [Trail.opening, opensStrict, hKnows, hHead]

/-- As long as nothing says otherwise, what opens in strict code is strict. -/
theorem Tight.step (h : trail.Tight) (hKnows : settings.knowsStrict = true)
    (hNone : ∀ strict, signal.event ≠ .setStrict strict) : (trail.step settings signal).Tight := by
  unfold Trail.step
  split
  · exact h.opening hKnows _ _ _ _
  · exact h.sublist without_suffix.sublist
  · next strict hEvent => exact absurd hEvent (hNone strict)
  · cases trail with
    | nil => exact h
    | cons head rest => exact List.pairwise_cons.2 (List.pairwise_cons.1 h)
  all_goals exact h

theorem Tight.steps (h : trail.Tight) (hKnows : settings.knowsStrict = true)
    (hNone : ∀ signal ∈ signals, ∀ strict, signal.event ≠ .setStrict strict) :
    (trail.steps settings signals).Tight := by
  induction signals generalizing trail with
  | nil => exact h
  | cons signal signals ih =>
      exact ih (h.step hKnows (hNone signal List.mem_cons_self))
        fun later hLater => hNone later (List.mem_cons_of_mem _ hLater)

end Trail

namespace SymbolTable

variable {table : SymbolTable} {tree : Tree}

/-- The scopes of a strict program as its first visit begins. -/
theorem tight_programTrail {asks asksFunction : Bool} (hEdition : 6 ≤ settings.edition)
    (hStrict : settings.MakesStrict root)
    (hAsks : asks = true ↔ 5 ≤ settings.edition ∧ AsksStrict .global root)
    (hFunction : settings.globalReturn = true →
      (asksFunction = true ↔ 5 ≤ settings.edition ∧ AsksStrict .function root)) :
    (programTrail settings root asks asksFunction).Tight ∧
      ∃ frame ∈ programTrail settings root asks asksFunction, frame.strict = true := by
  have hKnows : settings.knowsStrict = true := decide_eq_true (Nat.le_of_succ_le hEdition)
  have hScopes : settings.hasBlockScopes = true := decide_eq_true hEdition
  constructor
  · unfold programTrail
    cases settings.globalReturn <;> cases settings.isModule <;> simp [Trail.Tight, hKnows, hScopes]
  · rcases hStrict with hModule | hImplied | ⟨hKind, hUses⟩
    · simp [programTrail, hModule, hKnows, hScopes]
    · cases hReturn : settings.globalReturn <;> cases hModule : settings.isModule <;>
        simp [programTrail, hReturn, hModule, hKnows, hScopes, hImplied]
    · have hGlobal : asks = true := hAsks.2 ⟨Nat.le_of_succ_le hEdition, .inr ⟨rfl, hUses⟩⟩
      cases hReturn : settings.globalReturn with
      | false => simp [programTrail, hReturn, hGlobal]
      | true =>
          have hBody : asksFunction = true := (hFunction hReturn).2
            ⟨Nat.le_of_succ_le hEdition, .inl ⟨rfl, by simp [Node.IsExpressionArrow, hKind],
              root, if_pos hKind, hUses⟩⟩
          cases hModule : settings.isModule <;>
            simp [programTrail, hReturn, hModule, hKnows, hScopes, hBody]

/-- Where a strict program is visited the current scope is strict, as far as the walk
has gone well. -/
theorem head_strict_of_makesStrict (hEdition : 6 ≤ settings.edition)
    (hStrict : settings.MakesStrict root)
    (h : Arrives settings root past (.emit event) future)
    (hVisits : ¬ past ++ [event] <+: programOpenings settings root)
    (hRun : ({} : SymbolTable).run settings past = .ok table) :
    ∀ head ∈ (Trail.after settings past).head?, head.strict = true := by
  intro head hHead
  rcases h.openings_cases with hOpening | ⟨ahead, rfl, hSuffix⟩
  · exact absurd hOpening hVisits
  · obtain ⟨opened, hOpened, hAhead⟩ := exists_run_of_append hRun
    obtain ⟨asks, asksFunction, hAsks, hFunction, hTrail⟩ := exists_programTrail_of_run hOpened
    obtain ⟨hTight, frame, hFrame, hFrameStrict⟩ :=
      tight_programTrail hEdition hStrict hAsks hFunction
    rw [← hTrail] at hTight hFrame
    have hKnows : settings.knowsStrict = true := decide_eq_true (Nat.le_of_succ_le hEdition)
    have hEvents : programEvents settings root =
        programOpenings settings root ++ ahead ++ event :: future := h.events_eq
    have hLater : (Trail.after settings (programOpenings settings root ++ ahead)).Tight := by
      rw [Trail.after_append]
      refine hTight.steps hKnows fun signal hSignal strict hEvent =>
        setStrict_not_mem_of_run strict hEvents (List.prefix_refl _) hRun ?_
      rw [← hEvent, ← map_event_numbered (0 + (programOpenings settings root).countP Event.opens)
        (0 + (programOpenings settings root).countP Event.records) ahead]
      exact List.mem_map_of_mem hSignal
    exact hLater.head_strict hHead (hSuffix.subset hFrame) hFrameStrict

/-- Before edition 6 and in strict code a scope binds functions by one rule. -/
theorem bindsFunctions_withBlockFunctions (policy : BlockFunctions) (scope : Scope)
    (h : settings.edition < 6 ∨ scope.strict = true) :
    table.bindsFunctions (settings.withBlockFunctions policy) scope =
      table.bindsFunctions settings scope := by
  have hPolicy : ∀ rule : BlockFunctions, rule.bindsInBlock settings.edition scope.strict =
      !decide (settings.edition < 6) := by
    intro rule
    rcases h with hEarly | hStrict
    · simp [BlockFunctions.bindsInBlock, hEarly]
    · by_cases hEarly : settings.edition < 6 <;> cases rule <;>
        simp [BlockFunctions.bindsInBlock, hEarly, hStrict]
  simp only [bindsFunctions, Settings.withBlockFunctions, hPolicy]

/-- The rule for functions in blocks is asked for only where a function is declared. -/
theorem apply_withBlockFunctions (policy : BlockFunctions)
    (h : ∀ identifier definition, event = .define .functionDeclaration identifier definition →
      ∀ current scope, table.current = .ok current → table.scopes[current]? = some scope →
        settings.edition < 6 ∨ scope.strict = true) :
    table.apply (settings.withBlockFunctions policy) event = table.apply settings event := by
  cases event with
  | define destination identifier definition =>
      cases destination with
      | current => rfl
      | variableScope => rfl
      | functionDeclaration =>
          have hDestination : ∀ current, table.current = .ok current →
              table.destination (settings.withBlockFunctions policy) current .functionDeclaration =
                table.destination settings current .functionDeclaration := by
            intro current hCurrent
            simp only [SymbolTable.destination]
            cases hScope : table.scopes[current]? with
            | none => rfl
            | some scope =>
                simp only [Option.all_some, bindsFunctions_withBlockFunctions policy scope
                  (h identifier definition rfl current scope hCurrent hScope)]
          cases hCurrent : table.current with
          | error failure => simp only [apply, hCurrent]; rfl
          | ok current =>
              simp only [apply, hCurrent]
              exact congrArg (fun scope => Except.ok (table.define scope identifier definition))
                (hDestination current hCurrent)
  | enter | leave | setStrict | use | directEval | thisExpression | bodyStart | endDeclaration
  | fail => rfl

/-- Two settings give the same walk if they treat each event alike that it comes to. -/
theorem run_congr_of_apply {first second : Settings} {events : List Event}
    (h : ∀ past event future middle, events = past ++ event :: future →
      table.run first past = .ok middle → middle.apply second event = middle.apply first event) :
    table.run second events = table.run first events := by
  induction events generalizing table with
  | nil => rfl
  | cons event events ih =>
      rw [run_cons, run_cons, h [] event events table rfl rfl]
      cases hNext : table.apply first event with
      | error failure => rfl
      | ok next =>
          refine ih fun past other future middle hEvents hRun =>
            h (event :: past) other future middle (by rw [hEvents]; rfl) ?_
          rw [run_cons, hNext]
          exact hRun

end SymbolTable

/-- No rule for functions in blocks changes the analysis of a program before edition 6, or
of one that is strict from the start, be it a table or a failure. -/
theorem analyze_withBlockFunctions {tree : Tree}
    (h : settings.edition < 6 ∨ settings.MakesStrict tree.root) (policy : BlockFunctions) :
    analyze (settings.withBlockFunctions policy) tree = analyze settings tree := by
  have hEvents := programEvents_congr (settings.readAlike_withBlockFunctions policy) tree.root
  have hRun : ({} : SymbolTable).run (settings.withBlockFunctions policy)
      (programEvents settings tree.root) = ({} : SymbolTable).run settings
        (programEvents settings tree.root) := by
    refine SymbolTable.run_congr_of_apply fun past event future middle hSplit hMiddle => ?_
    refine SymbolTable.apply_withBlockFunctions policy fun identifier definition hEvent current scope
      hCurrent hScope => ?_
    by_cases hEarly : settings.edition < 6
    · exact .inl hEarly
    · -- The current scope is one of those that are open, and these are strict.
      subst hEvent
      have hFollows := SymbolTable.follows_after hMiddle
      obtain ⟨head, hHead, rfl⟩ := Option.map_eq_some_iff.1 (hFollows.current_eq_ok.1 hCurrent)
      have hStrict := SymbolTable.head_strict_of_makesStrict (Nat.le_of_not_lt hEarly)
        (h.resolve_left hEarly) (arrives_of_events hSplit) (not_prefix_openings nofun nofun) hMiddle
        head hHead
      obtain ⟨same, hSame, hDescribes⟩ := hFollows.frame head (List.mem_of_mem_head? hHead)
      cases hSame.symm.trans hScope
      exact .inr (hDescribes.strict.trans hStrict)
  simp only [analyze, hEvents, hRun]

theorem Settings.ofOptions?_withBlockFunctions (options : Options) (policy : BlockFunctions) :
    Settings.ofOptions? { options with blockFunctions := policy } =
      (Settings.ofOptions? options).map fun settings => settings.withBlockFunctions policy := by
  unfold ofOptions?
  cases Edition.ofVersion? options.ecmaVersion with
  | none => rfl
  | some edition =>
      simp only
      split
      · rfl
      · split <;> rfl

/-- Options that differ only in where functions in blocks bind their names are rejected
alike, or give the same analysis of every program that is a module, is before edition 6
or is strict from the start, by the options or by its directives. -/
theorem analyze_eq_of_strict {first second : Options} {tree : Tree}
    (hAgree : { first with blockFunctions := second.blockFunctions } = second)
    (hRoot : tree.root.kind = "Program")
    (hStrict : first.sourceType = .esModule ∨ first.impliedStrict = true ∨
      ∃ edition, Edition.ofVersion? first.ecmaVersion = some edition ∧
        (edition < 6 ∨ (5 ≤ edition ∧ tree.root.UsesStrict))) :
    (∃ rejection, Settings.ofOptions? first = .error rejection ∧
      Settings.ofOptions? second = .error rejection) ∨
    ∃ edition, Settings.ofOptions? first = .ok ⟨first, edition⟩ ∧
      Settings.ofOptions? second = .ok ⟨second, edition⟩ ∧
      analyze ⟨second, edition⟩ tree = analyze ⟨first, edition⟩ tree := by
  have hOptions := Settings.ofOptions?_withBlockFunctions first second.blockFunctions
  rw [hAgree] at hOptions
  cases hFirst : Settings.ofOptions? first with
  | error rejection => exact .inl ⟨rejection, rfl, by rw [hOptions, hFirst]; rfl⟩
  | ok settings =>
      obtain ⟨edition, hVersion, -, rfl⟩ := Settings.exists_of_ofOptions?_eq_ok hFirst
      have hSecond : Settings.withBlockFunctions ⟨first, edition⟩ second.blockFunctions =
          ⟨second, edition⟩ := congrArg (Settings.mk · edition) hAgree
      refine .inr ⟨edition, rfl, by rw [hOptions, hFirst, ← hSecond]; rfl, ?_⟩
      rw [← hSecond]
      refine analyze_withBlockFunctions ?_ _
      rcases hStrict with hModule | hImplied | ⟨same, hSame, hEarly | ⟨-, hUses⟩⟩
      · exact .inr (.inl (decide_eq_true hModule))
      · exact .inr (.inr (.inl hImplied))
      · cases hSame.symm.trans hVersion
        exact .inl hEarly
      · exact .inr (.inr (.inr ⟨hRoot, hUses⟩))

/-- The program `"use strict"; { function f() {} }`. -/
def strictFunctionInBlock : Tree where
  root := {
    location := []
    kind := "Program"
    entries := [("type", .string "Program"), ("body", .array [
      .object [("type", .string "ExpressionStatement"), ("directive", .string "use strict"),
        ("expression", .object [("type", .string "Literal"), ("value", .string "use strict")])],
      block [.object [("type", .string "FunctionDeclaration"),
        ("id", .object [("type", .string "Identifier"), ("name", .string "f")]),
        ("params", .array []), ("body", block [])]]])] }
where
  block (body : List Json) : Json :=
    .object [("type", .string "BlockStatement"), ("body", .array body)]

/-- With either rule the function is declared in the block. -/
theorem analyze_eq_of_strict_strictFunctionInBlock :
    ∃ table, strictFunctionInBlock.root.kind = "Program" ∧ strictFunctionInBlock.root.UsesStrict ∧
      analyze ⟨{ sourceType := .commonJS }, 9⟩ strictFunctionInBlock = .ok table ∧
      analyze ⟨{ sourceType := .commonJS, blockFunctions := .sloppyHoisted }, 9⟩
        strictFunctionInBlock = .ok table ∧
      table.variables.map (fun var => (var.name, var.scope)) =
        #[("arguments", 1), ("f", 2), ("arguments", 3)] := by
  have hAnalyze : (analyze ⟨{ sourceType := .commonJS }, 9⟩ strictFunctionInBlock).toOption.map
      (fun table => table.variables.map fun var => (var.name, var.scope)) =
        some #[("arguments", 1), ("f", 2), ("arguments", 3)] := by
    decide +kernel
  obtain ⟨table, hOk, hNames⟩ := exists_of_map_toOption _ hAnalyze
  have hUses : strictFunctionInBlock.root.UsesStrict := (Node.saysStrict_eq_ok rfl).1 rfl
  obtain ⟨rejection, hRejected, -⟩ | ⟨edition, hFirst, -, hSame⟩ :=
    @analyze_eq_of_strict { sourceType := .commonJS }
      { sourceType := .commonJS, blockFunctions := .sloppyHoisted } strictFunctionInBlock rfl rfl
      (.inr (.inr ⟨9, rfl, .inr ⟨by decide, hUses⟩⟩))
  · cases hRejected
  · cases hFirst
    exact ⟨table, rfl, hUses, hOk, hSame.trans hOk, hNames⟩

end Scoping
