import Scoping.Analyze
import Scoping.Proofs.Walk.Reading

/-! What a symbol table asks of the settings. Most events are answered alike
whether or not an analysis is optimistic: only the end of a node, which closes
scopes, asks for that. -/

namespace Scoping

/-- Two settings under which a table answers alike all but the ends of nodes. -/
structure Settings.OpenAlike (first second : Settings) : Prop where
  knowsStrict : first.knowsStrict = second.knowsStrict
  bindsInBlock : first.options.blockFunctions.bindsInBlock first.edition =
    second.options.blockFunctions.bindsInBlock second.edition

/-- Two settings under which a table answers all events alike. -/
structure Settings.AnswerAlike (first second : Settings) : Prop
    extends Settings.OpenAlike first second where
  isModule : first.isModule = second.isModule
  optimistic : first.options.optimistic = second.options.optimistic

namespace SymbolTable

variable {first second : Settings}

theorem enter_congr (h : first.OpenAlike second) (table : SymbolTable) (kind : ScopeKind)
    (block : Node) (inMethod : Bool) :
    table.enter first kind block inMethod = table.enter second kind block inMethod := by
  simp only [enter, opensStrict, h.knowsStrict]

theorem destination_congr (h : first.OpenAlike second) (table : SymbolTable) (current : ScopeId)
    (destination : Destination) :
    table.destination first current destination = table.destination second current destination := by
  have hBinds : table.bindsFunctions first = table.bindsFunctions second := by
    funext scope
    simp only [bindsFunctions, h.bindsInBlock]
  simp only [SymbolTable.destination, hBinds]

theorem apply_congr_of_ne_leave (h : first.OpenAlike second) (table : SymbolTable) {event : Event}
    (hEvent : ∀ block, event ≠ .leave block) :
    table.apply first event = table.apply second event := by
  cases event with
  | leave block => exact absurd rfl (hEvent block)
  | enter kind block inMethod => exact enter_congr h table kind block inMethod
  | define destination identifier definition => simp only [apply, destination_congr h]
  | setStrict | use | directEval | thisExpression | bodyStart | endDeclaration | fail => rfl

theorem closeReference_congr (h : first.isModule = second.isModule) (scope : ScopeId)
    (closing : Closing) :
    closeReference first scope closing = closeReference second scope closing := by
  funext table id
  have hStays : table.staysGlobal first scope = table.staysGlobal second scope := by
    funext name
    rw [staysGlobal, staysGlobal, h]
  cases closing with
  | byName => simp only [closeReference, hStays]
  | resolving | tainting | abandoning => rfl

theorem close_congr (h : first.AnswerAlike second) (table : SymbolTable) (scope : ScopeId) :
    table.close first scope = table.close second scope := by
  simp only [close, Scope.closing, h.optimistic, closeReference_congr h.isModule]

theorem leave_congr (h : first.AnswerAlike second) (table : SymbolTable) :
    table.leave first = table.leave second := by
  simp only [leave, close_congr h]

/-- A table answers each event alike. -/
theorem apply_congr (h : first.AnswerAlike second) (table : SymbolTable) (event : Event) :
    table.apply first event = table.apply second event := by
  cases event with
  | leave block => simp only [apply, leaveAll, leave_congr h]
  | enter | setStrict | define | use | directEval | thisExpression | bodyStart | endDeclaration
  | fail => exact apply_congr_of_ne_leave h.toOpenAlike table nofun

theorem run_congr (h : first.AnswerAlike second) (table : SymbolTable) (events : List Event) :
    table.run first events = table.run second events := by
  have hApply : apply first = apply second := funext fun table => funext (apply_congr h table)
  rw [run, run, hApply]

end SymbolTable

/-- Settings that a walk reads alike, and under which the table answers alike, give
the same analysis of every program, be it a table or a failure. -/
theorem analyze_congr {first second : Settings} (hRead : first.ReadAlike second)
    (hAnswer : first.AnswerAlike second) (tree : Tree) :
    analyze first tree = analyze second tree := by
  simp only [analyze, programEvents_congr hRead, SymbolTable.run_congr hAnswer]

end Scoping
