import Scoping.Proofs.Nesting.Mirror
import Scoping.Proofs.Placement.Directives
import Scoping.Proofs.Placement.FunctionNames
import Scoping.Proofs.Placement.Visited
import Scoping.Proofs.Table.Registry
import Scoping.Proofs.Walk.Methods
import Scoping.Proofs.Walk.Openings

/-! Which scopes of a program are strict. Each is found to be as it opens, and a
program may say of some of its own after that. -/

namespace Scoping

variable {settings : Settings} {root node : Node} {past future : List Event} {inMethod : Bool}
  {kind : ScopeKind} {block : Node}

namespace SymbolTable

variable {table : SymbolTable} {tree : Tree} {position : ScopeId} {scope : Scope}

theorem registered_of_analyze_eq_ok (hOk : analyze settings tree = .ok table) : table.Registered :=
  registered_of_run (spec_of_analyze_eq_ok hOk).2.2.2

/-- Whether a scope is strict can be told as it opens. -/
theorem opensStrict_of_run (past : List Event)
    (hRun : ({} : SymbolTable).run settings (past ++ .enter kind block inMethod :: future) =
      .ok table) :
    ∃ strict, (Trail.after settings past).opensStrict settings kind block inMethod = .ok strict := by
  obtain ⟨middle, hMiddle, hEnter⟩ := exists_run_of_append hRun
  obtain ⟨next, hNext, -⟩ := exists_of_bind_ok hEnter
  have hFollows := follows_after hMiddle
  obtain ⟨-, ⟨strict, hStrict, -⟩, -⟩ := scopes_enter hFollows.nested hNext
  exact ⟨strict, hFollows.opensStrict_eq .. ▸ hStrict⟩

/-- A scope of a program has opened before anything is visited, and every other scope
in the work at a node that is visited. -/
theorem exists_opening_cases (hOk : analyze settings tree = .ok table)
    (hScope : table.scopes[position]? = some scope) :
    (position < (programOpenings settings tree.root).countP Event.opens ∧ scope.block = tree.root) ∨
    ∃ begun flag node rest before after told, Arrives settings tree.root begun (.visit flag node) rest ∧
      Walker.tasks { settings, inMethod := flag } node =
        before ++ .emit (.enter scope.kind scope.block told) :: after ∧
      (begun ++ before.flatMap (Task.events settings)).countP Event.opens = position := by
  obtain ⟨past, future, told, hArrives, rfl⟩ := exists_opening hOk hScope
  cases hArrives with
  | @program before after task split =>
      refine .inl ⟨countP_lt_of_enter split, ?_⟩
      rcases Walker.mem_program (split ▸ List.mem_append_right _ List.mem_cons_self) with
        hSimple | ⟨_, hTask⟩ | hTask | ⟨_, _, hTask⟩
      · exact hSimple.elim
      · cases hTask
      · cases hTask
      · exact (Event.enter.inj (Task.emit.inj hTask)).2.1
  | inside visit split => exact .inr ⟨_, _, _, _, _, _, _, visit, split, rfl⟩

theorem countP_programOpenings_le (h : Arrives settings root past (.visit inMethod node) future) :
    (programOpenings settings root).countP Event.opens ≤ past.countP Event.opens :=
  h.openings_prefix.sublist.countP_le

/-- What a program has open as its first visit begins, if its directives can be read. -/
theorem exists_programTrail_of_run
    (hRun : ({} : SymbolTable).run settings (programOpenings settings root) = .ok table) :
    ∃ asks asksFunction,
      (asks = true ↔ 5 ≤ settings.edition ∧ AsksStrict .global root) ∧
      (settings.globalReturn = true →
        (asksFunction = true ↔ 5 ≤ settings.edition ∧ AsksStrict .function root)) ∧
      Trail.after settings (programOpenings settings root) =
        programTrail settings root asks asksFunction := by
  obtain ⟨asks, hAsks⟩ := opensStrict_of_run [] hRun
  obtain ⟨asksFunction, hFunction⟩ : ∃ asksFunction, settings.globalReturn = true →
      Trail.opensStrict settings (Trail.after settings [.enter .global root false, .setStrict false])
        .function root false = .ok asksFunction := by
    by_cases hReturn : settings.globalReturn = true
    · simp only [programOpenings, hReturn, if_true] at hRun
      obtain ⟨asksFunction, hFunction⟩ :=
        opensStrict_of_run [.enter .global root false, .setStrict false] hRun
      exact ⟨asksFunction, fun _ => hFunction⟩
    · exact ⟨false, fun h => absurd h hReturn⟩
  refine ⟨asks, asksFunction, ?_, fun hReturn => ?_, after_programOpenings hAsks hFunction⟩
  · simpa [Trail.after, numbered, Trail.steps] using Trail.opensStrict_eq_ok hAsks
  · simpa [Trail.after, numbered, Trail.steps, Trail.step, Trail.modifyHead] using
      Trail.opensStrict_eq_ok (hFunction hReturn)

/-- The openings of a program that is analyzed go well. -/
theorem exists_run_openings (hOk : analyze settings tree = .ok table) :
    ∃ opened, ({} : SymbolTable).run settings (programOpenings settings tree.root) = .ok opened := by
  have hRun := (spec_of_analyze_eq_ok hOk).2.2.2
  rw [programEvents_eq_openings] at hRun
  obtain ⟨opened, hOpened, -⟩ := exists_run_of_append hRun
  exact ⟨opened, hOpened⟩

/-- The finished table tells of the scopes of a program what the walk finds as it
begins to visit. -/
theorem exists_programTrail (hOk : analyze settings tree = .ok table) :
    ∃ asks asksFunction,
      (asks = true ↔ 5 ≤ settings.edition ∧ AsksStrict .global tree.root) ∧
      (settings.globalReturn = true →
        (asksFunction = true ↔ 5 ≤ settings.edition ∧ AsksStrict .function tree.root)) ∧
      ∀ frame ∈ programTrail settings tree.root asks asksFunction, ∃ scope,
        table.scopes[frame.scope]? = some scope ∧ frame.Describes scope := by
  obtain ⟨opened, hOpened⟩ := exists_run_openings hOk
  obtain ⟨asks, asksFunction, hAsks, hFunction, hTrail⟩ := exists_programTrail_of_run hOpened
  refine ⟨asks, asksFunction, hAsks, hFunction, fun frame hFrame => ?_⟩
  -- The scopes of the program are open as it ends, and nothing comes after that.
  have hSplit : Walker.program { settings } tree.root =
      ((programOpenings settings tree.root).map .emit ++ Walker.descend { settings } tree.root) ++
        .emit (.leave tree.root) :: [] := by
    rw [program_eq_openings, List.append_assoc]
  rw [← hTrail] at hFrame
  refine describes_of_emit hOk (Arrives.program hSplit) (by simp) ?_
  rw [List.flatMap_append, flatMap_events_emit, Trail.after_append_of_neutral
    Walker.neutral_descend (owned_openings settings tree.root).clear]
  exact hFrame

section Visit

variable {begun rest : List Event} {before after : List Task} {told : Bool}

end Visit

end SymbolTable

end Scoping
