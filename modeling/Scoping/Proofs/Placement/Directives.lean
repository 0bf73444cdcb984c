import Scoping.Proofs.Reordering.Statements
import Scoping.Proofs.Table.Closing
import Scoping.Proofs.Walk.Trail

/-! When the directives at the head of a body ask for strict code, and when a scope is
found to be strict as it opens. -/

namespace Scoping

namespace Node

instance (node : Node) : Decidable node.IsDirective :=
  decidable_of_iff (node.kind = "ExpressionStatement" ∧
    ((node.text? "directive").isSome = true ∨ (node.child? "expression").any (fun expression =>
      expression.kind = "Literal" && (expression.text? "value").isSome) = true))
    (by simp [IsDirective, Option.any_eq_true])

/-- The directives at the head of a body. -/
def prologue (body : Node) : List Node :=
  (body.children "body").takeWhile fun node => node.IsDirective

/-- One of the directives at the head of a body asks for strict code. -/
def UsesStrict (body : Node) : Prop :=
  ∃ node ∈ body.prologue, node.directive? = .ok (some "use strict")

/-- The node that holds the statements of a function. A program is its own. -/
def functionBody? (function : Node) : Option Node :=
  if function.kind = "Program" then some function else function.child? "body"

/-- An arrow function that gives the value of an expression. -/
def IsExpressionArrow (function : Node) : Prop :=
  function.kind = "ArrowFunctionExpression" ∧
    ∃ body, function.child? "body" = some body ∧ body.kind ≠ "BlockStatement"

theorem directive?_ne_none {node : Node} (h : node.IsDirective) : node.directive? ≠ .ok none := by
  obtain ⟨hKind, hText⟩ := h
  unfold directive?
  rw [if_neg (not_not.2 hKind)]
  cases hDirective : node.text? "directive" with
  | some text => exact nofun
  | none =>
      rw [hDirective] at hText
      obtain ⟨expression, hChild, hLiteral, hValue⟩ := hText.resolve_left nofun
      obtain ⟨value, hSome⟩ := Option.isSome_iff_exists.1 hValue
      simp only [hChild, hLiteral, hSome]
      intro hNone
      obtain ⟨raw, -, hEnd⟩ := exists_of_bind_ok hNone
      cases hEnd

theorem prologueIsStrict_eq_ok {nodes : List Node} {strict : Bool}
    (h : prologueIsStrict nodes = .ok strict) :
    strict = true ↔ ∃ node ∈ nodes.takeWhile (fun node => node.IsDirective),
      node.directive? = .ok (some "use strict") := by
  induction nodes with
  | nil =>
      cases h
      simp
  | cons node rest ih =>
      obtain ⟨text, hText, hRest⟩ := exists_of_bind_ok h
      rw [List.takeWhile_cons]
      by_cases hDirective : node.IsDirective
      · rw [if_pos (decide_eq_true hDirective)]
        cases text with
        | none => exact absurd hText (directive?_ne_none hDirective)
        | some text =>
            dsimp only at hRest
            split at hRest
            · next hStrict =>
                subst hStrict
                cases hRest
                exact iff_of_true rfl ⟨node, List.mem_cons_self, hText⟩
            · next hOther =>
                rw [ih hRest, List.exists_mem_cons_iff, hText, Except.ok.injEq, Option.some.injEq]
                exact (or_iff_right hOther).symm
      · rw [if_neg (by simpa using hDirective)]
        cases (directive?_of_not_isDirective hDirective).symm.trans hText
        cases hRest
        simp

theorem saysStrict_eq_ok {body : Node} {strict : Bool} (h : body.saysStrict = .ok strict) :
    strict = true ↔ body.UsesStrict :=
  prologueIsStrict_eq_ok h

end Node

namespace SymbolTable

theorem hasExpressionBody_eq_ok {node : Node} {expression : Bool}
    (h : hasExpressionBody node = .ok expression) : expression = true ↔ node.IsExpressionArrow := by
  unfold hasExpressionBody at h
  split at h
  · next hKind =>
      obtain ⟨body, hBody, hEnd⟩ := exists_of_bind_ok h
      cases hEnd
      unfold Node.child at hBody
      split at hBody
      · next child hChild =>
          cases hBody
          simp [Node.IsExpressionArrow, hKind, hChild]
      · cases hBody
  · next hKind =>
      cases h
      simp [Node.IsExpressionArrow, hKind]

/-- The directives that count for a scope ask for strict code. -/
def AsksStrict (kind : ScopeKind) (block : Node) : Prop :=
  (kind = .function ∧ ¬ block.IsExpressionArrow ∧
      ∃ body, block.functionBody? = some body ∧ body.UsesStrict) ∨
    (kind = .global ∧ block.UsesStrict)

theorem strictByDirective_eq_ok {kind : ScopeKind} {block : Node} {strict : Bool}
    (h : strictByDirective kind block = .ok strict) : strict = true ↔ AsksStrict kind block := by
  unfold AsksStrict
  cases kind with
  | global => simpa using Node.saysStrict_eq_ok h
  | function =>
      obtain ⟨expression, hExpression, hRest⟩ := exists_of_bind_ok h
      have hArrow := hasExpressionBody_eq_ok hExpression
      have hBody : strict = true ↔ expression = false ∧
          ∃ body, block.functionBody? = some body ∧ body.UsesStrict := by
        unfold Node.functionBody?
        cases expression with
        | true =>
            cases hRest
            simp
        | false =>
            rw [if_neg Bool.false_ne_true] at hRest
            split at hRest
            · next hProgram => simpa [hProgram] using Node.saysStrict_eq_ok hRest
            · next hProgram =>
                rw [if_neg hProgram]
                split at hRest
                · next body hChild => simpa [hChild] using Node.saysStrict_eq_ok hRest
                · next hNone =>
                    cases hRest
                    simp [hNone]
      simp [hBody, ← hArrow]
  | _ =>
      cases h
      simp

end SymbolTable

/-- A scope is strict as it opens if the scope around it is, if it is told so, by its
kind, or by directives. -/
theorem Trail.opensStrict_eq_ok {settings : Settings} {trail : Trail} {kind : ScopeKind}
    {block : Node} {inMethod strict : Bool}
    (h : trail.opensStrict settings kind block inMethod = .ok strict) :
    strict = true ↔ 5 ≤ settings.edition ∧ ((∃ head ∈ trail.head?, head.strict = true) ∨
      inMethod = true ∨ kind ∈ [.classBody, .esModule] ∨ SymbolTable.AsksStrict kind block) := by
  unfold Trail.opensStrict Settings.knowsStrict at h
  split at h
  · next hEdition =>
      cases h
      simp_all
  · next hEdition =>
      have hKnows : 5 ≤ settings.edition := by simpa using hEdition
      rw [and_iff_right hKnows]
      split at h
      · next hUpper =>
          cases h
          exact iff_of_true rfl (.inl ((Option.any_eq_true _ _).1 hUpper))
      · next hUpper =>
          rw [or_iff_right fun ⟨head, hHead, hStrict⟩ =>
            hUpper ((Option.any_eq_true _ _).2 ⟨head, hHead, hStrict⟩)]
          split at h
          · next hTold =>
              cases h
              simp only [Bool.or_eq_true, decide_eq_true_eq, or_assoc] at hTold
              simp only [true_iff]
              rcases hTold with hTold | rfl | rfl
              · exact .inl hTold
              · exact .inr (.inl (by decide))
              · exact .inr (.inl (by decide))
          · next hTold =>
              simp only [Bool.or_eq_true, decide_eq_true_eq, not_or, and_assoc] at hTold
              rw [SymbolTable.strictByDirective_eq_ok h]
              simp [hTold]

end Scoping
