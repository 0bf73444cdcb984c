import Scoping.Proofs.Table.Answering
import Scoping.Proofs.Table.Closing

/-! The edition matters only by band: 3, 5, and from 6 on. Neither a walk nor the
symbol table asks for more than whether strict code is known, whether blocks have
scopes, and where a function in a block has its name. -/

namespace Scoping

/-- Two editions between which nothing has changed for the scopes of a program. -/
def Edition.SameBand (first second : Edition) : Prop :=
  (first = 3 ∧ second = 3) ∨ (first = 5 ∧ second = 5) ∨
    ((6 ≤ first ∧ first ≤ Edition.latest) ∧ 6 ≤ second ∧ second ≤ Edition.latest)

instance (first second : Edition) : Decidable (first.SameBand second) :=
  inferInstanceAs (Decidable (_ ∨ _))

namespace Edition.SameBand

variable {early late : Edition}

theorem six_le_iff (h : SameBand early late) : 6 ≤ early ↔ 6 ≤ late := by
  rcases h with ⟨rfl, rfl⟩ | ⟨rfl, rfl⟩ | ⟨⟨hEarly, -⟩, hLate, -⟩
  · exact Iff.rfl
  · exact Iff.rfl
  · exact iff_of_true hEarly hLate

theorem five_le_iff (h : SameBand early late) : 5 ≤ early ↔ 5 ≤ late := by
  rcases h with ⟨rfl, rfl⟩ | ⟨rfl, rfl⟩ | ⟨⟨hEarly, -⟩, hLate, -⟩
  · exact Iff.rfl
  · exact Iff.rfl
  · exact iff_of_true (Nat.le_of_succ_le hEarly) (Nat.le_of_succ_le hLate)

theorem bindsInBlock_eq (h : SameBand early late) (policy : BlockFunctions) :
    policy.bindsInBlock early = policy.bindsInBlock late := by
  funext strict
  simp only [BlockFunctions.bindsInBlock, ← Nat.not_le, h.six_le_iff]

end Edition.SameBand

variable {first second : Options} {early late : Edition}

theorem Settings.readAlike_of_sameBand (h : Edition.SameBand early late) (options : Options)
    (version : Nat) :
    Settings.ReadAlike ⟨options, early⟩ ⟨{ options with ecmaVersion := version }, late⟩ where
  keys := rfl
  isModule := rfl
  globalReturn := rfl
  knowsStrict := decide_eq_decide.2 h.five_le_iff
  hasBlockScopes := decide_eq_decide.2 h.six_le_iff
  impliedStrict := rfl
  ignoreEval := rfl

theorem Settings.answerAlike_of_sameBand (h : Edition.SameBand early late) (options : Options)
    (version : Nat) :
    Settings.AnswerAlike ⟨options, early⟩ ⟨{ options with ecmaVersion := version }, late⟩ where
  isModule := rfl
  knowsStrict := decide_eq_decide.2 h.five_le_iff
  optimistic := rfl
  bindsInBlock := h.bindsInBlock_eq options.blockFunctions

/-- Options that agree with one another: a module is of edition 6 or later, and not the body
of a function. -/
theorem Settings.exists_of_ofOptions?_eq_ok {settings : Settings}
    (hOk : Settings.ofOptions? first = .ok settings) :
    ∃ edition, Edition.ofVersion? first.ecmaVersion = some edition ∧
      (first.sourceType = .esModule → 6 ≤ edition ∧ first.globalReturn = false) ∧
      settings = ⟨first, edition⟩ := by
  unfold ofOptions? at hOk
  split at hOk
  · cases hOk
  · next edition hVersion =>
      split at hOk
      · cases hOk
      · next hEarly =>
          split at hOk <;> cases hOk
          next hReturn =>
            exact ⟨edition, hVersion, fun hModule => ⟨Nat.le_of_not_lt fun hLt => hEarly ⟨hModule, hLt⟩,
              Bool.eq_false_iff.2 fun hReturns => hReturn ⟨hModule, hReturns⟩⟩, rfl⟩

theorem Settings.eq_of_ofOptions?_eq_ok {settings : Settings}
    (hVersion : Edition.ofVersion? first.ecmaVersion = some early)
    (hOk : Settings.ofOptions? first = .ok settings) : settings = ⟨first, early⟩ := by
  obtain ⟨edition, hSame, -, rfl⟩ := exists_of_ofOptions?_eq_ok hOk
  cases hSame.symm.trans hVersion
  rfl

/-- Options of one band agree with one another, or are rejected for the same reason. -/
theorem Settings.ofOptions?_of_sameBand (h : Edition.SameBand early late) (options : Options)
    (version : Nat) (hEarly : Edition.ofVersion? options.ecmaVersion = some early)
    (hLate : Edition.ofVersion? version = some late) :
    Settings.ofOptions? { options with ecmaVersion := version } =
      (Settings.ofOptions? options).map fun _ => ⟨{ options with ecmaVersion := version }, late⟩ := by
  simp only [ofOptions?, hEarly, hLate, ← Nat.not_le, h.six_le_iff]
  split
  · rfl
  · split <;> rfl

/-- Options that differ only in the version, by editions of one band, are rejected
alike, or give settings with the same flags and the same analysis of every program. -/
theorem analyze_eq_of_sameBand (hBand : Edition.SameBand early late)
    (hEarly : Edition.ofVersion? first.ecmaVersion = some early)
    (hLate : Edition.ofVersion? second.ecmaVersion = some late)
    (hAgree : { first with ecmaVersion := second.ecmaVersion } = second) :
    (∃ rejection, Settings.ofOptions? first = .error rejection ∧
      Settings.ofOptions? second = .error rejection) ∨
    (Settings.ofOptions? first = .ok ⟨first, early⟩ ∧
      Settings.ofOptions? second = .ok ⟨second, late⟩ ∧
      Settings.ReadAlike ⟨first, early⟩ ⟨second, late⟩ ∧
      ∀ tree, analyze ⟨first, early⟩ tree = analyze ⟨second, late⟩ tree) := by
  have hRead := Settings.readAlike_of_sameBand hBand first second.ecmaVersion
  have hAnswer := Settings.answerAlike_of_sameBand hBand first second.ecmaVersion
  have hOptions := Settings.ofOptions?_of_sameBand hBand first second.ecmaVersion hEarly hLate
  rw [hAgree] at hRead hAnswer hOptions
  cases hFirst : Settings.ofOptions? first with
  | error rejection => exact .inl ⟨rejection, rfl, by rw [hOptions, hFirst]; rfl⟩
  | ok settings =>
      obtain rfl : settings = ⟨first, early⟩ := Settings.eq_of_ofOptions?_eq_ok hEarly hFirst
      refine .inr ⟨rfl, by rw [hOptions, hFirst]; rfl, hRead, analyze_congr hRead hAnswer⟩

/-- The program `{ function f() {} }`. -/
def functionInBlock : Tree where
  root := {
    location := []
    kind := "Program"
    entries := [("type", .string "Program"), ("body", .array [block [.object [
      ("type", .string "FunctionDeclaration"),
      ("id", .object [("type", .string "Identifier"), ("name", .string "f")]),
      ("params", .array []), ("body", block [])]]])] }
where
  block (body : List Json) : Json :=
    .object [("type", .string "BlockStatement"), ("body", .array body)]

/-- By number or by year, what has block scopes gives four scopes here. -/
theorem analyze_eq_of_sameBand_functionInBlock :
    ∃ table, analyze ⟨{ ecmaVersion := 6 }, 6⟩ functionInBlock = .ok table ∧
      analyze ⟨{ ecmaVersion := 2025 }, 16⟩ functionInBlock = .ok table ∧
      table.scopes.map Scope.kind = #[.global, .block, .function, .block] := by
  have hAnalyze : (analyze ⟨{ ecmaVersion := 6 }, 6⟩ functionInBlock).toOption.map
      (fun table => table.scopes.map Scope.kind) =
        some #[.global, .block, .function, .block] := by
    decide +kernel
  obtain ⟨table, hOk, hKinds⟩ := exists_of_map_toOption _ hAnalyze
  obtain ⟨rejection, hRejected, -⟩ | ⟨-, -, -, hSame⟩ :=
    @analyze_eq_of_sameBand { ecmaVersion := 6 } { ecmaVersion := 2025 } 6 16 (by decide) rfl rfl
      rfl
  · cases hRejected
  · exact ⟨table, hOk, (hSame functionInBlock).symm.trans hOk, hKinds⟩

end Scoping
