import Scoping.Proofs.Resolution.Leftover
import Scoping.Proofs.Resolution.Reordering

/-! Uses of one name that find the same scopes open. Every scope around them rules
the same for all of them. -/

namespace Scoping.SymbolTable

variable {settings : Settings} {history : List Entry} {table : SymbolTable} {entry other : Entry}
  {frame : Frame} {use again : Use} {scope : ScopeId} {id : ReferenceId}

/-- A scope rules by the name of a use, and by how often the bodies of functions had
begun as it came. -/
theorem Chronicle.verdict_eq (h : Chronicle settings history table []) (hEntry : entry ∈ history)
    (hOther : other ∈ history) (hSame : entry.1 = other.1) (hRecords : entry.Records frame use)
    (hAgain : other.Records frame again) (hName : use.identifier.name = again.identifier.name)
    (hScope : scope ∈ table.enclosing frame.scope) :
    table.verdict settings scope entry.2.number = table.verdict settings scope other.2.number := by
  obtain ⟨reference, hReference, hUse, -⟩ := h.recordings.recorded entry hEntry frame use hRecords
  obtain ⟨found, hFound, hUsed, -⟩ := h.recordings.recorded other hOther frame again hAgain
  have hNames : found.identifier.name = reference.identifier.name := by
    rw [hUse, hUsed, Use.identifier_under, Use.identifier_under, hName]
  rw [h.surrounded entry hEntry frame hRecords.current] at hScope
  obtain ⟨around, hAround, rfl⟩ := List.mem_map.1 hScope
  obtain ⟨owner, hOwner, -⟩ := h.openings.frames entry hEntry around hAround
  obtain ⟨last, hLast, hLastScope⟩ := h.recounts.shown _ owner hOwner
  -- What the body of a function hides from one of them it hides from the other.
  have hHides : ∀ var declared, table.ownVariable? around.scope reference.identifier.name =
      some (var, declared) → (owner.HidesUntilBody entry.2.number declared ↔
        owner.HidesUntilBody other.2.number declared) := fun var declared hOwn => by
    rw [h.hidesUntilBody_iff hEntry hRecords.records hAround hLast hLastScope hOwner hOwn,
      h.hidesUntilBody_iff hOther hAgain.records (hSame ▸ hAround) hLast hLastScope hOwner hOwn]
  simp only [verdict, hOwner, hReference, hFound, hNames]
  cases hOwn : table.ownVariable? around.scope reference.identifier.name with
  | none => rfl
  | some own =>
      obtain ⟨var, declared⟩ := own
      simp only [hHides var declared hOwn]

/-- They come to the global scope together. -/
theorem Chronicle.leaves_of_alike (h : Chronicle settings history table []) (hEntry : entry ∈ history)
    (hOther : other ∈ history) (hSame : entry.1 = other.1) (hRecords : entry.Records frame use)
    (hAgain : other.Records frame again) (hName : use.identifier.name = again.identifier.name)
    (hLeaves : Leaves settings table entry.2.number) : Leaves settings table other.2.number := by
  obtain ⟨reference, hReference, hOut⟩ := hLeaves
  obtain ⟨same, hFound, -, hScope⟩ := h.recordings.recorded entry hEntry frame use hRecords
  cases hFound.symm.trans hReference
  obtain ⟨found, hAlso, -, hHome⟩ := h.recordings.recorded other hOther frame again hAgain
  refine ⟨found, hAlso, fun scope hMem => ?_⟩
  rw [hHome] at hMem
  rw [← h.verdict_eq hEntry hOther hSame hRecords hAgain hName ((List.dropLast_subset _) hMem)]
  exact hOut scope (hScope ▸ hMem)

end Scoping.SymbolTable
