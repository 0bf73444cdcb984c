import Scoping.Proofs.Revision.Runs

/-! The order of the entries of an object says nothing. Only a descent into a node of
a kind that no list of fields is known for goes by it, and meets what it meets in
the order in which it is written. -/

namespace Scoping

/-- An order of the entries of each object. Where a descent goes by the order, it is
the one they had. -/
structure KeyOrder (keys : ChildKeys) where
  order : Location → List (String × Json) → List (String × Json)
  perm : ∀ location fields, (order location fields).Perm fields
  kept : ∀ location fields, keys.Iterates fields → order location fields = fields

namespace KeyOrder

variable {keys : ChildKeys} {first second fields : List (String × Json)}

/-- A name that stands once is found in any order. -/
theorem lookup_perm (h : first.Perm second) (hNames : (first.map Prod.fst).Nodup)
    (name : String) : first.lookup name = second.lookup name := by
  induction h with
  | nil => rfl
  | cons entry _ ih =>
      have hRest := (List.nodup_cons.1 hNames).2
      rw [List.lookup_cons, List.lookup_cons, ih hRest]
  | swap entry other rest =>
      obtain ⟨key, value⟩ := entry
      obtain ⟨field, item⟩ := other
      have hNe : field ≠ key := fun hEq => (List.nodup_cons.1 hNames).1 (hEq ▸ List.mem_cons_self)
      simp only [List.lookup_cons]
      by_cases hKey : name = key
      · simp only [hKey, beq_eq_false_iff_ne.2 hNe.symm]
      · simp only [beq_eq_false_iff_ne.2 hKey]
  | trans hFirst _ ihFirst ihSecond =>
      exact (ihFirst hNames).trans (ihSecond ((hFirst.map Prod.fst).nodup_iff.1 hNames))

/-- The entries of an object in their new order. An object with a name twice is none
that can be read, and stays as it is. -/
def change (order : KeyOrder keys) (location : Location) (fields : List (String × Json)) :
    List (String × Json) :=
  if (fields.map Prod.fst).Nodup then order.order location fields else fields

theorem lookup_change (order : KeyOrder keys) (location : Location)
    (fields : List (String × Json)) (name : String) :
    (order.change location fields).lookup name = fields.lookup name := by
  unfold change
  split
  · next hNames => exact (lookup_perm (order.perm location fields).symm hNames name).symm
  · rfl

def revision (order : KeyOrder keys) : Revision keys where
  change := order.change
  lookup_change location fields name _ := order.lookup_change location fields name
  names_change location fields hIterates := by
    unfold change
    rw [order.kept location fields hIterates, ite_self]

theorem keepsAll_revision (order : KeyOrder keys) (node : Node) : order.revision.KeepsAll node :=
  fun name => order.lookup_change _ _ name

end KeyOrder

variable {settings : Settings} {value : Json} {tree : Tree}

/-- The entries of objects may come in any order, all but those of a node that a descent
goes through by their order. The document is then still a tree, and its analysis fails in
the same way, or gives the same table with the nodes in their new order. -/
theorem analyze_of_keyOrder (order : KeyOrder settings.keys) (hTree : Tree.ofJson? value = .ok tree) :
    Tree.ofJson? (order.revision.json [] value) = .ok (order.revision.tree tree) ∧
      analyze settings (order.revision.tree tree) =
        (analyze settings tree).map order.revision.table := by
  have hTyped := Node.isTyped_of_ofJson? (Tree.ofJson?_eq_ok hTree)
  refine ⟨Revision.ofJson?_tree hTree, Revision.analyze_tree hTyped ?_ fun _ _ _ _ _ => ?_⟩ <;>
    exact order.keepsAll_revision _

namespace KeyOrder

/-- Every object with its entries backwards, unless their order counts. -/
def backwards (keys : ChildKeys) : KeyOrder keys where
  order _ fields := if keys.Iterates fields then fields else fields.reverse
  perm _ fields := by
    split
    · exact .refl fields
    · exact fields.reverse_perm
  kept _ fields h := if_pos h

/-- The program `f(x, …)`, where `…` is a node of an unknown kind that holds `y` and `x`. -/
def unknownArgument : Tree where
  root := {
    location := []
    kind := "Program"
    entries := [("type", .string "Program"), ("body", .array [
      .object [("type", .string "ExpressionStatement"), ("expression",
        .object [("type", .string "CallExpression"), ("callee", identifier "f"),
          ("arguments", .array [identifier "x",
            .object [("type", .string "Unknown"), ("second", identifier "y"),
              ("first", identifier "x")]])])]])] }
where
  identifier (name : String) : Json :=
    .object [("type", .string "Identifier"), ("name", .string name)]

/-- The identifiers have their entries backwards, and so has the call. The names are used
in the order in which they were. -/
theorem analyze_of_keyOrder_unknownArgument :
    ∃ table : SymbolTable,
      Tree.ofJson? (.object unknownArgument.root.entries) = .ok unknownArgument ∧
      analyze ⟨{}, 9⟩ unknownArgument = .ok table ∧
      table.references.map (fun reference => reference.identifier.name) = #["f", "x", "y", "x"] ∧
      analyze ⟨{}, 9⟩ ((backwards (Settings.mk {} 9).keys).revision.tree unknownArgument) =
        .ok ((backwards (Settings.mk {} 9).keys).revision.table table) := by
  have hNames : (analyze ⟨{}, 9⟩ unknownArgument).toOption.map
      (fun table => table.references.map fun reference => reference.identifier.name) =
        some #["f", "x", "y", "x"] := by
    decide +kernel
  obtain ⟨table, hOk, hFound⟩ := exists_of_map_toOption _ hNames
  obtain ⟨-, hAgain⟩ := @analyze_of_keyOrder ⟨{}, 9⟩ (.object unknownArgument.root.entries)
    unknownArgument (backwards _) rfl
  rw [hOk] at hAgain
  exact ⟨table, rfl, hOk, hFound, hAgain⟩

end KeyOrder

end Scoping
