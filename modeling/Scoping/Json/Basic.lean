namespace Scoping

/-- A number of a document: an integer of at most 64 bits, or else a double. -/
inductive Number where
  | int (value : Int)
  | float (value : Float)
  deriving Repr, BEq, Inhabited

/-- A JSON value. An object keeps its entries in written order, which decides
the order of a descent into a node of unknown kind. -/
inductive Json where
  | null
  | bool (value : Bool)
  | number (value : Number)
  | string (value : String)
  | array (items : List Json)
  | object (entries : List (String × Json))
  deriving Inhabited

namespace Json

/-- The value of an entry, for an object that has one of this name. -/
def field? : Json → String → Option Json
  | .object entries, name => entries.lookup name
  | _, _ => none

def bool? : Json → Option Bool
  | .bool value => some value
  | _ => none

def string? : Json → Option String
  | .string value => some value
  | _ => none

/-- A nonnegative integer. A double is never one, whatever its value. -/
def nat? : Json → Option Nat
  | .number (.int (.ofNat value)) => some value
  | _ => none

def array? : Json → Option (List Json)
  | .array items => some items
  | _ => none

def object? : Json → Option (List (String × Json))
  | .object entries => some entries
  | _ => none

/-- Entries with one more value. A name that is already there keeps its place
and takes the new value. -/
def insertEntry (name : String) (value : Json) :
    List (String × Json) → List (String × Json)
  | [] => [(name, value)]
  | (key, old) :: rest =>
      if key = name then (key, value) :: rest else (key, old) :: insertEntry name value rest

theorem lookup_insertEntry (name : String) (value : Json) (entries : List (String × Json)) :
    (insertEntry name value entries).lookup name = some value := by
  induction entries with
  | nil => simp [insertEntry]
  | cons entry rest ih =>
      obtain ⟨key, old⟩ := entry
      by_cases h : key = name
      · simp [insertEntry, h]
      · have hne : (name == key) = false := by simpa using fun hn => h hn.symm
        simp [insertEntry, h, List.lookup_cons, hne, ih]

theorem sizeOf_lookup_lt {name : String} {value : Json} {entries : List (String × Json)}
    (h : entries.lookup name = some value) : sizeOf value < sizeOf entries := by
  induction entries with
  | nil => simp at h
  | cons entry rest ih =>
      obtain ⟨key, old⟩ := entry
      rw [List.lookup_cons] at h
      split at h
      · cases h
        simp only [List.cons.sizeOf_spec, Prod.mk.sizeOf_spec]
        omega
      · have := ih h
        simp only [List.cons.sizeOf_spec]
        omega

end Json

end Scoping
