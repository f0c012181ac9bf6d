/-!
# Catalogs

Things kept under names, in the order in which their names were first seen. A name stands for one
thing only: `put` replaces it, `putNew` keeps the one that is already there.
-/

namespace Chiptune

/-- Things under names, in the order of their first appearance. -/
structure Catalog (α : Type) where
  entries : List (String × α) := []
deriving DecidableEq

namespace Catalog

variable {α : Type}

/-- The thing under `name`. -/
def get? (catalog : Catalog α) (name : String) : Option α := catalog.entries.lookup name

/-- Whether `name` is taken. -/
def contains (catalog : Catalog α) (name : String) : Bool := (catalog.get? name).isSome

/-- The names in order. -/
def names (catalog : Catalog α) : List String := catalog.entries.map Prod.fst

/-- The things in the order of their names. -/
def values (catalog : Catalog α) : List α := catalog.entries.map Prod.snd

/-- The number of names. -/
def size (catalog : Catalog α) : Nat := catalog.entries.length

/-- Puts `value` under `name`, in place of what was there. -/
def put (catalog : Catalog α) (name : String) (value : α) : Catalog α :=
  if catalog.contains name then
    ⟨catalog.entries.map fun entry => if entry.1 = name then (name, value) else entry⟩
  else ⟨catalog.entries ++ [(name, value)]⟩

/-- Puts `value` under `name` unless the name is taken. -/
def putNew (catalog : Catalog α) (name : String) (value : α) : Catalog α :=
  if catalog.contains name then catalog else ⟨catalog.entries ++ [(name, value)]⟩

/-- Frees `name`. -/
def erase (catalog : Catalog α) (name : String) : Catalog α :=
  ⟨catalog.entries.filter (·.1 != name)⟩

/-- The entries in the order of their names' code points. -/
def sorted (catalog : Catalog α) : List (String × α) :=
  catalog.entries.mergeSort fun a b => decide (a.1 ≤ b.1)

end Catalog

end Chiptune
