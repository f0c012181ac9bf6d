import Chiptune.Catalog
import Mathlib.Tactic.Common

/-!
# Names in a catalog

A name is in a catalog if there is an entry for it, and putting something under a new name adds one
entry at the end. Under a name that is taken, it replaces what was there or gives way to it. A
catalog can be mapped without regard to the order of its entries.
-/

namespace Chiptune.Catalog

variable {α : Type}

theorem contains_iff {catalog : Catalog α} {name : String} :
    catalog.contains name = true ↔ name ∈ catalog.names := by
  simp [contains, get?, names]

/-- What is under a name is one of the entries. -/
theorem mem_of_get?_eq_some {catalog : Catalog α} {name : String} {value : α}
    (h : catalog.get? name = some value) : (name, value) ∈ catalog.entries := by
  obtain ⟨before, after, hentries, -⟩ := List.lookup_eq_some_iff.mp h
  rw [hentries]
  simp

/-- Where no name has two entries, every entry is what is under its name. -/
theorem get?_of_nodup {catalog : Catalog α} (h : catalog.names.Nodup) {name : String} {value : α}
    (hmem : (name, value) ∈ catalog.entries) : catalog.get? name = some value := by
  obtain ⟨before, after, hentries⟩ := List.append_of_mem hmem
  rw [names, hentries, List.map_append, List.nodup_append] at h
  refine List.lookup_eq_some_iff.mpr ⟨before, after, hentries, fun entry hentry => ?_⟩
  rw [bne_iff_ne]
  exact (h.2.2 _ (List.mem_map_of_mem hentry) name (by simp)).symm

/-- A name is new where it differs from all names that are there. -/
theorem contains_of_nodup {catalog : Catalog α} {name : String} {others : List String}
    (h : (catalog.names ++ name :: others).Nodup) : catalog.contains name = false := by
  rw [← Bool.not_eq_true, contains_iff]
  intro hmem
  exact (List.nodup_append.mp h).2.2 name hmem name List.mem_cons_self rfl

/-- A catalog that holds all names of a list has a value for each of them. -/
theorem exists_values {catalog : Catalog α} {names : List String}
    (h : ∀ name ∈ names, catalog.contains name = true) :
    ∃ values : List α, names.map catalog.get? = values.map some := by
  induction names with
  | nil => exact ⟨[], rfl⟩
  | cons name names ih =>
    obtain ⟨hname, hnames⟩ := List.forall_mem_cons.mp h
    obtain ⟨value, hvalue⟩ := Option.isSome_iff_exists.mp hname
    obtain ⟨values, hvalues⟩ := ih hnames
    exact ⟨value :: values, List.cons_eq_cons.mpr ⟨hvalue, hvalues⟩⟩

/-- What is added behind a name that is taken is not found under it. -/
theorem get?_append_of_contains {entries rest : List (String × α)} {name : String}
    (h : (⟨entries⟩ : Catalog α).contains name = true) :
    (⟨entries ++ rest⟩ : Catalog α).get? name = (⟨entries⟩ : Catalog α).get? name := by
  obtain ⟨value, hvalue⟩ := Option.isSome_iff_exists.mp h
  have hlookup : entries.lookup name = some value := hvalue
  show (entries ++ rest).lookup name = entries.lookup name
  rw [List.lookup_append, hlookup, Option.some_or]

theorem entries_put_of_new {catalog : Catalog α} {name : String}
    (h : catalog.contains name = false) (value : α) :
    (catalog.put name value).entries = catalog.entries ++ [(name, value)] := by
  rw [put, if_neg (by simp [h])]

/-- A new name is taken afterwards, and no other one. -/
theorem contains_put_of_new {catalog : Catalog α} {name : String}
    (h : catalog.contains name = false) (value : α) (other : String) :
    (catalog.put name value).contains other = (catalog.contains other || other == name) := by
  rw [Bool.eq_iff_iff, contains_iff, Bool.or_eq_true, contains_iff, beq_iff_eq, names, names,
    entries_put_of_new h, List.map_append, List.mem_append, List.map_singleton,
    List.mem_singleton]

/-! ## Mapped catalogs -/

variable {β : Type}

/-- The catalog with another thing under each of its names. -/
def map (f : String → α → β) (catalog : Catalog α) : Catalog β :=
  ⟨catalog.entries.map fun entry => (entry.1, f entry.1 entry.2)⟩

theorem get?_map (f : String → α → β) (catalog : Catalog α) (name : String) :
    (catalog.map f).get? name = (catalog.get? name).map (f name) := by
  obtain ⟨entries⟩ := catalog
  show (entries.map fun entry => (entry.1, f entry.1 entry.2)).lookup name = _
  rw [get?]
  induction entries with
  | nil => rfl
  | cons entry entries ih =>
    rw [List.map_cons, List.lookup_cons, List.lookup_cons]
    cases hname : name == entry.1 with
    | true =>
      rw [eq_of_beq hname]
      rfl
    | false => exact ih

theorem contains_map (f : String → α → β) (catalog : Catalog α) (name : String) :
    (catalog.map f).contains name = catalog.contains name := by
  rw [contains, contains, get?_map, Option.isSome_map]

theorem map_put (f : String → α → β) (catalog : Catalog α) (name : String) (value : α) :
    (catalog.put name value).map f = (catalog.map f).put name (f name value) := by
  rw [put, put, contains_map]
  split_ifs
  · show Catalog.mk _ = Catalog.mk _
    rw [map, List.map_map, List.map_map]
    congr 1
    refine List.map_congr_left fun entry _ => ?_
    rw [Function.comp_apply, Function.comp_apply]
    split_ifs <;> rfl
  · rw [map, List.map_append]
    rfl

/-! ## Putting -/

/-- Putting something under a new name is all the same whether a taken one would be kept. -/
theorem put_of_new {catalog : Catalog α} {name : String} (h : catalog.contains name = false)
    (value : α) : catalog.put name value = catalog.putNew name value := by
  rw [put, putNew, h]
  rfl

/-- Putting something under a name that is taken changes what is under it, and nothing else. -/
theorem put_of_taken {catalog : Catalog α} {name : String} (h : catalog.contains name = true)
    (value : α) :
    catalog.put name value = catalog.map fun other old => if other = name then value else old := by
  rw [put, if_pos h, map]
  refine congrArg Catalog.mk (List.map_congr_left fun entry _ => ?_)
  split_ifs with hentry
  · rw [hentry]
  · rfl

theorem get?_putNew (catalog : Catalog α) (name : String) (value : α) (other : String) :
    (catalog.putNew name value).get? other
      = (catalog.get? other).or (if other = name then some value else none) := by
  rw [putNew]
  split_ifs with htaken hother hother
  · subst hother
    obtain ⟨old, hold⟩ := Option.isSome_iff_exists.mp htaken
    rw [hold, Option.some_or]
  · rw [Option.or_none]
  · subst hother
    rw [get?, List.lookup_append, List.lookup_cons_self, ← get?]
  · rw [get?, List.lookup_append, List.lookup_cons, beq_eq_false_iff_ne.mpr hother]
    rfl

theorem nodup_names_putNew {catalog : Catalog α} (h : catalog.names.Nodup) (name : String)
    (value : α) : (catalog.putNew name value).names.Nodup := by
  rw [putNew]
  split_ifs with htaken
  · exact h
  · have hnew : name ∉ catalog.names := fun hname => htaken (contains_iff.mpr hname)
    rw [names, List.map_append, List.map_singleton]
    refine List.nodup_append.mpr ⟨h, by simp, fun other hother last hlast hsame => ?_⟩
    obtain rfl := List.mem_singleton.mp hlast
    exact hnew (hsame ▸ hother)

theorem get?_put (catalog : Catalog α) (name : String) (value : α) (other : String) :
    (catalog.put name value).get? other
      = if other = name then some value else catalog.get? other := by
  cases htaken : catalog.contains name with
  | true =>
    obtain ⟨old, hold⟩ := Option.isSome_iff_exists.mp htaken
    rw [put_of_taken htaken, get?_map]
    split_ifs with hother
    · rw [hother, hold]
      rfl
    · exact Option.map_id'
  | false =>
    rw [put_of_new htaken, get?_putNew]
    split_ifs with hother
    · have hnone := Option.isNone_iff_eq_none.mp (Option.isSome_eq_false_iff.mp htaken)
      rw [hother, hnone, Option.none_or]
    · exact Option.or_none

theorem nodup_names_put {catalog : Catalog α} (h : catalog.names.Nodup) (name : String)
    (value : α) : (catalog.put name value).names.Nodup := by
  cases htaken : catalog.contains name with
  | true =>
    rw [put_of_taken htaken, names, map, List.map_map]
    exact h
  | false =>
    rw [put_of_new htaken]
    exact nodup_names_putNew h name value

end Chiptune.Catalog
