import Chiptune.Fault
import Mathlib.Data.List.Forall2

/-!
# Checks in order

A computation that can fail for several causes is described by the list of its checks: it comes to
a result when all of them hold, and otherwise it ends in the fault of the first one that does not.
Where computations are chained, their checks follow one another.

* `bind_eq_ok` and `mapM_eq_ok`, the results of chains;
* `Reports`, a computation and its checks, with `Reports.bind` and `Reports.mapM`;
* `Reports.exists_ok` and `Reports.eq_error`, what the checks say.
-/

namespace Chiptune

/-- A condition, and the fault when it does not hold. -/
structure Check where
  holds : Bool
  fault : Fault

namespace Check

/-- The fault of a check that does not hold. -/
def fault? (check : Check) : Option Fault := if check.holds then none else some check.fault

/-- The fault of the first check that does not hold. -/
def firstFault (checks : List Check) : Option Fault := checks.findSome? fault?

theorem fault?_eq_none {check : Check} : check.fault? = none ↔ check.holds = true := by
  unfold fault?
  split_ifs with h <;> simp [h]

theorem fault?_eq_some {check : Check} {fault : Fault} :
    check.fault? = some fault ↔ check.holds = false ∧ check.fault = fault := by
  unfold fault?
  split_ifs with h <;> simp [h]

theorem firstFault_append (checks more : List Check) :
    firstFault (checks ++ more) = (firstFault checks).or (firstFault more) :=
  List.findSome?_append

end Check

open Check

variable {α β : Type}

/-! ## Chains -/

/-- A result that is not a fault. -/
theorem exists_eq_ok {result : Except Fault α} (h : result.toOption.isSome = true) :
    ∃ a, result = .ok a := by
  cases result with
  | error fault => exact absurd h nofun
  | ok a => exact ⟨a, rfl⟩

/-- A result that has a property. -/
theorem exists_eq_ok_of_any {ε : Type} {result : Except ε α} {p : α → Bool}
    (h : result.toOption.any p = true) : ∃ a, result = .ok a ∧ p a = true := by
  cases result with
  | error fault => exact absurd h Bool.false_ne_true
  | ok a => exact ⟨a, rfl, h⟩

theorem bind_eq_ok {result : Except Fault α} {next : α → Except Fault β} {b : β} :
    result >>= next = .ok b ↔ ∃ a, result = .ok a ∧ next a = .ok b := by
  cases result with
  | error fault => exact ⟨nofun, fun ⟨_, ha, _⟩ => absurd ha nofun⟩
  | ok a =>
    constructor
    · intro h
      exact ⟨a, rfl, h⟩
    · rintro ⟨_, ha, h⟩
      obtain rfl := Except.ok.inj ha
      exact h

/-- A computation on every element of a list has one result for each of them. -/
theorem mapM_eq_ok {f : α → Except Fault β} {xs : List α} {ys : List β} :
    xs.mapM f = .ok ys ↔ List.Forall₂ (fun x y => f x = .ok y) xs ys := by
  induction xs generalizing ys with
  | nil =>
    rw [List.mapM_nil, List.forall₂_nil_left_iff]
    exact ⟨fun h => (Except.ok.inj h).symm, fun h => congrArg _ h.symm⟩
  | cons x xs ih =>
    rw [List.mapM_cons, bind_eq_ok, List.forall₂_cons_left_iff]
    constructor
    · rintro ⟨y, hy, h⟩
      obtain ⟨rest, hrest, h⟩ := bind_eq_ok.mp h
      exact ⟨y, rest, hy, ih.mp hrest, (Except.ok.inj h).symm⟩
    · rintro ⟨y, rest, hy, hrest, rfl⟩
      exact ⟨y, hy, bind_eq_ok.mpr ⟨rest, ih.mpr hrest, rfl⟩⟩

/-! ## Reports -/

/-- The fault in which a computation ends. -/
def faultOf : Except Fault α → Option Fault
  | .ok _ => none
  | .error fault => some fault

/-- A computation fails if one of the checks does, and with the fault of the first of these. -/
def Reports (checks : List Check) (result : Except Fault α) : Prop :=
  faultOf result = firstFault checks

namespace Reports

variable {checks more : List Check} {result : Except Fault α}

/-- A result passes no checks. -/
theorem ok (a : α) : Reports [] (.ok a) := rfl

/-- Checks that hold change nothing. -/
theorem of_passed (h : ∀ check ∈ checks, check.holds = true) (hmore : Reports more result) :
    Reports (checks ++ more) result := by
  have hnone : firstFault checks = none :=
    List.findSome?_eq_none_iff.mpr fun check hcheck => fault?_eq_none.mpr (h check hcheck)
  rw [Reports, firstFault_append, hnone, Option.none_or]
  exact hmore

/-- A check that does not hold ends a computation. -/
theorem of_failed {check : Check} (h : check.holds = false) (rest : List Check) :
    Reports (check :: rest) (.error check.fault : Except Fault α) := by
  rw [Reports, firstFault, List.findSome?_cons, fault?_eq_some.mpr ⟨h, rfl⟩]
  rfl

/-- A single check. -/
theorem single {check : Check} (hok : check.holds = true → ∃ a, result = .ok a)
    (herror : check.holds = false → result = .error check.fault) : Reports [check] result := by
  cases hholds : check.holds with
  | true =>
    obtain ⟨a, rfl⟩ := hok hholds
    exact of_passed (List.forall_mem_singleton.mpr hholds) (ok a)
  | false =>
    rw [herror hholds]
    exact of_failed hholds []

/-- What comes after a computation adds its own checks. -/
theorem bind {next : α → Except Fault β} (h : Reports checks result)
    (hnext : ∀ a, result = .ok a → Reports more (next a)) :
    Reports (checks ++ more) (result >>= next) := by
  unfold Reports at h
  rw [Reports, firstFault_append, ← h]
  cases result with
  | error fault => rfl
  | ok a => exact hnext a rfl

/-- A computation on every element of a list passes the checks of all elements. -/
theorem mapM {f : α → Except Fault β} {checksOf : α → List Check} {xs : List α}
    (h : ∀ x ∈ xs, Reports (checksOf x) (f x)) : Reports (xs.flatMap checksOf) (xs.mapM f) := by
  induction xs with
  | nil => exact ok []
  | cons x xs ih =>
    rw [List.mapM_cons, List.flatMap_cons]
    refine (h x List.mem_cons_self).bind fun y _ => ?_
    rw [← List.append_nil (xs.flatMap checksOf)]
    exact (ih fun z hz => h z (List.mem_cons_of_mem x hz)).bind fun ys _ => ok (y :: ys)

/-- One check for each element of a list, where it can be read off a related list. -/
theorem forM {r : α → β → Prop} {f : β → Except Fault Unit} {check : α → Check} {xs : List α}
    {ys : List β} (hxy : List.Forall₂ r xs ys) (h : ∀ x y, r x y → Reports [check x] (f y)) :
    Reports (xs.map check) (ys.forM f) := by
  induction hxy with
  | nil => exact ok ()
  | cons hr _ ih =>
    -- the computation on a list is that on its head and then that on its tail
    exact (h _ _ hr).bind fun _ _ => ih

/-- A computation comes to a result when all checks hold. -/
theorem exists_ok (h : Reports checks result) :
    (∃ a, result = .ok a) ↔ ∀ check ∈ checks, check.holds = true := by
  have hnone : firstFault checks = none ↔ ∀ check ∈ checks, check.holds = true := by
    simp only [firstFault, List.findSome?_eq_none_iff, fault?_eq_none]
  rw [← hnone, ← h]
  cases result with
  | ok a => exact ⟨fun _ => rfl, fun _ => ⟨a, rfl⟩⟩
  | error fault => exact ⟨fun ⟨_, ha⟩ => absurd ha nofun, nofun⟩

/-- A computation ends in the fault of the first check that does not hold. -/
theorem eq_error (h : Reports checks result) (fault : Fault) :
    result = .error fault ↔ ∃ passed check rest, checks = passed ++ check :: rest ∧
      (∀ c ∈ passed, c.holds = true) ∧ check.holds = false ∧ check.fault = fault := by
  have hsome : result = .error fault ↔ firstFault checks = some fault := by
    rw [← h]
    cases result with
    | ok a => exact ⟨nofun, nofun⟩
    | error other => exact ⟨fun he => congrArg some (Except.error.inj he),
        fun he => congrArg _ (Option.some.inj he)⟩
  rw [hsome, firstFault, List.findSome?_eq_some_iff]
  constructor
  · rintro ⟨passed, check, rest, hchecks, hfault, hpassed⟩
    obtain ⟨hholds, hfault⟩ := fault?_eq_some.mp hfault
    exact ⟨passed, check, rest, hchecks, fun c hc => fault?_eq_none.mp (hpassed c hc), hholds,
      hfault⟩
  · rintro ⟨passed, check, rest, hchecks, hpassed, hholds, hfault⟩
    exact ⟨passed, check, rest, hchecks, fault?_eq_some.mpr ⟨hholds, hfault⟩,
      fun c hc => fault?_eq_none.mpr (hpassed c hc)⟩

end Reports

end Chiptune
