import Chiptune.Report

/-!
# The outcome of a performance

Events never influence a result, so that what matters of a performance is its result and the random
source as it is left. Both are chained as if nothing were told on the way.

* `outcome`, with `outcome_bind`, one step of a chain;
* `bind_of_unmoved`, chains that leave the source as it was;
* `Maps`, two performances that differ in their result only.
-/

namespace Chiptune.Performance

variable {σ α β : Type}

/-- The result of a performance and the source that it leaves. -/
def outcome (performance : Performance σ α) (source : σ) : Except Fault α × σ :=
  ((performance source).1.result, (performance source).2)

@[simp] theorem outcome_pure (a : α) (source : σ) :
    (pure a : Performance σ α).outcome source = (.ok a, source) := rfl

@[simp] theorem outcome_ofReport (report : Report α) (source : σ) :
    (ofReport report).outcome source = (report.result, source) := rfl

theorem eq_of_outcome_pure {a b : α} {source source' : σ}
    (h : (pure a : Performance σ α).outcome source = (.ok b, source')) :
    a = b ∧ source = source' :=
  ⟨Except.ok.inj (congrArg Prod.fst h), congrArg Prod.snd h⟩

theorem eq_of_outcome_ofReport {report : Report α} {b : α} {source source' : σ}
    (h : (ofReport report).outcome source = (.ok b, source')) :
    report.result = .ok b ∧ source = source' :=
  ⟨congrArg Prod.fst h, congrArg Prod.snd h⟩

theorem outcome_bind (performance : Performance σ α) (next : α → Performance σ β) (source : σ) :
    (performance >>= next).outcome source =
      match performance.outcome source with
      | (.ok a, source) => (next a).outcome source
      | (.error fault, source) => (.error fault, source) := by
  show (andThen performance next).outcome source = _
  unfold andThen outcome
  cases hresult : (performance source).1.result <;> simp only [hresult]

/-- The result of a chain is the chain of the results. -/
theorem result_outcome_bind (performance : Performance σ α) (next : α → Performance σ β)
    (source : σ) :
    ((performance >>= next).outcome source).1 = (performance.outcome source).1 >>=
      fun a => ((next a).outcome (performance.outcome source).2).1 := by
  rw [outcome_bind]
  generalize performance.outcome source = first
  obtain ⟨result, between⟩ := first
  cases result <;> rfl

theorem outcome_bind_of_ok {performance : Performance σ α} {source source' : σ} {a : α}
    (h : performance.outcome source = (.ok a, source')) (next : α → Performance σ β) :
    (performance >>= next).outcome source = (next a).outcome source' := by
  rw [outcome_bind, h]

/-- A chain comes to a result by way of a result of its first part. -/
theorem outcome_bind_eq_ok {performance : Performance σ α} {next : α → Performance σ β}
    {source source' : σ} {b : β}
    (h : (performance >>= next).outcome source = (.ok b, source')) :
    ∃ a between, performance.outcome source = (.ok a, between) ∧
      (next a).outcome between = (.ok b, source') := by
  rw [outcome_bind] at h
  generalize hfirst : performance.outcome source = first at h
  obtain ⟨result, between⟩ := first
  cases result with
  | error fault => exact absurd (congrArg Prod.fst h) nofun
  | ok a => exact ⟨a, between, rfl, h⟩

/-- What comes after a performance matters only as far as its outcome. -/
theorem outcome_bind_congr (performance : Performance σ α) {next next' : α → Performance σ β}
    (h : ∀ a source, (next a).outcome source = (next' a).outcome source) (source : σ) :
    (performance >>= next).outcome source = (performance >>= next').outcome source := by
  rw [outcome_bind, outcome_bind]
  split
  · exact h _ _
  · rfl

/-- Handing a result on changes nothing. -/
theorem outcome_bind_pure (performance : Performance σ α) (source : σ) :
    (performance >>= pure).outcome source = performance.outcome source := by
  rw [outcome_bind]
  generalize performance.outcome source = outcome
  obtain ⟨result, after⟩ := outcome
  cases result <;> rfl

/-- Chains can be regrouped. -/
theorem outcome_bind_assoc {γ : Type} (performance : Performance σ α) (next : α → Performance σ β)
    (last : β → Performance σ γ) (source : σ) :
    (performance >>= next >>= last).outcome source
      = (performance >>= fun a => next a >>= last).outcome source := by
  rw [outcome_bind, outcome_bind, outcome_bind]
  generalize performance.outcome source = first
  obtain ⟨result, between⟩ := first
  cases result with
  | error fault => rfl
  | ok a => exact (outcome_bind (next a) last between).symm

/-- A chain of computations that report the same with any two sources, and leave each as it was, is
one itself. -/
theorem bind_of_unmoved {τ : Type} {first : Performance σ α} {first' : Performance τ α}
    {next : α → Performance σ β} {next' : α → Performance τ β}
    (hfirst : ∀ source other, first source = ((first' other).1, source))
    (hnext : ∀ a other, (first' other).1.result = .ok a →
      ∀ source other, next a source = ((next' a other).1, source)) (source : σ) (other : τ) :
    (first >>= next) source = (((first' >>= next') other).1, source) := by
  show andThen first next source = ((andThen first' next' other).1, source)
  unfold andThen
  have hnext := fun a => hnext a other
  rw [hfirst source other]
  generalize first' other = outcome at hnext ⊢
  obtain ⟨⟨events, result⟩, after⟩ := outcome
  cases result with
  | error fault => rfl
  | ok a =>
    simp only
    rw [hnext a rfl source after]

/-- A report leaves every source as it was, and so does what comes after it. -/
theorem bind_ofReport_of_unmoved {τ : Type} (report : Report α) {next : α → Performance σ β}
    {next' : α → Performance τ β} (hnext : ∀ a, report.result = .ok a →
      ∀ source other, next a source = ((next' a other).1, source)) (source : σ) (other : τ) :
    (ofReport report >>= next) source = (((ofReport report >>= next') other).1, source) := by
  have hreport : ∀ (source : σ) (other : τ),
      ofReport report source = ((ofReport report other).1, source) := fun _ _ => rfl
  exact bind_of_unmoved hreport (fun a _ ha => hnext a ha) source other

/-! ## Mapped results -/

/-- The second performance is the first one with its result mapped: it tells the same, draws the
same and fails alike. -/
def Maps (f : α → β) (first : Performance σ α) (second : Performance σ β) : Prop :=
  ∀ source, second source
    = (⟨(first source).1.events, (first source).1.result.map f⟩, (first source).2)

namespace Maps

variable {γ δ : Type} {f : α → β} {g : γ → δ}

theorem refl (performance : Performance σ α) : Maps id performance performance := by
  intro source
  generalize performance source = outcome
  obtain ⟨⟨events, result⟩, after⟩ := outcome
  cases result <;> rfl

theorem pure (f : α → β) (a : α) :
    Maps f (Pure.pure a : Performance σ α) (Pure.pure (f a)) := fun _ => rfl

theorem ofReport {report : Report α} {report' : Report β} (hevents : report'.events = report.events)
    (hresult : report'.result = report.result.map f) :
    Maps f (Performance.ofReport report : Performance σ α) (Performance.ofReport report') := by
  intro source
  obtain ⟨events, result⟩ := report'
  obtain rfl : events = report.events := hevents
  obtain rfl : result = report.result.map f := hresult
  rfl

/-- Chains of mapped performances are mapped. -/
theorem bind {first : Performance σ α} {first' : Performance σ β} {next : α → Performance σ γ}
    {next' : β → Performance σ δ} (hfirst : Maps f first first')
    (hnext : ∀ a, Maps g (next a) (next' (f a))) : Maps g (first >>= next) (first' >>= next') := by
  intro source
  show andThen first' next' source = _
  have hchain : (first >>= next) source = andThen first next source := rfl
  rw [hchain, andThen, andThen, hfirst source]
  generalize first source = outcome
  obtain ⟨⟨events, result⟩, between⟩ := outcome
  cases result with
  | error fault => rfl
  | ok a =>
    have hresult : (Except.ok a : Except Fault α).map f = .ok (f a) := rfl
    simp only [hresult]
    rw [hnext a between]

end Maps

end Chiptune.Performance
