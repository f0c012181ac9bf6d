import Chiptune.Event
import Chiptune.Fault

/-!
# Reports

A computation that can fail and tells what happens on the way. What was told before a fault stays
told. `Performance` is a report that also moves a random source on; the draws made before a fault
stay made.
-/

namespace Chiptune

/-- A result or a fault, with the events on the way to it. -/
structure Report (α : Type) where
  events : List Event
  result : Except Fault α

namespace Report

variable {α β : Type}

/-- Goes on with a result; a fault ends the report. -/
def andThen (report : Report α) (next : α → Report β) : Report β :=
  match report.result with
  | .ok a => ⟨report.events ++ (next a).events, (next a).result⟩
  | .error fault => ⟨report.events, .error fault⟩

instance : Monad Report where
  pure a := ⟨[], .ok a⟩
  bind := andThen

/-- Reports one event. -/
def tell (event : Event) : Report Unit := ⟨[event], .ok ()⟩

/-- Reports events in order. -/
def tellAll (events : List Event) : Report Unit := ⟨events, .ok ()⟩

/-- Ends in a fault. -/
def fail (fault : Fault) : Report α := ⟨[], .error fault⟩

/-- A report without events. -/
def ofExcept (result : Except Fault α) : Report α := ⟨[], result⟩

/-- A value is its own result. -/
@[simp] theorem result_pure (a : α) : (pure a : Report α).result = .ok a := rfl

/-- Results are chained as if nothing were told. -/
@[simp] theorem result_bind (report : Report α) (next : α → Report β) :
    (report >>= next).result = report.result >>= fun a => (next a).result := by
  cases report with
  | mk events result => cases result <;> rfl

end Report

/-- A report on what is done with a random source. -/
def Performance (σ α : Type) := σ → Report α × σ

namespace Performance

variable {σ α β : Type}

/-- Goes on with a result and the source as it was left; a fault ends the performance. -/
def andThen (first : Performance σ α) (next : α → Performance σ β) : Performance σ β :=
  fun source =>
  let (report, source) := first source
  match report.result with
  | .ok a =>
    let (rest, source) := next a source
    (⟨report.events ++ rest.events, rest.result⟩, source)
  | .error fault => (⟨report.events, .error fault⟩, source)

instance : Monad (Performance σ) where
  pure a := fun source => (pure a, source)
  bind := andThen

/-- A report that leaves the source alone. -/
def ofReport (report : Report α) : Performance σ α := fun source => (report, source)

instance : MonadLift Report (Performance σ) := ⟨ofReport⟩

end Performance

end Chiptune
