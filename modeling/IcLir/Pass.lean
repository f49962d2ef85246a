import IcLir.Diagnostic.Defect

/-
  Passes over a program: they read and extend a state, and stop at the first error. What a
  pass had recorded before it stopped stays recorded.
-/

namespace IcLir

abbrev Pass (σ : Type) := EStateM CompileError σ

namespace Pass

variable {σ α β : Type}

def reject (cause : Cause) (token : String) (span : Span) : Pass σ α :=
  throw (.rejected ⟨cause, token, span⟩)

def fail (defect : Defect) : Pass σ α := throw (.defect defect)

/-- Rejects the program unless `holds`. -/
def require (holds : Bool) (cause : Cause) (token : String) (span : Span) : Pass σ Unit :=
  if holds then pure () else reject cause token span

/-- The value of an optional result that an earlier stage has promised. -/
def promised (value : Option α) (defect : Defect) : Pass σ α :=
  match value with
  | some a => pure a
  | none => fail defect

theorem bind_eq_ok {x : Pass σ α} {f : α → Pass σ β} {s t : σ} {b : β} :
    (x >>= f) s = .ok b t ↔ ∃ a u, x s = .ok a u ∧ f a u = .ok b t := by
  change EStateM.bind x f s = _ ↔ _
  unfold EStateM.bind
  cases x s with
  | ok a u => simp [and_assoc]
  | error e u => simp

theorem bind_eq_error {x : Pass σ α} {f : α → Pass σ β} {s t : σ} {e : CompileError} :
    (x >>= f) s = .error e t ↔
      x s = .error e t ∨ ∃ a u, x s = .ok a u ∧ f a u = .error e t := by
  change EStateM.bind x f s = _ ↔ _
  unfold EStateM.bind
  cases x s with
  | ok a u => simp [and_assoc]
  | error e' u => simp

theorem require_eq_ok {holds : Bool} {cause : Cause} {token : String} {span : Span} {s t : σ} :
    (require holds cause token span : Pass σ Unit) s = .ok () t ↔ holds = true ∧ s = t := by
  cases holds
  · change EStateM.Result.error _ s = _ ↔ _
    simp
  · simp [require, pure, EStateM.pure]

theorem promised_eq_ok {value : Option α} {defect : Defect} {s t : σ} {a : α} :
    (promised value defect : Pass σ α) s = .ok a t ↔ value = some a ∧ s = t := by
  cases value with
  | none =>
    change EStateM.Result.error _ s = _ ↔ _
    simp
  | some b => simp [promised, pure, EStateM.pure]

end Pass

end IcLir
