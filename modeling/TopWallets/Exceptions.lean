/- The exceptions of the managed code. -/
namespace Ton

/-- The exceptions the managed code raises, or lets through from native code. -/
inductive Exception where
  | nullReference
  | argumentNull
  | argumentOutOfRange
  | indexOutOfRange
  | format
  | overflow
  | duplicateKey
  | cellWrite
  | accessViolation
  | message (text : String)
  deriving DecidableEq, Repr

section
variable {ε α β : Type}

@[simp] theorem ok_bind (a : α) (f : α → Except ε β) : (.ok a >>= f) = f a := rfl

/-- A sequence gives a result when both parts do. -/
theorem bind_ok_iff {x : Except ε α} {f : α → Except ε β} {b : β} :
    (x >>= f) = .ok b ↔ ∃ a, x = .ok a ∧ f a = .ok b := by
  cases x <;> simp [bind, Except.bind]

end

end Ton
