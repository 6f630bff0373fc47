import Mathlib

/- Postconditions of computations that may fail. Some of the errors are faults, which must not be
   raised at all; where another one is raised, nothing is claimed of the result. -/
namespace Faults

variable {ε ε' α β σ : Type} {bad : ε → Prop}

/-- A result of which `post` holds, or an error that is no fault. -/
def Safe (bad : ε → Prop) (x : Except ε α) (post : α → Prop) : Prop :=
  match x with
  | .ok a => post a
  | .error e => ¬ bad e

theorem Safe.ok {a : α} {post : α → Prop} (h : post a) : Safe bad (.ok a) post := h

theorem Safe.error {e : ε} {post : α → Prop} (h : ¬ bad e) :
    Safe bad (.error e : Except ε α) post := h

theorem Safe.mono {x : Except ε α} {post post' : α → Prop} (h : Safe bad x post)
    (hpost : ∀ a, post a → post' a) : Safe bad x post' := by
  cases x with
  | ok a => exact hpost a h
  | error e => exact h

theorem Safe.bind {x : Except ε α} {f : α → Except ε β} {post : α → Prop} {post' : β → Prop}
    (hx : Safe bad x post) (hf : ∀ a, post a → Safe bad (f a) post') :
    Safe bad (x >>= f) post' := by
  cases x with
  | ok a => exact hf a hx
  | error e => exact hx

theorem Safe.map {x : Except ε α} {f : α → β} {post : α → Prop} {post' : β → Prop}
    (hx : Safe bad x post) (hf : ∀ a, post a → post' (f a)) : Safe bad (f <$> x) post' := by
  cases x with
  | ok a => exact hf a hx
  | error e => exact hx

theorem Safe.ite {c : Prop} [Decidable c] {x y : Except ε α} {post : α → Prop}
    (hx : c → Safe bad x post) (hy : ¬ c → Safe bad y post) :
    Safe bad (if c then x else y) post := by
  split
  · next h => exact hx h
  · next h => exact hy h

theorem Safe.mapError {x : Except ε' α} {f : ε' → ε} {post : α → Prop} (hf : ∀ e, ¬ bad (f e))
    (hx : ∀ a, x = .ok a → post a) : Safe bad (x.mapError f) post := by
  cases x with
  | ok a => exact hx a rfl
  | error e => exact hf e

/-- A loop that keeps an invariant of its round and its state. -/
theorem Safe.foldlM_range {f : σ → Nat → Except ε σ} {n : Nat} {s : σ} (inv : Nat → σ → Prop)
    (hs : inv 0 s) (hf : ∀ k < n, ∀ s, inv k s → Safe bad (f s k) (inv (k + 1))) :
    Safe bad ((List.range n).foldlM f s) (inv n) := by
  induction n with
  | zero => exact hs
  | succ n ih =>
    rw [List.range_succ, List.foldlM_append]
    refine (ih fun k hk => hf k (Nat.lt_succ_of_lt hk)).bind fun s hs => ?_
    rw [List.foldlM_cons]
    exact (hf n (Nat.lt_succ_self n) s hs).bind fun s hs => hs

theorem Safe.forM {f : α → Except ε Unit} {l : List α}
    (hf : ∀ a ∈ l, Safe bad (f a) fun _ => True) : Safe bad (l.forM f) fun _ => True := by
  induction l with
  | nil => trivial
  | cons a l ih =>
    exact (hf a List.mem_cons_self).bind fun _ _ =>
      ih fun b hb => hf b (List.mem_cons_of_mem _ hb)

theorem Safe.mapM {f : α → Except ε β} {l : List α}
    (hf : ∀ a ∈ l, Safe bad (f a) fun _ => True) :
    Safe bad (l.mapM f) fun bs => bs.length = l.length := by
  induction l with
  | nil => exact .ok rfl
  | cons a l ih =>
    rw [List.mapM_cons]
    refine (hf a List.mem_cons_self).bind fun b _ =>
      (ih fun c hc => hf c (List.mem_cons_of_mem _ hc)).bind fun bs hbs => .ok ?_
    rw [List.length_cons, List.length_cons, hbs]

end Faults
