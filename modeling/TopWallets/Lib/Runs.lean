import Mathlib.Tactic.TypeStar

/- Finite runs of a labelled transition system, with the states and labels they go
   through.

   Main results: an invariant of the steps holds in every state of a run
   (`Run.invariant`, `Run.invariant_states`), and a property that a step keeps
   exactly when its label is good holds throughout a run exactly when every label
   of it is good (`Run.forall_states_iff`). -/
namespace Runs

variable {σ α : Type*}

/-- A run from `init` to its last state, and the labels with the states they are taken in. -/
inductive Run (step : σ → α → σ → Prop) (init : σ) : List (σ × α) → σ → Prop
  | nil : Run step init [] init
  | snoc {trace : List (σ × α)} {s s' : σ} {a : α} :
      Run step init trace s → step s a s' → Run step init (trace ++ [(s, a)]) s'

/-- The states of a run. -/
def states (trace : List (σ × α)) (s : σ) : List σ := trace.map Prod.fst ++ [s]

theorem states_snoc (trace : List (σ × α)) (s s' : σ) (a : α) :
    states (trace ++ [(s, a)]) s' = states trace s ++ [s'] := by
  simp [states]

theorem mem_states_last (trace : List (σ × α)) (s : σ) : s ∈ states trace s := by
  simp [states]

variable {step : σ → α → σ → Prop} {init : σ} {trace : List (σ × α)} {s : σ}

/-- What holds at the start and is kept by every step holds at the end. -/
theorem Run.invariant (h : Run step init trace s) {Inv : σ → Prop} (hinit : Inv init)
    (hstep : ∀ {s a s'}, Inv s → step s a s' → Inv s') : Inv s := by
  induction h with
  | nil => exact hinit
  | snoc _ hs ih => exact hstep ih hs

/-- An invariant holds in every state of the run. -/
theorem Run.invariant_states (h : Run step init trace s) {Inv : σ → Prop} (hinit : Inv init)
    (hstep : ∀ {s a s'}, Inv s → step s a s' → Inv s') : ∀ t ∈ states trace s, Inv t := by
  induction h with
  | nil =>
    intro t ht
    obtain rfl := List.mem_singleton.1 ht
    exact hinit
  | snoc hrun hs ih =>
    intro t ht
    rw [states_snoc, List.mem_append, List.mem_singleton] at ht
    rcases ht with ht | rfl
    · exact ih t ht
    · exact hstep (ih _ (mem_states_last _ _)) hs

/-- A property that each step keeps exactly when its label is good holds in every state exactly
when all labels are good. -/
theorem Run.forall_states_iff (h : Run step init trace s) {Inv P : σ → Prop} {Good : σ → α → Prop}
    (hinit : Inv init) (hstep : ∀ {s a s'}, Inv s → step s a s' → Inv s') (hP : P init)
    (hgood : ∀ {s a s'}, Inv s → P s → step s a s' → (P s' ↔ Good s a)) :
    (∀ t ∈ states trace s, P t) ↔ ∀ p ∈ trace, Good p.1 p.2 := by
  induction h with
  | nil => simpa [states] using hP
  | snoc hrun hs ih =>
    rw [states_snoc, List.forall_mem_append, List.forall_mem_append, ← ih,
      List.forall_mem_singleton, List.forall_mem_singleton]
    refine and_congr_right fun hall => ?_
    exact hgood (hrun.invariant hinit hstep) (hall _ (mem_states_last _ _)) hs

/-- The same without an invariant. -/
theorem Run.forall_states_iff_step (h : Run step init trace s) {P : σ → Prop} {Good : σ → α → Prop}
    (hP : P init) (hgood : ∀ {s a s'}, P s → step s a s' → (P s' ↔ Good s a)) :
    (∀ t ∈ states trace s, P t) ↔ ∀ p ∈ trace, Good p.1 p.2 := by
  have hinv : (fun _ : σ => True) init := trivial
  exact h.forall_states_iff hinv (fun _ _ => trivial) hP fun _ => hgood

/-- A property that holds throughout a run carries along what a step keeps as long as it holds. -/
theorem Run.forall_states_carry (h : Run step init trace s) {P Q : σ → Prop} (hinit : Q init)
    (hstep : ∀ {s a s'}, Q s → step s a s' → P s' → Q s') (hP : ∀ t ∈ states trace s, P t) :
    ∀ t ∈ states trace s, Q t := by
  induction h with
  | nil =>
    intro t ht
    obtain rfl := List.mem_singleton.1 ht
    exact hinit
  | snoc hrun hs ih =>
    rw [states_snoc, List.forall_mem_append, List.forall_mem_singleton] at hP ⊢
    have hbefore := ih hP.1
    exact ⟨hbefore, hstep (hbefore _ (mem_states_last _ _)) hs hP.2⟩

/-- What an invariant gives for a step holds wherever a label is taken. -/
theorem Run.forall_labels (h : Run step init trace s) {Inv : σ → Prop} {P : σ → α → Prop}
    (hinit : Inv init) (hstep : ∀ {s a s'}, Inv s → step s a s' → Inv s')
    (hP : ∀ {s a s'}, Inv s → step s a s' → P s a) : ∀ p ∈ trace, P p.1 p.2 := by
  induction h with
  | nil => nofun
  | snoc hrun hs ih =>
    rw [List.forall_mem_append, List.forall_mem_singleton]
    exact ⟨ih, hP (hrun.invariant hinit hstep) hs⟩

/-- Two properties of labels that agree under an invariant agree over the run. -/
theorem Run.forall_labels_iff (h : Run step init trace s) {Inv : σ → Prop} {P Q : σ → α → Prop}
    (hinit : Inv init) (hstep : ∀ {s a s'}, Inv s → step s a s' → Inv s')
    (hPQ : ∀ {s a s'}, Inv s → step s a s' → (P s a ↔ Q s a)) :
    (∀ p ∈ trace, P p.1 p.2) ↔ ∀ p ∈ trace, Q p.1 p.2 := by
  induction h with
  | nil => simp
  | snoc hrun hs ih =>
    rw [List.forall_mem_append, List.forall_mem_append, ih, List.forall_mem_singleton,
      List.forall_mem_singleton, hPQ (hrun.invariant hinit hstep) hs]

end Runs
