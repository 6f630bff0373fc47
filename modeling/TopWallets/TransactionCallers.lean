import TopWallets.WalletTransactions

/- What the callers of a shared wallet are handed.

   A caller that asks for the newest transactions is called back with those that were
   newer than the list of the wallet when its response was merged. That list is also
   filled by the responses of the other callers, so what they fetched first is not
   handed to this one.

   Main result: over every run each caller is handed all it does not hold of its pages
   exactly when no response was overtaken by another (`forall_handsAll_iff`). -/
namespace Ton.Wallet

open Runs

variable {κ : Type}

/-- The transaction is newer than everything the caller was handed. -/
def State.NewTo (s : State κ) (caller : κ) (t : ITonTransaction) : Prop :=
  ∀ x ∈ s.held caller, x.lt < t.lt

/-- No transaction of the delivered page that is new to the caller was in the list, or older than
its newest, when the response was merged. -/
def NotOvertaken (s : State κ) : Action κ → Prop
  | .deliver resp => resp.request.last = none → ∀ t ∈ resp.page,
      s.NewTo resp.request.caller t → ∀ first ∈ resp.first, first.lt < t.lt
  | _ => True

variable [DecidableEq κ] {getIndex : List ITonTransaction → ITonTransaction → Int}

variable (getIndex) in
/-- After the delivery the caller has been handed every transaction of the page that was new to
it. -/
def HandsAll (s : State κ) : Action κ → Prop
  | .deliver resp => resp.request.last = none → ∀ t ∈ resp.page, s.NewTo resp.request.caller t →
      ∀ s', Step getIndex s (.deliver resp) s' → t ∈ s'.held resp.request.caller
  | _ => True

theorem held_deliver (s : State κ) (responses : List (Response κ)) (resp : Response κ) :
    (s.deliver responses resp).held resp.request.caller =
      s.held resp.request.caller ++ resp.tra := State.held_hand _ _ _

/-- A delivery hands over a new transaction exactly when it is of the merged part. -/
theorem mem_held_deliver_iff {s : State κ} {responses : List (Response κ)} {resp : Response κ}
    {t : ITonTransaction} (hnew : s.NewTo resp.request.caller t) :
    t ∈ (s.deliver responses resp).held resp.request.caller ↔ t ∈ resp.tra := by
  rw [held_deliver, List.mem_append]
  exact or_iff_right fun hheld => lt_irrefl _ (hnew t hheld)

theorem handsAll_iff {s s' : State κ} {a : Action κ} (hinv : Inv s)
    (hstep : Step getIndex s a s') : HandsAll getIndex s a ↔ NotOvertaken s a := by
  cases hstep with
  | delivered hperm =>
    rename_i resp rest
    have hmerged := hinv.merged resp (hperm.mem_iff.2 List.mem_cons_self)
    refine forall_congr' fun hlast => forall₂_congr fun t ht => forall_congr' fun hnew => ?_
    rw [← hmerged hlast t ht]
    constructor
    · exact fun hall => (mem_held_deliver_iff hnew).1 (hall _ (.delivered hperm))
    · intro htra s' hs'
      cases hs' with
      | delivered _ => exact (mem_held_deliver_iff hnew).2 htra
  | arrive | opened | served | asked | failed | answered => exact Iff.rfl

/-- Every caller is handed all that is new to it throughout a run exactly when no response is
overtaken. -/
theorem forall_handsAll_iff {h : History} {trace : List (State κ × Action κ)} {s : State κ}
    (hrun : Run (Step getIndex) (init h) trace s) :
    (∀ p ∈ trace, HandsAll getIndex p.1 p.2) ↔ ∀ p ∈ trace, NotOvertaken p.1 p.2 :=
  hrun.forall_labels_iff (inv_init h) inv_step handsAll_iff

/-- The second caller holds nothing, and is handed nothing of its page. -/
theorem TwoCallers.not_handsAll (getIndex : List ITonTransaction → ITonTransaction → Int) :
    ¬ HandsAll getIndex delivered (.deliver response') := by
  intro hall
  have hnew : delivered.NewTo false (.transaction 1 100 false) := nofun
  have hmem := hall rfl _ List.mem_cons_self hnew _ (.delivered (.refl _))
  cases hmem

/-- The second response was overtaken by the first. -/
theorem overtaken_two_callers : ∃ trace,
    Run (Step (fun _ _ => -1)) (init TwoCallers.history) trace
      (TwoCallers.delivered.deliver [] TwoCallers.response') ∧
      ¬ ∀ p ∈ trace, NotOvertaken p.1 p.2 := by
  obtain ⟨trace, hrun⟩ := TwoCallers.run (fun _ _ => -1)
  refine ⟨_, hrun, fun hall => TwoCallers.not_handsAll (fun _ _ => -1) ?_⟩
  exact (forall_handsAll_iff hrun).2 hall _ (List.mem_append_right _ List.mem_cons_self)

/-- A caller is not always handed what is new to it. -/
theorem not_handsAll_two_callers :
    ¬ ∀ (h : History) (trace : List (State Bool × Action Bool)) (s : State Bool),
      Run (Step (fun _ _ => -1)) (init h) trace s →
        ∀ p ∈ trace, HandsAll (fun _ _ => -1) p.1 p.2 := by
  intro hall
  obtain ⟨trace, hrun⟩ := TwoCallers.run (fun _ _ => -1)
  exact TwoCallers.not_handsAll _ (hall _ _ _ hrun _ (List.mem_append_right _ List.mem_cons_self))

end Ton.Wallet
