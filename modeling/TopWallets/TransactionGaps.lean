import TopWallets.WalletTransactions

/- Whether the transaction list of a wallet has gaps.

   A refresh asks for the newest `count` transactions and puts those that are newer
   than the list in front of it. When more than a page of transactions came since the
   last refresh, the ones between the page and the list are left out, and nothing asks
   for them later: what follows in the list is served from it.

   Main result: over every run the list is contiguous in every state exactly when every
   page that is merged reaches the list (`forall_contiguous_iff`). A paging from a
   transaction of the list always does (`reaches_of_mem`). -/
namespace Ton.Wallet

open Segment Runs

variable {κ : Type}

/-- The list is a segment of the history: nothing between its first and its last is missing. -/
def Contiguous (s : State κ) : Prop := lts s.transactions <:+: s.history.lts

/-- The page of an answer reaches the list. Of a refresh: the account has no more transactions
newer than the list and not newer than the page than the page has. Of a paging: the page is empty,
or the account has no transaction older than the list and newer than the page. -/
def Reaches (s : State κ) : Action κ → Prop
  | .answer r ts =>
    match r.last with
    | none => (lead s.history.lts (lts s.transactions) (lts ts)).length ≤ ts.length
    | some _ =>
      ts = [] ∨ ∀ last ∈ (lts s.transactions).getLast?, ∀ t ∈ s.history.lts, t < last →
        ∃ y ∈ lts ts, t ≤ y
  | _ => True

theorem lead_congr {log window page page' : List Int} (h : page.Perm page') :
    lead log window page = lead log window page' := by
  cases window with
  | nil => rfl
  | cons first window => simp only [lead, h.mem_iff]

/-- An answer keeps the list contiguous exactly when its page reaches it. -/
theorem contiguous_answer_iff {s : State κ} (hinv : Inv s) (hs : Contiguous s) {r : Request κ}
    {rest : List (Request κ)} {ts : List ITonTransaction} (hpage : Page s.history r ts) :
    Contiguous (s.answer rest r ts) ↔ Reaches s (.answer r ts) := by
  obtain ⟨page, hinfix, hperm, -⟩ := hpage.exists_lts
  have hdesc : Descending page := s.history.descending.of_infix hinfix
  have hlen : page.length = ts.length := by simpa [lts] using hperm.length_eq.symm
  rw [Contiguous, hinv.lts_answer hpage.built hdesc hperm, Reaches]
  cases r.last with
  | none =>
    rw [lead_congr hperm, ← hlen]
    exact addNewer_infix_iff s.history.descending hs hinfix
  | some last =>
    have hnil : page = [] ↔ ts = [] := by
      rw [← List.length_eq_zero_iff, hlen, List.length_eq_zero_iff]
    simp only [hperm.mem_iff, ← hnil]
    exact addOlder_infix_iff s.history.descending hs hinfix

/-- A paging from a transaction of the list reaches it. -/
theorem reaches_of_mem {s : State κ} (hinv : Inv s) {r : Request κ} {ts : List ITonTransaction}
    (hpage : Page s.history r ts) {last : ITonTransaction} (hlast : r.last = some last)
    (hmem : last ∈ s.transactions) : Reaches s (.answer r ts) := by
  obtain ⟨page, -, hperm, hfrom⟩ := hpage.exists_lts
  obtain ⟨j, k, hj, rfl⟩ := hfrom last hlast
  simp only [Reaches, hlast, or_iff_not_imp_left]
  intro hne oldest holdest t ht hlt
  have holdest_le : oldest ≤ last.lt := by
    obtain ⟨newer, hnewer⟩ := List.getLast?_eq_some_iff.1 holdest
    have hdesc := hinv.descending
    rw [hnewer] at hdesc
    exact hdesc.last_le (hnewer ▸ List.mem_map_of_mem hmem)
  have hne' : ((s.history.lts.dropWhile (last.lt < ·)).drop j).take k ≠ [] := by
    intro hnil
    rw [hnil] at hperm
    exact hne (List.map_eq_nil_iff.1 hperm.eq_nil)
  obtain ⟨y, hy, hty⟩ := Segment.reaches_of_mem s.history.descending (hinv.built last hmem).lt_mem
    hj hne' t ht (hlt.trans_le holdest_le)
  exact ⟨y, hperm.mem_iff.2 hy, hty⟩

variable [DecidableEq κ] {getIndex : List ITonTransaction → ITonTransaction → Int}

theorem contiguous_step_iff {s s' : State κ} {a : Action κ} (hinv : Inv s) (hs : Contiguous s)
    (hstep : Step getIndex s a s') : Contiguous s' ↔ Reaches s a := by
  cases hstep with
  | arrive hnew =>
    rename_i new h
    refine iff_of_true (hs.trans ?_) trivial
    rw [History.lts, History.lts, hnew, List.map_append]
    exact (List.suffix_append _ _).isInfix
  | answered _ hpage => exact contiguous_answer_iff hinv hs hpage
  | opened | served | asked | failed | delivered => exact iff_of_true hs trivial

/-- The list is contiguous throughout a run exactly when every page reaches it. -/
theorem forall_contiguous_iff {h : History} {trace : List (State κ × Action κ)} {s : State κ}
    (hrun : Run (Step getIndex) (init h) trace s) :
    (∀ t ∈ states trace s, Contiguous t) ↔ ∀ p ∈ trace, Reaches p.1 p.2 :=
  hrun.forall_states_iff (inv_init h) inv_step (List.nil_infix) contiguous_step_iff

/-! ## A gap

    Seventeen transactions arrive after the first refresh. The second fetches sixteen. -/

namespace Gap

/-- A history of `n` transactions. -/
def history (n : Nat) : History where
  transactions := (List.range n).reverse.map (fun i : Nat => ⟨i, 100, false⟩)
  descending := by
    rw [List.map_map, Descending, List.pairwise_map, List.pairwise_reverse]
    exact List.pairwise_lt_range.imp fun hlt => Int.ofNat_lt.2 hlt

def page (n : Nat) : List ITonTransaction :=
  ((history n).transactions.take 16).map (fun r => .transaction r.lt r.utime r.isOut)

def request : Request Unit := ⟨(), none, 16⟩

theorem page_correct (n : Nat) : Page (history n) request (page n) := by
  refine .mk (.newest 0) le_rfl ?_ (.refl _)
  refine List.forall₂_map_right_iff.2 (List.forall₂_same.2 fun r _ => ?_)
  exact .transaction

def response (s : State Unit) (n : Nat) : Response Unit :=
  ⟨request, page n, s.transactions.head?, entering s.transactions none (page n)⟩

/-- A refresh, from the call to the callback. -/
def refreshed (s : State Unit) (n : Nat) : State Unit :=
  ({ s with requests := [request] }.answer [] request (page n)).deliver [] (response s n)

def first : State Unit := refreshed (init (history 1)) 1

def arrived : State Unit := { first with history := history 18 }

def second : State Unit := refreshed arrived 18

theorem run_refreshed {getIndex : List ITonTransaction → ITonTransaction → Int} {s₀ s : State Unit}
    {trace : List (State Unit × Action Unit)} (hrun : Run (Step getIndex) s₀ trace s) {n : Nat}
    (hhistory : s.history = history n) (hrequests : s.requests = [])
    (hresponses : s.responses = []) :
    ∃ trace, Run (Step getIndex) s₀ trace (refreshed s n) := by
  have hcall : Step getIndex s (.call request) { s with requests := [request] } :=
    hrequests ▸ .asked rfl
  have hanswer : Step getIndex { s with requests := [request] } (.answer request (page n))
      ({ s with requests := [request] }.answer [] request (page n)) :=
    .answered (.refl _) (hhistory ▸ page_correct n)
  have hdeliver : Step getIndex ({ s with requests := [request] }.answer [] request (page n))
      (.deliver (response s n)) (refreshed s n) :=
    .delivered (.of_eq (congrArg (response s n :: ·) hresponses))
  exact ⟨_, ((hrun.snoc hcall).snoc hanswer).snoc hdeliver⟩

theorem run (getIndex : List ITonTransaction → ITonTransaction → Int) :
    ∃ trace, Run (Step getIndex) (init (history 1)) trace second := by
  have hinit : Run (Step getIndex) (init (history 1)) [] (init (history 1) : State Unit) := .nil
  obtain ⟨trace, hfirst⟩ := run_refreshed hinit rfl rfl rfl
  have harrive : Step getIndex first (.arrive ((history 18).transactions.take 17)) arrived :=
    .arrive rfl
  exact run_refreshed (hfirst.snoc harrive) rfl rfl rfl

theorem not_contiguous : ¬ Contiguous second := by
  rw [Contiguous]
  decide

end Gap

/-- A page of sixteen does not reach the list below seventeen new transactions. -/
theorem not_reaches_after_seventeen : ∃ trace,
    Run (Step (fun _ _ => -1)) (init (Gap.history 1)) trace Gap.second ∧
      ¬ ∀ p ∈ trace, Reaches p.1 p.2 := by
  obtain ⟨trace, hrun⟩ := Gap.run (fun _ _ => -1)
  refine ⟨trace, hrun, fun hall => Gap.not_contiguous ?_⟩
  exact (forall_contiguous_iff hrun).2 hall _ (mem_states_last _ _)

/-- The list is not always a segment of the history. -/
theorem not_contiguous_after_seventeen :
    ¬ ∀ (h : History) (trace : List (State Unit × Action Unit)) (s : State Unit),
      Run (Step (fun _ _ => -1)) (init h) trace s → Contiguous s := by
  intro hall
  obtain ⟨trace, hrun⟩ := Gap.run (fun _ _ => -1)
  exact Gap.not_contiguous (hall _ trace _ hrun)

end Ton.Wallet
