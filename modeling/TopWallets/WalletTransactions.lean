import TopWallets.Transactions
import TopWallets.Lib.Runs

/- The transaction list of a shared wallet, over any interleaving of its callers.

   `Wallet.GetTransactions` serves what the list already has, or asks the core and
   merges the response under a lock. After the lock it raises TransactionsNew or
   TransactionsOld and calls back. Meanwhile the account receives transactions and
   other callers' responses are merged.

   A core response is any page the account history allows: at most `count`
   transactions from a newest one the wallet knew of, or from `last`, each built as
   either class, in any order. The queries themselves are outside.

   What is proved, for every run from an empty list:
     1. `Run.inv`: the list is strictly descending by logical time, every
        transaction of it is one of the account's, and every response that is being
        delivered has the merged part of its page.
     2. `announced_once`: every transaction of the list is in exactly one event,
        raised or about to be. -/
namespace Ton.Wallet

open Segment Runs

section Types
variable (κ : Type)

/-- A call whose core query is under way. -/
structure Request where
  caller : κ
  last : Option ITonTransaction
  count : Nat

/-- A merged response that is still to be delivered, with the newest transaction of the list it
was compared with. -/
structure Response where
  request : Request κ
  page : List ITonTransaction
  first : Option ITonTransaction
  tra : List ITonTransaction

/-- `TransactionsNew` and `TransactionsOld`. -/
inductive Event where
  | new (transactions : List ITonTransaction)
  | old (transactions : List ITonTransaction)

structure State where
  history : History
  transactions : List ITonTransaction
  requests : List (Request κ)
  responses : List (Response κ)
  events : List Event
  /-- What the callbacks of a caller were handed. -/
  held : κ → List ITonTransaction

inductive Action where
  /-- The account receives transactions. -/
  | arrive (new : List RawTransaction)
  /-- A panel is created and takes the list as it is. -/
  | opened (caller : κ)
  | call (request : Request κ)
  /-- The core answers with an error, or with null for no transactions. -/
  | fail (request : Request κ)
  | answer (request : Request κ) (ts : List ITonTransaction)
  | deliver (response : Response κ)

end Types

def Event.transactions : Event → List ITonTransaction
  | .new ts => ts
  | .old ts => ts

variable {κ : Type}

def Response.event (resp : Response κ) : Event :=
  match resp.request.last with
  | none => .new resp.tra
  | some _ => .old resp.tra

@[simp] theorem Response.transactions_event (resp : Response κ) :
    resp.event.transactions = resp.tra := by
  rw [Response.event]
  split <;> rfl

/-- Where the account history of a core query begins: at a newest transaction the wallet knew of,
at `last`, or right after it. -/
inductive Start (h : History) : Option ITonTransaction → List RawTransaction → Prop
  | newest (j : Nat) : Start h none (h.transactions.drop j)
  | paging (last : ITonTransaction) {j : Nat} (hj : j ≤ 1) :
      Start h (some last) ((h.transactions.dropWhile (last.lt < ·.lt)).drop j)

/-- A correct page: at most `count` transactions of the history, in any order. -/
inductive Page (h : History) (r : Request κ) : List ITonTransaction → Prop
  | mk {start : List RawTransaction} {k : Nat} {built ts : List ITonTransaction} :
      Start h r.last start → k ≤ r.count → List.Forall₂ RawTransaction.Builds (start.take k) built →
      ts.Perm built → Page h r ts

/-! ## Pages -/

theorem Start.suffix {h : History} {last : Option ITonTransaction} {start : List RawTransaction}
    (hstart : Start h last start) : start <:+ h.transactions := by
  cases hstart with
  | newest j => exact List.drop_suffix j _
  | paging last hj => exact (List.drop_suffix _ _).trans (List.dropWhile_suffix _)

theorem lts_of_builds {rs : List RawTransaction} {built : List ITonTransaction}
    (h : List.Forall₂ RawTransaction.Builds rs built) : lts built = rs.map RawTransaction.lt := by
  induction h with
  | nil => rfl
  | cons hb _ ih => exact congrArg₂ _ hb.lt_eq ih

theorem exists_of_builds {rs : List RawTransaction} {built : List ITonTransaction}
    (h : List.Forall₂ RawTransaction.Builds rs built) :
    ∀ t ∈ built, ∃ r ∈ rs, r.Builds t := by
  induction h with
  | nil => simp
  | cons hb _ ih =>
    rw [List.forall_mem_cons]
    refine ⟨⟨_, List.mem_cons_self, hb⟩, fun t ht => ?_⟩
    obtain ⟨r, hr, hrt⟩ := ih t ht
    exact ⟨r, List.mem_cons_of_mem _ hr, hrt⟩

theorem Page.built {h : History} {r : Request κ} {ts : List ITonTransaction}
    (hpage : Page h r ts) : ∀ t ∈ ts, h.Built t := by
  obtain ⟨hstart, -, hbuilt, hperm⟩ := hpage
  intro t ht
  obtain ⟨r, hr, hrt⟩ := exists_of_builds hbuilt t (hperm.mem_iff.1 ht)
  exact ⟨r, hstart.suffix.mem (List.mem_of_mem_take hr), hrt⟩

/-- A page by logical times is a part of the history, from `last` on for a paging. -/
theorem Page.exists_lts {h : History} {r : Request κ} {ts : List ITonTransaction}
    (hpage : Page h r ts) : ∃ l : List Int, l <:+: h.lts ∧ (lts ts).Perm l ∧
      ∀ last, r.last = some last →
        ∃ j k, j ≤ 1 ∧ l = ((h.lts.dropWhile (last.lt < ·)).drop j).take k := by
  obtain ⟨hstart, -, hbuilt, hperm⟩ := hpage
  rename_i start k built
  refine ⟨(start.take k).map RawTransaction.lt, ?_, ?_, fun last hlast => ?_⟩
  · exact ((List.take_prefix k start).isInfix.trans hstart.suffix.isInfix).map _
  · exact lts_of_builds hbuilt ▸ hperm.map _
  · rw [hlast] at hstart
    cases hstart with
    | paging _ hj =>
      rename_i j
      refine ⟨j, k, hj, ?_⟩
      rw [History.lts, List.dropWhile_map, ← List.map_drop, ← List.map_take]
      rfl

/-! ## Steps -/

namespace State

/-- The merge of a response, under the lock. -/
def answer (s : State κ) (requests : List (Request κ)) (r : Request κ)
    (ts : List ITonTransaction) : State κ :=
  let tra := entering s.transactions r.last ts
  { s with
    transactions := add s.transactions tra
    requests
    responses := ⟨r, ts, s.transactions.head?, tra⟩ :: s.responses }

section
variable [DecidableEq κ]

def hand (s : State κ) (c : κ) (ts : List ITonTransaction) : State κ :=
  { s with held := Function.update s.held c (s.held c ++ ts) }

@[simp] theorem held_hand (s : State κ) (c : κ) (ts : List ITonTransaction) :
    (s.hand c ts).held c = s.held c ++ ts := Function.update_self _ _ _

/-- The event, if there is anything to announce, and the callback. -/
def deliver (s : State κ) (responses : List (Response κ)) (resp : Response κ) : State κ :=
  { s with
    responses
    events := if resp.tra = [] then s.events else s.events ++ [resp.event] }.hand
      resp.request.caller resp.tra

end

end State

/-- The wallet before any call. -/
def init (h : History) : State κ := ⟨h, [], [], [], [], fun _ => []⟩

inductive Step [DecidableEq κ] (getIndex : List ITonTransaction → ITonTransaction → Int) :
    State κ → Action κ → State κ → Prop
  | arrive {s : State κ} {new : List RawTransaction} {h : History} :
      h.transactions = new ++ s.history.transactions →
      Step getIndex s (.arrive new) { s with history := h }
  | opened {s : State κ} (c : κ) : Step getIndex s (.opened c) (s.hand c s.transactions)
  | served {s : State κ} {r : Request κ} {tra : List ITonTransaction} :
      fromCache getIndex s.transactions r.last r.count = some tra →
      Step getIndex s (.call r) (s.hand r.caller tra)
  | asked {s : State κ} {r : Request κ} :
      fromCache getIndex s.transactions r.last r.count = none →
      Step getIndex s (.call r) { s with requests := r :: s.requests }
  | failed {s : State κ} {r : Request κ} {rest : List (Request κ)} :
      s.requests.Perm (r :: rest) → Step getIndex s (.fail r) { s with requests := rest }
  | answered {s : State κ} {r : Request κ} {rest : List (Request κ)} {ts : List ITonTransaction} :
      s.requests.Perm (r :: rest) → Page s.history r ts →
      Step getIndex s (.answer r ts) (s.answer rest r ts)
  | delivered {s : State κ} {resp : Response κ} {rest : List (Response κ)} :
      s.responses.Perm (resp :: rest) → Step getIndex s (.deliver resp) (s.deliver rest resp)

/-! ## Invariant -/

/-- What the events carry, raised or about to be. -/
def State.announced (s : State κ) : List ITonTransaction :=
  s.events.flatMap Event.transactions ++ s.responses.flatMap Response.tra

/-- What a response has of its page, by logical times. -/
def Response.Merged (resp : Response κ) : Prop :=
  resp.request.last = none → ∀ t ∈ resp.page,
    (t ∈ resp.tra ↔ ∀ first ∈ resp.first, first.lt < t.lt)

structure Inv (s : State κ) : Prop where
  built : ∀ t ∈ s.transactions, s.history.Built t
  descending : Descending (lts s.transactions)
  announced : s.announced.Perm s.transactions
  merged : ∀ resp ∈ s.responses, resp.Merged

/-! ## The merge -/

/-- A page merged into a window, from above by a refresh and from below by a paging. -/
def merge (last : Option ITonTransaction) (window page : List Int) : List Int :=
  match last with
  | none => newer window page ++ window
  | some _ => window ++ older window page

theorem descending_merge (last : Option ITonTransaction) {window page : List Int}
    (hwindow : Descending window) (hpage : Descending page) :
    Descending (merge last window page) := by
  cases last with
  | none => exact descending_addNewer hwindow hpage
  | some last => exact descending_addOlder hwindow hpage

variable {s : State κ}

/-- By logical times, the answer merges the page into the list. -/
theorem Inv.lts_answer (hinv : Inv s) {r : Request κ} {rest : List (Request κ)}
    {ts : List ITonTransaction} (hts : ∀ t ∈ ts, s.history.Built t) {page : List Int}
    (hpage : Descending page) (hperm : (lts ts).Perm page) :
    lts (s.answer rest r ts).transactions = merge r.last (lts s.transactions) page := by
  have hdesc := descending_merge r.last hinv.descending hpage
  refine lts_add hinv.built hinv.descending (built_entering hts r.last) hdesc ?_
  cases r.last with
  | none =>
    rw [lts_entering_new hinv.built hts hpage hperm]
    exact List.perm_append_comm
  | some last => rw [lts_entering_old hinv.built hts hpage hperm last]; exact List.Perm.refl _

theorem Inv.built_answer (hinv : Inv s) {r : Request κ} {rest : List (Request κ)}
    {ts : List ITonTransaction} (hts : ∀ t ∈ ts, s.history.Built t) :
    ∀ t ∈ (s.answer rest r ts).transactions, s.history.Built t := by
  intro t ht
  rcases List.mem_append.1 ((add_perm _ _).mem_iff.1 ht) with ht | ht
  · exact hinv.built t ht
  · exact built_entering hts r.last t ht

/-- A refresh hands on the transactions of its page that are newer than the list. -/
theorem Inv.merged_answer (hinv : Inv s) {r : Request κ} {ts : List ITonTransaction}
    (hpage : Page s.history r ts) :
    Response.Merged ⟨r, ts, s.transactions.head?, entering s.transactions r.last ts⟩ := by
  obtain ⟨l, hl, hperm, -⟩ := hpage.exists_lts
  intro (hlast : r.last = none) t ht
  have hmem := mem_entering_new hinv.built hpage.built (s.history.descending.of_infix hl) hperm
    (t := t)
  rw [← hlast] at hmem
  exact hmem.trans (and_iff_right ht)

theorem Inv.announced_answer (hinv : Inv s) (r : Request κ) (rest : List (Request κ))
    (ts : List ITonTransaction) :
    (s.answer rest r ts).announced.Perm (s.answer rest r ts).transactions := by
  refine List.Perm.trans ?_ (add_perm _ _).symm
  refine List.Perm.trans ?_ (hinv.announced.append_right _)
  simp only [State.announced, State.answer, List.flatMap_cons, List.append_assoc]
  exact List.Perm.append_left _ List.perm_append_comm

theorem Inv.announced_deliver [DecidableEq κ] (hinv : Inv s) {resp : Response κ}
    {rest : List (Response κ)} (hperm : s.responses.Perm (resp :: rest)) :
    (s.deliver rest resp).announced.Perm s.transactions := by
  have hresponses :
      (s.responses.flatMap Response.tra).Perm (resp.tra ++ rest.flatMap Response.tra) :=
    hperm.flatMap_right _
  refine List.Perm.trans ?_ hinv.announced
  refine List.Perm.trans ?_ (hresponses.symm.append_left _)
  change (List.flatMap Event.transactions (if resp.tra = [] then _ else _) ++ _).Perm _
  split
  · rename_i hnil
    rw [hnil]
    exact List.Perm.refl _
  · rw [List.flatMap_append, List.flatMap_singleton, resp.transactions_event, List.append_assoc]
    exact List.Perm.refl _

theorem inv_init (h : History) : Inv (init h : State κ) where
  built := by simp [init]
  descending := List.Pairwise.nil
  announced := List.Perm.refl _
  merged := by simp [init]

theorem inv_step [DecidableEq κ] {getIndex : List ITonTransaction → ITonTransaction → Int}
    {s s' : State κ} {a : Action κ} (hinv : Inv s) (hstep : Step getIndex s a s') : Inv s' := by
  cases hstep with
  | arrive hnew =>
    refine ⟨fun t ht => ?_, hinv.descending, hinv.announced, hinv.merged⟩
    obtain ⟨r, hr, hbuild⟩ := hinv.built t ht
    exact ⟨r, hnew ▸ List.mem_append_right _ hr, hbuild⟩
  | opened c => exact ⟨hinv.built, hinv.descending, hinv.announced, hinv.merged⟩
  | served _ => exact ⟨hinv.built, hinv.descending, hinv.announced, hinv.merged⟩
  | asked _ => exact ⟨hinv.built, hinv.descending, hinv.announced, hinv.merged⟩
  | failed _ => exact ⟨hinv.built, hinv.descending, hinv.announced, hinv.merged⟩
  | answered _ hpage =>
    rename_i r rest ts
    obtain ⟨l, hl, hperm, -⟩ := hpage.exists_lts
    refine ⟨hinv.built_answer hpage.built, ?_, hinv.announced_answer _ _ _, ?_⟩
    · rw [hinv.lts_answer hpage.built (s.history.descending.of_infix hl) hperm]
      exact descending_merge _ hinv.descending (s.history.descending.of_infix hl)
    · exact List.forall_mem_cons.2 ⟨hinv.merged_answer hpage, hinv.merged⟩
  | delivered hperm =>
    refine ⟨hinv.built, hinv.descending, hinv.announced_deliver hperm, fun resp hresp => ?_⟩
    exact hinv.merged resp (hperm.mem_iff.2 (List.mem_cons_of_mem _ hresp))

/-- The invariant holds after every run. -/
theorem inv_run [DecidableEq κ] {getIndex : List ITonTransaction → ITonTransaction → Int}
    {h : History} {trace : List (State κ × Action κ)} {s : State κ}
    (hrun : Run (Step getIndex) (init h) trace s) : Inv s :=
  hrun.invariant (inv_init h) inv_step

/-! ## Announcements -/

/-- In lists without a common or repeated entry, an entry is in one of them. -/
theorem countP_mem_eq_count {α β : Type*} [DecidableEq β] {f : α → List β} {l : List α}
    (hnd : (l.flatMap f).Nodup) (b : β) : l.countP (b ∈ f ·) = (l.flatMap f).count b := by
  induction l with
  | nil => rfl
  | cons a l ih =>
    rw [List.flatMap_cons] at hnd ⊢
    rw [List.countP_cons, List.count_append, ih hnd.of_append_right,
      (List.Nodup.of_append_left hnd).count, Nat.add_comm]
    simp

/-- The events that carry the transaction, raised or about to be. -/
def State.deliveries (s : State κ) (t : ITonTransaction) : Nat :=
  s.events.countP (t ∈ ·.transactions) + s.responses.countP (t ∈ ·.tra)

theorem Inv.nodup (hinv : Inv s) : s.transactions.Nodup := hinv.descending.nodup.of_map _

theorem Inv.deliveries_eq (hinv : Inv s) {t : ITonTransaction} (ht : t ∈ s.transactions) :
    s.deliveries t = 1 := by
  have hnd : s.announced.Nodup := hinv.announced.nodup_iff.2 hinv.nodup
  have hcount : s.announced.count t = 1 := by
    rw [hinv.announced.count_eq, List.count_eq_one_of_mem hinv.nodup ht]
  rw [State.announced, List.count_append] at hcount
  rw [State.deliveries, countP_mem_eq_count hnd.of_append_left,
    countP_mem_eq_count hnd.of_append_right, hcount]

section
variable [DecidableEq κ] {getIndex : List ITonTransaction → ITonTransaction → Int}

/-- Whatever is under way can be delivered, without a change of the list. -/
theorem exists_delivered {s₀ : State κ} (responses : List (Response κ)) :
    ∀ {trace : List (State κ × Action κ)} {s : State κ}, Run (Step getIndex) s₀ trace s →
      s.responses = responses → ∃ trace' s', Run (Step getIndex) s₀ trace' s' ∧
        s'.responses = [] ∧ s'.transactions = s.transactions := by
  induction responses with
  | nil => exact fun hrun hnil => ⟨_, _, hrun, hnil, rfl⟩
  | cons resp rest ih =>
    intro trace s hrun hcons
    have hstep : Step getIndex s (.deliver resp) (s.deliver rest resp) := .delivered (.of_eq hcons)
    obtain ⟨trace', s', hrun', hnil, hsame⟩ := ih (hrun.snoc hstep) rfl
    exact ⟨trace', s', hrun', hnil, hsame⟩

/-- The list is strictly descending by logical time, and each of its transactions is in exactly
one event. -/
theorem announced_once {h : History} {trace : List (State κ × Action κ)} {s : State κ}
    (hrun : Run (Step getIndex) (init h) trace s) :
    Descending (lts s.transactions) ∧ s.announced.Perm s.transactions ∧
      (∀ t ∈ s.transactions, s.deliveries t = 1) ∧
      ∃ trace' s', Run (Step getIndex) s trace' s' ∧ s'.transactions = s.transactions ∧
        ∀ t ∈ s.transactions, s'.events.countP (t ∈ ·.transactions) = 1 := by
  have hinv := inv_run hrun
  have hhere : Run (Step getIndex) s [] s := .nil
  obtain ⟨trace', s', hrun', hresponses, hsame⟩ := exists_delivered _ hhere rfl
  have hinv' : Inv s' := hrun'.invariant hinv inv_step
  refine ⟨hinv.descending, hinv.announced, fun t ht => hinv.deliveries_eq ht,
    trace', s', hrun', hsame, fun t ht => ?_⟩
  have hone := hinv'.deliveries_eq (hsame ▸ ht)
  rwa [State.deliveries, hresponses, List.countP_nil, Nat.add_zero] at hone

end

/-! ## Two callers

    Both ask for the newest transactions of an account that has one, and are answered
    before either response is delivered. -/

namespace TwoCallers

def history : History := ⟨[⟨1, 100, false⟩], by simp⟩

def page : List ITonTransaction := [.transaction 1 100 false]

def request (caller : Bool) : Request Bool := ⟨caller, none, 16⟩

def asked : State Bool := { init history with requests := [request false, request true] }

def answered : State Bool :=
  (asked.answer [request false] (request true) page).answer [] (request false) page

def response : Response Bool := ⟨request true, page, none, page⟩

/-- The page of the second caller, of which nothing is new to the list. -/
def response' : Response Bool := ⟨request false, page, some (.transaction 1 100 false), []⟩

def delivered : State Bool := answered.deliver [response'] response

theorem page_correct (caller : Bool) : Page history (request caller) page :=
  .mk (.newest 0) le_rfl (.cons .transaction .nil) (.refl _)

theorem run (getIndex : List ITonTransaction → ITonTransaction → Int) :
    ∃ trace, Run (Step getIndex) (init history) (trace ++ [(delivered, .deliver response')])
      (delivered.deliver [] response') := by
  have hanswered : answered.responses = [response', response] := rfl
  have hcall : Run (Step getIndex) (init history) _ asked :=
    (Run.nil.snoc (.asked (r := request true) rfl)).snoc (.asked (r := request false) rfl)
  have hanswer : Run (Step getIndex) (init history) _ answered :=
    (hcall.snoc (.answered (.swap _ _ _) (page_correct true))).snoc
      (.answered (.refl _) (page_correct false))
  have hdeliver : Run (Step getIndex) (init history) _ delivered :=
    hanswer.snoc (.delivered (hanswered ▸ .swap _ _ _))
  exact ⟨_, hdeliver.snoc (.delivered (.refl _))⟩

end TwoCallers

/-- The transaction both callers fetched is announced once. -/
theorem announced_once_two_callers :
    Descending (lts TwoCallers.delivered.transactions) ∧
      ∀ t ∈ TwoCallers.delivered.transactions,
        (TwoCallers.delivered.deliver [] TwoCallers.response').deliveries t = 1 := by
  obtain ⟨trace, hrun⟩ := TwoCallers.run (fun _ _ => -1)
  exact ⟨(announced_once hrun).1, (announced_once hrun).2.2.1⟩

end Ton.Wallet
