import TopWallets.HttpPaging
import TopWallets.Transactions

/- An error on the way from the lite server to the transaction list:
   `GetTransactionsQuery.OnResult`, `TonUnknownWallet.GetTransactionsCore`,
   `Wallet.GetTransactions` and `TransactionPanel.GetTransactions`.

   The HTTP server is asked when a query has transactions and an error. But a query with
   an error has no transactions, and its list is null (`onResult_error`). So the HTTP
   server is never asked (`not_consulted`), and the panel takes every error for the end.
   A call does what it should exactly when the query does not fail (`sound_iff`).

   Correspondence (C# ↔ Lean):
     how a query ends, `OnResult`              ↔ `QueryResult`, `GetTransactionsQuery.answer`
     `TonUnknownWallet.GetTransactionsCore`    ↔ `TonUnknownWallet.getTransactionsCore`
     `Wallet.GetTransactions`                  ↔ `Wallet.getTransactions`
     `TransactionPanel.GetTransactions`        ↔ `TransactionPanel.getTransactions`, `.handle`
   A query that is not sent raises out of all four. A page has a transaction: `validate`
   refuses an empty list. -/
namespace Ton

/-- How the query of the lite server ends. -/
inductive QueryResult where
  /-- The client is disposed. -/
  | disposed
  | error (text : String)
  | page (first : GetTransactionsQuery.RTransaction)
      (others : List GetTransactionsQuery.RTransaction)

def GetTransactionsQuery.nonEmptyError : String :=
  "[Error : 0 : transaction list must be non-empty]"

/-- `OnResult`: what the handler is given, if it is called. The text is that of the language for
`allTransactionLoaded`. -/
def GetTransactionsQuery.answer (R : Reader) (allTransactionLoaded : String) :
    QueryResult → Option Answer
  -- `cellHandlerFixed` is null
  | .disposed => none
  | .error text => some (none, some (if text = nonEmptyError then allTransactionLoaded else text))
  | .page first others =>
    match R.getTransactions (first :: others) with
    | .ok trs => some (trs, none)
    | .error _ => none

/-- Whether the HTTP server is asked, and what the handler is given. -/
def TonUnknownWallet.getTransactionsCore (lite : Option Answer) (http : Answer) :
    Bool × Option Answer :=
  match lite with
  | none => (false, none)
  | some (ts, e) => if ts.isSome ∧ e.isSome then (true, some http) else (false, some (ts, e))

/-- A transaction of the list. -/
def ITransactionBase.toTon : ITransactionBase → ITonTransaction
  | .transaction head detail => .transaction head.lt head.utime detail.shown.1.isOut
  | .group head _ => .group head.lt head.utime

/-- What the handler of a panel is given: the transactions, null for the end, and the error. -/
abbrev Told := Option (List ITonTransaction) × Option String

/-- The list of the wallet after the core has answered, and what is told. -/
def Wallet.mergeAnswer (transactions : List ITonTransaction) (last : Option ITonTransaction) :
    Answer → List ITonTransaction × Told
  | (ts, some e) => (transactions, ts.map fun l => l.map ITransactionBase.toTon, some e)
  | (none, none) => (transactions, none, none)
  | (some ts, none) =>
    let tra := entering transactions last (ts.map ITransactionBase.toTon)
    (add transactions tra, some tra, none)

namespace TransactionPanel

/-- The panel with the list of its wallet. -/
structure State where
  walletTransactions : List ITonTransaction
  transactions : List ITonTransaction
  allTransactionLoaded : Bool

/-- The account has no transaction that is older than `last`, or none at all. -/
def NoOlder (account : List Int) : Option ITonTransaction → Prop
  | none => account = []
  | some last => ∀ lt ∈ account, last.lt ≤ lt

/-- A call of `GetTransactions`: whether the wallet has no state, whether the list is at rest and
the adapter connected, how the two servers answer, and the logical times of the account. The lite
server says that the list is empty only when it is. -/
structure Call where
  isNone : Bool
  ready : Bool
  last : Option ITonTransaction
  query : QueryResult
  http : Except Exception (Option (List CatTransaction))
  account : List Int
  honest : query = .error GetTransactionsQuery.nonEmptyError → NoOlder account last

/-- The query neither has a page nor says that there is nothing more. -/
def Call.Fails (c : Call) : Prop :=
  match c.query with
  | .disposed => True
  | .error text => text ≠ GetTransactionsQuery.nonEmptyError
  | .page _ _ => False

section
variable (R : Reader) (allTransactionLoaded : String)
variable (getIndex : List ITonTransaction → ITonTransaction → Int) (count : Nat)

/-- The call reaches the core: the panel asks, and the wallet has nothing of it yet. -/
def Asks (s : State) (c : Call) : Prop :=
  c.isNone = false ∧ s.allTransactionLoaded = false ∧ c.ready = true ∧
    fromCache getIndex s.walletTransactions c.last count = none

instance (s : State) (c : Call) : Decidable (Asks getIndex count s c) :=
  inferInstanceAs (Decidable (_ ∧ _))

/-- What the core does in a call. -/
def core (c : Call) : Bool × Option Answer :=
  TonUnknownWallet.getTransactionsCore (GetTransactionsQuery.answer R allTransactionLoaded c.query)
    (TonApiCat.getTransactions R (c.last.elim 0 ITonTransaction.utime) c.http)

/-- The handler of the panel. -/
def handle (last : Option ITonTransaction) (s : State) : Told → State
  | (none, _) => { s with allTransactionLoaded := true }
  | (some ts, _) =>
    match last, s.transactions with
    | none, first :: _ => { s with
        transactions := ts.takeWhile (fun t => t.compareTo first = .gt) ++ s.transactions }
    | _, _ => { s with transactions := s.transactions ++ ts }

/-- What the handler is told of a call that reaches the core. -/
def told (s : State) (c : Call) : Option Told :=
  (core R allTransactionLoaded c).2.map fun answer =>
    (Wallet.mergeAnswer s.walletTransactions c.last answer).2

def getTransactions (s : State) (c : Call) : State :=
  if c.isNone = true ∧ s.allTransactionLoaded = false then { s with allTransactionLoaded := true }
  else if s.allTransactionLoaded = false ∧ c.ready = true then
    match fromCache getIndex s.walletTransactions c.last count with
    | some tra => handle c.last s (some tra, none)
    | none =>
      match (core R allTransactionLoaded c).2 with
      | none => s
      | some answer =>
        let merged := Wallet.mergeAnswer s.walletTransactions c.last answer
        handle c.last { s with walletTransactions := merged.1 } merged.2
  else s

/-- A failure makes the core ask the HTTP server and does not end the list, and the list ends only
where the account does. -/
structure Sound (s : State) (c : Call) : Prop where
  consults : Asks getIndex count s c → c.Fails → (core R allTransactionLoaded c).1 = true
  ended : Asks getIndex count s c → ∀ e, told R allTransactionLoaded s c = some (none, e) →
    NoOlder c.account c.last
  flag : Asks getIndex count s c → c.Fails →
    (getTransactions R allTransactionLoaded getIndex count s c).allTransactionLoaded = false

end

/-! ## The layers -/

section
variable {R : Reader} {allTransactionLoaded : String}

/-- A page has no error, and is not null. -/
theorem answer_page {first : GetTransactionsQuery.RTransaction}
    {others : List GetTransactionsQuery.RTransaction} {answer : Answer}
    (h : GetTransactionsQuery.answer R allTransactionLoaded (.page first others) = some answer) :
    ∃ trs, answer = (some trs, none) := by
  unfold GetTransactionsQuery.answer Reader.getTransactions at h
  simp only [List.cons_ne_nil, if_false] at h
  cases htrs : (first :: others).mapM R.transaction with
  | error e =>
    rw [htrs] at h
    cases h
  | ok trs =>
    rw [htrs] at h
    exact ⟨trs, (Option.some.inj h).symm⟩

/-- The HTTP server is never asked. -/
theorem not_consulted (c : Call) : (core R allTransactionLoaded c).1 = false := by
  unfold core
  cases hquery : c.query with
  | disposed => rfl
  | error text => rfl
  | page first others =>
    cases hanswer : GetTransactionsQuery.answer R allTransactionLoaded (.page first others) with
    | none => rfl
    | some answer =>
      obtain ⟨trs, rfl⟩ := answer_page hanswer
      rfl

variable (R allTransactionLoaded)
variable (getIndex : List ITonTransaction → ITonTransaction → Int) (count : Nat)

/-- A list that the panel is given never ends it. -/
theorem allTransactionLoaded_handle (last : Option ITonTransaction) (s : State)
    (ts : List ITonTransaction) (e : Option String) :
    (handle last s (some ts, e)).allTransactionLoaded = s.allTransactionLoaded := by
  unfold handle
  simp only
  split <;> rfl

/-- A call that reaches the core ends the list exactly when the query has an error. -/
theorem allTransactionLoaded_iff {s : State} {c : Call} (hasks : Asks getIndex count s c) :
    (getTransactions R allTransactionLoaded getIndex count s c).allTransactionLoaded = true ↔
      ∃ text, c.query = .error text := by
  obtain ⟨hnone, hopen, hready, hcache⟩ := hasks
  unfold getTransactions
  rw [if_neg (by simp [hnone]), if_pos ⟨hopen, hready⟩, hcache]
  unfold core
  cases c.query with
  | disposed =>
    refine iff_of_false ?_ nofun
    simp only [GetTransactionsQuery.answer, TonUnknownWallet.getTransactionsCore, hopen]
    exact nofun
  | error text => exact iff_of_true rfl ⟨text, rfl⟩
  | page first others =>
    refine iff_of_false ?_ nofun
    cases hanswer : GetTransactionsQuery.answer R allTransactionLoaded (.page first others) with
    | none =>
      simp only [TonUnknownWallet.getTransactionsCore, hopen]
      exact nofun
    | some answer =>
      obtain ⟨trs, rfl⟩ := answer_page hanswer
      simp only [TonUnknownWallet.getTransactionsCore, Option.isSome_some, Option.isSome_none,
        and_false, Bool.false_eq_true, if_false, Wallet.mergeAnswer, allTransactionLoaded_handle,
        hopen]
      exact nofun

/-- What is told of a call whose query does not fail is told of the account. -/
theorem noOlder_of_told {s : State} {c : Call} (hanswers : ¬ c.Fails) {e : Option String}
    (htold : told R allTransactionLoaded s c = some (none, e)) : NoOlder c.account c.last := by
  unfold Call.Fails at hanswers
  unfold told core at htold
  cases hquery : c.query with
  | disposed =>
    rw [hquery] at hanswers
    exact absurd trivial hanswers
  | error text =>
    rw [hquery] at hanswers
    exact c.honest (by rw [hquery, not_not.1 hanswers])
  | page first others =>
    rw [hquery] at htold
    cases hanswer : GetTransactionsQuery.answer R allTransactionLoaded (.page first others) with
    | none =>
      rw [hanswer] at htold
      cases htold
    | some answer =>
      obtain ⟨trs, rfl⟩ := answer_page hanswer
      rw [hanswer] at htold
      cases htold

/-- A call does what it should exactly when it is not asked of a query that fails: no failure is
taken to the HTTP server, and every error ends the list. -/
theorem sound_iff (s : State) (c : Call) :
    (Sound R allTransactionLoaded getIndex count s c ↔
      (Asks getIndex count s c → ¬ c.Fails)) ∧
    (core R allTransactionLoaded c).1 = false ∧
    (Asks getIndex count s c →
      ((getTransactions R allTransactionLoaded getIndex count s c).allTransactionLoaded = true ↔
        ∃ text, c.query = .error text)) := by
  refine ⟨⟨?_, ?_⟩, not_consulted c,
    allTransactionLoaded_iff R allTransactionLoaded getIndex count⟩
  · intro h hasks hfails
    have hconsults := h.consults hasks hfails
    rw [not_consulted] at hconsults
    cases hconsults
  · intro h
    exact ⟨fun hasks hfails => absurd hfails (h hasks),
      fun hasks e htold => noOlder_of_told R allTransactionLoaded (h hasks) htold,
      fun hasks hfails => absurd hfails (h hasks)⟩

end

/-! ## A query that times out -/

namespace Timeout

def last : ITonTransaction := .transaction 5 1700000005 true

/-- The panel shows the newest of two transactions. -/
def state : State := ⟨[last], [last], false⟩

def call : Call where
  isNone := false
  ready := true
  last := some last
  query := .error "[Error : 652 : adnl query timeout]"
  http := .ok (some [{ Reader.OneOut.cat 1000000000 with lt := 3 }])
  account := [5, 3]
  honest h := by
    have htext := QueryResult.error.inj h
    exact absurd htext (by decide)

end Timeout

/-- The HTTP server has the older transaction and is not asked for it. -/
theorem not_sound_timeout :
    ¬ ∀ (R : Reader) (allTransactionLoaded : String)
      (getIndex : List ITonTransaction → ITonTransaction → Int) (count : Nat) (s : State)
      (c : Call), Sound R allTransactionLoaded getIndex count s c := by
  intro hall
  have hsound := hall (Reader.OneOut.reader .walletV3) "All transactions loaded" (fun _ _ => 0) 16
    Timeout.state Timeout.call
  have hasks : Asks (fun _ _ => 0) 16 Timeout.state Timeout.call := by decide
  have hfails : Timeout.call.Fails := by
    simp only [Call.Fails, Timeout.call]
    decide
  have hconsults := hsound.consults hasks hfails
  rw [not_consulted] at hconsults
  cases hconsults

end TransactionPanel
end Ton
