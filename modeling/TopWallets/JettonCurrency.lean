import TopWallets.TransactionReaders
import TopWallets.Lib.Runs

/- The currency of a detail and the symbol it is counted by.

   `GetAmount` takes the details whose amount has the symbol of the wallet. A TON wallet has
   the symbol TON, a jetton minter or wallet the first eight characters of its jetton's
   symbol; the amount of a jetton has the whole symbol of the jetton the reader found.
   When a wallet is given another info with another symbol, the setter writes the new one
   into the details of its jetton.

   So what is counted is what is in the wallet's currency, in every state of a run, exactly
   when two things hold (`counts_own_iff`). A transaction is read while the wallet's symbol
   is that of its own jetton as found, and of no other jetton, nor TON; and a new info does
   not bring the symbol of a detail in another currency.

   Correspondence (C# ↔ Lean):
     `TonWallet`, `JettonMinter` and `JettonWallet`   ↔ `Holder`
     `JettonMinter.Symbol`, the adapter's `Symbol`    ↔ `Holder.symbol`
     the setter of `JettonMinter.JettonInfo`          ↔ `State.setJettonInfo`
   `First(8)` comes from a library and is a parameter. The infos that a wallet is given
   are of its jetton. -/
namespace Ton

open Runs

/-- What an amount is of: the native coin, or the jetton with an address. -/
inductive Currency where
  | ton
  | jetton (jettonAddress : Option (List Char))
  deriving DecidableEq

namespace ITransactionDetail

def symbol (d : ITransactionDetail) : Option (List Char) := d.shown.1.amount.symbol

def currency : ITransactionDetail → Currency
  | .plain _ => .ton
  | .ton _ => .ton
  | .jetton message => .jetton message.jetton.jettonAddress

end ITransactionDetail

namespace JettonCurrency

/-- A TON wallet, or a jetton minter or wallet with the info of its jetton. -/
inductive Holder where
  | ton
  | jetton (jettonInfo : Jetton)

structure State where
  wallet : Holder
  transactions : List ITransactionBase

inductive Action where
  /-- The reader assembles a transaction, with the jettons that are found then. -/
  | load (R : Reader) (rtr : GetTransactionsQuery.RTransaction)
  | setJettonInfo (value : Option Jetton)

def Holder.currency : Holder → Currency
  | .ton => .ton
  | .jetton jettonInfo => .jetton jettonInfo.jettonAddress

section
variable (first : Option (List Char) → Option (List Char))

def Holder.symbol : Holder → Option (List Char)
  | .ton => some "TON".toList
  | .jetton jettonInfo => first jettonInfo.symbol

/-- The setter on a detail that is an `IJettonSource`. -/
def rewriteDetail (prev value : Jetton) : ITransactionDetail → ITransactionDetail
  | .jetton message =>
    if message.jetton.jettonAddress = prev.jettonAddress then
      .jetton { message with
        jetton := value
        detail := { message.detail with
          amount := { message.detail.amount with symbol := first value.symbol } } }
    else .jetton message
  | detail => detail

/-- The setter on a transaction. A `TonTransaction` is no `IJettonSource`. -/
def rewrite (prev value : Jetton) : ITransactionBase → ITransactionBase
  | .group head details => .group head (details.map (rewriteDetail first prev value))
  | .transaction head detail => .transaction head detail

def State.setJettonInfo (s : State) : Option Jetton → State
  | none => s
  | some value =>
    match s.wallet with
    | .ton => s
    | .jetton prev => {
        wallet := .jetton value
        transactions :=
          if prev.symbol ≠ value.symbol then s.transactions.map (rewrite first prev value)
          else s.transactions }

/-- The wallet reads a transaction, or is given an info of its jetton. -/
inductive Step : State → Action → State → Prop
  | load {s : State} {R : Reader} {rtr : GetTransactionsQuery.RTransaction}
      {tr : ITransactionBase} : R.transaction rtr = .ok tr →
      Step s (.load R rtr) { s with transactions := s.transactions ++ [tr] }
  | setJettonInfo {s : State} {value : Option Jetton} :
      (∀ v ∈ value, s.wallet.currency = .jetton v.jettonAddress) →
      Step s (.setJettonInfo value) (s.setJettonInfo first value)

/-- The details that `GetAmount` takes into account are those in the wallet's currency. -/
def CountsOwn (wallet : Holder) (tr : ITransactionBase) : Prop :=
  tr.details.filter (fun d => d.symbol = wallet.symbol first) =
    tr.details.filter fun d => d.currency = wallet.currency

end

/-- The jetton of a message, if it is a jetton operation whose jetton is found. -/
def found (R : Reader) (msg : Comx.Rawmessage) : Option Jetton :=
  match R.body msg with
  | .ok body => body.amount.bind fun _ =>
      R.jettonOf (some (if msg.isOut then msg.destination else msg.source))
  | .error _ => none

section
variable (first : Option (List Char) → Option (List Char))

/-- The symbol of the wallet tells its currency in the messages of a transaction. -/
structure Tells (wallet : Holder) (R : Reader) (rtr : GetTransactionsQuery.RTransaction) :
    Prop where
  coin : rtr.messages ≠ [] → wallet.currency ≠ .ton → wallet.symbol first ≠ some "TON".toList
  own : ∀ msg ∈ rtr.messages, ∀ jetton ∈ found R msg,
    .jetton jetton.jettonAddress = wallet.currency → jetton.symbol = wallet.symbol first
  others : ∀ msg ∈ rtr.messages, ∀ jetton ∈ found R msg,
    .jetton jetton.jettonAddress ≠ wallet.currency → jetton.symbol ≠ wallet.symbol first

/-- The symbol a wallet gets with another info is not that of a detail in another currency. -/
def Good (s : State) : Action → Prop
  | .load R rtr => Tells first s.wallet R rtr
  | .setJettonInfo none => True
  | .setJettonInfo (some value) => ∀ prev, s.wallet = .jetton prev → prev.symbol ≠ value.symbol →
      ∀ tr ∈ s.transactions, ∀ d ∈ tr.details,
        d.currency ≠ s.wallet.currency → d.symbol ≠ first value.symbol

end

/-! ## What is counted -/

theorem filter_eq_filter_iff {α : Type} {p q : α → Bool} {l : List α} :
    l.filter p = l.filter q ↔ ∀ a ∈ l, (p a = true ↔ q a = true) := by
  constructor
  · intro h a ha
    have hp : a ∈ l.filter p ↔ a ∈ l.filter q := by rw [h]
    simpa [List.mem_filter, ha] using hp
  · intro h
    exact List.filter_congr fun a ha => Bool.eq_iff_iff.2 (h a ha)

variable {first : Option (List Char) → Option (List Char)}

theorem countsOwn_iff {wallet : Holder} {tr : ITransactionBase} :
    CountsOwn first wallet tr ↔
      ∀ d ∈ tr.details, (d.symbol = wallet.symbol first ↔ d.currency = wallet.currency) := by
  unfold CountsOwn
  rw [filter_eq_filter_iff]
  simp only [decide_eq_true_eq]

/-! ## Reading -/

/-- The symbols and the currencies of the details of a message. -/
def tags (R : Reader) (msg : Comx.Rawmessage) : List (Option (List Char) × Currency) :=
  (found R msg).toList.map (fun jetton => (jetton.symbol, .jetton jetton.jettonAddress)) ++
    [(some "TON".toList, .ton)]

theorem tags_round {R : Reader} {msg : Comx.Rawmessage}
    {acc acc' : Nat × List ITransactionDetail} (h : R.round acc msg = .ok acc') :
    acc'.2.map (fun d => (d.symbol, d.currency)) =
      acc.2.map (fun d => (d.symbol, d.currency)) ++ tags R msg := by
  unfold Reader.round at h
  obtain ⟨body, hbody, h⟩ := bind_ok_iff.1 h
  obtain rfl := Except.ok.inj h
  unfold tags found
  rw [hbody]
  simp only [List.map_append, List.map_map]
  cases body.amount with
  | none => rfl
  | some amount =>
    simp only [Option.bind_some]
    cases R.jettonOf (some (if msg.isOut = true then msg.destination else msg.source)) <;> rfl

theorem tags_foldlM {R : Reader} {msgs : List Comx.Rawmessage}
    {acc acc' : Nat × List ITransactionDetail} (h : msgs.foldlM R.round acc = .ok acc') :
    acc'.2.map (fun d => (d.symbol, d.currency)) =
      acc.2.map (fun d => (d.symbol, d.currency)) ++ msgs.flatMap (tags R) := by
  induction msgs generalizing acc with
  | nil =>
    obtain rfl := Except.ok.inj h
    simp
  | cons msg msgs ih =>
    rw [List.foldlM_cons] at h
    obtain ⟨acc₁, hround, h⟩ := bind_ok_iff.1 h
    rw [ih h, tags_round hround, List.flatMap_cons, List.append_assoc]

/-- The details of a transaction are those of its messages. -/
theorem tags_transaction {R : Reader} {rtr : GetTransactionsQuery.RTransaction}
    {tr : ITransactionBase} (h : R.transaction rtr = .ok tr) :
    tr.details.map (fun d => (d.symbol, d.currency)) = rtr.messages.flatMap (tags R) := by
  unfold Reader.transaction at h
  obtain ⟨acc, hfold, h⟩ := bind_ok_iff.1 h
  obtain rfl := Except.ok.inj h
  rw [ITransactionBase.details_build, tags_foldlM hfold]
  rfl

/-- A transaction is counted right when it is read exactly when the symbol tells the currency. -/
theorem countsOwn_iff_tells {R : Reader} {rtr : GetTransactionsQuery.RTransaction}
    {tr : ITransactionBase} (h : R.transaction rtr = .ok tr) (wallet : Holder) :
    CountsOwn first wallet tr ↔ Tells first wallet R rtr := by
  have htags : CountsOwn first wallet tr ↔ ∀ msg ∈ rtr.messages, ∀ tag ∈ tags R msg,
      (tag.1 = wallet.symbol first ↔ tag.2 = wallet.currency) := by
    have hall : (∀ tag ∈ rtr.messages.flatMap (tags R),
        (tag.1 = wallet.symbol first ↔ tag.2 = wallet.currency)) ↔ CountsOwn first wallet tr := by
      rw [← tags_transaction h, List.forall_mem_map, countsOwn_iff]
    rw [← hall]
    simp only [List.mem_flatMap, forall_exists_index, and_imp]
    exact ⟨fun h msg hmsg tag htag => h tag msg hmsg htag,
      fun h tag msg hmsg htag => h msg hmsg tag htag⟩
  rw [htags]
  constructor
  · intro hall
    refine ⟨?_, ?_, ?_⟩
    · intro hne hcurrency hsymbol
      obtain ⟨msg, hmsg⟩ := List.exists_mem_of_ne_nil _ hne
      have hcoin := hall msg hmsg (some "TON".toList, .ton) (by simp [tags])
      exact hcurrency (hcoin.1 hsymbol.symm).symm
    · intro msg hmsg jetton hjetton howner
      have htag := hall msg hmsg (jetton.symbol, .jetton jetton.jettonAddress)
        (by simp [tags, Option.mem_def.1 hjetton])
      exact htag.2 howner
    · intro msg hmsg jetton hjetton hother hsymbol
      have htag := hall msg hmsg (jetton.symbol, .jetton jetton.jettonAddress)
        (by simp [tags, Option.mem_def.1 hjetton])
      exact hother (htag.1 hsymbol)
  · intro h msg hmsg tag htag
    obtain hjetton | hcoin := List.mem_append.1 htag
    · obtain ⟨jetton, hfound, rfl⟩ := List.mem_map.1 hjetton
      have hjetton := Option.mem_toList.1 hfound
      by_cases howner : Currency.jetton jetton.jettonAddress = wallet.currency
      · exact iff_of_true (h.own msg hmsg jetton hjetton howner) howner
      · exact iff_of_false (h.others msg hmsg jetton hjetton howner) howner
    · obtain rfl := List.mem_singleton.1 hcoin
      by_cases hcurrency : wallet.currency = .ton
      · -- only a TON wallet has this currency
        have hton : wallet = .ton := by
          cases wallet with
          | ton => rfl
          | jetton jettonInfo => cases hcurrency
        rw [hton]
        exact iff_of_true rfl rfl
      · have hne : rtr.messages ≠ [] := List.ne_nil_of_mem hmsg
        exact iff_of_false (h.coin hne hcurrency).symm (Ne.symm hcurrency)

/-! ## The setter -/

/-- A transaction that is no group has no detail of a jetton. -/
def Plain (tr : ITransactionBase) : Prop :=
  ∀ head detail, tr = .transaction head detail → detail.currency = .ton

theorem plain_of_transaction {R : Reader} {rtr : GetTransactionsQuery.RTransaction}
    {tr : ITransactionBase} (h : R.transaction rtr = .ok tr) : Plain tr := by
  intro head detail htr
  have htags := tags_transaction h
  rw [htr, ITransactionBase.details, List.map_singleton] at htags
  cases hmsgs : rtr.messages with
  | nil =>
    rw [hmsgs] at htags
    cases htags
  | cons msg msgs =>
    rw [hmsgs, List.flatMap_cons, tags] at htags
    cases hfound : found R msg with
    | none =>
      rw [hfound] at htags
      have hhead := congrArg List.head? htags
      exact congrArg Prod.snd (Option.some.inj hhead)
    | some jetton =>
      -- the message would have two details
      rw [hfound] at htags
      have hlen := congrArg List.length htags
      simp at hlen

theorem rewriteDetail_of_ne {prev value : Jetton} {d : ITransactionDetail}
    (h : d.currency ≠ .jetton prev.jettonAddress) : rewriteDetail first prev value d = d := by
  cases d with
  | plain detail => rfl
  | ton message => rfl
  | jetton message => exact if_neg fun haddress => h (congrArg Currency.jetton haddress)

theorem rewriteDetail_of_eq {prev value : Jetton} {d : ITransactionDetail}
    (h : d.currency = .jetton prev.jettonAddress) :
    (rewriteDetail first prev value d).symbol = first value.symbol ∧
      (rewriteDetail first prev value d).currency = .jetton value.jettonAddress := by
  cases d with
  | plain detail => cases h
  | ton message => cases h
  | jetton message =>
    have haddress := Currency.jetton.inj h
    rw [rewriteDetail, if_pos haddress]
    exact ⟨rfl, rfl⟩

theorem details_rewrite {prev value : Jetton} {tr : ITransactionBase} (h : Plain tr) :
    (rewrite first prev value tr).details =
      tr.details.map (rewriteDetail first prev value) := by
  cases tr with
  | transaction head detail =>
    have hton : detail.currency ≠ .jetton prev.jettonAddress := by
      rw [h head detail rfl]
      exact nofun
    rw [rewrite, ITransactionBase.details, List.map_singleton, rewriteDetail_of_ne hton]
  | group head details => rfl

theorem plain_rewrite {prev value : Jetton} {tr : ITransactionBase} (h : Plain tr) :
    Plain (rewrite first prev value tr) := by
  cases tr with
  | transaction head detail => exact h
  | group head details =>
    intro head' detail' heq
    cases heq

/-- After the setter a transaction is counted right exactly when the new symbol is that of none of
the details in another currency. -/
theorem countsOwn_rewrite_iff {prev value : Jetton} {tr : ITransactionBase} (hplain : Plain tr)
    (hsame : value.jettonAddress = prev.jettonAddress) :
    CountsOwn first (.jetton value) (rewrite first prev value tr) ↔
      ∀ d ∈ tr.details, d.currency ≠ .jetton prev.jettonAddress →
        d.symbol ≠ first value.symbol := by
  rw [countsOwn_iff, details_rewrite hplain, List.forall_mem_map]
  refine forall₂_congr fun d _ => ?_
  rw [Holder.symbol, Holder.currency, hsame]
  by_cases howner : d.currency = .jetton prev.jettonAddress
  · obtain ⟨hsymbol, hcurrency⟩ :
        (rewriteDetail first prev value d).symbol = first value.symbol ∧
          (rewriteDetail first prev value d).currency = .jetton value.jettonAddress :=
      rewriteDetail_of_eq howner
    rw [hsame] at hcurrency
    exact iff_of_true (iff_of_true hsymbol hcurrency) (fun hne => absurd howner hne)
  · rw [rewriteDetail_of_ne howner, iff_false_right howner]
    exact ⟨fun h _ => h, fun h => h howner⟩

/-! ## Runs -/

/-- The setter keeps what no symbol changes. -/
theorem countsOwn_of_symbol_eq {prev value : Jetton} (hsymbol : prev.symbol = value.symbol)
    (hsame : value.jettonAddress = prev.jettonAddress) (tr : ITransactionBase) :
    CountsOwn first (.jetton value) tr ↔ CountsOwn first (.jetton prev) tr := by
  rw [countsOwn_iff, countsOwn_iff]
  simp only [Holder.symbol, Holder.currency, hsymbol, hsame]

def State.Plain (s : State) : Prop := ∀ tr ∈ s.transactions, JettonCurrency.Plain tr

def State.CountsOwn (first : Option (List Char) → Option (List Char)) (s : State) : Prop :=
  ∀ tr ∈ s.transactions, JettonCurrency.CountsOwn first s.wallet tr

theorem plain_step {s s' : State} {a : Action} (hs : s.Plain) (hstep : Step first s a s') :
    s'.Plain := by
  unfold State.Plain at hs ⊢
  cases hstep with
  | load htr =>
    rw [List.forall_mem_append, List.forall_mem_singleton]
    exact ⟨hs, plain_of_transaction htr⟩
  | @setJettonInfo value hvalue =>
    cases value with
    | none => exact hs
    | some value =>
      unfold State.setJettonInfo
      cases s.wallet with
      | ton => exact hs
      | jetton prev =>
        simp only
        split
        · exact List.forall_mem_map.2 fun tr htr => plain_rewrite (hs tr htr)
        · exact hs

/-- A step keeps what is counted right exactly when it is good. -/
theorem countsOwn_step_iff {s s' : State} {a : Action} (hplain : s.Plain)
    (hs : s.CountsOwn first) (hstep : Step first s a s') :
    s'.CountsOwn first ↔ Good first s a := by
  unfold State.CountsOwn at hs ⊢
  cases hstep with
  | load htr =>
    rw [List.forall_mem_append, List.forall_mem_singleton, countsOwn_iff_tells htr]
    exact and_iff_right hs
  | @setJettonInfo value hvalue =>
    cases value with
    | none => exact iff_of_true hs trivial
    | some value =>
      obtain ⟨wallet, transactions⟩ := s
      cases wallet with
      | ton =>
        refine iff_of_true hs ?_
        intro prev hprev
        cases hprev
      | jetton prev =>
        have hsame : value.jettonAddress = prev.jettonAddress :=
          (Currency.jetton.inj (hvalue value rfl)).symm
        simp only [State.setJettonInfo, Good, Holder.currency]
        by_cases hsymbol : prev.symbol = value.symbol
        · rw [if_neg (not_not_intro hsymbol)]
          refine iff_of_true (fun tr htr => ?_) ?_
          · exact (countsOwn_of_symbol_eq hsymbol hsame tr).2 (hs tr htr)
          · intro prev' hprev hne
            obtain rfl := Holder.jetton.inj hprev
            exact absurd hsymbol hne
        · rw [if_pos hsymbol, List.forall_mem_map]
          have hall : (∀ tr ∈ transactions,
              CountsOwn first (.jetton value) (rewrite first prev value tr)) ↔
              ∀ tr ∈ transactions, ∀ d ∈ tr.details, d.currency ≠ .jetton prev.jettonAddress →
                d.symbol ≠ first value.symbol :=
            forall₂_congr fun tr htr => countsOwn_rewrite_iff (hplain tr htr) hsame
          rw [hall]
          constructor
          · intro h prev' hprev _
            exact h
          · intro h
            exact h prev rfl hsymbol

/-- In every state of a run the wallet counts its own currency exactly when every transaction is
read, and every info set, while the symbols tell the currencies. -/
theorem counts_own_iff {wallet : Holder} {trace : List (State × Action)} {s : State}
    (hrun : Run (Step first) ⟨wallet, []⟩ trace s) :
    (∀ t ∈ states trace s, t.CountsOwn first) ↔ ∀ p ∈ trace, Good first p.1 p.2 := by
  have hinit : (⟨wallet, []⟩ : State).Plain := List.forall_mem_nil _
  have hcounts : (⟨wallet, []⟩ : State).CountsOwn first := List.forall_mem_nil _
  exact hrun.forall_states_iff hinit plain_step hcounts countsOwn_step_iff

/-! ## A jetton with the symbol of the coin -/

namespace NamedTon

/-- The first eight characters. -/
def firstEight (symbol : Option (List Char)) : Option (List Char) := symbol.map (List.take 8)

def wallet : Holder := .jetton ⟨some "TON".toList, 9, some Reader.OneOut.address⟩

/-- The wallet reads a transaction with one gram and a comment. -/
theorem run : ∃ tr,
    (Reader.OneOut.reader .jettonWallet).transaction (Reader.OneOut.raw 1000000000) = .ok tr ∧
      Run (Step firstEight) ⟨wallet, []⟩
        [(⟨wallet, []⟩, .load (Reader.OneOut.reader .jettonWallet) (Reader.OneOut.raw 1000000000))]
        ⟨wallet, [tr]⟩ := by
  obtain ⟨tr, htr, -⟩ := Reader.transaction_of_isRaw
    (Reader.OneOut.isRawTransaction .jettonWallet 1000000000)
  exact ⟨tr, htr, Run.nil.snoc (.load htr)⟩

end NamedTon

theorem counts_own_named_ton : ∃ trace s,
    Run (Step NamedTon.firstEight) ⟨NamedTon.wallet, []⟩ trace s ∧
    ((∀ t ∈ states trace s, t.CountsOwn NamedTon.firstEight) ↔
      ∀ p ∈ trace, Good NamedTon.firstEight p.1 p.2) := by
  obtain ⟨tr, -, hrun⟩ := NamedTon.run
  exact ⟨_, _, hrun, counts_own_iff hrun⟩

/-- The gram is counted as one of the jetton. -/
theorem not_counts_own_named_ton :
    ¬ ∀ (wallet : Holder) (trace : List (State × Action)) (s : State),
      Run (Step NamedTon.firstEight) ⟨wallet, []⟩ trace s →
        ∀ t ∈ states trace s, t.CountsOwn NamedTon.firstEight := by
  intro hall
  obtain ⟨tr, htr, hrun⟩ := NamedTon.run
  have hcounts := hall _ _ _ hrun _ (mem_states_last _ _) tr List.mem_cons_self
  have htells := (countsOwn_iff_tells htr NamedTon.wallet).1 hcounts
  have hjetton : NamedTon.wallet.currency ≠ .ton := by decide
  exact htells.coin (List.cons_ne_nil _ _) hjetton (by decide)

end JettonCurrency
end Ton
