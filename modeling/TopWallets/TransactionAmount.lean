import Mathlib

/- The amount of a transaction in a currency: `TransactionGroup.GetAmount` and
   `Transaction.GetAmount`.

   A group goes over its details and takes those whose symbol is the one asked for. The
   fee goes out with the first outgoing one and is then cleared. Amounts are exact
   rationals here.

   The loop is the difference of two sums and of the fee, if there is an outgoing detail
   (`getAmount_eq`); so the order of the details does not matter (`getAmount_perm`). The
   symbol of the fee is not looked at. The amount is the one that leaves a fee in another
   currency out exactly when there is no outgoing detail, the fee is in the symbol, or the
   fee is nothing (`amount_accounts_iff`).

   Correspondence (C# ↔ Lean):
     `Balance`, its `decimal` value       ↔ `Balance`, `Balance.toDecimal`
     `TransactionDetail`                  ↔ `TransactionDetail`
     a round of the loop, the group's loop ↔ `TransactionGroup.round`, `.getAmount`
     `Transaction.GetAmount`              ↔ `Transaction.getAmount` -/
namespace Ton

/-- An amount in a currency. -/
structure Balance where
  symbol : Option (List Char)
  numerator : Nat
  denominator : Nat
  deriving DecidableEq

def Balance.toDecimal (b : Balance) : ℚ := b.numerator / b.denominator

/-- `Gram`. -/
def Balance.gram (value : Nat) : Balance := ⟨some "TON".toList, value, 1000000000⟩

structure TransactionDetail where
  address : Option (List Char)
  amount : Balance
  message : Option (List Char)
  type : Option (List Char)
  isOut : Bool
  deriving DecidableEq

/-- What `GetAmount` reads of a group. -/
structure TransactionGroup where
  fee : Balance
  details : List TransactionDetail

/-- What it reads of a transaction, which is a detail itself. -/
structure Transaction where
  fee : Balance
  detail : TransactionDetail

variable (symbol : Option (List Char))

/-- The amount so far and the fee still to be taken. -/
def TransactionGroup.round (acc : ℚ × ℚ) (transaction : TransactionDetail) : ℚ × ℚ :=
  if transaction.amount.symbol = symbol then
    if transaction.isOut then (acc.1 - (transaction.amount.toDecimal + acc.2), 0)
    else (acc.1 + transaction.amount.toDecimal, acc.2)
  else acc

def TransactionGroup.getAmount (g : TransactionGroup) : ℚ :=
  (g.details.foldl (round symbol) (0, g.fee.toDecimal)).1

def Transaction.getAmount (t : Transaction) : ℚ :=
  if t.detail.amount.symbol = symbol then
    if t.detail.isOut then -(t.detail.amount.toDecimal + t.fee.toDecimal)
    else t.detail.amount.toDecimal
  else 0

/-! ## What the amount should be -/

/-- The sum of the details of one direction in the symbol. -/
def total (isOut : Bool) (details : List TransactionDetail) : ℚ :=
  ((details.filter fun d => d.amount.symbol = symbol ∧ d.isOut = isOut).map
    fun d => d.amount.toDecimal).sum

/-- There is an outgoing detail in the symbol. -/
def Sends (details : List TransactionDetail) : Prop :=
  ∃ d ∈ details, d.amount.symbol = symbol ∧ d.isOut = true

instance (details : List TransactionDetail) : Decidable (Sends symbol details) :=
  inferInstanceAs (Decidable (∃ d ∈ details, _))

/-- Incoming less outgoing, less the fee if it is in the symbol and something goes out. -/
def accounted (fee : Balance) (details : List TransactionDetail) : ℚ :=
  total symbol false details - total symbol true details -
    if Sends symbol details ∧ fee.symbol = symbol then fee.toDecimal else 0

/-- The fee may be taken with an outgoing detail. -/
def FeeFits (fee : Balance) (details : List TransactionDetail) : Prop :=
  Sends symbol details → fee.symbol = symbol ∨ fee.toDecimal = 0

/-! ## The loop -/

variable {symbol}

theorem total_cons (isOut : Bool) (d : TransactionDetail) (details : List TransactionDetail) :
    total symbol isOut (d :: details) =
      (if d.amount.symbol = symbol ∧ d.isOut = isOut then d.amount.toDecimal else 0) +
        total symbol isOut details := by
  unfold total
  by_cases h : d.amount.symbol = symbol ∧ d.isOut = isOut
  · rw [if_pos h, List.filter_cons_of_pos (by simpa using h), List.map_cons, List.sum_cons]
  · rw [if_neg h, List.filter_cons_of_neg (by simpa using h), zero_add]

theorem sends_cons (d : TransactionDetail) (details : List TransactionDetail) :
    Sends symbol (d :: details) ↔
      (d.amount.symbol = symbol ∧ d.isOut = true) ∨ Sends symbol details := by
  simp [Sends]

/-- From any amount and fee the loop adds the sums and takes the fee at most once. -/
theorem TransactionGroup.foldl_round (details : List TransactionDetail) (amount fee : ℚ) :
    (details.foldl (round symbol) (amount, fee)).1 =
      amount + total symbol false details - total symbol true details -
        if Sends symbol details then fee else 0 := by
  induction details generalizing amount fee with
  | nil => simp [total, Sends]
  | cons d details ih =>
    rw [List.foldl_cons, total_cons, total_cons]
    simp only [sends_cons, round]
    by_cases hsymbol : d.amount.symbol = symbol
    · cases hout : d.isOut with
      | false =>
        simp only [hsymbol, if_true, ih]
        simp
        ring
      | true =>
        -- the fee is gone after this detail
        simp only [hsymbol, if_true, ih]
        simp
        ring
    · simp [hsymbol, ih]

theorem TransactionGroup.getAmount_eq (g : TransactionGroup) :
    g.getAmount symbol = total symbol false g.details - total symbol true g.details -
      if Sends symbol g.details then g.fee.toDecimal else 0 := by
  rw [getAmount, foldl_round, zero_add]

theorem total_perm {isOut : Bool} {details details' : List TransactionDetail}
    (h : details.Perm details') : total symbol isOut details = total symbol isOut details' := by
  unfold total
  exact ((h.filter _).map _).sum_eq

theorem sends_perm {details details' : List TransactionDetail} (h : details.Perm details') :
    Sends symbol details ↔ Sends symbol details' := by
  unfold Sends
  simp only [h.mem_iff]

/-- The order of the details does not matter. -/
theorem TransactionGroup.getAmount_perm {g g' : TransactionGroup} (hfee : g.fee = g'.fee)
    (h : g.details.Perm g'.details) : g.getAmount symbol = g'.getAmount symbol := by
  rw [getAmount_eq, getAmount_eq, total_perm h, total_perm h, hfee]
  simp only [sends_perm h]

/-- Of a transaction the same is computed as of a group of its one detail. -/
theorem Transaction.getAmount_eq (t : Transaction) :
    t.getAmount symbol = TransactionGroup.getAmount symbol ⟨t.fee, [t.detail]⟩ := by
  rw [TransactionGroup.getAmount_eq]
  simp only [total_cons, sends_cons, getAmount]
  by_cases hsymbol : t.detail.amount.symbol = symbol
  · cases hout : t.detail.isOut <;> simp [hsymbol, total, Sends]
    ring
  · simp [hsymbol, total, Sends]

/-- The amount is right exactly when the fee may be taken. -/
theorem TransactionGroup.getAmount_eq_accounted_iff (g : TransactionGroup) :
    g.getAmount symbol = accounted symbol g.fee g.details ↔ FeeFits symbol g.fee g.details := by
  rw [getAmount_eq, accounted, FeeFits]
  by_cases hsends : Sends symbol g.details
  · by_cases hfee : g.fee.symbol = symbol
    · simp [hsends, hfee]
    · simp [hsends, hfee]
  · simp [hsends]

/-- What `GetAmount` accounts for, in groups and in single transactions. -/
theorem amount_accounts_iff (g : TransactionGroup) (t : Transaction)
    (symbol : Option (List Char)) :
    (g.getAmount symbol = accounted symbol g.fee g.details ↔ FeeFits symbol g.fee g.details) ∧
    (t.getAmount symbol = accounted symbol t.fee [t.detail] ↔ FeeFits symbol t.fee [t.detail]) ∧
    (∀ details, g.details.Perm details →
      TransactionGroup.getAmount symbol ⟨g.fee, details⟩ = g.getAmount symbol) ∧
    g.getAmount symbol = total symbol false g.details - total symbol true g.details -
      if Sends symbol g.details then g.fee.toDecimal else 0 := by
  refine ⟨g.getAmount_eq_accounted_iff, ?_, ?_, g.getAmount_eq⟩
  · rw [t.getAmount_eq]
    exact TransactionGroup.getAmount_eq_accounted_iff ⟨t.fee, [t.detail]⟩
  · intro details h
    exact TransactionGroup.getAmount_perm rfl h.symm

/-- Five of a jetton go out, at a fee of a hundredth of a gram. -/
theorem not_accounted_jetton :
    ¬ ∀ (g : TransactionGroup) (symbol : Option (List Char)),
      g.getAmount symbol = accounted symbol g.fee g.details := by
  intro hall
  have h := hall
    ⟨.gram 10000000, [⟨none, ⟨some "USDT".toList, 5000000, 1000000⟩, none, none, true⟩]⟩
    (some "USDT".toList)
  rw [TransactionGroup.getAmount_eq_accounted_iff] at h
  obtain hsymbol | hzero := h (by decide)
  · exact absurd hsymbol (by decide)
  · exact absurd hzero (by norm_num [Balance.toDecimal, Balance.gram])

end Ton
