import TopWallets.Lib.Segment

/- The transactions of an account and their order: `TonTransaction`,
   `TonTransactionGroup`, their `CompareTo`, and the parts of `Wallet.GetTransactions`
   that read and fill the list of a wallet.

   One transaction of the chain may be built as either class, at any time. For
   transactions built of one account history the two `CompareTo` agree with the order
   of logical times (`compareTo_of_built`), so what a page adds to the list is, by
   logical times, the merge of a page into a window (`map_lt_add`).

   Correspondence (C# ↔ Lean):
     `TonTransaction`, `TonTransactionGroup`   ↔ `ITonTransaction`
     `CompareTo`                               ↔ `ITonTransaction.compareTo`
     `Array.Sort`, `Transactions.Sort`         ↔ `sort`
     `GetTransactions`, first lock             ↔ `fromCache`
     `GetTransactions`, lock of the callback   ↔ `entering`, `add`
   The search `QuickSort.GetIndex` comes from a library and is a parameter. -/
namespace Ton

open Segment

/-- A transaction as the chain has it. `isOut` is the direction of its only message, if it has
only one. -/
structure RawTransaction where
  lt : Int
  utime : Int
  isOut : Bool
  deriving DecidableEq

inductive ITonTransaction where
  | transaction (lt utime : Int) (isOut : Bool)
  | group (lt utime : Int)
  deriving DecidableEq

namespace ITonTransaction

def lt : ITonTransaction → Int
  | .transaction lt _ _ => lt
  | .group lt _ => lt

def utime : ITonTransaction → Int
  | .transaction _ utime _ => utime
  | .group _ utime => utime

/-- `CompareTo` of both classes. An object compares as equal with itself, and so do its fields. -/
def compareTo : ITonTransaction → ITonTransaction → Ordering
  | .transaction lt utime isOut, tt =>
    (compare lt tt.lt).then <| (compare utime tt.utime).then <|
      match tt with
      | .transaction _ _ isOut' => compare isOut isOut'
      | .group _ _ => .eq
  | .group lt utime, tt => (compare lt tt.lt).then (compare utime tt.utime)

end ITonTransaction

/-- The transaction is built of one of the chain, as either class. -/
inductive RawTransaction.Builds (r : RawTransaction) : ITonTransaction → Prop
  | transaction : r.Builds (.transaction r.lt r.utime r.isOut)
  | group : r.Builds (.group r.lt r.utime)

/-- The history of an account, newest first. -/
structure History where
  transactions : List RawTransaction
  descending : Descending (transactions.map RawTransaction.lt)

def History.lts (h : History) : List Int := h.transactions.map RawTransaction.lt

/-- The transaction is built of one of the history. -/
def History.Built (h : History) (t : ITonTransaction) : Prop := ∃ r ∈ h.transactions, r.Builds t

def lts (ts : List ITonTransaction) : List Int := ts.map ITonTransaction.lt

/-! ## The order -/

theorem RawTransaction.Builds.lt_eq {r : RawTransaction} {t : ITonTransaction} (h : r.Builds t) :
    t.lt = r.lt := by
  cases h <;> rfl

theorem History.Built.lt_mem {h : History} {t : ITonTransaction} (ht : h.Built t) :
    t.lt ∈ h.lts := by
  obtain ⟨r, hr, hbuild⟩ := ht
  rw [hbuild.lt_eq]
  exact List.mem_map_of_mem hr

/-- Logical times tell the transactions of a history apart. -/
theorem History.eq_of_lt_eq (h : History) {r r' : RawTransaction} (hr : r ∈ h.transactions)
    (hr' : r' ∈ h.transactions) (hlt : r.lt = r'.lt) : r = r' :=
  List.inj_on_of_nodup_map h.descending.nodup hr hr' hlt

theorem RawTransaction.Builds.compareTo_eq {r : RawTransaction} {t t' : ITonTransaction}
    (h : r.Builds t) (h' : r.Builds t') : t.compareTo t' = .eq := by
  cases h <;> cases h' <;>
    simp [ITonTransaction.compareTo, ITonTransaction.lt, ITonTransaction.utime]

theorem then_of_ne_eq {o o' : Ordering} (h : o ≠ .eq) : o.then o' = o := by
  cases o
  · rfl
  · exact absurd rfl h
  · rfl

theorem compareTo_of_lt_ne {t t' : ITonTransaction} (h : t.lt ≠ t'.lt) :
    t.compareTo t' = compare t.lt t'.lt := by
  have hne : compare t.lt t'.lt ≠ .eq := fun heq => h (compare_eq_iff_eq.1 heq)
  cases t with
  | transaction lt utime isOut => exact then_of_ne_eq hne
  | group lt utime => exact then_of_ne_eq hne

/-- On the transactions of one history both classes compare by logical time. -/
theorem compareTo_of_built (h : History) {t t' : ITonTransaction} (ht : h.Built t)
    (ht' : h.Built t') : t.compareTo t' = compare t.lt t'.lt := by
  by_cases hlt : t.lt = t'.lt
  · obtain ⟨r, hr, hbuild⟩ := ht
    obtain ⟨r', hr', hbuild'⟩ := ht'
    obtain rfl := h.eq_of_lt_eq hr hr' (by rw [← hbuild.lt_eq, ← hbuild'.lt_eq, hlt])
    rw [hbuild.compareTo_eq hbuild', compare_eq_iff_eq.2 hlt]
  · exact compareTo_of_lt_ne hlt

/-! ## The list of a wallet -/

/-- Newest first, by `CompareTo`. -/
def sort (ts : List ITonTransaction) : List ITonTransaction :=
  ts.insertionSort (fun a b => a.compareTo b ≠ .lt)

/-- What `GetTransactions` serves of the list: the transactions after `last`. -/
def fromCache (getIndex : List ITonTransaction → ITonTransaction → Int)
    (transactions : List ITonTransaction) (last : Option ITonTransaction) (count : Nat) :
    Option (List ITonTransaction) :=
  match last with
  | none => none
  | some last =>
    if transactions = [] ∨ transactions.getLast? = some last then none
    else
      let index := getIndex transactions last + 1
      if index < transactions.length then some ((transactions.drop index.toNat).take count)
      else none

/-- The transactions of a page that enter the list. -/
def entering (transactions : List ITonTransaction) (last : Option ITonTransaction)
    (ts : List ITonTransaction) : List ITonTransaction :=
  match last with
  | none =>
    match transactions with
    | [] => sort ts
    | first :: _ => (sort ts).takeWhile (fun t => t.compareTo first = .gt)
  | some _ =>
    match transactions.getLast? with
    | none => sort ts
    | some lastt => (sort ts).filter (fun t => t.compareTo lastt = .lt)

def add (transactions ts : List ITonTransaction) : List ITonTransaction :=
  if ts = [] then transactions else sort (transactions ++ ts)

/-! ## The list by logical times -/

variable {h : History} {transactions ts : List ITonTransaction}

theorem sort_perm (ts : List ITonTransaction) : (sort ts).Perm ts := List.perm_insertionSort _ ts

/-- Sorting puts the logical times in descending order. -/
theorem lts_sort (hts : ∀ t ∈ ts, h.Built t) {l : List Int} (hl : Descending l)
    (hperm : (lts ts).Perm l) : lts (sort ts) = l := by
  have hmap : lts (sort ts) = (lts ts).insertionSort (· ≥ ·) := by
    refine List.map_insertionSort _ _ _ _ fun a ha b hb => ?_
    rw [compareTo_of_built h (hts a ha) (hts b hb), compare_ge_iff_ge]
  have hsorted : (lts (sort ts)).Pairwise (· ≥ ·) := hmap ▸ List.pairwise_insertionSort _ _
  have hperm' : (lts (sort ts)).Perm l := ((sort_perm ts).map _).trans hperm
  exact hperm'.eq_of_pairwise' hsorted (hl.imp fun hgt => le_of_lt hgt)

theorem Built.forall_of_perm {l l' : List ITonTransaction} (hl : ∀ t ∈ l, h.Built t)
    (hperm : l'.Perm l) : ∀ t ∈ l', h.Built t := fun t ht => hl t (hperm.mem_iff.1 ht)

theorem lts_takeWhile {first : ITonTransaction} (hfirst : h.Built first)
    (hts : ∀ t ∈ ts, h.Built t) :
    lts (ts.takeWhile (fun t => t.compareTo first = .gt)) =
      (lts ts).takeWhile (first.lt < ·) := by
  induction ts with
  | nil => rfl
  | cons t ts ih =>
    rw [List.forall_mem_cons] at hts
    have hcmp : decide (t.compareTo first = .gt) = decide (first.lt < t.lt) := by
      rw [decide_eq_decide, compareTo_of_built h hts.1 hfirst, compare_gt_iff_gt]
    change _ = (t.lt :: lts ts).takeWhile _
    rw [List.takeWhile_cons, List.takeWhile_cons, hcmp]
    cases decide (first.lt < t.lt) with
    | false => rfl
    | true => exact congrArg (t.lt :: ·) (ih hts.2)

theorem lts_filter {last : ITonTransaction} (hlast : h.Built last) (hts : ∀ t ∈ ts, h.Built t) :
    lts (ts.filter (fun t => t.compareTo last = .lt)) = (lts ts).filter (· < last.lt) := by
  rw [lts, lts, List.filter_map]
  refine congrArg _ (List.filter_congr fun t ht => ?_)
  refine decide_eq_decide.2 ?_
  rw [compareTo_of_built h (hts t ht) hlast, compare_lt_iff_lt]

/-- By logical times, a refresh adds what is newer than the list. -/
theorem lts_entering_new (htransactions : ∀ t ∈ transactions, h.Built t)
    (hts : ∀ t ∈ ts, h.Built t) {page : List Int} (hpage : Descending page)
    (hperm : (lts ts).Perm page) :
    lts (entering transactions none ts) = newer (lts transactions) page := by
  have hsort := lts_sort hts hpage hperm
  cases transactions with
  | nil => exact hsort
  | cons first transactions =>
    rw [List.forall_mem_cons] at htransactions
    refine (lts_takeWhile htransactions.1 (Built.forall_of_perm hts (sort_perm ts))).trans ?_
    rw [hsort]
    rfl

/-- By logical times, a paging adds what is older than the list. -/
theorem lts_entering_old (htransactions : ∀ t ∈ transactions, h.Built t)
    (hts : ∀ t ∈ ts, h.Built t) {page : List Int} (hpage : Descending page)
    (hperm : (lts ts).Perm page) (last : ITonTransaction) :
    lts (entering transactions (some last) ts) = older (lts transactions) page := by
  have hsort := lts_sort hts hpage hperm
  rcases List.eq_nil_or_concat' transactions with rfl | ⟨transactions, lastt, rfl⟩
  · exact hsort
  · have hlastt : h.Built lastt := htransactions lastt (by simp)
    have hfilter := lts_filter hlastt (Built.forall_of_perm hts (sort_perm ts))
    rw [hsort] at hfilter
    simpa [entering, older, lts] using hfilter

/-- A refresh adds the transactions of the page that are newer than the list. -/
theorem mem_entering_new (htransactions : ∀ t ∈ transactions, h.Built t)
    (hts : ∀ t ∈ ts, h.Built t) {page : List Int} (hpage : Descending page)
    (hperm : (lts ts).Perm page) {t : ITonTransaction} :
    t ∈ entering transactions none ts ↔ t ∈ ts ∧ ∀ first ∈ transactions.head?, first.lt < t.lt := by
  have hmem : ∀ {t}, t ∈ sort ts ↔ t ∈ ts := (sort_perm ts).mem_iff
  cases transactions with
  | nil => simpa [entering] using hmem
  | cons first transactions =>
    have hcmp : ∀ t ∈ sort ts, (t.compareTo first = .gt ↔ first.lt < t.lt) := by
      intro t ht
      rw [compareTo_of_built h (hts t (hmem.1 ht)) (htransactions first (by simp)),
        compare_gt_iff_gt]
    have hdesc : (sort ts).Pairwise fun a b =>
        decide (b.compareTo first = .gt) → decide (a.compareTo first = .gt) := by
      have hlts : Descending (lts (sort ts)) := by rwa [lts_sort hts hpage hperm]
      refine (List.pairwise_map.1 hlts).imp_of_mem fun ha hb hgt => ?_
      rw [decide_eq_true_iff, decide_eq_true_iff, hcmp _ ha, hcmp _ hb]
      exact fun hlt => hlt.trans hgt
    rw [entering, takeWhile_eq_filter hdesc, List.mem_filter, hmem, List.head?_cons]
    simp only [decide_eq_true_iff, Option.mem_some_iff, forall_eq']
    exact and_congr_right fun ht => hcmp t (hmem.2 ht)

theorem entering_sublist (transactions : List ITonTransaction) (last : Option ITonTransaction)
    (ts : List ITonTransaction) : (entering transactions last ts).Sublist (sort ts) := by
  cases last with
  | none =>
    cases transactions with
    | nil => exact List.Sublist.refl _
    | cons first transactions => exact List.takeWhile_sublist _
  | some last =>
    simp only [entering]
    split
    · exact List.Sublist.refl _
    · exact List.filter_sublist

theorem built_entering (hts : ∀ t ∈ ts, h.Built t) (last : Option ITonTransaction) :
    ∀ t ∈ entering transactions last ts, h.Built t := fun t ht =>
  Built.forall_of_perm hts (sort_perm ts) t ((entering_sublist transactions last ts).mem ht)

/-- Adding is merging: the list and what was added, sorted by logical time. -/
theorem lts_add (htransactions : ∀ t ∈ transactions, h.Built t)
    (hdesc : Descending (lts transactions)) (hts : ∀ t ∈ ts, h.Built t) {l : List Int}
    (hl : Descending l) (hperm : (lts transactions ++ lts ts).Perm l) :
    lts (add transactions ts) = l := by
  rw [add]
  split
  · rename_i hnil
    subst hnil
    rw [show lts ([] : List ITonTransaction) = [] from rfl, List.append_nil] at hperm
    exact hperm.eq_of_pairwise' hdesc hl
  · refine lts_sort (h := h) (fun t ht => ?_) hl (by simpa [lts] using hperm)
    exact (List.mem_append.1 ht).elim (htransactions t) (hts t)

theorem add_perm (transactions ts : List ITonTransaction) :
    (add transactions ts).Perm (transactions ++ ts) := by
  rw [add]
  split
  · rename_i hnil
    rw [hnil, List.append_nil]
  · exact sort_perm _

end Ton
