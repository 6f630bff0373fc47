import TopWallets.Lib.Runs
import Mathlib

/- What a wallet waits for: `WaitTransactions` of a TonWallet and of the jetton wallets
   whose parent it is.

   An entry is the hash of a message that was sent, or a query id. A newest page of
   transactions completes the entries it has, and removes them. A jetton wallet hands
   its entries to its parent as well; it completes query ids by its own pages, and a
   hash when its parent completes it.

   Main result: a newest page completes every entry it has exactly when the entry can
   be found there (`Findable`): a query id is found if it is positive and, on a jetton
   wallet, has as many details as entries (`forall_settles_iff`).

   Correspondence (C# ↔ Lean):
     `CheckQueryIdTransaction`, both            ↔ `checkDetail`, `checkTransaction`
     `TonWallet.UpdateWaitTransactions`         ↔ `updateTonWallet`
     `TokenWallet.UpdateWaitTransactions`       ↔ `updateTokenWallet`
     `WaitTransactions_Added`, `OnTransactionComplete` of JettonWallet
                                                ↔ `Action.add`, `Action.relay` -/
namespace Ton.WaitTransactions

open Runs

/-- What is waited for. A hash is an array, and is removed as that object. -/
inductive Entry where
  | hash (object : Nat) (bytes : List UInt8)
  | queryId (qid : Int)
  deriving DecidableEq

/-- A detail of a transaction. That of a jetton has no query id. -/
inductive Detail where
  | message (queryId : Int)
  | jetton
  deriving DecidableEq

/-- `TonTransaction` and `TonTransactionGroup`, with the details they have. A transaction of the
HTTP interface has no message hash. -/
structure FetchedTransaction where
  msgHash : Option (List UInt8)
  details : List Detail
  deriving DecidableEq

/-- The entries of a wallet while a page is looked through, and those it completed. -/
structure Wait where
  entries : List Entry
  completed : List (FetchedTransaction × Entry)

/-- `Remove`, and `OnTransactionComplete`. -/
def Wait.complete (w : Wait) (t : FetchedTransaction) (e : Entry) : Wait :=
  ⟨w.entries.erase e, w.completed ++ [(t, e)]⟩

/-- `CheckQueryIdTransaction(transaction, detail)`. -/
def checkDetail (t : FetchedTransaction) (w : Wait) : Detail → Wait
  | .message queryId =>
    if 0 < queryId ∧ .queryId queryId ∈ w.entries then w.complete t (.queryId queryId) else w
  | .jetton => w

/-- `CheckQueryIdTransaction(transaction)`. -/
def checkTransaction (t : FetchedTransaction) (w : Wait) : Wait := t.details.foldl (checkDetail t) w

/-- What a TonWallet does for one value of its entries. -/
def checkValue (t : FetchedTransaction) (w : Wait) : Entry → Wait
  | .hash object bytes =>
    if t.msgHash = some bytes then w.complete t (.hash object bytes) else w
  | .queryId _ => checkTransaction t w

/-- One transaction of a page, over a snapshot of the entries. -/
def checkValues (t : FetchedTransaction) (w : Wait) : Wait := w.entries.foldl (checkValue t) w

/-- The loop over a page, which ends when nothing is waited for. -/
def checkPage (check : FetchedTransaction → Wait → Wait) (w : Wait) :
    List FetchedTransaction → Wait
  | [] => w
  | t :: ts => if (check t w).entries = [] then check t w else checkPage check (check t w) ts

/-- `UpdateWaitTransactions`, given what is done for one transaction. -/
def updateWaitTransactions (check : FetchedTransaction → Wait → Wait) (entries : List Entry)
    (newest : Bool) (ts : Option (List FetchedTransaction)) : Wait :=
  match ts with
  | some ts => if newest ∧ entries ≠ [] then checkPage check ⟨entries, []⟩ ts else ⟨entries, []⟩
  | none => ⟨entries, []⟩

def updateTonWallet : List Entry → Bool → Option (List FetchedTransaction) → Wait :=
  updateWaitTransactions checkValues

def updateTokenWallet : List Entry → Bool → Option (List FetchedTransaction) → Wait :=
  updateWaitTransactions checkTransaction

/-! ## The wallets -/

inductive Owner (ι : Type) where
  | parent
  | jetton (i : ι)
  deriving DecidableEq

/-- The wallets, with what was ever added to each and completed by it. -/
structure State (ι : Type) where
  waiting : Owner ι → List Entry
  added : Owner ι → List Entry
  completed : Owner ι → List (FetchedTransaction × Entry)
  /-- Completions of the parent whose event is still to be raised. -/
  relays : List (FetchedTransaction × Entry)

inductive Action (ι : Type) where
  | add (owner : Owner ι) (e : Entry)
  | fetch (owner : Owner ι) (newest : Bool) (ts : Option (List FetchedTransaction))
  /-- The parent raises `TransactionComplete`. -/
  | relay (completion : FetchedTransaction × Entry)

def init {ι : Type} : State ι := ⟨fun _ => [], fun _ => [], fun _ => [], []⟩

section Steps

variable {ι : Type} [DecidableEq ι]

namespace State

/-- An entry joins the list of a wallet. -/
def addTo (s : State ι) (o : Owner ι) (e : Entry) : State ι :=
  { s with
    waiting := Function.update s.waiting o (s.waiting o ++ [e])
    added := Function.update s.added o (s.added o ++ [e]) }

/-- `Utils.Random(int.MaxValue)` draws a number below `int.MaxValue`. -/
def Drawn : Entry → Prop
  | .hash _ _ => True
  | .queryId qid => 0 ≤ qid ∧ qid < 2 ^ 31 - 1

def Enabled (s : State ι) : Action ι → Prop
  | .add _ e => Drawn e
  | .fetch _ _ _ => True
  | .relay completion => completion ∈ s.relays

/-- What a page makes of the entries of a wallet. -/
def update (s : State ι) (o : Owner ι) (newest : Bool) (ts : Option (List FetchedTransaction)) :
    Wait :=
  match o with
  | .parent => updateTonWallet (s.waiting o) newest ts
  | .jetton _ => updateTokenWallet (s.waiting o) newest ts

def next (s : State ι) : Action ι → State ι
  | .add .parent e => s.addTo .parent e
  | .add (.jetton i) e => (s.addTo (.jetton i) e).addTo .parent e
  | .fetch o newest ts =>
    let w := s.update o newest ts
    { s with
      waiting := Function.update s.waiting o w.entries
      completed := Function.update s.completed o (s.completed o ++ w.completed)
      relays := if o = .parent then s.relays ++ w.completed else s.relays }
  | .relay (t, .queryId qid) => { s with relays := s.relays.erase (t, .queryId qid) }
  | .relay (t, .hash object bytes) =>
    let e := Entry.hash object bytes
    { s with
      waiting := fun o => if o ≠ .parent then (s.waiting o).erase e else s.waiting o
      completed := fun o =>
        if o ≠ .parent ∧ e ∈ s.waiting o then s.completed o ++ [(t, e)] else s.completed o
      relays := s.relays.erase (t, e) }

end State

def Step (s : State ι) (a : Action ι) (s' : State ι) : Prop := s.Enabled a ∧ s' = s.next a

/-! ## What is promised -/

/-- A transaction has an entry: its message hash, or the query id in a detail. -/
def FetchedTransaction.Has (t : FetchedTransaction) : Entry → Prop
  | .hash _ bytes => t.msgHash = some bytes
  | .queryId qid => .message qid ∈ t.details

instance (t : FetchedTransaction) : (e : Entry) → Decidable (t.Has e)
  | .hash _ bytes => inferInstanceAs (Decidable (t.msgHash = some bytes))
  | .queryId qid => inferInstanceAs (Decidable (.message qid ∈ t.details))

/-- A newest page has an entry. -/
def PageHas (newest : Bool) (ts : Option (List FetchedTransaction)) (e : Entry) : Prop :=
  newest ∧ ∃ t ∈ ts.getD [], t.Has e

instance (newest : Bool) (ts : Option (List FetchedTransaction)) (e : Entry) :
    Decidable (PageHas newest ts e) :=
  inferInstanceAs (Decidable (_ ∧ _))

/-- How often a wallet completed an entry. -/
def State.completions (s : State ι) (o : Owner ι) (e : Entry) : Nat :=
  ((s.completed o).map Prod.snd).count e

/-- Every entry that was added waits or was completed, once; and a hash that a jetton wallet waits
for is one its parent waits for, or is about to tell of. -/
structure Accounted (s : State ι) : Prop where
  once : ∀ o e, (s.added o).count e = (s.waiting o).count e + s.completions o e
  mirrored : ∀ i object bytes,
    (s.waiting (.jetton i)).count (.hash object bytes) ≤
      (s.waiting .parent).count (.hash object bytes) +
        (s.relays.map Prod.snd).count (.hash object bytes)

/-- A page completes the entries it has, each as often as it was waited for, keeps the others as
they are, and leaves the other wallets alone. -/
structure Settles (s : State ι) (o : Owner ι) (newest : Bool)
    (ts : Option (List FetchedTransaction)) (s' : State ι) : Prop where
  completes : ∀ e, PageHas newest ts e →
    e ∉ s'.waiting o ∧ s'.completions o e = s.completions o e + (s.waiting o).count e
  keeps : (s'.waiting o).filter (¬ PageHas newest ts ·) =
    (s.waiting o).filter (¬ PageHas newest ts ·)
  others : ∀ o', o' ≠ o → s'.waiting o' = s.waiting o'

/-- What an action has to do. -/
def ActionSettles (s : State ι) : Action ι → Prop
  | .fetch o newest ts => Settles s o newest ts (s.next (.fetch o newest ts))
  | .add _ _ | .relay _ => True

/-- An entry that a page has can be found in it. -/
def Findable (s : State ι) (o : Owner ι) (ts : List FetchedTransaction) : Entry → Prop
  | .hash _ _ => o = .parent
  | .queryId qid => 0 < qid ∧
      (o = .parent ∨
        (s.waiting o).count (.queryId qid) ≤ (ts.flatMap (·.details)).count (.message qid))

/-- The entries of a wallet that a newest page has can be found in it. -/
def ActionFinds (s : State ι) : Action ι → Prop
  | .fetch o newest ts => ∀ e ∈ s.waiting o, PageHas newest ts e → Findable s o (ts.getD []) e
  | .add _ _ | .relay _ => True

end Steps

/-! ## What a page takes of the entries -/

/-- How often an entry waits or was completed. -/
def Wait.total (w : Wait) (e : Entry) : Nat :=
  w.entries.count e + (w.completed.map Prod.snd).count e

theorem Wait.total_complete {w : Wait} {e : Entry} (h : e ∈ w.entries) (t : FetchedTransaction)
    (e' : Entry) : (w.complete t e).total e' = w.total e' := by
  unfold complete total
  rw [List.map_append, List.map_singleton, List.count_append, List.count_singleton]
  by_cases he : e = e'
  · subst he
    have hpos := List.count_pos_iff.2 h
    rw [List.count_erase_self, if_pos (beq_self_eq_true e)]
    omega
  · have hne : ¬ (e == e') = true := by simpa using he
    rw [List.count_erase_of_ne (Ne.symm he), if_neg hne, Nat.add_zero]

/-- How many entries a detail takes. -/
def Detail.carries : Detail → Entry → Nat
  | .message qid, .queryId qid' => if 0 < qid ∧ qid = qid' then 1 else 0
  | _, _ => 0

def carriedBy (ds : List Detail) (e : Entry) : Nat := (ds.map (·.carries e)).sum

theorem carriedBy_cons (d : Detail) (ds : List Detail) (e : Entry) :
    carriedBy (d :: ds) e = d.carries e + carriedBy ds e := by
  rw [carriedBy, List.map_cons, List.sum_cons]
  rfl

theorem carriedBy_append (ds ds' : List Detail) (e : Entry) :
    carriedBy (ds ++ ds') e = carriedBy ds e + carriedBy ds' e := by
  rw [carriedBy, List.map_append, List.sum_append]
  rfl

@[simp] theorem carriedBy_hash (ds : List Detail) (object : Nat) (bytes : List UInt8) :
    carriedBy ds (.hash object bytes) = 0 := by
  induction ds with
  | nil => rfl
  | cons d ds ih =>
    rw [carriedBy_cons, ih]
    cases d <;> rfl

/-- Details carry a query id once for each of them that has it, if it is positive. -/
theorem carriedBy_queryId (ds : List Detail) (qid : Int) :
    carriedBy ds (.queryId qid) = if 0 < qid then ds.count (.message qid) else 0 := by
  induction ds with
  | nil => simp [carriedBy]
  | cons d ds ih =>
    rw [carriedBy_cons, ih]
    cases d with
    | jetton => simp [Detail.carries]
    | message q =>
      by_cases hq : q = qid
      · subst hq
        by_cases hpos : 0 < q <;> simp [Detail.carries, hpos, Nat.add_comm]
      · simp [Detail.carries, hq]

theorem count_checkDetail (t : FetchedTransaction) (w : Wait) (d : Detail) (e : Entry) :
    (checkDetail t w d).entries.count e = w.entries.count e - d.carries e := by
  cases d with
  | jetton => simp [checkDetail, Detail.carries]
  | message qid =>
    rw [checkDetail]
    split
    · next h =>
      show (w.entries.erase (.queryId qid)).count e = _
      rw [List.count_erase]
      cases e with
      | hash object bytes => simp [Detail.carries]
      | queryId q => simp [Detail.carries, h.1]
    · next h =>
      cases e with
      | hash object bytes => simp [Detail.carries]
      | queryId q =>
        by_cases hq : 0 < qid ∧ qid = q
        · obtain ⟨hpos, rfl⟩ := hq
          have hnot : Entry.queryId qid ∉ w.entries := fun hmem => h ⟨hpos, hmem⟩
          rw [List.count_eq_zero_of_not_mem hnot, Nat.zero_sub]
        · simp [Detail.carries, hq]

theorem total_checkDetail (t : FetchedTransaction) (w : Wait) (d : Detail) (e : Entry) :
    (checkDetail t w d).total e = w.total e := by
  cases d with
  | jetton => rfl
  | message qid =>
    rw [checkDetail]
    split
    · next h => exact Wait.total_complete h.2 t e
    · rfl

theorem sublist_checkDetail (t : FetchedTransaction) (w : Wait) (d : Detail) :
    (checkDetail t w d).entries.Sublist w.entries := by
  cases d with
  | jetton => exact List.Sublist.refl _
  | message qid =>
    rw [checkDetail]
    split
    · exact List.erase_sublist
    · exact List.Sublist.refl _

/-- Of each entry a number is completed and removed, if there are as many, and the others stay. -/
structure Takes (taken : Entry → Nat) (w w' : Wait) : Prop where
  count : ∀ e, w'.entries.count e = w.entries.count e - taken e
  total : ∀ e, w'.total e = w.total e
  sublist : w'.entries.Sublist w.entries

namespace Takes

variable {f g : Entry → Nat} {w w' w'' : Wait}

theorem none (w : Wait) : Takes (fun _ => 0) w w := ⟨fun _ => rfl, fun _ => rfl, .refl _⟩

theorem trans (h : Takes f w w') (h' : Takes g w' w'') : Takes (fun e => f e + g e) w w'' where
  count e := by rw [h'.count, h.count, Nat.sub_sub]
  total e := (h'.total e).trans (h.total e)
  sublist := h'.sublist.trans h.sublist

theorem congr (h : Takes f w w') (hfg : ∀ e, w.entries.count e - f e = w.entries.count e - g e) :
    Takes g w w' := ⟨fun e => (h.count e).trans (hfg e), h.total, h.sublist⟩

/-- Where nothing is left, nothing more is taken. -/
theorem add_of_nil (h : Takes f w w') (hnil : w'.entries = []) :
    Takes (fun e => f e + g e) w w' := by
  refine h.congr fun e => ?_
  have hzero := h.count e
  rw [hnil, List.count_nil] at hzero
  omega

end Takes

theorem takes_checkTransaction (t : FetchedTransaction) (w : Wait) :
    Takes (carriedBy t.details) w (checkTransaction t w) := by
  unfold checkTransaction
  induction t.details generalizing w with
  | nil => exact Takes.none w
  | cons d ds ih =>
    have hfirst : Takes d.carries w (checkDetail t w d) :=
      ⟨count_checkDetail t w d, total_checkDetail t w d, sublist_checkDetail t w d⟩
    refine (hfirst.trans (ih _)).congr fun e => ?_
    rw [carriedBy_cons]

/-- A token wallet takes of a page what its details carry. -/
theorem takes_checkPage_transaction (ts : List FetchedTransaction) (w : Wait) :
    Takes (carriedBy (ts.flatMap (·.details))) w (checkPage checkTransaction w ts) := by
  induction ts generalizing w with
  | nil => exact Takes.none w
  | cons t ts ih =>
    have hfirst := takes_checkTransaction t w
    rw [checkPage, List.flatMap_cons]
    split
    · next hnil => exact (hfirst.add_of_nil hnil).congr fun e => by rw [carriedBy_append]
    · exact (hfirst.trans (ih _)).congr fun e => by rw [carriedBy_append]

/-! ## What a TonWallet takes -/

/-- A transaction has an entry that can be found in it. -/
def FetchedTransaction.Settles (t : FetchedTransaction) : Entry → Prop
  | .hash _ bytes => t.msgHash = some bytes
  | .queryId qid => 0 < qid ∧ .message qid ∈ t.details

instance (t : FetchedTransaction) : (e : Entry) → Decidable (t.Settles e)
  | .hash _ bytes => inferInstanceAs (Decidable (t.msgHash = some bytes))
  | .queryId qid => inferInstanceAs (Decidable (0 < qid ∧ .message qid ∈ t.details))

/-- What one value of the snapshot takes. -/
def takenBy (t : FetchedTransaction) : Entry → Entry → Nat
  | .hash object bytes, e => if t.msgHash = some bytes ∧ .hash object bytes = e then 1 else 0
  | .queryId _, e => carriedBy t.details e

theorem takenBy_of_not_settles {t : FetchedTransaction} {e : Entry} (h : ¬ t.Settles e)
    (value : Entry) : takenBy t value e = 0 := by
  cases value with
  | hash object bytes =>
    refine if_neg ?_
    rintro ⟨hhash, rfl⟩
    exact h hhash
  | queryId qid' =>
    cases e with
    | hash object bytes => exact carriedBy_hash _ _ _
    | queryId qid =>
      rw [takenBy, carriedBy_queryId]
      split
      · next hpos => exact List.count_eq_zero_of_not_mem fun hmem => h ⟨hpos, hmem⟩
      · rfl

theorem takenBy_self_pos {t : FetchedTransaction} {e : Entry} (h : t.Settles e) :
    0 < takenBy t e e := by
  cases e with
  | hash object bytes =>
    rw [takenBy, if_pos ⟨h, rfl⟩]
    exact Nat.one_pos
  | queryId qid =>
    rw [takenBy, carriedBy_queryId, if_pos h.1]
    exact List.count_pos_iff.2 h.2

theorem takenBy_hash_le (t : FetchedTransaction) (value : Entry) (object : Nat)
    (bytes : List UInt8) :
    takenBy t value (.hash object bytes) ≤ if value = .hash object bytes then 1 else 0 := by
  cases value with
  | queryId qid =>
    rw [takenBy, carriedBy_hash]
    exact Nat.zero_le _
  | hash object' bytes' =>
    rw [takenBy]
    split
    · next h => exact Nat.le_of_eq (if_pos h.2).symm
    · exact Nat.zero_le _

/-- A sum over a list is at least the number of an element that counts. -/
theorem count_le_sum {f : Entry → Nat} {e : Entry} (h : 0 < f e) (l : List Entry) :
    l.count e ≤ (l.map f).sum := by
  induction l with
  | nil => exact Nat.zero_le _
  | cons a l ih =>
    rw [List.map_cons, List.sum_cons, List.count_cons]
    split
    · next heq =>
      obtain rfl := eq_of_beq heq
      omega
    · omega

/-- A value of the snapshot takes its entry, which is still there if it is a hash. -/
theorem takes_checkValue (t : FetchedTransaction) (w : Wait) (value : Entry)
    (h : ∀ object bytes, value = .hash object bytes → value ∈ w.entries) :
    Takes (takenBy t value) w (checkValue t w value) := by
  cases value with
  | queryId qid => exact takes_checkTransaction t w
  | hash object bytes =>
    rw [checkValue]
    split
    · next hhash =>
      refine ⟨fun e => ?_, Wait.total_complete (h object bytes rfl) t, List.erase_sublist⟩
      show (w.entries.erase (.hash object bytes)).count e = _
      rw [List.count_erase, takenBy]
      simp [hhash]
    · next hhash =>
      refine (Takes.none w).congr fun e => ?_
      rw [takenBy, if_neg fun hand => hhash hand.1]

theorem takes_foldl_checkValue (t : FetchedTransaction) (values : List Entry) (w : Wait)
    (h : ∀ object bytes, values.count (.hash object bytes) ≤ w.entries.count (.hash object bytes)) :
    Takes (fun e => (values.map (takenBy t · e)).sum) w (values.foldl (checkValue t) w) := by
  induction values generalizing w with
  | nil => exact Takes.none w
  | cons value values ih =>
    have hfirst : Takes (takenBy t value) w (checkValue t w value) := by
      refine takes_checkValue t w value fun object bytes hvalue => ?_
      have hcount := h object bytes
      rw [hvalue, List.count_cons_self] at hcount
      rw [hvalue]
      exact List.count_pos_iff.1 (by omega)
    refine (hfirst.trans (ih _ fun object bytes => ?_)).congr fun e => ?_
    · have hcount := h object bytes
      have hle := takenBy_hash_le t value object bytes
      rw [List.count_cons] at hcount
      rw [hfirst.count]
      simp only [beq_iff_eq] at hcount
      omega
    · rw [List.map_cons, List.sum_cons]

/-- A transaction takes every entry that can be found in it. -/
theorem takes_checkValues (t : FetchedTransaction) (w : Wait) :
    Takes (fun e => if t.Settles e then w.entries.count e else 0) w (checkValues t w) := by
  refine (takes_foldl_checkValue t w.entries w fun _ _ => Nat.le_refl _).congr fun e => ?_
  split
  · next hsettles =>
    have hle := count_le_sum (f := (takenBy t · e)) (takenBy_self_pos hsettles) w.entries
    omega
  · next hsettles =>
    have hzero : (w.entries.map (takenBy t · e)).sum = 0 := by
      simp only [takenBy_of_not_settles hsettles, List.map_const',
        List.sum_replicate_nat, Nat.mul_zero]
    rw [hzero]

/-- A TonWallet takes of a page every entry that can be found in it. -/
theorem takes_checkPage_values (ts : List FetchedTransaction) (w : Wait) :
    Takes (fun e => if ∃ t ∈ ts, t.Settles e then w.entries.count e else 0) w
      (checkPage checkValues w ts) := by
  induction ts generalizing w with
  | nil => exact (Takes.none w).congr fun e => by simp
  | cons t ts ih =>
    have hfirst := takes_checkValues t w
    have hcons (e : Entry) : (∃ t' ∈ t :: ts, t'.Settles e) ↔
        t.Settles e ∨ ∃ t' ∈ ts, t'.Settles e := by simp
    rw [checkPage]
    split
    · next hnil =>
      refine hfirst.congr fun e => ?_
      have hzero := hfirst.count e
      rw [hnil, List.count_nil] at hzero
      simp only [hcons]
      split
      · next h => rw [if_pos (.inl h)]
      · next h =>
        rw [if_neg h] at hzero
        split <;> omega
    · refine (hfirst.trans (ih _)).congr fun e => ?_
      have hcount := hfirst.count e
      simp only [hcons]
      by_cases h : t.Settles e
      · have hor : t.Settles e ∨ ∃ t' ∈ ts, t'.Settles e := .inl h
        rw [if_pos h, if_pos hor]
        omega
      · rw [if_neg h, Nat.sub_zero] at hcount
        rw [if_neg h, hcount]
        simp [h]

/-! ## A page of a wallet -/

theorem takes_updateWaitTransactions {check : FetchedTransaction → Wait → Wait}
    {taken : List FetchedTransaction → Wait → Entry → Nat}
    (hcheck : ∀ ts w, Takes (taken ts w) w (checkPage check w ts)) (entries : List Entry)
    (newest : Bool) (ts : Option (List FetchedTransaction)) :
    Takes (fun e => if newest then taken (ts.getD []) ⟨entries, []⟩ e else 0) ⟨entries, []⟩
      (updateWaitTransactions check entries newest ts) := by
  cases newest with
  | false =>
    have hsame : updateWaitTransactions check entries false ts = ⟨entries, []⟩ := by
      cases ts <;> simp [updateWaitTransactions]
    rw [hsame]
    exact Takes.none _
  | true =>
    simp only [↓reduceIte]
    cases ts with
    | none => exact hcheck [] ⟨entries, []⟩
    | some ts =>
      by_cases hnil : entries = []
      · subst hnil
        -- without an entry the page is not looked at
        have hsame : updateWaitTransactions check [] true (some ts) = ⟨[], []⟩ := by
          simp [updateWaitTransactions]
        rw [hsame]
        exact (Takes.none _).congr fun e => by simp
      · have hpage : updateWaitTransactions check entries true (some ts) =
            checkPage check ⟨entries, []⟩ ts := by
          simp [updateWaitTransactions, hnil]
        rw [hpage]
        exact hcheck ts _

variable {ι : Type} {s : State ι}

/-- How many of an entry a page takes from a wallet. -/
def taken (s : State ι) (o : Owner ι) (newest : Bool) (ts : Option (List FetchedTransaction))
    (e : Entry) : Nat :=
  if newest then
    match o with
    | .parent => if ∃ t ∈ ts.getD [], t.Settles e then (s.waiting o).count e else 0
    | .jetton _ => carriedBy ((ts.getD []).flatMap (·.details)) e
  else 0

theorem takes_update (s : State ι) (o : Owner ι) (newest : Bool)
    (ts : Option (List FetchedTransaction)) :
    Takes (taken s o newest ts) ⟨s.waiting o, []⟩ (s.update o newest ts) := by
  cases o with
  | parent => exact takes_updateWaitTransactions takes_checkPage_values _ newest ts
  | jetton i =>
    exact takes_updateWaitTransactions (fun ts w => takes_checkPage_transaction ts w) _ newest ts

/-- What can be found in a transaction is what it has, but for query ids that are not positive. -/
theorem settles_iff {t : FetchedTransaction} {e : Entry} :
    t.Settles e ↔ t.Has e ∧ ∀ qid, e = .queryId qid → 0 < qid := by
  cases e with
  | hash object bytes => simp [FetchedTransaction.Settles, FetchedTransaction.Has]
  | queryId qid => simp [FetchedTransaction.Settles, FetchedTransaction.Has, and_comm]

/-- A page takes nothing of an entry it does not have. -/
theorem taken_of_not_has {o : Owner ι} {newest : Bool} {ts : Option (List FetchedTransaction)}
    {e : Entry} (h : ¬ PageHas newest ts e) : taken s o newest ts e = 0 := by
  unfold taken
  split
  · next hnewest =>
    have hnot : ∀ t ∈ ts.getD [], ¬ t.Has e := fun t ht hhas => h ⟨hnewest, t, ht, hhas⟩
    cases o with
    | parent =>
      refine if_neg ?_
      rintro ⟨t, ht, hsettles⟩
      exact hnot t ht (settles_iff.1 hsettles).1
    | jetton i =>
      cases e with
      | hash object bytes => exact carriedBy_hash _ _ _
      | queryId qid =>
        show carriedBy _ _ = 0
        rw [carriedBy_queryId]
        split
        · refine List.count_eq_zero_of_not_mem fun hmem => ?_
          obtain ⟨t, ht, hdetail⟩ := List.mem_flatMap.1 hmem
          exact hnot t ht hdetail
        · rfl
  · rfl

/-- Of an entry that is waited for, a page that has it takes all exactly when it can be found. -/
theorem count_le_taken_iff {o : Owner ι} {newest : Bool} {ts : Option (List FetchedTransaction)}
    {e : Entry} (he : e ∈ s.waiting o) (h : PageHas newest ts e) :
    (s.waiting o).count e ≤ taken s o newest ts e ↔ Findable s o (ts.getD []) e := by
  obtain ⟨hnewest, t, ht, hhas⟩ := h
  have hpos := List.count_pos_iff.2 he
  subst hnewest
  cases o with
  | parent =>
    simp only [taken, if_true]
    cases e with
    | hash object bytes =>
      rw [if_pos ⟨t, ht, hhas⟩]
      exact iff_of_true (Nat.le_refl _) rfl
    | queryId qid =>
      by_cases hqid : 0 < qid
      · rw [if_pos ⟨t, ht, hqid, hhas⟩]
        exact iff_of_true (Nat.le_refl _) ⟨hqid, .inl rfl⟩
      · have hnot : ¬ ∃ t ∈ ts.getD [], t.Settles (.queryId qid) := fun ⟨_, _, hset⟩ => hqid hset.1
        rw [if_neg hnot]
        exact iff_of_false (by omega) fun hfind => hqid hfind.1
  | jetton i =>
    simp only [taken, if_true]
    cases e with
    | hash object bytes =>
      rw [carriedBy_hash]
      exact iff_of_false (by omega) nofun
    | queryId qid =>
      rw [carriedBy_queryId, Findable]
      by_cases hqid : 0 < qid
      · simp [hqid]
      · rw [if_neg hqid]
        exact iff_of_false (by omega) fun hfind => hqid hfind.1

/-- Two lists, one a part of the other, agree on elements of which they have the same numbers. -/
theorem filter_eq_of_sublist {l l' : List Entry} {p : Entry → Bool} (hsub : l'.Sublist l)
    (hcount : ∀ e, p e → l'.count e = l.count e) : l'.filter p = l.filter p := by
  have hperm : (l'.filter p).Perm (l.filter p) := by
    rw [List.perm_iff_count]
    intro e
    by_cases he : p e
    · rw [List.count_filter he, List.count_filter he, hcount e he]
    · have hnot (k : List Entry) : e ∉ k.filter p := fun hmem => he (List.mem_filter.1 hmem).2
      rw [List.count_eq_zero_of_not_mem (hnot l'), List.count_eq_zero_of_not_mem (hnot l)]
  exact (hsub.filter p).eq_of_length hperm.length_eq

/-! ## Runs -/

variable [DecidableEq ι]

/-- The entries a page completed, counted with those completed before. -/
theorem completions_fetch (s : State ι) (o : Owner ι) (newest : Bool)
    (ts : Option (List FetchedTransaction)) (e : Entry) :
    ((s.next (.fetch o newest ts)).waiting o).count e +
      (s.next (.fetch o newest ts)).completions o e =
        (s.waiting o).count e + s.completions o e := by
  have htotal := (takes_update s o newest ts).total e
  simp only [Wait.total, List.map_nil, List.count_nil] at htotal
  simp only [State.completions, State.next, Function.update_self, List.map_append,
    List.count_append]
  omega

/-- A page settles what it has exactly when that can be found in it. -/
theorem settles_fetch_iff (s : State ι) (o : Owner ι) (newest : Bool)
    (ts : Option (List FetchedTransaction)) :
    Settles s o newest ts (s.next (.fetch o newest ts)) ↔
      ∀ e ∈ s.waiting o, PageHas newest ts e → Findable s o (ts.getD []) e := by
  have htakes := takes_update s o newest ts
  have hwaiting : (s.next (.fetch o newest ts)).waiting o = (s.update o newest ts).entries :=
    Function.update_self ..
  constructor
  · intro h e he hhas
    have hzero := List.count_eq_zero_of_not_mem (h.completes e hhas).1
    rw [hwaiting, htakes.count] at hzero
    exact (count_le_taken_iff he hhas).1 (Nat.sub_eq_zero_iff_le.1 hzero)
  · intro h
    refine ⟨fun e hhas => ?_, ?_, fun o' ho' => Function.update_of_ne ho' ..⟩
    · -- what is no longer waited for was completed, by the total
      have hzero : ((s.next (.fetch o newest ts)).waiting o).count e = 0 := by
        rw [hwaiting, htakes.count]
        by_cases he : e ∈ s.waiting o
        · exact Nat.sub_eq_zero_of_le ((count_le_taken_iff he hhas).2 (h e he hhas))
        · show (s.waiting o).count e - _ = 0
          rw [List.count_eq_zero_of_not_mem he, Nat.zero_sub]
      have hall := completions_fetch s o newest ts e
      exact ⟨List.count_eq_zero.1 hzero, by omega⟩
    · rw [hwaiting]
      refine filter_eq_of_sublist htakes.sublist fun e he => ?_
      rw [htakes.count, taken_of_not_has (of_decide_eq_true he), Nat.sub_zero]

theorem actionSettles_iff (s : State ι) (a : Action ι) : ActionSettles s a ↔ ActionFinds s a := by
  cases a with
  | add o e => exact Iff.rfl
  | relay completion => exact Iff.rfl
  | fetch o newest ts => exact settles_fetch_iff s o newest ts

theorem count_erase_relay {relays : List (FetchedTransaction × Entry)}
    {completion : FetchedTransaction × Entry} (h : completion ∈ relays) (e : Entry) :
    (relays.map Prod.snd).count e =
      ((relays.erase completion).map Prod.snd).count e + if completion.2 = e then 1 else 0 := by
  rw [((List.perm_cons_erase h).map Prod.snd).count_eq, List.map_cons, List.count_cons]
  simp only [beq_iff_eq]

omit [DecidableEq ι] in
theorem accounted_init : Accounted (init : State ι) := ⟨fun _ _ => rfl, fun _ _ _ => Nat.zero_le _⟩

/-- What was added to a wallet waits there or was completed by it. -/
def State.Once (s : State ι) : Prop :=
  ∀ o e, (s.added o).count e = (s.waiting o).count e + s.completions o e

theorem once_addTo (h : s.Once) (o : Owner ι) (e : Entry) : (s.addTo o e).Once := by
  intro o' e'
  have honce := h o' e'
  by_cases ho : o' = o
  · subst ho
    simp only [State.addTo, State.completions, Function.update_self, List.count_append] at *
    omega
  · simpa only [State.addTo, State.completions, Function.update_of_ne ho] using honce

theorem accounted_add (h : Accounted s) (o : Owner ι) (e : Entry) :
    Accounted (s.next (.add o e)) := by
  have hne (i : ι) : Owner.jetton i ≠ .parent := nofun
  cases o with
  | parent =>
    refine ⟨once_addTo h.once .parent e, fun i object bytes => ?_⟩
    have hmirrored := h.mirrored i object bytes
    simp only [State.next, State.addTo, Function.update_self, Function.update_of_ne (hne i),
      List.count_append]
    omega
  | jetton j =>
    refine ⟨once_addTo (once_addTo h.once (.jetton j) e) .parent e, fun i object bytes => ?_⟩
    have hmirrored := h.mirrored i object bytes
    -- The parent has the entry as well, so both sides grow, or only that of the parent.
    simp only [State.next, State.addTo, Function.update_self, Function.update_of_ne (hne _),
      Function.update_of_ne (hne j).symm, List.count_append]
    by_cases hij : i = j
    · subst hij
      rw [Function.update_self, List.count_append]
      omega
    · have hother : Owner.jetton i ≠ .jetton j := fun heq => hij (Owner.jetton.inj heq)
      rw [Function.update_of_ne hother]
      omega

theorem accounted_fetch (h : Accounted s) (o : Owner ι) (newest : Bool)
    (ts : Option (List FetchedTransaction)) : Accounted (s.next (.fetch o newest ts)) := by
  have hother {o' : Owner ι} (ho : o' ≠ o) :
      (s.next (.fetch o newest ts)).waiting o' = s.waiting o' := Function.update_of_ne ho ..
  have hself : (s.next (.fetch o newest ts)).waiting o = (s.update o newest ts).entries :=
    Function.update_self ..
  have htakes := takes_update s o newest ts
  have hne (j : ι) : Owner.jetton j ≠ .parent := nofun
  constructor
  · intro o' e
    by_cases ho : o' = o
    · subst ho
      rw [completions_fetch]
      exact h.once o' e
    · have hcompleted : (s.next (.fetch o newest ts)).completions o' e = s.completions o' e := by
        simp only [State.completions, State.next, Function.update_of_ne ho]
      rw [hother ho, hcompleted]
      exact h.once o' e
  · intro i object bytes
    have hmirrored := h.mirrored i object bytes
    cases o with
    | parent =>
      -- What the parent completed is what it is about to tell of.
      have htotal := htakes.total (.hash object bytes)
      simp only [Wait.total, List.map_nil, List.count_nil] at htotal
      rw [hself, hother (hne i)]
      simp only [State.next, if_true, List.map_append, List.count_append]
      omega
    | jetton j =>
      -- a jetton wallet only takes entries off its own list
      have hrelays : (s.next (.fetch (.jetton j) newest ts)).relays = s.relays := by
        simp only [State.next, if_neg (hne j)]
      rw [hrelays, hother (hne j).symm]
      by_cases hij : i = j
      · subst hij
        rw [hself, htakes.count]
        exact Nat.le_trans (Nat.sub_le ..) hmirrored
      · have hne : Owner.jetton i ≠ .jetton j := fun heq => hij (Owner.jetton.inj heq)
        rwa [hother hne]

theorem accounted_relay (h : Accounted s) {completion : FetchedTransaction × Entry}
    (hmem : completion ∈ s.relays) : Accounted (s.next (.relay completion)) := by
  obtain ⟨t, e⟩ := completion
  have herase := count_erase_relay hmem
  cases e with
  | queryId qid =>
    refine ⟨h.once, fun i object bytes => ?_⟩
    have hcount := herase (.hash object bytes)
    -- a query id is not told to the jetton wallets
    rw [if_neg nofun] at hcount
    have hmirrored := h.mirrored i object bytes
    simp only [State.next]
    omega
  | hash object bytes =>
    constructor
    · intro o e
      have honce := h.once o e
      simp only [State.next, State.completions] at *
      by_cases ho : o = .parent
      · simpa [ho] using honce
      · by_cases he : .hash object bytes ∈ s.waiting o
        · have htotal := Wait.total_complete (w := ⟨s.waiting o, s.completed o⟩) he t e
          simp only [Wait.total, Wait.complete] at htotal
          simp only [ho, he, ne_eq, not_false_eq_true, and_self, if_true]
          omega
        · simp [ho, he, List.erase_of_not_mem, honce]
    · intro i object' bytes'
      have hmirrored := h.mirrored i object' bytes'
      have hcount := herase (.hash object' bytes')
      simp only [State.next, ne_eq, reduceCtorEq, not_false_eq_true, if_true,
        not_true_eq_false, if_false, List.count_erase, beq_iff_eq]
      split at hcount
      · next heq =>
        rw [if_pos heq]
        omega
      · next heq =>
        rw [if_neg heq]
        omega

theorem accounted_step {s' : State ι} {a : Action ι} (h : Accounted s) (hstep : Step s a s') :
    Accounted s' := by
  obtain ⟨henabled, rfl⟩ := hstep
  cases a with
  | add o e => exact accounted_add h o e
  | fetch o newest ts => exact accounted_fetch h o newest ts
  | relay completion => exact accounted_relay h henabled

/-- In every run all entries wait or were completed once, and every page settles the entries it has
exactly when they can be found there. -/
theorem forall_settles_iff {trace : List (State ι × Action ι)} (h : Run Step init trace s) :
    ((∀ t ∈ states trace s, Accounted t) ∧ ∀ p ∈ trace, ActionSettles p.1 p.2) ↔
      ∀ p ∈ trace, ActionFinds p.1 p.2 := by
  rw [and_iff_right (h.invariant_states accounted_init accounted_step)]
  exact forall₂_congr fun p _ => actionSettles_iff p.1 p.2

/-! ## Concrete runs -/

/-- A TonWallet that waits for a query id. -/
def waitingFor (qid : Int) : State Unit := init.next (.add .parent (.queryId qid))

/-- A page with one transaction, whose message has the query id. -/
def pageOf (qid : Int) : Action Unit := .fetch .parent true (some [⟨none, [.message qid]⟩])

theorem run_pageOf (qid : Int) (h : 0 ≤ qid ∧ qid < 2 ^ 31 - 1) :
    Run Step init [(init, .add .parent (.queryId qid)), (waitingFor qid, pageOf qid)]
      ((waitingFor qid).next (pageOf qid)) :=
  .snoc (.snoc .nil ⟨h, rfl⟩) ⟨trivial, rfl⟩

theorem settles_page_seven : ActionSettles (waitingFor 7) (pageOf 7) :=
  ((forall_settles_iff (run_pageOf _ (by decide))).2 (by
    intro p hp
    simp only [List.mem_cons, List.not_mem_nil, or_false] at hp
    obtain rfl | rfl := hp
    · trivial
    · intro e he _
      obtain rfl : e = .queryId 7 := by simpa [waitingFor, State.next, State.addTo, init] using he
      exact ⟨by decide, .inl rfl⟩)).2 _ (List.mem_cons_of_mem _ (List.mem_singleton_self _))

/-- The query id `0` can be drawn. The page that has it leaves it waiting. -/
theorem not_settles_page_zero :
    (∃ trace : List (State Unit × Action Unit), ∃ s, Run Step init trace s ∧
      (waitingFor 0, pageOf 0) ∈ trace) ∧
    PageHas true (some [⟨none, [.message 0]⟩]) (.queryId 0) ∧
    Entry.queryId 0 ∈ ((waitingFor 0).next (pageOf 0)).waiting .parent ∧
    ¬ ActionSettles (waitingFor 0) (pageOf 0) := by
  have hhas : PageHas true (some [⟨none, [.message 0]⟩]) (.queryId 0) := by decide
  have hleft : Entry.queryId 0 ∈ ((waitingFor 0).next (pageOf 0)).waiting .parent := by decide
  have hrun := run_pageOf 0 (by decide)
  refine ⟨⟨_, _, hrun, ?_⟩, hhas, hleft, fun h => ?_⟩
  · exact List.mem_cons_of_mem _ (List.mem_singleton_self _)
  · exact (Settles.completes h _ hhas).1 hleft

end Ton.WaitTransactions
