import TopWallets.TransactionReaders
import TopWallets.Lib.Paging

/- The history of a wallet over the HTTP server: `TonApiCat.GetTransactions`, called with
   the `UTime` of the last transaction that was handed out.

   The server answers with the newest transactions that are not younger than `end_utime`.
   The reader drops those of that very second, and those without a detail; an answer that
   leaves nothing is the end. So the calls are a reader with a time for the cursor
   (`calls_simulates`), and visit every transaction that has a message with a value exactly
   when each call is complete (`paging_complete_iff`).

   Correspondence (C# ↔ Lean):
     `TonApiCat.GetTransactions` and its answer      ↔ `TonApiCat.getTransactions`
     the server, with `limit` and `end_utime`        ↔ `CatHistory.respond`
     `GetHttpTransactions`, `TransactionPanel.GetTransactions`
                                                     ↔ `HttpPaging.State.endTime`, `HttpPaging.next`
   The panel asks again after an error. -/
namespace Ton

/-- The answer: the transactions, null for the end, and the error. -/
abbrev Answer := Option (List ITransactionBase) × Option String

/-- The answer to a request that throws, or whose text is an array or something else. -/
def TonApiCat.getTransactions (R : Reader) (endTime : Int)
    (data : Except Exception (Option (List CatTransaction))) : Answer :=
  match data with
  | .error e => (some [], some (R.messageOf e))
  | .ok none => (none, none)
  | .ok (some arr) =>
    if arr.isEmpty then (none, none)
    else match R.catPage endTime arr with
      | .error e => (some [], some (R.messageOf e))
      | .ok transactions => (if transactions.isEmpty then none else some transactions, none)

/-- Some message has a value. -/
def CatTransaction.valued (j : CatTransaction) : Bool :=
  (j.outMsgs ++ j.inMsg.toList).any fun msg => 0 < msg.value

/-- The transactions of an account, newest first; several may be of one second. -/
structure CatHistory where
  transactions : List CatTransaction
  descending : transactions.Pairwise fun a b => b.lt < a.lt
  sorted : transactions.Pairwise fun a b => b.utime ≤ a.utime
  positive : ∀ j ∈ transactions, 0 < j.utime

/-- The newest `limit` transactions with a time that is not above `end_utime`. -/
def CatHistory.respond (H : CatHistory) (count : ℕ+) (endTime : Int) : List CatTransaction :=
  (H.transactions.filter fun j => endTime ≤ 0 ∨ j.utime ≤ endTime).take count

namespace HttpPaging

structure State where
  visited : List ITransactionBase
  /-- `allTransactionLoaded`. -/
  ended : Bool

/-- The time of the last transaction. -/
def State.endTime (s : State) : Int := (s.visited.getLast?.map fun t => t.head.utime).getD 0

section
variable (R : Reader) (H : CatHistory) (count : ℕ+)

def next (s : State) : State :=
  if s.ended then s
  else match (TonApiCat.getTransactions R s.endTime
      (.ok (some (H.respond count s.endTime)))).1 with
    | some ts => { s with visited := s.visited ++ ts }
    | none => { s with ended := true }

/-- The state after a number of calls. -/
def calls : Nat → State
  | 0 => ⟨[], false⟩
  | n + 1 => next R H count (calls n)

end

/-! ## One transaction -/

section Transaction
variable {R : Reader}

theorem outRound_eq_nil_iff (acc : Nat × List ITransactionDetail) (msg : CatMessage) :
    (R.outRound acc msg).2 = [] ↔ acc.2 = [] ∧ ¬ 0 < msg.value := by
  unfold Reader.outRound
  by_cases hvalue : 0 < msg.value
  · rw [if_pos hvalue]
    cases R.getTransactionDetail true msg <;> simp [hvalue]
  · rw [if_neg hvalue]
    simp [hvalue]

theorem inRound_eq_nil_iff (acc : Nat × List ITransactionDetail) (msg : CatMessage) :
    (R.inRound acc msg).2 = [] ↔ acc.2 = [] ∧ ¬ 0 < msg.value := by
  unfold Reader.inRound
  by_cases hvalue : 0 < msg.value
  · rw [if_pos hvalue]
    simp [hvalue]
  · rw [if_neg hvalue]
    simp [hvalue]

theorem foldl_outRound_eq_nil_iff (msgs : List CatMessage)
    (acc : Nat × List ITransactionDetail) :
    (msgs.foldl R.outRound acc).2 = [] ↔ acc.2 = [] ∧ ∀ msg ∈ msgs, ¬ 0 < msg.value := by
  induction msgs generalizing acc with
  | nil => simp
  | cons msg msgs ih =>
    rw [List.foldl_cons, ih, outRound_eq_nil_iff, List.forall_mem_cons, and_assoc]

/-- What becomes of a transaction with an in message. -/
theorem catTransaction_eq {j : CatTransaction} (hin : j.inMsg.isSome) :
    (j.valued = true ∧ ∃ t, R.catTransaction j = .ok (some t) ∧ t.head.lt = j.lt ∧
      t.head.utime = j.utime) ∨
    (j.valued = false ∧ R.catTransaction j = .ok none) := by
  obtain ⟨inMsg, hinMsg⟩ := Option.isSome_iff_exists.1 hin
  have hnil : (R.inRound (j.outMsgs.foldl R.outRound (TransactionType.none, [])) inMsg).2 = [] ↔
      j.valued = false := by
    rw [inRound_eq_nil_iff, foldl_outRound_eq_nil_iff, CatTransaction.valued, hinMsg]
    simp
  unfold Reader.catTransaction
  rw [hinMsg]
  cases hvalued : j.valued with
  | false => exact .inr ⟨rfl, congrArg Except.ok (if_pos (hnil.2 hvalued))⟩
  | true =>
    have hne := mt hnil.1 (by rw [hvalued]; exact nofun)
    refine .inl ⟨rfl, _, congrArg Except.ok (if_neg hne), ?_, ?_⟩
    · rw [ITransactionBase.lt_build]
    · rw [ITransactionBase.utime_build]

/-- The transactions of an answer that all have in messages: those with a value. -/
theorem mapM_catTransaction {js : List CatTransaction} (hin : ∀ j ∈ js, j.inMsg.isSome) :
    ∃ trs, js.mapM R.catTransaction = .ok trs ∧
      trs.reduceOption.map (fun t => (t.head.lt, t.head.utime)) =
        (js.filter CatTransaction.valued).map fun j => (j.lt, j.utime) := by
  induction js with
  | nil => exact ⟨[], rfl, rfl⟩
  | cons j js ih =>
    rw [List.forall_mem_cons] at hin
    obtain ⟨trs, hmap, hkeys⟩ := ih hin.2
    obtain ⟨hvalued, t, ht, hlt, hutime⟩ | ⟨hvalued, ht⟩ := catTransaction_eq (R := R) hin.1
    · refine ⟨some t :: trs, ?_, ?_⟩
      · rw [List.mapM_cons, ht, hmap]
        rfl
      · rw [List.reduceOption_cons_of_some, List.filter_cons_of_pos hvalued, List.map_cons,
          List.map_cons, hkeys, hlt, hutime]
    · refine ⟨none :: trs, ?_, ?_⟩
      · rw [List.mapM_cons, ht, hmap]
        rfl
      · rw [List.reduceOption_cons_of_none, List.filter_cons_of_neg (by rw [hvalued]; exact nofun),
          hkeys]

/-- One without an in message breaks the whole answer. -/
theorem mapM_catTransaction_error {js : List CatTransaction} (hin : ∃ j ∈ js, j.inMsg.isNone) :
    js.mapM R.catTransaction = .error .nullReference := by
  induction js with
  | nil =>
    obtain ⟨j, hj, -⟩ := hin
    cases hj
  | cons j js ih =>
    rw [List.mapM_cons]
    by_cases hj : j.inMsg.isSome
    · have hjs : ∃ j ∈ js, j.inMsg.isNone := by
        obtain ⟨j', hj', hnone⟩ := hin
        obtain rfl | htail := List.mem_cons.1 hj'
        · rw [Option.isNone_iff_eq_none.1 hnone] at hj
          cases hj
        · exact ⟨j', htail, hnone⟩
      rw [ih hjs]
      obtain ⟨-, t, ht, -⟩ | ⟨-, ht⟩ := catTransaction_eq (R := R) hj
      · rw [ht]
        rfl
      · rw [ht]
        rfl
    · rw [Reader.catTransaction, Option.not_isSome_iff_eq_none.1 hj]
      rfl

end Transaction

/-! ## The calls are a reader with a time for the cursor -/

/-- The history as a log whose cursor is the time. -/
def source (H : CatHistory) (count : ℕ+) : Paging.Source CatTransaction Int where
  log := H.transactions
  time := CatTransaction.utime
  wanted := CatTransaction.valued
  fails j := j.inMsg.isNone
  count := count
  sorted := H.sorted

/-- No time before the first call. -/
def cursorOf (endTime : Int) : WithTop Int := if endTime ≤ 0 then ⊤ else endTime

theorem le_cursorOf_iff (utime endTime : Int) :
    (utime : WithTop Int) ≤ cursorOf endTime ↔ endTime ≤ 0 ∨ utime ≤ endTime := by
  unfold cursorOf
  split_ifs with h
  · simp [h]
  · simp [h]

theorem lt_cursorOf_iff (utime endTime : Int) :
    (utime : WithTop Int) < cursorOf endTime ↔ endTime ≤ 0 ∨ utime < endTime := by
  unfold cursorOf
  split_ifs with h
  · simp [h]
  · simp [h]

section Calls
variable (H : CatHistory) (count : ℕ+)

theorem respond_eq (endTime : Int) :
    H.respond count endTime = (source H count).fetch (cursorOf endTime) := by
  unfold CatHistory.respond Paging.Source.fetch source
  simp only [le_cursorOf_iff]

theorem older_eq (endTime : Int) (js : List CatTransaction) :
    (js.filter fun j => endTime ≤ 0 ∨ j.utime < endTime) =
      (source H count).older (cursorOf endTime) js := by
  unfold Paging.Source.older source
  simp only [lt_cursorOf_iff]

/-- The panel is where the reader is. -/
structure Simulates (s : State) (s' : Paging.State CatTransaction Int) : Prop where
  visited : s.visited.map (fun t => (t.head.lt, t.head.utime)) =
    s'.visited.map fun j => (j.lt, j.utime)
  cursor : cursorOf s.endTime = s'.cursor
  ended : s.ended = s'.ended

variable {R : Reader}

/-- An answer: an error, or the page of the reader, or null where the page is empty. -/
theorem getTransactions_eq (endTime : Int) :
    ((source H count).Fails (cursorOf endTime) ∧ ∃ e,
      TonApiCat.getTransactions R endTime (.ok (some (H.respond count endTime))) =
        (some [], some e)) ∨
    (¬ (source H count).Fails (cursorOf endTime) ∧
      (source H count).page (cursorOf endTime) = [] ∧
      TonApiCat.getTransactions R endTime (.ok (some (H.respond count endTime))) = (none, none)) ∨
    (¬ (source H count).Fails (cursorOf endTime) ∧ ∃ ts,
      ts.map (fun t => (t.head.lt, t.head.utime)) =
        ((source H count).page (cursorOf endTime)).map (fun j => (j.lt, j.utime)) ∧ ts ≠ [] ∧
      TonApiCat.getTransactions R endTime (.ok (some (H.respond count endTime))) =
        (some ts, none)) := by
  unfold TonApiCat.getTransactions Reader.catPage
  simp only [respond_eq, older_eq H count]
  by_cases hfails : (source H count).Fails (cursorOf endTime)
  · refine .inl ⟨hfails, R.messageOf .nullReference, ?_⟩
    have hne : ((source H count).fetch (cursorOf endTime)).isEmpty = false := by
      obtain ⟨j, hj, -⟩ := hfails
      exact List.isEmpty_eq_false_iff_exists_mem.2 ⟨j, List.mem_of_mem_filter hj⟩
    rw [hne, mapM_catTransaction_error hfails]
    rfl
  · refine .inr ?_
    have hin : ∀ j ∈ (source H count).older (cursorOf endTime)
        ((source H count).fetch (cursorOf endTime)), j.inMsg.isSome := by
      intro j hj
      by_contra hnone
      exact hfails ⟨j, hj, Option.isNone_iff_eq_none.2 (Option.not_isSome_iff_eq_none.1 hnone)⟩
    obtain ⟨trs, hmap, hkeys⟩ := mapM_catTransaction (R := R) hin
    rw [hmap]
    by_cases hnil : (source H count).page (cursorOf endTime) = []
    · have hts : trs.reduceOption = [] := by
        rw [← List.map_eq_nil_iff, hkeys]
        exact List.map_eq_nil_iff.2 hnil
      refine .inl ⟨hfails, hnil, ?_⟩
      simp only [ok_bind, pure, Except.pure, hts]
      split <;> rfl
    · have hts : trs.reduceOption ≠ [] := by
        intro hts
        rw [hts] at hkeys
        exact hnil (List.map_eq_nil_iff.1 hkeys.symm)
      have hne : ((source H count).fetch (cursorOf endTime)).isEmpty = false := by
        obtain ⟨j, hj⟩ := List.exists_mem_of_ne_nil _ hnil
        exact List.isEmpty_eq_false_iff_exists_mem.2
          ⟨j, List.mem_of_mem_filter (List.mem_of_mem_filter hj)⟩
      refine .inr ⟨hfails, _, hkeys, hts, ?_⟩
      rw [hne]
      simp only [ok_bind, pure, Except.pure, List.isEmpty_iff, hts]
      rfl

/-- The last entries of two lists with the same keys. -/
theorem utime_last {ts : List ITransactionBase} {js : List CatTransaction}
    (h : ts.map (fun t => (t.head.lt, t.head.utime)) = js.map fun j => (j.lt, j.utime)) :
    ts.getLast?.map (fun t => t.head.utime) = js.getLast?.map CatTransaction.utime := by
  have hlast := congrArg (fun keys => keys.getLast?.map Prod.snd) h
  simpa [List.getLast?_map, Option.map_map, Function.comp_def] using hlast

/-- Each call does what the reader's does. -/
theorem simulates_next {s : State} {s' : Paging.State CatTransaction Int} (h : Simulates s s') :
    Simulates (next R H count s) ((source H count).next s') := by
  cases hs : s'.ended with
  | true =>
    rw [Paging.Source.next_of_ended hs, next, if_pos (h.ended.trans hs)]
    exact h
  | false =>
    have hgo : ¬ s.ended = true := by rw [h.ended, hs]; exact nofun
    have hanswer := getTransactions_eq H count (R := R) s.endTime
    rw [h.cursor] at hanswer
    rw [next, if_neg hgo]
    obtain ⟨hfails, e, hanswer⟩ | ⟨hfails, hnil, hanswer⟩ | ⟨hfails, ts, hkeys, hne, hanswer⟩ :=
      hanswer
    · rw [hanswer, Paging.Source.next_of_fails hfails]
      simpa using h
    · rw [hanswer, Paging.Source.next_of_nil hs hfails hnil]
      exact ⟨h.visited, h.cursor, rfl⟩
    · have hpage : (source H count).page s'.cursor ≠ [] := by
        intro hnil
        rw [hnil] at hkeys
        exact hne (List.map_eq_nil_iff.1 hkeys)
      obtain ⟨j, hj⟩ := Option.ne_none_iff_exists'.1 (mt List.getLast?_eq_none_iff.1 hpage)
      rw [hanswer, Paging.Source.next_of_last hs hfails hj]
      refine ⟨?_, ?_, h.ended.trans hs⟩
      · simp only [List.map_append, h.visited, hkeys]
      · -- the page is not empty, so its last transaction is the cursor
        have hlast := utime_last hkeys
        obtain ⟨t, ht⟩ := Option.ne_none_iff_exists'.1 (mt List.getLast?_eq_none_iff.1 hne)
        rw [hj, ht] at hlast
        have htime : t.head.utime = j.utime := Option.some.inj hlast
        have hmem : j ∈ H.transactions := by
          have hrest := ((source H count).page_prefix_rest s'.cursor).subset
            (List.mem_of_getLast? hj)
          exact List.mem_of_mem_filter (List.mem_of_mem_filter hrest)
        have hpos := H.positive j hmem
        simp only [State.endTime, List.getLast?_append, ht, Option.some_or, Option.map_some,
          Option.getD_some, htime, cursorOf]
        exact if_neg (by omega)

theorem calls_simulates (n : Nat) :
    Simulates (calls R H count n) ((source H count).calls n) := by
  induction n with
  | zero => exact ⟨rfl, rfl, rfl⟩
  | succ n ih => exact simulates_next H count ih

end Calls

variable (R : Reader) (H : CatHistory) (count : ℕ+)

theorem lts_visited (n : Nat) : (calls R H count n).visited.map (fun t => t.head.lt) =
    ((source H count).calls n).visited.map CatTransaction.lt := by
  have hkeys := congrArg (List.map Prod.fst) (calls_simulates H count (R := R) n).visited
  simpa [Function.comp_def] using hkeys

/-- The calls end with everything when those of the reader do. -/
theorem exists_ended_iff :
    (∃ n, (calls R H count n).ended = true ∧
        (calls R H count n).visited.map (fun t => t.head.lt) =
          (H.transactions.filter CatTransaction.valued).map CatTransaction.lt) ↔
      ∃ n, ((source H count).calls n).ended = true ∧
        ((source H count).calls n).visited = H.transactions.filter CatTransaction.valued := by
  refine exists_congr fun n => ?_
  rw [(calls_simulates H count n).ended, lts_visited]
  refine and_congr_right fun _ => ⟨fun h => ?_, congrArg _⟩
  -- as many were visited as there are
  have hlen := congrArg List.length h
  rw [List.length_map, List.length_map] at hlen
  exact (Paging.Source.visited_sublist (P := source H count) n).eq_of_length hlen

/-- What is visited is never out of order and never visited twice; everything with a value is
visited before the end exactly when every call is complete. -/
theorem paging_complete_iff :
    (∀ n, ((calls R H count n).visited.map fun t => t.head.lt).Sublist
      ((H.transactions.filter CatTransaction.valued).map CatTransaction.lt)) ∧
    ((∃ n, (calls R H count n).ended = true ∧
        (calls R H count n).visited.map (fun t => t.head.lt) =
          (H.transactions.filter CatTransaction.valued).map CatTransaction.lt) ↔
      ∀ n, (calls R H count n).ended = false →
        (source H count).Complete (cursorOf (calls R H count n).endTime)) := by
  refine ⟨fun n => ?_, ?_⟩
  · rw [lts_visited]
    exact (Paging.Source.visited_sublist (P := source H count) n).map _
  · have hiff := (source H count).ends_complete_iff
    refine (exists_ended_iff R H count).trans (hiff.trans (forall_congr' fun n => ?_))
    rw [(calls_simulates H count (R := R) n).cursor, (calls_simulates H count (R := R) n).ended]

/-! ## Two transactions in one second -/

namespace OneSecond

def first : CatTransaction := Reader.OneOut.cat 1000000000

def second : CatTransaction := { first with lt := 2 }

def history : CatHistory where
  transactions := [second, first]
  descending := by simp [second, first, Reader.OneOut.cat]
  sorted := by simp [second, first]
  positive := by simp [second, first, Reader.OneOut.cat]

end OneSecond

/-- Of a page of one transaction the second one is the last, and the first is never asked for. -/
theorem not_complete_one_second :
    ¬ ∀ (R : Reader) (H : CatHistory) (count : ℕ+), ∃ n, (calls R H count n).ended = true ∧
      (calls R H count n).visited.map (fun t => t.head.lt) =
        (H.transactions.filter CatTransaction.valued).map CatTransaction.lt := by
  intro hall
  have hends := (exists_ended_iff _ _ _).1
    (hall (Reader.OneOut.reader .walletV3) OneSecond.history 1)
  have hcomplete := (source OneSecond.history 1).ends_complete_iff.1 hends 0 rfl
  exact hcomplete.untied OneSecond.second rfl OneSecond.first List.mem_cons_self rfl

end HttpPaging
end Ton
