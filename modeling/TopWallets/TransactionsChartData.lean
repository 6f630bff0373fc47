import Mathlib

/- The balance chart: `TransactionsChartData` makes bars of an account's transactions, which the
   events `TransactionsNew` and `TransactionsOld` hand to it in pages.

   An older page is made into bars of its own (`LoadBars`), and the bars that there are go behind
   them, moved by what the page comes to; newer ones go on from the last bar (`AddBars`). Both are
   done by tasks, and while `LoadBars` has one, `Updating` is set.

   Main result: when nothing is left to do the bars are those of one `CalcBars` over all announced
   transactions, and the last one closes at the sum of their amounts, over every run in which no
   page comes to `LoadBars` while it is updating, an older page does not end in the interval in
   which the bars begin, and the tasks of newer pages run in their order and not while `LoadBars`
   is about to set its bars (`bars_eq_run`).

   Correspondence (C# ↔ Lean):
     `CalcBars`                        ↔ `calcBars`
     `LoadBars`, `AddBars`             ↔ `loadBars`, `addBars`, their tasks `exec`
     `Wallet_TransactionsNew`, `-Old`  ↔ `transactionsNew`, `transactionsOld`
     `BarsCalculator`                  ↔ `BarsCalculator`
   An array of transactions has its newest first. A bar that a calculator changes is the last of the
   list it is in, so it is replaced there. A task is done in one step, that of `LoadBars` in two: it
   reads the bars, and then it sets them. -/
namespace TransactionsChartData

structure Bar (D : Type) where
  time : Int
  opening : D
  high : D
  low : D
  close : D
  volume : D
  deriving DecidableEq

inductive MarketDataType where
  | sell
  | buy
  deriving DecidableEq

structure MarketData (D : Type) where
  time : Int
  price : D
  volume : D
  type : MarketDataType

/-- A transaction with its `GetAmount`. -/
structure Transaction (D : Type) where
  time : Int
  amount : D

variable {D : Type} [AddCommGroup D] [LinearOrder D]

/-- A bar with its prices moved by `c`. -/
def Bar.shift (c : D) (bar : Bar D) : Bar D :=
  ⟨bar.time, bar.opening + c, bar.high + c, bar.low + c, bar.close + c, bar.volume⟩

def MarketData.shift (c : D) (md : MarketData D) : MarketData D := { md with price := md.price + c }

/-! ## The calculator -/

/-- `BarsCalculator` of an interval: from its last bar and a tick it makes the last bar, which is a
    new one or not. -/
structure BarsCalculator (D : Type) where
  /-- `new Bar(time, 0, 0)`. -/
  first : Int → Bar D
  add : Bar D → MarketData D → Bar D × Bool
  /-- The interval that a time is in. -/
  slot : Int → Int

/-- The ticks of one interval make one bar, and a tick of another one opens a bar. -/
structure BarsCalculator.Lawful (K : BarsCalculator D) : Prop where
  first_time : ∀ time, (K.first time).time = time
  first_close : ∀ time, (K.first time).close = 0
  slot_mono : ∀ a b, a ≤ b → K.slot a ≤ K.slot b
  add_iff : ∀ bar md, (K.add bar md).2 = true ↔ K.slot md.time ≠ K.slot bar.time
  time_merged : ∀ bar md, (K.add bar md).2 = false → (K.add bar md).1.time = bar.time
  slot_opened : ∀ bar md, (K.add bar md).2 = true →
    K.slot (K.add bar md).1.time = K.slot md.time
  close : ∀ bar md, (K.add bar md).1.close = md.price
  shift : ∀ c bar md, K.add (bar.shift c) (md.shift c) =
    ((K.add bar md).1.shift c, (K.add bar md).2)

/-! ## The bars -/

section Bars
variable (K : BarsCalculator D)

def tick (last : Bar D) (tr : Transaction D) : MarketData D :=
  ⟨tr.time, last.close + tr.amount, 0, if tr.amount < 0 then .sell else .buy⟩

/-- One transaction of the loops in `CalcBars` and `AddBars`. -/
def addTick (bars : List (Bar D)) (tr : Transaction D) : List (Bar D) :=
  match bars.getLast? with
  | none => bars
  | some last =>
    let (bar, add) := K.add last (tick last tr)
    if add = true then bars ++ [bar] else bars.dropLast ++ [bar]

def calcBars (transactions : List (Transaction D)) : List (Bar D) :=
  match transactions.getLast? with
  | none => []
  | some oldest => transactions.reverse.foldl (addTick K) [K.first oldest.time]

/-- The loop over the bars in `LoadBars`. -/
def rebase (data bars : List (Bar D)) : List (Bar D) :=
  match data.getLast? with
  | none => data
  | some lbar => data ++ (bars.filter (·.time > lbar.time)).map (Bar.shift lbar.close)

/-- The task of `AddBars`. Without a last bar the one it makes is not in the list. -/
def addTo (bars : List (Bar D)) (transactions : List (Transaction D)) : List (Bar D) :=
  if bars ≠ [] then transactions.reverse.foldl (addTick K) bars
  else (calcBars K transactions).tail

end Bars

/-! ## The events and the tasks -/

inductive Task (D : Type) where
  /-- `LoadBars` before it reads the bars. -/
  | load (transactions : List (Transaction D))
  /-- `LoadBars` with the bars that it sets. -/
  | assign (data : List (Bar D))
  | endUpdate
  | add (transactions : List (Transaction D))

structure State (D : Type) where
  bars : List (Bar D)
  updating : Bool
  /-- The tasks, in the order in which they were given. -/
  tasks : List (Task D)

def start : State D := ⟨[], false, []⟩

inductive Action (D : Type) where
  | new (transactions : List (Transaction D))
  | old (transactions : List (Transaction D))
  /-- The task at an index is done. -/
  | run (index : Nat)

section Steps
variable (K : BarsCalculator D) (s : State D)

def loadBars (transactions : List (Transaction D)) : State D :=
  if transactions.length > 0 ∧ s.updating = false then
    { s with updating := true, tasks := s.tasks ++ [.load transactions] }
  else s

def addBars (transactions : List (Transaction D)) : State D :=
  if transactions.length > 0 then { s with tasks := s.tasks ++ [.add transactions] } else s

def transactionsOld (transactions : List (Transaction D)) : State D := loadBars s transactions

def transactionsNew (transactions : List (Transaction D)) : State D :=
  if s.bars.length = 0 then loadBars s transactions else addBars s transactions

def exec : Task D → State D
  | .load transactions =>
    let data := calcBars K transactions
    if data ≠ [] then { s with tasks := s.tasks ++ [.assign (rebase data s.bars)] }
    else { s with tasks := s.tasks ++ [.endUpdate] }
  | .assign data => { s with bars := data, tasks := s.tasks ++ [.endUpdate] }
  | .endUpdate => { s with updating := false }
  | .add transactions => { s with bars := addTo K s.bars transactions }

def act : Action D → State D
  | .new transactions => transactionsNew s transactions
  | .old transactions => transactionsOld s transactions
  | .run index =>
    match s.tasks[index]? with
    | none => s
    | some task => exec K { s with tasks := s.tasks.eraseIdx index } task

end Steps

def run (K : BarsCalculator D) (actions : List (Action D)) : State D :=
  actions.foldl (act K) start

/-- The transactions announced with an action, together with those before. -/
def announce (announced : List (Transaction D)) : Action D → List (Transaction D)
  | .new transactions => transactions ++ announced
  | .old transactions => announced ++ transactions
  | .run _ => announced

def announced (actions : List (Action D)) : List (Transaction D) := actions.foldl announce []

/-! ## When the bars are those of the history -/

section Condition
variable (K : BarsCalculator D)

/-- The page does not end in the interval of the oldest transaction there is, and after the page the
    calculator opens the bar that it makes of that transaction at the page's last price. -/
def Joint (page announced : List (Transaction D)) : Prop :=
  ∀ newest ∈ page.head?, ∀ oldest ∈ announced.getLast?,
    K.slot newest.time ≠ K.slot oldest.time ∧
    ∀ lbar ∈ (calcBars K page).getLast?, (K.add lbar (tick lbar oldest)).1 =
      (K.add ((K.first oldest.time).shift lbar.close) (tick lbar oldest)).1

/-- The condition on an action in the state before it. -/
def Meets (s : State D) (announced : List (Transaction D)) : Action D → Prop
  | .new page => page = [] ∨ s.bars ≠ [] ∨ s.updating = false
  | .old page => page = [] ∨ s.updating = false ∧ Joint K page announced
  | .run index => ∀ page, s.tasks[index]? = some (.add page) →
      (∀ j < index, ∀ page', s.tasks[j]? ≠ some (.add page')) ∧ ∀ data, .assign data ∉ s.tasks

def RunMeets : State D → List (Transaction D) → List (Action D) → Prop
  | _, _, [] => True
  | s, announced, action :: actions => Meets K s announced action ∧
      RunMeets (act K s action) (announce announced action) actions

end Condition

/-! ## Bars of a list of ticks -/

section Fold
variable (K : BarsCalculator D)

theorem addTick_ne_nil {bars : List (Bar D)} (h : bars ≠ []) (tr : Transaction D) :
    addTick K bars tr ≠ [] := by
  unfold addTick
  split
  · exact h
  · dsimp only
    split <;> simp

theorem foldl_ne_nil {bars : List (Bar D)} (h : bars ≠ []) (ts : List (Transaction D)) :
    ts.foldl (addTick K) bars ≠ [] := by
  induction ts generalizing bars with
  | nil => exact h
  | cons tr ts ih => exact ih (addTick_ne_nil K h tr)

theorem addTick_concat (bars : List (Bar D)) (last : Bar D) (tr : Transaction D) :
    addTick K (bars ++ [last]) tr = if (K.add last (tick last tr)).2 = true
      then bars ++ [last, (K.add last (tick last tr)).1]
      else bars ++ [(K.add last (tick last tr)).1] := by
  unfold addTick
  rw [List.getLast?_concat]
  dsimp only
  rw [List.dropLast_concat, List.append_assoc]
  rfl

/-- Only the last bar is changed. -/
theorem addTick_append (before : List (Bar D)) {bars : List (Bar D)} (h : bars ≠ [])
    (tr : Transaction D) : addTick K (before ++ bars) tr = before ++ addTick K bars tr := by
  rw [← List.dropLast_append_getLast h, ← List.append_assoc, addTick_concat, addTick_concat]
  split <;> rw [List.append_assoc]

theorem foldl_append (before : List (Bar D)) {bars : List (Bar D)} (h : bars ≠ [])
    (ts : List (Transaction D)) :
    ts.foldl (addTick K) (before ++ bars) = before ++ ts.foldl (addTick K) bars := by
  induction ts generalizing bars with
  | nil => rfl
  | cons tr ts ih => rw [List.foldl_cons, List.foldl_cons, addTick_append K before h,
      ih (addTick_ne_nil K h tr)]

end Fold

section Lawful
variable {K : BarsCalculator D} (hK : K.Lawful)
include hK

omit hK in
theorem tick_shift (c : D) (last : Bar D) (tr : Transaction D) :
    tick (last.shift c) tr = (tick last tr).shift c := by
  have hprice : last.close + c + tr.amount = last.close + tr.amount + c := add_right_comm _ _ _
  unfold tick
  rw [show (last.shift c).close = last.close + c from rfl, hprice]
  rfl

theorem addTick_shift (c : D) (bars : List (Bar D)) (tr : Transaction D) :
    addTick K (bars.map (Bar.shift c)) tr = (addTick K bars tr).map (Bar.shift c) := by
  by_cases h : bars = []
  · rw [h]
    rfl
  · rw [← List.dropLast_append_getLast h, List.map_append, List.map_singleton, addTick_concat,
      addTick_concat, tick_shift, hK.shift]
    split <;> simp

theorem foldl_shift (c : D) (bars : List (Bar D)) (ts : List (Transaction D)) :
    ts.foldl (addTick K) (bars.map (Bar.shift c)) =
      (ts.foldl (addTick K) bars).map (Bar.shift c) := by
  induction ts generalizing bars with
  | nil => rfl
  | cons tr ts ih => rw [List.foldl_cons, List.foldl_cons, addTick_shift hK, ih]

/-- The last bar closes at the price of the last tick. -/
theorem addTick_close {bars : List (Bar D)} {last : Bar D} (h : bars.getLast? = some last)
    (tr : Transaction D) : ∃ last', (addTick K bars tr).getLast? = some last' ∧
      last'.close = last.close + tr.amount := by
  refine ⟨(K.add last (tick last tr)).1, ?_, hK.close last (tick last tr)⟩
  unfold addTick
  rw [h]
  dsimp only
  split <;> rw [List.getLast?_concat]

theorem foldl_close {bars : List (Bar D)} {last : Bar D} (h : bars.getLast? = some last)
    (ts : List (Transaction D)) : ∃ last', (ts.foldl (addTick K) bars).getLast? = some last' ∧
      last'.close = last.close + (ts.map Transaction.amount).sum := by
  induction ts generalizing bars last with
  | nil => exact ⟨last, h, by rw [List.map_nil, List.sum_nil, add_zero]⟩
  | cons tr ts ih =>
    obtain ⟨last₁, h₁, hclose₁⟩ := addTick_close hK h tr
    obtain ⟨last', h', hclose'⟩ := ih h₁
    exact ⟨last', h', by rw [hclose', hclose₁, List.map_cons, List.sum_cons, add_assoc]⟩

/-- A property of the times of the ticks and the first bar holds of all bars. -/
theorem foldl_slots (P : Int → Prop) {bars : List (Bar D)} (h : ∀ bar ∈ bars, P (K.slot bar.time))
    {ts : List (Transaction D)} (hts : ∀ tr ∈ ts, P (K.slot tr.time)) :
    ∀ bar ∈ ts.foldl (addTick K) bars, P (K.slot bar.time) := by
  induction ts generalizing bars with
  | nil => exact h
  | cons tr ts ih =>
    apply ih _ (fun tr' htr' => hts tr' (List.mem_cons_of_mem tr htr'))
    have htr := hts tr List.mem_cons_self
    intro bar hbar
    unfold addTick at hbar
    split at hbar
    · exact h bar hbar
    · next last hlast =>
      have hlastP := h last (List.mem_of_getLast? hlast)
      dsimp only at hbar
      split at hbar
      · next hadd =>
        cases List.mem_append.mp hbar with
        | inl hbar => exact h bar hbar
        | inr hbar =>
          rw [List.mem_singleton.mp hbar, hK.slot_opened last (tick last tr) hadd]
          exact htr
      · next hadd =>
        cases List.mem_append.mp hbar with
        | inl hbar => exact h bar (List.dropLast_subset bars hbar)
        | inr hbar =>
          have hmerged : (K.add last (tick last tr)).2 = false := by simpa using hadd
          rw [List.mem_singleton.mp hbar, hK.time_merged last (tick last tr) hmerged]
          exact hlastP

/-! ## Pages -/

omit hK in
theorem calcBars_concat (core : List (Transaction D)) (oldest : Transaction D) :
    calcBars K (core ++ [oldest]) =
      core.reverse.foldl (addTick K) (addTick K [K.first oldest.time] oldest) := by
  rw [calcBars, List.getLast?_concat]
  dsimp only
  rw [List.reverse_append, List.reverse_singleton, List.singleton_append, List.foldl_cons]

omit hK in
theorem calcBars_ne_nil {ts : List (Transaction D)} (h : ts ≠ []) : calcBars K ts ≠ [] := by
  rw [← List.dropLast_append_getLast h, calcBars_concat]
  exact foldl_ne_nil K (addTick_ne_nil K (List.cons_ne_nil _ _) _) _

omit hK in
/-- Newer transactions go on from the last bar. -/
theorem calcBars_append (page : List (Transaction D)) {core : List (Transaction D)}
    (h : core ≠ []) :
    calcBars K (page ++ core) = page.reverse.foldl (addTick K) (calcBars K core) := by
  rw [← List.dropLast_append_getLast h, ← List.append_assoc, calcBars_concat, calcBars_concat,
    List.reverse_append, List.foldl_append]

omit hK in
theorem addTo_calcBars (page : List (Transaction D)) {core : List (Transaction D)}
    (h : core ≠ []) : addTo K (calcBars K core) page = calcBars K (page ++ core) := by
  rw [addTo, if_pos (calcBars_ne_nil h), calcBars_append page h]

theorem calcBars_close {ts : List (Transaction D)} (h : ts ≠ []) :
    ∃ last, (calcBars K ts).getLast? = some last ∧
      last.close = (ts.map Transaction.amount).sum := by
  have hlast : ts.getLast? = some (ts.getLast h) := List.getLast?_eq_some_getLast h
  have hfirst : [K.first (ts.getLast h).time].getLast? = some (K.first (ts.getLast h).time) := rfl
  obtain ⟨last, hbars, hclose⟩ := foldl_close hK hfirst ts.reverse
  refine ⟨last, ?_, ?_⟩
  · rw [calcBars, hlast]
    exact hbars
  · rw [hclose, hK.first_close, zero_add, List.map_reverse, List.sum_reverse]

/-- The bars of transactions of some times have those times' slots. -/
theorem calcBars_slots (P : Int → Prop) {ts : List (Transaction D)}
    (hts : ∀ tr ∈ ts, P (K.slot tr.time)) : ∀ bar ∈ calcBars K ts, P (K.slot bar.time) := by
  unfold calcBars
  split
  · intro bar hbar
    cases hbar
  · next oldest holdest =>
    apply foldl_slots hK P
    · intro bar hbar
      rw [List.mem_singleton.mp hbar, hK.first_time]
      exact hts oldest (List.mem_of_getLast? holdest)
    · intro tr htr
      exact hts tr (List.mem_reverse.mp htr)

/-- The first tick is merged into the first bar. -/
theorem addTick_first (oldest : Transaction D) :
    addTick K [K.first oldest.time] oldest =
      [(K.add (K.first oldest.time) (tick (K.first oldest.time) oldest)).1] := by
  have hsame : ¬ (K.add (K.first oldest.time) (tick (K.first oldest.time) oldest)).2 = true := by
    rw [hK.add_iff, hK.first_time]
    exact fun h => h rfl
  have h := addTick_concat K [] (K.first oldest.time) oldest
  rw [List.nil_append, if_neg hsame] at h
  exact h

/-- The bars of an older page that ends in another interval come before the one of `oldest`. -/
theorem slot_lt_of_page {page core : List (Transaction D)} {oldest : Transaction D}
    (hsorted : (core ++ page).Pairwise fun a b => b.time ≤ a.time)
    (holdest : core.getLast? = some oldest)
    (hslot : ∀ newest ∈ page.head?, K.slot newest.time ≠ K.slot oldest.time) :
    ∀ bar ∈ calcBars K page, K.slot bar.time < K.slot oldest.time := by
  apply calcBars_slots hK (· < K.slot oldest.time)
  intro tr htr
  obtain ⟨newest, older, hpage⟩ := List.exists_cons_of_ne_nil (List.ne_nil_of_mem htr)
  rw [hpage] at hsorted htr hslot
  obtain ⟨-, hpagesorted, hcross⟩ := List.pairwise_append.mp hsorted
  have hnewest : newest.time ≤ oldest.time :=
    hcross oldest (List.mem_of_getLast? holdest) newest List.mem_cons_self
  have hlt : K.slot newest.time < K.slot oldest.time :=
    Int.lt_iff_le_and_ne.mpr ⟨hK.slot_mono _ _ hnewest, hslot newest rfl⟩
  cases List.mem_cons.mp htr with
  | inl htr => rwa [htr]
  | inr htr =>
    have hle := hK.slot_mono _ _ ((List.pairwise_cons.mp hpagesorted).1 tr htr)
    exact Int.lt_of_le_of_lt hle hlt

theorem slot_le_of_core {core : List (Transaction D)} {oldest : Transaction D}
    (hsorted : core.Pairwise fun a b => b.time ≤ a.time) (holdest : core.getLast? = some oldest) :
    ∀ bar ∈ calcBars K core, K.slot oldest.time ≤ K.slot bar.time := by
  apply calcBars_slots hK (K.slot oldest.time ≤ ·)
  intro tr htr
  apply hK.slot_mono
  obtain ⟨newer, hcore⟩ := List.getLast?_eq_some_iff.mp holdest
  rw [hcore] at hsorted htr
  cases List.mem_append.mp htr with
  | inl htr => exact (List.pairwise_append.mp hsorted).2.2 tr htr oldest (by simp)
  | inr htr => exact Int.le_of_eq (congrArg Transaction.time (List.mem_singleton.mp htr)).symm

/-- A bar opened after the page is the first one of the bars there are, moved. -/
theorem opened_eq {lbar : Bar D} {oldest : Transaction D}
    (hopen : (K.add lbar (tick lbar oldest)).1 =
      (K.add ((K.first oldest.time).shift lbar.close) (tick lbar oldest)).1) :
    (K.add lbar (tick lbar oldest)).1 =
      (K.add (K.first oldest.time) (tick (K.first oldest.time) oldest)).1.shift lbar.close := by
  have hclose : ((K.first oldest.time).shift lbar.close).close = lbar.close := by
    rw [show ((K.first oldest.time).shift lbar.close).close = (K.first oldest.time).close +
      lbar.close from rfl, hK.first_close, zero_add]
  have htick : tick ((K.first oldest.time).shift lbar.close) oldest = tick lbar oldest := by
    unfold tick
    rw [hclose]
  rw [hopen, ← htick, tick_shift, hK.shift]

/-- An older page, and the bars there are moved behind it. -/
theorem rebase_calcBars {page core : List (Transaction D)} (hpage : page ≠ []) (hcore : core ≠ [])
    (hsorted : (core ++ page).Pairwise fun a b => b.time ≤ a.time) (hjoint : Joint K page core) :
    rebase (calcBars K page) (calcBars K core) = calcBars K (core ++ page) := by
  obtain ⟨lbar, hlbar, -⟩ := calcBars_close hK hpage
  have holdest : core.getLast? = some (core.getLast hcore) := List.getLast?_eq_some_getLast hcore
  have hsplit : core = core.dropLast ++ [core.getLast hcore] :=
    (List.dropLast_append_getLast hcore).symm
  generalize core.dropLast = newer at hsplit
  generalize core.getLast hcore = oldest at hsplit holdest
  have hbefore := slot_lt_of_page hK hsorted holdest
    (fun newest hnewest => (hjoint newest hnewest oldest holdest).1)
    lbar (List.mem_of_getLast? hlbar)
  have hafter := slot_le_of_core hK (List.pairwise_append.mp hsorted).1 holdest
  have hall : (calcBars K core).filter (·.time > lbar.time) = calcBars K core := by
    rw [List.filter_eq_self]
    intro bar hbar
    apply decide_eq_true
    by_contra hle
    have hmono := hK.slot_mono _ _ (Int.not_lt.mp hle)
    have hge := hafter bar hbar
    omega
  have hadd : (K.add lbar (tick lbar oldest)).2 = true := by
    rw [hK.add_iff]
    exact fun h => absurd hbefore (by rw [← h]; exact Int.lt_irrefl _)
  have hopen : (K.add lbar (tick lbar oldest)).1 =
      (K.add ((K.first oldest.time).shift lbar.close) (tick lbar oldest)).1 := by
    obtain ⟨newest, older, hnewest⟩ := List.exists_cons_of_ne_nil hpage
    exact (hjoint newest (by rw [hnewest]; rfl) oldest holdest).2 lbar hlbar
  have hstep : addTick K (calcBars K page) oldest = calcBars K page ++
      [(K.add (K.first oldest.time) (tick (K.first oldest.time) oldest)).1].map
        (Bar.shift lbar.close) := by
    obtain ⟨init, hinit⟩ := List.getLast?_eq_some_iff.mp hlbar
    rw [hinit, addTick_concat, if_pos hadd, opened_eq hK hopen, List.append_assoc]
    rfl
  calc rebase (calcBars K page) (calcBars K core)
      = calcBars K page ++ (calcBars K core).map (Bar.shift lbar.close) := by
        rw [rebase, hlbar]
        dsimp only
        rw [hall]
    _ = calcBars K page ++ newer.reverse.foldl (addTick K)
          ([(K.add (K.first oldest.time) (tick (K.first oldest.time) oldest)).1].map
            (Bar.shift lbar.close)) := by
        rw [foldl_shift hK, hsplit, calcBars_concat, addTick_first hK]
    _ = newer.reverse.foldl (addTick K) (addTick K (calcBars K page) oldest) := by
        rw [hstep, foldl_append K _ (by simp)]
    _ = calcBars K (core ++ page) := by
        rw [calcBars_append core hpage, hsplit, List.reverse_append, List.reverse_singleton,
          List.singleton_append, List.foldl_cons]

end Lawful

/-! ## What holds in every state -/

/-- The pages whose tasks of `AddBars` are not done. -/
def Task.added : Task D → Option (List (Transaction D))
  | .add page => some page
  | _ => none

def Task.isUpdate : Task D → Bool
  | .add _ => false
  | _ => true

section Invariant
variable {K : BarsCalculator D}

/-- How far `LoadBars` is with an older page behind `core`, and the tasks that it has. -/
inductive Phase (K : BarsCalculator D) (core : List (Transaction D)) :
    Bool → List (Task D) → List (Transaction D) → Prop where
  | idle : Phase K core false [] []
  | loading (page : List (Transaction D)) (hne : page ≠ []) (hjoint : Joint K page core) :
      Phase K core true [.load page] page
  | assigning (page : List (Transaction D)) (hne : page ≠ []) :
      Phase K core true [.assign (calcBars K (core ++ page))] page
  | ending : Phase K core true [.endUpdate] []

/-- The bars are those of `core`; `newer` and `older` are announced besides, and left to tasks. -/
structure Inv (K : BarsCalculator D) (s : State D) (announced core : List (Transaction D))
    (newer : List (List (Transaction D))) (older : List (Transaction D)) : Prop where
  announced : announced = newer.reverse.flatten ++ core ++ older
  bars : s.bars = calcBars K core
  added : s.tasks.filterMap Task.added = newer
  phase : Phase K core s.updating (s.tasks.filter Task.isUpdate) older
  core : newer ≠ [] → core ≠ []

theorem inv_start : Inv K start [] [] [] [] where
  announced := rfl
  bars := rfl
  added := rfl
  phase := .idle
  core := fun h => absurd rfl h

variable {s : State D} {announced core older : List (Transaction D)}
  {newer : List (List (Transaction D))}

theorem calcBars_eq_nil {ts : List (Transaction D)} : calcBars K ts = [] ↔ ts = [] := by
  constructor
  · intro h
    by_contra hne
    exact calcBars_ne_nil hne h
  · intro h
    rw [h]
    rfl

/-- Where nothing is updating, all but the newer pages is in the bars. -/
theorem Phase.older_nil {updating : Bool} {tasks : List (Task D)}
    (h : Phase K core updating tasks older) (hidle : updating = false) :
    tasks = [] ∧ older = [] := by
  cases h with
  | idle => exact ⟨rfl, rfl⟩
  | loading => cases hidle
  | assigning => cases hidle
  | ending => cases hidle

/-- `LoadBars` with a page older than all others. -/
theorem Inv.loadBars (h : Inv K s announced core newer older) {page : List (Transaction D)}
    (hpage : page ≠ []) (hidle : s.updating = false) (hjoint : Joint K page announced) :
    Inv K (loadBars s page) (announced ++ page) core newer page := by
  obtain ⟨hnone, holder⟩ := h.phase.older_nil hidle
  have hpos : page.length > 0 ∧ s.updating = false := ⟨List.length_pos_iff.mpr hpage, hidle⟩
  rw [TransactionsChartData.loadBars, if_pos hpos]
  have hjoint' : Joint K page core := by
    intro newest hnewest oldest holdest
    apply hjoint newest hnewest oldest
    rw [h.announced, holder, List.append_nil]
    have hcore : core ≠ [] := by
      intro hnil
      rw [hnil] at holdest
      cases holdest
    rw [List.getLast?_append_of_ne_nil _ hcore]
    exact holdest
  constructor
  case announced => rw [h.announced, holder, List.append_nil]
  case bars => exact h.bars
  case added => rw [List.filterMap_append, h.added]; exact List.append_nil _
  case phase =>
    rw [List.filter_append, hnone]
    exact .loading page hpage hjoint'
  case core => exact h.core

/-- `AddBars` with a page newer than all others. -/
theorem Inv.addBars (h : Inv K s announced core newer older) {page : List (Transaction D)}
    (hpage : page ≠ []) (hbars : s.bars ≠ []) :
    Inv K (addBars s page) (page ++ announced) core (newer ++ [page]) older := by
  have hpos : page.length > 0 := List.length_pos_iff.mpr hpage
  rw [TransactionsChartData.addBars, if_pos hpos]
  constructor
  case announced => rw [h.announced]; simp
  case bars => exact h.bars
  case added => rw [List.filterMap_append, h.added]; rfl
  case phase =>
    rw [List.filter_append]
    have hnone : [Task.add page].filter Task.isUpdate = [] := rfl
    rw [hnone, List.append_nil]
    exact h.phase
  case core =>
    intro _ hcore
    rw [h.bars] at hbars
    exact hbars (calcBars_eq_nil.mpr hcore)

theorem Phase.length_le {updating : Bool} {tasks : List (Task D)}
    (h : Phase K core updating tasks older) : tasks.length ≤ 1 := by
  cases h with
  | idle => exact Nat.zero_le 1
  | loading => exact Nat.le_refl 1
  | assigning => exact Nat.le_refl 1
  | ending => exact Nat.le_refl 1

/-- The task of `LoadBars` that is done is the only one. -/
theorem Inv.update (h : Inv K s announced core newer older) {before after : List (Task D)}
    {task : Task D} (htasks : s.tasks = before ++ task :: after) (htask : task.isUpdate = true) :
    Phase K core s.updating [task] older ∧ (before ++ after).filter Task.isUpdate = [] := by
  have hphase := h.phase
  rw [htasks, List.filter_append, List.filter_cons_of_pos htask] at hphase
  have hlength := hphase.length_le
  rw [List.length_append, List.length_cons] at hlength
  have hbefore : before.filter Task.isUpdate = [] := List.eq_nil_of_length_eq_zero (by omega)
  have hafter : after.filter Task.isUpdate = [] := List.eq_nil_of_length_eq_zero (by omega)
  rw [hbefore, hafter, List.nil_append] at hphase
  exact ⟨hphase, by rw [List.filter_append, hbefore, hafter, List.append_nil]⟩

omit [AddCommGroup D] [LinearOrder D] in
theorem added_of_update (task : Task D) {before after : List (Task D)}
    (htask : task.isUpdate = true) : (before ++ after).filterMap Task.added =
      (before ++ task :: after).filterMap Task.added := by
  have hnone : task.added = none := by
    cases task with
    | add page => cases htask
    | load => rfl
    | assign => rfl
    | endUpdate => rfl
  rw [List.filterMap_append, List.filterMap_append, List.filterMap_cons_none hnone]

section Update
variable {before after : List (Task D)}

/-- `LoadBars` reads the bars. -/
theorem Inv.exec_load (hK : K.Lawful) (h : Inv K s announced core newer older)
    (hsorted : announced.Pairwise fun a b => b.time ≤ a.time) {page : List (Transaction D)}
    (htasks : s.tasks = before ++ .load page :: after) :
    Inv K (exec K { s with tasks := before ++ after } (.load page)) announced core newer older := by
  obtain ⟨hphase, hnone⟩ := h.update htasks rfl
  generalize s.updating = updating at hphase
  cases hphase with
  | loading _ hne hjoint =>
    have hdata : calcBars K older ≠ [] := calcBars_ne_nil hne
    have hrebase : rebase (calcBars K older) s.bars = calcBars K (core ++ older) := by
      rw [h.bars]
      by_cases hcore : core = []
      · rw [hcore, List.nil_append, calcBars_eq_nil.mpr rfl]
        unfold rebase
        split
        · rfl
        · exact List.append_nil _
      · rw [h.announced, List.append_assoc] at hsorted
        exact rebase_calcBars hK hne hcore (List.pairwise_append.mp hsorted).2.1 hjoint
    simp only [exec, if_pos hdata, hrebase]
    constructor
    case announced => exact h.announced
    case bars => exact h.bars
    case added =>
      rw [List.filterMap_append, added_of_update (.load older) rfl, ← htasks, h.added]
      exact List.append_nil _
    case phase =>
      rw [List.filter_append, hnone]
      exact Phase.assigning older hne
    case core => exact h.core

/-- `LoadBars` sets the bars. -/
theorem Inv.exec_assign (h : Inv K s announced core newer older) {data : List (Bar D)}
    (htasks : s.tasks = before ++ .assign data :: after) :
    Inv K (exec K { s with tasks := before ++ after } (.assign data)) announced (core ++ older)
      newer [] := by
  obtain ⟨hphase, hnone⟩ := h.update htasks rfl
  generalize s.updating = updating at hphase
  cases hphase with
  | assigning _ hne =>
    constructor
    case announced => rw [h.announced, List.append_nil, List.append_assoc]
    case bars => rfl
    case added =>
      simp only [exec]
      rw [List.filterMap_append, added_of_update (.assign _) rfl, ← htasks, h.added]
      exact List.append_nil _
    case phase =>
      simp only [exec]
      rw [List.filter_append, hnone]
      exact .ending
    case core =>
      intro hnewer hnil
      exact h.core hnewer (List.append_eq_nil_iff.mp hnil).1

theorem Inv.exec_endUpdate (h : Inv K s announced core newer older)
    (htasks : s.tasks = before ++ .endUpdate :: after) :
    Inv K (exec K { s with tasks := before ++ after } .endUpdate) announced core newer older := by
  obtain ⟨hphase, hnone⟩ := h.update htasks rfl
  generalize s.updating = updating at hphase
  cases hphase with
  | ending =>
    constructor
    case announced => exact h.announced
    case bars => exact h.bars
    case added => exact (added_of_update .endUpdate rfl).trans (htasks ▸ h.added)
    case phase =>
      simp only [exec]
      rw [hnone]
      exact .idle
    case core => exact h.core

/-- `AddBars` with the first of the newer pages, and not while the bars are about to be set. -/
theorem Inv.exec_add (h : Inv K s announced core newer older) {page : List (Transaction D)}
    (htasks : s.tasks = before ++ .add page :: after)
    (hfirst : ∀ page', .add page' ∉ before) (hassign : ∀ data, .assign data ∉ s.tasks) :
    ∃ newer', Inv K (exec K { s with tasks := before ++ after } (.add page)) announced
      (page ++ core) newer' older := by
  have hbefore : before.filterMap Task.added = [] := by
    rw [List.filterMap_eq_nil_iff]
    intro task htask
    cases task with
    | add page' => exact absurd htask (hfirst page')
    | load => rfl
    | assign => rfl
    | endUpdate => rfl
  have hnewer : newer = page :: after.filterMap Task.added := by
    rw [← h.added, htasks, List.filterMap_append, hbefore]
    rfl
  have hcore : core ≠ [] := h.core (by rw [hnewer]; exact List.cons_ne_nil _ _)
  refine ⟨after.filterMap Task.added, ?_⟩
  constructor
  case announced =>
    rw [h.announced, hnewer]
    simp
  case bars =>
    simp only [exec]
    rw [h.bars, addTo_calcBars page hcore]
  case added => exact (List.filterMap_append).trans (by rw [hbefore]; rfl)
  case phase =>
    have hsame : (before ++ after).filter Task.isUpdate = s.tasks.filter Task.isUpdate := by
      rw [htasks, List.filter_append, List.filter_append]
      rfl
    simp only [exec]
    rw [hsame]
    have hphase := h.phase
    generalize hlist : s.tasks.filter Task.isUpdate = tasks at hphase ⊢
    generalize s.updating = updating at hphase ⊢
    cases hphase with
    | idle => exact .idle
    | loading _ hne hjoint =>
      refine .loading older hne ?_
      intro newest hnewest oldest holdest
      rw [List.getLast?_append_of_ne_nil page hcore] at holdest
      exact hjoint newest hnewest oldest holdest
    | assigning =>
      have hmem : Task.assign (calcBars K (core ++ older)) ∈ s.tasks.filter Task.isUpdate := by
        rw [hlist]
        exact List.mem_singleton_self _
      exact absurd (List.mem_filter.mp hmem).1 (hassign _)
    | ending => exact .ending
  case core =>
    intro _ hnil
    exact hcore (List.append_eq_nil_iff.mp hnil).2

end Update
/-- A page from an event, or an empty one that is left. -/
theorem Inv.act_new (h : Inv K s announced core newer older) {page : List (Transaction D)}
    (hmeets : Meets K s announced (.new page)) :
    ∃ newer' older', Inv K (transactionsNew s page) (page ++ announced) core newer' older' := by
  by_cases hpage : page = []
  · refine ⟨newer, older, ?_⟩
    have hsame : transactionsNew s page = s := by
      rw [hpage]
      simp [transactionsNew, TransactionsChartData.loadBars, TransactionsChartData.addBars]
    rw [hsame, hpage]
    exact h
  by_cases hbars : s.bars = []
  · have hidle : s.updating = false := (hmeets.resolve_left hpage).resolve_left (not_not.mpr hbars)
    -- nothing was announced before
    have hnone : announced = [] := by
      have hcore : core = [] := calcBars_eq_nil.mp (h.bars ▸ hbars)
      have hnewer : newer = [] := by
        by_contra hne
        exact h.core hne hcore
      rw [h.announced, hcore, hnewer, (h.phase.older_nil hidle).2]
      rfl
    have hload : transactionsNew s page = TransactionsChartData.loadBars s page := by
      rw [transactionsNew, if_pos (by rw [hbars]; rfl)]
    have hjoint : Joint K page announced := by
      intro newest _ oldest holdest
      rw [hnone] at holdest
      cases holdest
    have hinv := h.loadBars hpage hidle hjoint
    rw [hload]
    rw [hnone, List.nil_append] at hinv
    rw [hnone, List.append_nil]
    exact ⟨newer, page, hinv⟩
  · have hadd : transactionsNew s page = TransactionsChartData.addBars s page := by
      rw [transactionsNew, if_neg (by simpa using hbars)]
    rw [hadd]
    exact ⟨newer ++ [page], older, h.addBars hpage hbars⟩

theorem Inv.act_old (h : Inv K s announced core newer older) {page : List (Transaction D)}
    (hmeets : Meets K s announced (.old page)) :
    ∃ older', Inv K (transactionsOld s page) (announced ++ page) core newer older' := by
  by_cases hpage : page = []
  · refine ⟨older, ?_⟩
    have hsame : transactionsOld s page = s := by
      rw [hpage]
      simp [transactionsOld, TransactionsChartData.loadBars]
    rw [hsame, hpage, List.append_nil]
    exact h
  · have hidle := hmeets.resolve_left hpage
    exact ⟨page, h.loadBars hpage hidle.1 hidle.2⟩

omit [AddCommGroup D] [LinearOrder D] in
theorem eraseIdx_split {tasks : List (Task D)} {index : Nat} {task : Task D}
    (h : tasks[index]? = some task) : tasks = tasks.take index ++ task :: tasks.drop (index + 1) ∧
      tasks.eraseIdx index = tasks.take index ++ tasks.drop (index + 1) := by
  obtain ⟨hlt, htask⟩ := List.getElem?_eq_some_iff.mp h
  refine ⟨?_, List.eraseIdx_eq_take_drop_succ tasks index⟩
  rw [← htask, List.cons_getElem_drop_succ, List.take_append_drop]

theorem Inv.act_run (hK : K.Lawful) (h : Inv K s announced core newer older)
    (hsorted : announced.Pairwise fun a b => b.time ≤ a.time) {index : Nat}
    (hmeets : Meets K s announced (.run index)) :
    ∃ core' newer' older', Inv K (act K s (.run index)) announced core' newer' older' := by
  cases htask : s.tasks[index]? with
  | none => exact ⟨core, newer, older, by rw [act, htask]; exact h⟩
  | some task =>
    obtain ⟨hsplit, herase⟩ := eraseIdx_split htask
    have hact : act K s (.run index) =
        exec K { s with tasks := s.tasks.take index ++ s.tasks.drop (index + 1) } task := by
      rw [act, htask]
      dsimp only
      rw [herase]
    rw [hact]
    cases task with
    | load page => exact ⟨core, newer, older, h.exec_load hK hsorted hsplit⟩
    | assign data => exact ⟨core ++ older, newer, [], h.exec_assign hsplit⟩
    | endUpdate => exact ⟨core, newer, older, h.exec_endUpdate hsplit⟩
    | add page =>
      obtain ⟨hfirst, hassign⟩ := hmeets page htask
      have hbefore : ∀ page', Task.add page' ∉ s.tasks.take index := by
        intro page' hmem
        obtain ⟨j, hj, hget⟩ := List.mem_take_iff_getElem.mp hmem
        have hlt : j < index := by omega
        exact hfirst j hlt page' (List.getElem?_eq_some_iff.mpr ⟨by omega, hget⟩)
      obtain ⟨newer', hinv⟩ := h.exec_add hsplit hbefore hassign
      exact ⟨page ++ core, newer', older, hinv⟩

/-- One action. -/
theorem Inv.act (hK : K.Lawful) (h : Inv K s announced core newer older)
    (hsorted : announced.Pairwise fun a b => b.time ≤ a.time) {action : Action D}
    (hmeets : Meets K s announced action) :
    ∃ core' newer' older', Inv K (act K s action) (announce announced action) core' newer'
      older' := by
  cases action with
  | new page =>
    obtain ⟨newer', older', hinv⟩ := h.act_new hmeets
    exact ⟨core, newer', older', hinv⟩
  | old page =>
    obtain ⟨older', hinv⟩ := h.act_old hmeets
    exact ⟨core, newer, older', hinv⟩
  | run index => exact h.act_run hK hsorted hmeets

omit [AddCommGroup D] [LinearOrder D] in
theorem sublist_announce (announced : List (Transaction D)) (actions : List (Action D)) :
    announced.Sublist (actions.foldl announce announced) := by
  induction actions generalizing announced with
  | nil => exact List.Sublist.refl announced
  | cons action actions ih =>
    have hstep : announced.Sublist (announce announced action) := by
      cases action with
      | new page => exact List.sublist_append_right page announced
      | old page => exact List.sublist_append_left announced page
      | run index => exact List.Sublist.refl announced
    exact hstep.trans (ih (announce announced action))

/-- A run. -/
theorem Inv.run (hK : K.Lawful) (actions : List (Action D))
    (h : Inv K s announced core newer older)
    (hsorted : (actions.foldl announce announced).Pairwise fun a b => b.time ≤ a.time)
    (hmeets : RunMeets K s announced actions) : ∃ core' newer' older',
      Inv K (actions.foldl (TransactionsChartData.act K) s) (actions.foldl announce announced)
        core' newer' older' := by
  induction actions generalizing s announced core newer older with
  | nil => exact ⟨core, newer, older, h⟩
  | cons action actions ih =>
    have hnow := hsorted.sublist (sublist_announce announced (action :: actions))
    obtain ⟨core₁, newer₁, older₁, h₁⟩ := h.act hK hnow hmeets.1
    exact ih h₁ hsorted hmeets.2

end Invariant

/-! ## The whole run -/

section Run
variable {K : BarsCalculator D}

theorem runMeets_of_append {s : State D} {announced : List (Transaction D)}
    {before after : List (Action D)} (h : RunMeets K s announced (before ++ after)) :
    RunMeets K s announced before := by
  induction before generalizing s announced with
  | nil => trivial
  | cons action before ih => exact ⟨h.1, ih h.2⟩

/-- In a run that meets the condition the bars are, whenever no task is left, those of one
    calculation over all announced transactions, and the last one closes at their sum. -/
theorem bars_eq_run (hK : K.Lawful) (actions : List (Action D))
    (hsorted : (announced actions).Pairwise fun a b => b.time ≤ a.time)
    (hmeets : RunMeets K start [] actions) {before after : List (Action D)}
    (hactions : actions = before ++ after) (hdone : (run K before).tasks = []) :
    (run K before).bars = calcBars K (announced before) ∧
      ∀ last ∈ (run K before).bars.getLast?,
        last.close = ((announced before).map Transaction.amount).sum := by
  subst hactions
  have hsub : (announced before).Sublist (announced (before ++ after)) := by
    unfold announced
    rw [List.foldl_append]
    exact sublist_announce _ after
  obtain ⟨core, newer, older, h⟩ := inv_start.run hK before (hsorted.sublist hsub)
    (runMeets_of_append hmeets)
  have h : Inv K (run K before) (announced before) core newer older := h
  have hnewer : newer = [] := by
    rw [← h.added, hdone]
    rfl
  have holder : older = [] := by
    have hphase := h.phase
    rw [hdone] at hphase
    generalize (run K before).updating = updating at hphase
    cases hphase
    rfl
  have hcore : announced before = core := by
    rw [h.announced, hnewer, holder, List.append_nil]
    rfl
  have hbars : (run K before).bars = calcBars K (announced before) := by rw [h.bars, hcore]
  refine ⟨hbars, ?_⟩
  intro last hlast
  rw [hbars] at hlast
  have hne : announced before ≠ [] := by
    intro hnil
    rw [hnil] at hlast
    cases hlast
  obtain ⟨last', hlast', hclose⟩ := calcBars_close hK hne
  rw [hlast'] at hlast
  cases hlast
  exact hclose

end Run

/-! ## Minutes -/

/-- Bars of a minute: a new one opens where the last one closed. -/
def minute : BarsCalculator Int where
  first time := ⟨time, 0, 0, 0, 0, 0⟩
  slot time := time / 60
  add bar md :=
    if md.time / 60 = bar.time / 60 then
      (⟨bar.time, bar.opening, max bar.high md.price, min bar.low md.price, md.price,
        bar.volume + md.volume⟩, false)
    else
      (⟨md.time, bar.close, max bar.close md.price, min bar.close md.price, md.price,
        md.volume⟩, true)

theorem minute_merge {bar : Bar Int} {md : MarketData Int} (h : md.time / 60 = bar.time / 60) :
    minute.add bar md = (⟨bar.time, bar.opening, max bar.high md.price, min bar.low md.price,
      md.price, bar.volume + md.volume⟩, false) := if_pos h

theorem minute_open {bar : Bar Int} {md : MarketData Int} (h : ¬ md.time / 60 = bar.time / 60) :
    minute.add bar md = (⟨md.time, bar.close, max bar.close md.price, min bar.close md.price,
      md.price, md.volume⟩, true) := if_neg h

theorem minute_lawful : minute.Lawful where
  first_time _ := rfl
  first_close _ := rfl
  slot_mono a b h := Int.ediv_le_ediv (by decide) h
  add_iff bar md := by
    by_cases h : md.time / 60 = bar.time / 60
    · rw [minute_merge h]
      exact iff_of_false Bool.false_ne_true (fun hne => hne h)
    · rw [minute_open h]
      exact iff_of_true rfl h
  time_merged bar md hadd := by
    by_cases h : md.time / 60 = bar.time / 60
    · rw [minute_merge h]
    · rw [minute_open h] at hadd
      cases hadd
  slot_opened bar md hadd := by
    by_cases h : md.time / 60 = bar.time / 60
    · rw [minute_merge h] at hadd
      cases hadd
    · rw [minute_open h]
  close bar md := by
    by_cases h : md.time / 60 = bar.time / 60
    · rw [minute_merge h]
    · rw [minute_open h]
  shift c bar md := by
    by_cases h : md.time / 60 = bar.time / 60
    · have hshift : (md.shift c).time / 60 = (bar.shift c).time / 60 := h
      rw [minute_merge h, minute_merge hshift]
      simp [Bar.shift, MarketData.shift, max_add_add_right, min_add_add_right]
    · have hshift : ¬ (md.shift c).time / 60 = (bar.shift c).time / 60 := h
      rw [minute_open h, minute_open hshift]
      simp [Bar.shift, MarketData.shift, max_add_add_right, min_add_add_right]

/-- A task of `LoadBars` is under no condition. -/
theorem meets_run {K : BarsCalculator D} {s : State D} {announced : List (Transaction D)}
    {index : Nat} {task : Task D} (h : s.tasks[index]? = some task) (htask : task.isUpdate = true) :
    Meets K s announced (.run index) := by
  intro page hpage
  rw [h] at hpage
  cases hpage
  cases htask

/-- An older page that comes during an update is lost. -/
def busy : List (Action Int) := [.old [⟨100, 5⟩], .old [⟨10, 3⟩], .run 0, .run 0, .run 0]

/-- The minute of the first bar is the one in which the older page ends. -/
def sameMinute : List (Action Int) :=
  [.old [⟨70, 5⟩], .run 0, .run 0, .run 0, .old [⟨65, 3⟩], .run 0, .run 0, .run 0]

/-- One page after another, in different minutes. -/
def calm : List (Action Int) := [.old [⟨100, 5⟩], .run 0, .run 0, .run 0,
  .old [⟨10, 3⟩], .run 0, .run 0, .run 0, .new [⟨110, 2⟩], .run 0]

theorem not_bars_eq_busy :
    ((run minute busy).tasks = [] ∧ (run minute busy).bars ≠ calcBars minute (announced busy)) ∧
    ((run minute sameMinute).tasks = [] ∧
      (run minute sameMinute).bars ≠ calcBars minute (announced sameMinute)) := by
  refine ⟨⟨rfl, ?_⟩, rfl, ?_⟩
  · decide
  · decide

theorem bars_eq_calm : (run minute calm).tasks = [] ∧
    (run minute calm).bars = calcBars minute (announced calm) ∧
      ∀ last ∈ (run minute calm).bars.getLast?,
        last.close = ((announced calm).map Transaction.amount).sum := by
  have hfirst : Joint minute [⟨100, 5⟩] [] := by
    intro newest _ oldest holdest
    cases holdest
  have hsecond : Joint minute [⟨10, 3⟩] [⟨100, 5⟩] := by
    intro newest hnewest oldest holdest
    cases hnewest
    cases holdest
    refine ⟨by decide, ?_⟩
    intro lbar hlbar
    cases hlbar
    rfl
  have hadd : Meets minute (run minute (calm.take 9)) [⟨110, 2⟩, ⟨100, 5⟩, ⟨10, 3⟩] (.run 0) := by
    intro page _
    refine ⟨fun j hj => absurd hj (Nat.not_lt_zero j), ?_⟩
    intro data hdata
    cases List.mem_singleton.mp hdata
  have hmeets : RunMeets minute start [] calm :=
    ⟨.inr ⟨rfl, hfirst⟩, meets_run rfl rfl, meets_run rfl rfl, meets_run rfl rfl,
      .inr ⟨rfl, hsecond⟩, meets_run rfl rfl, meets_run rfl rfl, meets_run rfl rfl,
      .inr (.inr rfl), hadd, trivial⟩
  have hsorted : (announced calm).Pairwise fun a b => b.time ≤ a.time := by decide
  have hdone : (run minute calm).tasks = [] := rfl
  exact ⟨hdone, bars_eq_run minute_lawful calm hsorted hmeets (List.append_nil calm).symm hdone⟩

end TransactionsChartData
