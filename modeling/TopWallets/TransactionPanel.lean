import TopWallets.Transactions
import TopWallets.Lib.Sections
import Mathlib.Data.Prod.Lex
import Mathlib.Data.List.TakeWhile
import Mathlib.Algebra.Group.Int.Defs

/- The list of transactions on the screen: `TransactionPanel.AddTransactions` and
   `InsertTransactions`.

   The panel keeps the transactions, newest first, and a list view of their items with a time
   item over the items of every month. An older page is written to the end, month by month. Of a
   newer page what is newer than the first transaction is put into groups by month, and these
   go to the top, one after the other; the last one goes under the first time item where that
   is of its month. The list is that of `Sections` after any calls (`Run.sectioned`).

   Correspondence (C# ↔ Lean):
     `TimeItem`, a transaction's item ↔ `Line.heading`, `Line.entry`
     `AddTransactions`                ↔ `addTransactions`
     `InsertTransactions`             ↔ `insertTransactions`, its loops `groupTransaction` and
                                        `insertGroup`
     `InsertAnimation`, `Insert`      ↔ `insertAnimation`, `insertEach` -/
namespace TransactionPanel
open Ton (ITonTransaction History)
open Segment (Descending)
open Sections

/-- Year and month. -/
abbrev Month := Nat ×ₗ Nat

/-- The month of `DateTime.MaxValue`. -/
def maxMonth : Month := toLex (9999, 12)

/-- Local time: the month of a time in seconds. Times of 32 bits end in 2106. -/
structure Calendar where
  localMonth : Int → Month
  monotone : ∀ utime utime', utime ≤ utime' → localMonth utime ≤ localMonth utime'
  ne_max : ∀ utime < 2 ^ 32, localMonth utime ≠ maxMonth

abbrev Component := Line ITonTransaction Month

structure Panel where
  transactions : List ITonTransaction
  components : List Component

def empty : Panel := ⟨[], []⟩

variable (C : Calendar)

def Calendar.month (t : ITonTransaction) : Month := C.localMonth t.utime

def addTransaction (s : Month × Panel) (t : ITonTransaction) : Month × Panel :=
  let ttime := C.month t
  if s.1 ≠ ttime then
    (ttime, ⟨s.2.transactions ++ [t], s.2.components ++ [.heading ttime] ++ [.entry t]⟩)
  else (s.1, ⟨s.2.transactions ++ [t], s.2.components ++ [.entry t]⟩)

def addTransactions (p : Panel) (ts : List ITonTransaction) : Panel :=
  let time := (p.transactions.getLast?.map C.month).getD maxMonth
  (ts.foldl (addTransaction C) (time, p)).2

/-- The month and the group that are being filled, and the groups before. -/
structure Groups where
  time : Month
  full : List (List ITonTransaction)
  group : List ITonTransaction

def groupTransaction (s : Groups) (t : ITonTransaction) : Groups :=
  let ttime := C.month t
  if s.time = ttime then { s with group := s.group ++ [t] }
  else ⟨ttime, s.full ++ [s.group], [t]⟩

def insertAnimation (pos : Nat) (components list : List Component) : List Component :=
  list.take pos ++ components ++ list.drop pos

/-- `Insert` of one component after the other. -/
def insertEach (pos : Nat) : List Component → List Component → List Component
  | [], list => list
  | component :: components, list =>
    insertEach (pos + 1) components (insertAnimation pos [component] list)

def isTimeItem (time : Month) : Component → Bool
  | .heading time' => time' = time
  | .entry _ => false

/-- One group, into the list at the position; `timeItem` is the month of the item that was the
    first of the list. -/
def insertGroup (visible : Bool) (timeItem : Option Month) (s : Nat × List Component)
    (trs : List ITonTransaction) : Nat × List Component :=
  match trs with
  | [] => s
  | t :: _ =>
    let ttime := C.month t
    let (pos, components) : Nat × List Component :=
      if timeItem = some ttime then (s.2.findIdx (isTimeItem ttime) + 1, trs.map .entry)
      else (s.1, .heading ttime :: trs.map .entry)
    (pos + components.length,
      if visible then insertAnimation pos components s.2 else insertEach pos components s.2)

/-- The transactions that the loop goes over before it breaks. -/
def newer (p : Panel) (ts : List ITonTransaction) : List ITonTransaction :=
  ts.takeWhile fun t => p.transactions.head?.all fun first => t.compareTo first = .gt

def insertTransactions (visible : Bool) (p : Panel) (ts : List ITonTransaction) : Panel :=
  match ts with
  | [] => p -- `ts[0]` throws before anything is changed
  | t :: _ =>
    let new := newer p ts
    let groups := new.foldl (groupTransaction C) ⟨C.month t, [], []⟩
    let timeItem := match p.components.head? with
      | some (.heading time) => some time
      | _ => none
    ⟨new ++ p.transactions,
      ((groups.full ++ [groups.group]).foldl (insertGroup C visible timeItem)
        (0, p.components)).2⟩

/-! ## The calls -/

/-- A history whose times follow its order, in 32 bits. -/
structure TimedHistory extends History where
  sorted : transactions.Pairwise fun a b => b.utime ≤ a.utime
  utime_lt : ∀ r ∈ transactions, r.utime < 2 ^ 32

variable (H : TimedHistory)

/-- A page of the history, newest first. -/
def IsPage (ts : List ITonTransaction) : Prop :=
  (∀ t ∈ ts, H.Built t) ∧ Descending (Ton.lts ts)

inductive Call where
  | add (ts : List ITonTransaction)
  | insert (visible : Bool) (ts : List ITonTransaction)

def call (p : Panel) : Call → Panel
  | .add ts => addTransactions C p ts
  | .insert visible ts => insertTransactions C visible p ts

/-- An older page is older than what is shown. A newer page comes when something is shown; what
    it has besides newer transactions is shown, or older than all that is. -/
def Valid (p : Panel) : Call → Prop
  | .add ts => IsPage H ts ∧ ∀ t ∈ ts, ∀ s ∈ p.transactions, t.lt < s.lt
  | .insert _ ts => IsPage H ts ∧ p.transactions ≠ [] ∧
      ∀ t ∈ ts, (∀ s ∈ p.transactions, s.lt < t.lt) ∨ t.lt ∈ Ton.lts p.transactions ∨
        ∀ s ∈ p.transactions, t.lt < s.lt

/-- The logical times that a call hands over: those of a newer page that are older than all that
    is shown are left to the older pages. -/
def handed (p : Panel) : Call → List Int
  | .add ts => Ton.lts ts
  | .insert _ ts => (Ton.lts ts).filter fun lt => ¬ ∀ s ∈ p.transactions, lt < s.lt

/-- Calls after each other, with all that they have handed over. -/
inductive Run : Panel → List Int → Prop
  | nil : Run empty []
  | snoc {p : Panel} {lts : List Int} {c : Call} (run : Run p lts) (valid : Valid H p c) :
      Run (call C p c) (lts ++ handed p c)

/-! ## Times -/

theorem utime_eq {r : Ton.RawTransaction} {t : ITonTransaction} (h : r.Builds t) :
    t.utime = r.utime := by
  cases h <;> rfl

/-- Of two transactions of a history the newer one has no smaller time. -/
theorem TimedHistory.utime_le {t t' : ITonTransaction} (ht : H.Built t) (ht' : H.Built t')
    (hlt : t'.lt < t.lt) : t'.utime ≤ t.utime := by
  obtain ⟨r, hr, hbuild⟩ := ht
  obtain ⟨r', hr', hbuild'⟩ := ht'
  have hdesc : H.transactions.Pairwise fun a b => b.lt < a.lt := List.pairwise_map.1 H.descending
  have hself : ∀ a ∈ H.transactions, a.lt < a.lt → a.utime ≤ a.utime := fun _ _ _ => le_rfl
  have hbefore : H.transactions.Pairwise fun a b => b.lt < a.lt → b.utime ≤ a.utime := by
    refine H.sorted.imp ?_
    intro a b hle _
    exact hle
  have hafter : H.transactions.Pairwise (flip fun a b => b.lt < a.lt → b.utime ≤ a.utime) :=
    hdesc.imp fun hgt hlt => absurd hlt (not_lt_of_gt hgt)
  have hall := List.Pairwise.forall_of_forall_of_flip hself hbefore hafter
  rw [hbuild.lt_eq, hbuild'.lt_eq] at hlt
  rw [utime_eq hbuild, utime_eq hbuild']
  exact hall hr hr' hlt

theorem month_le {t t' : ITonTransaction} (ht : H.Built t) (ht' : H.Built t')
    (hlt : t'.lt < t.lt) : C.month t' ≤ C.month t :=
  C.monotone _ _ (H.utime_le ht ht' hlt)

theorem month_ne_max {t : ITonTransaction} (ht : H.Built t) : C.month t ≠ maxMonth := by
  obtain ⟨r, hr, hbuild⟩ := ht
  rw [Calendar.month, utime_eq hbuild]
  exact C.ne_max _ (H.utime_lt r hr)

/-- Along a page the months do not grow. -/
theorem IsPage.months {ts : List ITonTransaction} (h : IsPage H ts) :
    ts.Pairwise fun a b => C.month b ≤ C.month a := by
  obtain ⟨hbuilt, hdesc⟩ := h
  refine (List.pairwise_map.1 hdesc).imp_of_mem ?_
  intro a b ha hb hlt
  exact month_le C H (hbuilt a ha) (hbuilt b hb) hlt

/-! ## Older pages -/

theorem foldl_addTransaction (ts : List ITonTransaction) (time : Month) (p : Panel) :
    (ts.foldl (addTransaction C) (time, p)).2 =
      ⟨p.transactions ++ ts, p.components ++ sectionsFrom C.month (some time) ts⟩ := by
  induction ts generalizing time p with
  | nil => simp
  | cons t ts ih =>
    rw [List.foldl_cons, addTransaction]
    by_cases htime : time = C.month t
    · rw [if_neg (not_not.2 htime), ih, htime, sectionsFrom_cons_same]
      simp
    · rw [if_pos htime, ih, sectionsFrom_cons_new C.month (by simpa using htime)]
      simp

/-- An older page goes on with the sections. -/
theorem addTransactions_eq {p : Panel} {ts : List ITonTransaction} (hts : ∀ t ∈ ts, H.Built t)
    (hp : p.components = sections C.month p.transactions) :
    addTransactions C p ts =
      ⟨p.transactions ++ ts, sections C.month (p.transactions ++ ts)⟩ := by
  rw [addTransactions, foldl_addTransaction, sections, sectionsFrom_append, ← sections, ← hp,
    lastKey_eq]
  cases hlast : p.transactions.getLast? with
  | some last => rfl
  | none =>
    congr 2
    cases ts with
    | nil => rfl
    | cons t ts =>
      have hmax : some maxMonth ≠ some (C.month t) := by
        intro heq
        exact month_ne_max C H (hts t List.mem_cons_self) (Option.some.inj heq).symm
      have hnone : (none : Option Month) ≠ some (C.month t) := by simp
      change sectionsFrom C.month (some maxMonth) (t :: ts) = sectionsFrom C.month none (t :: ts)
      rw [sectionsFrom_cons_new C.month hmax, sectionsFrom_cons_new C.month hnone]

/-! ## Newer pages -/

/-- The lines of a group. -/
def block : List ITonTransaction → List Component
  | [] => []
  | t :: ts => .heading (C.month t) :: (t :: ts).map .entry

/-- The groups of what the loop has gone over: together they are its sections, the last one is
    of the month `time` and the others are of later months. -/
structure Grouped (done : List ITonTransaction) (s : Groups) : Prop where
  lines : (s.full ++ [s.group]).flatMap (block C) = sections C.month done
  last : lastKey C.month none done = some s.time
  head : s.group.head?.map C.month = some s.time
  later : ∀ g ∈ s.full, ∀ t ∈ g.head?, s.time < C.month t

theorem block_concat {group : List ITonTransaction} (hne : group ≠ []) (t : ITonTransaction) :
    block C (group ++ [t]) = block C group ++ [.entry t] := by
  cases group with
  | nil => exact absurd rfl hne
  | cons a group => simp [block]

theorem Grouped.step {done : List ITonTransaction} {s : Groups} {t : ITonTransaction}
    (h : Grouped C done s) (ht : C.month t ≤ s.time) :
    Grouped C (done ++ [t]) (groupTransaction C s t) ∧
      (groupTransaction C s t).time = C.month t := by
  have hlines : sections C.month (done ++ [t]) =
      sections C.month done ++ sectionsFrom C.month (some s.time) [t] := by
    rw [sections, sectionsFrom_append, h.last, sections]
  have hlast : lastKey C.month none (done ++ [t]) = some (C.month t) := by
    rw [lastKey_eq, List.getLast?_concat]
    rfl
  have hfull := h.lines
  rw [List.flatMap_append] at hfull
  unfold groupTransaction
  by_cases htime : s.time = C.month t
  · have hne : s.group ≠ [] := by
      intro hnil
      have hhead := h.head
      rw [hnil] at hhead
      cases hhead
    simp only [if_pos htime]
    refine ⟨⟨?_, hlast.trans (by rw [htime]), ?_, h.later⟩, htime⟩
    · rw [hlines, ← hfull, htime, sectionsFrom_cons_same, List.flatMap_append,
        List.append_assoc]
      simp [block_concat C hne]
    · rw [List.head?_append_of_ne_nil _ hne]
      exact h.head
  · simp only [if_neg htime]
    refine ⟨⟨?_, hlast, rfl, ?_⟩, trivial⟩
    · rw [hlines, ← hfull, sectionsFrom_cons_new C.month (by simpa using htime),
        List.flatMap_append, List.flatMap_append]
      simp [block]
    · -- the month before is later, and so are those before it
      have hlt : C.month t < s.time := lt_of_le_of_ne ht fun heq => htime heq.symm
      intro g hg a ha
      rw [List.mem_append, List.mem_singleton] at hg
      obtain hg | hg := hg
      · exact hlt.trans (h.later g hg a ha)
      · rw [hg] at ha
        have hhead := h.head
        rw [Option.mem_def.1 ha] at hhead
        exact hlt.trans_eq (Option.some.inj hhead).symm

/-- The last group's month is that of the last transaction. -/
theorem Grouped.le_time {done : List ITonTransaction} {s : Groups} (h : Grouped C done s)
    {time : Month} (hle : ∀ t ∈ done, time ≤ C.month t) : time ≤ s.time := by
  have hlast := h.last
  rw [lastKey_eq, Option.or_none] at hlast
  obtain ⟨t, ht, hmonth⟩ := Option.map_eq_some_iff.1 hlast
  rw [← hmonth]
  exact hle t (List.mem_of_getLast? ht)

theorem Grouped.foldl {done rest : List ITonTransaction} {s : Groups} (h : Grouped C done s)
    (hle : ∀ t ∈ rest, C.month t ≤ s.time)
    (hrest : rest.Pairwise fun a b => C.month b ≤ C.month a) :
    Grouped C (done ++ rest) (rest.foldl (groupTransaction C) s) := by
  induction rest generalizing done s with
  | nil => rwa [List.append_nil]
  | cons t rest ih =>
    obtain ⟨hbelow, hpair⟩ := List.pairwise_cons.1 hrest
    obtain ⟨hstep, htime⟩ := h.step C (hle t List.mem_cons_self)
    have hfold := ih hstep (by rw [htime]; exact hbelow) hpair
    rwa [List.append_assoc] at hfold

/-- The groups of a page. -/
theorem grouped_page {t : ITonTransaction} {ts : List ITonTransaction}
    (h : (t :: ts).Pairwise fun a b => C.month b ≤ C.month a) :
    Grouped C (t :: ts) ((t :: ts).foldl (groupTransaction C) ⟨C.month t, [], []⟩) := by
  obtain ⟨hbelow, hpair⟩ := List.pairwise_cons.1 h
  have hfirst : groupTransaction C ⟨C.month t, [], []⟩ t = ⟨C.month t, [], [t]⟩ := by
    rw [groupTransaction, if_pos rfl]
    rfl
  have hstart : Grouped C [t] ⟨C.month t, [], [t]⟩ := by
    refine ⟨?_, rfl, rfl, by simp⟩
    rw [sections, sectionsFrom_cons_new C.month (by simp)]
    rfl
  rw [List.foldl_cons, hfirst]
  exact hstart.foldl C hbelow hpair

/-! ## Putting groups into the list -/

/-- One after the other the components come to stand where they would at once. -/
theorem insertEach_eq (a components b : List Component) :
    insertEach a.length components (a ++ b) = a ++ components ++ b := by
  induction components generalizing a with
  | nil => rw [insertEach, List.append_nil]
  | cons component components ih =>
    have hone : insertAnimation a.length [component] (a ++ b) = (a ++ [component]) ++ b := by
      rw [insertAnimation, List.take_left, List.drop_left]
    have hlen : a.length + 1 = (a ++ [component]).length := by simp
    rw [insertEach, hone, hlen, ih, List.append_assoc a, List.singleton_append]

theorem insert_eq (visible : Bool) (a components b : List Component) :
    (if visible then insertAnimation a.length components (a ++ b)
      else insertEach a.length components (a ++ b)) = a ++ components ++ b := by
  cases visible with
  | false => exact insertEach_eq a components b
  | true =>
    change insertAnimation a.length components (a ++ b) = _
    rw [insertAnimation, List.take_left, List.drop_left]

/-- A group of another month than the first time item's is written with its own. -/
theorem insertGroup_other {visible : Bool} {timeItem : Option Month} {group : List ITonTransaction}
    (h : ∀ t ∈ group.head?, timeItem ≠ some (C.month t)) (a b : List Component) :
    insertGroup C visible timeItem (a.length, a ++ b) group =
      ((a ++ block C group).length, a ++ block C group ++ b) := by
  cases group with
  | nil => simp [insertGroup, block]
  | cons t ts =>
    have hne : timeItem ≠ some (C.month t) := h t rfl
    simp only [insertGroup, if_neg hne]
    rw [insert_eq]
    exact Prod.ext (by simp [block]) rfl

theorem foldl_insertGroup_other {visible : Bool} {timeItem : Option Month}
    {groups : List (List ITonTransaction)}
    (h : ∀ g ∈ groups, ∀ t ∈ g.head?, timeItem ≠ some (C.month t)) (a b : List Component) :
    groups.foldl (insertGroup C visible timeItem) (a.length, a ++ b) =
      ((a ++ groups.flatMap (block C)).length, a ++ groups.flatMap (block C) ++ b) := by
  induction groups generalizing a with
  | nil => simp
  | cons g groups ih =>
    rw [List.foldl_cons, insertGroup_other C (h g List.mem_cons_self),
      ih fun g' hg' => h g' (List.mem_cons_of_mem _ hg'), List.flatMap_cons, List.append_assoc a]

/-- A group of the first time item's month goes under it. -/
theorem insertGroup_same {visible : Bool} {t : ITonTransaction} {ts : List ITonTransaction}
    {a : List Component} (ha : ∀ c ∈ a, isTimeItem (C.month t) c = false) (pos : Nat)
    (rest : List Component) :
    (insertGroup C visible (some (C.month t)) (pos, a ++ .heading (C.month t) :: rest)
      (t :: ts)).2 = a ++ block C (t :: ts) ++ rest := by
  have hfind : (a ++ Line.heading (C.month t) :: rest).findIdx (isTimeItem (C.month t))
      = a.length := by
    rw [List.findIdx_append, List.findIdx_cons]
    have hnone : a.findIdx (isTimeItem (C.month t)) = a.length := by
      rw [List.findIdx_eq_length]
      exact ha
    rw [hnone, if_neg (lt_irrefl _)]
    simp [isTimeItem]
  have hsplit : a ++ Line.heading (C.month t) :: rest =
      (a ++ [Line.heading (C.month t)]) ++ rest := by simp
  have hlen : a.length + 1 = (a ++ [Line.heading (κ := Month) (α := ITonTransaction)
      (C.month t)]).length := by simp
  simp only [insertGroup, if_pos, hfind]
  rw [hlen, hsplit, insert_eq]
  simp [block]

/-- In the lines of groups a time item is that of a group's first transaction. -/
theorem isTimeItem_of_mem_block {time : Month} {groups : List (List ITonTransaction)}
    (h : ∀ g ∈ groups, ∀ t ∈ g.head?, time ≠ C.month t) :
    ∀ c ∈ groups.flatMap (block C), isTimeItem time c = false := by
  intro c hc
  obtain ⟨g, hg, hcg⟩ := List.mem_flatMap.1 hc
  cases g with
  | nil => cases hcg
  | cons t ts =>
    cases hcg with
    | head => simpa [isTimeItem] using (h _ hg t rfl).symm
    | tail _ hentry =>
      obtain ⟨a, -, rfl⟩ := List.mem_map.1 hentry
      rfl

/-- The groups of newer transactions, put over the list that starts with `first`. -/
theorem foldl_insertGroup {new shown : List ITonTransaction} {first : ITonTransaction}
    {s : Groups} (h : Grouped C new s) (hle : C.month first ≤ s.time) (visible : Bool) :
    ((s.full ++ [s.group]).foldl (insertGroup C visible (some (C.month first)))
      (0, sections C.month (first :: shown))).2 = sections C.month (new ++ first :: shown) := by
  have hother : ∀ g ∈ s.full, ∀ t ∈ g.head?, C.month first ≠ C.month t :=
    fun g hg t ht => (hle.trans_lt (h.later g hg t ht)).ne
  have hfull : s.full.foldl (insertGroup C visible (some (C.month first)))
      (0, sections C.month (first :: shown)) =
        ((s.full.flatMap (block C)).length,
          s.full.flatMap (block C) ++ sections C.month (first :: shown)) :=
    foldl_insertGroup_other C (fun g hg t ht heq => hother g hg t ht (Option.some.inj heq)) [] _
  have hnew : sections C.month (new ++ first :: shown) =
      s.full.flatMap (block C) ++ block C s.group ++
        sectionsFrom C.month (some s.time) (first :: shown) := by
    rw [sections, sectionsFrom_append, h.last, ← sections, ← h.lines, List.flatMap_append,
      List.flatMap_singleton]
  have hshown : sections C.month (first :: shown) = .heading (C.month first) :: .entry first ::
      sectionsFrom C.month (some (C.month first)) shown :=
    sectionsFrom_cons_new C.month (by simp) shown
  rw [List.foldl_append, hfull, List.foldl_cons, List.foldl_nil, hnew]
  by_cases htime : s.time = C.month first
  · -- the last group goes under the first time item
    have hhead := h.head
    cases hgroup : s.group with
    | nil => rw [hgroup] at hhead; cases hhead
    | cons t ts =>
      rw [hgroup, htime] at hhead
      have ht : C.month t = C.month first := Option.some.inj hhead
      rw [hshown, htime, sectionsFrom_cons_same, ← ht]
      exact insertGroup_same C (isTimeItem_of_mem_block C (ht ▸ hother)) _ _
  · have hlast : ∀ t ∈ s.group.head?, some (C.month first) ≠ some (C.month t) := by
      intro t ht heq
      have hhead := h.head
      rw [Option.mem_def.1 ht] at hhead
      exact htime ((Option.some.inj hhead).symm.trans (Option.some.inj heq).symm)
    rw [insertGroup_other C hlast, sectionsFrom_cons_new C.month (by simpa using htime), hshown]

theorem lts_newer {p : Panel} {ts : List ITonTransaction} (hts : ∀ t ∈ ts, H.Built t)
    (hbuilt : ∀ s ∈ p.transactions, H.Built s) :
    Ton.lts (newer p ts) = Segment.newer (Ton.lts p.transactions) (Ton.lts ts) := by
  obtain ⟨transactions, components⟩ := p
  cases transactions with
  | nil => exact congrArg Ton.lts (List.takeWhile_eq_self_iff.2 fun _ _ => rfl)
  | cons first shown => exact Ton.lts_takeWhile (hbuilt first List.mem_cons_self) hts

/-- A newer page puts the sections of its newer transactions before the others. -/
theorem insertTransactions_eq {p : Panel} {ts : List ITonTransaction} (hpage : IsPage H ts)
    (hbuilt : ∀ s ∈ p.transactions, H.Built s) (hne : p.transactions ≠ [])
    (hp : p.components = sections C.month p.transactions) (visible : Bool) :
    insertTransactions C visible p ts =
      ⟨newer p ts ++ p.transactions, sections C.month (newer p ts ++ p.transactions)⟩ := by
  obtain ⟨transactions, components⟩ := p
  change components = sections C.month transactions at hp
  subst hp
  cases transactions with
  | nil => exact absurd rfl hne
  | cons first shown =>
    cases ts with
    | nil => rfl
    | cons t ts =>
      have hhead : (sections C.month (first :: shown)).head? = some (.heading (C.month first)) := by
        rw [sections, sectionsFrom_cons_new C.month (by simp), List.head?_cons]
      have hsub : (newer ⟨first :: shown, sections C.month (first :: shown)⟩ (t :: ts)).Sublist
          (t :: ts) := List.takeWhile_sublist _
      rw [insertTransactions]
      simp only [hhead]
      congr 1
      cases hnew : newer ⟨first :: shown, sections C.month (first :: shown)⟩ (t :: ts) with
      | nil => rfl
      | cons a new =>
        have hmonths := (hpage.months C H).sublist (hnew ▸ hsub)
        have hlead : a :: new <+: t :: ts := hnew ▸ List.takeWhile_prefix _
        obtain ⟨rfl, -⟩ := List.cons_prefix_cons.1 hlead
        have hgrouped := grouped_page C hmonths
        refine foldl_insertGroup C hgrouped (hgrouped.le_time C ?_) visible
        intro s hs
        have hfirst := hbuilt first List.mem_cons_self
        have hmem : s.lt ∈ Segment.newer (Ton.lts (first :: shown)) (Ton.lts (a :: ts)) := by
          rw [← lts_newer H hpage.1 hbuilt, hnew]
          exact List.mem_map_of_mem hs
        have hlt : first.lt < s.lt := ((Segment.mem_newer_cons hpage.2).1 hmem).2
        exact month_le C H (hpage.1 s (hlead.subset hs)) hfirst hlt

/-! ## Runs -/

/-- What the panel holds after calls that have handed over `lts`. -/
structure Shows (p : Panel) (lts : List Int) : Prop where
  components : p.components = sections C.month p.transactions
  page : IsPage H p.transactions
  mem : ∀ lt, lt ∈ Ton.lts p.transactions ↔ lt ∈ lts

theorem Shows.add {p : Panel} {lts : List Int} (h : Shows C H p lts) {ts : List ITonTransaction}
    (hvalid : Valid H p (.add ts)) : Shows C H (addTransactions C p ts) (lts ++ Ton.lts ts) := by
  obtain ⟨hpage, holder⟩ := hvalid
  rw [addTransactions_eq C H hpage.1 h.components]
  refine ⟨rfl, ⟨?_, ?_⟩, ?_⟩
  · exact List.forall_mem_append.2 ⟨h.page.1, hpage.1⟩
  · rw [Ton.lts, List.map_append]
    refine List.pairwise_append.2 ⟨h.page.2, hpage.2, ?_⟩
    intro x hx y hy
    obtain ⟨s, hs, rfl⟩ := List.mem_map.1 hx
    obtain ⟨t, ht, rfl⟩ := List.mem_map.1 hy
    exact holder t ht s hs
  · intro lt
    rw [Ton.lts, List.map_append, List.mem_append, List.mem_append, ← h.mem]
    rfl

theorem Shows.insert {p : Panel} {lts : List Int} (h : Shows C H p lts) {visible : Bool}
    {ts : List ITonTransaction} (hvalid : Valid H p (.insert visible ts)) :
    Shows C H (insertTransactions C visible p ts) (lts ++ handed p (.insert visible ts)) := by
  obtain ⟨hpage, hne, hreach⟩ := hvalid
  have hnew := lts_newer H hpage.1 h.page.1
  rw [insertTransactions_eq C H hpage h.page.1 hne h.components]
  refine ⟨rfl, ⟨?_, ?_⟩, ?_⟩
  · refine List.forall_mem_append.2 ⟨?_, h.page.1⟩
    intro t ht
    exact hpage.1 t ((List.takeWhile_sublist _).subset ht)
  · have hdesc := Segment.descending_addNewer h.page.2 hpage.2
    rw [← hnew] at hdesc
    rw [Ton.lts, List.map_append]
    exact hdesc
  · intro lt
    rw [Ton.lts, List.map_append, List.mem_append, List.mem_append, ← h.mem, or_comm]
    refine or_congr_right' fun hlt => ?_
    change lt ∈ Ton.lts (newer p ts) ↔ _
    obtain ⟨first, shown, hcons⟩ := List.exists_cons_of_ne_nil hne
    have hfirst : first ∈ p.transactions := by simp [hcons]
    rw [hnew, handed, List.mem_filter, decide_eq_true_eq, hcons]
    change lt ∈ Segment.newer (first.lt :: Ton.lts shown) (Ton.lts ts) ↔ _
    rw [Segment.mem_newer_cons hpage.2, ← hcons]
    refine and_congr_right fun hmem => ⟨?_, ?_⟩
    · intro hgt hall
      exact lt_asymm hgt (hall first hfirst)
    · intro hnot
      obtain ⟨t, ht, rfl⟩ := List.mem_map.1 hmem
      obtain habove | hshown | hbelow := hreach t ht
      · exact habove first hfirst
      · exact absurd hshown hlt
      · exact absurd hbelow hnot

theorem Run.shows {p : Panel} {lts : List Int} (h : Run C H p lts) : Shows C H p lts := by
  induction h with
  | nil => exact ⟨rfl, ⟨by simp [empty], List.Pairwise.nil⟩, fun lt => Iff.rfl⟩
  | @snoc p lts c run valid ih =>
    cases c with
    | add ts => exact ih.add C H valid
    | insert visible ts => exact ih.insert C H valid

/-- January and February of 2021, in UTC. -/
def winter : Calendar where
  localMonth utime := if utime < 1612137600 then toLex (2021, 1) else toLex (2021, 2)
  monotone := by
    intro a b hab
    by_cases hb : b < 1612137600
    · simp only [if_pos hb, if_pos (hab.trans_lt hb), le_refl]
    · simp only [if_neg hb]
      split <;> decide
  ne_max := by
    intro utime _
    split <;> decide

def winterHistory : TimedHistory where
  transactions := [⟨300, 1612200000, true⟩, ⟨200, 1612000000, true⟩, ⟨100, 1611000000, true⟩]
  descending := by decide
  sorted := by decide
  utime_lt := by decide

def january : ITonTransaction := .transaction 100 1611000000 true

/-- Two newer transactions, over the one that is shown. -/
def winterPage : List ITonTransaction :=
  [.transaction 300 1612200000 true, .transaction 200 1612000000 true, january]

theorem winter_built : ∀ t ∈ winterPage, winterHistory.Built t := by
  have hbuilt : ∀ r ∈ winterHistory.transactions,
      winterHistory.Built (.transaction r.lt r.utime r.isOut) :=
    fun r hr => ⟨r, hr, .transaction⟩
  intro t ht
  apply List.forall_mem_map.2 hbuilt
  exact ht

/-- The panel after both. -/
def winterShown : Panel :=
  call winter (call winter empty (.add [january])) (.insert true winterPage)

theorem winter_run : Run winter winterHistory winterShown [100, 300, 200, 100] := by
  have hjanuary : Valid winterHistory empty (.add [january]) := by
    refine ⟨⟨?_, by decide⟩, by simp [empty]⟩
    intro t ht
    exact winter_built t (List.mem_cons_of_mem _ (List.mem_cons_of_mem _ ht))
  have hpage : Valid winterHistory (call winter empty (.add [january]))
      (.insert true winterPage) :=
    ⟨⟨winter_built, by decide⟩, by decide, by decide⟩
  exact (Run.nil.snoc hjanuary).snoc hpage

/-- The second of the three is shown. -/
def secondShown : Panel := call winter empty (.add [.transaction 200 1612000000 true])

theorem second_run : Run winter winterHistory secondShown [200] := by
  have hsecond : Valid winterHistory empty (.add [.transaction 200 1612000000 true]) := by
    refine ⟨⟨?_, by decide⟩, by simp [empty]⟩
    intro t ht
    obtain rfl := List.mem_singleton.1 ht
    exact winter_built _ (by simp [winterPage])
  exact Run.nil.snoc hsecond

end TransactionPanel
