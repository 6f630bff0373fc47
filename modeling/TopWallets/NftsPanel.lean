import Mathlib.Data.List.Basic
import Mathlib.Data.List.Induction

/- The NFTs of an account, page by page: `NftsPanel.LoadNfts` over `TonAdapter.GetNfts` and
   `HttpTonApi.GetAllNftItems`.

   The panel asks for the items after those it shows, and stops at an answer without any. But
   `GetAllNftItems` drops the offset and the count it is given and always asks for the first
   1000, so every answer is the same: with an NFT to show, it is shown once more by every
   scroll to the end, without end (`showsOnce_iff`).

   Correspondence (C# ↔ Lean):
     `HttpTonApi.GetNftItems`    ↔ `getNftItems`
     `HttpTonApi.GetAllNftItems` ↔ `getAllNftItems`
     `NftsPanel.LoadNfts`        ↔ `load`
     the callback of `GetNfts`   ↔ `answer` -/
namespace NftsPanel

/-- `Concat` of two arrays, where null is no array; whether null joined with the empty array is
    null is left open. -/
structure ArrayLibrary (Nft : Type) where
  concat : Option (List Nft) → Option (List Nft) → Option (List Nft)
  concat_null_null : concat none none = none
  concat_null_left : ∀ nft nfts, concat none (some (nft :: nfts)) = some (nft :: nfts)
  concat_null_empty : concat none (some []) = none ∨ concat none (some []) = some []

/-- The account: its NFTs as the server lists them, what is read of an item (nothing of one
    without metadata), and the number of columns and rows in sight. -/
structure Account (Item Nft : Type) where
  items : List Item
  getNftData : Item → Option Nft
  visible : Nat

variable {Item Nft : Type} (A : ArrayLibrary Nft) (S : Account Item Nft)

/-- The NFTs to show. -/
def Account.nfts : List Nft := S.items.filterMap S.getNftData

/-- The answer of the server. -/
def respond (limit offset : Nat) : List Item := (S.items.drop offset).take limit

def getNftItems (offset count : Nat) : Option (List Nft) × Option String :=
  let array := respond S count offset
  if array.length > 0 then (some (array.filterMap S.getNftData), none) else (none, some "")

/-- Neither the offset nor the count is passed on; the arrays of the other kinds stay null. -/
def getAllNftItems (_offset _count : Nat) : List Nft × Option String :=
  let (infos3, e3) := getNftItems S 0 1000
  match A.concat (A.concat none none) infos3 with
  | some res => (res, none)
  | none => ([], some (e3.getD ""))

structure State (Nft : Type) where
  startIndex : Nat
  itemsCount : Nat
  updating : Bool
  shown : List Nft
  /-- How many requests were answered. -/
  answered : Nat

def init : State Nft := ⟨0, 16, false, [], 0⟩

/-- A scroll to the end, or the first loading. -/
def load (s : State Nft) : State Nft :=
  if s.updating ∨ s.itemsCount = 0 then s
  else
    { s with
      updating := true
      itemsCount := if s.startIndex = 0 then max 16 S.visible else s.itemsCount }

/-- The answer to the request that was made. -/
def answer (s : State Nft) : State Nft :=
  if s.updating then
    let (ts, e) := getAllNftItems A S s.startIndex s.itemsCount
    { startIndex := s.startIndex + ts.length
      itemsCount := if e = some "" then 0 else s.itemsCount
      updating := false
      shown := s.shown ++ ts
      answered := s.answered + 1 }
  else s

inductive Event where
  | scroll | answer

def step (s : State Nft) : Event → State Nft
  | .scroll => load S s
  | .answer => answer A S s

def run (events : List Event) : State Nft := events.foldl (step A S) init

/-- No request is made any more. -/
def State.stopped (s : State Nft) : Prop := s.itemsCount = 0 ∧ s.updating = false

/-- In every run the NFTs are shown in order and none twice, all of them when the panel has
    stopped, and the panel stops after some number of requests. -/
def ShowsOnce : Prop :=
  (∀ events, (run A S events).shown <+: S.nfts ∧
    ((run A S events).stopped → (run A S events).shown = S.nfts)) ∧
  ∃ bound, ∀ events, (run A S events).answered ≤ bound

/-! ## One answer -/

/-- The answer to every request. -/
def page : List Nft := (S.items.take 1000).filterMap S.getNftData

theorem getNftItems_eq : getNftItems S 0 1000 =
    if S.items = [] then (none, some "") else (some (page S), none) := by
  unfold getNftItems respond
  rw [List.drop_zero]
  by_cases hitems : S.items = []
  · rw [if_pos hitems, hitems]
    rfl
  · have hpos : (S.items.take 1000).length > 0 := by
      have := List.length_pos_of_ne_nil hitems
      rw [List.length_take]
      omega
    rw [if_neg hitems, if_pos hpos]
    rfl

/-- Nothing is left to be asked for: there is no item, or none to show and the null array joined
    with the empty one is null. -/
def Ends : Prop := S.items = [] ∨ (page S = [] ∧ A.concat none (some []) = none)

theorem getAllNftItems_ends (h : Ends A S) (offset count : Nat) :
    getAllNftItems A S offset count = ([], some "") := by
  unfold getAllNftItems
  rw [A.concat_null_null, getNftItems_eq]
  by_cases hitems : S.items = []
  · rw [if_pos hitems]
    simp only [A.concat_null_null]
    rfl
  · obtain hempty | ⟨hpage, hnull⟩ := h
    · exact absurd hempty hitems
    · rw [if_neg hitems, hpage]
      simp only [hnull]
      rfl

theorem getAllNftItems_page (h : ¬ Ends A S) (offset count : Nat) :
    getAllNftItems A S offset count = (page S, none) := by
  unfold getAllNftItems
  have hitems : S.items ≠ [] := fun hempty => h (Or.inl hempty)
  rw [A.concat_null_null, getNftItems_eq, if_neg hitems]
  have hconcat : A.concat none (some (page S)) = some (page S) := by
    cases hpage : page S with
    | cons nft nfts => exact A.concat_null_left nft nfts
    | nil =>
      obtain hnull | hsome := A.concat_null_empty
      · exact absurd (Or.inr ⟨hpage, hnull⟩) h
      · exact hsome
  simp only [hconcat]

/-! ## Runs -/

theorem run_snoc (events : List Event) (event : Event) :
    run A S (events ++ [event]) = step A S (run A S events) event := by
  unfold run
  rw [List.foldl_append]
  rfl

/-- A step never leaves the panel without a count, as long as the answers do not end. -/
theorem step_itemsCount (h : ¬ Ends A S) {s : State Nft} (hs : s.itemsCount ≠ 0)
    (event : Event) : (step A S s event).itemsCount ≠ 0 := by
  cases event with
  | scroll =>
    unfold step load
    by_cases hskip : s.updating ∨ s.itemsCount = 0
    · rwa [if_pos hskip]
    · rw [if_neg hskip]
      by_cases hstart : s.startIndex = 0
      · simp only [if_pos hstart]
        omega
      · simpa only [if_neg hstart] using hs
  | answer =>
    unfold step answer
    by_cases hupdating : s.updating
    · simp only [if_pos hupdating, getAllNftItems_page A S h]
      exact hs
    · rwa [if_neg hupdating]

theorem run_itemsCount (h : ¬ Ends A S) (events : List Event) :
    (run A S events).itemsCount ≠ 0 := by
  induction events using List.reverseRecOn with
  | nil => exact Nat.succ_ne_zero 15
  | append_singleton events event ih =>
    rw [run_snoc]
    exact step_itemsCount A S h ih event

/-- A scroll and its answer, again and again. -/
def rounds : Nat → List Event
  | 0 => []
  | n + 1 => rounds n ++ [.scroll] ++ [.answer]

/-- Where the answers do not end, every round is one more request. -/
theorem run_rounds (h : ¬ Ends A S) (n : Nat) :
    (run A S (rounds n)).answered = n ∧ (run A S (rounds n)).updating = false := by
  induction n with
  | zero => exact ⟨rfl, rfl⟩
  | succ n ih =>
    obtain ⟨hanswered, hidle⟩ := ih
    have hcount := run_itemsCount A S h (rounds n)
    have hload : load S (run A S (rounds n)) =
        { run A S (rounds n) with
          updating := true
          itemsCount := if (run A S (rounds n)).startIndex = 0 then max 16 S.visible
            else (run A S (rounds n)).itemsCount } := by
      rw [load, if_neg (by simp [hidle, hcount])]
    rw [rounds, run_snoc, run_snoc]
    change (answer A S (load S (run A S (rounds n)))).answered = n + 1 ∧
      (answer A S (load S (run A S (rounds n)))).updating = false
    rw [hload, answer, if_pos rfl]
    exact ⟨congrArg (· + 1) hanswered, rfl⟩

/-- Where they end, nothing is shown and the first answer is the last. -/
def Idle (s : State Nft) : Prop :=
  s.shown = [] ∧ s.startIndex = 0 ∧ (s.answered = 0 ∨ s.answered = 1 ∧ s.stopped)

theorem run_idle (h : Ends A S) (events : List Event) : Idle (run A S events) := by
  induction events using List.reverseRecOn with
  | nil => exact ⟨rfl, rfl, Or.inl rfl⟩
  | append_singleton events event ih =>
    obtain ⟨hshown, hstart, hanswered⟩ := ih
    rw [run_snoc]
    cases event with
    | scroll =>
      unfold step load
      by_cases hskip : (run A S events).updating ∨ (run A S events).itemsCount = 0
      · simp only [if_pos hskip]
        exact ⟨hshown, hstart, hanswered⟩
      · simp only [if_neg hskip]
        refine ⟨hshown, hstart, ?_⟩
        obtain hzero | ⟨-, hstopped⟩ := hanswered
        · exact Or.inl hzero
        · exact absurd (Or.inr hstopped.1) hskip
    | answer =>
      unfold step answer
      by_cases hupdating : (run A S events).updating
      · simp only [if_pos hupdating, getAllNftItems_ends A S h]
        obtain hzero | ⟨-, hstopped⟩ := hanswered
        · refine ⟨by rw [hshown]; rfl, by rw [hstart]; rfl, Or.inr ⟨?_, rfl, rfl⟩⟩
          rw [hzero]
        · rw [hstopped.2] at hupdating
          cases hupdating
      · simp only [if_neg hupdating]
        exact ⟨hshown, hstart, hanswered⟩

/-! ## The whole panel -/

theorem page_sublist : (page S).Sublist S.nfts :=
  (List.take_sublist 1000 S.items).filterMap S.getNftData

/-- The panel shows every NFT once and stops exactly when there is no NFT to show and nothing
    but null is made of that. -/
theorem showsOnce_iff : ShowsOnce A S ↔
    S.items = [] ∨ (S.nfts = [] ∧ A.concat none (some []) = none) := by
  constructor
  · intro h
    obtain ⟨hshown, bound, hbound⟩ := h
    by_cases hends : Ends A S
    · obtain hempty | ⟨hpage, hnull⟩ := hends
      · exact Or.inl hempty
      · -- the first answer stops the panel
        have hanswer := getAllNftItems_ends A S (Or.inr ⟨hpage, hnull⟩)
        have hrun : run A S [.scroll, .answer] = ⟨0, 0, false, [], 1⟩ := by
          change answer A S ⟨0, max 16 S.visible, true, [], 0⟩ = _
          rw [answer, if_pos rfl, hanswer]
          rfl
        have hall := (hshown [.scroll, .answer]).2
        rw [hrun] at hall
        exact Or.inr ⟨(hall ⟨rfl, rfl⟩).symm, hnull⟩
    · have hrounds := (run_rounds A S hends (bound + 1)).1
      have := hbound (rounds (bound + 1))
      omega
  · intro h
    have hends : Ends A S := by
      obtain hempty | ⟨hnfts, hnull⟩ := h
      · exact Or.inl hempty
      · refine Or.inr ⟨?_, hnull⟩
        apply List.eq_nil_of_sublist_nil
        rw [← hnfts]
        exact page_sublist S
    have hnfts : S.nfts = [] := by
      obtain hempty | ⟨hnfts, -⟩ := h
      · rw [Account.nfts, hempty]
        rfl
      · exact hnfts
    refine ⟨?_, 1, ?_⟩
    · intro events
      obtain ⟨hshown, -, -⟩ := run_idle A S hends events
      rw [hshown, hnfts]
      exact ⟨List.prefix_rfl, fun _ => rfl⟩
    · intro events
      obtain ⟨-, -, hzero | ⟨hone, -⟩⟩ := run_idle A S hends events
      · omega
      · omega

/-- The second scroll shows the one NFT of an account again. -/
theorem not_showsOnce : ¬ ∀ (Item Nft : Type) (A : ArrayLibrary Nft) (S : Account Item Nft),
    ShowsOnce A S := by
  intro h
  let A : ArrayLibrary Nat :=
    { concat := fun a b => if a.isNone then b else if b.isNone then a
        else some (a.getD [] ++ b.getD [])
      concat_null_null := rfl
      concat_null_left := fun _ _ => rfl
      concat_null_empty := Or.inr rfl }
  let S : Account Nat Nat := ⟨[7], some, 8⟩
  have hshown := ((h Nat Nat A S).1 [.scroll, .answer, .scroll, .answer]).1
  have htwice : [7, 7] <+: [7] := hshown
  exact absurd htwice (by decide)

end NftsPanel
