import TopWallets.SupportMessage
import TopWallets.Lib.Greatest
import Mathlib.Data.Prod.Lex
import Mathlib.Data.List.Sort

/- The top supports: `TotalPanel.W_TransactionsNew` takes the transactions of a support wallet into
   the list `topSupports`, which is to hold the greatest ones.

   A batch is gone through from its end. Its transactions are not compared with the list but with
   one support: the list's last, and after a transaction was added that one; and a last support of
   another coin is valued at the price of the wallet's coin. So a transaction below the one added
   before it is lost also where the list is not full.

   Main result: over every run of batches the list is the greatest of all the supports when in
   every batch those that do not lead it are outranked by as many as the list holds, and the
   wallet's price does not change the place of the last support (`isTop_run`).

   Correspondence (C# ↔ Lean):
     `W_TransactionsNew`    ↔ `transactionsNew`, its two loops `refresh` and `addTransaction`
     `TopSupport`           ↔ `TopSupport`, made by `newSupport`
     `topSupports.Sort`     ↔ `Sorting`
   The decimals are any linear order with a product, a time is its ticks. The latest messages and
   the notices of them are left out. -/
namespace TotalPanel
open Ton (Exception ok_bind)
open Greatest (IsTop HasAbove)

/-- The ticks of a day. -/
def ticksPerDay : Int := 864000000000

/-- An `ITransaction`. -/
structure Transaction (D : Type) where
  id : String
  amount : D
  time : Int
  message : Option Text

structure TopSupport (D : Type) where
  adapterID : String
  trID : String
  name : Option Text
  message : Option Text
  amount : D
  volume : D
  symbol : String
  time : Int
  signCount : Int

/-- A support wallet with the least amount of its `CryptoCoinInfo`. -/
structure Wallet (D : Type) where
  adapterID : String
  symbol : String
  defaultSignCount : Int
  supportActionAmount : D

/-- What is held fixed: the settings, the clock, and the market price of an adapter's coin. -/
structure Fixed (D : Type) where
  setting : SupportSetting
  utcNow : Int
  lastPrice : String → D
  debug : Bool

/-- `Sort` of a collection by a comparison that orders it. -/
structure Sorting (α : Type) where
  sort : (α → α → Ordering) → List α → List α
  perm : ∀ cmp l, (sort cmp l).Perm l
  sorted : ∀ cmp l, (∀ a b, cmp a b ≠ .gt ∨ cmp b a ≠ .gt) →
    (∀ a b c, cmp a b ≠ .gt → cmp b c ≠ .gt → cmp a c ≠ .gt) →
    (sort cmp l).Pairwise fun a b => cmp a b ≠ .gt

/-- The state of the loop over a batch. -/
structure Loop (D : Type) where
  topSupports : List (TopSupport D)
  last : Option (TopSupport D)

/-- The transactions of a wallet, `none` for one that is no `ITransaction`. -/
structure Batch (D : Type) where
  wallet : Wallet D
  transactions : List (Option (Transaction D))

section Definitions
variable {D : Type} [LinearOrder D] [Mul D] (F : Fixed D) (w : Wallet D)

def TopSupport.id (s : TopSupport D) : String := s.adapterID ++ s.trID

def isOld (time : Int) : Prop := F.utcNow - time > F.setting.maxDays * ticksPerDay

instance (time : Int) : Decidable (isOld F time) := inferInstanceAs (Decidable (_ > _))

def revalue (support : TopSupport D) : TopSupport D :=
  if support.adapterID = w.adapterID then
    { support with volume := support.amount * F.lastPrice w.adapterID }
  else { support with volume := support.amount * F.lastPrice support.adapterID }

/-- The loop over `topSupports`. -/
def refresh (topSupports : List (TopSupport D)) : List (TopSupport D) :=
  (topSupports.filter (fun support => ¬ isOld F support.time)).map (revalue F w)

def newSupport (t : Transaction D) : Except Exception (TopSupport D) := do
  let (name, message) ← parseMessage F.setting t.message
  return ⟨w.adapterID, t.id, name, message, t.amount, t.amount * F.lastPrice w.adapterID, w.symbol,
    t.time, w.defaultSignCount⟩

/-- A transaction that counts. -/
def Qualifies (t : Transaction D) : Prop :=
  ¬ isOld F t.time ∧ (t.amount ≥ w.supportActionAmount ∨ F.debug = true)

instance (t : Transaction D) : Decidable (Qualifies F w t) := inferInstanceAs (Decidable (_ ∧ _))

/-- A transaction is above `last`: of one coin by the amounts, and of two by the volumes at the
    price of the wallet's coin. -/
def Exceeds (t : Transaction D) (last : TopSupport D) : Prop :=
  if last.adapterID = w.adapterID then
    t.amount > last.amount ∨ t.amount = last.amount ∧ t.time > last.time
  else
    let tvolume := t.amount * F.lastPrice w.adapterID
    let volume := last.amount * F.lastPrice w.adapterID
    tvolume > volume ∨ tvolume = volume ∧ t.time > last.time

instance (t : Transaction D) (last : TopSupport D) : Decidable (Exceeds F w t last) := by
  unfold Exceeds
  infer_instance

def Add (t : Transaction D) : Option (TopSupport D) → Prop
  | none => True
  | some last => Exceeds F w t last

instance (t : Transaction D) (last : Option (TopSupport D)) : Decidable (Add F w t last) :=
  match last with
  | none => inferInstanceAs (Decidable True)
  | some last => inferInstanceAs (Decidable (Exceeds F w t last))

/-- `last.Volume = last.Amount * wallet.Market.LastPrice`. -/
def valueAt (support : TopSupport D) : TopSupport D :=
  { support with volume := support.amount * F.lastPrice w.adapterID }

/-- `last` is an element of the list, so its volume is set in the list too. -/
def setVolume (loop : Loop D) : Loop D :=
  match loop.last with
  | none => loop
  | some last =>
    if last.adapterID = w.adapterID then loop
    else
      { topSupports := loop.topSupports.map fun s => if s.id = last.id then valueAt F w s else s
        last := some (valueAt F w last) }

def addTransaction (loop : Loop D) : Option (Transaction D) → Except Exception (Loop D)
  | none => .ok loop
  | some t =>
    if Qualifies F w t then
      if loop.topSupports.any (·.id = w.adapterID ++ t.id) then .ok loop
      else if Add F w t loop.last then do
        let support ← newSupport F w t
        let loop := setVolume F w loop
        return { topSupports := loop.topSupports ++ [support], last := some support }
      else .ok (setVolume F w loop)
    else .ok loop

def compareSupports (a b : TopSupport D) : Ordering :=
  ((compare a.volume b.volume).then (compare a.time b.time)).swap

/-- The last ones are removed down to `maxTops`. -/
def trim (maxTops : Nat) (topSupports : List (TopSupport D)) : List (TopSupport D) :=
  if topSupports.length > maxTops then trim maxTops topSupports.dropLast else topSupports
termination_by topSupports.length
decreasing_by
  rw [List.length_dropLast]
  omega

def transactionsNew (C : Sorting (TopSupport D)) (topSupports : List (TopSupport D))
    (batch : Batch D) : Except Exception (List (TopSupport D)) := do
  let topSupports := refresh F batch.wallet topSupports
  let loop ← batch.transactions.reverse.foldlM (addTransaction F batch.wallet)
    ⟨topSupports, topSupports.getLast?⟩
  return trim F.setting.maxTops (C.sort compareSupports loop.topSupports)

/-- The batches one after another. -/
def run (C : Sorting (TopSupport D)) (batches : List (Batch D)) :
    Except Exception (List (TopSupport D)) :=
  batches.foldlM (transactionsNew F C) []

/-! ## What the list is to be -/

/-- A support with its volume at the price of its coin. -/
def fair (support : TopSupport D) : TopSupport D :=
  { support with volume := support.amount * F.lastPrice support.adapterID }

/-- The volume and then the time. -/
def rank (support : TopSupport D) : D ×ₗ Int :=
  toLex (support.amount * F.lastPrice support.adapterID, support.time)

/-- The supports of a batch. -/
def supports (batch : Batch D) : Set (TopSupport D) :=
  {s | ∃ t, some t ∈ batch.transactions ∧ Qualifies F batch.wallet t ∧
    newSupport F batch.wallet t = .ok s}

/-- The supports of all batches. -/
def processed (batches : List (Batch D)) : Set (TopSupport D) :=
  {s | ∃ batch ∈ batches, s ∈ supports F batch}

/-! ## When it is -/

/-- The transactions of a batch that count and are not in the list, in the loop's order. -/
def fresh (U : List (TopSupport D)) (ts : List (Option (Transaction D))) : List (Transaction D) :=
  ts.filterMap fun t => t.filter fun t =>
    decide (Qualifies F w t ∧ ¬ U.any (·.id = w.adapterID ++ t.id))

section Condition
variable (U : List (TopSupport D)) (L : List (Transaction D))

/-- `t` is above the last support of the list and the transactions that come before it. -/
def Leads (t : Transaction D) : Prop :=
  ∃ before, before ++ [t] <+: L ∧ Add F w t U.getLast? ∧
    ∀ r ∈ before, toLex (r.amount, r.time) < toLex (t.amount, t.time)

/-- At the price of the wallet's coin `x` is no more above or below another support. -/
def KeepsPlace (x : TopSupport D) : Prop :=
  let place : D ×ₗ Int := toLex (x.amount * F.lastPrice w.adapterID, x.time)
  ∀ s, (s ∈ U ∧ s ≠ x ∨ ∃ t ∈ L, newSupport F w t = .ok s) →
    (place ≤ rank F s → rank F x ≤ rank F s) ∧ (rank F s ≤ place → rank F s ≤ rank F x)

/-- The condition on the list and the new transactions. -/
structure MeetsAt : Prop where
  place : L ≠ [] → ∀ x, U.getLast? = some x → x.adapterID ≠ w.adapterID → KeepsPlace F w U L x
  leads : ∀ t ∈ L, Leads F w U L t ∨
    ∃ above : List (TopSupport D), HasAbove (rank F) F.setting.maxTops above
        (toLex (t.amount * F.lastPrice w.adapterID, t.time)) ∧
      ∀ s ∈ above, s ∈ U ∨ ∃ t', Leads F w U L t' ∧ newSupport F w t' = .ok s

end Condition

/-- The condition on a batch and the list before it. -/
def Meets (topSupports : List (TopSupport D)) (batch : Batch D) : Prop :=
  MeetsAt F batch.wallet (refresh F batch.wallet topSupports)
    (fresh F batch.wallet (refresh F batch.wallet topSupports) batch.transactions.reverse)

/-- Every batch of the run meets the condition in the list before it. -/
def RunMeets (C : Sorting (TopSupport D)) : List (TopSupport D) → List (Batch D) → Prop
  | _, [] => True
  | topSupports, batch :: batches => Meets F topSupports batch ∧
      ∀ topSupports', transactionsNew F C topSupports batch = .ok topSupports' →
        RunMeets C topSupports' batches

end Definitions

/-! ## Volumes -/

section Volumes
variable {D : Type} [Mul D] (F : Fixed D) (w : Wallet D)

theorem revalue_eq (support : TopSupport D) : revalue F w support = fair F support := by
  unfold revalue fair
  split
  · next h => rw [h]
  · rfl

theorem fair_id (s : TopSupport D) : (fair F s).id = s.id := rfl

@[simp] theorem fair_fair (s : TopSupport D) : fair F (fair F s) = fair F s := rfl

@[simp] theorem fair_valueAt (s : TopSupport D) : fair F (valueAt F w s) = fair F s := rfl

@[simp] theorem valueAt_fair (s : TopSupport D) : valueAt F w (fair F s) = valueAt F w s := rfl

theorem newSupport_ok (t : Transaction D) : ∃ s, newSupport F w t = .ok s := by
  obtain ⟨read, hread⟩ := parseMessage_ok F.setting t.message
  rw [newSupport, hread]
  exact ⟨_, rfl⟩

/-- A new support is made from its transaction, at the price of its coin. -/
theorem newSupport_fields {t : Transaction D} {s : TopSupport D} (h : newSupport F w t = .ok s) :
    s.adapterID = w.adapterID ∧ s.id = w.adapterID ++ t.id ∧ s.time = t.time ∧ s.amount = t.amount ∧
      fair F s = s := by
  obtain ⟨read, hread⟩ := parseMessage_ok F.setting t.message
  rw [newSupport, hread] at h
  cases h
  exact ⟨rfl, rfl, rfl, rfl, rfl⟩

theorem newSupport_rank {t : Transaction D} {s : TopSupport D} (h : newSupport F w t = .ok s) :
    rank F s = toLex (t.amount * F.lastPrice w.adapterID, t.time) := by
  obtain ⟨hadapter, -, htime, hamount, -⟩ := newSupport_fields F w h
  rw [rank, hadapter, hamount, htime]

theorem refresh_eq {T : List (TopSupport D)} (hT : ∀ s ∈ T, ¬ isOld F s.time) :
    refresh F w T = T.map (fair F) := by
  have hall : T.filter (fun support => ¬ isOld F support.time) = T := by
    rw [List.filter_eq_self]
    intro s hs
    simpa using hT s hs
  rw [refresh, hall]
  exact List.map_congr_left (fun s _ => revalue_eq F w s)

end Volumes

/-! ## The new transactions -/

section Fresh
variable {D : Type} [LinearOrder D] (F : Fixed D) (w : Wallet D)

theorem fresh_append (U : List (TopSupport D)) (ts us : List (Option (Transaction D))) :
    fresh F w U (ts ++ us) = fresh F w U ts ++ fresh F w U us :=
  List.filterMap_append

theorem mem_fresh {U : List (TopSupport D)} {ts : List (Option (Transaction D))}
    {t : Transaction D} : t ∈ fresh F w U ts ↔
      some t ∈ ts ∧ Qualifies F w t ∧ ∀ s ∈ U, s.id ≠ w.adapterID ++ t.id := by
  simp [fresh, List.mem_filterMap, Option.filter_eq_some_iff]

theorem fresh_new {U : List (TopSupport D)} {t : Transaction D} (hq : Qualifies F w t)
    (hU : ∀ s ∈ U, s.id ≠ w.adapterID ++ t.id) : fresh F w U [some t] = [t] := by
  apply List.filterMap_cons_some
  rw [Option.filter_some, if_pos]
  simp only [decide_eq_true_eq, List.any_eq_true, not_exists, not_and]
  exact ⟨hq, hU⟩

theorem fresh_old {U : List (TopSupport D)} {t : Transaction D}
    (h : ¬ (Qualifies F w t ∧ ∀ s ∈ U, s.id ≠ w.adapterID ++ t.id)) :
    fresh F w U [some t] = [] := by
  apply List.filterMap_cons_none
  rw [Option.filter_some, if_neg]
  simp only [decide_eq_true_eq, List.any_eq_true, not_exists, not_and] at h ⊢
  exact h

end Fresh

/-! ## The loop -/

section Run
variable {D : Type} [LinearOrder D] [Mul D] (F : Fixed D) (w : Wallet D)

/-- What the loop has after the new transactions `L`: `U`, and behind it the supports `A`. -/
structure LoopInv (U : List (TopSupport D)) (L : List (Transaction D)) (loop : Loop D)
    (A : List (TopSupport D)) : Prop where
  supports : loop.topSupports.map (fair F) = U ++ A
  last : loop.last.map (fair F) = (U ++ A).getLast?
  nodup : ((U ++ A).map TopSupport.id).Nodup
  added : ∀ s ∈ A, ∃ t ∈ L, newSupport F w t = .ok s
  leads : ∀ t, Leads F w U L t → ∀ s, newSupport F w t = .ok s → s ∈ A
  volumes : ∀ s ∈ loop.topSupports, s = fair F s ∨ L ≠ [] ∧
    ∃ x, U.getLast? = some x ∧ x.adapterID ≠ w.adapterID ∧ s = valueAt F w x

variable {F w} {U A : List (TopSupport D)} {L : List (Transaction D)} {loop : Loop D}

theorem LoopInv.mem_map (h : LoopInv F w U L loop A) {s : TopSupport D}
    (hs : s ∈ loop.topSupports) : fair F s ∈ U ++ A := by
  rw [← h.supports]
  exact List.mem_map_of_mem hs

theorem LoopInv.eq_of_id (h : LoopInv F w U L loop A) {a b : TopSupport D} (ha : a ∈ U ++ A)
    (hb : b ∈ U ++ A) (hid : a.id = b.id) : a = b :=
  List.inj_on_of_nodup_map h.nodup ha hb hid

/-- A last support of another coin is the list's last from before the batch. -/
theorem LoopInv.last_other (h : LoopInv F w U L loop A) {last : TopSupport D}
    (hlast : loop.last = some last) (hother : last.adapterID ≠ w.adapterID) :
    U.getLast? = some (fair F last) := by
  have hU := h.last
  rw [hlast, Option.map_some] at hU
  by_cases hA : A = []
  · rw [hA, List.append_nil] at hU
    exact hU.symm
  · rw [List.getLast?_append_of_ne_nil U hA] at hU
    obtain ⟨t, -, ht⟩ := h.added _ (List.mem_of_getLast? hU.symm)
    exact absurd (newSupport_fields F w ht).1 hother

theorem LoopInv.setVolume_supports (h : LoopInv F w U L loop A) :
    (setVolume F w loop).topSupports.map (fair F) = U ++ A := by
  rw [← h.supports]
  unfold setVolume
  split
  · rfl
  · split
    · rfl
    · rw [List.map_map]
      apply List.map_congr_left
      intro s _
      rw [Function.comp_apply]
      split
      · exact fair_valueAt F w s
      · rfl

theorem LoopInv.setVolume_last (h : LoopInv F w U L loop A) :
    (setVolume F w loop).last.map (fair F) = (U ++ A).getLast? := by
  rw [← h.last]
  unfold setVolume
  split
  · rfl
  · next last hlast =>
    split
    · rfl
    · rw [hlast]
      rfl

theorem LoopInv.setVolume_volumes (h : LoopInv F w U L loop A) :
    ∀ s ∈ (setVolume F w loop).topSupports, s = fair F s ∨
      ∃ x, U.getLast? = some x ∧ x.adapterID ≠ w.adapterID ∧ s = valueAt F w x := by
  have hold : ∀ s ∈ loop.topSupports, s = fair F s ∨
      ∃ x, U.getLast? = some x ∧ x.adapterID ≠ w.adapterID ∧ s = valueAt F w x :=
    fun s hs => (h.volumes s hs).imp_right And.right
  intro s hs
  unfold setVolume at hs
  split at hs
  · exact hold s hs
  · next last hlast =>
    split at hs
    · exact hold s hs
    · next hother =>
      obtain ⟨s', hs', hvalue⟩ := List.mem_map.mp hs
      split at hvalue
      · next hid =>
        have hU := h.last_other hlast hother
        have hsame : fair F s' = fair F last :=
          h.eq_of_id (h.mem_map hs') (List.mem_append_left A (List.mem_of_getLast? hU)) hid
        refine Or.inr ⟨fair F last, hU, hother, ?_⟩
        rw [← hvalue, ← hsame, valueAt_fair]
      · rw [← hvalue]
        exact hold s' hs'

theorem leads_append {t t' : Transaction D} (h : Leads F w U (L ++ [t]) t') :
    Leads F w U L t' ∨ t' = t ∧ Add F w t U.getLast? ∧
      ∀ r ∈ L, toLex (r.amount, r.time) < toLex (t.amount, t.time) := by
  obtain ⟨before, hstart, hadd, hbefore⟩ := h
  cases List.prefix_concat_iff.mp hstart with
  | inl hall =>
    obtain ⟨hL, ht⟩ := List.append_inj' hall rfl
    cases ht
    exact Or.inr ⟨rfl, hadd, hL ▸ hbefore⟩
  | inr hstart => exact Or.inl ⟨before, hstart, hadd, hbefore⟩

/-- A transaction that leads is added: the support that the loop compares it with is the last of
    the list or comes from a transaction before it. -/
theorem LoopInv.add_of_leads (h : LoopInv F w U L loop A) {t : Transaction D}
    (hadd : Add F w t U.getLast?)
    (hlead : ∀ r ∈ L, toLex (r.amount, r.time) < toLex (t.amount, t.time)) :
    Add F w t loop.last := by
  have hlast := h.last
  cases hloop : loop.last with
  | none => trivial
  | some last =>
    rw [hloop, Option.map_some] at hlast
    by_cases hA : A = []
    · rw [hA, List.append_nil] at hlast
      rw [← hlast] at hadd
      exact hadd
    · rw [List.getLast?_append_of_ne_nil U hA] at hlast
      obtain ⟨r, hr, hsupport⟩ := h.added _ (List.mem_of_getLast? hlast.symm)
      obtain ⟨hadapter, -, htime, hamount, -⟩ := newSupport_fields F w hsupport
      have hlt := Prod.Lex.toLex_lt_toLex.mp (hlead r hr)
      have hsame : (fair F last).adapterID = w.adapterID := hadapter
      change Exceeds F w t (fair F last)
      rw [Exceeds, if_pos hsame, hamount, htime]
      apply Or.imp id _ hlt
      intro heq
      exact ⟨heq.1.symm, heq.2⟩

theorem LoopInv.added_append (h : LoopInv F w U L loop A) (t : Transaction D) :
    ∀ s ∈ A, ∃ t' ∈ L ++ [t], newSupport F w t' = .ok s := by
  intro s hs
  obtain ⟨t', ht', hsupport⟩ := h.added s hs
  exact ⟨t', List.mem_append_left [t] ht', hsupport⟩

/-- A support that the batch has twice is left. -/
theorem LoopInv.contained (h : LoopInv F w U L loop A) {t : Transaction D}
    (ht : ∀ s, newSupport F w t = .ok s → s ∈ A) : LoopInv F w U (L ++ [t]) loop A where
  supports := h.supports
  last := h.last
  nodup := h.nodup
  added := h.added_append t
  leads := by
    intro t' hlead s hs
    cases leads_append hlead with
    | inl hlead => exact h.leads t' hlead s hs
    | inr hlead => exact ht s (hlead.1 ▸ hs)
  volumes := by
    intro s hs
    exact (h.volumes s hs).imp_right (fun hx => ⟨by simp, hx.2⟩)

/-- A refused transaction does not lead. -/
theorem LoopInv.refuse (h : LoopInv F w U L loop A) {t : Transaction D}
    (hadd : ¬ Add F w t loop.last) :
    LoopInv F w U (L ++ [t]) (setVolume F w loop) A where
  supports := h.setVolume_supports
  last := h.setVolume_last
  nodup := h.nodup
  added := h.added_append t
  leads := by
    intro t' hlead s hs
    cases leads_append hlead with
    | inl hlead => exact h.leads t' hlead s hs
    | inr hlead => exact absurd (h.add_of_leads hlead.2.1 hlead.2.2) hadd
  volumes := by
    intro s hs
    exact (h.setVolume_volumes s hs).imp_right (fun hx => ⟨by simp, hx⟩)

/-- An added transaction is put behind the others and is the last now. -/
theorem LoopInv.add (h : LoopInv F w U L loop A) {t : Transaction D} {s : TopSupport D}
    (hs : newSupport F w t = .ok s) (hnew : ∀ a ∈ U ++ A, a.id ≠ w.adapterID ++ t.id) :
    LoopInv F w U (L ++ [t]) ⟨(setVolume F w loop).topSupports ++ [s], some s⟩ (A ++ [s]) := by
  obtain ⟨-, hid, -, -, hfair⟩ := newSupport_fields F w hs
  constructor
  case supports =>
    rw [List.map_append, h.setVolume_supports, List.append_assoc, List.map_singleton, hfair]
  case last =>
    rw [Option.map_some, hfair, ← List.append_assoc, List.getLast?_concat]
  case nodup =>
    rw [← List.append_assoc, List.map_append, List.map_singleton, List.nodup_append]
    refine ⟨h.nodup, List.nodup_singleton _, ?_⟩
    intro id hmem id' hmem'
    obtain ⟨a, ha, haid⟩ := List.mem_map.mp hmem
    rw [List.mem_singleton.mp hmem', ← haid, hid]
    exact hnew a ha
  case added =>
    intro a ha
    cases List.mem_append.mp ha with
    | inl ha => exact h.added_append t a ha
    | inr ha => exact ⟨t, by simp, (List.mem_singleton.mp ha) ▸ hs⟩
  case leads =>
    intro t' hlead a ha
    cases leads_append hlead with
    | inl hlead => exact List.mem_append_left [s] (h.leads t' hlead a ha)
    | inr hlead =>
      rw [hlead.1, hs] at ha
      cases ha
      exact List.mem_append_right A List.mem_cons_self
  case volumes =>
    intro a ha
    cases List.mem_append.mp ha with
    | inl ha => exact (h.setVolume_volumes a ha).imp_right (fun hx => ⟨by simp, hx⟩)
    | inr ha => exact Or.inl ((List.mem_singleton.mp ha) ▸ hfair.symm)

/-- One transaction of the loop. -/
theorem LoopInv.step {S : Set (TopSupport D)} (hS : S.InjOn TopSupport.id) (hA : ∀ a ∈ A, a ∈ S)
    (h : LoopInv F w U L loop A) (t : Option (Transaction D))
    (ht : ∀ t', t = some t' → Qualifies F w t' → ∀ s, newSupport F w t' = .ok s → s ∈ S) :
    ∃ loop' A', addTransaction F w loop t = .ok loop' ∧
      LoopInv F w U (L ++ fresh F w U [t]) loop' A' ∧ ∀ a ∈ A', a ∈ S := by
  have hskip : ∀ t', ¬ (Qualifies F w t' ∧ ∀ s ∈ U, s.id ≠ w.adapterID ++ t'.id) →
      LoopInv F w U (L ++ fresh F w U [some t']) loop A := by
    intro t' hold
    rw [fresh_old F w hold, List.append_nil]
    exact h
  have hany : ∀ t' : Transaction D,
      loop.topSupports.any (·.id = w.adapterID ++ t'.id) = true ↔
        ∃ a ∈ U ++ A, a.id = w.adapterID ++ t'.id := by
    intro t'
    rw [← h.supports]
    simp [fair_id]
  cases t with
  | none =>
    refine ⟨loop, A, rfl, ?_, hA⟩
    have hnone : fresh F w U [none] = [] := rfl
    rw [hnone, List.append_nil]
    exact h
  | some t =>
    obtain ⟨s, hs⟩ := newSupport_ok F w t
    obtain ⟨-, hid, -⟩ := newSupport_fields F w hs
    by_cases hq : Qualifies F w t
    case neg => exact ⟨loop, A, by rw [addTransaction, if_neg hq], hskip t (fun h => hq h.1), hA⟩
    have hsS := ht t rfl hq s hs
    by_cases hin : loop.topSupports.any (·.id = w.adapterID ++ t.id) = true
    · refine ⟨loop, A, by rw [addTransaction, if_pos hq, if_pos hin], ?_, hA⟩
      by_cases hU : ∀ s ∈ U, s.id ≠ w.adapterID ++ t.id
      · rw [fresh_new F w hq hU]
        apply h.contained
        intro s' hs'
        rw [hs] at hs'
        cases hs'
        obtain ⟨a, ha, haid⟩ := (hany t).mp hin
        have haA := (List.mem_append.mp ha).resolve_left (fun haU => hU a haU haid)
        exact hS (hA a haA) hsS (haid.trans hid.symm) ▸ haA
      · exact hskip t (fun h => hU h.2)
    · have hnew : ∀ a ∈ U ++ A, a.id ≠ w.adapterID ++ t.id :=
        fun a ha haid => hin ((hany t).mpr ⟨a, ha, haid⟩)
      rw [fresh_new F w hq (fun s hs => hnew s (List.mem_append_left A hs))]
      by_cases hadd : Add F w t loop.last
      · refine ⟨_, A ++ [s], ?_, h.add hs hnew, ?_⟩
        · rw [addTransaction, if_pos hq, if_neg hin, if_pos hadd, hs]
          rfl
        · intro a ha
          cases List.mem_append.mp ha with
          | inl ha => exact hA a ha
          | inr ha => exact (List.mem_singleton.mp ha) ▸ hsS
      · exact ⟨_, A, by rw [addTransaction, if_pos hq, if_neg hin, if_neg hadd], h.refuse hadd, hA⟩

/-- The whole loop. -/
theorem LoopInv.run {S : Set (TopSupport D)} (hS : S.InjOn TopSupport.id)
    (ts : List (Option (Transaction D)))
    (hts : ∀ t, some t ∈ ts → Qualifies F w t → ∀ s, newSupport F w t = .ok s → s ∈ S)
    (h : LoopInv F w U L loop A) (hA : ∀ a ∈ A, a ∈ S) :
    ∃ loop' A', ts.foldlM (addTransaction F w) loop = .ok loop' ∧
      LoopInv F w U (L ++ fresh F w U ts) loop' A' := by
  induction ts generalizing L loop A with
  | nil =>
    refine ⟨loop, A, rfl, ?_⟩
    have hnil : fresh F w U [] = [] := rfl
    rw [hnil, List.append_nil]
    exact h
  | cons t ts ih =>
    obtain ⟨loop₁, A₁, hstep, h₁, hA₁⟩ := h.step hS hA t
      (fun t' ht' => hts t' (ht' ▸ List.mem_cons_self))
    obtain ⟨loop', A', hrun, h'⟩ := ih (fun t' ht' => hts t' (List.mem_cons_of_mem t ht')) h₁ hA₁
    refine ⟨loop', A', ?_, ?_⟩
    · rw [List.foldlM_cons, hstep]
      exact hrun
    · have hfresh : fresh F w U (t :: ts) = fresh F w U [t] ++ fresh F w U ts :=
        fresh_append F w U [t] ts
      rw [hfresh, ← List.append_assoc]
      exact h'

/-! ## Sorting -/

omit [Mul D] in
theorem compareSupports_ne_gt (a b : TopSupport D) : compareSupports a b ≠ .gt ↔
    (toLex (b.volume, b.time) : D ×ₗ Int) ≤ toLex (a.volume, a.time) := by
  have hlt : compareSupports a b = .gt ↔
      (toLex (a.volume, a.time) : D ×ₗ Int) < toLex (b.volume, b.time) := by
    rw [compareSupports, Ordering.swap_eq_gt, Ordering.then_eq_lt, compare_lt_iff_lt,
      compare_eq_iff_eq, compare_lt_iff_lt, Prod.Lex.toLex_lt_toLex]
  rw [Ne, hlt, not_lt]

omit [Mul D] in
theorem Sorting.sorted_supports (C : Sorting (TopSupport D)) (l : List (TopSupport D)) :
    (C.sort compareSupports l).Pairwise fun a b =>
      (toLex (b.volume, b.time) : D ×ₗ Int) ≤ toLex (a.volume, a.time) := by
  apply (C.sorted compareSupports l ?_ ?_).imp
  · intro a b h
    exact (compareSupports_ne_gt a b).mp h
  · intro a b
    rw [compareSupports_ne_gt, compareSupports_ne_gt]
    exact le_total _ _
  · intro a b c hab hbc
    rw [compareSupports_ne_gt] at hab hbc ⊢
    exact le_trans hbc hab

omit [LinearOrder D] [Mul D] in
theorem trim_eq_take (maxTops : Nat) (l : List (TopSupport D)) :
    trim maxTops l = l.take maxTops := by
  induction l using trim.induct maxTops with
  | case1 l h ih =>
    rw [trim, if_pos h, ih, List.dropLast_eq_take, List.take_take, Nat.min_eq_left (by omega)]
  | case2 l h => rw [trim, if_neg h, List.take_of_length_le (by omega)]

/-- The order of the volumes as the loop leaves them is the order of the ranks. -/
theorem LoopInv.rank_le (h : LoopInv F w U L loop A)
    (hplace : L ≠ [] → ∀ x, U.getLast? = some x → x.adapterID ≠ w.adapterID → KeepsPlace F w U L x)
    {a b : TopSupport D} (ha : a ∈ loop.topSupports) (hb : b ∈ loop.topSupports)
    (hle : (toLex (b.volume, b.time) : D ×ₗ Int) ≤ toLex (a.volume, a.time)) :
    rank F b ≤ rank F a := by
  have hfair : ∀ s : TopSupport D, s = fair F s → toLex (s.volume, s.time) = rank F s := by
    intro s hs
    rw [hs]
    rfl
  -- a support of the list is the revalued one or is compared with it as one of the others
  have hother : ∀ s ∈ loop.topSupports, s = fair F s → ∀ x, s = x ∨
      (s ∈ U ∧ s ≠ x ∨ ∃ t ∈ L, newSupport F w t = .ok s) := by
    intro s hs heq x
    have hmem := h.mem_map hs
    rw [← heq] at hmem
    by_cases hx : s = x
    · exact Or.inl hx
    · exact Or.inr ((List.mem_append.mp hmem).imp (fun hU => ⟨hU, hx⟩) (h.added s))
  cases h.volumes a ha with
  | inl hafair =>
    rw [hfair a hafair] at hle
    cases h.volumes b hb with
    | inl hbfair => rwa [hfair b hbfair] at hle
    | inr hbvalue =>
      obtain ⟨hne, x, hlast, hadapter, hvalue⟩ := hbvalue
      have hrank : rank F b = rank F x := by rw [hvalue]; rfl
      rw [hrank]
      cases hother a ha hafair x with
      | inl hsame => rw [hsame]
      | inr hmem =>
        rw [hvalue] at hle
        exact (hplace hne x hlast hadapter a hmem).1 hle
  | inr havalue =>
    obtain ⟨hne, x, hlast, hadapter, hvalue⟩ := havalue
    have hrank : rank F a = rank F x := by rw [hvalue]; rfl
    rw [hrank]
    cases h.volumes b hb with
    | inl hbfair =>
      cases hother b hb hbfair x with
      | inl hsame => rw [hsame]
      | inr hmem =>
        rw [hfair b hbfair, hvalue] at hle
        exact (hplace hne x hlast hadapter b hmem).2 hle
    | inr hbvalue =>
      obtain ⟨-, x', hlast', -, hvalue'⟩ := hbvalue
      rw [hlast] at hlast'
      cases hlast'
      rw [hvalue']
      exact le_of_eq rfl

/-! ## A batch -/

theorem LoopInv.start (hU : U.map (fair F) = U) (hnodup : (U.map TopSupport.id).Nodup) :
    LoopInv F w U [] ⟨U, U.getLast?⟩ [] where
  supports := by rw [hU, List.append_nil]
  last := by rw [← List.getLast?_map, hU, List.append_nil]
  nodup := by rwa [List.append_nil]
  added := by
    intro s hs
    cases hs
  leads := by
    intro t hlead
    obtain ⟨before, hstart, -⟩ := hlead
    have hnil := List.prefix_nil.mp hstart
    cases List.append_eq_nil_iff.mp hnil |>.2
  volumes := by
    intro s hs
    rw [← hU] at hs
    obtain ⟨s', -, hs'⟩ := List.mem_map.mp hs
    rw [← hs']
    exact Or.inl rfl

/-- A new transaction is in the list that is sorted, or outranked by what is in it. -/
theorem LoopInv.kept (h : LoopInv F w U L loop A) (hmeets : MeetsAt F w U L) {t : Transaction D}
    (ht : t ∈ L) {s : TopSupport D} (hs : newSupport F w t = .ok s) :
    s ∈ U ++ A ∨ HasAbove (rank F) F.setting.maxTops (U ++ A) (rank F s) := by
  cases hmeets.leads t ht with
  | inl hlead => exact Or.inl (List.mem_append_right U (h.leads t hlead s hs))
  | inr habove =>
    obtain ⟨above, habove, hsub⟩ := habove
    rw [← newSupport_rank F w hs] at habove
    refine Or.inr (habove.mono ?_)
    intro a ha
    cases hsub a ha with
    | inl haU => exact List.mem_append_left A haU
    | inr halead =>
      obtain ⟨t', hlead, hsupport⟩ := halead
      exact List.mem_append_right U (h.leads t' hlead a hsupport)

/-- The supports of a batch are in the list, in what was added, or outranked by both. -/
theorem LoopInv.kept_supports {Q : Set (TopSupport D)} {batch : Batch D}
    (h : LoopInv F batch.wallet U (fresh F batch.wallet U batch.transactions.reverse) loop A)
    (hmeets : MeetsAt F batch.wallet U (fresh F batch.wallet U batch.transactions.reverse))
    (hU : ∀ s ∈ U, s ∈ Q) (hids : (Q ∪ TotalPanel.supports F batch).InjOn TopSupport.id) :
    ∀ s ∈ TotalPanel.supports F batch,
      s ∈ U ++ A ∨ HasAbove (rank F) F.setting.maxTops (U ++ A) (rank F s) := by
  intro s hs
  obtain ⟨t, ht, hq, hsupport⟩ := hs
  have hid := (newSupport_fields F batch.wallet hsupport).2.1
  by_cases hnew : ∀ a ∈ U, a.id ≠ batch.wallet.adapterID ++ t.id
  · have hfresh := (mem_fresh F batch.wallet).mpr ⟨List.mem_reverse.mpr ht, hq, hnew⟩
    exact h.kept hmeets hfresh hsupport
  · -- the support was in the list before
    simp only [not_forall, not_not] at hnew
    obtain ⟨a, ha, haid⟩ := hnew
    have hsame := hids (Or.inl (hU a ha)) (Or.inr ⟨t, ht, hq, hsupport⟩) (haid.trans hid.symm)
    exact Or.inl (List.mem_append_left A (hsame ▸ ha))

/-- What was added is of the batch. -/
theorem LoopInv.added_supports {batch : Batch D}
    (h : LoopInv F batch.wallet U (fresh F batch.wallet U batch.transactions.reverse) loop A) :
    ∀ s ∈ A, s ∈ TotalPanel.supports F batch := by
  intro s hs
  obtain ⟨t, ht, hsupport⟩ := h.added s hs
  have htbatch := (mem_fresh F batch.wallet).mp ht
  exact ⟨t, List.mem_reverse.mp htbatch.1, htbatch.2.1, hsupport⟩

/-- The sorted list is in the order of the ranks. -/
theorem LoopInv.sorted (h : LoopInv F w U L loop A) (C : Sorting (TopSupport D))
    (hplace : L ≠ [] → ∀ x, U.getLast? = some x → x.adapterID ≠ w.adapterID →
      KeepsPlace F w U L x) :
    ((C.sort compareSupports loop.topSupports).map (fair F)).Pairwise
      fun a b => rank F b ≤ rank F a := by
  rw [List.pairwise_map]
  apply (C.sorted_supports loop.topSupports).imp_of_mem
  intro a b ha hb hle
  have hmem : ∀ s ∈ C.sort compareSupports loop.topSupports, s ∈ loop.topSupports :=
    fun s hs => (C.perm compareSupports loop.topSupports).mem_iff.mp hs
  have hrank : rank F b ≤ rank F a := h.rank_le hplace (hmem a ha) (hmem b hb) hle
  exact hrank

variable (F) (C : Sorting (TopSupport D))

/-- A batch that meets the condition keeps the list the greatest supports. -/
theorem transactionsNew_isTop {Q : Set (TopSupport D)} {T : List (TopSupport D)} {batch : Batch D}
    (h : IsTop (rank F) F.setting.maxTops Q (T.map (fair F)))
    (hold : ∀ s ∈ Q, ¬ isOld F s.time) (hids : (Q ∪ supports F batch).InjOn TopSupport.id)
    (hmeets : Meets F T batch) :
    ∃ T', transactionsNew F C T batch = .ok T' ∧
      IsTop (rank F) F.setting.maxTops (Q ∪ supports F batch) (T'.map (fair F)) := by
  have hrefresh : refresh F batch.wallet T = T.map (fair F) :=
    refresh_eq F batch.wallet
      fun s hs => hold (fair F s) (h.subset (fair F s) (List.mem_map_of_mem hs))
  unfold Meets at hmeets
  rw [hrefresh] at hmeets
  generalize hU : T.map (fair F) = U at h hrefresh hmeets
  have hfair : U.map (fair F) = U := by
    rw [← hU, List.map_map]
    exact List.map_congr_left (fun s _ => fair_fair F s)
  have hnodup : (U.map TopSupport.id).Nodup := by
    refine List.Nodup.map_on ?_ h.nodup
    intro a ha b hb
    exact hids (Or.inl (h.subset a ha)) (Or.inl (h.subset b hb))
  obtain ⟨loop, A, hloop, hinv⟩ := (LoopInv.start (w := batch.wallet) hfair hnodup).run hids
    batch.transactions.reverse
    (fun t ht hq s hs => Or.inr ⟨t, List.mem_reverse.mp ht, hq, hs⟩) (by simp)
  rw [List.nil_append] at hinv
  refine ⟨trim F.setting.maxTops (C.sort compareSupports loop.topSupports), ?_, ?_⟩
  · rw [transactionsNew, hrefresh, hloop]
    rfl
  -- the sorted list holds what was in the list and what was added
  have hperm : ((C.sort compareSupports loop.topSupports).map (fair F)).Perm (U ++ A) := by
    rw [← hinv.supports]
    exact (C.perm compareSupports loop.topSupports).map (fair F)
  rw [trim_eq_take, List.map_take]
  apply IsTop.absorb (hinv.sorted C hmeets.place) (hperm.nodup_iff.mpr hinv.nodup.of_map) h
  · intro s hs
    exact hperm.mem_iff.mpr (List.mem_append_left A hs)
  · intro s hs
    exact (List.mem_append.mp (hperm.mem_iff.mp hs)).imp_right (hinv.added_supports s)
  · intro s hs
    apply (hinv.kept_supports hmeets h.subset hids s hs).imp hperm.mem_iff.mpr
    intro habove
    exact habove.mono (fun a ha => hperm.mem_iff.mpr ha)

/-! ## Runs -/

theorem runMeets_of_append {T : List (TopSupport D)} {before after : List (Batch D)}
    (h : RunMeets F C T (before ++ after)) : RunMeets F C T before := by
  induction before generalizing T with
  | nil => trivial
  | cons batch before ih => exact ⟨h.1, fun T' hT' => ih (h.2 T' hT')⟩

theorem processed_cons (batch : Batch D) (batches : List (Batch D)) :
    processed F (batch :: batches) = supports F batch ∪ processed F batches := by
  ext s
  simp [processed]

theorem run_isTop {Q : Set (TopSupport D)} {T : List (TopSupport D)} (batches : List (Batch D))
    (h : IsTop (rank F) F.setting.maxTops Q (T.map (fair F)))
    (hold : ∀ s ∈ Q, ¬ isOld F s.time) (hids : (Q ∪ processed F batches).InjOn TopSupport.id)
    (hmeets : RunMeets F C T batches) :
    ∃ T', batches.foldlM (transactionsNew F C) T = .ok T' ∧
      IsTop (rank F) F.setting.maxTops (Q ∪ processed F batches) (T'.map (fair F)) := by
  induction batches generalizing Q T with
  | nil =>
    have hnone : processed F [] = ∅ := by
      ext s
      simp [processed]
    rw [hnone, Set.union_empty]
    exact ⟨T, rfl, h⟩
  | cons batch batches ih =>
    rw [processed_cons, ← Set.union_assoc] at hids ⊢
    obtain ⟨T₁, hstep, hT₁⟩ := transactionsNew_isTop F C h hold
      (hids.mono Set.subset_union_left) hmeets.1
    have hold₁ : ∀ s ∈ Q ∪ supports F batch, ¬ isOld F s.time := by
      intro s hs
      cases hs with
      | inl hs => exact hold s hs
      | inr hs =>
        obtain ⟨t, -, hq, hsupport⟩ := hs
        rw [(newSupport_fields F batch.wallet hsupport).2.2.1]
        exact hq.1
    obtain ⟨T', hrun, hT'⟩ := ih hT₁ hold₁ hids (hmeets.2 T₁ hstep)
    refine ⟨T', ?_, hT'⟩
    rw [List.foldlM_cons, hstep]
    exact hrun

/-- In a run whose batches meet the condition the list is, after every one of them, the greatest
    of all the supports by their volume and then their time. An id belongs to one support. -/
theorem isTop_run (batches : List (Batch D)) (hids : (processed F batches).InjOn TopSupport.id)
    (hmeets : RunMeets F C [] batches) {before after : List (Batch D)}
    (hbatches : batches = before ++ after) :
    ∃ T, run F C before = .ok T ∧
      IsTop (rank F) F.setting.maxTops (processed F before) (T.map (fair F)) := by
  subst hbatches
  have hsub : processed F before ⊆ processed F (before ++ after) := by
    intro s hs
    obtain ⟨batch, hbatch, hmem⟩ := hs
    exact ⟨batch, List.mem_append_left after hbatch, hmem⟩
  have h := run_isTop F C (Q := ∅) (T := []) before Greatest.isTop_empty (by simp)
    (by rw [Set.empty_union]; exact hids.mono hsub) (runMeets_of_append F C hmeets)
  rw [Set.empty_union] at h
  exact h

end Run

/-! ## Two batches -/

/-- Insertion sort. -/
def insertion (α : Type) : Sorting α where
  sort cmp l := l.insertionSort fun a b => cmp a b ≠ .gt
  perm cmp l := List.perm_insertionSort _ l
  sorted cmp l htotal htrans := by
    have total : Std.Total fun a b => cmp a b ≠ .gt := ⟨htotal⟩
    have trans : IsTrans α fun a b => cmp a b ≠ .gt := ⟨htrans⟩
    exact List.pairwise_insertionSort _ l

/-- One coin at the price 1, and two places. -/
def sample : Fixed Int := ⟨⟨2, 30, 10, 10⟩, 0, fun _ => 1, false⟩

def sampleTransaction (id : String) (amount : Int) : Transaction Int := ⟨id, amount, 0, none⟩

def sampleSupport (id : String) (amount : Int) : TopSupport Int :=
  ⟨"A", id, none, none, amount, amount, "a", 0, 2⟩

/-- A batch of the transactions with the amounts given. -/
def sampleBatch (amounts : List (String × Int)) : Batch Int :=
  ⟨⟨"A", "a", 2, 1⟩, amounts.map fun t => some (sampleTransaction t.1 t.2)⟩

theorem run_sample : run sample (insertion _) [sampleBatch [("x", 3), ("y", 5)]] =
    .ok [sampleSupport "y" 5] := by
  have hloop : (sampleBatch [("x", 3), ("y", 5)]).transactions.reverse.foldlM
      (addTransaction sample (sampleBatch [("x", 3), ("y", 5)]).wallet) ⟨[], none⟩ =
        .ok ⟨[sampleSupport "y" 5], some (sampleSupport "y" 5)⟩ := by
    rfl
  have hrefresh : refresh sample (sampleBatch [("x", 3), ("y", 5)]).wallet [] = [] := rfl
  have hstep : transactionsNew sample (insertion _) [] (sampleBatch [("x", 3), ("y", 5)]) =
      .ok (trim 2 [sampleSupport "y" 5]) := by
    rw [transactionsNew, hrefresh]
    simp only [List.getLast?_nil]
    rw [hloop]
    rfl
  rw [run, List.foldlM_cons, hstep, trim_eq_take]
  rfl

theorem mem_processed_sample {amounts : List (String × Int)} {s : TopSupport Int} :
    s ∈ processed sample [sampleBatch amounts] ↔
      ∃ t ∈ amounts, 1 ≤ t.2 ∧ s = sampleSupport t.1 t.2 := by
  have hnew : ∀ t : String × Int, newSupport sample (sampleBatch amounts).wallet
      (sampleTransaction t.1 t.2) = .ok ⟨"A", t.1, none, none, t.2, t.2 * 1, "a", 0, 2⟩ :=
    fun t => rfl
  have hq : ∀ t : String × Int, Qualifies sample (sampleBatch amounts).wallet
      (sampleTransaction t.1 t.2) ↔ 1 ≤ t.2 := by
    intro t
    simp [Qualifies, isOld, sample, sampleBatch, sampleTransaction, ticksPerDay]
  constructor
  · intro h
    obtain ⟨batch, hbatch, t, ht, hqualifies, hsupport⟩ := h
    rw [List.mem_singleton.mp hbatch] at ht hqualifies hsupport
    obtain ⟨t', ht', heq⟩ := List.mem_map.mp ht
    cases heq
    rw [hnew, Int.mul_one] at hsupport
    cases hsupport
    exact ⟨t', ht', (hq t').mp hqualifies, rfl⟩
  · intro h
    obtain ⟨t, ht, hle, hs⟩ := h
    refine ⟨_, List.mem_singleton_self _, _, List.mem_map_of_mem ht, (hq t).mpr hle, ?_⟩
    rw [hnew, Int.mul_one, hs]
    rfl

/-- The smaller one of two transactions is not in the list, though it has two places. -/
theorem not_isTop_sample : ¬ ∃ T, run sample (insertion _) [sampleBatch [("x", 3), ("y", 5)]] =
    .ok T ∧ IsTop (rank sample) sample.setting.maxTops
      (processed sample [sampleBatch [("x", 3), ("y", 5)]]) (T.map (fair sample)) := by
  intro h
  obtain ⟨T, hrun, htop⟩ := h
  rw [run_sample] at hrun
  cases hrun
  have hmem : sampleSupport "x" 3 ∈ processed sample [sampleBatch [("x", 3), ("y", 5)]] :=
    mem_processed_sample.mpr ⟨("x", 3), by simp, by decide, rfl⟩
  have hnot : sampleSupport "x" 3 ∉ [sampleSupport "y" 5].map (fair sample) := by
    simp [sampleSupport, fair]
  exact absurd (htop.outranked _ hmem hnot).1 (by decide)

/-- Where the greater one comes after the smaller one both are kept. -/
theorem isTop_sample : ∃ T, run sample (insertion _) [sampleBatch [("y", 5), ("x", 3)]] = .ok T ∧
    IsTop (rank sample) sample.setting.maxTops
      (processed sample [sampleBatch [("y", 5), ("x", 3)]]) (T.map (fair sample)) := by
  have hfresh : fresh sample (sampleBatch [("y", 5), ("x", 3)]).wallet []
      (sampleBatch [("y", 5), ("x", 3)]).transactions.reverse =
        [sampleTransaction "x" 3, sampleTransaction "y" 5] := by rfl
  have hids : (processed sample [sampleBatch [("y", 5), ("x", 3)]]).InjOn TopSupport.id := by
    intro a ha b hb hid
    obtain ⟨t, ht, -, hs⟩ := mem_processed_sample.mp ha
    obtain ⟨t', ht', -, hs'⟩ := mem_processed_sample.mp hb
    rw [hs, hs'] at hid ⊢
    simp only [List.mem_cons, List.not_mem_nil, or_false] at ht ht'
    cases ht with
    | inl ht =>
      cases ht' with
      | inl ht' => rw [ht, ht']
      | inr ht' => rw [ht, ht'] at hid; exact absurd hid (by decide)
    | inr ht =>
      cases ht' with
      | inl ht' => rw [ht, ht'] at hid; exact absurd hid (by decide)
      | inr ht' => rw [ht, ht']
  have hmeets : Meets sample [] (sampleBatch [("y", 5), ("x", 3)]) := by
    have hrefresh : refresh sample (sampleBatch [("y", 5), ("x", 3)]).wallet [] = [] := rfl
    rw [Meets, hrefresh, hfresh]
    constructor
    case place =>
      intro _ x hx
      cases hx
    case leads =>
      intro t ht
      apply Or.inl
      cases List.mem_cons.mp ht with
      | inl ht => exact ⟨[], by simp [ht], trivial, by simp⟩
      | inr ht =>
        refine ⟨[sampleTransaction "x" 3], by simp [List.mem_singleton.mp ht], trivial, ?_⟩
        intro r hr
        rw [List.mem_singleton.mp hr, List.mem_singleton.mp ht]
        decide
  exact isTop_run sample (insertion _) [sampleBatch [("y", 5), ("x", 3)]] hids
    ⟨hmeets, fun _ _ => trivial⟩ (List.append_nil _).symm

end TotalPanel
