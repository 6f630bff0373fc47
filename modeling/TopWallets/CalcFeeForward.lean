import Mathlib
import TopWallets.OutActions

/- Forwarding fees of the messages a transaction sends: `calc_fwd_fees` of `CalcFee.cpp`.

   The output actions are a chain of cells, each an action and, in its first reference, the
   actions before it, down to an empty cell (`chain`). The code collects the cells, newest
   action first, and then adds the fees by index, oldest action first. It ends with an error
   exactly at the chains that are `Rejected`, and else with the sum of the fees over the
   chain, in a signed 64-bit number (`calcFwdFees_eq`).

   Correspondence (C++ ↔ Lean):
     the `while` loop of `calc_fwd_fees` ↔ `collectActions`
     the body of its `for` loop          ↔ `addActionFees`, `sendMsgFees`, `destIsMasterchain`
     its `for` loop                      ↔ `addFeesBelow`
     `calc_fwd_fees`                     ↔ `calcFwdFees` -/
namespace CalcFee
open Block

/-- The errors, in the order of the code; `check` is a `CHECK` that fails. -/
inductive FwdFeeError where
  | noNextReference | tooLong | setCode | cantParse | externalAddress | check
  deriving DecidableEq

def maxActions : Nat := 20

/-- The cells of the chain, with room for so many more actions. -/
def collectActions (room : Nat) (list : Cell) : Except FwdFeeError (List Cell) :=
  if emptyExt list.toSlice then .ok [list]
  else
    match room, list.refs with
    | _, [] => .error .noNextReference
    | 0, _ :: _ => .error .tooLong
    | room + 1, next :: _ => (collectActions room next).map (list :: ·)

/-- `dest_is_masterchain`, of the message's info. -/
def destIsMasterchain (info : Slice) : Except FwdFeeError Bool :=
  if prefetchUlong 1 info = some 0 then
    match unpackIntMsgInfo info with
    | none => .error .cantParse
    | some dest =>
      if prefetchUlong 1 dest = some 0 then .error .externalAddress
      else if bselect 2 12 dest = some 0 then
        match unpackAddrStd dest with
        | none => .error .cantParse
        | some workchain => .ok (workchain == -1)
      else .ok false
  else .ok false

/-- `CellStorageStat` after some slices are added, and `compute_fwd_fees` of the masterchain's
    prices or the basechain's, of cells and bits. -/
structure MsgPricing where
  usedStorage : List Slice → UInt64 × UInt64
  computeFwdFees : Bool → UInt64 → UInt64 → UInt64

variable (pricing : MsgPricing) (isMasterchain : Bool)

/-- The fee of the message in an action, of the slice after its first reference. -/
def sendMsgFees (cs : Slice) : Except FwdFeeError UInt64 :=
  match OutAction.unpackSendMsg cs with
  | none => .error .cantParse
  | some (mode, outMsg) =>
    -- the bits of a mode outside `0xe3` are those of `0x1c`
    if mode &&& 0x1c ≠ 0 ∨ mode &&& 0xc0 = 0xc0 then .error .cantParse
    else
      match unpackMessageRelaxed outMsg with
      | none => .error .cantParse
      | some msg => do
        let toMasterchain ← destIsMasterchain msg.info
        let (cells, bits) := pricing.usedStorage [msg.init, msg.body]
        .ok (pricing.computeFwdFees (isMasterchain || toMasterchain) cells bits)

/-- The `switch` over the tag. -/
def addActionFees (cs : Slice) (res : Int64) : Except FwdFeeError Int64 :=
  match OutAction.getTag cs with
  | none => .error .check
  | some .setCode => .error .setCode
  | some .sendMsg => do .ok (res + (← sendMsgFees pricing isMasterchain cs).toInt64)
  | some .reserveCurrency => .ok res
  | some .changeLibrary => .ok res

/-- The loop over the actions below an index, from the last one down. -/
def addFeesBelow (actions : List Cell) : Nat → Int64 → Except FwdFeeError Int64
  | 0, res => .ok res
  | i + 1, res =>
    match (actions[i]?).map (Vm.fetchRef ·.toSlice) with
    | some (some _, cs) => do
      addFeesBelow actions i (← addActionFees pricing isMasterchain cs res)
    | _ => .error .check

def calcFwdFees (list : Cell) : Except FwdFeeError Int64 := do
  let actions ← collectActions maxActions list
  addFeesBelow pricing isMasterchain actions (actions.length - 1) 0

/-! ## What the chain says -/

/-- The entries of a chain without their first references, newest first, and the data of the
    cell that ends it. -/
def chain : Cell → List Slice × List Bool
  | .mk bits [] => ([], bits)
  | .mk bits (prev :: refs) => (⟨bits, refs⟩ :: (chain prev).1, (chain prev).2)

/-- The entry is one of the four actions. -/
def KnownTag (entry : Slice) : Prop := ∃ action, OutAction.HasTag action entry

/-- The message of a send that is well formed. -/
def sentMessage (entry : Slice) : Option MessageRelaxed := do
  let (mode, outMsg) ← OutAction.unpackSendMsg entry
  if mode &&& 0x1c = 0 ∧ mode &&& 0xc0 ≠ 0xc0 then unpackMessageRelaxed outMsg else none

/-- The destination of an internal message. -/
def destination (msg : MessageRelaxed) : Option Slice := unpackIntMsgInfo msg.info

/-- `int_msg_info`; any other info is `ext_out_msg_info`. -/
def Internal (msg : MessageRelaxed) : Prop := prefetchUlong 1 msg.info = some 0

/-- The message has a destination, which is not external and, where it is standard, a whole
    address. -/
def Addressed (msg : MessageRelaxed) : Prop :=
  ∃ dest, destination msg = some dest ∧ prefetchUlong 1 dest ≠ some 0 ∧
    (bselect 2 12 dest = some 0 → (unpackAddrStd dest).isSome)

/-- What the code has a fee for: every external outbound message, and an internal one where
    its destination is in order. -/
def Charged (msg : MessageRelaxed) : Prop := Internal msg → Addressed msg

/-- The message goes to a standard address of the masterchain. -/
def toMasterchain (msg : MessageRelaxed) : Bool :=
  (destination msg).bind unpackAddrStd == some (-1)

/-- The fee of a message sent. -/
def messageFee (msg : MessageRelaxed) : UInt64 :=
  pricing.computeFwdFees (isMasterchain || toMasterchain msg)
    (pricing.usedStorage [msg.init, msg.body]).1 (pricing.usedStorage [msg.init, msg.body]).2

/-- The fee of an entry: of a send its message's, of the others none. -/
def entryFee (entry : Slice) : Nat :=
  if OutAction.HasTag .sendMsg entry then
    ((sentMessage entry).map (messageFee pricing isMasterchain)).elim 0 UInt64.toNat
  else 0

/-- The sum over the chain. -/
def fwdFees (list : Cell) : Nat := ((chain list).1.map (entryFee pricing isMasterchain)).sum

/-- An entry the code refuses: new code, or a send that cannot be parsed or is an internal
    message with a destination out of order. -/
def Refused (entry : Slice) : Prop :=
  OutAction.HasTag .setCode entry ∨
    OutAction.HasTag .sendMsg entry ∧ ¬ ∃ msg, sentMessage entry = some msg ∧ Charged msg

/-- A chain the code refuses: too long, ending in data without a next reference, or with an
    entry it refuses. -/
def Rejected (list : Cell) : Prop :=
  maxActions < (chain list).1.length ∨ (chain list).2 ≠ [] ∨ ∃ e ∈ (chain list).1, Refused e

/-- The result is an error of those the code reports. -/
def Reports {α : Type} (result : Except FwdFeeError α) : Prop :=
  ∃ error, result = .error error ∧ error ≠ .check

theorem Reports.bind {α β : Type} {result : Except FwdFeeError α} (h : Reports result)
    (f : α → Except FwdFeeError β) : Reports (result >>= f) := by
  obtain ⟨error, rfl, hne⟩ := h
  exact ⟨error, rfl, hne⟩

/-! ## One message -/

/-- A standard address begins with its tag. -/
theorem bselect_of_unpackAddrStd {dest : Slice} {workchain : Int}
    (h : unpackAddrStd dest = some workchain) : bselect 2 12 dest = some 0 := by
  unfold unpackAddrStd at h
  cases hfetch : Vm.fetchUlongBool 2 dest with
  | none => rw [hfetch] at h; cases h
  | some tagged =>
    obtain ⟨tag, rest⟩ := tagged
    rw [hfetch] at h
    by_cases htag : tag = 2
    · have hfront : prefetchUlong 2 dest = some 2 := by
        rw [prefetchUlong, hfetch, htag]
        rfl
      rw [bselect, hfront]
      decide
    · simp [htag] at h

/-- Only internal messages have a destination. -/
theorem prefetch_of_destination {msg : MessageRelaxed} {dest : Slice}
    (h : destination msg = some dest) : prefetchUlong 1 msg.info = some 0 := by
  unfold destination unpackIntMsgInfo at h
  cases hfetch : Vm.fetchUlongBool 1 msg.info with
  | none => rw [hfetch] at h; cases h
  | some tagged =>
    obtain ⟨tag, rest⟩ := tagged
    rw [hfetch] at h
    by_cases htag : tag = 0
    · rw [prefetchUlong, hfetch, htag]
      rfl
    · simp [htag] at h

theorem destIsMasterchain_ok {msg : MessageRelaxed} (h : Charged msg) :
    destIsMasterchain msg.info = .ok (toMasterchain msg) := by
  unfold destIsMasterchain
  by_cases hinternal : prefetchUlong 1 msg.info = some 0
  · obtain ⟨dest, hdest, hfirst, hstd⟩ := h hinternal
    have hunpack : unpackIntMsgInfo msg.info = some dest := hdest
    rw [if_pos hinternal, hunpack, toMasterchain, hdest]
    simp only [if_neg hfirst, Option.bind_some]
    by_cases hselect : bselect 2 12 dest = some 0
    · obtain ⟨workchain, hwc⟩ := Option.isSome_iff_exists.1 (hstd hselect)
      rw [if_pos hselect, hwc]
      rfl
    · -- an address of another kind is no standard one
      have hnone : unpackAddrStd dest = none := by
        cases hwc : unpackAddrStd dest with
        | none => rfl
        | some workchain => exact absurd (bselect_of_unpackAddrStd hwc) hselect
      rw [if_neg hselect, hnone]
      rfl
  · have hnone : destination msg = none := by
      cases hdest : destination msg with
      | none => rfl
      | some dest => exact absurd (prefetch_of_destination hdest) hinternal
    rw [if_neg hinternal, toMasterchain, hnone]
    rfl

theorem destIsMasterchain_reports {msg : MessageRelaxed} (h : ¬ Charged msg) :
    Reports (destIsMasterchain msg.info) := by
  unfold Charged Addressed at h
  push Not at h
  obtain ⟨hinternal, hdest⟩ := h
  have htag : prefetchUlong 1 msg.info = some 0 := hinternal
  unfold destIsMasterchain
  rw [if_pos htag]
  cases hunpack : unpackIntMsgInfo msg.info with
  | none => exact ⟨.cantParse, rfl, by decide⟩
  | some dest =>
    by_cases hfirst : prefetchUlong 1 dest = some 0
    · exact ⟨.externalAddress, by simp only [if_pos hfirst], by decide⟩
    · obtain ⟨hselect, hstd⟩ := hdest dest hunpack hfirst
      have hnone : unpackAddrStd dest = none := by simpa using hstd
      refine ⟨.cantParse, ?_, by decide⟩
      simp only [if_neg hfirst, if_pos hselect, hnone]

theorem sendMsgFees_of_sentMessage {cs : Slice} {msg : MessageRelaxed}
    (h : sentMessage cs = some msg) : sendMsgFees pricing isMasterchain cs = (do
      let toMasterchain ← destIsMasterchain msg.info
      let (cells, bits) := pricing.usedStorage [msg.init, msg.body]
      .ok (pricing.computeFwdFees (isMasterchain || toMasterchain) cells bits)) := by
  unfold sentMessage at h
  unfold sendMsgFees
  cases hunpack : OutAction.unpackSendMsg cs with
  | none => rw [hunpack] at h; cases h
  | some sent =>
    obtain ⟨mode, outMsg⟩ := sent
    rw [hunpack] at h
    by_cases hmode : mode &&& 0x1c = 0 ∧ mode &&& 0xc0 ≠ 0xc0
    · have hparse : unpackMessageRelaxed outMsg = some msg := by simpa [hmode] using h
      have hbad : ¬ (mode &&& 0x1c ≠ 0 ∨ mode &&& 0xc0 = 0xc0) := by tauto
      simp only [if_neg hbad, hparse]
    · simp [hmode] at h

theorem sendMsgFees_ok {cs : Slice} {msg : MessageRelaxed} (h : sentMessage cs = some msg)
    (hto : Charged msg) :
    sendMsgFees pricing isMasterchain cs = .ok (messageFee pricing isMasterchain msg) := by
  rw [sendMsgFees_of_sentMessage pricing isMasterchain h, destIsMasterchain_ok hto]
  rfl

theorem sendMsgFees_reports {cs : Slice}
    (h : ¬ ∃ msg, sentMessage cs = some msg ∧ Charged msg) :
    Reports (sendMsgFees pricing isMasterchain cs) := by
  cases hsent : sentMessage cs with
  | some msg =>
    rw [sendMsgFees_of_sentMessage pricing isMasterchain hsent]
    have hto : ¬ Charged msg := fun hto => h ⟨msg, hsent, hto⟩
    exact (destIsMasterchain_reports hto).bind _
  | none =>
    refine ⟨.cantParse, ?_, by decide⟩
    unfold sentMessage at hsent
    unfold sendMsgFees
    cases hunpack : OutAction.unpackSendMsg cs with
    | none => rfl
    | some sent =>
      obtain ⟨mode, outMsg⟩ := sent
      rw [hunpack] at hsent
      by_cases hmode : mode &&& 0x1c = 0 ∧ mode &&& 0xc0 ≠ 0xc0
      · have hparse : unpackMessageRelaxed outMsg = none := by simpa [hmode] using hsent
        have hbad : ¬ (mode &&& 0x1c ≠ 0 ∨ mode &&& 0xc0 = 0xc0) := by tauto
        simp only [if_neg hbad, hparse]
      · have hbad : mode &&& 0x1c ≠ 0 ∨ mode &&& 0xc0 = 0xc0 := by tauto
        simp only [if_pos hbad]

/-! ## One action -/

theorem toInt_add_toInt64 (res : Int64) (fee : UInt64) :
    (res + fee.toInt64).toInt = (res.toInt + (fee.toNat : Int)).bmod (2 ^ 64) := by
  have hfee : fee.toInt64.toInt = (fee.toNat : Int).bmod (2 ^ 64) := by
    rw [← Int64.toInt_toBitVec, UInt64.toBitVec_toInt64, BitVec.toInt_eq_toNat_bmod]
    rfl
  rw [Int64.toInt_add, hfee, Int.add_bmod_bmod]

theorem hasTag_unique {a b : OutAction} {entry : Slice} (ha : OutAction.HasTag a entry)
    (hb : OutAction.HasTag b entry) : a = b := by
  have hsame : some a = some b := by
    rw [← OutAction.getTag_of_hasTag ha, OutAction.getTag_of_hasTag hb]
  exact Option.some.inj hsame

theorem addActionFees_refused {entry : Slice} (h : Refused entry) (res : Int64) :
    Reports (addActionFees pricing isMasterchain entry res) := by
  unfold addActionFees
  obtain hcode | ⟨hsend, hbad⟩ := h
  · rw [OutAction.getTag_of_hasTag hcode]
    exact ⟨.setCode, rfl, by decide⟩
  · rw [OutAction.getTag_of_hasTag hsend]
    exact (sendMsgFees_reports pricing isMasterchain hbad).bind _

/-- Only sends cost a fee. -/
theorem entryFee_of_ne {action : OutAction} {entry : Slice} (h : OutAction.HasTag action entry)
    (hne : action ≠ .sendMsg) : entryFee pricing isMasterchain entry = 0 := by
  have hother : ¬ OutAction.HasTag .sendMsg entry := fun hsend => hne (hasTag_unique h hsend)
  rw [entryFee, if_neg hother]

theorem addActionFees_accepted {entry : Slice} (hknown : KnownTag entry) (h : ¬ Refused entry)
    (res : Int64) : ∃ res', addActionFees pricing isMasterchain entry res = .ok res' ∧
      res'.toInt = (res.toInt + (entryFee pricing isMasterchain entry : Int)).bmod (2 ^ 64) := by
  have hrange : res.toInt.bmod (2 ^ 64) = res.toInt := by
    have hlow := Int64.le_toInt res
    have hhigh := Int64.toInt_lt res
    apply Int.bmod_eq_of_le <;> omega
  obtain ⟨action, htag⟩ := hknown
  unfold addActionFees
  rw [OutAction.getTag_of_hasTag htag]
  cases action with
  | sendMsg =>
    have hgood : ∃ msg, sentMessage entry = some msg ∧ Charged msg := by
      by_contra hbad
      exact h (Or.inr ⟨htag, hbad⟩)
    obtain ⟨msg, hsent, hto⟩ := hgood
    refine ⟨res + (messageFee pricing isMasterchain msg).toInt64, ?_, ?_⟩
    · simp only [sendMsgFees_ok pricing isMasterchain hsent hto]
      rfl
    · rw [toInt_add_toInt64, entryFee, if_pos htag, hsent]
      rfl
  | setCode => exact absurd (Or.inl htag) h
  | changeLibrary =>
    have hfree := entryFee_of_ne pricing isMasterchain htag (by decide)
    exact ⟨res, rfl, by rw [hfree, Int.natCast_zero, Int.add_zero, hrange]⟩
  | reserveCurrency =>
    have hfree := entryFee_of_ne pricing isMasterchain htag (by decide)
    exact ⟨res, rfl, by rw [hfree, Int.natCast_zero, Int.add_zero, hrange]⟩

/-! ## The chain -/

/-- The fees of entries, from the oldest. -/
def addFees (entries : List Slice) (res : Int64) : Except FwdFeeError Int64 :=
  entries.foldrM (addActionFees pricing isMasterchain) res

theorem addFees_cons (entry : Slice) (entries : List Slice) (res : Int64) :
    addFees pricing isMasterchain (entry :: entries) res =
      addFees pricing isMasterchain entries res >>=
        addActionFees pricing isMasterchain entry := by
  rw [addFees, List.foldrM_cons]
  rfl

/-- The cell at index 0 is the last one to be added. -/
theorem addFeesBelow_cons (bits : List Bool) (prev : Cell) (refs actions : List Cell) (n : Nat)
    (res : Int64) :
    addFeesBelow pricing isMasterchain (.mk bits (prev :: refs) :: actions) (n + 1) res =
      addFeesBelow pricing isMasterchain actions n res >>=
        addActionFees pricing isMasterchain ⟨bits, refs⟩ := by
  induction n generalizing res with
  | zero =>
    change (addActionFees pricing isMasterchain ⟨bits, refs⟩ res >>= Except.ok) = _
    exact bind_pure _
  | succ n ih =>
    rw [addFeesBelow, addFeesBelow, List.getElem?_cons_succ]
    cases (actions[n]?).map (Vm.fetchRef ·.toSlice) with
    | none => rfl
    | some fetched =>
      obtain ⟨ref, cs⟩ := fetched
      cases ref with
      | none => rfl
      | some ref =>
        simp only [ih, bind_assoc]

theorem collectActions_end (room : Nat) :
    collectActions room (.mk [] []) = .ok [.mk [] []] := by
  unfold collectActions
  rfl

theorem collectActions_data (room : Nat) (bit : Bool) (bits : List Bool) :
    collectActions room (.mk (bit :: bits) []) = .error .noNextReference := by
  unfold collectActions
  cases room <;> rfl

theorem collectActions_zero (bits : List Bool) (prev : Cell) (refs : List Cell) :
    collectActions 0 (.mk bits (prev :: refs)) = .error .tooLong := by
  unfold collectActions
  cases bits <;> rfl

theorem collectActions_succ (room : Nat) (bits : List Bool) (prev : Cell) (refs : List Cell) :
    collectActions (room + 1) (.mk bits (prev :: refs)) =
      (collectActions room prev).map (.mk bits (prev :: refs) :: ·) := by
  conv_lhs => unfold collectActions
  cases bits <;> rfl

theorem collectActions_reports {room : Nat} {list : Cell}
    (h : room < (chain list).1.length ∨ (chain list).2 ≠ []) :
    Reports (collectActions room list) := by
  induction room generalizing list with
  | zero =>
    obtain ⟨bits, refs⟩ := list
    cases refs with
    | cons prev refs => exact ⟨.tooLong, collectActions_zero bits prev refs, by decide⟩
    | nil =>
      cases bits with
      | nil => simp [chain] at h
      | cons bit bits => exact ⟨.noNextReference, collectActions_data 0 bit bits, by decide⟩
  | succ room ih =>
    obtain ⟨bits, refs⟩ := list
    cases refs with
    | cons prev refs =>
      have hprev : room < (chain prev).1.length ∨ (chain prev).2 ≠ [] := by
        simpa [chain] using h
      obtain ⟨error, hcollect, hne⟩ := ih hprev
      exact ⟨error, by rw [collectActions_succ, hcollect]; rfl, hne⟩
    | nil =>
      cases bits with
      | nil => simp [chain] at h
      | cons bit bits =>
        exact ⟨.noNextReference, collectActions_data (room + 1) bit bits, by decide⟩

/-- The collected cells are one more than the entries, and going over them by index adds the
    fees of the entries. -/
theorem collectActions_ok {room : Nat} {list : Cell} (hlen : (chain list).1.length ≤ room)
    (hend : (chain list).2 = []) : ∃ actions, collectActions room list = .ok actions ∧
      actions.length = (chain list).1.length + 1 ∧
      ∀ res, addFeesBelow pricing isMasterchain actions (chain list).1.length res =
        addFees pricing isMasterchain (chain list).1 res := by
  induction room generalizing list with
  | zero =>
    obtain ⟨bits, refs⟩ := list
    cases refs with
    | cons prev refs => simp [chain] at hlen
    | nil =>
      have hbits : bits = [] := by simpa [chain] using hend
      rw [hbits]
      exact ⟨[.mk [] []], collectActions_end 0, by simp [chain], fun res => by simp [chain]; rfl⟩
  | succ room ih =>
    obtain ⟨bits, refs⟩ := list
    cases refs with
    | cons prev refs =>
      obtain ⟨actions, hcollect, hlength, hfees⟩ :=
        ih (by simpa [chain] using hlen) (by simpa [chain] using hend)
      refine ⟨.mk bits (prev :: refs) :: actions, ?_, ?_, ?_⟩
      · rw [collectActions_succ, hcollect]
        rfl
      · simp [chain, hlength]
      · intro res
        simp only [chain, List.length_cons]
        rw [addFeesBelow_cons, hfees, addFees_cons]
    | nil =>
      have hbits : bits = [] := by simpa [chain] using hend
      rw [hbits]
      exact ⟨[.mk [] []], collectActions_end _, by simp [chain], fun res => by simp [chain]; rfl⟩

/-! ## The sum -/

theorem addFees_accepted {entries : List Slice} (hknown : ∀ e ∈ entries, KnownTag e)
    (h : ¬ ∃ e ∈ entries, Refused e) :
    ∃ res, addFees pricing isMasterchain entries 0 = .ok res ∧
      res.toInt = ((entries.map (entryFee pricing isMasterchain)).sum : Int).bmod (2 ^ 64) := by
  induction entries with
  | nil => exact ⟨0, rfl, by simp⟩
  | cons entry entries ih =>
    obtain ⟨res, hadd, hres⟩ := ih (fun e he => hknown e (List.mem_cons_of_mem _ he))
      (fun ⟨e, he, hbad⟩ => h ⟨e, List.mem_cons_of_mem _ he, hbad⟩)
    obtain ⟨res', hadd', hres'⟩ := addActionFees_accepted pricing isMasterchain
      (hknown entry List.mem_cons_self) (fun hbad => h ⟨entry, List.mem_cons_self, hbad⟩) res
    refine ⟨res', ?_, ?_⟩
    · rw [addFees_cons, hadd]
      exact hadd'
    · rw [hres', hres, Int.bmod_add_bmod, List.map_cons, List.sum_cons, Nat.cast_add,
        Int.add_comm]

/-- An error at an entry is reported, or one before it is. -/
theorem addFees_refused {entries : List Slice} (hknown : ∀ e ∈ entries, KnownTag e)
    (h : ∃ e ∈ entries, Refused e) :
    Reports (addFees pricing isMasterchain entries 0) := by
  induction entries with
  | nil =>
    obtain ⟨e, he, -⟩ := h
    cases he
  | cons entry entries ih =>
    have htail : ∀ e ∈ entries, KnownTag e := fun e he => hknown e (List.mem_cons_of_mem _ he)
    rw [addFees_cons]
    by_cases hearlier : ∃ e ∈ entries, Refused e
    · exact (ih htail hearlier).bind _
    · obtain ⟨res, hadd, -⟩ := addFees_accepted pricing isMasterchain htail hearlier
      have hentry : Refused entry := by
        obtain ⟨e, he, hbad⟩ := h
        cases he with
        | head => exact hbad
        | tail _ he => exact absurd ⟨e, he, hbad⟩ hearlier
      rw [hadd]
      exact addActionFees_refused pricing isMasterchain hentry res

theorem calcFwdFees_rejected {list : Cell} (hknown : ∀ e ∈ (chain list).1, KnownTag e)
    (h : Rejected list) : Reports (calcFwdFees pricing isMasterchain list) := by
  unfold calcFwdFees
  by_cases hshape : maxActions < (chain list).1.length ∨ (chain list).2 ≠ []
  · exact (collectActions_reports hshape).bind _
  · have hlen : (chain list).1.length ≤ maxActions := by
      by_contra hlong
      exact hshape (Or.inl (by omega))
    have hend : (chain list).2 = [] := by
      by_contra hdata
      exact hshape (Or.inr hdata)
    obtain ⟨actions, hcollect, hlength, hfees⟩ :=
      collectActions_ok pricing isMasterchain hlen hend
    have hentry : ∃ e ∈ (chain list).1, Refused e := by
      obtain hlong | hdata | hentry := h
      · exact absurd (Or.inl hlong) hshape
      · exact absurd (Or.inr hdata) hshape
      · exact hentry
    have hsum := addFees_refused pricing isMasterchain hknown hentry
    rw [← hfees] at hsum
    rw [hcollect]
    change Reports (addFeesBelow pricing isMasterchain actions (actions.length - 1) 0)
    rwa [hlength, Nat.add_sub_cancel]

theorem calcFwdFees_ok {list : Cell} (hknown : ∀ e ∈ (chain list).1, KnownTag e)
    (h : ¬ Rejected list) : ∃ res, calcFwdFees pricing isMasterchain list = .ok res ∧
      res.toInt = (fwdFees pricing isMasterchain list : Int).bmod (2 ^ 64) := by
  unfold Rejected at h
  push Not at h
  obtain ⟨hlen, hend, hentries⟩ := h
  obtain ⟨actions, hcollect, hlength, hfees⟩ :=
    collectActions_ok pricing isMasterchain hlen hend
  have hnone : ¬ ∃ e ∈ (chain list).1, Refused e := fun ⟨e, he, hbad⟩ => hentries e he hbad
  obtain ⟨res, hadd, hres⟩ := addFees_accepted pricing isMasterchain hknown hnone
  refine ⟨res, ?_, hres⟩
  unfold calcFwdFees
  rw [hcollect]
  change addFeesBelow pricing isMasterchain actions (actions.length - 1) 0 = .ok res
  rw [hlength, Nat.add_sub_cancel, hfees, hadd]

/-- The code ends with an error it reports exactly at the chains it refuses, and else with the
    sum of the fees over the chain, as a signed 64-bit number. -/
theorem calcFwdFees_eq (list : Cell) (hknown : ∀ e ∈ (chain list).1, KnownTag e) :
    (Rejected list → Reports (calcFwdFees pricing isMasterchain list)) ∧
    (¬ Rejected list → ∃ res, calcFwdFees pricing isMasterchain list = .ok res ∧
      res.toInt = (fwdFees pricing isMasterchain list : Int).bmod (2 ^ 64) ∧
      (fwdFees pricing isMasterchain list < 2 ^ 63 →
        res.toInt = fwdFees pricing isMasterchain list)) := by
  constructor
  · exact calcFwdFees_rejected pricing isMasterchain hknown
  · intro h
    obtain ⟨res, hcalc, hres⟩ := calcFwdFees_ok pricing isMasterchain hknown h
    refine ⟨res, hcalc, hres, ?_⟩
    intro hsmall
    rw [hres]
    apply Int.bmod_eq_of_le <;> omega

/-- A message to the account 0 of a workchain of one byte, with nothing in it. -/
def messageTo (workchain : Nat) : Cell :=
  .mk ([false, true, true, false] ++ BitField.ofNat 2 0 ++ [true, false, false] ++
    BitField.ofNat 8 workchain ++ BitField.ofNat 256 0 ++ BitField.ofNat 111 0) []

/-- An external outbound message from and to nowhere, with nothing in it. -/
def outboundMessage : Cell :=
  .mk ([true, true] ++ BitField.ofNat 4 0 ++ BitField.ofNat 98 0) []

/-- A send in mode 3 after the actions of a chain. -/
def sendAfter (list outMsg : Cell) : Cell :=
  .mk (BitField.ofNat 32 (OutAction.consTag .sendMsg) ++ BitField.ofNat 8 3) [list, outMsg]

/-- A reserve of nothing after the actions of a chain. -/
def reserveAfter (list : Cell) : Cell :=
  .mk (BitField.ofNat 32 (OutAction.consTag .reserveCurrency) ++ BitField.ofNat 13 0) [list]

/-- A send to the masterchain, a reserve, a send to the basechain and an external outbound
    message. -/
def sampleList : Cell :=
  sendAfter (sendAfter (reserveAfter (sendAfter (.mk [] []) (messageTo 255))) (messageTo 0))
    outboundMessage

/-- A price for every message of the masterchain and one for those of the basechain. -/
def samplePricing (masterchainFee basechainFee : UInt64) : MsgPricing where
  usedStorage _ := (0, 0)
  computeFwdFees masterchain _ _ := if masterchain then masterchainFee else basechainFee

theorem sampleList_known : ∀ e ∈ (chain sampleList).1, KnownTag e := by
  intro e he
  simp only [sampleList, sendAfter, reserveAfter, chain, List.mem_cons, List.not_mem_nil,
    or_false] at he
  obtain rfl | rfl | rfl | rfl := he
  · exact ⟨.sendMsg, by decide⟩
  · exact ⟨.sendMsg, by decide⟩
  · exact ⟨.reserveCurrency, by decide⟩
  · exact ⟨.sendMsg, by decide⟩

/-- One send at the masterchain's price and two at the basechain's. -/
theorem calcFwdFees_sampleList :
    ∃ res, calcFwdFees (samplePricing 10000000 1000000) false sampleList = .ok res ∧
      res.toInt = 12000000 := by
  have hspec := calcFwdFees_eq (samplePricing 10000000 1000000) false sampleList sampleList_known
  have hcalc : calcFwdFees (samplePricing 10000000 1000000) false sampleList
      = .ok 12000000 := by
    decide +kernel
  have haccepted : ¬ Rejected sampleList := by
    intro hrejected
    obtain ⟨error, herror, -⟩ := hspec.1 hrejected
    rw [hcalc] at herror
    cases herror
  have hfees : fwdFees (samplePricing 10000000 1000000) false sampleList = 12000000 := by
    simp only [fwdFees, sampleList, sendAfter, reserveAfter, chain]
    decide +kernel
  obtain ⟨res, hres, -, hexact⟩ := hspec.2 haccepted
  rw [hfees] at hexact
  exact ⟨res, hres, hexact (by decide)⟩

/-- A fee of 2^63 leaves the result negative. -/
theorem not_calcFwdFees_exact :
    ¬ ∀ (pricing : MsgPricing) (isMasterchain : Bool) (list : Cell),
      (∀ e ∈ (chain list).1, KnownTag e) →
      Reports (calcFwdFees pricing isMasterchain list) ∨
      ∃ res, calcFwdFees pricing isMasterchain list = .ok res ∧
        res.toInt = fwdFees pricing isMasterchain list := by
  intro h
  have hcalc : calcFwdFees (samplePricing (2 ^ 63) 0) false sampleList
      = .ok (-9223372036854775808) := by decide +kernel
  obtain ⟨error, herror, -⟩ | ⟨res, hres, hsum⟩ :=
    h (samplePricing (2 ^ 63) 0) false sampleList sampleList_known
  · rw [hcalc] at herror
    cases herror
  · rw [hcalc] at hres
    have hnegative : res.toInt < 0 := by
      rw [← Except.ok.inj hres]
      decide
    omega

end CalcFee
