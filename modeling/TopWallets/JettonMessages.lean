import TopWallets.Coins

/- The bodies of jetton messages: `JettonController.Transfer`, `.Burn` and
   `.InternalMessage` write them, `GetTransactionsQuery.GetTransactions` reads them.

   The fields stay aligned for every query id; the amount is read as it was written
   exactly when it is below 2 ^ 119 (`bodies_recover_iff`). From there on `StoreCoins` cuts
   its length, and the reader takes at most a zero byte for the amount.

   Correspondence (C# ↔ Lean):
     `WalletType`, `TransactionType`        ↔ `WalletType`, the values in `TransactionType`
     `InternalMessage`, `Burn`, `Transfer`  ↔ the functions of `JettonController`
     the `switch` in `GetTransactions`      ↔ `GetTransactionsQuery.shownType`
     what the loop reads of a raw message   ↔ `GetTransactionsQuery.readBody`
   A `TransactionType` is a `uint` of any value. The body reaches the reader as a bag
   of cells, from which it gets the cell that was written. -/
namespace Ton

inductive WalletType where
  | empty | unknown | giver | walletV1 | walletV1Ext | walletV2 | walletV3 | walletV4
  | highloadWalletV1 | highloadWalletV2 | manualDns | multisig | paymentChannel | restrictedWallet
  | nftCollection | nftItem | nftSingle | nftMarketplace | nftSale | jettonMinter | jettonWallet
  deriving DecidableEq, Repr

namespace TransactionType

def none : Nat := 0
def mint : Nat := 21
def transfer : Nat := 0xf8a7ea5
def transferNotification : Nat := 0x7362d09c
def internalTransfer : Nat := 0x178d4519
def burn : Nat := 0x595f07bc
def burnNotification : Nat := 0x7bdd97de

end TransactionType

namespace JettonController
open CellBuilder

/-- A hundredth of 10 ^ 9 nanograms. -/
def internalGas : BitVec 128 := 10000000

/-- A thousandth of them. -/
def transferFee : BitVec 128 := 1000000

section Bodies
variable (unset : Block.StdAddress)

def internalMessage (queryId : BitVec 64) (owner : Option (List Char)) (jettonValue : BitVec 128) :
    Except Exception Cell :=
  let b := store TransactionType.internalTransfer 32 begin
  let b := store queryId.toInt 64 b
  let b := storeCoins jettonValue b
  let b := storeAddress unset owner b
  let b := storeAddress unset owner b
  let b := storeCoins internalGas b
  let b := storeBool false b
  finish b

def burn (queryId : BitVec 64) (jettonAmount : BitVec 128) (responseAddress : Option (List Char)) :
    Except Exception Cell :=
  let b := store TransactionType.burn 32 begin
  let b := store queryId.toInt 64 b
  let b := storeCoins jettonAmount b
  let b := storeAddress unset responseAddress b
  let b := storeDict none b
  finish b

def transfer (queryId : BitVec 64) (toAddress fromAddress : Option (List Char))
    (jettonAmount : BitVec 128) : Except Exception Cell :=
  let b := store TransactionType.transfer 32 begin
  let b := store queryId.toInt 64 b
  let b := storeCoins jettonAmount b
  let b := storeAddress unset toAddress b
  let b := storeAddress unset fromAddress b
  let b := storeDict none b
  let b := storeCoins transferFee b
  let b := storeBool false b
  finish b

end Bodies

end JettonController

namespace GetTransactionsQuery

/-- The type and the direction a message is shown with. -/
def shownType (walletType : WalletType) (isOut : Bool) (type : Nat) : Nat × Bool :=
  if type = TransactionType.transfer then
    if walletType = .jettonWallet ∧ isOut = false then (TransactionType.none, isOut)
    else (type, isOut)
  else if type = TransactionType.internalTransfer then
    if walletType = .jettonMinter then (TransactionType.mint, !isOut) else (type, isOut)
  else if type = TransactionType.transferNotification then
    if walletType = .jettonWallet then (TransactionType.none, isOut) else (type, isOut)
  else if type = TransactionType.burnNotification then
    if walletType = .jettonMinter then (TransactionType.burn, !isOut) else (type, isOut)
  else if type = TransactionType.burn then
    if walletType = .jettonWallet ∧ isOut = false ∨ walletType = .jettonMinter then
      (TransactionType.none, isOut)
    else (type, isOut)
  else (TransactionType.none, isOut)

/-- What is read of the body of a message. -/
structure Body where
  msgtype : Nat
  type : Nat
  isOut : Bool
  queryId : Int
  amount : Option (BitVec 128)

/-- Of a message that is shown with a type the amount is read as well. -/
def readBody (walletType : WalletType) (isOut : Bool) (slice : Slice) : Except Exception Body :=
  let (msgtype, slice) := Slice.loadUint 32 slice
  let (type, isOut) := shownType walletType isOut msgtype
  let (queryId, slice) :=
    if msgtype ≠ TransactionType.none then Slice.loadLong 64 slice else (0, slice)
  if type ≠ TransactionType.none then do
    let (amount, _) ← Slice.loadCoins slice
    return ⟨msgtype, type, isOut, queryId, some amount⟩
  else .ok ⟨msgtype, type, isOut, queryId, none⟩

/-- Whoever reads the body gets the operation and the query id, and the amount where it is read. -/
def Recovers (op : Nat) (queryId : BitVec 64) (amount : BitVec 128)
    (message : Except Exception Cell) : Prop :=
  ∃ cell, message = .ok cell ∧ ∀ walletType isOut, ∃ body,
    readBody walletType isOut cell.toSlice = .ok body ∧ body.msgtype = op ∧
      body.queryId = queryId.toInt ∧ (body.type ≠ TransactionType.none → body.amount = some amount)

/-! ## Reading -/

/-- The fields a body starts with. -/
def headBits (op : Nat) (queryId : BitVec 64) (amount : BitVec 128) : List Bool :=
  (BitField.ofNat 32 op ++ BitField.ofNat 64 queryId.toNat) ++ coinsBits amount.toNat

/-- What is read of a body that starts with an operation, a query id and an amount. -/
theorem readBody_headBits {op : Nat} (hop : op < 2 ^ 32) (hne : op ≠ TransactionType.none)
    (walletType : WalletType) (isOut : Bool) (queryId : BitVec 64) (amount : BitVec 128)
    (rest : List Bool) (refs : List Cell) :
    readBody walletType isOut ⟨headBits op queryId amount ++ rest, refs⟩ =
      if (shownType walletType isOut op).1 ≠ TransactionType.none then do
        let (amount, _) ← Slice.loadCoins ⟨coinsBits amount.toNat ++ rest, refs⟩
        return ⟨op, (shownType walletType isOut op).1, (shownType walletType isOut op).2,
          queryId.toInt, some amount⟩
      else .ok ⟨op, (shownType walletType isOut op).1, (shownType walletType isOut op).2,
        queryId.toInt, none⟩ := by
  have hbits : headBits op queryId amount ++ rest = BitField.ofNat 32 op ++
      (BitField.ofNat 64 queryId.toNat ++ (coinsBits amount.toNat ++ rest)) := by
    simp only [headBits, List.append_assoc]
  rw [readBody, hbits, loadUint_ofNat hop]
  simp only [if_pos hne, loadLong_ofNat]

/-- A body that is read with its amount by someone recovers exactly the amounts below 2 ^ 119. -/
theorem recovers_iff_lt {op : Nat} (hop : op < 2 ^ 32) (hne : op ≠ TransactionType.none)
    (hshown : ∃ walletType isOut, (shownType walletType isOut op).1 ≠ TransactionType.none)
    (queryId : BitVec 64) (amount : BitVec 128) {message : Except Exception Cell}
    {rest : List Bool} {refs : List Cell}
    (hmessage : message = .ok (.mk (headBits op queryId amount ++ rest) refs)) :
    Recovers op queryId amount message ↔ amount.toNat < 2 ^ 119 := by
  constructor
  · rintro ⟨cell, hcell, hreads⟩
    obtain rfl := Except.ok.inj (hmessage.symm.trans hcell)
    obtain ⟨walletType, isOut, htype⟩ := hshown
    obtain ⟨body, hbody, -, -, hamount⟩ := hreads walletType isOut
    by_contra hlarge
    obtain ⟨value, s, hvalue, hdiff⟩ := loadCoins_coinsBits_cut (Nat.le_of_not_lt hlarge) rest refs
    rw [Cell.toSlice_mk, readBody_headBits hop hne, if_pos htype, hvalue] at hbody
    obtain rfl := Except.ok.inj hbody
    exact hdiff (Option.some.inj (hamount htype))
  · intro hlt
    refine ⟨_, hmessage, fun walletType isOut => ?_⟩
    rw [Cell.toSlice_mk, readBody_headBits hop hne, loadCoins_coinsBits hlt]
    split
    · exact ⟨_, rfl, rfl, rfl, fun _ => rfl⟩
    · next htype => exact ⟨_, rfl, rfl, rfl, fun h => absurd h htype⟩

/-! ## The three bodies -/

section Bodies
open CellBuilder JettonController

theorem appends_headBits {op : Nat} (queryId : BitVec 64) (amount : BitVec 128) :
    Appends (fun b => storeCoins amount (store queryId.toInt 64 (store op 32 b)))
      (headBits op queryId amount) :=
  ((Appends.storeNat op 32 (by decide)).comp (Appends.storeLong queryId)).comp
    (appends_storeCoins amount)

theorem length_headBits_le (op : Nat) (queryId : BitVec 64) (amount : BitVec 128) :
    (headBits op queryId amount).length ≤ 236 := by
  have hlen := length_coinsBits_le amount
  simp only [headBits, List.length_append, BitField.length_ofNat]
  omega

variable (unset : Block.StdAddress)

/-- A body: its head, and what is appended to it in no more than 700 bits. -/
theorem finish_headBits (op : Nat) (queryId : BitVec 64) (amount : BitVec 128)
    {f : Vm.CellBuilder → Vm.CellBuilder} {rest : List Bool} (hf : Appends f rest)
    (hlen : rest.length ≤ 700) :
    finish (f (storeCoins amount (store queryId.toInt 64 (store op 32 begin)))) =
      .ok (.mk (headBits op queryId amount ++ rest) []) := by
  have hhead := length_headBits_le op queryId amount
  refine finish_begin ((appends_headBits queryId amount).comp hf) ?_
  rw [List.length_append, Vm.maxBits]
  omega

theorem internalMessage_eq (queryId : BitVec 64) (owner : Option (List Char))
    (jettonValue : BitVec 128) : ∃ rest, internalMessage unset queryId owner jettonValue =
      .ok (.mk (headBits TransactionType.internalTransfer queryId jettonValue ++ rest) []) := by
  have howner := length_storedAddress_le unset owner
  have hgas := length_coinsBits_le internalGas
  have htail := (((appends_storeAddress unset owner).comp (appends_storeAddress unset owner)).comp
    (appends_storeCoins internalGas)).comp (Appends.storeBool false)
  have hcell := finish_headBits TransactionType.internalTransfer queryId jettonValue htail
    (by simp only [List.length_append, List.length_singleton]; omega)
  exact ⟨_, hcell⟩

theorem burn_eq (queryId : BitVec 64) (jettonAmount : BitVec 128)
    (responseAddress : Option (List Char)) :
    ∃ rest, burn unset queryId jettonAmount responseAddress =
      .ok (.mk (headBits TransactionType.burn queryId jettonAmount ++ rest) []) := by
  have hresponse := length_storedAddress_le unset responseAddress
  have htail := (appends_storeAddress unset responseAddress).comp Appends.storeDict_none
  have hcell := finish_headBits TransactionType.burn queryId jettonAmount htail
    (by simp only [List.length_append, List.length_singleton]; omega)
  exact ⟨_, hcell⟩

theorem transfer_eq (queryId : BitVec 64) (toAddress fromAddress : Option (List Char))
    (jettonAmount : BitVec 128) :
    ∃ rest, transfer unset queryId toAddress fromAddress jettonAmount =
      .ok (.mk (headBits TransactionType.transfer queryId jettonAmount ++ rest) []) := by
  have hto := length_storedAddress_le unset toAddress
  have hfrom := length_storedAddress_le unset fromAddress
  have hfee := length_coinsBits_le transferFee
  have htail := ((((appends_storeAddress unset toAddress).comp
    (appends_storeAddress unset fromAddress)).comp Appends.storeDict_none).comp
    (appends_storeCoins transferFee)).comp (Appends.storeBool false)
  have hcell := finish_headBits TransactionType.transfer queryId jettonAmount htail
    (by simp only [List.length_append, List.length_singleton]; omega)
  exact ⟨_, hcell⟩

/-- Each of the three bodies is recovered exactly when its amount is below 2 ^ 119, whatever the
query id and the addresses. -/
theorem bodies_recover_iff (queryId : BitVec 64) (amount : BitVec 128)
    (owner responseAddress toAddress fromAddress : Option (List Char)) :
    (Recovers TransactionType.internalTransfer queryId amount
      (internalMessage unset queryId owner amount) ↔ amount.toNat < 2 ^ 119) ∧
    (Recovers TransactionType.burn queryId amount
      (burn unset queryId amount responseAddress) ↔ amount.toNat < 2 ^ 119) ∧
    (Recovers TransactionType.transfer queryId amount
      (transfer unset queryId toAddress fromAddress amount) ↔ amount.toNat < 2 ^ 119) := by
  obtain ⟨_, hinternal⟩ := internalMessage_eq unset queryId owner amount
  obtain ⟨_, hburn⟩ := burn_eq unset queryId amount responseAddress
  obtain ⟨_, htransfer⟩ := transfer_eq unset queryId toAddress fromAddress amount
  refine ⟨?_, ?_, ?_⟩
  · exact recovers_iff_lt (by decide) (by decide) ⟨.walletV3, true, by decide⟩ queryId amount
      hinternal
  · exact recovers_iff_lt (by decide) (by decide) ⟨.walletV3, true, by decide⟩ queryId amount hburn
  · exact recovers_iff_lt (by decide) (by decide) ⟨.walletV3, true, by decide⟩ queryId amount
      htransfer

end Bodies

/-- A transfer of 2 ^ 119 is read as one of nothing. -/
theorem not_recovers_large :
    ¬ Recovers TransactionType.transfer 1 (BitVec.ofNat 128 (2 ^ 119))
      (JettonController.transfer ⟨Block.workchainInvalid, true, false, List.replicate 32 0, rfl⟩ 1
        (some ("0:".toList ++ List.replicate 64 '0')) (some ("0:".toList ++ List.replicate 64 '1'))
        (BitVec.ofNat 128 (2 ^ 119))) := by
  intro h
  obtain ⟨_, htransfer⟩ := transfer_eq
    ⟨Block.workchainInvalid, true, false, List.replicate 32 0, rfl⟩ 1
    (some ("0:".toList ++ List.replicate 64 '0')) (some ("0:".toList ++ List.replicate 64 '1'))
    (BitVec.ofNat 128 (2 ^ 119))
  have hlt := (recovers_iff_lt (by decide) (by decide) ⟨.walletV3, true, by decide⟩ 1 _
    htransfer).1 h
  exact absurd hlt (by decide)

end GetTransactionsQuery
end Ton
