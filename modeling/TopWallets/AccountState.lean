import TopWallets.LoadAddress

/- Account states and the contracts behind them: `AccountState.h`, `AccountState.cpp` and
   `SmartContractCode.cpp`.

   The type of a contract is told by the hash of its code, among the revisions of every type,
   and else by what its get methods answer. Only eight of the types have a wallet that can
   build messages; for the others `getWallet` is null.

   Correspondence (C++ ↔ Lean):
     `SmartContractCode::get_revisions`    ↔ `WalletType.getRevisions`
     `AccountState::guess_revision`        ↔ `Contracts.guessRevision`
     `AccountState::guess_type`            ↔ `AccountState.guessType`
     `AccountState::get_wallet_type`       ↔ `AccountState.getWalletType`
     `AccountState::getWallet`             ↔ `AccountState.getWallet`
     `WalletInterface::get_max_gifts_size` ↔ `WalletContract.getMaxGiftsSize` -/
namespace Comx
open Block (StdAddress)

inductive ContractState where
  | uninitialized | initialized | created | frozen
  deriving DecidableEq

inductive WalletType where
  | empty | unknown | giver | walletV1 | walletV1Ext | walletV2 | walletV3 | walletV4
  | highloadWalletV1 | highloadWalletV2 | manualDns | multisig | paymentChannel
  | restrictedWallet | nftCollection | nftItem | nftSingle | nftMarketplace | nftSale
  | jettonMinter | jettonWallet
  deriving DecidableEq

namespace WalletType

def getRevisions : WalletType → List Int
  | walletV1 | walletV2 | walletV3 | walletV4 => [2, 1]
  | highloadWalletV1 | highloadWalletV2 => [-1, 1, 2]
  | manualDns => [-1, 1]
  | restrictedWallet => [1]
  | empty | unknown | giver => []
  | walletV1Ext | multisig | paymentChannel | nftCollection | nftItem | nftSingle
  | nftMarketplace | nftSale | jettonMinter | jettonWallet => [-1]

/-- The types that `guess_type` tries, in its order. -/
def guessOrder : List WalletType :=
  [walletV3, walletV4, nftCollection, nftItem, nftSingle, nftMarketplace, nftSale, jettonMinter,
    jettonWallet, highloadWalletV2, highloadWalletV1, manualDns, restrictedWallet, giver,
    walletV1, walletV2]

/-- What the answers of its get methods can make of a contract of unknown code. -/
def probedTypes : List WalletType :=
  [jettonWallet, jettonMinter, nftCollection, nftItem, nftSingle, unknown]

end WalletType

/-- The known contracts: whether a cell has the hash of a revision's code, and the type that
    the get methods of other code (and data) tell. -/
structure Contracts where
  hasCode : WalletType → Int → Cell → Bool
  probe : Cell → Option Cell → {type : WalletType // type ∈ WalletType.probedTypes}

/-- The revision with this code, 0 for none. -/
def Contracts.guessRevision (contracts : Contracts) (type : WalletType) (code : Cell) : Int :=
  (type.getRevisions.find? (contracts.hasCode type · code)).getD 0

structure AccountState where
  balance : Int
  code : Option Cell
  data : Option Cell
  genUtime : UInt32
  address : StdAddress
  contractState : ContractState
  walletType : WalletType
  walletRevision : Int

/-- The classes that implement `WalletInterface`. -/
inductive WalletContract where
  | walletV4 | walletV3 | highloadWalletV2 | highloadWallet | restrictedWallet | testGiver
  | testWallet | wallet
  deriving DecidableEq

def WalletContract.getMaxGiftsSize : WalletContract → Nat
  | walletV4 | walletV3 | restrictedWallet | wallet => 4
  | highloadWalletV2 | highloadWallet => 254
  | testGiver | testWallet => 1

/-- A wallet that is not null, with the state of its contract. -/
structure Wallet where
  contract : WalletContract
  code : Option Cell
  data : Option Cell

namespace AccountState
variable (contracts : Contracts)

def setType (type : WalletType) (revision : Int) (s : AccountState) : AccountState :=
  { s with walletType := type, walletRevision := revision }

def guessType (s : AccountState) : AccountState :=
  match s.code with
  | none => { s with walletType := .empty }
  | some code =>
    if s.walletType = .empty then
      match WalletType.guessOrder.find? (contracts.guessRevision · code != 0) with
      | some type => s.setType type (contracts.guessRevision type code)
      | none => s.setType (contracts.probe code s.data) (-1)
    else s

def getWalletType (s : AccountState) : WalletType :=
  if s.walletType = .empty then (s.guessType contracts).walletType else s.walletType

def getWallet (s : AccountState) : Option Wallet :=
  match s.getWalletType contracts with
  | .walletV4 => some ⟨.walletV4, s.code, s.data⟩
  | .walletV3 => some ⟨.walletV3, s.code, s.data⟩
  | .highloadWalletV2 => some ⟨.highloadWalletV2, s.code, s.data⟩
  | .highloadWalletV1 => some ⟨.highloadWallet, s.code, s.data⟩
  | .restrictedWallet => some ⟨.restrictedWallet, s.code, s.data⟩
  | .giver => some ⟨.testGiver, s.code, s.data⟩
  | .walletV1 => some ⟨.testWallet, s.code, s.data⟩
  | .walletV2 => some ⟨.wallet, s.code, s.data⟩
  | _ => none

end AccountState

end Comx
