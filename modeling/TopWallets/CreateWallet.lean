import TopWallets.MessageRaw

/- Deploying a wallet: `getAddress(client, public_key)` and `createWallet` of `utils.h`.

   The candidates for the account of a key are tried in turn: every revision of every type, in
   the masterchain with a wallet id one less and in the basechain with the wallet id. Of the
   one found only the type and the revision are kept, and the deployment computes its state
   init and its destination anew, from the plain wallet id and a workchain given beforehand.
   They are the found one's exactly where these agree (`createWallet_deploysFound_iff`).

   Correspondence (C++ ↔ Lean):
     the functions `get_account_address...` ↔ `InitStates.initState`, `InitStates.getAddress`
     `addSource`                            ↔ `addSource`
     `getAddress(client, public_key)`       ↔ `findSource`, `getAddress`
     `AccountState::getStateInit`           ↔ `getStateInit`
     `createWallet`                         ↔ `createWallet`, `Deployment.toCell` -/
namespace Comx
open Block (StdAddress)
open Block.StdAddress (Memory)

def masterchainId : Int := -1
def basechainId : Int := 0

structure Source where
  type : WalletType
  walletId : Int
  revision : Int
  workchainId : Int

/-- `static_cast<td::uint32>`. -/
def uint32 (walletId : Int) : UInt32 := UInt32.ofNat (walletId % 2 ^ 32).toNat

/-- The initial states of the contracts, of a key, a wallet id and a revision, and the hash of a
    cell. -/
structure InitStates (Key : Type) where
  walletV4 : Key → UInt32 → Int → Cell
  walletV3 : Key → UInt32 → Int → Cell
  walletV1 : Key → Int → Cell
  walletV2 : Key → Int → Cell
  highloadWalletV1 : Key → UInt32 → Int → Cell
  highloadWalletV2 : Key → UInt32 → Int → Cell
  manualDns : Key → UInt32 → Int → Cell
  restrictedWallet : Key → UInt32 → Int → Cell
  hash : Cell → {bytes : List UInt8 // bytes.length = 32}

variable {Key : Type}

namespace InitStates
variable (states : InitStates Key)

/-- The initial state of a candidate, where its type has one. -/
def initState (key : Key) (source : Source) : Option Cell :=
  match source.type with
  | .walletV4 => some (states.walletV4 key (uint32 source.walletId) source.revision)
  | .walletV3 => some (states.walletV3 key (uint32 source.walletId) source.revision)
  | .walletV1 => some (states.walletV1 key source.revision)
  | .walletV2 => some (states.walletV2 key source.revision)
  | .restrictedWallet =>
    some (states.restrictedWallet key (uint32 source.walletId) source.revision)
  | .highloadWalletV1 =>
    some (states.highloadWalletV1 key (uint32 source.walletId) source.revision)
  | .highloadWalletV2 =>
    some (states.highloadWalletV2 key (uint32 source.walletId) source.revision)
  | .manualDns => some (states.manualDns key (uint32 source.walletId) source.revision)
  | _ => none

/-- `GenericAccount::get_address`. -/
def getAddress (workchainId : Int) (initState : Cell) : StdAddress :=
  ⟨workchainId, true, false, (states.hash initState).1, (states.hash initState).2⟩

end InitStates

def addSource (type : WalletType) (walletId : Int) : List Source :=
  type.getRevisions.flatMap fun revision =>
    [⟨type, walletId + masterchainId, revision, masterchainId⟩,
      ⟨type, walletId + basechainId, revision, basechainId⟩]

def sources (walletId : Int) : List Source :=
  [.walletV4, .walletV3, .walletV1, .walletV1Ext, .walletV2, .highloadWalletV1,
    .highloadWalletV2, .manualDns, .multisig, .paymentChannel, .restrictedWallet].flatMap
    (addSource · walletId)

section Find
variable (states : InitStates Key) (client : Client) (memory : Memory) (key : Key)

/-- The state of a candidate's account, if it is there. -/
def candidateState (turn : Nat) (source : Source) : Option AccountState :=
  match states.initState key source with
  | none => none
  | some initState =>
    let address := states.getAddress source.workchainId initState
    match client.getAccountState turn (Ton.parsedAddress memory address.rserialize) with
    | .error _ => none
    | .ok state =>
      if state.contractState ≠ .uninitialized ∧ state.balance ≥ 0 then some state else none

/-- The loop over the candidates. -/
def findSource : Nat → List Source → Option (Source × AccountState)
  | _, [] => none
  | turn, source :: sources =>
    match candidateState states client memory key turn source with
    | some state => some (source, state)
    | none => findSource (turn + 1) sources

def getAddress (walletId : UInt32) : Except String AccountState :=
  match findSource states client memory key 0 (sources walletId.toNat) with
  | some (source, state) => .ok (state.setType source.type source.revision)
  | none => .error "addressNotFoundFromPublicKey"

end Find

def getStateInit (contracts : Contracts) (states : InitStates Key) (key : Key) (walletId : Int)
    (s : AccountState) : Except String Cell :=
  let s := if s.walletType = .unknown then s.guessType contracts else s
  match s.walletType with
  | .walletV4 => .ok (states.walletV4 key (uint32 walletId) s.walletRevision)
  | .walletV3 => .ok (states.walletV3 key (uint32 walletId) s.walletRevision)
  | .walletV1 => .ok (states.walletV1 key s.walletRevision)
  | .walletV2 => .ok (states.walletV2 key s.walletRevision)
  | .highloadWalletV1 => .ok (states.highloadWalletV1 key (uint32 walletId) s.walletRevision)
  | .highloadWalletV2 => .ok (states.highloadWalletV2 key (uint32 walletId) s.walletRevision)
  | _ => .error "unknownType"

/-- The deployment message: destination, state init, and the signed body. -/
structure Deployment where
  addr : StdAddress
  stateInit : Cell
  signature : List UInt8
  msg : Cell

def Deployment.toCell (d : Deployment) : Cell :=
  .mk (Vm.CellBuilder.longBits 68 7 ++ Vm.CellBuilder.longBits d.addr.workchain 8 ++
      BitField.ofBytes d.addr.addr ++ Vm.CellBuilder.longBits 2 6 ++ d.stateInit.bits ++
      Vm.CellBuilder.longBits 0 1 ++ BitField.ofBytes d.signature ++ d.msg.bits)
    (d.stateInit.refs ++ d.msg.refs)

/-- The body of the deployment: the wallet id, no time limit, and seqno 0. -/
def deployBody (walletId : UInt32) : Cell :=
  .mk (Vm.CellBuilder.longBits walletId.toNat 32 ++ Vm.CellBuilder.longBits (-1) 32 ++
    Vm.CellBuilder.longBits 0 32) []

section Create
variable (contracts : Contracts) (states : InitStates Key) (client : Client) (memory : Memory)
  (walletId : UInt32) (sign : Cell → Except String (List UInt8)) (key : Key) (workchainId : Int)

def makeDeployment : Except String Deployment := do
  let state ← getAddress states client memory key walletId
  let stateInit ← getStateInit contracts states key walletId.toNat state
  let addr := states.getAddress workchainId stateInit
  let msg := deployBody walletId
  let signature ← sign msg
  .ok ⟨addr, stateInit, signature, msg⟩

def createWallet : Except String Cell :=
  (makeDeployment contracts states client memory walletId sign key workchainId).map
    Deployment.toCell

/-- Every message that is made deploys the state init of the source found, at its address. -/
def DeploysFound : Prop :=
  ∀ message, createWallet contracts states client memory walletId sign key workchainId =
      .ok message →
    ∃ d source state,
      makeDeployment contracts states client memory walletId sign key workchainId = .ok d ∧
        message = d.toCell ∧
        findSource states client memory key 0 (sources walletId.toNat) = some (source, state) ∧
        states.initState key source = some d.stateInit ∧
        d.addr = states.getAddress source.workchainId d.stateInit

end Create

/-- The types that `getStateInit` knows. -/
def deployedTypes : List WalletType :=
  [.walletV4, .walletV3, .walletV1, .walletV2, .highloadWalletV1, .highloadWalletV2]

/-- The types whose contracts hold no wallet id. -/
def plainTypes : List WalletType := [.walletV1, .walletV2]

/-- The source's account is the one that is deployed to: in the workchain given, and its state
    init is that of the plain wallet id. -/
def Agrees (workchainId : Int) (source : Source) : Prop :=
  source.workchainId = workchainId ∧
    (source.type ∈ plainTypes ∨ source.workchainId = basechainId)

/-- An initial state that holds all its arguments. -/
def InjectiveState (f : Key → UInt32 → Int → Cell) : Prop :=
  ∀ key id revision key' id' revision', f key id revision = f key' id' revision' →
    key = key' ∧ id = id' ∧ revision = revision'

/-- The initial states of the wallets with a wallet id are injective in their arguments. -/
structure InjectiveStates (states : InitStates Key) : Prop where
  walletV4 : InjectiveState states.walletV4
  walletV3 : InjectiveState states.walletV3
  highloadWalletV1 : InjectiveState states.highloadWalletV1
  highloadWalletV2 : InjectiveState states.highloadWalletV2

/-! ## The candidates -/

theorem mem_sources {walletId : Int} {source : Source} (h : source ∈ sources walletId) :
    source.walletId = walletId + source.workchainId ∧
      (source.workchainId = masterchainId ∨ source.workchainId = basechainId) ∧
      source.type ≠ .unknown := by
  obtain ⟨type, htype, hsource⟩ := List.mem_flatMap.1 h
  obtain ⟨revision, -, hpair⟩ := List.mem_flatMap.1 hsource
  have hknown : type ≠ .unknown := by
    intro hunknown
    rw [hunknown] at htype
    exact absurd htype (by decide)
  cases hpair with
  | head => exact ⟨rfl, Or.inl rfl, hknown⟩
  | tail _ hpair =>
    cases hpair with
    | head => exact ⟨rfl, Or.inr rfl, hknown⟩
    | tail _ hnil => cases hnil

/-- The loop gives a candidate that has an initial state. -/
theorem findSource_spec (states : InitStates Key) (client : Client) (memory : Memory) (key : Key)
    {turn : Nat} {list : List Source} {source : Source} {state : AccountState}
    (h : findSource states client memory key turn list = some (source, state)) :
    source ∈ list ∧ (states.initState key source).isSome := by
  induction list generalizing turn with
  | nil => cases h
  | cons head list ih =>
    rw [findSource] at h
    cases hstate : candidateState states client memory key turn head with
    | none =>
      rw [hstate] at h
      obtain ⟨hmem, hinit⟩ := ih h
      exact ⟨List.mem_cons_of_mem _ hmem, hinit⟩
    | some found =>
      rw [hstate] at h
      have hsource : head = source := (Prod.mk.inj (Option.some.inj h)).1
      rw [← hsource]
      refine ⟨List.mem_cons_self, ?_⟩
      cases hinit : states.initState key head with
      | some cell => rfl
      | none =>
        rw [candidateState, hinit] at hstate
        cases hstate

/-! ## The state init -/

/-- The candidate with another wallet id. -/
def Source.withId (source : Source) (walletId : Int) : Source :=
  { source with walletId := walletId }

/-- The state init that is deployed is the source's with the plain wallet id. -/
theorem getStateInit_setType (contracts : Contracts) (states : InitStates Key) (key : Key)
    (walletId : Int) (state : AccountState) {source : Source} (h : source.type ≠ .unknown) :
    getStateInit contracts states key walletId (state.setType source.type source.revision) =
      if source.type ∈ deployedTypes then
        (states.initState key (source.withId walletId)).elim (.error "unknownType") .ok
      else .error "unknownType" := by
  obtain ⟨type, id, revision, workchain⟩ := source
  cases type <;> first | rfl | exact absurd rfl h

theorem uint32_eq_iff {walletId : Int} {source : Source} (h : source ∈ sources walletId) :
    uint32 walletId = uint32 source.walletId ↔ source.workchainId = basechainId := by
  obtain ⟨hid, hworkchain, -⟩ := mem_sources h
  have hnat : uint32 walletId = uint32 source.walletId ↔
      (walletId % 2 ^ 32).toNat = (source.walletId % 2 ^ 32).toNat := by
    rw [uint32, uint32, ← UInt32.toNat_inj, UInt32.toNat_ofNat', UInt32.toNat_ofNat',
      Nat.mod_eq_of_lt (by omega), Nat.mod_eq_of_lt (by omega)]
  rw [hnat]
  unfold masterchainId basechainId at *
  omega

theorem initState_withId_iff {states : InitStates Key} (hinj : InjectiveStates states) (key : Key)
    {walletId : Int} {source : Source} (hmem : source ∈ sources walletId)
    (htype : source.type ∈ deployedTypes) :
    states.initState key (source.withId walletId) = states.initState key source ↔
      source.type ∈ plainTypes ∨ source.workchainId = basechainId := by
  rw [← uint32_eq_iff hmem]
  obtain ⟨type, id, revision, workchain⟩ := source
  have hid : ∀ f : Key → UInt32 → Int → Cell, InjectiveState f → type ∉ plainTypes →
      (some (f key (uint32 walletId) revision) = some (f key (uint32 id) revision) ↔
        type ∈ plainTypes ∨ uint32 walletId = uint32 id) := by
    intro f hf hplain
    rw [Option.some_inj, or_iff_right hplain]
    exact ⟨fun heq => (hf _ _ _ _ _ _ heq).2.1, fun heq => by rw [heq]⟩
  simp only [deployedTypes, List.mem_cons, List.not_mem_nil, or_false] at htype
  obtain rfl | rfl | rfl | rfl | rfl | rfl := htype
  · exact hid _ hinj.walletV4 (by decide)
  · exact hid _ hinj.walletV3 (by decide)
  · exact iff_of_true rfl (Or.inl List.mem_cons_self)
  · exact iff_of_true rfl (Or.inl (List.mem_cons_of_mem _ List.mem_cons_self))
  · exact hid _ hinj.highloadWalletV1 (by decide)
  · exact hid _ hinj.highloadWalletV2 (by decide)
/-! ## The deployment -/

section Deploys
variable (contracts : Contracts) (states : InitStates Key) (client : Client) (memory : Memory)
  (walletId : UInt32) (sign : Cell → Except String (List UInt8)) (key : Key) (workchainId : Int)

/-- What is deployed: the source's type and revision, with the plain wallet id, in the workchain
    given. -/
theorem makeDeployment_ok_iff (d : Deployment) :
    makeDeployment contracts states client memory walletId sign key workchainId = .ok d ↔
      ∃ source state,
        findSource states client memory key 0 (sources walletId.toNat) = some (source, state) ∧
          source.type ∈ deployedTypes ∧
          states.initState key (source.withId walletId.toNat) = some d.stateInit ∧
          d.addr = states.getAddress workchainId d.stateInit ∧
          sign (deployBody walletId) = .ok d.signature ∧ d.msg = deployBody walletId := by
  unfold makeDeployment getAddress
  cases hfind : findSource states client memory key 0 (sources walletId.toNat) with
  | none =>
    refine iff_of_false (fun h => by cases h) ?_
    intro h
    obtain ⟨source, state, hnone, -⟩ := h
    cases hnone
  | some found =>
    obtain ⟨source, state⟩ := found
    have hmem := (findSource_spec states client memory key hfind).1
    have hinit := getStateInit_setType contracts states key walletId.toNat state
      (mem_sources hmem).2.2
    constructor
    · intro h
      change (getStateInit contracts states key walletId.toNat
        (state.setType source.type source.revision) >>= _) = _ at h
      rw [hinit] at h
      by_cases htype : source.type ∈ deployedTypes
      · rw [if_pos htype] at h
        cases hstate : states.initState key (source.withId walletId.toNat) with
        | none =>
          rw [hstate] at h
          cases h
        | some stateInit =>
          rw [hstate] at h
          change (sign (deployBody walletId) >>= _) = _ at h
          cases hsign : sign (deployBody walletId) with
          | error error =>
            rw [hsign] at h
            cases h
          | ok signature =>
            rw [hsign] at h
            rw [← Except.ok.inj h]
            exact ⟨source, state, rfl, htype, hstate, rfl, rfl, rfl⟩
      · rw [if_neg htype] at h
        cases h
    · intro h
      obtain ⟨source', state', hsame, htype, hstate, haddr, hsign, hmsg⟩ := h
      obtain ⟨hsource, -⟩ := Prod.mk.inj (Option.some.inj hsame)
      rw [← hsource] at htype hstate
      change (getStateInit contracts states key walletId.toNat
        (state.setType source.type source.revision) >>= _) = _
      rw [hinit, if_pos htype, hstate]
      change (sign (deployBody walletId) >>= _) = _
      rw [hsign]
      change Except.ok (Deployment.mk (states.getAddress workchainId d.stateInit) d.stateInit
        d.signature (deployBody walletId)) = .ok d
      rw [← haddr, ← hmsg]

/-- A type that can be deployed has an initial state for every wallet id. -/
theorem exists_initState (source : Source) (h : source.type ∈ deployedTypes) :
    ∃ cell, states.initState key source = some cell := by
  obtain ⟨type, id, revision, workchain⟩ := source
  simp only [deployedTypes, List.mem_cons, List.not_mem_nil, or_false] at h
  obtain rfl | rfl | rfl | rfl | rfl | rfl := h <;> exact ⟨_, rfl⟩

/-- The deployment is that of the source found exactly where the source is in the workchain
    given, and there is no wallet id in its state init or the id is not shifted. -/
theorem createWallet_deploysFound_iff (hinj : InjectiveStates states) :
    DeploysFound contracts states client memory walletId sign key workchainId ↔
      ∀ source state,
        findSource states client memory key 0 (sources walletId.toNat) = some (source, state) →
        source.type ∉ deployedTypes ∨ (∃ error, sign (deployBody walletId) = .error error) ∨
          Agrees workchainId source := by
  constructor
  · intro h source state hfind
    by_cases htype : source.type ∈ deployedTypes
    · refine Or.inr ?_
      have hmem := (findSource_spec states client memory key hfind).1
      obtain ⟨stateInit, hstate⟩ :=
        exists_initState states key (source.withId walletId.toNat) htype
      cases hsign : sign (deployBody walletId) with
      | error error => exact Or.inl ⟨error, rfl⟩
      | ok signature =>
        refine Or.inr ?_
        let d : Deployment := ⟨states.getAddress workchainId stateInit, stateInit, signature,
          deployBody walletId⟩
        have hdeploy : makeDeployment contracts states client memory walletId sign key
            workchainId = .ok d :=
          (makeDeployment_ok_iff contracts states client memory walletId sign key workchainId
            d).2 ⟨source, state, hfind, htype, hstate, rfl, hsign, rfl⟩
        have hcreate : createWallet contracts states client memory walletId sign key workchainId
            = .ok d.toCell := by
          rw [createWallet, hdeploy]
          rfl
        obtain ⟨d', source', state', hd, -, hfind', hinit, haddr⟩ := h _ hcreate
        rw [← Except.ok.inj (hdeploy.symm.trans hd)] at hinit haddr
        obtain ⟨hsource, -⟩ := Prod.mk.inj (Option.some.inj (hfind.symm.trans hfind'))
        rw [← hsource] at hinit haddr
        refine ⟨(congrArg StdAddress.workchain haddr).symm, ?_⟩
        exact (initState_withId_iff hinj key hmem htype).1 (hstate.trans hinit.symm)
    · exact Or.inl htype
  · intro h message hmessage
    cases hdeploy : makeDeployment contracts states client memory walletId sign key
        workchainId with
    | error error =>
      rw [createWallet, hdeploy] at hmessage
      cases hmessage
    | ok d =>
      rw [createWallet, hdeploy] at hmessage
      obtain ⟨source, state, hfind, htype, hstate, haddr, hsign, -⟩ :=
        (makeDeployment_ok_iff contracts states client memory walletId sign key workchainId
          d).1 hdeploy
      have hmem := (findSource_spec states client memory key hfind).1
      have hagrees : Agrees workchainId source := by
        obtain hother | ⟨error, herror⟩ | hagrees := h source state hfind
        · exact absurd htype hother
        · rw [hsign] at herror
          cases herror
        · exact hagrees
      refine ⟨d, source, state, rfl, (Except.ok.inj hmessage).symm, hfind, ?_, ?_⟩
      · rw [← (initState_withId_iff hinj key hmem htype).2 hagrees.2, hstate]
      · rw [haddr, hagrees.1]

end Deploys
/-- An account in the workchain given, and none elsewhere. -/
def oneAccount (workchainId : Int) (h : workchainId ≠ Block.workchainInvalid) : Client where
  getAccountState _ a :=
    if a.workchain = workchainId then
      .ok ⟨1000000000, none, none, 0, a, .initialized, .empty, 0⟩
    else .error "no account"
  refuses_invalid _ _ ha := ⟨"no account", if_neg fun heq => h (heq.symm.trans ha)⟩

/-- A state that holds its arguments. -/
def sampleState (key : Bool) (id : UInt32) (revision : Int) : Cell :=
  .mk [key, decide (revision < 0)]
    [.mk (BitField.ofNat 32 id.toNat) [], .mk (List.replicate revision.natAbs true) []]

theorem injectiveState_sampleState : InjectiveState sampleState := by
  intro key id revision key' id' revision' h
  simp only [sampleState, Cell.mk.injEq, List.cons.injEq, and_true] at h
  obtain ⟨⟨hkey, hsign⟩, hid, hrevision⟩ := h
  have hnat : id.toNat = id'.toNat := BitField.ofNat_inj id.toNat_lt id'.toNat_lt hid
  have habs : revision.natAbs = revision'.natAbs := by
    simpa using congrArg List.length hrevision
  have hneg : revision < 0 ↔ revision' < 0 := decide_eq_decide.1 hsign
  exact ⟨hkey, UInt32.toNat_inj.1 hnat, by omega⟩

def sampleStates : InitStates Bool where
  walletV4 := sampleState
  walletV3 := sampleState
  walletV1 key revision := sampleState key 0 revision
  walletV2 key revision := sampleState key 0 revision
  highloadWalletV1 := sampleState
  highloadWalletV2 := sampleState
  manualDns := sampleState
  restrictedWallet := sampleState
  hash cell := ⟨Vm.bytesOfBits 32 (cell.bits ++ cell.refs.flatMap Cell.bits),
    Vm.length_bytesOfBits 32 _⟩

theorem injectiveStates_sampleStates : InjectiveStates sampleStates :=
  ⟨injectiveState_sampleState, injectiveState_sampleState, injectiveState_sampleState,
    injectiveState_sampleState⟩

/-- The text of an address in a standard workchain reads as the address. -/
theorem parsedAddress_rserialize (memory : Memory) (a : StdAddress) (hlo : -128 ≤ a.workchain)
    (hhi : a.workchain < 128) : Ton.parsedAddress memory a.rserialize = a := by
  rw [Ton.parsedAddress, StdAddress.rdeserialize_rserialize a hlo hhi]
  rfl

theorem candidateState_oneAccount (workchainId : Int) (h : workchainId ≠ Block.workchainInvalid)
    (memory : Memory) (key : Bool) (turn : Nat) (source : Source) {cell : Cell}
    (hinit : sampleStates.initState key source = some cell) (hlo : -128 ≤ source.workchainId)
    (hhi : source.workchainId < 128) :
    (candidateState sampleStates (oneAccount workchainId h) memory key turn source).isSome =
      decide (source.workchainId = workchainId) := by
  have haddress := parsedAddress_rserialize memory
    (sampleStates.getAddress source.workchainId cell) hlo hhi
  unfold candidateState
  rw [hinit]
  simp only [haddress, oneAccount]
  by_cases hsame : source.workchainId = workchainId
  · rw [if_pos (show (sampleStates.getAddress source.workchainId cell).workchain = workchainId
      from hsame), decide_eq_true hsame]
    rfl
  · rw [if_neg (show (sampleStates.getAddress source.workchainId cell).workchain ≠ workchainId
      from hsame), decide_eq_false hsame]
    rfl

/-- The first candidate is the masterchain's V4. -/
theorem findSource_masterchain (memory : Memory) :
    ∃ state, findSource sampleStates (oneAccount masterchainId (by decide)) memory true 0
      (sources 5) = some (⟨.walletV4, 4, 2, masterchainId⟩, state) := by
  have hlist : sources 5 = ⟨.walletV4, 4, 2, masterchainId⟩ :: (sources 5).tail := rfl
  have hfirst := candidateState_oneAccount masterchainId (by decide) memory true 0
    ⟨.walletV4, 4, 2, masterchainId⟩ rfl (by decide) (by decide)
  obtain ⟨state, hstate⟩ := Option.isSome_iff_exists.1 hfirst
  exact ⟨state, by rw [hlist, findSource, hstate]⟩

/-- The second one is the basechain's. -/
theorem findSource_basechain (memory : Memory) :
    ∃ state, findSource sampleStates (oneAccount basechainId (by decide)) memory true 0
      (sources 5) = some (⟨.walletV4, 5, 2, basechainId⟩, state) := by
  have hlist : sources 5 = ⟨.walletV4, 4, 2, masterchainId⟩ ::
      ⟨.walletV4, 5, 2, basechainId⟩ :: (sources 5).tail.tail := rfl
  have hfirst := candidateState_oneAccount basechainId (by decide) memory true 0
    ⟨.walletV4, 4, 2, masterchainId⟩ rfl (by decide) (by decide)
  have hsecond := candidateState_oneAccount basechainId (by decide) memory true 1
    ⟨.walletV4, 5, 2, basechainId⟩ rfl (by decide) (by decide)
  have hnone := Option.isNone_iff_eq_none.1 (by rw [← Option.not_isSome, hfirst]; rfl)
  obtain ⟨state, hstate⟩ := Option.isSome_iff_exists.1 hsecond
  exact ⟨state, by rw [hlist, findSource, hnone, findSource, hstate]⟩

def sampleSign : Cell → Except String (List UInt8) := fun _ => .ok (List.replicate 64 1)

theorem length_zeroBytes : (List.replicate 32 (0 : UInt8)).length = 32 := List.length_replicate

def zeroMemory : Memory := ⟨List.replicate 32 0, length_zeroBytes⟩

/-- An account of the basechain is deployed where it was found. -/
theorem deploysFound_basechain :
    DeploysFound sampleContracts sampleStates (oneAccount basechainId (by decide)) zeroMemory 5
      sampleSign true basechainId := by
  refine (createWallet_deploysFound_iff sampleContracts sampleStates
    (oneAccount basechainId (by decide)) zeroMemory 5 sampleSign true basechainId
    injectiveStates_sampleStates).2 ?_
  intro source state hfind
  obtain ⟨state', hfind'⟩ := findSource_basechain zeroMemory
  obtain ⟨hsource, -⟩ := Prod.mk.inj (Option.some.inj (hfind'.symm.trans hfind))
  rw [← hsource]
  exact Or.inr (Or.inr ⟨rfl, Or.inr rfl⟩)

/-- An account of the masterchain is found, and a deployment sent to the basechain. -/
theorem not_deploysFound :
    ¬ ∀ (Key : Type) (contracts : Contracts) (states : InitStates Key) (client : Client)
      (memory : Memory) (walletId : UInt32) (sign : Cell → Except String (List UInt8))
      (key : Key), InjectiveStates states →
      DeploysFound contracts states client memory walletId sign key basechainId := by
  intro h
  have hdeploys := h Bool sampleContracts sampleStates (oneAccount masterchainId (by decide))
    zeroMemory 5 sampleSign true injectiveStates_sampleStates
  obtain ⟨state, hfind⟩ := findSource_masterchain zeroMemory
  obtain ⟨stateInit, hstate⟩ := exists_initState sampleStates true
    (Source.withId ⟨.walletV4, 4, 2, masterchainId⟩ 5) (by decide)
  let d : Deployment := ⟨sampleStates.getAddress basechainId stateInit, stateInit,
    List.replicate 64 1, deployBody 5⟩
  have hdeploy : makeDeployment sampleContracts sampleStates
      (oneAccount masterchainId (by decide)) zeroMemory 5 sampleSign true basechainId = .ok d :=
    (makeDeployment_ok_iff _ _ _ _ _ _ _ _ d).2
      ⟨_, state, hfind, by decide, hstate, rfl, rfl, rfl⟩
  obtain ⟨d', source, state', hd, -, hfind', -, haddr⟩ := hdeploys d.toCell (by
    rw [createWallet, hdeploy]
    rfl)
  rw [← Except.ok.inj (hdeploy.symm.trans hd)] at haddr
  obtain ⟨hsource, -⟩ := Prod.mk.inj (Option.some.inj (hfind.symm.trans hfind'))
  rw [← hsource] at haddr
  have hchain : basechainId = masterchainId := congrArg StdAddress.workchain haddr
  exact absurd hchain (by decide)

end Comx
