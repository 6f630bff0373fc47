import TopWallets.AccountState

/- The message that sends gifts: `getMessageRaw` of `utils.h`, down to the wallets'
   `make_a_gift_message`.

   The wallet may be null: the error for it is made and dropped, not returned, and the null
   wallet is called once the destinations are known. Past that the wallets themselves `CHECK`
   the number of the gifts, and end the process over a text or a cell that is too big. In every
   other case the result is an error, or a message of exactly the gifts asked for
   (`getMessageRaw_safe_iff`).

   Correspondence (C++ ↔ Lean):
     the bodies of `make_a_gift_message` ↔ `makeAGiftMessage`, `createsIntMessage`
     `block::StdAddress(msg.destAddress)` ↔ `Ton.parsedAddress`
     the loop of `getMessageRaw`          ↔ `makeGift`, `makeGifts`
     `getMessageRaw`                      ↔ `getMessageRaw` -/
namespace Comx
open Block (StdAddress)
open Block.StdAddress (Memory)

structure MessageInfo where
  destAddress : List Char
  amount : Int64
  message : Option (List UInt8)
  body : Option Cell
  initState : Option Cell
  isEncrypted : Bool

structure Gift where
  destination : StdAddress
  gramms : Int64
  isEncrypted : Bool
  message : List UInt8
  body : Option Cell
  initState : Option Cell

/-- How `getMessageRaw` ends without a message: with an error, with a call on the null wallet,
    or with the process (a `CHECK`, or an exception where none may leave). -/
inductive Failure where
  | status (message : String)
  | nullWallet
  | check

/-- The answers to the lookups, by their turn. A shard cannot contain an account of the invalid
    workchain, so its state is never accepted (`AccountState::validate`). -/
structure Client where
  getAccountState : Nat → StdAddress → Except String AccountState
  refuses_invalid : ∀ turn a, a.workchain = Block.workchainInvalid →
    ∃ error, getAccountState turn a = .error error

/-- What the wallets do besides their checks: the seqno and the wallet id of a contract, and the
    cells of the messages. -/
structure Signing where
  walletData : Wallet → Except String (UInt32 × UInt32)
  giftMessage : WalletContract → UInt32 × UInt32 → UInt32 → List Gift → Cell
  createExtMessage : StdAddress → Cell → Cell

def maxMessageSize : Nat := 1024

/-- The text of a message without a body has to fit. -/
def createsIntMessage (gift : Gift) : Bool :=
  gift.body.isSome || gift.message.length ≤ maxMessageSize

/-- `CHECK`. -/
def check (p : Prop) [Decidable p] : Except Failure Unit :=
  if p then .ok () else .error .check

section Wallet
variable (signing : Signing)

/-- The cells of the message, which `finalize` refuses where they are too deep. -/
def packGifts (contract : WalletContract) (data : UInt32 × UInt32) (validUntil : UInt32)
    (gifts : List Gift) : Except Failure Cell := do
  check (gifts.all createsIntMessage = true)
  let cell := signing.giftMessage contract data validUntil gifts
  check (cell.depth ≤ Vm.maxDepth)
  .ok cell

def makeAGiftMessage (wallet : Wallet) (validUntil : UInt32) (gifts : List Gift) :
    Except Failure Cell :=
  if wallet.contract = .restrictedWallet then do
    -- the one wallet that counts the gifts first
    check (gifts.length ≤ wallet.contract.getMaxGiftsSize)
    let data ← (signing.walletData wallet).mapError .status
    if data.1 = 0 then .error (.status "Wallet is not inited yet")
    else packGifts signing wallet.contract data validUntil gifts
  else do
    let data ← (signing.walletData wallet).mapError .status
    check (gifts.length ≤ wallet.contract.getMaxGiftsSize)
    packGifts signing wallet.contract data validUntil gifts

end Wallet

structure MessageRaw where
  validUntil : UInt32
  messageBody : Cell
  message : Cell
  source : AccountState
  destinations : List AccountState

variable (contracts : Contracts) (signing : Signing) (client : Client) (memory : Memory)

def makeGift (dest : AccountState) (msg : MessageInfo) : Gift where
  destination :=
    let destination := Ton.parsedAddress memory msg.destAddress
    if dest.contractState ≠ .created then { destination with bounceable := false }
    else destination
  gramms := msg.amount
  isEncrypted := msg.isEncrypted
  message := msg.message.getD []
  body := msg.body
  initState := msg.initState

/-- The gifts and the states of their destinations, looked up from this turn on. -/
def makeGifts : Nat → List MessageInfo → Except Failure (List Gift × List AccountState)
  | _, [] => .ok ([], [])
  | turn, msg :: messages => do
    let dest ← (client.getAccountState turn
      (Ton.parsedAddress memory msg.destAddress)).mapError .status
    let (gifts, dests) ← makeGifts (turn + 1) messages
    .ok (makeGift memory dest msg :: gifts, dest :: dests)

def getMessageRaw (srcAddress : List Char) (messages : List MessageInfo) :
    Except Failure MessageRaw := do
  let state ← (client.getAccountState 0 (Ton.parsedAddress memory srcAddress)).mapError .status
  if state.contractState ≠ .created then .error (.status "waleetNotCreated")
  else
    -- a null wallet makes an error here, which nothing returns
    let wallet := state.getWallet contracts
    let (gifts, destinations) ← makeGifts client memory 1 messages
    let validUntil := state.genUtime + 60
    match wallet with
    | none => .error .nullWallet
    | some wallet => do
      let messageBody ← makeAGiftMessage signing wallet validUntil gifts
      .ok
        { validUntil := validUntil
          messageBody := messageBody
          message := signing.createExtMessage state.address messageBody
          source := state
          destinations := destinations }

/-! ## What is asked for -/

/-- The gift of a message: its data, and its destination with the bounce flag cleared exactly
    where the account is not created. -/
def IsGiftOf (msg : MessageInfo) (dest : AccountState) (gift : Gift) : Prop :=
  gift.gramms = msg.amount ∧ gift.message = msg.message.getD [] ∧ gift.body = msg.body ∧
    gift.initState = msg.initState ∧ gift.isEncrypted = msg.isEncrypted ∧
    ∃ a, StdAddress.rdeserialize msg.destAddress = some a ∧
      gift.destination = { a with
        bounceable := if dest.contractState = .created then a.bounceable else false }

/-- The gifts of messages, in order and number. -/
inductive AreGiftsOf : List MessageInfo → List AccountState → List Gift → Prop
  | nil : AreGiftsOf [] [] []
  | cons {msg : MessageInfo} {dest : AccountState} {gift : Gift} {messages : List MessageInfo}
      {dests : List AccountState} {gifts : List Gift} (head : IsGiftOf msg dest gift)
      (tail : AreGiftsOf messages dests gifts) :
      AreGiftsOf (msg :: messages) (dest :: dests) (gift :: gifts)

/-- The states that the lookups of the destinations give. -/
inductive Lookups : Nat → List MessageInfo → List AccountState → Prop
  | nil (turn : Nat) : Lookups turn [] []
  | cons {turn : Nat} {msg : MessageInfo} {dest : AccountState} {messages : List MessageInfo}
      {dests : List AccountState}
      (head : client.getAccountState turn (Ton.parsedAddress memory msg.destAddress) = .ok dest)
      (tail : Lookups (turn + 1) messages dests) :
      Lookups turn (msg :: messages) (dest :: dests)

/-- The source is a created account and the destinations are all found. -/
structure Found (srcAddress : List Char) (messages : List MessageInfo) (source : AccountState)
    (dests : List AccountState) : Prop where
  source_eq : client.getAccountState 0 (Ton.parsedAddress memory srcAddress) = .ok source
  created : source.contractState = .created
  lookups : Lookups client memory 1 messages dests

/-- An error, or a message that a wallet has built of the gifts of the messages. -/
def SafeAndFaithful (srcAddress : List Char) (messages : List MessageInfo) :
    Except Failure MessageRaw → Prop
  | .error (.status _) => True
  | .error _ => False
  | .ok raw => Found client memory srcAddress messages raw.source raw.destinations ∧
      ∃ wallet gifts, raw.source.getWallet contracts = some wallet ∧
        AreGiftsOf messages raw.destinations gifts ∧
        makeAGiftMessage signing wallet raw.validUntil gifts = .ok raw.messageBody ∧
        raw.message = signing.createExtMessage raw.source.address raw.messageBody

/-- The wallet does not end the process over these gifts: there are not too many, and when it
    gets to building cells, texts and cells fit. -/
def Accepts (wallet : Wallet) (validUntil : UInt32) (gifts : List Gift) : Prop :=
  match signing.walletData wallet with
  | .error _ => wallet.contract = .restrictedWallet →
      gifts.length ≤ wallet.contract.getMaxGiftsSize
  | .ok data => gifts.length ≤ wallet.contract.getMaxGiftsSize ∧
      (wallet.contract = .restrictedWallet ∧ data.1 = 0 ∨
        (∀ gift ∈ gifts, gift.body = none → gift.message.length ≤ maxMessageSize) ∧
          (signing.giftMessage wallet.contract data validUntil gifts).depth ≤ Vm.maxDepth)

/-- The end is a result or an error, not the null wallet nor the process's. -/
def Controlled {α : Type} (result : Except Failure α) : Prop :=
  ∀ failure, result = .error failure → ∃ message, failure = .status message

theorem Controlled.ok {α : Type} (a : α) : Controlled (.ok a) := by
  intro failure h
  cases h

theorem Controlled.status {α : Type} (message : String) :
    Controlled (.error (.status message) : Except Failure α) := by
  intro failure h
  exact ⟨message, (Except.error.inj h).symm⟩

theorem not_controlled_check {α : Type} :
    ¬ Controlled (.error .check : Except Failure α) := by
  intro h
  obtain ⟨message, hstatus⟩ := h .check rfl
  cases hstatus

theorem not_controlled_nullWallet {α : Type} :
    ¬ Controlled (.error .nullWallet : Except Failure α) := by
  intro h
  obtain ⟨message, hstatus⟩ := h .nullWallet rfl
  cases hstatus

theorem controlled_check_bind_iff {α : Type} (p : Prop) [Decidable p]
    (next : Unit → Except Failure α) :
    Controlled (check p >>= next) ↔ p ∧ Controlled (next ()) := by
  unfold check
  by_cases hp : p
  · rw [if_pos hp, and_iff_right hp]
    rfl
  · rw [if_neg hp]
    exact iff_of_false not_controlled_check fun h => hp h.1

theorem controlled_status_bind_iff {α β : Type} (result : Except String β)
    (next : β → Except Failure α) :
    Controlled (result.mapError .status >>= next) ↔
      ∀ b, result = .ok b → Controlled (next b) := by
  cases result with
  | error message =>
    refine iff_of_true (Controlled.status message) ?_
    intro b hb
    cases hb
  | ok b =>
    constructor
    · intro h b' hb
      rwa [← Except.ok.inj hb]
    · intro h
      exact h b rfl

/-! ## The wallet's message -/

theorem all_createsIntMessage_iff (gifts : List Gift) : gifts.all createsIntMessage = true ↔
    ∀ gift ∈ gifts, gift.body = none → gift.message.length ≤ maxMessageSize := by
  rw [List.all_eq_true]
  refine forall₂_congr fun gift _ => ?_
  unfold createsIntMessage
  cases gift.body <;> simp

theorem packGifts_controlled_iff (contract : WalletContract) (data : UInt32 × UInt32)
    (validUntil : UInt32) (gifts : List Gift) :
    Controlled (packGifts signing contract data validUntil gifts) ↔
      (∀ gift ∈ gifts, gift.body = none → gift.message.length ≤ maxMessageSize) ∧
        (signing.giftMessage contract data validUntil gifts).depth ≤ Vm.maxDepth := by
  unfold packGifts
  rw [controlled_check_bind_iff, controlled_check_bind_iff, all_createsIntMessage_iff,
    and_iff_left (Controlled.ok _)]

theorem makeAGiftMessage_controlled_iff (wallet : Wallet) (validUntil : UInt32)
    (gifts : List Gift) : Controlled (makeAGiftMessage signing wallet validUntil gifts) ↔
      Accepts signing wallet validUntil gifts := by
  unfold Accepts makeAGiftMessage
  by_cases hcontract : wallet.contract = .restrictedWallet
  · rw [if_pos hcontract, controlled_check_bind_iff, controlled_status_bind_iff]
    cases signing.walletData wallet with
    | error message =>
      constructor
      · intro h _
        exact h.1
      · intro h
        refine ⟨h hcontract, ?_⟩
        intro data hdata
        cases hdata
    | ok data =>
      refine and_congr_right fun _ => ?_
      simp only [Except.ok.injEq, forall_eq', hcontract, true_and]
      by_cases hseqno : data.1 = 0
      · rw [if_pos hseqno]
        exact iff_of_true (Controlled.status _) (Or.inl hseqno)
      · rw [if_neg hseqno, packGifts_controlled_iff, or_iff_right hseqno]
  · rw [if_neg hcontract, controlled_status_bind_iff]
    cases signing.walletData wallet with
    | error message =>
      refine iff_of_true ?_ fun h => absurd h hcontract
      intro data hdata
      cases hdata
    | ok data =>
      simp only [Except.ok.injEq, forall_eq', hcontract, false_and, false_or]
      rw [controlled_check_bind_iff, packGifts_controlled_iff]

/-! ## The gifts -/

/-- A destination that is found was an address. -/
theorem parsedAddress_of_lookup {turn : Nat} {text : List Char} {dest : AccountState}
    (h : client.getAccountState turn (Ton.parsedAddress memory text) = .ok dest) :
    ∃ a, StdAddress.rdeserialize text = some a ∧ Ton.parsedAddress memory text = a := by
  cases hparse : StdAddress.rdeserialize text with
  | some a => exact ⟨a, rfl, by rw [Ton.parsedAddress, hparse]; rfl⟩
  | none =>
    have hinvalid : (Ton.parsedAddress memory text).workchain = Block.workchainInvalid := by
      rw [Ton.parsedAddress, hparse]
      rfl
    obtain ⟨error, herror⟩ := client.refuses_invalid turn _ hinvalid
    rw [h] at herror
    cases herror

theorem isGiftOf_makeGift {turn : Nat} {msg : MessageInfo} {dest : AccountState}
    (h : client.getAccountState turn (Ton.parsedAddress memory msg.destAddress) = .ok dest) :
    IsGiftOf msg dest (makeGift memory dest msg) := by
  obtain ⟨a, hparse, haddress⟩ := parsedAddress_of_lookup client memory h
  refine ⟨rfl, rfl, rfl, rfl, rfl, a, hparse, ?_⟩
  simp only [makeGift, haddress]
  by_cases hcreated : dest.contractState = .created
  · rw [if_neg (not_not.2 hcreated), if_pos hcreated]
  · rw [if_pos hcreated, if_neg hcreated]

theorem IsGiftOf.unique {msg : MessageInfo} {dest : AccountState} {gift gift' : Gift}
    (h : IsGiftOf msg dest gift) (h' : IsGiftOf msg dest gift') : gift = gift' := by
  obtain ⟨hg, hm, hb, hi, he, a, ha, hd⟩ := h
  obtain ⟨hg', hm', hb', hi', he', a', ha', hd'⟩ := h'
  have haa : a = a' := Option.some.inj (ha.symm.trans ha')
  subst haa
  cases gift
  cases gift'
  simp_all

theorem AreGiftsOf.unique {messages : List MessageInfo} {dests : List AccountState}
    {gifts gifts' : List Gift} (h : AreGiftsOf messages dests gifts)
    (h' : AreGiftsOf messages dests gifts') : gifts = gifts' := by
  induction h generalizing gifts' with
  | nil => cases h'; rfl
  | cons head _ ih =>
    cases h' with
    | cons head' tail' => rw [head.unique head', ih tail']

/-- The loop ends with an error of a lookup, or with the gifts of the messages. -/
theorem makeGifts_spec (turn : Nat) (messages : List MessageInfo) :
    ((∃ error, makeGifts client memory turn messages = .error (.status error)) ∧
      ∀ dests, ¬ Lookups client memory turn messages dests) ∨
    ∃ gifts dests, makeGifts client memory turn messages = .ok (gifts, dests) ∧
      Lookups client memory turn messages dests ∧ AreGiftsOf messages dests gifts := by
  induction messages generalizing turn with
  | nil => exact Or.inr ⟨[], [], rfl, .nil turn, .nil⟩
  | cons msg messages ih =>
    rw [makeGifts]
    cases hdest : client.getAccountState turn (Ton.parsedAddress memory msg.destAddress) with
    | error error =>
      refine Or.inl ⟨⟨error, rfl⟩, ?_⟩
      intro dests h
      cases h with
      | cons head _ =>
        rw [hdest] at head
        cases head
    | ok dest =>
      obtain ⟨⟨error, herror⟩, hnone⟩ | ⟨gifts, dests, hgifts, hlookups, hare⟩ := ih (turn + 1)
      · refine Or.inl ⟨⟨error, by rw [herror]; rfl⟩, ?_⟩
        intro dests h
        cases h with
        | cons _ tail => exact hnone _ tail
      · refine Or.inr ⟨makeGift memory dest msg :: gifts, dest :: dests, ?_, ?_, ?_⟩
        · rw [hgifts]
          rfl
        · exact .cons hdest hlookups
        · exact .cons (isGiftOf_makeGift client memory hdest) hare

/-- What the lookups give is one list of states. -/
theorem Lookups.unique {turn : Nat} {messages : List MessageInfo} {dests dests' : List AccountState}
    (h : Lookups client memory turn messages dests)
    (h' : Lookups client memory turn messages dests') : dests = dests' := by
  induction h generalizing dests' with
  | nil => cases h'; rfl
  | cons head _ ih =>
    cases h' with
    | cons head' tail' => rw [Except.ok.inj (head.symm.trans head'), ih tail']

/-! ## The whole call -/

/-- Where the source is a created account and every destination is found, the source's type has a
    wallet, and the wallet accepts the gifts. -/
def Sendable (srcAddress : List Char) (messages : List MessageInfo) : Prop :=
  ∀ source dests gifts, Found client memory srcAddress messages source dests →
    AreGiftsOf messages dests gifts →
    ∃ wallet, source.getWallet contracts = some wallet ∧
      Accepts signing wallet (source.genUtime + 60) gifts

/-- Without a source and its destinations there is an error. -/
theorem getMessageRaw_not_found (srcAddress : List Char) (messages : List MessageInfo)
    (h : ∀ source dests, ¬ Found client memory srcAddress messages source dests) :
    ∃ error, getMessageRaw contracts signing client memory srcAddress messages =
      .error (.status error) := by
  unfold getMessageRaw
  cases hsource : client.getAccountState 0 (Ton.parsedAddress memory srcAddress) with
  | error error => exact ⟨error, rfl⟩
  | ok source =>
    by_cases hcreated : source.contractState = .created
    · obtain ⟨⟨error, herror⟩, -⟩ | ⟨gifts, dests, -, hlookups, -⟩ :=
        makeGifts_spec client memory 1 messages
      · refine ⟨error, ?_⟩
        change (if source.contractState ≠ .created then _ else _) = _
        rw [if_neg (not_not.2 hcreated), herror]
        rfl
      · exact absurd ⟨hsource, hcreated, hlookups⟩ (h source dests)
    · refine ⟨"waleetNotCreated", ?_⟩
      change (if source.contractState ≠ .created then _ else _) = _
      rw [if_pos hcreated]

/-- With them the wallet is called, null or not. -/
theorem getMessageRaw_found {srcAddress : List Char} {messages : List MessageInfo}
    {source : AccountState} {dests : List AccountState} {gifts : List Gift}
    (h : Found client memory srcAddress messages source dests)
    (hgifts : AreGiftsOf messages dests gifts) :
    getMessageRaw contracts signing client memory srcAddress messages =
      match source.getWallet contracts with
      | none => .error .nullWallet
      | some wallet =>
        makeAGiftMessage signing wallet (source.genUtime + 60) gifts >>= fun messageBody =>
          .ok ⟨source.genUtime + 60, messageBody,
            signing.createExtMessage source.address messageBody, source, dests⟩ := by
  obtain ⟨-, hnone⟩ | ⟨gifts', dests', hmake, hlookups, hare⟩ :=
    makeGifts_spec client memory 1 messages
  · exact absurd h.lookups (hnone dests)
  · have hdests : dests' = dests := hlookups.unique client memory h.lookups
    subst hdests
    have hsame : gifts' = gifts := hare.unique hgifts
    subst hsame
    unfold getMessageRaw
    rw [h.source_eq]
    change (if source.contractState ≠ .created then _ else _) = _
    rw [if_neg (not_not.2 h.created), hmake]
    rfl

/-- A message or an error comes of a found source exactly when there is a wallet and it accepts
    the gifts. -/
theorem safeAndFaithful_of_found {srcAddress : List Char} {messages : List MessageInfo}
    {source : AccountState} {dests : List AccountState} {gifts : List Gift}
    (h : Found client memory srcAddress messages source dests)
    (hgifts : AreGiftsOf messages dests gifts) :
    SafeAndFaithful contracts signing client memory srcAddress messages
        (getMessageRaw contracts signing client memory srcAddress messages) ↔
      ∃ wallet, source.getWallet contracts = some wallet ∧
        Accepts signing wallet (source.genUtime + 60) gifts := by
  rw [getMessageRaw_found contracts signing client memory h hgifts]
  cases hwallet : source.getWallet contracts with
  | none =>
    refine iff_of_false (fun hsafe => hsafe) ?_
    intro hsome
    obtain ⟨wallet, hnone, -⟩ := hsome
    cases hnone
  | some wallet =>
    have hcontrol := makeAGiftMessage_controlled_iff signing wallet (source.genUtime + 60) gifts
    cases hbody : makeAGiftMessage signing wallet (source.genUtime + 60) gifts with
    | ok body =>
      rw [hbody] at hcontrol
      simp only [hbody]
      refine iff_of_true ?_ ⟨wallet, rfl, hcontrol.1 (Controlled.ok body)⟩
      exact ⟨h, wallet, gifts, hwallet, hgifts, hbody, rfl⟩
    | error failure =>
      rw [hbody] at hcontrol
      simp only [hbody]
      cases failure with
      | status message =>
        exact iff_of_true trivial ⟨wallet, rfl, hcontrol.1 (Controlled.status message)⟩
      | nullWallet =>
        refine iff_of_false (fun hsafe => hsafe) ?_
        intro haccepts
        obtain ⟨wallet', hsame, haccepts⟩ := haccepts
        rw [← Option.some.inj hsame] at haccepts
        exact not_controlled_nullWallet (hcontrol.2 haccepts)
      | check =>
        refine iff_of_false (fun hsafe => hsafe) ?_
        intro haccepts
        obtain ⟨wallet', hsame, haccepts⟩ := haccepts
        rw [← Option.some.inj hsame] at haccepts
        exact not_controlled_check (hcontrol.2 haccepts)

/-- `getMessageRaw` is safe and faithful exactly where the source's type has a wallet and the
    wallet accepts the gifts. -/
theorem getMessageRaw_safe_iff (srcAddress : List Char) (messages : List MessageInfo) :
    SafeAndFaithful contracts signing client memory srcAddress messages
        (getMessageRaw contracts signing client memory srcAddress messages) ↔
      Sendable contracts signing client memory srcAddress messages := by
  by_cases hfound : ∃ source dests, Found client memory srcAddress messages source dests
  · obtain ⟨source, dests, h⟩ := hfound
    obtain ⟨-, hnone⟩ | ⟨gifts, dests', -, hlookups, hare⟩ :=
      makeGifts_spec client memory 1 messages
    · exact absurd h.lookups (hnone dests)
    · have hdests : dests' = dests := hlookups.unique client memory h.lookups
      rw [hdests] at hare
      rw [safeAndFaithful_of_found contracts signing client memory h hare]
      constructor
      · intro hwallet source' dests'' gifts' h' hare'
        have hsource : source' = source :=
          Except.ok.inj (h'.source_eq.symm.trans h.source_eq)
        have hsame : dests'' = dests := h'.lookups.unique client memory h.lookups
        rw [hsame] at hare'
        rwa [hsource, hare'.unique hare]
      · intro hsend
        exact hsend source dests gifts h hare
  · have hnone : ∀ source dests, ¬ Found client memory srcAddress messages source dests :=
      fun source dests h => hfound ⟨source, dests, h⟩
    obtain ⟨error, herror⟩ :=
      getMessageRaw_not_found contracts signing client memory srcAddress messages hnone
    rw [herror]
    refine iff_of_true trivial ?_
    intro source dests gifts h
    exact absurd h (hnone source dests)

/-- An account of workchain 0. -/
def sampleAddress : StdAddress := ⟨0, true, false, List.replicate 32 7, by decide⟩

/-- It is active, with some code. -/
def sampleAccount : AccountState :=
  ⟨1000000000, some (.mk [] []), none, 0, sampleAddress, .created, .empty, 0⟩

/-- Every address but the invalid one has that account. -/
def sampleClient : Client where
  getAccountState _ a :=
    if a.workchain = Block.workchainInvalid then .error "cannot contain requested account"
    else .ok sampleAccount
  refuses_invalid _ _ h := ⟨"cannot contain requested account", if_pos h⟩

/-- All code is the code of jetton wallets. -/
def sampleContracts : Contracts where
  hasCode type _ _ := type == .jettonWallet
  probe _ _ := ⟨.unknown, by decide⟩

def sampleSigning : Signing where
  walletData _ := .ok (1, 698983191)
  giftMessage _ _ _ _ := .mk [] []
  createExtMessage _ body := body

/-- A message of it is asked for, from itself to itself. -/
theorem found_sample : ∃ (memory : Memory) (text : List Char) (msg : MessageInfo) (gift : Gift),
    Found sampleClient memory text [msg] sampleAccount [sampleAccount] ∧
      AreGiftsOf [msg] [sampleAccount] [gift] := by
  have hmemory : (List.replicate 32 (0 : UInt8)).length = 32 := by decide
  let memory : Memory := ⟨List.replicate 32 0, hmemory⟩
  let text := sampleAddress.rserialize
  let msg : MessageInfo := ⟨text, 1000000000, none, none, none, false⟩
  have hparse : StdAddress.rdeserialize text = some sampleAddress :=
    StdAddress.rdeserialize_rserialize sampleAddress (by decide) (by decide)
  have haddress : Ton.parsedAddress memory text = sampleAddress := by
    rw [Ton.parsedAddress, hparse]
    rfl
  have hlookup : ∀ turn, sampleClient.getAccountState turn (Ton.parsedAddress memory text)
      = .ok sampleAccount := by
    intro turn
    rw [haddress]
    rfl
  refine ⟨memory, text, msg, makeGift memory sampleAccount msg, ?_, ?_⟩
  · exact ⟨hlookup 0, rfl, .cons (hlookup 1) (.nil 2)⟩
  · exact .cons (isGiftOf_makeGift sampleClient memory (hlookup 1)) .nil

/-- From a jetton wallet a message is built by the null wallet. -/
theorem not_getMessageRaw_safe :
    ¬ ∀ (contracts : Contracts) (signing : Signing) (client : Client) (memory : Memory)
      (srcAddress : List Char) (messages : List MessageInfo),
      SafeAndFaithful contracts signing client memory srcAddress messages
        (getMessageRaw contracts signing client memory srcAddress messages) := by
  intro h
  obtain ⟨memory, text, msg, gift, hfound, hgifts⟩ := found_sample
  have htype : sampleAccount.getWalletType sampleContracts = .jettonWallet := by decide
  have hwallet : sampleAccount.getWallet sampleContracts = none := by
    unfold AccountState.getWallet
    rw [htype]
  obtain ⟨wallet, hsome, -⟩ :=
    (safeAndFaithful_of_found sampleContracts sampleSigning sampleClient memory hfound hgifts).1
      (h sampleContracts sampleSigning sampleClient memory text [msg])
  rw [hwallet] at hsome
  cases hsome

end Comx
