import TopWallets.TonConnect
import TopWallets.Address
import TopWallets.Lib.Cell

/- The requests a dApp sends over a TonConnect session:
   `Connection.EventSource_Message` of Complex.Ton.

   A message is an envelope with an encrypted text in base64. The handler removes every
   backslash from the text before it parses it, reads the id, and runs the method. What
   the repository does not hold is the parameter `Library`: the JSON reader, the text of
   an exception, base64 of a BoC and the BoC reader, and the cast of an amount.

   Main result: a request has a proper outcome exactly when the conditions `Meets` lists
   hold of it (`receive_proper_iff`).

   Correspondence (C# ↔ Lean):
     `EventSource_Message`                          ↔ `receive`
     `SendTransactionPayload`, its `Message`        ↔ `SendTransactionPayload`, `PayloadMessage`
     `ContractDeployData`, `MessageData`            ↔ `ContractDeployData`
     `SendTransactionException`, other exceptions   ↔ `Stop.refused`, `Stop.raised`
     `Address.FromHex`, `Cell.FromBase64Boc`        ↔ `addressFromHex`, `bocCell` -/
namespace Ton.TonConnect

open Block

structure PayloadMessage where
  address : Option (List Char)
  amount : Int64
  payload : Option (List Char)
  stateInit : Option (List Char)

structure SendTransactionPayload where
  validUntil : Int64
  network : Int32
  sender : Option (List Char)
  messages : Option (List (Option PayloadMessage))

def SendTransactionPayload.isTestnet (payload : SendTransactionPayload) : Bool :=
  payload.network.toInt == TonConnect.network true

structure ContractDeployData where
  deployer : List Char
  destAddress : Option (List Char)
  stateInit : Option Cell
  amount : Nat
  message : Option Cell

/-- What the handler uses of other libraries. A JSON text that is no object or array gives no
value, as does an element that is missing. -/
structure Library where
  Value : Type
  parse : List Char → Except Exception (Option Value)
  getString : Value → List Char → Except Exception (Option (List Char))
  getArray : Value → List Char → Except Exception (Option Value)
  getArrayAt : Value → Nat → Except Exception (Option Value)
  /-- An element that is a text. -/
  getStringAt : Value → Nat → Except Exception (Option (List Char))
  deserialize : Option Value → Except Exception (Option SendTransactionPayload)
  /-- `byte[].GetString()`. -/
  text : List UInt8 → List Char
  /-- The text of an exception. -/
  message : Exception → List Char
  /-- `string.FromBase64()`. -/
  fromBase64 : List Char → Except Exception (List UInt8)
  /-- `vm::std_boc_deserialize`. -/
  stdBocDeserialize : List UInt8 → Option Cell
  toUInt128 : Int64 → Except Exception Nat

/-- What the handler reads of the wallet, and of the event source. -/
structure Session where
  address : List Char
  isTestnet : Bool
  /-- `ServerUtcTime` in milliseconds. -/
  serverTime : Int
  connected : Bool
  /-- Posting the disconnect event. -/
  post : Except Exception Unit

/-- Why the handling of a request stops. A native abort ends the process. -/
inductive Stop where
  | refused (code : ErrorCode) (message : List Char)
  | raised (e : Exception)
  | aborted

/-- What a request brings about. -/
inductive Effect where
  | disconnect
  | sendTransactions (id : Option (List Char)) (datas : List ContractDeployData)
  | reply (id : Option (List Char)) (code : ErrorCode) (message : List Char)
  | abort

/-- An exception inside the handler. -/
def raise {α : Type} : Except Exception α → Except Stop α
  | .ok a => .ok a
  | .error e => .error (.raised e)

/-- The access to a member of an object that may be null. -/
def notNull {α : Type} : Option α → Except Exception α
  | some a => .ok a
  | none => .error .nullReference

/-! ## The envelope -/

def isWhite (c : Char) : Bool := c == ' ' || c == '\t' || c == '\n' || c == '\r'

/-- The value of a character of the base64 alphabet, which has neither `-` nor `_`. -/
def base64Digit (c : Char) : Option Nat :=
  if c = '-' ∨ c = '_' ∨ c = '=' then none else base64Value c

def base64Bytes : List Char → Option (List UInt8)
  | [] => some []
  | [a, b, '=', '='] => do
    let x := (← base64Digit a) * 262144 + (← base64Digit b) * 4096
    return [UInt8.ofNat (x / 65536)]
  | [a, b, c, '='] => do
    let x := (← base64Digit a) * 262144 + (← base64Digit b) * 4096 + (← base64Digit c) * 64
    return [UInt8.ofNat (x / 65536), UInt8.ofNat (x / 256)]
  | a :: b :: c :: d :: rest => do
    let x := (← base64Digit a) * 262144 + (← base64Digit b) * 4096 + (← base64Digit c) * 64 +
      (← base64Digit d)
    let bytes ← base64Bytes rest
    return UInt8.ofNat (x / 65536) :: UInt8.ofNat (x / 256) :: UInt8.ofNat x :: bytes
  | _ => none

/-- `Convert.FromBase64String`. -/
def fromBase64String : Option (List Char) → Except Exception (List UInt8)
  | none => .error .argumentNull
  | some cs =>
    match base64Bytes (cs.filter (!isWhite ·)) with
    | some bytes => .ok bytes
    | none => .error .format

section
variable (B : Box) (lib : Library)

/-- The text of an envelope. -/
def decryptText (c : Connection) (data : List Char) : Except Exception (List Char) := do
  let array ← notNull (← lib.parse data)
  let _ ← lib.getString array "from".toList
  let d ← fromBase64String (← lib.getString array "message".toList)
  let decrypted ← Nacl.decrypt B c.nacl.precomputed (← B.slice d 24) (d.take 24)
  return lib.text decrypted

/-- `Replace("\\", "")`. -/
def strip (text : List Char) : List Char := text.filter (· != '\\')

/-! ## The messages of a request -/

/-- `Address.FromHex`: the friendly form of the address a text names. The form is empty where the
text names none. -/
def addressFromHex : Option (List Char) → Option (List Char)
  | none => none
  | some [] => none
  | some cs => some ((StdAddress.parseAddr cs).elim [] StdAddress.rserialize)

/-- The cell of a BoC in base64, for a text that is not null. -/
def bocCell : Option (List Char) → Except Stop (Option Cell)
  | none => .ok none
  | some base64 => do
    let bocData ← raise (lib.fromBase64 base64)
    match lib.stdBocDeserialize bocData with
    | some cell => .ok (some cell)
    | none => .error .aborted

def deployData (session : Session) : Option PayloadMessage → Except Stop ContractDeployData
  | none => .error (.raised .nullReference)
  | some message => do
    let msg ← bocCell lib message.payload
    let stateInit ← bocCell lib message.stateInit
    let amount ← raise (lib.toUInt128 message.amount)
    return ⟨session.address, addressFromHex message.address, stateInit, amount, msg⟩

def deployDatas (session : Session) :
    List (Option PayloadMessage) → Except Stop (List ContractDeployData)
  | [] => .ok []
  | message :: messages => do
    let data ← deployData lib session message
    return data :: (← deployDatas session messages)

/-- The payload in the parameters of a request. -/
def readPayload (request : lib.Value) : Except Exception SendTransactionPayload := do
  let params ← notNull (← lib.getArray request "params".toList)
  notNull (← lib.deserialize (← lib.getArrayAt params 0))

/-- The checks of a payload, and its messages. -/
def checkPayload (session : Session) (payload : SendTransactionPayload) :
    Except Stop (List (Option PayloadMessage)) :=
  match payload.messages with
  | none | some [] => .error (.refused .badRequest "Bad request".toList)
  | some messages =>
    if payload.validUntil.toInt < session.serverTime then
      .error (.refused .badRequest "Request timed out".toList)
    else if payload.isTestnet ≠ session.isTestnet then
      .error (.refused .badRequest "Invalid network".toList)
    else .ok messages

def sendTransaction (session : Session) (request : lib.Value) :
    Except Stop (List ContractDeployData) := do
  let payload ← raise (readPayload lib request)
  deployDatas lib session (← checkPayload session payload)

/-! ## The handler -/

/-- `Disconnect`, which raises if its event cannot be posted. -/
def disconnect (c : Connection) (session : Session) : Except Stop (List Effect) :=
  if c.isConnected session.connected then do
    raise session.post
    return [.disconnect]
  else .ok [.disconnect]

/-- The `switch` over the method. -/
def dispatch (c : Connection) (session : Session) (id : Option (List Char)) (request : lib.Value)
    (method : Option (List Char)) : Except Stop (List Effect) :=
  if method = some "disconnect".toList then disconnect c session
  else if method = some "sendTransaction".toList then do
    let datas ← sendTransaction lib session request
    return [.sendTransactions id datas]
  else .ok []

/-- What is run once the id was read. -/
def runMethod (c : Connection) (session : Session) (id : Option (List Char))
    (request : lib.Value) : Except Stop (List Effect) := do
  let method ← raise (lib.getString request "method".toList)
  dispatch lib c session id request method

/-- The `catch` clauses. -/
def answer (id : Option (List Char)) : Except Stop (List Effect) → List Effect
  | .ok effects => effects
  | .error (.refused code message) => [.reply id code message]
  | .error (.raised e) => [.reply id .badRequest (lib.message e)]
  | .error .aborted => [.abort]

/-- The request in a decrypted text, with its id. -/
def readRequest (text : List Char) : Except Exception (lib.Value × Option (List Char)) := do
  let request ← notNull (← lib.parse (strip text))
  return (request, ← lib.getString request "id".toList)

def receiveText (c : Connection) (session : Session) (text : List Char) : List Effect :=
  match readRequest lib text with
  | .ok (request, id) => answer lib id (runMethod lib c session id request)
  | .error e => answer lib none (.error (.raised e))

/-- `EventSource_Message`. -/
def receive (c : Connection) (session : Session) (data : List Char) : List Effect :=
  match decryptText B lib c data with
  | .ok text => receiveText lib c session text
  | .error e => answer lib none (.error (.raised e))

end

/-! ## The outcome a request should have -/

section
variable (lib : Library)

/-- A destination names the account that a text names. An empty text is no address. -/
def SameAccount (sent dest : Option (List Char)) : Prop :=
  (sent.getD [] = [] ∧ dest = none) ∨
    ∃ cs cs' a, sent = some cs ∧ dest = some cs' ∧ StdAddress.parseAddr cs = some a ∧
      StdAddress.parseAddr cs' = some a

/-- What is handed on carries a message as it was sent. -/
structure Carries (sent : PayloadMessage) (data : ContractDeployData) : Prop where
  address : SameAccount sent.address data.destAddress
  amount : (data.amount : Int) = sent.amount.toInt
  payload : bocCell lib sent.payload = .ok data.message
  stateInit : bocCell lib sent.stateInit = .ok data.stateInit

/-- The payload as it was sent, as an object or as a text that holds one. -/
def sentPayload (request : lib.Value) : Except Exception SendTransactionPayload := do
  let params ← notNull (← lib.getArray request "params".toList)
  match ← lib.getStringAt params 0 with
  | some text => notNull (← lib.deserialize (← lib.parse text))
  | none => notNull (← lib.deserialize (← lib.getArrayAt params 0))

/-- The messages of a request as it was sent. -/
def SentMessages (request : lib.Value) (sent : List PayloadMessage) : Prop :=
  ∃ payload, sentPayload lib request = .ok payload ∧ payload.messages = some (sent.map some)

/-- One outcome, and the right one for a request and its id. -/
inductive Proper (request : lib.Value) (id : List Char) : List Effect → Prop
  | disconnect : lib.getString request "method".toList = .ok (some "disconnect".toList) →
      Proper request id [.disconnect]
  | event {sent : List PayloadMessage} {datas : List ContractDeployData} :
      lib.getString request "method".toList = .ok (some "sendTransaction".toList) →
      SentMessages lib request sent → List.Forall₂ (Carries lib) sent datas →
      Proper request id [.sendTransactions (some id) datas]
  | reply (code : ErrorCode) (message : List Char) :
      Proper request id [.reply (some id) code message]

/-! ## When it has it -/

/-- Two texts name the same account, whose workchain fits the friendly form, or neither names
any. -/
def AccountsAgree (sent read : Option (List Char)) : Prop :=
  (sent.getD [] = [] ∧ read.getD [] = []) ∨
    ∃ cs cs' a, sent = some cs ∧ read = some cs' ∧ StdAddress.parseAddr cs = some a ∧
      StdAddress.parseAddr cs' = some a ∧ -128 ≤ a.workchain ∧ a.workchain < 128

/-- Two BoC texts hold the same cell, or both are missing. -/
def CellsAgree (sent read : Option (List Char)) : Prop :=
  ∃ cell, bocCell lib sent = .ok cell ∧ bocCell lib read = .ok cell

/-- A message without its backslashes says what it said with them. -/
structure Agrees (sent read : PayloadMessage) : Prop where
  address : AccountsAgree sent.address read.address
  nonneg : 0 ≤ sent.amount.toInt
  amount : lib.toUInt128 read.amount = .ok sent.amount.toInt.toNat
  payload : CellsAgree lib sent.payload read.payload
  stateInit : CellsAgree lib sent.stateInit read.stateInit

/-- The texts and the amount of a message can be converted. -/
def Converts (message : PayloadMessage) : Prop :=
  (∃ cell, bocCell lib message.payload = .ok cell) ∧
    (∃ cell, bocCell lib message.stateInit = .ok cell) ∧
    ∃ amount, lib.toUInt128 message.amount = .ok amount

/-- Converting a BoC text raises. -/
def BocRaises (base64 : Option (List Char)) : Prop :=
  ∃ cs e, base64 = some cs ∧ lib.fromBase64 cs = .error e

/-- Converting a message raises before a BoC is reached that cannot be read. -/
def Raises : Option PayloadMessage → Prop
  | none => True
  | some message =>
    BocRaises lib message.payload ∨
      ∃ cell, bocCell lib message.payload = .ok cell ∧
        (BocRaises lib message.stateInit ∨
          ∃ cell, bocCell lib message.stateInit = .ok cell ∧
            ∃ e, lib.toUInt128 message.amount = .error e)

/-- A payload does not pass the checks. -/
def Invalid (session : Session) (payload : SendTransactionPayload) : Prop :=
  payload.messages.getD [] = [] ∨ payload.validUntil.toInt < session.serverTime ∨
    payload.isTestnet ≠ session.isTestnet

/-- The messages are reached and one of them raises. -/
def SomeRaises (messages : List (Option PayloadMessage)) : Prop :=
  ∃ (before : List PayloadMessage) (message : Option PayloadMessage)
    (after : List (Option PayloadMessage)),
    messages = before.map some ++ message :: after ∧ (∀ m ∈ before, Converts lib m) ∧
      Raises lib message

/-- A request to send is turned down. -/
def TurnedDown (session : Session) (request : lib.Value) : Prop :=
  (∃ e, readPayload lib request = .error e) ∨
    ∃ payload, readPayload lib request = .ok payload ∧
      (Invalid session payload ∨
        ∃ messages, payload.messages = some messages ∧ SomeRaises lib messages)

/-- The conditions on a request `request` with the id `id` whose text reads as `read` with the id
`readId` once its backslashes are gone. -/
inductive Meets (c : Connection) (session : Session) (request : lib.Value) (id : List Char)
    (read : lib.Value) (readId : Option (List Char)) : Prop
  /-- The method cannot be read. -/
  | unreadable {e : Exception} : readId = some id →
      lib.getString read "method".toList = .error e → Meets c session request id read readId
  /-- A disconnect, sent as one. -/
  | disconnect : lib.getString read "method".toList = .ok (some "disconnect".toList) →
      lib.getString request "method".toList = .ok (some "disconnect".toList) →
      (c.isConnected session.connected → session.post = .ok ()) →
      Meets c session request id read readId
  /-- A disconnect that cannot be posted. -/
  | unposted {e : Exception} : readId = some id →
      lib.getString read "method".toList = .ok (some "disconnect".toList) →
      c.isConnected session.connected → session.post = .error e →
      Meets c session request id read readId
  /-- A request to send that is turned down. -/
  | turnedDown : readId = some id →
      lib.getString read "method".toList = .ok (some "sendTransaction".toList) →
      TurnedDown lib session read → Meets c session request id read readId
  /-- A request to send whose messages are those sent. -/
  | sends {payload : SendTransactionPayload} {sent messages : List PayloadMessage} :
      readId = some id →
      lib.getString read "method".toList = .ok (some "sendTransaction".toList) →
      lib.getString request "method".toList = .ok (some "sendTransaction".toList) →
      SentMessages lib request sent → readPayload lib read = .ok payload →
      ¬ Invalid session payload → payload.messages = some (messages.map some) →
      List.Forall₂ (Agrees lib) sent messages → Meets c session request id read readId

end

/-! ## Addresses, cells and messages -/

section
variable {lib : Library}

theorem parseAddr_rserialize {a : StdAddress} (hlo : -128 ≤ a.workchain) (hhi : a.workchain < 128) :
    StdAddress.parseAddr a.rserialize = some a := by
  rw [StdAddress.parseAddr, StdAddress.rdeserialize_rserialize a hlo hhi]

theorem parseAddr_nil : StdAddress.parseAddr [] = none := rfl

theorem rserialize_eq_nil {a : StdAddress} (h : ¬ (-128 ≤ a.workchain ∧ a.workchain < 128)) :
    a.rserialize = [] := by
  rw [StdAddress.rserialize, if_neg h]

/-- The destination names the account sent exactly when the texts agree on it. -/
theorem sameAccount_addressFromHex (sent read : Option (List Char)) :
    SameAccount sent (addressFromHex read) ↔ AccountsAgree sent read := by
  match read with
  | none => simp [SameAccount, AccountsAgree, addressFromHex]
  | some [] => simp [SameAccount, AccountsAgree, addressFromHex, parseAddr_nil]
  | some (c :: cs) =>
    have hdest : addressFromHex (some (c :: cs)) =
        some ((StdAddress.parseAddr (c :: cs)).elim [] StdAddress.rserialize) := rfl
    rw [hdest]
    constructor
    · rintro (⟨-, hnone⟩ | ⟨s, d, a, hs, hd, hsa, hda⟩)
      · cases hnone
      · obtain rfl := Option.some.inj hd
        refine .inr ⟨s, _, a, hs, rfl, hsa, ?_⟩
        -- an address that is missing or does not fit gives the empty text, which names nothing
        cases hread : StdAddress.parseAddr (c :: cs) with
        | none =>
          rw [hread, Option.elim_none, parseAddr_nil] at hda
          cases hda
        | some b =>
          rw [hread, Option.elim_some] at hda
          by_cases hfits : -128 ≤ b.workchain ∧ b.workchain < 128
          · rw [parseAddr_rserialize hfits.1 hfits.2] at hda
            obtain rfl := Option.some.inj hda
            exact ⟨rfl, hfits⟩
          · rw [rserialize_eq_nil hfits, parseAddr_nil] at hda
            cases hda
    · rintro (⟨-, hnil⟩ | ⟨s, d, a, hs, hd, hsa, hda, hlo, hhi⟩)
      · cases hnil
      · obtain rfl := Option.some.inj hd
        refine .inr ⟨s, _, a, hs, rfl, hsa, ?_⟩
        rw [hda, Option.elim_some, parseAddr_rserialize hlo hhi]

/-! ## Where the handling stops -/

/-- The handling stops with an exception, which the handler answers. -/
def Stops {α : Type} (x : Except Stop α) : Prop := ∃ stop, x = .error stop ∧ stop ≠ .aborted

section
variable {α β : Type}

theorem not_stops_ok (a : α) : ¬ Stops (.ok a) := by
  rintro ⟨stop, hstop, -⟩
  cases hstop

theorem stops_error_iff {stop : Stop} : Stops (.error stop : Except Stop α) ↔ stop ≠ .aborted := by
  simp [Stops]

theorem stops_bind_iff {x : Except Stop α} {f : α → Except Stop β} :
    Stops (x >>= f) ↔ Stops x ∨ ∃ a, x = .ok a ∧ Stops (f a) := by
  cases x with
  | ok a => simp [Stops, bind, Except.bind]
  | error stop => simp [Stops, bind, Except.bind]

theorem raise_ok_iff {x : Except Exception α} {a : α} : raise x = .ok a ↔ x = .ok a := by
  cases x <;> simp [raise]

theorem stops_raise_iff {x : Except Exception α} : Stops (raise x) ↔ ∃ e, x = .error e := by
  cases x <;> simp [Stops, raise]

end

theorem stops_bocCell_iff (base64 : Option (List Char)) :
    Stops (bocCell lib base64) ↔ BocRaises lib base64 := by
  cases base64 with
  | none => simp [bocCell, BocRaises, not_stops_ok]
  | some cs =>
    have hread (bytes : List UInt8) : ¬ Stops (match lib.stdBocDeserialize bytes with
        | some cell => .ok (some cell)
        | none => .error .aborted : Except Stop (Option Cell)) := by
      cases lib.stdBocDeserialize bytes with
      | none => exact fun h => stops_error_iff.1 h rfl
      | some cell => exact not_stops_ok _
    simp only [bocCell, BocRaises, stops_bind_iff, stops_raise_iff, hread, and_false, exists_false,
      or_false, Option.some.injEq, exists_and_left, exists_eq_left']

theorem deployData_ok_iff {session : Session} {message : PayloadMessage}
    {data : ContractDeployData} :
    deployData lib session (some message) = .ok data ↔
      bocCell lib message.payload = .ok data.message ∧
        bocCell lib message.stateInit = .ok data.stateInit ∧
        lib.toUInt128 message.amount = .ok data.amount ∧
        data.destAddress = addressFromHex message.address ∧ data.deployer = session.address := by
  obtain ⟨deployer, destAddress, stateInit, amount, msg⟩ := data
  simp only [deployData, bind_ok_iff, raise_ok_iff, pure, Except.pure, Except.ok.injEq,
    ContractDeployData.mk.injEq]
  constructor
  · rintro ⟨_, hmsg, _, hstate, _, hamount, rfl, rfl, rfl, rfl, rfl⟩
    exact ⟨hmsg, hstate, hamount, rfl, rfl⟩
  · rintro ⟨hmsg, hstate, hamount, rfl, rfl⟩
    exact ⟨_, hmsg, _, hstate, _, hamount, rfl, rfl, rfl, rfl, rfl⟩

theorem deployData_converts_iff (session : Session) {message : PayloadMessage} :
    (∃ data, deployData lib session (some message) = .ok data) ↔ Converts lib message := by
  constructor
  · rintro ⟨data, hdata⟩
    obtain ⟨hmsg, hstate, hamount, -⟩ := deployData_ok_iff.1 hdata
    exact ⟨⟨_, hmsg⟩, ⟨_, hstate⟩, _, hamount⟩
  · rintro ⟨⟨msg, hmsg⟩, ⟨stateInit, hstate⟩, amount, hamount⟩
    exact ⟨⟨_, _, stateInit, amount, msg⟩, deployData_ok_iff.2 ⟨hmsg, hstate, hamount, rfl, rfl⟩⟩

theorem stops_deployData_iff {session : Session} {message : Option PayloadMessage} :
    Stops (deployData lib session message) ↔ Raises lib message := by
  cases message with
  | none => exact iff_of_true (stops_error_iff.2 nofun) trivial
  | some message =>
    simp only [deployData, Raises, stops_bind_iff, stops_bocCell_iff, stops_raise_iff, raise_ok_iff,
      pure, Except.pure, not_stops_ok, and_false, exists_false, or_false]

/-- A message carried as it was sent is one whose text agrees with the text sent. -/
theorem carries_iff {session : Session} {sent message : PayloadMessage} {data : ContractDeployData}
    (hdata : deployData lib session (some message) = .ok data) :
    Carries lib sent data ↔ Agrees lib sent message := by
  obtain ⟨hmsg, hstate, hamount, haddr, -⟩ := deployData_ok_iff.1 hdata
  constructor
  · rintro ⟨haccount, heq, hpayload, hinit⟩
    rw [haddr, sameAccount_addressFromHex] at haccount
    refine ⟨haccount, by omega, ?_, ⟨_, hpayload, hmsg⟩, ⟨_, hinit, hstate⟩⟩
    rw [hamount, ← heq, Int.toNat_natCast]
  · rintro ⟨haccount, hnonneg, heq, ⟨cell, hpayload, hread⟩, ⟨cell', hinit, hread'⟩⟩
    rw [hmsg] at hread
    rw [hstate] at hread'
    rw [hamount] at heq
    obtain rfl := Except.ok.inj hread
    obtain rfl := Except.ok.inj hread'
    refine ⟨?_, ?_, hpayload, hinit⟩
    · rw [haddr, sameAccount_addressFromHex]
      exact haccount
    · rw [Except.ok.inj heq]
      omega

theorem Agrees.converts {sent message : PayloadMessage} (h : Agrees lib sent message) :
    Converts lib message := by
  obtain ⟨-, -, hamount, ⟨cell, -, hpayload⟩, ⟨cell', -, hinit⟩⟩ := h
  exact ⟨⟨cell, hpayload⟩, ⟨cell', hinit⟩, _, hamount⟩

/-! ## The messages of a request, one after the other -/

theorem deployDatas_ok_iff {session : Session} {messages : List (Option PayloadMessage)}
    {datas : List ContractDeployData} :
    deployDatas lib session messages = .ok datas ↔
      List.Forall₂ (fun m d => deployData lib session m = .ok d) messages datas := by
  induction messages generalizing datas with
  | nil => simp [deployDatas, eq_comm]
  | cons message messages ih =>
    simp only [deployDatas, bind_ok_iff, pure, Except.pure, Except.ok.injEq, ih,
      List.forall₂_cons_left_iff]
    constructor
    · rintro ⟨data, hdata, datas, hdatas, rfl⟩
      exact ⟨data, datas, hdata, hdatas, rfl⟩
    · rintro ⟨data, datas, hdata, hdatas, rfl⟩
      exact ⟨data, hdata, datas, hdatas, rfl⟩

theorem someRaises_cons_iff {message : Option PayloadMessage}
    {messages : List (Option PayloadMessage)} :
    SomeRaises lib (message :: messages) ↔ Raises lib message ∨
      ∃ m, message = some m ∧ Converts lib m ∧ SomeRaises lib messages := by
  constructor
  · rintro ⟨before, m, after, heq, hbefore, hm⟩
    cases before with
    | nil =>
      obtain ⟨rfl, -⟩ := List.cons.inj heq
      exact .inl hm
    | cons b before =>
      obtain ⟨rfl, htail⟩ := List.cons.inj heq
      obtain ⟨hb, hbefore⟩ := List.forall_mem_cons.1 hbefore
      exact .inr ⟨b, rfl, hb, before, m, after, htail, hbefore, hm⟩
  · rintro (hm | ⟨b, rfl, hb, before, m, after, rfl, hbefore, hm⟩)
    · exact ⟨[], message, messages, rfl, nofun, hm⟩
    · exact ⟨b :: before, m, after, rfl, List.forall_mem_cons.2 ⟨hb, hbefore⟩, hm⟩

theorem stops_deployDatas_iff {session : Session} {messages : List (Option PayloadMessage)} :
    Stops (deployDatas lib session messages) ↔ SomeRaises lib messages := by
  induction messages with
  | nil =>
    refine iff_of_false (not_stops_ok _) ?_
    rintro ⟨before, m, after, heq, -⟩
    simp at heq
  | cons message messages ih =>
    rw [someRaises_cons_iff, deployDatas, stops_bind_iff, stops_deployData_iff]
    refine or_congr_right ?_
    simp only [stops_bind_iff, pure, Except.pure, not_stops_ok, and_false, exists_false, or_false,
      ih, exists_and_right]
    cases message with
    | none => simp [deployData]
    | some m => simp [deployData_converts_iff]

theorem checkPayload_ok_iff {session : Session} {payload : SendTransactionPayload}
    {messages : List (Option PayloadMessage)} :
    checkPayload session payload = .ok messages ↔
      payload.messages = some messages ∧ ¬ Invalid session payload := by
  unfold checkPayload Invalid
  split <;> rename_i hmessages
  · simp [hmessages]
  · simp [hmessages]
  · rename_i found hne
    have hfound : found ≠ [] := by
      rintro rfl
      exact hne rfl
    rw [hmessages]
    split
    · next htime => simp [htime]
    · next htime =>
      split
      · next hnetwork => simp [hnetwork]
      · next hnetwork =>
        have hnet : payload.isTestnet = session.isTestnet := by simpa using hnetwork
        simp [htime, hnet, hfound]

theorem checkPayload_ne_aborted (session : Session) (payload : SendTransactionPayload) :
    checkPayload session payload ≠ .error .aborted := by
  unfold checkPayload
  split
  · nofun
  · nofun
  · split
    · nofun
    · split <;> nofun

theorem stops_checkPayload_iff {session : Session} {payload : SendTransactionPayload} :
    Stops (checkPayload session payload) ↔ Invalid session payload := by
  cases hcheck : checkPayload session payload with
  | ok messages =>
    have hvalid := (checkPayload_ok_iff.1 hcheck).2
    exact iff_of_false (not_stops_ok _) hvalid
  | error stop =>
    have hstop : stop ≠ .aborted := by
      rintro rfl
      exact checkPayload_ne_aborted session payload hcheck
    refine iff_of_true (stops_error_iff.2 hstop) ?_
    by_contra hvalid
    obtain ⟨messages, hmessages⟩ : ∃ messages, payload.messages = some messages := by
      cases hm : payload.messages with
      | none => exact absurd (.inl (by rw [hm, Option.getD_none])) hvalid
      | some messages => exact ⟨messages, rfl⟩
    have hok := checkPayload_ok_iff.2 ⟨hmessages, hvalid⟩
    rw [hok] at hcheck
    cases hcheck

theorem sendTransaction_ok_iff {session : Session} {request : lib.Value}
    {datas : List ContractDeployData} :
    sendTransaction lib session request = .ok datas ↔
      ∃ payload messages, readPayload lib request = .ok payload ∧ ¬ Invalid session payload ∧
        payload.messages = some messages ∧
        List.Forall₂ (fun m d => deployData lib session m = .ok d) messages datas := by
  simp only [sendTransaction, bind_ok_iff, raise_ok_iff, checkPayload_ok_iff, deployDatas_ok_iff]
  constructor
  · rintro ⟨payload, hread, messages, ⟨hmessages, hvalid⟩, hdatas⟩
    exact ⟨payload, messages, hread, hvalid, hmessages, hdatas⟩
  · rintro ⟨payload, messages, hread, hvalid, hmessages, hdatas⟩
    exact ⟨payload, hread, messages, ⟨hmessages, hvalid⟩, hdatas⟩

/-- The request to send is answered with an error exactly when it is turned down. -/
theorem stops_sendTransaction_iff {session : Session} {request : lib.Value} :
    Stops (sendTransaction lib session request) ↔ TurnedDown lib session request := by
  simp only [sendTransaction, TurnedDown, stops_bind_iff, stops_raise_iff, raise_ok_iff,
    stops_checkPayload_iff, checkPayload_ok_iff, stops_deployDatas_iff]
  refine or_congr_right (exists_congr fun payload => and_congr_right fun _ => ?_)
  by_cases hvalid : Invalid session payload
  · simp [hvalid]
  · simp [hvalid]

/-- Messages that agree with those sent are handed on as they were sent. -/
theorem exists_carries (session : Session) {sent messages : List PayloadMessage}
    (h : List.Forall₂ (Agrees lib) sent messages) : ∃ datas,
      List.Forall₂ (fun m d => deployData lib session m = .ok d) (messages.map some) datas ∧
        List.Forall₂ (Carries lib) sent datas := by
  induction h with
  | nil => exact ⟨[], .nil, .nil⟩
  | cons hagrees _ ih =>
    obtain ⟨datas, hdatas, hcarries⟩ := ih
    obtain ⟨data, hdata⟩ := (deployData_converts_iff session).2 hagrees.converts
    exact ⟨data :: datas, .cons hdata hdatas, .cons ((carries_iff hdata).2 hagrees) hcarries⟩

theorem forall₂_agrees {session : Session} {sent : List PayloadMessage}
    {messages : List (Option PayloadMessage)} {datas : List ContractDeployData}
    (hdatas : List.Forall₂ (fun m d => deployData lib session m = .ok d) messages datas)
    (h : List.Forall₂ (Carries lib) sent datas) :
    ∃ read, messages = read.map some ∧ List.Forall₂ (Agrees lib) sent read := by
  induction hdatas generalizing sent with
  | nil =>
    cases h with
    | nil => exact ⟨[], rfl, .nil⟩
  | @cons message data messages datas hdata _ ih =>
    cases h with
    | cons hcarries hrest =>
      obtain ⟨read, rfl, hagrees⟩ := ih hrest
      cases message with
      | none => cases hdata
      | some message =>
        exact ⟨message :: read, rfl, .cons ((carries_iff hdata).1 hcarries) hagrees⟩

/-! ## The outcome -/

variable {request read : lib.Value} {id : List Char} {readId : Option (List Char)}

theorem not_proper_nil : ¬ Proper lib request id [] := nofun

theorem not_proper_abort : ¬ Proper lib request id [.abort] := nofun

theorem proper_disconnect_iff : Proper lib request id [.disconnect] ↔
    lib.getString request "method".toList = .ok (some "disconnect".toList) := by
  constructor
  · intro h
    cases h with
    | disconnect hmethod => exact hmethod
  · exact .disconnect

theorem proper_reply_iff {code : ErrorCode} {message : List Char} :
    Proper lib request id [.reply readId code message] ↔ readId = some id := by
  constructor
  · intro h
    cases h with
    | reply => rfl
  · rintro rfl
    exact .reply code message

/-- What stops is answered under the id that was read; what aborts is not answered. -/
theorem proper_answer_error_iff {stop : Stop} :
    Proper lib request id (answer lib readId (.error stop)) ↔
      readId = some id ∧ stop ≠ .aborted := by
  cases stop with
  | refused code message => simp [answer, proper_reply_iff]
  | raised e => simp [answer, proper_reply_iff]
  | aborted => simp [answer, not_proper_abort]

theorem proper_of_stops {x : Except Stop (List Effect)} (hid : readId = some id) (h : Stops x) :
    Proper lib request id (answer lib readId x) := by
  obtain ⟨stop, rfl, hstop⟩ := h
  exact proper_answer_error_iff.2 ⟨hid, hstop⟩

variable {c : Connection} {session : Session}

theorem runMethod_of_method {method : Option (List Char)}
    (h : lib.getString read "method".toList = .ok method) :
    runMethod lib c session readId read = dispatch lib c session readId read method := by
  rw [runMethod, h]
  rfl

theorem runMethod_disconnect
    (h : lib.getString read "method".toList = .ok (some "disconnect".toList)) :
    runMethod lib c session readId read = disconnect c session := by
  rw [runMethod_of_method h, dispatch, if_pos rfl]

theorem runMethod_sendTransaction
    (h : lib.getString read "method".toList = .ok (some "sendTransaction".toList)) :
    runMethod lib c session readId read = (do
      let datas ← sendTransaction lib session read
      return [.sendTransactions readId datas]) := by
  rw [runMethod_of_method h, dispatch, if_neg (by decide), if_pos rfl]

theorem runMethod_other {method : Option (List Char)}
    (h : lib.getString read "method".toList = .ok method) (hd : method ≠ some "disconnect".toList)
    (hs : method ≠ some "sendTransaction".toList) :
    runMethod lib c session readId read = .ok [] := by
  rw [runMethod_of_method h, dispatch, if_neg hd, if_neg hs]

theorem proper_of_meets (h : Meets lib c session request id read readId) :
    Proper lib request id (answer lib readId (runMethod lib c session readId read)) := by
  cases h with
  | unreadable hid hmethod =>
    refine proper_of_stops hid ?_
    rw [runMethod, stops_bind_iff, stops_raise_iff]
    exact .inl ⟨_, hmethod⟩
  | disconnect hread hmethod hpost =>
    have hrun : runMethod lib c session readId read = .ok [.disconnect] := by
      rw [runMethod_disconnect hread, disconnect]
      split
      · next hconn =>
        rw [hpost hconn]
        rfl
      · rfl
    rw [hrun]
    exact .disconnect hmethod
  | unposted hid hread hconn hpost =>
    refine proper_of_stops hid ?_
    rw [runMethod_disconnect hread, disconnect, if_pos hconn, stops_bind_iff, stops_raise_iff]
    exact .inl ⟨_, hpost⟩
  | turnedDown hid hread hdown =>
    refine proper_of_stops hid ?_
    rw [runMethod_sendTransaction hread, stops_bind_iff]
    exact .inl (stops_sendTransaction_iff.2 hdown)
  | sends hid hread hmethod hsent hpayload hvalid hmessages hagrees =>
    obtain ⟨datas, hdatas, hcarries⟩ := exists_carries session hagrees
    have hsend : sendTransaction lib session read = .ok datas :=
      sendTransaction_ok_iff.2 ⟨_, _, hpayload, hvalid, hmessages, hdatas⟩
    rw [runMethod_sendTransaction hread, hsend, hid]
    exact .event hmethod hsent hcarries

theorem meets_of_proper
    (h : Proper lib request id (answer lib readId (runMethod lib c session readId read))) :
    Meets lib c session request id read readId := by
  cases hmethod : lib.getString read "method".toList with
  | error e =>
    have hrun : runMethod lib c session readId read = .error (.raised e) := by
      rw [runMethod, hmethod]
      rfl
    rw [hrun, proper_answer_error_iff] at h
    exact .unreadable h.1 hmethod
  | ok method =>
    by_cases hd : method = some "disconnect".toList
    · subst hd
      rw [runMethod_disconnect hmethod, disconnect] at h
      by_cases hconn : c.isConnected session.connected
      · rw [if_pos hconn] at h
        cases hpost : session.post with
        | error e =>
          rw [hpost] at h
          exact .unposted (proper_answer_error_iff.1 h).1 hmethod hconn hpost
        | ok u =>
          rw [hpost] at h
          exact .disconnect hmethod (proper_disconnect_iff.1 h) fun _ => hpost
      · rw [if_neg hconn] at h
        exact .disconnect hmethod (proper_disconnect_iff.1 h) fun hc => absurd hc hconn
    · by_cases hs : method = some "sendTransaction".toList
      · subst hs
        rw [runMethod_sendTransaction hmethod] at h
        cases hsend : sendTransaction lib session read with
        | error stop =>
          rw [hsend] at h
          obtain ⟨hid, hstop⟩ := proper_answer_error_iff.1 h
          exact .turnedDown hid hmethod (stops_sendTransaction_iff.1 ⟨stop, hsend, hstop⟩)
        | ok datas =>
          rw [hsend] at h
          obtain ⟨payload, messages, hpayload, hvalid, hmessages, hdatas⟩ :=
            sendTransaction_ok_iff.1 hsend
          cases h with
          | event hsent hsentMessages hcarries =>
            obtain ⟨ms, rfl, hagrees⟩ := forall₂_agrees hdatas hcarries
            exact .sends rfl hmethod hsent hsentMessages hpayload hvalid hmessages hagrees
      · rw [runMethod_other hmethod hd hs] at h
        exact absurd h not_proper_nil

theorem receiveText_proper_iff {text : List Char} :
    Proper lib request id (receiveText lib c session text) ↔ ∃ read readId,
      readRequest lib text = .ok (read, readId) ∧ Meets lib c session request id read readId := by
  unfold receiveText
  cases hread : readRequest lib text with
  | error e => simp [proper_answer_error_iff]
  | ok found =>
    obtain ⟨read, readId⟩ := found
    constructor
    · exact fun h => ⟨read, readId, rfl, meets_of_proper h⟩
    · rintro ⟨read', readId', heq, hmeets⟩
      obtain ⟨rfl, rfl⟩ := Prod.mk.inj (Except.ok.inj heq)
      exact proper_of_meets hmeets

/-- An envelope holds the text of a request with an id. -/
structure Holds (B : Box) (lib : Library) (c : Connection) (data text : List Char)
    (request : lib.Value) (id : List Char) : Prop where
  decrypts : decryptText B lib c data = .ok text
  parses : lib.parse text = .ok (some request)
  identified : lib.getString request "id".toList = .ok (some id)

/-- A request has one outcome, and the right one, exactly when it can be read without its
backslashes and what is read meets the conditions. -/
theorem receive_proper_iff {B : Box} {data text : List Char}
    (h : Holds B lib c data text request id) :
    Proper lib request id (receive B lib c session data) ↔ ∃ read readId,
      readRequest lib text = .ok (read, readId) ∧ Meets lib c session request id read readId := by
  rw [receive, h.decrypts]
  exact receiveText_proper_iff

end

/-! ## Two requests -/

namespace TwoRequests

def signData : List Char := "\x7b\"method\":\"signData\",\"params\":[],\"id\":\"1\"\x7d".toList

def signDataBox : List Char :=
  ("AAAAAAAAAAAAAAAAAAAAAAAAAAAAAAAAAAAAAAAAAAAAAAAAAAAAAHsibWV0aG9kIjoic2lnbkRh" ++
    "dGEiLCJwYXJhbXMiOltdLCJpZCI6IjEifQ==").toList

def disconnect : List Char := "\x7b\"method\":\"disconnect\",\"params\":[],\"id\":\"1\"\x7d".toList

def disconnectBox : List Char :=
  ("AAAAAAAAAAAAAAAAAAAAAAAAAAAAAAAAAAAAAAAAAAAAAAAAAAAAAHsibWV0aG9kIjoiZGlzY29u" ++
    "bmVjdCIsInBhcmFtcyI6W10sImlkIjoiMSJ9").toList

def envelope (box : List Char) : List Char :=
  "\x7b\"from\":\"a1\",\"message\":\"".toList ++ box ++ "\"\x7d".toList

/-- The members of the two requests and of their envelopes. -/
def parse (text : List Char) : Option (List (List Char × List Char)) :=
  if text = envelope signDataBox then
    some [("from".toList, "a1".toList), ("message".toList, signDataBox)]
  else if text = envelope disconnectBox then
    some [("from".toList, "a1".toList), ("message".toList, disconnectBox)]
  else if text = signData then
    some [("method".toList, "signData".toList), ("id".toList, "1".toList)]
  else if text = disconnect then
    some [("method".toList, "disconnect".toList), ("id".toList, "1".toList)]
  else none

def library : Library where
  Value := List (List Char × List Char)
  parse text := .ok (parse text)
  getString value name := .ok (value.lookup name)
  getArray _ _ := .ok (some [])
  getArrayAt _ _ := .ok none
  getStringAt _ _ := .ok none
  deserialize _ := .ok none
  text := Utf8.decode
  message _ := []
  fromBase64 cs := fromBase64String (some cs)
  stdBocDeserialize _ := none
  toUInt128 n := .ok (n.toInt % 2 ^ 128).toNat

/-- A box that leaves a message as it is. -/
def box : Box :=
  ⟨fun _ _ => List.replicate 32 0, fun padded _ _ => padded, fun padded _ _ => some padded,
    sliceFrom⟩

def connection : Connection :=
  { Connection.new box (List.replicate 32 1) (List.replicate 32 2) (Vector.replicate 24 7) with
    eventSource := true }

def session : Session := ⟨"EQ".toList, false, 0, true, .ok ()⟩

def request (method : List Char) : library.Value :=
  [("method".toList, method), ("id".toList, "1".toList)]

set_option maxRecDepth 20000 in
theorem holds_signData : Holds box library connection (envelope signDataBox) signData
    (request "signData".toList) "1".toList := by
  refine ⟨?_, ?_, ?_⟩
  · rfl
  · rfl
  · rfl

set_option maxRecDepth 20000 in
theorem holds_disconnect : Holds box library connection (envelope disconnectBox) disconnect
    (request "disconnect".toList) "1".toList := by
  refine ⟨?_, ?_, ?_⟩
  · rfl
  · rfl
  · rfl

/-- The method is none of those the handler knows. -/
theorem receive_signData :
    receive box library connection session (envelope signDataBox) = [] := by
  rw [receive, holds_signData.decrypts]
  rfl

end TwoRequests

/-- A disconnect ends the session. -/
theorem proper_disconnect_request : Proper TwoRequests.library
    (TwoRequests.request "disconnect".toList) "1".toList
    (receive TwoRequests.box TwoRequests.library TwoRequests.connection TwoRequests.session
      (TwoRequests.envelope TwoRequests.disconnectBox)) := by
  refine (receive_proper_iff TwoRequests.holds_disconnect).2 ⟨_, _, rfl, ?_⟩
  exact .disconnect rfl rfl fun _ => rfl

/-- A request to sign data has no outcome. -/
theorem not_proper_signData : ¬ ∀ data text request id,
    Holds TwoRequests.box TwoRequests.library TwoRequests.connection data text request id →
      Proper TwoRequests.library request id (receive TwoRequests.box TwoRequests.library
        TwoRequests.connection TwoRequests.session data) := by
  intro hall
  have hproper := hall _ _ _ _ TwoRequests.holds_signData
  rw [TwoRequests.receive_signData] at hproper
  exact not_proper_nil hproper

end Ton.TonConnect
