import TopWallets.JettonMessages
import TopWallets.TransactionStream
import TopWallets.TransactionAmount

/- The two readers of the transactions of a wallet: `GetTransactionsQuery.GetTransactions`
   on what the lite server sends, and `TonApiCat.GetTransactions` on what the HTTP
   server does.

   Both keep messages of a transaction, make a detail of each and, of a jetton operation
   whose jetton they find, a second one. The lite reader keeps a message that has a value
   or a peer, and lists every transaction. The HTTP reader keeps a message that has a
   value, lists a transaction that has a detail, and counts `Excesses` among the jetton
   operations. So on the same messages the two agree exactly when there is an in message,
   some message has a value, none has a peer and no value, and none with a value is an
   `Excesses` of a jetton (`readers_agree_iff`).

   Correspondence (C# ↔ Lean):
     `JettonInfo`, as far as it is read here      ↔ `Jetton`
     `TransactionDetail` and its two subclasses   ↔ `ITransactionDetail`
     `TonTransaction`, `TonTransactionGroup`      ↔ `ITransactionBase`
     `GetTransactionsQuery.GetTransactions`       ↔ `Reader.round`, `.transaction`,
                                                    `.getTransactions`
     `TonApiCat.ReadMessage`                      ↔ the fields of `CatMessage`
     `TonApiCat.GetTransactionDetail`             ↔ `Reader.getTransactionDetail`
     `TonApiCat.GetTransactions`                  ↔ `Reader.outRound`, `.catTransaction`, `.catPage`
   Powers of ten and amounts are exact. -/
namespace Ton

open Comx

/-- What is read of a `JettonInfo`. -/
structure Jetton where
  symbol : Option (List Char)
  decimals : Nat
  jettonAddress : Option (List Char)
  deriving DecidableEq

structure TonTransactionMessage where
  detail : TransactionDetail
  queryId : Int

structure JettonTransactionMessage where
  detail : TransactionDetail
  jetton : Jetton
  type : Nat

/-- The constructor passes no address on. -/
def JettonTransactionMessage.new (jetton : Jetton) (amount : BitVec 128) (type : Nat)
    (isOut : Bool) : JettonTransactionMessage where
  detail := ⟨none, ⟨jetton.symbol, amount.toNat, 10 ^ jetton.decimals⟩, none, none, isOut⟩
  jetton := jetton
  type := type

inductive ITransactionDetail where
  | plain (detail : TransactionDetail)
  | ton (message : TonTransactionMessage)
  | jetton (message : JettonTransactionMessage)

/-- What a detail shows: its fields, and the jetton and the operation. -/
def ITransactionDetail.shown : ITransactionDetail → TransactionDetail × Option (Jetton × Nat)
  | .plain detail => (detail, none)
  | .ton message => (message.detail, none)
  | .jetton message => (message.detail, some (message.jetton, message.type))

/-- The fields of a transaction beside its details. -/
structure TransactionHead where
  name : Option (List Char)
  lt : Int
  utime : Int
  fee : Balance
  hash : List Char
  msgHash : Option (List UInt8)

inductive ITransactionBase where
  | transaction (head : TransactionHead) (detail : ITransactionDetail)
  | group (head : TransactionHead) (details : List ITransactionDetail)

namespace ITransactionBase

/-- One detail makes a transaction, any other number a group. -/
def build (head : TransactionHead) (name groupName : Option (List Char)) :
    List ITransactionDetail → ITransactionBase
  | [detail] => .transaction { head with name := name } detail
  | details => .group { head with name := groupName } details

def head : ITransactionBase → TransactionHead
  | .transaction head _ => head
  | .group head _ => head

def details : ITransactionBase → List ITransactionDetail
  | .transaction _ detail => [detail]
  | .group _ details => details

@[simp] theorem details_build (head : TransactionHead) (name groupName : Option (List Char))
    (details : List ITransactionDetail) :
    (build head name groupName details).details = details := by
  unfold build
  split <;> rfl

@[simp] theorem lt_build (head : TransactionHead) (name groupName : Option (List Char))
    (details : List ITransactionDetail) :
    (build head name groupName details).head.lt = head.lt := by
  unfold build
  split <;> rfl

@[simp] theorem utime_build (head : TransactionHead) (name groupName : Option (List Char))
    (details : List ITransactionDetail) :
    (build head name groupName details).head.utime = head.utime := by
  unfold build
  split <;> rfl

end ITransactionBase

def TransactionType.excesses : Nat := 0xd53276db

/-- The wallet type, and what the readers use of the client and of libraries. -/
structure Reader where
  walletType : WalletType
  getJettonInfo : Option (List Char) → Option Jetton
  getJettonInfoFromWallet : Option (List Char) → Option Jetton
  fromBoc : List UInt8 → Except Exception Slice
  toBase64String : List UInt8 → List Char
  /-- The marshalling of a C string. -/
  toText : List UInt8 → List Char
  /-- `Enum.GetName` of a transaction type. -/
  toString2 : Nat → Option (List Char)
  /-- The `Message` of what is thrown. -/
  messageOf : Exception → String

namespace Reader
variable (R : Reader)

/-- The name of a type that is not `None`. -/
def typeName (type : Nat) : Option (List Char) :=
  if type ≠ TransactionType.none then R.toString2 type else none

/-! ## The lite reader -/

/-- The jetton of a message to or from an address: the address of its minter or of its wallet. -/
def jettonOf (jettonAddress : Option (List Char)) : Option Jetton :=
  (R.getJettonInfo jettonAddress).or (R.getJettonInfoFromWallet jettonAddress)

/-- What is read of the body; of a message that is not raw nothing is. -/
def body (msg : Rawmessage) : Except Exception GetTransactionsQuery.Body :=
  if msg.messageType = .raw then do
    let slice ← R.fromBoc msg.msgData
    GetTransactionsQuery.readBody R.walletType msg.isOut slice
  else .ok ⟨TransactionType.none, TransactionType.none, msg.isOut, 0, none⟩

/-- One round of the loop over the messages, on the type of the group and the details so far. -/
def round (acc : Nat × List ITransactionDetail) (msg : Rawmessage) :
    Except Exception (Nat × List ITransactionDetail) := do
  let msgAddress := some (if msg.isOut then msg.destination else msg.source)
  let body ← R.body msg
  let grtype :=
    if body.type ≠ TransactionType.none ∧ body.isOut = true then body.type else acc.1
  let tonTransaction := body.amount.bind fun amount =>
    (R.jettonOf msgAddress).map fun info => .new info amount body.type body.isOut
  let grtype := if msg.isOut = false then body.msgtype else grtype
  let message := if msg.messageType = .text then some (R.toText msg.msgData) else none
  let detail := ⟨⟨msgAddress, .gram msg.value.toNat, message, R.typeName body.msgtype, msg.isOut⟩,
    body.queryId⟩
  return (grtype, acc.2 ++ (tonTransaction.toList.map ITransactionDetail.jetton ++ [.ton detail]))

def transaction (rtr : GetTransactionsQuery.RTransaction) :
    Except Exception ITransactionBase := do
  let (grtype, tarr) ← rtr.messages.foldlM R.round (TransactionType.none, [])
  let tr := rtr.tr
  let head := ⟨none, tr.lt, tr.utime, .gram tr.fee.toNat, R.toBase64String tr.hash, some tr.msgHash⟩
  return .build head none (R.typeName grtype) tarr

/-- The transactions of a query that has no error; null stands for none. -/
def getTransactions (transactions : List GetTransactionsQuery.RTransaction) :
    Except Exception (Option (List ITransactionBase)) :=
  if transactions = [] then .ok none
  else do
    let trs ← transactions.mapM R.transaction
    return some trs

end Reader

/-! ## The HTTP reader -/

/-- What `ReadMessage` reads: of the action the amount, of the meta the address of the jetton. -/
structure CatMessage where
  source : Option (List Char)
  destination : Option (List Char)
  value : Nat
  op : Nat
  comment : Option (List Char)
  action : Option (BitVec 128)
  jettonMeta : Option (Option (List Char))

structure CatTransaction where
  utime : Int
  fee : Nat
  lt : Int
  hash : List Char
  inMsg : Option CatMessage
  outMsgs : List CatMessage

namespace Reader
variable (R : Reader)

/-- The type and the direction an operation is taken with. -/
def catType (isOut : Bool) (type : Nat) : Nat × Bool :=
  if type = TransactionType.excesses then (type, isOut)
  else GetTransactionsQuery.shownType R.walletType isOut type

def getTransactionDetail (isOut : Bool) (msg : CatMessage) : Option JettonTransactionMessage :=
  msg.action.bind fun amount => msg.jettonMeta.bind fun jettonAddress =>
    if (R.catType isOut msg.op).1 ≠ TransactionType.none then
      (R.getJettonInfo jettonAddress).map fun info =>
        .new info amount (R.catType isOut msg.op).1 (R.catType isOut msg.op).2
    else none

/-- The detail of the message itself. -/
def plainDetail (isOut : Bool) (msg : CatMessage) : ITransactionDetail :=
  .plain ⟨if isOut then msg.destination else msg.source, .gram msg.value, msg.comment,
    R.typeName msg.op, isOut⟩

/-- One round of the loop over the out messages. -/
def outRound (acc : Nat × List ITransactionDetail) (msg : CatMessage) :
    Nat × List ITransactionDetail :=
  if 0 < msg.value then
    match R.getTransactionDetail true msg with
    | some detail => (detail.type, acc.2 ++ [R.plainDetail true msg, .jetton detail])
    | none => (acc.1, acc.2 ++ [R.plainDetail true msg])
  else acc

/-- The in message after them. -/
def inRound (acc : Nat × List ITransactionDetail) (msg : CatMessage) :
    Nat × List ITransactionDetail :=
  if 0 < msg.value then
    (msg.op, acc.2 ++ ((R.getTransactionDetail false msg).toList.map ITransactionDetail.jetton ++
      [R.plainDetail false msg]))
  else acc

/-- A transaction without details is not listed. One without an in message raises. -/
def catTransaction (j : CatTransaction) : Except Exception (Option ITransactionBase) :=
  match j.inMsg with
  | none => .error .nullReference
  | some inMsg =>
    let acc := R.inRound (j.outMsgs.foldl R.outRound (TransactionType.none, [])) inMsg
    let head := ⟨none, j.lt, j.utime, .gram j.fee, j.hash, none⟩
    .ok (if acc.2 = [] then none
      else some (.build head (R.typeName acc.1) (R.typeName acc.1) acc.2))

/-- The transactions of a page that are older than the one it was asked for. -/
def catPage (endTime : Int) (page : List CatTransaction) :
    Except Exception (List ITransactionBase) := do
  let trs ← (page.filter fun j => endTime ≤ 0 ∨ j.utime < endTime).mapM R.catTransaction
  return trs.reduceOption

end Reader

/-! ## The same messages -/

/-- A message as it is decoded, with the amount and the jetton of a jetton operation. -/
structure DecodedMessage where
  isOut : Bool
  peer : List Char
  value : Nat
  comment : Option (List Char)
  op : Nat
  action : Option (BitVec 128)
  jetton : Option Jetton

structure DecodedTransaction where
  outMsgs : List DecodedMessage
  inMsg : Option DecodedMessage

def DecodedTransaction.messages (t : DecodedTransaction) : List DecodedMessage :=
  t.outMsgs ++ t.inMsg.toList

namespace Reader
variable (R : Reader)

/-- The lite server sends the decoded message as this one. -/
structure IsRaw (d : DecodedMessage) (msg : Rawmessage) : Prop where
  isOut : msg.isOut = d.isOut
  peer : (if msg.isOut then msg.destination else msg.source) = d.peer
  value : msg.value = d.value
  comment : (if msg.messageType = .text then some (R.toText msg.msgData) else none) = d.comment
  body : ∃ body, R.body msg = .ok body ∧ body.msgtype = d.op ∧
    (body.type ≠ TransactionType.none →
      body.amount = d.action ∧ R.jettonOf (some d.peer) = d.jetton)

/-- The HTTP server sends it as this one. -/
structure IsCat (d : DecodedMessage) (msg : CatMessage) : Prop where
  peer : 0 < d.value → (if d.isOut then msg.destination else msg.source) = some d.peer
  value : msg.value = d.value
  comment : msg.comment = d.comment
  op : msg.op = d.op
  action : msg.action = d.action
  jetton : msg.jettonMeta.bind R.getJettonInfo = d.jetton

/-- The lite server sends the messages with a value or a peer. -/
def IsRawTransaction (t : DecodedTransaction) (rtr : GetTransactionsQuery.RTransaction) : Prop :=
  List.Forall₂ R.IsRaw (t.messages.filter fun d => 0 < d.value ∨ d.peer ≠ []) rtr.messages

structure IsCatTransaction (t : DecodedTransaction) (j : CatTransaction) : Prop where
  isOut : ∀ d ∈ t.outMsgs, d.isOut = true
  isIn : ∀ d ∈ t.inMsg, d.isOut = false
  outMsgs : List.Forall₂ R.IsCat t.outMsgs j.outMsgs
  inMsg : Option.Rel R.IsCat t.inMsg j.inMsg

/-- Listed by both with the same details in some order, or listed by none. -/
def Agree (lite : Except Exception ITransactionBase)
    (http : Except Exception (Option ITransactionBase)) : Prop :=
  Option.Rel (fun t t' => (t.details.map ITransactionDetail.shown).Perm
    (t'.details.map ITransactionDetail.shown)) lite.toOption http.toOption.join

end Reader

/-- The HTTP reader keeps what the lite reader keeps, and takes nothing more for a jetton
operation. -/
structure DecodedTransaction.Plain (t : DecodedTransaction) : Prop where
  inMsg : t.inMsg.isSome
  valued : ∃ d ∈ t.messages, 0 < d.value
  peers : ∀ d ∈ t.messages, d.peer ≠ [] → 0 < d.value
  excesses : ∀ d ∈ t.messages, 0 < d.value → d.op = TransactionType.excesses →
    d.action = none ∨ d.jetton = none

/-! ## What each reader makes of a decoded message -/

/-- The detail of a jetton operation that is taken with a type and a direction. -/
def DecodedMessage.jettonDetail (d : DecodedMessage) (shown : Nat × Bool) :
    Option JettonTransactionMessage :=
  if shown.1 ≠ TransactionType.none then
    d.action.bind fun amount => d.jetton.map fun info => .new info amount shown.1 shown.2
  else none

namespace Reader
variable (R : Reader)

/-- The detail of the message itself. -/
def messageShown (d : DecodedMessage) : TransactionDetail × Option (Jetton × Nat) :=
  (⟨some d.peer, .gram d.value, d.comment, R.typeName d.op, d.isOut⟩, none)

/-- The details of a message, with that of a jetton operation if there is one. -/
def shownWith (jetton : Option JettonTransactionMessage) (d : DecodedMessage) :
    List (TransactionDetail × Option (Jetton × Nat)) :=
  jetton.toList.map (fun m => (m.detail, some (m.jetton, m.type))) ++ [R.messageShown d]

def liteShown (d : DecodedMessage) : List (TransactionDetail × Option (Jetton × Nat)) :=
  R.shownWith (d.jettonDetail (GetTransactionsQuery.shownType R.walletType d.isOut d.op)) d

def catShown (d : DecodedMessage) : List (TransactionDetail × Option (Jetton × Nat)) :=
  R.shownWith (d.jettonDetail (R.catType d.isOut d.op)) d

end Reader

namespace GetTransactionsQuery

/-- A body that is read has the type its operation is shown with, and no amount without one. -/
theorem type_of_readBody {walletType : WalletType} {isOut : Bool} {slice : Slice} {body : Body}
    (h : readBody walletType isOut slice = .ok body) :
    (body.type, body.isOut) = shownType walletType isOut body.msgtype ∧
      (body.type = TransactionType.none → body.amount = none) := by
  unfold readBody at h
  simp only at h
  by_cases htype : (shownType walletType isOut (Slice.loadUint 32 slice).1).1 ≠ TransactionType.none
  · rw [if_pos htype] at h
    obtain ⟨amount, -, h⟩ := bind_ok_iff.1 h
    obtain rfl := Except.ok.inj h
    exact ⟨rfl, fun hnone => absurd hnone htype⟩
  · rw [if_neg htype] at h
    obtain rfl := Except.ok.inj h
    exact ⟨rfl, fun _ => rfl⟩

end GetTransactionsQuery

namespace Reader
variable {R : Reader}

theorem type_of_body {msg : Rawmessage} {body : GetTransactionsQuery.Body}
    (h : R.body msg = .ok body) :
    (body.type, body.isOut) =
        GetTransactionsQuery.shownType R.walletType msg.isOut body.msgtype ∧
      (body.type = TransactionType.none → body.amount = none) := by
  unfold Reader.body at h
  split_ifs at h with hraw
  · obtain ⟨slice, -, h⟩ := bind_ok_iff.1 h
    exact GetTransactionsQuery.type_of_readBody h
  · obtain rfl := Except.ok.inj h
    exact ⟨rfl, fun _ => rfl⟩

/-- A round of the lite reader adds what is shown of the message. -/
theorem round_of_isRaw {d : DecodedMessage} {msg : Rawmessage} (h : R.IsRaw d msg)
    (acc : Nat × List ITransactionDetail) :
    ∃ acc', R.round acc msg = .ok acc' ∧ acc'.2.map ITransactionDetail.shown =
      acc.2.map ITransactionDetail.shown ++ R.liteShown d := by
  obtain ⟨body, hbody, hop, hamount⟩ := h.body
  obtain ⟨htype, hnone⟩ := type_of_body hbody
  rw [hop, h.isOut] at htype
  refine ⟨_, by rw [round, hbody]; rfl, ?_⟩
  have hdetail : (body.amount.bind fun amount => (R.jettonOf (some d.peer)).map fun info =>
        JettonTransactionMessage.new info amount body.type body.isOut) =
      d.jettonDetail (GetTransactionsQuery.shownType R.walletType d.isOut d.op) := by
    rw [← htype]
    unfold DecodedMessage.jettonDetail
    split_ifs with hne
    · obtain ⟨haction, hjetton⟩ := hamount hne
      rw [haction, hjetton]
    · rw [hnone (not_not.1 hne)]
      rfl
  rw [List.map_append, List.map_append, List.map_map, h.peer, hdetail, h.comment, h.value, hop,
    h.isOut]
  rfl

theorem foldlM_round {ds : List DecodedMessage} {msgs : List Rawmessage}
    (h : List.Forall₂ R.IsRaw ds msgs) (acc : Nat × List ITransactionDetail) :
    ∃ acc', msgs.foldlM R.round acc = .ok acc' ∧ acc'.2.map ITransactionDetail.shown =
      acc.2.map ITransactionDetail.shown ++ ds.flatMap R.liteShown := by
  induction h generalizing acc with
  | nil => exact ⟨acc, rfl, by simp⟩
  | cons hd _ ih =>
    obtain ⟨acc₁, hround, hshown₁⟩ := round_of_isRaw hd acc
    obtain ⟨acc', hfold, hshown⟩ := ih acc₁
    refine ⟨acc', ?_, ?_⟩
    · rw [List.foldlM_cons, hround]
      exact hfold
    · rw [hshown, hshown₁, List.flatMap_cons, List.append_assoc]

/-- The lite reader lists every transaction. -/
theorem transaction_of_isRaw {t : DecodedTransaction} {rtr : GetTransactionsQuery.RTransaction}
    (h : R.IsRawTransaction t rtr) :
    ∃ tr, R.transaction rtr = .ok tr ∧ tr.details.map ITransactionDetail.shown =
      (t.messages.filter fun d => 0 < d.value ∨ d.peer ≠ []).flatMap R.liteShown := by
  obtain ⟨acc, hfold, hshown⟩ := foldlM_round h (TransactionType.none, [])
  refine ⟨_, by rw [transaction, hfold]; rfl, ?_⟩
  rw [ITransactionBase.details_build, hshown]
  rfl

theorem getTransactionDetail_of_isCat {d : DecodedMessage} {msg : CatMessage}
    (h : R.IsCat d msg) :
    R.getTransactionDetail d.isOut msg = d.jettonDetail (R.catType d.isOut d.op) := by
  unfold getTransactionDetail DecodedMessage.jettonDetail
  rw [h.action, h.op, ← h.jetton]
  split_ifs with hne
  · cases msg.jettonMeta <;> cases d.action <;> rfl
  · cases msg.jettonMeta <;> cases d.action <;> rfl

theorem shown_plainDetail {d : DecodedMessage} {msg : CatMessage} (h : R.IsCat d msg)
    (hvalue : 0 < d.value) : (R.plainDetail d.isOut msg).shown = R.messageShown d := by
  unfold plainDetail messageShown
  rw [h.peer hvalue, h.value, h.comment, h.op]
  rfl

/-- A round adds what is shown of an out message with a value, in the other order. -/
theorem outRound_of_isCat {d : DecodedMessage} {msg : CatMessage} (h : R.IsCat d msg)
    (hout : d.isOut = true) (acc : Nat × List ITransactionDetail) :
    ((R.outRound acc msg).2.map ITransactionDetail.shown).Perm
      (acc.2.map ITransactionDetail.shown ++ if 0 < d.value then R.catShown d else []) := by
  have hdetail := getTransactionDetail_of_isCat h
  rw [hout] at hdetail
  unfold outRound catShown shownWith
  rw [h.value, hdetail, hout]
  split_ifs with hvalue
  · have hplain := shown_plainDetail h hvalue
    rw [hout] at hplain
    cases hjetton : d.jettonDetail (R.catType true d.op) with
    | none =>
      simp only [List.map_append, List.map_cons, List.map_nil, hplain, Option.toList_none,
        List.nil_append]
      exact .refl _
    | some detail =>
      simp only [List.map_append, List.map_cons, List.map_nil, hplain, Option.toList_some,
        List.singleton_append]
      exact (List.Perm.swap _ _ _).append_left _
  · rw [List.append_nil]

theorem inRound_of_isCat {d : DecodedMessage} {msg : CatMessage} (h : R.IsCat d msg)
    (hin : d.isOut = false) (acc : Nat × List ITransactionDetail) :
    (R.inRound acc msg).2.map ITransactionDetail.shown =
      acc.2.map ITransactionDetail.shown ++ if 0 < d.value then R.catShown d else [] := by
  have hdetail := getTransactionDetail_of_isCat h
  rw [hin] at hdetail
  unfold inRound catShown shownWith
  rw [h.value, hdetail, hin]
  split_ifs with hvalue
  · have hplain := shown_plainDetail h hvalue
    rw [hin] at hplain
    simp only [List.map_append, List.map_map, List.map_cons, List.map_nil, hplain]
    rfl
  · rw [List.append_nil]

theorem foldl_outRound {ds : List DecodedMessage} {msgs : List CatMessage}
    (h : List.Forall₂ R.IsCat ds msgs) (hout : ∀ d ∈ ds, d.isOut = true)
    (acc : Nat × List ITransactionDetail) :
    ((msgs.foldl R.outRound acc).2.map ITransactionDetail.shown).Perm
      (acc.2.map ITransactionDetail.shown ++
        (ds.filter fun d => 0 < d.value).flatMap R.catShown) := by
  induction h generalizing acc with
  | nil => simp
  | @cons d msg ds msgs hd _ ih =>
    rw [List.forall_mem_cons] at hout
    rw [List.foldl_cons]
    refine (ih hout.2 _).trans ?_
    have hround := outRound_of_isCat hd hout.1 acc
    by_cases hvalue : 0 < d.value
    · rw [if_pos hvalue] at hround
      rw [List.filter_cons_of_pos (by simpa using hvalue), List.flatMap_cons, ← List.append_assoc]
      exact hround.append_right _
    · rw [if_neg hvalue, List.append_nil] at hround
      rw [List.filter_cons_of_neg (by simpa using hvalue)]
      exact hround.append_right _

/-- With an in message the HTTP reader lists a transaction that has a message with a value. -/
theorem catTransaction_of_isCat {t : DecodedTransaction} {j : CatTransaction}
    (h : R.IsCatTransaction t j) (hin : t.inMsg.isSome) :
    ∃ details : List ITransactionDetail, (details.map ITransactionDetail.shown).Perm
        ((t.messages.filter fun d => 0 < d.value).flatMap R.catShown) ∧
      ∃ head name groupName, R.catTransaction j =
        .ok (if details = [] then none else some (.build head name groupName details)) := by
  obtain ⟨d, hd⟩ := Option.isSome_iff_exists.1 hin
  obtain ⟨utime, fee, lt, hash, inMsg, outMsgs⟩ := j
  have hrel := h.inMsg
  rw [hd] at hrel
  obtain ⟨hmsg⟩ := hrel
  refine ⟨_, ?_, _, _, _, rfl⟩
  rw [inRound_of_isCat hmsg (h.isIn d (by rw [hd]; exact rfl))]
  refine ((foldl_outRound h.outMsgs h.isOut _).append_right _).trans ?_
  rw [DecodedTransaction.messages, hd, List.filter_append, List.flatMap_append]
  by_cases hvalue : 0 < d.value
  · simp [hvalue]
  · simp [hvalue]

/-! ## When they agree -/

/-- No operation is shown as `Excesses` by the lite reader. -/
theorem shownType_ne_excesses (walletType : WalletType) (isOut : Bool) (type : Nat) :
    (GetTransactionsQuery.shownType walletType isOut type).1 ≠ TransactionType.excesses := by
  unfold GetTransactionsQuery.shownType
  split_ifs with h₁ h₂ h₃ h₄ h₅ h₆ h₇ h₈ h₉ h₁₀ <;> simp only [*] <;> decide

theorem jettonDetail_excesses {d : DecodedMessage} (hnone : d.action = none ∨ d.jetton = none)
    (shown : Nat × Bool) : d.jettonDetail shown = none := by
  unfold DecodedMessage.jettonDetail
  split_ifs
  · obtain haction | hjetton := hnone
    · rw [haction]
      rfl
    · rw [hjetton]
      cases d.action <;> rfl
  · rfl

/-- Of a message that is no `Excesses` of a jetton both show the same. -/
theorem catShown_eq {d : DecodedMessage}
    (h : d.op = TransactionType.excesses → d.action = none ∨ d.jetton = none) :
    R.catShown d = R.liteShown d := by
  unfold catShown liteShown
  by_cases hop : d.op = TransactionType.excesses
  · rw [jettonDetail_excesses (h hop), jettonDetail_excesses (h hop)]
  · rw [catType, if_neg hop]

/-- Of an `Excesses` of a jetton the HTTP reader shows the operation. -/
theorem exists_mem_catShown {d : DecodedMessage} (hop : d.op = TransactionType.excesses)
    (haction : d.action ≠ none) (hjetton : d.jetton ≠ none) :
    ∃ s ∈ R.catShown d, ∃ info, s.2 = some (info, TransactionType.excesses) := by
  obtain ⟨amount, hamount⟩ := Option.ne_none_iff_exists'.1 haction
  obtain ⟨info, hinfo⟩ := Option.ne_none_iff_exists'.1 hjetton
  have hdetail : d.jettonDetail (R.catType d.isOut d.op) =
      some (.new info amount TransactionType.excesses d.isOut) := by
    rw [catType, if_pos hop, hop, DecodedMessage.jettonDetail, hamount, hinfo]
    rfl
  have hmem : ((JettonTransactionMessage.new info amount TransactionType.excesses d.isOut).detail,
      some (info, TransactionType.excesses)) ∈ R.catShown d := by
    rw [catShown, shownWith, hdetail]
    exact List.mem_append_left _ List.mem_cons_self
  exact ⟨_, hmem, info, rfl⟩

theorem not_excesses_of_mem_liteShown {d : DecodedMessage}
    {s : TransactionDetail × Option (Jetton × Nat)} (hs : s ∈ R.liteShown d) (info : Jetton) :
    s.2 ≠ some (info, TransactionType.excesses) := by
  unfold liteShown shownWith DecodedMessage.jettonDetail at hs
  rw [List.mem_append, List.mem_singleton] at hs
  obtain hjetton | rfl := hs
  · obtain ⟨m, hm, rfl⟩ := List.mem_map.1 hjetton
    rw [Option.mem_toList] at hm
    split_ifs at hm
    · obtain ⟨amount, -, hm⟩ := Option.bind_eq_some_iff.1 hm
      obtain ⟨jetton, -, rfl⟩ := Option.map_eq_some_iff.1 hm
      intro hsome
      have htype := congrArg Prod.snd (Option.some.inj hsome)
      exact shownType_ne_excesses _ _ _ htype
  · intro hsome
    cases hsome

/-- Each message has one detail of its own. -/
theorem countP_flatMap_shownWith (jetton : DecodedMessage → Option JettonTransactionMessage)
    (ds : List DecodedMessage) :
    (ds.flatMap fun d => R.shownWith (jetton d) d).countP (fun s => s.2.isNone) = ds.length := by
  induction ds with
  | nil => rfl
  | cons d ds ih =>
    have hone : (R.shownWith (jetton d) d).countP (fun s => s.2.isNone) = 1 := by
      unfold shownWith
      cases jetton d <;> rfl
    rw [List.flatMap_cons, List.countP_append, ih, hone, List.length_cons, Nat.add_comm]

/-- The details agree exactly when the HTTP reader keeps every message and takes none of them for
an operation that the lite reader does not know. -/
theorem flatMap_shown_perm_iff (ds : List DecodedMessage) :
    ((ds.filter fun d => 0 < d.value ∨ d.peer ≠ []).flatMap R.liteShown).Perm
        ((ds.filter fun d => 0 < d.value).flatMap R.catShown) ↔
      (∀ d ∈ ds, d.peer ≠ [] → 0 < d.value) ∧
        ∀ d ∈ ds, 0 < d.value → d.op = TransactionType.excesses →
          d.action = none ∨ d.jetton = none := by
  constructor
  · intro hperm
    refine ⟨?_, ?_⟩
    · -- as many messages are kept by both, and the HTTP reader keeps some of the others'
      have hcount := hperm.countP_eq fun s => s.2.isNone
      unfold liteShown catShown at hcount
      rw [countP_flatMap_shownWith, countP_flatMap_shownWith] at hcount
      have hkept : ds.filter (fun d => 0 < d.value) =
          (ds.filter fun d => 0 < d.value ∨ d.peer ≠ []).filter fun d => 0 < d.value := by
        rw [List.filter_filter]
        refine List.filter_congr fun d _ => ?_
        by_cases hvalue : 0 < d.value <;> simp [hvalue]
      rw [hkept] at hcount
      have hall := List.length_filter_eq_length_iff.1 hcount.symm
      intro d hd hpeer
      have hvalue := hall d (List.mem_filter.2 ⟨hd, by simpa using .inr hpeer⟩)
      simpa using hvalue
    · intro d hd hvalue hop
      by_contra hknown
      rw [not_or] at hknown
      obtain ⟨s, hs, info, hsome⟩ := exists_mem_catShown (R := R) hop hknown.1 hknown.2
      have hmem : s ∈ (ds.filter fun d => 0 < d.value).flatMap R.catShown :=
        List.mem_flatMap.2 ⟨d, List.mem_filter.2 ⟨hd, by simpa using hvalue⟩, hs⟩
      obtain ⟨d', -, hs'⟩ := List.mem_flatMap.1 (hperm.mem_iff.2 hmem)
      exact not_excesses_of_mem_liteShown hs' info hsome
  · intro h
    have hfilter : ds.filter (fun d => 0 < d.value ∨ d.peer ≠ []) =
        ds.filter fun d => 0 < d.value := by
      refine List.filter_congr fun d hd => ?_
      have hpeer := h.1 d hd
      by_cases hvalue : 0 < d.value
      · simp [hvalue]
      · have hnil : d.peer = [] := not_not.1 fun hne => hvalue (hpeer hne)
        simp [hvalue, hnil]
    rw [hfilter]
    refine List.Perm.flatMap_left _ fun d hd => ?_
    rw [List.mem_filter] at hd
    rw [catShown_eq (h.2 d hd.1 (by simpa using hd.2))]

/-- The HTTP reader has a detail exactly when a message has a value. -/
theorem details_eq_nil_iff {details : List ITransactionDetail} {ds : List DecodedMessage}
    (h : (details.map ITransactionDetail.shown).Perm
      ((ds.filter fun d => 0 < d.value).flatMap R.catShown)) :
    details = [] ↔ ¬ ∃ d ∈ ds, 0 < d.value := by
  constructor
  · intro hnil hvalued
    obtain ⟨d, hd, hvalue⟩ := hvalued
    rw [hnil, List.map_nil] at h
    have hall := List.flatMap_eq_nil_iff.1 h.nil_eq.symm
    have hd' := hall d (List.mem_filter.2 ⟨hd, by simpa using hvalue⟩)
    -- the message itself is shown
    exact List.append_ne_nil_of_right_ne_nil _ (List.cons_ne_nil _ _) hd'
  · intro hnone
    have hfilter : ds.filter (fun d => 0 < d.value) = [] :=
      List.filter_eq_nil_iff.2 fun d hd => by simpa using fun hvalue => hnone ⟨d, hd, hvalue⟩
    rw [hfilter] at h
    exact List.map_eq_nil_iff.1 h.eq_nil

namespace OneOut

/-- A client that finds no jetton. -/
def reader (walletType : WalletType) : Reader where
  walletType := walletType
  getJettonInfo _ := none
  getJettonInfoFromWallet _ := none
  fromBoc _ := .error .format
  toBase64String _ := List.replicate 43 'A' ++ ['=']
  toText bytes := bytes.map fun b => Char.ofNat b.toNat
  toString2 _ := none
  messageOf _ := "Object reference not set to an instance of an object."

def address : List Char := "EQAAAAAAAAAAAAAAAAAAAAAAAAAAAAAAAAAAAAAAAAAAAM9c".toList

/-- The comment is hi; the in message is external. -/
def decoded (value : Nat) : DecodedTransaction where
  outMsgs := [⟨true, address, value, some "hi".toList, 0, none, none⟩]
  inMsg := some ⟨false, [], 0, none, 0, none, none⟩

def raw (value : Nat) : GetTransactionsQuery.RTransaction where
  tr := ⟨List.replicate 32 0, List.replicate 32 0, 1, 1700000000, 5000000⟩
  messages := [⟨[], address, value, [104, 105], .text, true⟩]

def cat (value : Nat) : CatTransaction where
  utime := 1700000000
  fee := 5000000
  lt := 1
  hash := List.replicate 43 'A' ++ ['=']
  inMsg := some ⟨none, some address, 0, 0, none, none, none⟩
  outMsgs := [⟨some address, some address, value, 0, some "hi".toList, none, none⟩]

theorem isRawTransaction (walletType : WalletType) (value : Nat) :
    (reader walletType).IsRawTransaction (decoded value) (raw value) := by
  have hfilter : (decoded value).messages.filter (fun d => 0 < d.value ∨ d.peer ≠ []) =
      (decoded value).outMsgs := by
    have hne : address ≠ [] := by decide
    simp [DecodedTransaction.messages, decoded, hne]
  have hraw : (reader walletType).IsRaw ⟨true, address, value, some "hi".toList, 0, none, none⟩
      ⟨[], address, value, [104, 105], .text, true⟩ := by
    have htext : [104, 105].map (fun b : UInt8 => Char.ofNat b.toNat) = "hi".toList := by decide
    refine ⟨rfl, rfl, rfl, congrArg some htext, _, rfl, rfl, ?_⟩
    intro htype
    exact absurd rfl htype
  rw [IsRawTransaction, hfilter]
  exact .cons hraw .nil

theorem isCatTransaction (walletType : WalletType) (value : Nat) :
    (reader walletType).IsCatTransaction (decoded value) (cat value) where
  isOut d hd := by
    obtain rfl := List.mem_singleton.1 hd
    rfl
  isIn d hd := by
    obtain rfl := Option.some.inj hd
    rfl
  outMsgs := .cons ⟨fun _ => rfl, rfl, rfl, rfl, rfl, rfl⟩ .nil
  inMsg := .some ⟨fun h => absurd h (by decide), rfl, rfl, rfl, rfl, rfl⟩

end OneOut

end Reader

end Ton
