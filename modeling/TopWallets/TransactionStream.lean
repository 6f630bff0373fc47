import TopWallets.Exceptions
import Mathlib

/- The transactions of an account on their way from the native client to the wallet.

   The native client decodes the transactions of the account, and calls back once for
   a transaction and once for each of its messages that counts: `ToRawTransactions`,
   `LiteClientActor::getTransactions`. `GetTransactionsQuery` puts them together again;
   it closes a transaction when the next one starts, or the query ends.

   Main result: every transaction that was decoded has exactly one entry, in order,
   with one record for each message that counts among its first 100 out messages and
   for its in message (`query_assembles`). Further out messages are not decoded.

   Correspondence (C++ / C# ↔ Lean):
     `to_balance`, `to_raw_message_or_throw`   ↔ `toBalance`, `toRawMessage`
     `to_raw_transaction_or_throw`             ↔ `outMsgLoop`, `toRawTransaction`
     `to_raw_transactions`                     ↔ `toRawTransactions`
     `rawtransaction`, `rawmessage`            ↔ `Rawtransaction`, `Rawmessage`
     `LiteClientActor::getTransactions`        ↔ `sendTransaction`, `getTransactions`
     `OnAddTransaction`, `OnResult`            ↔ `onAddTransaction`, `onResult`
   Unpacking a cell gives a record or an error, also where it raises. A handle is the
   address of a record, and positive. The base64 text of a raw body is exact. -/
namespace Comx

abbrev Status := String

inductive MessageType where
  | none | text | raw | decryptedText | encryptedText
  deriving DecidableEq, Repr

/-- `msg_Data`: the text, or the body of a raw one. -/
structure MsgData where
  type : MessageType
  text : List UInt8
  deriving DecidableEq

/-- `CommonMsgInfo`: amounts, and the texts of standard addresses. -/
inductive CommonMsgInfo where
  | intMsgInfo (value : Option Nat) (src dest : Except Status (List Char))
      (fwdFee ihrFee : Option Nat)
  | extInMsgInfo (dest : Except Status (List Char))
  | extOutMsgInfo (src : Except Status (List Char))

structure Message where
  hash : List UInt8
  info : CommonMsgInfo
  data : MsgData

/-- `raw_message`. -/
structure RawMessage where
  source : List Char
  destination : List Char
  hash : List UInt8
  value : Nat
  fwdFee : Nat
  ihrFee : Nat
  msgData : MsgData
  deriving DecidableEq

/-- An amount has to be within an `int64`. -/
def toBalance : Option Nat → Except Status Nat
  | some balance =>
    if balance < 2 ^ 63 then .ok balance else .error "Failed to unpack balance (2)"
  | none => .error "Failed to unpack balance"

def toRawMessage (message : Message) : Except Status RawMessage :=
  match message.info with
  | .intMsgInfo value src dest fwdFee ihrFee => do
    let balance ← toBalance value
    let src ← src
    let dest ← dest
    let fwdFee ← toBalance fwdFee
    let ihrFee ← toBalance ihrFee
    return ⟨src, dest, message.hash, balance, fwdFee, ihrFee, message.data⟩
  | .extInMsgInfo dest => do return ⟨[], ← dest, message.hash, 0, 0, 0, message.data⟩
  | .extOutMsgInfo src => do return ⟨← src, [], message.hash, 0, 0, 0, message.data⟩

/-- `block::gen::Transaction`. `isJust` is the flag in front of the in message. -/
structure TransactionRecord where
  totalFees : Option Nat
  isJust : Option Bool
  inMsg : Except Status Message
  outmsgCnt : Nat
  outMsgs : Nat → Except Status Message
  storageFees : Option Int

/-- `block::Transaction::Info`, whose transaction may be null. -/
structure TransactionInfo where
  now : Nat
  lt : Int
  hash : List UInt8
  transaction : Option (Except Status TransactionRecord)

/-- `raw_transaction`. -/
structure RawTransaction where
  utime : Int
  lt : Int
  hash : List UInt8
  fee : Nat
  inMsg : Option RawMessage
  outMsgs : List RawMessage
  deriving DecidableEq

/-- One round of the loop over the out messages. -/
def outMsgRound (outMsgs : Nat → Except Status Message) (acc : Nat × List RawMessage) (x : Nat) :
    Except Status (Nat × List RawMessage) := do
  let outMsg ← toRawMessage (← outMsgs x)
  return (acc.1 + outMsg.fwdFee + outMsg.ihrFee, acc.2 ++ [outMsg])

/-- The loop over the out messages, of which it takes no more than 100. -/
def outMsgLoop (record : TransactionRecord) (fees : Nat) : Except Status (Nat × List RawMessage) :=
  (List.range (min record.outmsgCnt 100)).foldlM (outMsgRound record.outMsgs) (fees, [])

/-- The in message, if the flag in front of it is set. -/
def toInMsg (record : TransactionRecord) : Except Status (Option RawMessage) :=
  match record.isJust with
  | some true => do
    let inMsg ← toRawMessage (← record.inMsg)
    return some inMsg
  | some false => .ok none
  | none => .error "Failed to parse long"

def toRawTransaction (info : TransactionInfo) : Except Status RawTransaction :=
  match info.transaction with
  | some unpacked => do
    let record ← unpacked
    let fees ← toBalance record.totalFees
    let inMsg ← toInMsg record
    let acc ← outMsgLoop record fees
    match record.storageFees with
    | some _ => return ⟨info.now, info.lt, info.hash, acc.1, inMsg, acc.2⟩
    | none => .error "Failed to fetch storage fee from transaction"
  | none => .ok ⟨info.now, info.lt, info.hash, 0, none, []⟩

def toRawTransactions (infos : List TransactionInfo) : Except Status (List RawTransaction) :=
  infos.mapM toRawTransaction

structure Rawtransaction where
  hash : List UInt8
  msgHash : List UInt8
  lt : Int
  utime : Int
  fee : Int
  deriving DecidableEq

structure Rawmessage where
  source : List Char
  destination : List Char
  value : Int
  msgData : List UInt8
  messageType : MessageType
  isOut : Bool
  deriving DecidableEq

def Rawtransaction.ofTransaction (trans : RawTransaction) : Rawtransaction where
  hash := trans.hash
  msgHash :=
    match trans.inMsg with
    | some inMsg => inMsg.hash
    | none => List.replicate 32 0
  lt := trans.lt
  utime := trans.utime
  fee := trans.fee

/-- A text ends where a C string does. -/
def Rawmessage.ofMessage (message : RawMessage) (isOut : Bool) : Rawmessage where
  source := message.source
  destination := message.destination
  value := message.value
  msgData :=
    if message.msgData.type = .raw then message.msgData.text
    else message.msgData.text.takeWhile (· ≠ 0)
  messageType := message.msgData.type
  isOut := isOut

/-- What a handle points to; the type at its start says which one it is. -/
inductive Record where
  | transaction (tr : Rawtransaction)
  | message (msg : Rawmessage)

section Send
variable {ε σ : Type} (handler : Record → σ → Except ε σ)

/-- The callbacks of one transaction. -/
def sendTransaction (s : σ) (tr : RawTransaction) : Except ε σ := do
  let s ← handler (.transaction (.ofTransaction tr)) s
  let s ← tr.outMsgs.foldlM (fun s message =>
    if 0 < message.value ∨ message.destination ≠ [] then
      handler (.message (.ofMessage message true)) s
    else .ok s) s
  match tr.inMsg with
  | some inMsg =>
    if 0 < inMsg.value ∨ inMsg.source ≠ [] then handler (.message (.ofMessage inMsg false)) s
    else .ok s
  | none => .ok s

def getTransactions (transactions : List RawTransaction) (s : σ) : Except ε σ :=
  transactions.foldlM (sendTransaction handler) s

end Send

end Comx

namespace Ton.GetTransactionsQuery
open Comx

structure RTransaction where
  tr : Rawtransaction
  messages : List Rawmessage
  deriving DecidableEq

/-- The transactions that are closed, and the one that is open. -/
structure State where
  transactions : List RTransaction
  last : Option RTransaction

def onAddTransaction (record : Record) (s : State) : Except Exception State :=
  match record with
  | .transaction tr => .ok ⟨s.transactions ++ s.last.toList, some ⟨tr, []⟩⟩
  | .message msg =>
    match s.last with
    | some last => .ok { s with last := some { last with messages := last.messages ++ [msg] } }
    | none => .error .nullReference

def onResult (s : State) : State := ⟨s.transactions ++ s.last.toList, none⟩

/-- A query from its start to its result. Where the transactions do not decode there are no
callbacks but the result. -/
def query (infos : List TransactionInfo) : Except Exception (List RTransaction) := do
  let s ← (match toRawTransactions infos with
    | .ok transactions => getTransactions onAddTransaction transactions ⟨[], none⟩
    | .error _ => .ok ⟨[], none⟩)
  return (onResult s).transactions

/-! ## Decoding -/

/-- The messages decode to these, one by one. -/
def Decodes (messages : List (Except Status Message)) (raws : List RawMessage) : Prop :=
  List.Forall₂ (fun message raw => (message >>= toRawMessage) = .ok raw) messages raws

/-- The out messages of a transaction, by their index. -/
def outMessages (info : TransactionInfo) : List (Except Status Message) :=
  match info.transaction with
  | some (.ok record) => (List.range record.outmsgCnt).map record.outMsgs
  | _ => []

/-- The in message, if there is one. -/
def inMessages (info : TransactionInfo) : List (Except Status Message) :=
  match info.transaction with
  | some (.ok record) => if record.isJust = some true then [record.inMsg] else []
  | _ => []

theorem toInMsg_decodes {record : TransactionRecord} {inMsg : Option RawMessage}
    (h : toInMsg record = .ok inMsg) :
    Decodes (if record.isJust = some true then [record.inMsg] else []) inMsg.toList := by
  rw [toInMsg] at h
  split at h
  · next hjust =>
    obtain ⟨message, hmessage, h⟩ := bind_ok_iff.1 h
    obtain ⟨raw, hraw, h⟩ := bind_ok_iff.1 h
    obtain rfl := Except.ok.inj h
    rw [if_pos hjust]
    exact .cons (bind_ok_iff.2 ⟨message, hmessage, hraw⟩) .nil
  · next hjust =>
    obtain rfl := Except.ok.inj h
    rw [if_neg (by rw [hjust]; decide)]
    exact .nil
  · cases h

theorem outMsgLoop_decodes {outMsgs : Nat → Except Status Message} {xs : List Nat}
    {acc acc' : Nat × List RawMessage} (h : xs.foldlM (outMsgRound outMsgs) acc = .ok acc') :
    ∃ raws, acc'.2 = acc.2 ++ raws ∧ Decodes (xs.map outMsgs) raws := by
  induction xs generalizing acc with
  | nil =>
    obtain rfl := Except.ok.inj h
    exact ⟨[], (List.append_nil _).symm, .nil⟩
  | cons x xs ih =>
    rw [List.foldlM_cons] at h
    obtain ⟨acc₁, hround, h⟩ := bind_ok_iff.1 h
    obtain ⟨raws, hraws, hdecodes⟩ := ih h
    obtain ⟨message, hmessage, hround⟩ := bind_ok_iff.1 hround
    obtain ⟨raw, hraw, hround⟩ := bind_ok_iff.1 hround
    obtain rfl := Except.ok.inj hround
    refine ⟨raw :: raws, ?_, .cons (bind_ok_iff.2 ⟨message, hmessage, hraw⟩) hdecodes⟩
    rw [hraws, List.append_assoc, List.singleton_append]

/-- What a transaction decodes to: the first 100 of its out messages, and its in message. -/
theorem toRawTransaction_decodes {info : TransactionInfo} {tr : RawTransaction}
    (h : toRawTransaction info = .ok tr) :
    tr.utime = info.now ∧ tr.lt = info.lt ∧ tr.hash = info.hash ∧
      Decodes ((outMessages info).take 100) tr.outMsgs ∧
      Decodes (inMessages info) tr.inMsg.toList := by
  obtain ⟨now, lt, hash, transaction⟩ := info
  cases transaction with
  | none =>
    obtain rfl := Except.ok.inj h
    exact ⟨rfl, rfl, rfl, .nil, .nil⟩
  | some unpacked =>
    rw [toRawTransaction] at h
    obtain ⟨record, hrecord, h⟩ := bind_ok_iff.1 h
    obtain rfl : unpacked = .ok record := hrecord
    obtain ⟨fees, -, h⟩ := bind_ok_iff.1 h
    obtain ⟨inMsg, hin, h⟩ := bind_ok_iff.1 h
    obtain ⟨acc, hout, h⟩ := bind_ok_iff.1 h
    obtain ⟨raws, hraws, hdecodes⟩ := outMsgLoop_decodes hout
    have hall : Decodes ((outMessages ⟨now, lt, hash, some (.ok record)⟩).take 100) acc.2 := by
      rw [outMessages, ← List.map_take, List.take_range, Nat.min_comm]
      rwa [show acc.2 = raws from hraws]
    split at h
    · obtain rfl := Except.ok.inj h
      exact ⟨rfl, rfl, rfl, hall, toInMsg_decodes hin⟩
    · cases h

theorem toRawTransactions_forall₂ {infos : List TransactionInfo} {trs : List RawTransaction}
    (h : toRawTransactions infos = .ok trs) :
    List.Forall₂ (fun info tr => toRawTransaction info = .ok tr) infos trs := by
  induction infos generalizing trs with
  | nil =>
    obtain rfl := Except.ok.inj h
    exact .nil
  | cons info infos ih =>
    rw [toRawTransactions, List.mapM_cons] at h
    obtain ⟨tr, htr, h⟩ := bind_ok_iff.1 h
    obtain ⟨rest, hrest, h⟩ := bind_ok_iff.1 h
    obtain rfl := Except.ok.inj h
    exact .cons htr (ih hrest)

/-! ## The callbacks -/

/-- What counts of the out messages. -/
def RelevantOut (message : RawMessage) : Prop := message.value ≠ 0 ∨ message.destination ≠ []

/-- What counts of the in messages. -/
def RelevantIn (message : RawMessage) : Prop := message.value ≠ 0 ∨ message.source ≠ []

instance : DecidablePred RelevantOut := fun _ => inferInstanceAs (Decidable (_ ∨ _))

instance : DecidablePred RelevantIn := fun _ => inferInstanceAs (Decidable (_ ∨ _))

/-- The records of the messages that count, the out messages before the in message. -/
def records (outs ins : List RawMessage) : List Rawmessage :=
  (outs.filter RelevantOut).map (Rawmessage.ofMessage · true) ++
    (ins.filter RelevantIn).map (Rawmessage.ofMessage · false)

/-- The entry of a transaction. -/
def entry (tr : RawTransaction) : RTransaction :=
  ⟨.ofTransaction tr, records tr.outMsgs tr.inMsg.toList⟩

/-- The entries there are once the open one is closed. -/
def State.entries (s : State) : List RTransaction := s.transactions ++ s.last.toList

/-- A loop over messages adds the records of those that count to the open transaction. -/
theorem foldlM_message (relevant : RawMessage → Prop) [DecidablePred relevant] (isOut : Bool)
    (messages : List RawMessage) (transactions : List RTransaction) (tr : Rawtransaction)
    (msgs : List Rawmessage) :
    messages.foldlM (fun s message =>
        if relevant message then onAddTransaction (.message (.ofMessage message isOut)) s
        else .ok s) ⟨transactions, some ⟨tr, msgs⟩⟩ =
      .ok ⟨transactions, some ⟨tr, msgs ++
        (messages.filter relevant).map (Rawmessage.ofMessage · isOut)⟩⟩ := by
  induction messages generalizing msgs with
  | nil => rw [List.filter_nil, List.map_nil, List.append_nil]; rfl
  | cons message messages ih =>
    rw [List.foldlM_cons]
    by_cases hrel : relevant message
    · rw [if_pos hrel, onAddTransaction, ok_bind, ih,
        List.filter_cons_of_pos (by simpa using hrel), List.map_cons, List.append_assoc,
        List.singleton_append]
    · rw [if_neg hrel, ok_bind, ih, List.filter_cons_of_neg (by simpa using hrel)]

theorem filter_relevantOut (messages : List RawMessage) :
    messages.filter (fun message => 0 < message.value ∨ message.destination ≠ []) =
      messages.filter RelevantOut :=
  List.filter_congr fun _ _ => decide_eq_decide.2 (or_congr_left Nat.pos_iff_ne_zero)

theorem filter_relevantIn (messages : List RawMessage) :
    messages.filter (fun message => 0 < message.value ∨ message.source ≠ []) =
      messages.filter RelevantIn :=
  List.filter_congr fun _ _ => decide_eq_decide.2 (or_congr_left Nat.pos_iff_ne_zero)

/-- One transaction closes the one before it, and leaves its own entry open. -/
theorem sendTransaction_eq (s : State) (tr : RawTransaction) :
    sendTransaction onAddTransaction s tr = .ok ⟨s.entries, some (entry tr)⟩ := by
  have hout := foldlM_message (fun message => 0 < message.value ∨ message.destination ≠ []) true
    tr.outMsgs s.entries (.ofTransaction tr) []
  rw [filter_relevantOut, List.nil_append] at hout
  have hin := foldlM_message (fun message => 0 < message.value ∨ message.source ≠ []) false
    tr.inMsg.toList s.entries (.ofTransaction tr)
    ((tr.outMsgs.filter RelevantOut).map (Rawmessage.ofMessage · true))
  rw [filter_relevantIn] at hin
  rw [sendTransaction, onAddTransaction, ok_bind, ← State.entries, hout, ok_bind, entry, records,
    ← hin]
  cases tr.inMsg with
  | none => rfl
  | some inMsg => exact (bind_pure _).symm

/-- All of them leave an entry each, in order. -/
theorem getTransactions_eq (trs : List RawTransaction) (s : State) :
    ∃ s', getTransactions onAddTransaction trs s = .ok s' ∧
      s'.entries = s.entries ++ trs.map entry := by
  induction trs generalizing s with
  | nil => exact ⟨s, rfl, (List.append_nil _).symm⟩
  | cons tr trs ih =>
    obtain ⟨s', hs', hentries⟩ := ih ⟨s.entries, some (entry tr)⟩
    refine ⟨s', ?_, ?_⟩
    · rw [getTransactions, List.foldlM_cons, sendTransaction_eq]
      exact hs'
    · rw [hentries, State.entries, List.append_assoc]
      rfl

/-- The query assembles an entry for every decoded transaction. -/
theorem query_eq {infos : List TransactionInfo} {trs : List RawTransaction}
    (h : toRawTransactions infos = .ok trs) : query infos = .ok (trs.map entry) := by
  obtain ⟨s, hs, hentries⟩ := getTransactions_eq trs ⟨[], none⟩
  rw [query, h]
  simp only [hs, ok_bind]
  exact congrArg Except.ok hentries

/-- An entry is that of a transaction, and has one record for each message that counts among those
looked at, out messages by their index and then the in message. -/
def Assembles (looked : List (Except Status Message)) (info : TransactionInfo)
    (e : RTransaction) : Prop :=
  e.tr.hash = info.hash ∧ e.tr.lt = info.lt ∧ e.tr.utime = info.now ∧
    ∃ outs ins, Decodes looked outs ∧ Decodes (inMessages info) ins ∧ e.messages = records outs ins

/-- Every transaction has one entry, in order, with the records of its first 100 out messages and
of its in message. -/
theorem query_assembles {infos : List TransactionInfo} {trs : List RawTransaction}
    (h : toRawTransactions infos = .ok trs) :
    ∃ entries, query infos = .ok entries ∧
      List.Forall₂ (fun info e => Assembles ((outMessages info).take 100) info e)
        infos entries := by
  refine ⟨_, query_eq h, ?_⟩
  rw [List.forall₂_map_right_iff]
  refine (toRawTransactions_forall₂ h).imp fun info tr htr => ?_
  obtain ⟨hutime, hlt, hhash, houts, hins⟩ := toRawTransaction_decodes htr
  exact ⟨hhash, hlt, hutime, _, _, houts, hins, rfl⟩

/-- A message of one nanogram between two addresses. -/
def payment : Message where
  hash := List.replicate 32 7
  info := .intMsgInfo (some 1) (.ok ['A']) (.ok ['B']) (some 0) (some 0)
  data := ⟨.text, []⟩

def rawPayment : RawMessage :=
  ⟨['A'], ['B'], List.replicate 32 7, 1, 0, 0, ⟨.text, []⟩⟩

/-- A transaction of so many payments, and no in message. -/
def payments (cnt : Nat) : TransactionInfo where
  now := 0
  lt := 2
  hash := List.replicate 32 0
  transaction := some (.ok ⟨some 0, some false, .error "", cnt, fun _ => .ok payment, some 0⟩)

/-- A transaction of two payments, and one that is null. -/
theorem query_assembles_two :
    ∃ entries, query [payments 2, ⟨0, 1, List.replicate 32 0, none⟩] = .ok entries ∧
      List.Forall₂ (fun info e => Assembles ((outMessages info).take 100) info e)
        [payments 2, ⟨0, 1, List.replicate 32 0, none⟩] entries :=
  have hdecoded : toRawTransactions [payments 2, ⟨0, 1, List.replicate 32 0, none⟩] =
      .ok [⟨0, 2, List.replicate 32 0, 0, none, [rawPayment, rawPayment]⟩,
        ⟨0, 1, List.replicate 32 0, 0, none, []⟩] := rfl
  query_assembles hdecoded

theorem decodes_payments (n : Nat) :
    Decodes (List.replicate n (.ok payment)) (List.replicate n rawPayment) := by
  induction n with
  | zero => exact .nil
  | succ n ih => exact .cons rfl ih

/-- A message decodes in one way. -/
theorem Decodes.unique {messages : List (Except Status Message)} {raws raws' : List RawMessage}
    (h : Decodes messages raws) (h' : Decodes messages raws') : raws = raws' :=
  List.right_unique_forall₂' (fun _ _ _ hr hr' => Except.ok.inj (hr.symm.trans hr')) h h'

set_option maxRecDepth 20000 in
/-- Of 101 payments the last one has no record. -/
theorem not_assembles_101 :
    ¬ ∃ entries, query [payments 101] = .ok entries ∧
      List.Forall₂ (fun info e => Assembles (outMessages info) info e) [payments 101] entries := by
  rintro ⟨entries, hquery, hall⟩
  have hraw : toRawTransactions [payments 101] =
      .ok [⟨0, 2, List.replicate 32 0, 0, none, List.replicate 100 rawPayment⟩] := rfl
  obtain rfl := Except.ok.inj ((query_eq hraw).symm.trans hquery)
  cases hall with
  | cons hassembles _ =>
    obtain ⟨-, -, -, outs, ins, houts, hins, hmessages⟩ := hassembles
    have hreplicate : outMessages (payments 101) = List.replicate 101 (.ok payment) := rfl
    rw [hreplicate] at houts
    obtain rfl := houts.unique (decodes_payments 101)
    obtain rfl := hins.unique .nil
    exact absurd (congrArg List.length hmessages) (by decide)

end Ton.GetTransactionsQuery
