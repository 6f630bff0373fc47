import TopWallets.Nacl
import TopWallets.Lib.Runs
import TopWallets.Lib.Utf8

/- A TonConnect session: `Connection` of Complex.Ton, the messages it sends over its key
   pair, and the nonces they are sent under.

   A connection makes one `Nacl` object for its peer, and that object keeps the nonce it
   drew. The text of a message is a parameter (`serialize`), as the JSON library is not
   part of the repository; so is what the environment tells an operation: whether the
   event source is connected, and what the wallet calls back with.

   Main result: the messages of a run have distinct nonces exactly when at most one
   operation of it sends one (`noncesDistinct_iff`).

   Correspondence (C# ↔ Lean):
     `ConnectEvent`, `WalletResponse` and their subclasses ↔ `WalletMessage`
     `Connection`                                          ↔ `Connection`
     `Connect`, `Decline`, `SendError`, ...                ↔ `Operation`, `Connection.run` -/
namespace Ton.TonConnect

open Runs

inductive ErrorCode where
  | unknown
  | badRequest
  | appManifestNotFound
  | appManifestContentError
  | unknownApp
  | userDeclinedTheConnection
  | methodIsNotSupported
  deriving DecidableEq

def ErrorCode.code : ErrorCode → Int
  | .unknown => 0
  | .badRequest => 1
  | .appManifestNotFound => 2
  | .appManifestContentError => 3
  | .unknownApp => 100
  | .userDeclinedTheConnection => 300
  | .methodIsNotSupported => 400

/-- `NETWORK`. -/
def network (isTestnet : Bool) : Int := if isTestnet then -3 else -239

structure Domain where
  lengthBytes : Nat
  value : List Char

structure ParsedMessage where
  workchain : Int
  address : List UInt8
  timestamp : Int
  domain : Domain
  payload : Option (List Char)

structure ConnectRequest where
  name : List Char
  payload : Option (List Char)

inductive ConnectItemReply where
  | tonAddress (address : List Char) (network : Int) (publicKey walletStateInit : List Char)
  | tonProof (timestamp : Int) (signature : List Char) (payload : Option (List Char))
      (domain : Domain)

/-- What is sent to the peer. The events carry the time they are made at. -/
inductive WalletMessage where
  | connectSuccess (id : Int) (items : List ConnectItemReply)
  | connectError (id : Int) (code : ErrorCode) (message : List Char)
  | disconnect (id : Int)
  | sendTransactionSuccess (id : Option (List Char)) (result : List Char)
  | sendTransactionError (id : Option (List Char)) (code : ErrorCode)
      (message : Option (List Char))

/-- What `Connect` reads of the wallet and its adapter. -/
structure ConnectWallet where
  /-- `Address.ToHex` of the address. -/
  addressHex : List Char
  /-- `Address.GetData` of the address. -/
  addressData : Int × List UInt8
  isTestnet : Bool
  publicKeyHex : List Char
  serverTime : Int
  /-- The host of the dApp's URL. -/
  host : List Char
  /-- The signature of a message in base64, or what the passcode makes of it. -/
  sign : (passcode : List Char) → ParsedMessage → Except Exception (List Char)

section
variable (w : ConnectWallet) (passcode stateInit : List Char)

def ConnectWallet.domain : Domain := ⟨Utf8.utf16Length w.host, w.host⟩

/-- What is signed for a `ton_proof` item. -/
def ConnectWallet.proof (request : ConnectRequest) : ParsedMessage :=
  ⟨w.addressData.1, w.addressData.2, w.serverTime, w.domain, request.payload⟩

/-- The reply to one item. Items of other names get none. -/
def replyItem (request : ConnectRequest) : Except Exception (List ConnectItemReply) :=
  if request.name = "ton_addr".toList then
    .ok [.tonAddress w.addressHex (network w.isTestnet) w.publicKeyHex stateInit]
  else if request.name = "ton_proof".toList then do
    let signature ← w.sign passcode (w.proof request)
    return [.tonProof w.serverTime signature request.payload w.domain]
  else .ok []

def replyItems : List ConnectRequest → Except Exception (List ConnectItemReply)
  | [] => .ok []
  | request :: requests => do
    return (← replyItem w passcode stateInit request) ++ (← replyItems requests)

end

/-- The parts of a connection that sending uses, and the bodies it has sent to its peer. -/
structure Connection where
  appPublicKey : List UInt8
  nacl : Nacl
  /-- There is an event source. -/
  eventSource : Bool
  sent : List (List UInt8)

/-- An operation, with what the environment tells it: whether the event source is connected, the
time, in `connect` the state init or the error the wallet calls back with, and in `disconnect`
whether the message could be posted. -/
inductive Operation where
  | connect (connected : Bool) (time : Int) (wallet : ConnectWallet) (passcode : List Char)
      (stateInit : Option (List Char)) (requests : List ConnectRequest)
  | decline (time : Int)
  | sendError (id : Option (List Char)) (code : ErrorCode) (message : Option (List Char))
  | confirmSendTransaction (id : Option (List Char)) (resultBoc : List Char)
  | disconnect (connected posted : Bool) (time : Int)

namespace Connection

section
variable (B : Box)

/-- The constructor, with the private key and the nonce that are generated in it. -/
def new (appPublicKey privateKey : List UInt8) (nonce : Vector UInt8 24) : Connection :=
  ⟨appPublicKey, .new B appPublicKey privateKey nonce, false, []⟩

variable (serialize : WalletMessage → List Char)

def send (c : Connection) (message : WalletMessage) : Connection :=
  { c with sent := c.sent ++ [c.nacl.encryptConcat B (Utf8.encode (serialize message))] }

/-- `IsConnected`. -/
def isConnected (c : Connection) (connected : Bool) : Bool := c.eventSource && connected

/-- The message an operation sends. -/
def message (c : Connection) : Operation → Option WalletMessage
  | .connect connected time wallet passcode stateInit requests =>
    if c.isConnected connected then none
    else
      match stateInit with
      | some stateInit =>
        match replyItems wallet passcode stateInit requests with
        | .ok items => some (.connectSuccess time items)
        | .error _ => none
      | none => none
  | .decline time =>
    some (.connectError time .userDeclinedTheConnection "UserDeclinedTheConnection".toList)
  | .sendError id code message => some (.sendTransactionError id code message)
  | .confirmSendTransaction id resultBoc => some (.sendTransactionSuccess id resultBoc)
  | .disconnect connected _ time =>
    if c.isConnected connected then some (.disconnect time) else none

/-- The event source after an operation. A disconnect that could not be posted raises before it
drops the source. -/
def source (c : Connection) : Operation → Bool
  | .connect _ _ _ _ _ _ => true
  | .disconnect connected posted _ => c.eventSource && !(connected && posted)
  | _ => c.eventSource

def run (c : Connection) (op : Operation) : Connection :=
  let c' := { c with eventSource := c.source op }
  match c.message op with
  | some message => c'.send B serialize message
  | none => c'

def Step (c : Connection) (op : Operation) (c' : Connection) : Prop := c' = c.run B serialize op

end

/-! ## What an operation sends -/

/-- An operation has something to send: `connect` on a connection that is not open, once the wallet
has its state init and can sign every proof asked for; `disconnect` on an open one. -/
def Sends (c : Connection) : Operation → Prop
  | .connect connected _ wallet passcode stateInit requests =>
    ¬ c.isConnected connected ∧ stateInit.isSome ∧
      ∀ request ∈ requests, request.name = "ton_proof".toList →
        (wallet.sign passcode (wallet.proof request)).isOk
  | .disconnect connected _ _ => c.isConnected connected
  | _ => True

end Connection

theorem replyItem_isOk_iff (w : ConnectWallet) (passcode stateInit : List Char)
    (request : ConnectRequest) :
    (replyItem w passcode stateInit request).isOk ↔
      (request.name = "ton_proof".toList → (w.sign passcode (w.proof request)).isOk) := by
  unfold replyItem
  split
  · next haddr =>
    have hname : "ton_addr".toList ≠ "ton_proof".toList := by decide
    rw [haddr]
    exact iff_of_true rfl fun h => absurd h hname
  · split
    · next hproof =>
      cases h : w.sign passcode (w.proof request) with
      | ok signature => exact iff_of_true rfl fun _ => rfl
      | error e =>
        refine iff_of_false (by simp [bind, Except.bind, Except.isOk, Except.toBool]) fun hok => ?_
        simpa [Except.isOk, Except.toBool] using hok hproof
    · next hproof => exact iff_of_true rfl fun h => absurd h hproof

theorem replyItems_isOk_iff (w : ConnectWallet) (passcode stateInit : List Char)
    (requests : List ConnectRequest) :
    (replyItems w passcode stateInit requests).isOk ↔
      ∀ request ∈ requests, request.name = "ton_proof".toList →
        (w.sign passcode (w.proof request)).isOk := by
  induction requests with
  | nil => simp [replyItems, Except.isOk, Except.toBool]
  | cons request requests ih =>
    rw [List.forall_mem_cons, ← replyItem_isOk_iff w passcode stateInit request, ← ih, replyItems]
    cases replyItem w passcode stateInit request with
    | error e => simp [bind, Except.bind, Except.isOk, Except.toBool]
    | ok items =>
      cases replyItems w passcode stateInit requests <;>
        simp [bind, Except.bind, pure, Except.pure, Except.isOk, Except.toBool]

namespace Connection

theorem message_isSome_iff (c : Connection) (op : Operation) :
    (c.message op).isSome ↔ c.Sends op := by
  cases op with
  | connect connected time wallet passcode stateInit requests =>
    simp only [message, Sends]
    by_cases hc : c.isConnected connected
    · simp [hc]
    · cases stateInit with
      | none => simp [hc]
      | some stateInit =>
        rw [← replyItems_isOk_iff wallet passcode stateInit requests]
        cases hitems : replyItems wallet passcode stateInit requests <;>
          simp [hc, hitems, Except.isOk, Except.toBool]
  | decline time => simp [message, Sends]
  | sendError id code text => simp [message, Sends]
  | confirmSendTransaction id resultBoc => simp [message, Sends]
  | disconnect connected posted time =>
    simp only [message, Sends]
    split <;> simp_all

section
variable {B : Box} {serialize : WalletMessage → List Char}

@[simp] theorem run_nacl (c : Connection) (op : Operation) :
    (c.run B serialize op).nacl = c.nacl := by
  unfold run
  cases c.message op <;> rfl

/-- The nonces of the messages sent to the peer. -/
def nonces (c : Connection) : List (List UInt8) := c.sent.map (List.take 24)

/-- A sending operation adds one message, under the nonce of the connection. -/
theorem nonces_run_of_sends {c : Connection} {op : Operation} (h : c.Sends op) :
    (c.run B serialize op).nonces = c.nonces ++ [c.nacl.nonce.toList] := by
  obtain ⟨m, hm⟩ := Option.isSome_iff_exists.1 ((c.message_isSome_iff op).2 h)
  simp only [run, hm, send, nonces, List.map_append, List.map_singleton, Nacl.take_encryptConcat]

theorem nonces_run_of_not_sends {c : Connection} {op : Operation} (h : ¬ c.Sends op) :
    (c.run B serialize op).nonces = c.nonces := by
  have hm : c.message op = none := by
    rw [← Option.not_isSome_iff_eq_none, c.message_isSome_iff op]
    exact h
  simp only [run, hm, nonces]

/-! ## The nonces of a run -/

variable {appPublicKey privateKey : List UInt8} {nonce : Vector UInt8 24}
  {trace : List (Connection × Operation)} {c : Connection}

/-- Every message of a run is sent under the nonce drawn for the connection. -/
theorem nonces_eq_replicate
    (hrun : Run (Step B serialize) (new B appPublicKey privateKey nonce) trace c) :
    c.nacl.nonce = nonce ∧ ∃ n, c.nonces = List.replicate n nonce.toList := by
  induction hrun with
  | nil => exact ⟨rfl, 0, rfl⟩
  | @snoc trace c c' op hrun hstep ih =>
    obtain ⟨hnonce, n, hn⟩ := ih
    obtain rfl : c' = c.run B serialize op := hstep
    refine ⟨by rw [run_nacl, hnonce], ?_⟩
    by_cases hsend : c.Sends op
    · refine ⟨n + 1, ?_⟩
      rw [nonces_run_of_sends hsend, hn, hnonce, List.replicate_succ']
    · exact ⟨n, by rw [nonces_run_of_not_sends hsend, hn]⟩

theorem nonces_eq_nil_iff
    (hrun : Run (Step B serialize) (new B appPublicKey privateKey nonce) trace c) :
    c.nonces = [] ↔ ∀ p ∈ trace, ¬ p.1.Sends p.2 := by
  induction hrun with
  | nil => simp [new, nonces]
  | @snoc trace c c' op hrun hstep ih =>
    obtain rfl : c' = c.run B serialize op := hstep
    rw [List.forall_mem_append, List.forall_mem_singleton, ← ih]
    by_cases hsend : c.Sends op
    · rw [nonces_run_of_sends hsend]
      simp [hsend]
    · rw [nonces_run_of_not_sends hsend]
      simp [hsend]

/-- The messages of a run have distinct nonces exactly when no two of its operations send. -/
theorem noncesDistinct_iff
    (hrun : Run (Step B serialize) (new B appPublicKey privateKey nonce) trace c) :
    c.nonces.Nodup ↔ trace.Pairwise fun p q => ¬ (p.1.Sends p.2 ∧ q.1.Sends q.2) := by
  induction hrun with
  | nil => simp [new, nonces]
  | @snoc trace c c' op hrun hstep ih =>
    obtain rfl : c' = c.run B serialize op := hstep
    have hpair : (trace ++ [(c, op)]).Pairwise (fun p q => ¬ (p.1.Sends p.2 ∧ q.1.Sends q.2)) ↔
        c.nonces.Nodup ∧ ∀ p ∈ trace, ¬ (p.1.Sends p.2 ∧ c.Sends op) := by
      rw [List.pairwise_append, ← ih]
      simp
    rw [hpair]
    by_cases hsend : c.Sends op
    · -- the nonces so far are copies of the one that is added
      obtain ⟨hnonce, n, hn⟩ := nonces_eq_replicate hrun
      have hnil := nonces_eq_nil_iff hrun
      rw [nonces_run_of_sends hsend]
      simp only [hsend, and_true]
      rw [← hnil, hn, hnonce, ← List.replicate_succ', List.nodup_replicate, List.nodup_replicate,
        List.replicate_eq_nil_iff]
      omega
    · rw [nonces_run_of_not_sends hsend]
      simp [hsend]

end

/-! ## Two requests that the user declines -/

namespace TwoReplies

/-- A box that leaves a message as it is. -/
def box : Box :=
  ⟨fun _ _ => List.replicate 32 0, fun padded _ _ => padded, fun _ _ _ => none, sliceFrom⟩

/-- The ids stand for the texts. -/
def serialize : WalletMessage → List Char
  | .sendTransactionError id _ _ => id.getD []
  | _ => []

def nonce : Vector UInt8 24 := Vector.ofFn fun i => i.val.toUInt8

def start : Connection := new box (List.replicate 32 1) (List.replicate 32 2) nonce

def reply (id : List Char) : Operation := .sendError (some id) .userDeclinedTheConnection none

/-- A disconnect of a connection that is not open. -/
def idle : Operation := .disconnect false true 0

def idled : Connection := start.run box serialize idle

def once : Connection := idled.run box serialize (reply ['1'])

def twice : Connection := once.run box serialize (reply ['2'])

theorem run_once :
    Run (Step box serialize) start [(start, idle), (idled, reply ['1'])] once := by
  have hidle : Step box serialize start idle idled := rfl
  have hreply : Step box serialize idled (reply ['1']) once := rfl
  exact (Run.nil.snoc hidle).snoc hreply

theorem not_sends_idle : ¬ start.Sends idle := by
  show ¬ (start.isConnected false = true)
  decide

theorem run_twice : ∃ trace, Run (Step box serialize) start trace twice := by
  have hstep : Step box serialize once (reply ['2']) twice := rfl
  exact ⟨_, run_once.snoc hstep⟩

end TwoReplies

/-- One reply, after a disconnect that sends nothing, does not repeat a nonce. -/
theorem noncesDistinct_one_reply : TwoReplies.once.nonces.Nodup :=
  (noncesDistinct_iff TwoReplies.run_once).2
    (List.pairwise_pair.2 fun h => TwoReplies.not_sends_idle h.1)

/-- A connection does not always use a new nonce for a message. -/
theorem not_noncesDistinct_two_replies :
    ¬ ∀ (trace : List (Connection × Operation)) (c : Connection),
      Run (Step TwoReplies.box TwoReplies.serialize) TwoReplies.start trace c →
        c.nonces.Nodup := by
  intro hall
  obtain ⟨trace, hrun⟩ := TwoReplies.run_twice
  have htwice : ¬ TwoReplies.twice.nonces.Nodup := by decide
  exact htwice (hall trace _ hrun)

end Connection

end Ton.TonConnect
