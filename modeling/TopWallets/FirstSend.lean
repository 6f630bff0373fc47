import TopWallets.Lib.Runs
import Mathlib.Data.List.Count

/- Sending from a wallet that is not yet active: `TonWallet.SendMessages`, with the
   `Update` of `TonUnknownWallet` that raises `Created`, as an interleaving of the
   threads they run on.

   A call that finds the wallet inactive asks for its creation and subscribes to
   `Created` once that was answered; the subscriber sends. An update assigns the state
   first and raises the event after that, on a thread of its own.

   Main result: in a run that raises `Created` once and is over, every call whose
   creation succeeded is served exactly when each of these answers came before the event
   was raised (`forall_served_iff`).

   Correspondence (C# ↔ Lean):
     `TonUnknownWallet.Update`                         ↔ `Fields.update`
     `SendMessages`, its callbacks and its subscriber  ↔ `Action`, `State.next`
     the subscribers of `Created`, in a snapshot       ↔ `State.subscribers`, `State.handlers` -/
namespace Ton.FirstSend

open Runs

/-! ## Updates -/

inductive ContractState where
  | invalid
  | none
  | initialized
  | active
  | frozen
  deriving DecidableEq

inductive WalletState where
  | none
  | inactive
  | active
  deriving DecidableEq

/-- What is known of an account. The type of an account is its number in `WalletType`, where 0 is
`Empty`. -/
structure AccountState where
  type : Nat
  transaction : Int
  transactionHash : List UInt8
  balance : Int
  version : List Char
  time : Int
  state : ContractState

/-- `GetWalletState`. -/
def AccountState.walletState (account : AccountState) : WalletState :=
  match account.state with
  | .active => .active
  | .initialized | .frozen => .inactive
  | .none | .invalid => .none

/-- The fields of a wallet that an update changes. -/
structure Fields where
  type : Nat
  lastTransactionId : Int
  lastTransactionHash : List UInt8
  balance : Int
  version : List Char
  lastActivityTime : Int
  state : WalletState

namespace Fields

/-- The account differs from what the wallet knows of it. -/
def Differs (w : Fields) (account : AccountState) : Prop :=
  w.lastTransactionId ≠ account.transaction ∨ 0 < account.balance ∧ w.balance ≠ account.balance

instance (w : Fields) (account : AccountState) : Decidable (w.Differs account) :=
  inferInstanceAs (Decidable (_ ∨ _))

/-- The assignments of `Update`. -/
def update (w : Fields) (account : AccountState) : Fields :=
  let w := if w.type = 0 then { w with type := account.type } else w
  if w.Differs account then
    { type := account.type
      lastTransactionId := account.transaction
      lastTransactionHash := account.transactionHash
      balance := max 0 account.balance
      version := account.version
      lastActivityTime := account.time
      state := account.walletState }
  else w

/-- The update raises `Created`: the wallet, a main one, has become active. -/
def raises (w : Fields) (account : AccountState) : Bool :=
  w.Differs account && (account.walletState != w.state) && account.walletState == .active

end Fields

/-! ## Calls -/

section
variable {κ : Type} [DecidableEq κ]

/-- What the result handler of a call is invoked with. -/
inductive Outcome where
  /-- An error before there was anything to send. -/
  | refused (error : List Char)
  /-- The cell that was sent, by its hash, or the error of sending it. -/
  | answered (result : Except (List Char) (List UInt8))

structure State (κ : Type) where
  fields : Fields
  /-- Calls of `SendMessages` so far. -/
  calls : List κ
  /-- Requests to create the wallet without an answer. -/
  creating : List κ
  /-- The subscribers of `Created`. -/
  subscribers : List κ
  /-- Updates that have made the wallet active and are about to raise `Created`. -/
  raising : Nat
  /-- How often `Created` was raised. -/
  raised : Nat
  /-- The subscribers that are still to be invoked. -/
  handlers : List κ
  /-- What is queued on the thread of the adapter. -/
  queue : List κ
  /-- Requests to send without an answer. -/
  sending : List κ
  /-- The calls whose messages were handed over for sending, and what the result handlers got. -/
  sent : List κ
  results : List (κ × Outcome)
  /-- The calls whose wallet was created, and those of them that were told after the event. -/
  created : List κ
  late : List κ

/-- The wallet has become active. -/
def State.Activated (s : State κ) : Prop := 0 < s.raising + s.raised

def init (fields : Fields) : State κ :=
  ⟨fields, [], [], [], 0, 0, [], [], [], [], [], [], []⟩

inductive Action (κ : Type) where
  /-- `SendMessages`, at the point where it looks at the state of the wallet, or was given the
  wrong passcode. -/
  | sendMessages (call : κ)
  | wrongPasscode (call : κ) (error : List Char)
  /-- The answer to `CreateWallet`. -/
  | walletCreated (call : κ) (error : Option (List Char))
  | update (account : AccountState)
  | raise
  /-- The subscriber of a call. -/
  | handle (call : κ)
  | run (call : κ)
  | answer (call : κ) (result : Except (List Char) (List UInt8))

namespace State

def Enabled (s : State κ) : Action κ → Prop
  | .sendMessages call => call ∉ s.calls
  | .wrongPasscode call _ => call ∉ s.calls
  | .walletCreated call _ => call ∈ s.creating
  | .update _ => True
  | .raise => 0 < s.raising
  | .handle call => call ∈ s.handlers
  | .run call => call ∈ s.queue
  | .answer call _ => call ∈ s.sending

instance (s : State κ) : (a : Action κ) → Decidable (s.Enabled a)
  | .sendMessages call => inferInstanceAs (Decidable (call ∉ s.calls))
  | .wrongPasscode call _ => inferInstanceAs (Decidable (call ∉ s.calls))
  | .walletCreated call _ => inferInstanceAs (Decidable (call ∈ s.creating))
  | .update _ => inferInstanceAs (Decidable True)
  | .raise => inferInstanceAs (Decidable (0 < s.raising))
  | .handle call => inferInstanceAs (Decidable (call ∈ s.handlers))
  | .run call => inferInstanceAs (Decidable (call ∈ s.queue))
  | .answer call _ => inferInstanceAs (Decidable (call ∈ s.sending))

/-- `Adapter.SendMessage`. -/
def send (s : State κ) (call : κ) : State κ :=
  { s with sending := s.sending ++ [call], sent := s.sent ++ [call] }

def next (s : State κ) : Action κ → State κ
  | .sendMessages call =>
    if s.fields.state ≠ .active then
      { s with calls := s.calls ++ [call], creating := s.creating ++ [call] }
    else { s with calls := s.calls ++ [call] }.send call
  | .wrongPasscode call error =>
    { s with calls := s.calls ++ [call], results := s.results ++ [(call, .refused error)] }
  | .walletCreated call (some error) =>
    { s with
      creating := s.creating.erase call
      results := s.results ++ [(call, .refused error)] }
  | .walletCreated call none =>
    { s with
      creating := s.creating.erase call
      subscribers := s.subscribers ++ [call]
      created := s.created ++ [call]
      late := if s.raised = 0 then s.late else s.late ++ [call] }
  | .update account =>
    { s with
      fields := s.fields.update account
      raising := if s.fields.raises account then s.raising + 1 else s.raising }
  | .raise =>
    { s with
      raising := s.raising - 1
      raised := s.raised + 1
      handlers := s.handlers ++ s.subscribers }
  | .handle call =>
    { s with
      handlers := s.handlers.erase call
      subscribers := s.subscribers.erase call
      queue := s.queue ++ [call] }
  | .run call => { s with queue := s.queue.erase call }.send call
  | .answer call result =>
    { s with
      sending := s.sending.erase call
      results := s.results ++ [(call, .answered result)] }

/-- Nothing is outstanding. -/
structure Quiet (s : State κ) : Prop where
  creating : s.creating = []
  raising : s.raising = 0
  handlers : s.handlers = []
  queue : s.queue = []
  sending : s.sending = []

/-- How often the result handler of a call was invoked. -/
def answers (s : State κ) (call : κ) : Nat := (s.results.map Prod.fst).count call

end State

def Step (s : State κ) (a : Action κ) (s' : State κ) : Prop := s.Enabled a ∧ s' = s.next a

/-- The messages of a call were sent once, after the wallet became active, and its result handler
was invoked once. -/
structure Served (trace : List (State κ × Action κ)) (s : State κ) (call : κ) : Prop where
  sent : s.sent.count call = 1
  afterActive : ∀ p ∈ trace, p.2 = .run call → p.1.Activated
  answered : s.answers call = 1

/-- The answer that the wallet was created does not come after the event. -/
def InTime (s : State κ) (a : Action κ) : Prop :=
  ∀ call, a = .walletCreated call none → s.raised = 0

/-! ## Before the event -/

/-- Nothing of a call is under way before the event is raised. -/
def Unraised (s : State κ) : Prop :=
  s.raised = 0 → s.handlers = [] ∧ s.queue = [] ∧ s.late = []

theorem unraised_step {s s' : State κ} {a : Action κ} (h : Unraised s) (hstep : Step s a s') :
    Unraised s' := by
  obtain ⟨henabled, rfl⟩ := hstep
  cases a with
  | raise => exact fun h0 => absurd h0 (Nat.succ_ne_zero _)
  | sendMessages call =>
    rw [State.next]
    split <;> exact h
  | wrongPasscode call error => exact h
  | update account => exact h
  | answer call result => exact h
  | walletCreated call error =>
    cases error with
    | some error => exact h
    | none =>
      intro h0
      obtain ⟨hhandlers, hqueue, hlate⟩ := h h0
      exact ⟨hhandlers, hqueue, (if_pos h0).trans hlate⟩
  | handle call =>
    intro h0
    -- there is no handler to run before the event
    have hcall : call ∈ s.handlers := henabled
    rw [(h h0).1] at hcall
    cases hcall
  | run call =>
    intro h0
    have hcall : call ∈ s.queue := henabled
    rw [(h h0).2.1] at hcall
    cases hcall

/-! ## Where a call stands -/

theorem count_concat (l : List κ) (a c : κ) :
    (l ++ [a]).count c = l.count c + if a = c then 1 else 0 := by
  rw [List.count_append, List.count_singleton]
  simp [beq_iff_eq]

theorem count_erase_add {l : List κ} {a : κ} (h : a ∈ l) (c : κ) :
    (l.erase a).count c + (if a = c then 1 else 0) = l.count c := by
  by_cases hac : a = c
  · subst hac
    have hpos := List.count_pos_iff.2 h
    rw [List.count_erase_self, if_pos rfl]
    omega
  · rw [List.count_erase_of_ne (Ne.symm hac), if_neg hac, Nat.add_zero]

/-- What holds while the event was raised once at most: a call stands in one place; a subscriber
that is not to be invoked any more was late; and the messages of a call were handed over if its
answer is outstanding or its result handler was invoked. -/
structure Core (s : State κ) : Prop where
  place : ∀ c, s.creating.count c + s.subscribers.count c + s.queue.count c + s.sending.count c +
    s.answers c = s.calls.count c
  once : ∀ c, s.calls.count c ≤ 1
  snapshot : ∀ c, s.handlers.count c ≤ s.subscribers.count c
  pending : 0 < s.raised → ∀ c, s.subscribers.count c = s.handlers.count c + s.late.count c
  unsent : ∀ c, s.creating.count c = s.calls.count c → s.sent.count c = 0
  handedOver : ∀ c ∈ s.created, s.sent.count c = s.sending.count c + s.answers c
  known : ∀ c ∈ s.created, s.creating.count c = 0 ∧ s.calls.count c = 1

theorem core_init (fields : Fields) : Core (init fields : State κ) where
  place _ := rfl
  once _ := Nat.zero_le _
  snapshot _ := Nat.zero_le _
  pending := nofun
  unsent _ _ := rfl
  handedOver := nofun
  known := nofun

namespace Core

variable {s : State κ}

theorem answers_concat (s : State κ) (call c : κ) (outcome : Outcome) :
    ((s.results ++ [(call, outcome)]).map Prod.fst).count c =
      s.answers c + if call = c then 1 else 0 := by
  rw [List.map_append, List.map_singleton, count_concat]
  rfl

/-- A call that is made for the first time. -/
theorem once_concat (h : Core s) {call : κ} (hcall : call ∉ s.calls) (c : κ) :
    (s.calls ++ [call]).count c ≤ 1 := by
  have hzero : s.calls.count call = 0 := List.count_eq_zero_of_not_mem hcall
  rw [count_concat]
  split
  · next heq =>
    subst heq
    omega
  · exact h.once c

theorem known_concat (h : Core s) {call : κ} (hcall : call ∉ s.calls) {c : κ}
    (hc : c ∈ s.created) : call ≠ c := by
  have hzero : s.calls.count call = 0 := List.count_eq_zero_of_not_mem hcall
  rintro rfl
  have hknown := (h.known _ hc).2
  omega

theorem sendMessages (h : Core s) {call : κ} (hcall : call ∉ s.calls) :
    Core (s.next (.sendMessages call)) := by
  rw [State.next]
  split
  · refine ⟨fun c => ?_, h.once_concat hcall, h.snapshot, h.pending, fun c hc => ?_, h.handedOver,
      fun c hc => ?_⟩
    · have hplace := h.place c
      show (s.creating ++ [call]).count c + s.subscribers.count c + s.queue.count c +
        s.sending.count c + s.answers c = (s.calls ++ [call]).count c
      rw [count_concat, count_concat]
      omega
    · refine h.unsent c ?_
      have hcount : (s.creating ++ [call]).count c = (s.calls ++ [call]).count c := hc
      rw [count_concat, count_concat] at hcount
      omega
    · show (s.creating ++ [call]).count c = 0 ∧ (s.calls ++ [call]).count c = 1
      rw [count_concat, count_concat, if_neg (h.known_concat hcall hc)]
      exact h.known c hc
  · refine ⟨fun c => ?_, h.once_concat hcall, h.snapshot, h.pending, fun c hc => ?_,
      fun c hc => ?_, fun c hc => ?_⟩
    · have hplace := h.place c
      show s.creating.count c + s.subscribers.count c + s.queue.count c +
        (s.sending ++ [call]).count c + s.answers c = (s.calls ++ [call]).count c
      rw [count_concat, count_concat]
      omega
    · have hplace := h.place c
      have hcount : s.creating.count c = (s.calls ++ [call]).count c := hc
      show (s.sent ++ [call]).count c = 0
      rw [count_concat] at hcount ⊢
      have hunsent := h.unsent c (by omega)
      omega
    · show (s.sent ++ [call]).count c = (s.sending ++ [call]).count c + s.answers c
      have hhanded := h.handedOver c hc
      rw [count_concat, count_concat]
      omega
    · show s.creating.count c = 0 ∧ (s.calls ++ [call]).count c = 1
      rw [count_concat, if_neg (h.known_concat hcall hc)]
      exact h.known c hc

theorem wrongPasscode (h : Core s) {call : κ} (hcall : call ∉ s.calls) (error : List Char) :
    Core (s.next (.wrongPasscode call error)) := by
  refine ⟨fun c => ?_, h.once_concat hcall, h.snapshot, h.pending, fun c hc => ?_, fun c hc => ?_,
    fun c hc => ?_⟩
  · have hplace := h.place c
    show s.creating.count c + s.subscribers.count c + s.queue.count c + s.sending.count c +
      ((s.results ++ [_]).map Prod.fst).count c = (s.calls ++ [call]).count c
    rw [answers_concat, count_concat]
    omega
  · have hplace := h.place c
    have hcount : s.creating.count c = (s.calls ++ [call]).count c := hc
    rw [count_concat] at hcount
    exact h.unsent c (by omega)
  · have hhanded := h.handedOver c hc
    show s.sent.count c = s.sending.count c + ((s.results ++ [_]).map Prod.fst).count c
    rw [answers_concat, if_neg (h.known_concat hcall hc)]
    exact hhanded
  · show s.creating.count c = 0 ∧ (s.calls ++ [call]).count c = 1
    rw [count_concat, if_neg (h.known_concat hcall hc)]
    exact h.known c hc

/-- A request to create the wallet stands nowhere else. -/
theorem creating_alone (h : Core s) {call : κ} (hcall : call ∈ s.creating) :
    s.creating.count call = 1 ∧ s.calls.count call = 1 ∧ s.sending.count call = 0 ∧
      s.answers call = 0 := by
  have hpos := List.count_pos_iff.2 hcall
  have hplace := h.place call
  have honce := h.once call
  omega

theorem walletCreated (h : Core s) {call : κ} (hcall : call ∈ s.creating)
    (error : Option (List Char)) : Core (s.next (.walletCreated call error)) := by
  obtain ⟨hone, hmade, hsending, hanswers⟩ := h.creating_alone hcall
  have hunsent : s.sent.count call = 0 := h.unsent call (by omega)
  have hne {c : κ} (hc : c ∈ s.created) : call ≠ c := by
    rintro rfl
    have hknown := (h.known _ hc).1
    omega
  have herase (c : κ) := count_erase_add hcall c
  cases error with
  | some error =>
    refine ⟨fun c => ?_, h.once, h.snapshot, h.pending, fun c hc => ?_, fun c hc => ?_,
      fun c hc => ?_⟩
    · have hplace := h.place c
      have hc := herase c
      show (s.creating.erase call).count c + s.subscribers.count c + s.queue.count c +
        s.sending.count c + ((s.results ++ [_]).map Prod.fst).count c = s.calls.count c
      rw [answers_concat]
      omega
    · have hcount : (s.creating.erase call).count c = s.calls.count c := hc
      have hplace := h.place c
      have hc := herase c
      exact h.unsent c (by omega)
    · show s.sent.count c = s.sending.count c + ((s.results ++ [_]).map Prod.fst).count c
      rw [answers_concat, if_neg (hne hc)]
      exact h.handedOver c hc
    · show (s.creating.erase call).count c = 0 ∧ s.calls.count c = 1
      have hknown := h.known c hc
      have hc := herase c
      omega
  | none =>
    refine ⟨fun c => ?_, h.once, fun c => ?_, fun hraised c => ?_, fun c hc => ?_, fun c hc => ?_,
      fun c hc => ?_⟩
    · have hplace := h.place c
      have hc := herase c
      show (s.creating.erase call).count c + (s.subscribers ++ [call]).count c + s.queue.count c +
        s.sending.count c + s.answers c = s.calls.count c
      rw [count_concat]
      omega
    · have hsnapshot := h.snapshot c
      show s.handlers.count c ≤ (s.subscribers ++ [call]).count c
      rw [count_concat]
      omega
    · have hpending := h.pending hraised c
      have hne0 : s.raised ≠ 0 := Nat.pos_iff_ne_zero.1 hraised
      show (s.subscribers ++ [call]).count c = s.handlers.count c +
        (if s.raised = 0 then s.late else s.late ++ [call]).count c
      rw [if_neg hne0, count_concat, count_concat]
      omega
    · have hcount : (s.creating.erase call).count c = s.calls.count c := hc
      have hplace := h.place c
      have hc := herase c
      exact h.unsent c (by omega)
    · show s.sent.count c = s.sending.count c + s.answers c
      rcases List.mem_append.1 hc with hc | hc
      · exact h.handedOver c hc
      · obtain rfl := List.mem_singleton.1 hc
        omega
    · show (s.creating.erase call).count c = 0 ∧ s.calls.count c = 1
      have herased := herase c
      rcases List.mem_append.1 hc with hc | hc
      · have hknown := h.known c hc
        omega
      · obtain rfl := List.mem_singleton.1 hc
        rw [if_pos rfl] at herased
        omega

/-- The event is raised for the first time. -/
theorem raise (h : Core s) (hfirst : s.raised = 0) (hunraised : Unraised s) :
    Core (s.next .raise) := by
  obtain ⟨hhandlers, -, hlate⟩ := hunraised hfirst
  have hsnapshot : s.handlers ++ s.subscribers = s.subscribers := by
    rw [hhandlers, List.nil_append]
  refine ⟨h.place, h.once, fun c => ?_, fun _ c => ?_, h.unsent, h.handedOver, h.known⟩
  · show (s.handlers ++ s.subscribers).count c ≤ s.subscribers.count c
    exact Nat.le_of_eq (congrArg _ hsnapshot)
  · show s.subscribers.count c = (s.handlers ++ s.subscribers).count c + s.late.count c
    rw [hsnapshot, hlate, List.count_nil, Nat.add_zero]

theorem handle (h : Core s) {call : κ} (hcall : call ∈ s.handlers) :
    Core (s.next (.handle call)) := by
  -- the handlers of the event are those that were subscribed then
  have hsubscribed : call ∈ s.subscribers := by
    have hpos := List.count_pos_iff.2 hcall
    have hsnapshot := h.snapshot call
    exact List.count_pos_iff.1 (by omega)
  refine ⟨fun c => ?_, h.once, fun c => ?_, fun hraised c => ?_, h.unsent, h.handedOver, h.known⟩
  · have hplace := h.place c
    have hc := count_erase_add hsubscribed c
    show s.creating.count c + (s.subscribers.erase call).count c + (s.queue ++ [call]).count c +
      s.sending.count c + s.answers c = s.calls.count c
    rw [count_concat]
    omega
  · have hsnapshot := h.snapshot c
    have hc := count_erase_add hsubscribed c
    have hc' := count_erase_add hcall c
    show (s.handlers.erase call).count c ≤ (s.subscribers.erase call).count c
    omega
  · have hpending := h.pending hraised c
    have hc := count_erase_add hsubscribed c
    have hc' := count_erase_add hcall c
    show (s.subscribers.erase call).count c = (s.handlers.erase call).count c + s.late.count c
    omega

theorem run (h : Core s) {call : κ} (hcall : call ∈ s.queue) : Core (s.next (.run call)) := by
  refine ⟨fun c => ?_, h.once, h.snapshot, h.pending, fun c hc => ?_, fun c hc => ?_, h.known⟩
  · have hplace := h.place c
    have hc := count_erase_add hcall c
    show s.creating.count c + s.subscribers.count c + (s.queue.erase call).count c +
      (s.sending ++ [call]).count c + s.answers c = s.calls.count c
    rw [count_concat]
    omega
  · have hplace := h.place c
    have hunsent := h.unsent c hc
    have hqueued := count_erase_add hcall c
    have hcount : s.creating.count c = s.calls.count c := hc
    show (s.sent ++ [call]).count c = 0
    rw [count_concat]
    omega
  · have hhanded := h.handedOver c hc
    show (s.sent ++ [call]).count c = (s.sending ++ [call]).count c + s.answers c
    rw [count_concat, count_concat]
    omega

theorem answer (h : Core s) {call : κ} (hcall : call ∈ s.sending)
    (result : Except (List Char) (List UInt8)) : Core (s.next (.answer call result)) := by
  refine ⟨fun c => ?_, h.once, h.snapshot, h.pending, h.unsent, fun c hc => ?_, h.known⟩
  · have hplace := h.place c
    have hc := count_erase_add hcall c
    show s.creating.count c + s.subscribers.count c + s.queue.count c +
      (s.sending.erase call).count c + ((s.results ++ [_]).map Prod.fst).count c = s.calls.count c
    rw [answers_concat]
    omega
  · have hhanded := h.handedOver c hc
    have hc := count_erase_add hcall c
    show s.sent.count c = (s.sending.erase call).count c +
      ((s.results ++ [_]).map Prod.fst).count c
    rw [answers_concat]
    omega

end Core

/-- What every action keeps. -/
structure Inv (s : State κ) : Prop where
  unraised : Unraised s
  core : s.raised ≤ 1 → Core s

theorem inv_init (fields : Fields) : Inv (init fields : State κ) :=
  ⟨fun _ => ⟨rfl, rfl, rfl⟩, fun _ => core_init fields⟩

theorem inv_step {s s' : State κ} {a : Action κ} (h : Inv s) (hstep : Step s a s') : Inv s' := by
  refine ⟨unraised_step h.unraised hstep, fun hraised => ?_⟩
  obtain ⟨henabled, rfl⟩ := hstep
  cases a with
  | sendMessages call =>
    refine (h.core ?_).sendMessages henabled
    rw [State.next] at hraised
    split at hraised <;> exact hraised
  | wrongPasscode call error => exact (h.core hraised).wrongPasscode henabled error
  | walletCreated call error =>
    refine (h.core ?_).walletCreated henabled error
    cases error <;> exact hraised
  | update account => exact { h.core hraised with }
  | raise =>
    have hfirst : s.raised = 0 := by
      have hle : s.raised + 1 ≤ 1 := hraised
      omega
    exact (h.core (by omega)).raise hfirst h.unraised
  | handle call => exact (h.core hraised).handle henabled
  | run call => exact (h.core hraised).run henabled
  | answer call result => exact (h.core hraised).answer henabled result

/-! ## Over a run -/

variable {fields : Fields} {trace : List (State κ × Action κ)} {s : State κ}

/-- Messages are handed over after the wallet became active. -/
theorem run_activated (hrun : Run Step (init fields) trace s) (call : κ) :
    ∀ p ∈ trace, p.2 = .run call → p.1.Activated := by
  refine hrun.forall_labels (P := fun s a => a = .run call → s.Activated) (inv_init fields)
    inv_step fun {s a s'} hinv hstep ha => ?_
  subst ha
  have hqueued : call ∈ s.queue := hstep.1
  have hraised : s.raised ≠ 0 := by
    intro h0
    rw [(hinv.unraised h0).2.1] at hqueued
    cases hqueued
  show 0 < s.raising + s.raised
  omega

theorem late_next_eq_nil_iff (s : State κ) (a : Action κ) :
    (s.next a).late = [] ↔ s.late = [] ∧ InTime s a := by
  have hother (hlate : (s.next a).late = s.late) (hne : ∀ call, a ≠ .walletCreated call none) :
      (s.next a).late = [] ↔ s.late = [] ∧ InTime s a := by
    rw [hlate]
    exact (and_iff_left fun call ha => absurd ha (hne call)).symm
  cases a with
  | walletCreated call error =>
    cases error with
    | some error => exact hother rfl nofun
    | none =>
      -- only a subscription after the event is late
      show (if s.raised = 0 then s.late else s.late ++ [call]) = [] ↔ _
      by_cases h0 : s.raised = 0
      · rw [if_pos h0]
        exact (and_iff_left fun _ _ => h0).symm
      · rw [if_neg h0]
        simp [InTime, h0]
  | sendMessages call =>
    refine hother ?_ nofun
    rw [State.next]
    split <;> rfl
  | wrongPasscode | update | raise | handle | run | answer => exact hother rfl nofun

/-- No call was told late exactly when all answers came in time. -/
theorem late_eq_nil_iff (hrun : Run Step (init fields) trace s) :
    s.late = [] ↔ ∀ p ∈ trace, InTime p.1 p.2 := by
  induction hrun with
  | nil => exact iff_of_true rfl nofun
  | @snoc trace s s' a hrun hstep ih =>
    obtain ⟨-, rfl⟩ := hstep
    rw [late_next_eq_nil_iff, ih, List.forall_mem_append, List.forall_mem_singleton]

theorem late_created (hrun : Run Step (init fields) trace s) :
    ∀ call ∈ s.late, call ∈ s.created := by
  apply hrun.invariant
  · exact nofun
  intro s a s' hinv hstep
  obtain ⟨-, rfl⟩ := hstep
  cases a with
  | walletCreated call error =>
    cases error with
    | some error => exact hinv
    | none =>
      intro c hc
      have hlate : c ∈ if s.raised = 0 then s.late else s.late ++ [call] := hc
      rw [State.next, List.mem_append]
      split at hlate
      · exact .inl (hinv c hlate)
      · rcases List.mem_append.1 hlate with hlate | hlate
        · exact .inl (hinv c hlate)
        · exact .inr hlate
  | sendMessages call =>
    rw [State.next]
    split <;> exact hinv
  | wrongPasscode | update | raise | handle | run | answer => exact hinv

/-- Once nothing is outstanding, a call whose wallet was created is served unless it was told
late. -/
theorem served_iff (hrun : Run Step (init fields) trace s) (honce : s.raised = 1)
    (hquiet : s.Quiet) {call : κ} (hcall : call ∈ s.created) :
    Served trace s call ↔ call ∉ s.late := by
  have hcore := (hrun.invariant (inv_init fields) inv_step).core (by omega)
  have hknown := hcore.known call hcall
  have hhanded := hcore.handedOver call hcall
  have hplace := hcore.place call
  have hpending := hcore.pending (by omega) call
  rw [hquiet.queue, hquiet.sending, List.count_nil] at hplace
  rw [hquiet.sending, List.count_nil] at hhanded
  rw [hquiet.handlers, List.count_nil] at hpending
  rw [← List.count_eq_zero]
  constructor
  · rintro ⟨-, -, hanswered⟩
    omega
  · intro hlate
    exact ⟨by omega, run_activated hrun call, by omega⟩

/-- In a run that raises the event once and is over, every call whose wallet was created is served
exactly when all of them were told before the event. -/
theorem forall_served_iff (hrun : Run Step (init fields) trace s) (honce : s.raised = 1)
    (hquiet : s.Quiet) :
    (∀ call ∈ s.created, Served trace s call) ↔ ∀ p ∈ trace, InTime p.1 p.2 := by
  rw [← late_eq_nil_iff hrun]
  constructor
  · intro hserved
    refine List.eq_nil_iff_forall_not_mem.2 fun call hlate => ?_
    have hcall := late_created hrun call hlate
    exact (served_iff hrun honce hquiet hcall).1 (hserved call hcall) hlate
  · intro hlate call hcall
    refine (served_iff hrun honce hquiet hcall).2 ?_
    rw [hlate]
    exact List.not_mem_nil

end

/-! ## One call, answered before or after the event -/

namespace OneCall

def fields : Fields := ⟨0, 0, [], 0, [], 0, .none⟩

def account : AccountState :=
  ⟨7, 1, List.replicate 32 1, 1000000000, "Wallet V4R2".toList, 1, .active⟩

def called : State Nat := (init fields).next (.sendMessages 0)

theorem run_called : Run Step (init fields) [(init fields, .sendMessages 0)] called := by
  have hcalled : Step (init fields) (.sendMessages 0) called := ⟨List.not_mem_nil, rfl⟩
  exact Run.nil.snoc hcalled

/-- The answer comes first. -/
def created : State Nat := called.next (.walletCreated 0 none)

def updated : State Nat := created.next (.update account)

def raised : State Nat := updated.next .raise

def handled : State Nat := raised.next (.handle 0)

def sent : State Nat := handled.next (.run 0)

def answered : State Nat := sent.next (.answer 0 (.ok (List.replicate 32 2)))

theorem run_answered : ∃ trace, Run Step (init fields) trace answered ∧
    ∀ p ∈ trace, InTime p.1 p.2 := by
  have hcreated : Step called (.walletCreated 0 none) created := ⟨by decide, rfl⟩
  have hupdated : Step created (.update account) updated := ⟨trivial, rfl⟩
  have hraised : Step updated .raise raised := ⟨by decide, rfl⟩
  have hhandled : Step raised (.handle 0) handled := ⟨by decide, rfl⟩
  have hsent : Step handled (.run 0) sent := ⟨by decide, rfl⟩
  have hanswered : Step sent (.answer 0 (.ok (List.replicate 32 2))) answered := ⟨by decide, rfl⟩
  refine ⟨_, (((((run_called.snoc hcreated).snoc hupdated).snoc hraised).snoc hhandled).snoc
    hsent).snoc hanswered, ?_⟩
  simp [InTime, called, init, State.next, fields]

/-- The event comes first. -/
def raisedFirst : State Nat := (called.next (.update account)).next .raise

def createdLate : State Nat := raisedFirst.next (.walletCreated 0 none)

theorem run_createdLate : ∃ trace, Run Step (init fields) trace createdLate := by
  have hupdated : Step called (.update account) (called.next (.update account)) := ⟨trivial, rfl⟩
  have hraised : Step (called.next (.update account)) .raise raisedFirst := ⟨by decide, rfl⟩
  have hcreated : Step raisedFirst (.walletCreated 0 none) createdLate := ⟨by decide, rfl⟩
  exact ⟨_, ((run_called.snoc hupdated).snoc hraised).snoc hcreated⟩

end OneCall

/-- A call whose wallet was created before the event is served. -/
theorem served_one_call : ∃ trace, Run Step (init OneCall.fields) trace OneCall.answered ∧
    ∀ call ∈ OneCall.answered.created, Served trace OneCall.answered call := by
  obtain ⟨trace, hrun, hall⟩ := OneCall.run_answered
  have hquiet : OneCall.answered.Quiet := ⟨rfl, rfl, rfl, rfl, rfl⟩
  exact ⟨trace, hrun, (forall_served_iff hrun rfl hquiet).2 hall⟩

/-- A call whose wallet was created is not always served. -/
theorem not_served_one_call :
    ¬ ∀ (trace : List (State Nat × Action Nat)) (s : State Nat),
      Run Step (init OneCall.fields) trace s → s.raised = 1 → s.Quiet →
        ∀ call ∈ s.created, Served trace s call := by
  intro hall
  obtain ⟨trace, hrun⟩ := OneCall.run_createdLate
  have hquiet : OneCall.createdLate.Quiet := ⟨rfl, rfl, rfl, rfl, rfl⟩
  have hserved := hall trace _ hrun rfl hquiet 0 List.mem_cons_self
  cases hserved.sent

end Ton.FirstSend
