import TopWallets.TonConnect

/- The form that asks the user to confirm a TonConnect request: `TonMultiSendForm` of
   Complex.Ton, as a state machine over its screens, the answers of the wallet it waits
   for and the operations it runs on the connection.

   A control runs the handler it was given: the close button of a screen its close
   handler, which is `Cancel` on some screens and `CloseCheck` on others. The wallet
   answers each call once, also after the form was closed.

   Main result: a run of the form has answered its request once, and rightly, wherever
   it is closed, exactly when the form is never closed by `CloseCheck` before the
   messages are sent (`forall_answered_iff`).

   Correspondence (C# ↔ Lean):
     the panels, with `Wait`, `Error`, `ErrorLang`, `Done`  ↔ `Screen`
     the handlers the panels are given, and the callbacks   ↔ `Event`, `next` -/
namespace Ton.TonMultiSendForm

open Runs TonConnect

inductive Screen where
  | calculation
  | main
  | password
  | checking
  | wrongPassword
  | sending
  | error
  | done
  deriving DecidableEq

inductive CloseHandler where
  | cancel
  | closeCheck
  deriving DecidableEq

/-- The close handler of a screen. Those of the controller close by `CloseCheck` unless they are
told otherwise. -/
def Screen.closeHandler : Screen → CloseHandler
  | .calculation | .main | .password => .cancel
  | .checking | .wrongPassword | .sending | .error | .done => .closeCheck

/-- The cell of the messages that were sent, as its hash and its BoC in base64. -/
structure SentCell where
  hash : List UInt8
  boc : List Char
  deriving DecidableEq

inductive Event where
  /-- The fees and the states of the receivers are known, and whether the balance covers it all. -/
  | calculated (affordable : Bool)
  | setPasscode
  | goBack
  | complete (passcode : List Char)
  | checked (error : Option (List Char))
  | goBackToPassword
  /-- `SendMessages` calls back with the cell or an error. -/
  | sent (result : Except (List Char) SentCell)
  | resend
  | transactionComplete (hash : List UInt8)
  | proceed
  | close

structure State where
  screen : Screen
  closed : Bool
  /-- The main panel is yet to be made. -/
  calculating : Bool
  /-- The button of the main panel is enabled. -/
  affordable : Bool
  passcode : List Char
  /-- Calls of `CheckPassword` and of `SendMessages` without an answer. -/
  checks : Nat
  sends : Nat
  hash : Option (List UInt8)
  continueEnabled : Bool
  /-- What was sent, and what the form has run on the connection. -/
  cells : List SentCell
  operations : List Operation

/-- The form once it is opened. -/
def init : State := ⟨.calculation, false, true, false, [], 0, 0, none, false, [], []⟩

namespace State

/-- `Send`. -/
def send (s : State) : State :=
  { s with screen := .sending, continueEnabled := false, sends := s.sends + 1 }

/-- `Cancel`. -/
def cancel (reqID : Option (List Char)) (s : State) : State :=
  { s with
    closed := true
    operations := s.operations ++ [.sendError reqID .userDeclinedTheConnection none] }

/-- The callback of `SendMessages` with a cell. -/
def confirm (reqID : Option (List Char)) (cell : SentCell) (s : State) : State :=
  { s with
    hash := some cell.hash
    cells := s.cells ++ [cell]
    operations := s.operations ++ [.confirmSendTransaction reqID cell.boc] }

/-- An event can happen: a button is there, or an answer is outstanding. -/
def Enabled (s : State) : Event → Prop
  | .calculated _ => s.calculating
  | .setPasscode => s.closed = false ∧ s.screen = .main ∧ s.affordable
  | .goBack => s.closed = false ∧ s.screen = .password
  | .complete _ => s.closed = false ∧ s.screen = .password
  | .checked _ => 0 < s.checks
  | .goBackToPassword => s.closed = false ∧ s.screen = .wrongPassword
  | .sent _ => 0 < s.sends
  | .resend => s.closed = false ∧ s.screen = .error
  | .transactionComplete _ => s.closed = false
  | .proceed => s.closed = false ∧ s.screen = .sending ∧ s.continueEnabled
  | .close => s.closed = false

def next (reqID : Option (List Char)) (s : State) : Event → State
  | .calculated affordable =>
    { s with screen := .main, calculating := false, affordable := affordable }
  | .setPasscode => { s with screen := .password, passcode := [] }
  | .goBack => { s with screen := .main }
  | .complete passcode =>
    { s with screen := .checking, passcode := passcode, checks := s.checks + 1 }
  | .checked none => { s with checks := s.checks - 1 }.send
  | .checked (some _) => { s with screen := .wrongPassword, checks := s.checks - 1 }
  | .goBackToPassword => { s with screen := .password }
  | .sent (.ok cell) => { s with sends := s.sends - 1 }.confirm reqID cell
  | .sent (.error _) => { s with screen := .error, sends := s.sends - 1 }
  | .resend => s.send
  | .transactionComplete hash =>
    if s.hash = some hash then { s with continueEnabled := true } else s
  | .proceed => { s with screen := .done }
  | .close =>
    match s.screen.closeHandler with
    | .cancel => s.cancel reqID
    | .closeCheck => { s with closed := true }

theorem next_close_of_cancel {reqID : Option (List Char)} {s : State}
    (h : s.screen.closeHandler = .cancel) : s.next reqID .close = s.cancel reqID := by
  rw [next, h]

theorem next_close_of_closeCheck {reqID : Option (List Char)} {s : State}
    (h : s.screen.closeHandler = .closeCheck) :
    s.next reqID .close = { s with closed := true } := by
  rw [next, h]

end State

section
variable {reqID : Option (List Char)} {s s' : State} {e : Event}

def Step (reqID : Option (List Char)) (s : State) (e : Event) (s' : State) : Prop :=
  s.Enabled e ∧ s' = s.next reqID e

/-- The messages were sent at most once, and where the form is closed its request has one answer:
a confirmation of what was sent, or an error if nothing was. -/
structure Answered (reqID : Option (List Char)) (s : State) : Prop where
  once : s.cells.length ≤ 1
  reply : s.closed →
    (∃ cell, s.cells = [cell] ∧ s.operations = [.confirmSendTransaction reqID cell.boc]) ∨
      (s.cells = [] ∧ ∃ code message, s.operations = [.sendError reqID code message])

/-- The form is not closed by `CloseCheck` before the messages are sent. -/
def ClosesAnswered (s : State) (e : Event) : Prop :=
  e = .close → s.screen.closeHandler = .cancel ∨ s.cells ≠ []

/-! ## What a form is waiting for -/

/-- Where the screens of an open form stand: what they wait for, and what was sent. -/
def Screen.Stands (s : State) : Screen → Prop
  | .calculation | .main | .password | .wrongPassword | .error =>
    s.checks = 0 ∧ s.sends = 0 ∧ s.cells = []
  | .checking => s.checks = 1
  | .sending => s.sends = 1 ∨ s.cells ≠ []
  | .done => s.cells ≠ []

/-- What holds of a form: it waits for one answer at most, and for none once it has replied; an
open form has replied by confirming what was sent, and stands where its screen says. -/
structure Inv (reqID : Option (List Char)) (s : State) : Prop where
  single : s.checks + s.sends + s.operations.length ≤ 1
  replies : s.operations = s.cells.map (fun cell => .confirmSendTransaction reqID cell.boc) ∨
    s.cells = [] ∧ ∃ code message, s.operations = [.sendError reqID code message]
  confirms : s.closed = false →
    s.operations = s.cells.map (fun cell => .confirmSendTransaction reqID cell.boc)
  stands : s.closed = false → s.screen.Stands s
  /-- The main panel is made while the form shows the first screen. -/
  calculates : s.closed = false → s.calculating → s.screen = .calculation
  hashed : s.hash.isSome → s.cells ≠ []
  continues : s.continueEnabled → s.hash.isSome

theorem inv_init : Inv reqID init where
  single := by decide
  replies := .inl rfl
  confirms _ := rfl
  stands _ := ⟨rfl, rfl, rfl⟩
  calculates _ _ := rfl
  hashed := nofun
  continues := nofun

namespace Inv

/-- A form that waits for an answer has not replied. -/
theorem idle_of_waiting (h : Inv reqID s) (hwait : 0 < s.checks + s.sends) :
    s.cells = [] ∧ s.operations = [] := by
  have hops : s.operations = [] := by
    have hsingle := h.single
    exact List.eq_nil_of_length_eq_zero (by omega)
  refine ⟨?_, hops⟩
  rcases h.replies with hmap | ⟨hcells, -⟩
  · rw [hops] at hmap
    exact List.map_eq_nil_iff.1 hmap.symm
  · exact hcells

/-- A form that waits for an answer has left its first screen. -/
theorem not_calculating (h : Inv reqID s) (hwait : 0 < s.checks + s.sends)
    (hopen : s.closed = false) : ¬ s.calculating := by
  intro hcalc
  have hstands := h.stands hopen
  rw [h.calculates hopen hcalc] at hstands
  obtain ⟨hchecks, hsends, -⟩ := hstands
  omega

/-- A form that shows one of its later screens is no longer calculating. -/
theorem calculates_of_ne (h : Inv reqID s) (hopen : s.closed = false)
    (hne : s.screen ≠ .calculation) : ¬ s.calculating :=
  fun hcalc => hne (h.calculates hopen hcalc)

/-- A form that is open and waits for `SendMessages` shows so. -/
theorem screen_of_sends (h : Inv reqID s) (hsends : 0 < s.sends) (hopen : s.closed = false) :
    s.screen = .sending := by
  have hstands := h.stands hopen
  have hsingle := h.single
  have hcells := (h.idle_of_waiting (by omega)).1
  cases hscreen : s.screen <;> simp only [hscreen, Screen.Stands] at hstands
  case sending => rfl
  case checking => omega
  case done => exact absurd hcells hstands
  all_goals omega

/-- A form that is open on a screen that cancels has done nothing yet. -/
theorem idle_of_cancel (h : Inv reqID s) (hopen : s.closed = false)
    (hcancel : s.screen.closeHandler = .cancel) :
    s.checks = 0 ∧ s.sends = 0 ∧ s.cells = [] ∧ s.operations = [] := by
  have hstands := h.stands hopen
  have hconfirms := h.confirms hopen
  have hidle : s.checks = 0 ∧ s.sends = 0 ∧ s.cells = [] := by
    cases hscreen : s.screen <;> rw [hscreen] at hstands hcancel
    case calculation | main | password => exact hstands
    all_goals cases hcancel
  refine ⟨hidle.1, hidle.2.1, hidle.2.2, ?_⟩
  rw [hconfirms, hidle.2.2, List.map_nil]

/-! ## What an event keeps -/

theorem send (h : Inv reqID s) (hidle : s.checks + s.sends = 0)
    (hops : s.operations = []) (hcalc : s.closed = false → ¬ s.calculating) :
    Inv reqID s.send where
  single := by
    show s.checks + (s.sends + 1) + s.operations.length ≤ 1
    rw [hops, List.length_nil]
    omega
  replies := h.replies
  confirms := h.confirms
  stands _ := by
    refine .inl ?_
    show s.sends + 1 = 1
    omega
  calculates hopen hc := absurd hc (hcalc hopen)
  hashed := h.hashed
  continues := nofun

/-- The form shows a screen on which it waits for nothing. -/
theorem showScreen (h : Inv reqID s) {screen : Screen}
    (hscreen : screen = .main ∨ screen = .password ∨ screen = .wrongPassword ∨ screen = .error)
    (hidle : s.closed = false → s.checks = 0 ∧ s.sends = 0 ∧ s.cells = [])
    (hcalc : s.closed = false → ¬ s.calculating) :
    Inv reqID { s with screen := screen } where
  single := h.single
  replies := h.replies
  confirms := h.confirms
  stands hopen := by
    rcases hscreen with rfl | rfl | rfl | rfl <;> exact hidle hopen
  calculates hopen hc := absurd hc (hcalc hopen)
  hashed := h.hashed
  continues := h.continues

/-- An answer of `CheckPassword`. -/
theorem checkAnswered (h : Inv reqID s) (hchecks : 0 < s.checks) :
    Inv reqID { s with screen := .wrongPassword, checks := s.checks - 1 } := by
  obtain ⟨hcells, hops⟩ := h.idle_of_waiting (by omega)
  have hsingle := h.single
  have hzero : s.checks - 1 = 0 ∧ s.sends = 0 := by omega
  refine ⟨by show s.checks - 1 + s.sends + s.operations.length ≤ 1; omega, h.replies, h.confirms,
    fun _ => ⟨hzero.1, hzero.2, hcells⟩, fun hopen hcalc => ?_, h.hashed, h.continues⟩
  exact absurd hcalc (h.not_calculating (by omega) hopen)

theorem checked (h : Inv reqID s) (hchecks : 0 < s.checks) (error : Option (List Char)) :
    Inv reqID (s.next reqID (.checked error)) := by
  have hanswered := h.checkAnswered hchecks
  cases error with
  | some error => exact hanswered
  | none =>
    obtain ⟨hcells, hops⟩ := h.idle_of_waiting (by omega)
    have hsingle := h.single
    refine hanswered.send ?_ hops fun hopen => h.not_calculating (by omega) hopen
    show s.checks - 1 + s.sends = 0
    omega

theorem sent (h : Inv reqID s) (hsends : 0 < s.sends) (result : Except (List Char) SentCell) :
    Inv reqID (s.next reqID (.sent result)) := by
  obtain ⟨hcells, hops⟩ := h.idle_of_waiting (by omega)
  have hsingle := h.single
  have hzero : s.checks = 0 ∧ s.sends - 1 = 0 := by omega
  have hcalc : s.closed = false → ¬ s.calculating := h.not_calculating (by omega)
  cases result with
  | error error =>
    refine ⟨?_, h.replies, h.confirms, fun _ => ⟨hzero.1, hzero.2, hcells⟩,
      fun hopen hc => absurd hc (hcalc hopen), h.hashed, h.continues⟩
    show s.checks + (s.sends - 1) + s.operations.length ≤ 1
    omega
  | ok cell =>
    have hcells' : s.cells ++ [cell] ≠ [] := by simp
    have hmap : s.operations ++ [.confirmSendTransaction reqID cell.boc] =
        (s.cells ++ [cell]).map (fun cell => .confirmSendTransaction reqID cell.boc) := by
      rw [hops, hcells]
      rfl
    refine ⟨?_, .inl hmap, fun _ => hmap, fun hopen => ?_, fun hopen hc => absurd hc (hcalc hopen),
      fun _ => hcells', fun _ => rfl⟩
    · show s.checks + (s.sends - 1) + (s.operations ++ [_]).length ≤ 1
      rw [hops, List.nil_append, List.length_singleton]
      omega
    · show s.screen.Stands _
      rw [h.screen_of_sends hsends hopen]
      exact .inr hcells'

theorem close (h : Inv reqID s) (hopen : s.closed = false) :
    Inv reqID (s.next reqID .close) := by
  cases hhandler : s.screen.closeHandler with
  | closeCheck =>
    rw [State.next_close_of_closeCheck hhandler]
    exact ⟨h.single, h.replies, nofun, nofun, nofun, h.hashed, h.continues⟩
  | cancel =>
    obtain ⟨hchecks, hsends, hcells, hops⟩ := h.idle_of_cancel hopen hhandler
    have hcancelled : (s.cancel reqID).operations =
        [.sendError reqID .userDeclinedTheConnection none] := by
      rw [State.cancel, hops, List.nil_append]
    rw [State.next_close_of_cancel hhandler]
    refine ⟨?_, .inr ⟨hcells, _, _, hcancelled⟩, nofun, nofun, nofun, h.hashed, h.continues⟩
    rw [hcancelled]
    show s.checks + s.sends + 1 ≤ 1
    omega

theorem step (h : Inv reqID s) (hstep : Step reqID s e s') : Inv reqID s' := by
  obtain ⟨henabled, rfl⟩ := hstep
  cases e with
  | calculated affordable =>
    have hidle (hopen : s.closed = false) : s.checks = 0 ∧ s.sends = 0 ∧ s.cells = [] := by
      have hstands := h.stands hopen
      rw [h.calculates hopen henabled] at hstands
      exact hstands
    exact ⟨h.single, h.replies, h.confirms, hidle, nofun, h.hashed, h.continues⟩
  | setPasscode =>
    obtain ⟨hopen, hscreen, -⟩ := henabled
    have hidle := h.stands hopen
    rw [hscreen] at hidle
    have hcalc := h.calculates_of_ne hopen (by rw [hscreen]; decide)
    exact { h.showScreen (.inr (.inl rfl)) (fun _ => hidle) fun _ => hcalc with }
  | goBack =>
    obtain ⟨hopen, hscreen⟩ := henabled
    have hidle := h.stands hopen
    rw [hscreen] at hidle
    have hcalc := h.calculates_of_ne hopen (by rw [hscreen]; decide)
    exact h.showScreen (.inl rfl) (fun _ => hidle) fun _ => hcalc
  | complete passcode =>
    obtain ⟨hopen, hscreen⟩ := henabled
    obtain ⟨hchecks, hsends, hcells⟩ : s.checks = 0 ∧ s.sends = 0 ∧ s.cells = [] := by
      have hstands := h.stands hopen
      rw [hscreen] at hstands
      exact hstands
    have hcalc := h.calculates_of_ne hopen (by rw [hscreen]; decide)
    have hops := (h.idle_of_cancel hopen (by rw [hscreen]; rfl)).2.2.2
    refine ⟨?_, h.replies, h.confirms, fun _ => ?_, fun _ hc => absurd hc hcalc, h.hashed,
      h.continues⟩
    · show s.checks + 1 + s.sends + s.operations.length ≤ 1
      rw [hops, hchecks, hsends]
      decide
    · show s.checks + 1 = 1
      rw [hchecks]
  | checked error => exact h.checked henabled error
  | goBackToPassword =>
    obtain ⟨hopen, hscreen⟩ := henabled
    have hidle := h.stands hopen
    rw [hscreen] at hidle
    have hcalc := h.calculates_of_ne hopen (by rw [hscreen]; decide)
    exact h.showScreen (.inr (.inl rfl)) (fun _ => hidle) fun _ => hcalc
  | sent result => exact h.sent henabled result
  | resend =>
    obtain ⟨hopen, hscreen⟩ := henabled
    obtain ⟨hchecks, hsends, hcells⟩ : s.checks = 0 ∧ s.sends = 0 ∧ s.cells = [] := by
      have hstands := h.stands hopen
      rw [hscreen] at hstands
      exact hstands
    have hcalc := h.calculates_of_ne hopen (by rw [hscreen]; decide)
    have hops : s.operations = [] := by rw [h.confirms hopen, hcells, List.map_nil]
    exact h.send (by omega) hops fun _ => hcalc
  | transactionComplete hash =>
    rw [State.next]
    by_cases hhash : s.hash = some hash
    · rw [if_pos hhash]
      exact { h with continues := fun _ => by rw [hhash]; rfl }
    · rw [if_neg hhash]
      exact h
  | proceed =>
    obtain ⟨hopen, hscreen, hcontinue⟩ := henabled
    have hcalc := h.calculates_of_ne hopen (by rw [hscreen]; decide)
    exact ⟨h.single, h.replies, h.confirms, fun _ => h.hashed (h.continues hcontinue),
      fun _ hc => absurd hc hcalc, h.hashed, h.continues⟩
  | close => exact h.close henabled

/-- A closed form has answered exactly when it has run an operation. -/
theorem answered_iff (h : Inv reqID s) : Answered reqID s ↔ (s.closed → s.operations ≠ []) := by
  constructor
  · rintro ⟨-, hreply⟩ hclosed
    rcases hreply hclosed with ⟨cell, -, hops⟩ | ⟨-, code, message, hops⟩ <;> simp [hops]
  · intro hops
    have hsingle := h.single
    refine ⟨?_, fun hclosed => ?_⟩
    · rcases h.replies with hmap | ⟨hcells, -⟩
      · rw [hmap, List.length_map] at hsingle
        omega
      · simp [hcells]
    · rcases h.replies with hmap | hdeclined
      · have hlen : s.operations.length = 1 := by
          have hpos := List.length_pos_iff.2 (hops hclosed)
          omega
        rw [hmap, List.length_map] at hlen
        obtain ⟨cell, hcell⟩ := List.length_eq_one_iff.1 hlen
        exact .inl ⟨cell, hcell, by rw [hmap, hcell, List.map_singleton]⟩
      · exact .inr hdeclined

end Inv

/-- Only the close button closes the form. -/
theorem closed_next (hne : e ≠ .close) : (s.next reqID e).closed = s.closed := by
  cases e with
  | checked error => cases error <;> rfl
  | sent result => cases result <;> rfl
  | transactionComplete hash =>
    rw [State.next]
    split <;> rfl
  | close => exact absurd rfl hne
  | calculated | setPasscode | goBack | complete | goBackToPassword | resend | proceed => rfl

/-- What was run on the connection stays. -/
theorem operations_next (reqID : Option (List Char)) (s : State) (e : Event) :
    s.operations <+: (s.next reqID e).operations := by
  cases e with
  | checked error => cases error <;> exact List.prefix_rfl
  | sent result =>
    cases result with
    | error error => exact List.prefix_rfl
    | ok cell => exact List.prefix_append _ _
  | transactionComplete hash =>
    rw [State.next]
    split <;> exact List.prefix_rfl
  | close =>
    rw [State.next]
    split
    · exact List.prefix_append _ _
    · exact List.prefix_rfl
  | calculated | setPasscode | goBack | complete | goBackToPassword | resend | proceed =>
    exact List.prefix_rfl

/-- An event keeps a form answered exactly when it does not close it by `CloseCheck` before the
messages are sent. -/
theorem answered_step (h : Inv reqID s) (hanswered : Answered reqID s)
    (hstep : Step reqID s e s') : Answered reqID s' ↔ ClosesAnswered s e := by
  have h' := h.step hstep
  obtain ⟨henabled, rfl⟩ := hstep
  rw [h'.answered_iff]
  by_cases hclose : e = .close
  · subst hclose
    have hopen : s.closed = false := henabled
    cases hhandler : s.screen.closeHandler with
    | cancel =>
      rw [State.next_close_of_cancel hhandler]
      exact iff_of_true (fun _ => by simp [State.cancel]) fun _ => .inl hhandler
    | closeCheck =>
      -- the form has run what confirms its cells
      rw [State.next_close_of_closeCheck hhandler]
      simp [ClosesAnswered, hhandler, h.confirms hopen]
  · refine iff_of_true ?_ fun heq => absurd heq hclose
    rw [closed_next hclose]
    intro hclosed hnil
    have hprefix := operations_next reqID s e
    rw [hnil] at hprefix
    exact h.answered_iff.1 hanswered hclosed (List.prefix_nil.1 hprefix)

/-- A run of the form has answered its request rightly wherever it is closed exactly when it is
never closed by `CloseCheck` before the messages are sent. -/
theorem forall_answered_iff {trace : List (State × Event)}
    (hrun : Run (Step reqID) init trace s) :
    (∀ t ∈ states trace s, Answered reqID t) ↔ ∀ p ∈ trace, ClosesAnswered p.1 p.2 := by
  have hinit : Answered reqID init := ⟨by decide, nofun⟩
  exact hrun.forall_states_iff inv_init Inv.step hinit answered_step

end

/-! ## A form whose messages are sent, or not -/

namespace OneRequest

def reqID : Option (List Char) := some "1".toList

def cell : SentCell := ⟨List.replicate 32 7, "te6ccgEBAQEAAgAAAA==".toList⟩

def main : State := init.next reqID (.calculated true)

def password : State := main.next reqID .setPasscode

def checking : State := password.next reqID (.complete "111".toList)

def sending : State := checking.next reqID (.checked none)

def sent : State := sending.next reqID (.sent (.ok cell))

def failed : State := sending.next reqID (.sent (.error "timeout".toList))

/-- The run until the messages are being sent. Nothing is closed in it. -/
theorem run_sending : ∃ trace, Run (Step reqID) init trace sending ∧
    ∀ p ∈ trace, ClosesAnswered p.1 p.2 := by
  have hmain : Step reqID init (.calculated true) main := ⟨rfl, rfl⟩
  have hpassword : Step reqID main .setPasscode password := ⟨⟨rfl, rfl, rfl⟩, rfl⟩
  have hchecking : Step reqID password (.complete "111".toList) checking := ⟨⟨rfl, rfl⟩, rfl⟩
  have hsending : Step reqID checking (.checked none) sending := ⟨Nat.one_pos, rfl⟩
  refine ⟨_, (((Run.nil.snoc hmain).snoc hpassword).snoc hchecking).snoc hsending, ?_⟩
  simp [ClosesAnswered]

theorem run_sent : ∃ trace, Run (Step reqID) init trace (sent.next reqID .close) ∧
    ∀ p ∈ trace, ClosesAnswered p.1 p.2 := by
  obtain ⟨trace, hrun, hall⟩ := run_sending
  have hsent : Step reqID sending (.sent (.ok cell)) sent := ⟨Nat.one_pos, rfl⟩
  have hclose : Step reqID sent .close (sent.next reqID .close) := ⟨rfl, rfl⟩
  refine ⟨_, (hrun.snoc hsent).snoc hclose, ?_⟩
  rw [List.forall_mem_append, List.forall_mem_append, List.forall_mem_singleton,
    List.forall_mem_singleton]
  exact ⟨⟨hall, nofun⟩, fun _ => .inr (List.cons_ne_nil _ _)⟩

theorem run_failed : ∃ trace, Run (Step reqID) init trace (failed.next reqID .close) := by
  obtain ⟨trace, hrun, -⟩ := run_sending
  have hfailed : Step reqID sending (.sent (.error "timeout".toList)) failed :=
    ⟨Nat.one_pos, rfl⟩
  have hclose : Step reqID failed .close (failed.next reqID .close) := ⟨rfl, rfl⟩
  exact ⟨_, (hrun.snoc hfailed).snoc hclose⟩

end OneRequest

/-- A form that is closed after its messages were sent has answered throughout. -/
theorem answered_sent : ∃ trace,
    Run (Step OneRequest.reqID) init trace (OneRequest.sent.next OneRequest.reqID .close) ∧
      ∀ t ∈ states trace (OneRequest.sent.next OneRequest.reqID .close),
        Answered OneRequest.reqID t := by
  obtain ⟨trace, hrun, hall⟩ := OneRequest.run_sent
  exact ⟨trace, hrun, (forall_answered_iff hrun).2 hall⟩

/-- A form that is closed after sending failed has not answered. -/
theorem not_answered_failed :
    ¬ ∀ (trace : List (State × Event)) (s : State), Run (Step OneRequest.reqID) init trace s →
        ∀ t ∈ states trace s, Answered OneRequest.reqID t := by
  intro hall
  obtain ⟨trace, hrun⟩ := OneRequest.run_failed
  rcases (hall trace _ hrun _ (mem_states_last _ _)).reply rfl with
    ⟨cell, hcells, -⟩ | ⟨-, code, message, hops⟩
  · cases hcells
  · cases hops

end Ton.TonMultiSendForm
