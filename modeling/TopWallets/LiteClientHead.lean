import TopWallets.Lib.Runs
import Mathlib.Data.Option.Basic
import Mathlib.Order.Monotone.Basic

/- The head of the light client: `LiteClientActor::last` and the proofs that answer it.

   A call asks for a proof from the last key block. Its answer may arrive when others
   have come and gone, and asks again itself when the proof is not complete. Of a proof
   that is valid the last block and the last key block are taken if they are newer, and
   `utime` is taken in any case.

   What the Merkle proofs and the signatures of a link say is a parameter (`Checks`). A
   masterchain is its block times by sequence number (`Checks.Genuine`).

   The sequence numbers never go back. The time is the one of the head in every state
   exactly when every proof that is taken has links, does not end at the zero state and
   ends at no block older than the head (`head_advances_iff`): a proof without links has
   the time 0.

   Correspondence (C++ ↔ Lean):
     `BlockProofLink::validate`               ↔ `BlockProofLink.validate`
     a round of the loop, the chain's loop    ↔ `BlockProofChain.round`, `.validate`
     `LiteClientActor::process_block_proof`   ↔ `processBlockProof`
     `LiteClientActor::last` and its callback ↔ `Event`, `Actor.next`
   Left out are the texts of the errors and the storage of the state. -/
namespace LiteClient

open Runs

def workchainInvalid : Int := -2147483648

def masterchainId : Int := -1

def shardIdAll : Nat := 9223372036854775808

structure BlockIdExt where
  workchain : Int
  shard : Nat
  seqno : Nat
  rootHash : Nat
  fileHash : Nat
  deriving DecidableEq

namespace BlockIdExt

def isValid (id : BlockIdExt) : Bool := id.workchain != workchainInvalid

def isMasterchainExt (id : BlockIdExt) : Bool :=
  id.workchain == masterchainId && id.shard == shardIdAll

/-- A block id after `invalidate`, of a proof that has just been made. -/
def invalid : BlockIdExt := ⟨workchainInvalid, 0, 0, 0, 0⟩

theorem isValid_of_isMasterchainExt {id : BlockIdExt} (h : id.isMasterchainExt = true) :
    id.isValid = true := by
  have hworkchain : id.workchain = masterchainId := by
    unfold isMasterchainExt at h
    simp only [Bool.and_eq_true, beq_iff_eq] at h
    exact h.1
  unfold isValid
  rw [hworkchain]
  rfl

end BlockIdExt

/-- A link, with the bytes of its proofs and signatures. -/
structure BlockProofLink where
  source : BlockIdExt
  target : BlockIdExt
  isKey : Bool
  isFwd : Bool
  proofs : List UInt8

/-- What is read of a block header. -/
structure BlockHeader where
  genUtime : Nat
  keyBlock : Bool

/-- The header of the target a link proves, if it is in order, and whether the link's own proof is:
the state of the source for a backward link, the signatures for a forward one. -/
structure Checks where
  header : BlockProofLink → Option BlockHeader
  linked : BlockProofLink → Bool

variable (K : Checks)

/-- The time a valid link saves. The zero state has none. -/
def BlockProofLink.validate (link : BlockProofLink) : Option Nat := do
  guard (link.source.isMasterchainExt = true ∧ link.target.isMasterchainExt = true)
  guard (link.source.seqno ≠ link.target.seqno)
  guard (link.isFwd = decide (link.source.seqno < link.target.seqno))
  if link.target.seqno = 0 then
    guard (K.linked link = true)
    return 0
  else
    let info ← K.header link
    guard (info.keyBlock = link.isKey)
    guard (K.linked link = true)
    return info.genUtime

structure BlockProofChain where
  source : BlockIdExt
  target : BlockIdExt
  complete : Bool
  links : List BlockProofLink

/-- What the loop over the links keeps. -/
structure Validation where
  cur : BlockIdExt
  lastUtime : Nat
  hasKeyBlock : Bool
  keyBlkid : BlockIdExt

namespace BlockProofChain

def round (v : Validation) (link : BlockProofLink) : Option Validation := do
  guard (link.source = v.cur)
  let utime ← link.validate K
  if link.isKey = true ∧ (v.hasKeyBlock = false ∨ v.keyBlkid.seqno < link.target.seqno) then
    return ⟨link.target, utime, true, link.target⟩
  else return ⟨link.target, utime, v.hasKeyBlock, v.keyBlkid⟩

def validate (chain : BlockProofChain) : Option Validation := do
  guard (chain.source.isMasterchainExt = true ∧ chain.target.isMasterchainExt = true)
  -- a loop over no links gives the source and the time 0
  let v ← chain.links.foldlM (round K) ⟨chain.source, 0, false, .invalid⟩
  guard (v.cur = chain.target)
  return v

end BlockProofChain

/-- A proof that starts at the requested block and is valid. -/
def processBlockProof (source : BlockIdExt) (chain : BlockProofChain) : Option Validation := do
  guard (chain.source = source)
  chain.validate K

/-- The part of `LastBlockState` that the callback writes. -/
structure LastBlockState where
  lastBlockId : BlockIdExt
  lastKeyBlockId : BlockIdExt
  utime : Nat

/-- A block is replaced by another one. -/
def BlockIdExt.GivesWay (id next : BlockIdExt) : Prop :=
  id.isValid = false ∨ id.seqno < next.seqno

instance (id next : BlockIdExt) : Decidable (id.GivesWay next) :=
  inferInstanceAs (Decidable (_ ∨ _))

/-- What the callback does with a proof. -/
def LastBlockState.update (state : LastBlockState) (chain : BlockProofChain) (v : Validation) :
    LastBlockState where
  lastBlockId := if state.lastBlockId.GivesWay chain.target then chain.target else state.lastBlockId
  lastKeyBlockId :=
    if state.lastKeyBlockId.GivesWay v.keyBlkid then v.keyBlkid else state.lastKeyBlockId
  utime := v.lastUtime

/-- The actor: its state, and the blocks that the requests on their way start from. The last two
fields are for the proof only: the state before the last event, and the `last_utime` of the proof
that set the head. -/
structure Actor where
  state : LastBlockState
  requests : List BlockIdExt
  previous : LastBlockState
  headUtime : Nat

/-- A call of `last`, or the answer to a request: an error or a proof. -/
inductive Event where
  | last
  | answer (source : BlockIdExt) (response : Option BlockProofChain)

/-- The proof that an answer brings, where it is valid. -/
def Event.proof : Event → Option (BlockProofChain × Validation)
  | last => none
  | answer source response => response.bind fun chain =>
    (processBlockProof K source chain).map fun v => (chain, v)

namespace Actor

/-- The callback with a valid proof. -/
def take (a : Actor) (requests : List BlockIdExt) (chain : BlockProofChain) (v : Validation) :
    Actor :=
  let state := a.state.update chain v
  -- a proof that is not complete is followed by another request
  let requests := if chain.complete then requests else requests ++ [state.lastKeyBlockId]
  let headUtime :=
    if a.state.lastBlockId.GivesWay chain.target then v.lastUtime else a.headUtime
  ⟨state, requests, a.state, headUtime⟩

def next (a : Actor) (e : Event) : Actor :=
  let requests := match e with
    | .last => a.requests ++ [a.state.lastKeyBlockId]
    | .answer source _ => a.requests.erase source
  match e.proof K with
  | some (chain, v) => a.take requests chain v
  | none => ⟨a.state, requests, a.state, a.headUtime⟩

/-- Only requests on their way are answered. -/
def Enabled (a : Actor) : Event → Prop
  | .last => True
  | .answer source _ => source ∈ a.requests

instance (a : Actor) (e : Event) : Decidable (a.Enabled e) :=
  match e with
  | .last => inferInstanceAs (Decidable True)
  | .answer source _ => inferInstanceAs (Decidable (source ∈ a.requests))

def Step (a : Actor) (e : Event) (a' : Actor) : Prop := a.Enabled e ∧ a' = a.next K e

def init (state : LastBlockState) : Actor := ⟨state, [], state, state.utime⟩

end Actor

/-- The seqnos of a state are not behind those of another one. -/
structure LastBlockState.Follows (state previous : LastBlockState) : Prop where
  head : previous.lastBlockId.seqno ≤ state.lastBlockId.seqno
  key : previous.lastKeyBlockId.seqno ≤ state.lastKeyBlockId.seqno

/-- The last event did not take the state back, and its time is that of the head. -/
structure Actor.Advances (a : Actor) : Prop where
  follows : a.state.Follows a.previous
  utime_eq : a.state.utime = a.headUtime
  utime_le : a.previous.utime ≤ a.state.utime

/-- A proof that is taken has links, and ends at no older block than the head. -/
def Keeps (a : Actor) (e : Event) : Prop :=
  ∀ p ∈ e.proof K, p.1.links ≠ [] ∧ p.1.target.seqno ≠ 0 ∧
    a.state.lastBlockId.seqno ≤ p.1.target.seqno

/-- Headers that pass are those of a masterchain with these block times. -/
structure Checks.Genuine (time : Nat → Nat) : Prop where
  increasing : StrictMono time
  positive : ∀ n, 0 < time n
  genUtime_eq : ∀ link info, K.linked link = true → K.header link = some info →
    info.genUtime = time link.target.seqno

/-- The ids of a state are valid, as those of the configuration and of proofs are. -/
structure LastBlockState.Valid (state : LastBlockState) : Prop where
  head : state.lastBlockId.isValid = true
  key : state.lastKeyBlockId.isValid = true

/-! ## Proofs -/

/-- The time of a proof's last block, as the loop saves it. -/
def savedTime (time : Nat → Nat) (seqno : Nat) : Nat := if seqno = 0 then 0 else time seqno

/-- A key block that is found is valid, and none has the number 0. -/
def KeyFound (id : BlockIdExt) : Prop := id.seqno = 0 ∨ id.isValid = true

variable {K} {time : Nat → Nat}

theorem guard_bind_iff {α : Type} {p : Prop} [Decidable p] {x : Option α} {a : α} :
    (do guard p; x) = some a ↔ p ∧ x = some a := by
  unfold guard
  by_cases hp : p
  · rw [if_pos hp, and_iff_right hp]
    rfl
  · rw [if_neg hp]
    exact iff_of_false nofun (fun h => hp h.1)

theorem validate_link (hK : K.Genuine time) {link : BlockProofLink} {utime : Nat}
    (h : link.validate K = some utime) :
    utime = savedTime time link.target.seqno ∧ link.target.isValid = true := by
  unfold BlockProofLink.validate at h
  rw [guard_bind_iff, guard_bind_iff, guard_bind_iff] at h
  obtain ⟨hmaster, -, -, h⟩ := h
  refine ⟨?_, BlockIdExt.isValid_of_isMasterchainExt hmaster.2⟩
  by_cases hzero : link.target.seqno = 0
  · rw [if_pos hzero, guard_bind_iff] at h
    rw [savedTime, if_pos hzero]
    exact (Option.some.inj h.2).symm
  · rw [if_neg hzero] at h
    obtain ⟨info, hheader, h⟩ := Option.bind_eq_some_iff.1 h
    rw [guard_bind_iff, guard_bind_iff] at h
    obtain ⟨-, hlinked, h⟩ := h
    rw [savedTime, if_neg hzero, ← hK.genUtime_eq link info hlinked hheader]
    exact (Option.some.inj h).symm

/-- What one link leaves. -/
theorem round_spec (hK : K.Genuine time) {v v' : Validation} {link : BlockProofLink}
    (h : BlockProofChain.round K v link = some v') :
    v'.lastUtime = savedTime time v'.cur.seqno ∧ (KeyFound v.keyBlkid → KeyFound v'.keyBlkid) := by
  unfold BlockProofChain.round at h
  rw [guard_bind_iff] at h
  obtain ⟨utime, hlink, h⟩ := Option.bind_eq_some_iff.1 h.2
  obtain ⟨hutime, hvalid⟩ := validate_link hK hlink
  split_ifs at h with hkey
  · obtain rfl := Option.some.inj h
    exact ⟨hutime, fun _ => .inr hvalid⟩
  · obtain rfl := Option.some.inj h
    exact ⟨hutime, id⟩

/-- What a loop over some links leaves. -/
theorem foldlM_round_spec (hK : K.Genuine time) (links : List BlockProofLink) {v v' : Validation}
    (h : links.foldlM (BlockProofChain.round K) v = some v') :
    (links ≠ [] → v'.lastUtime = savedTime time v'.cur.seqno) ∧
      (KeyFound v.keyBlkid → KeyFound v'.keyBlkid) := by
  induction links generalizing v with
  | nil =>
    obtain rfl := Option.some.inj h
    exact ⟨fun hne => absurd rfl hne, id⟩
  | cons link links ih =>
    rw [List.foldlM_cons] at h
    obtain ⟨v₁, hround, hrest⟩ := Option.bind_eq_some_iff.1 h
    obtain ⟨htime, hkey⟩ := round_spec hK hround
    obtain ⟨htimes, hkeys⟩ := ih hrest
    refine ⟨fun _ => ?_, hkeys ∘ hkey⟩
    by_cases hnil : links = []
    · subst hnil
      obtain rfl := Option.some.inj hrest
      exact htime
    · exact htimes hnil

/-- What a valid proof says: its time is that of its last block, unless it has no links. -/
theorem validate_spec (hK : K.Genuine time) {source : BlockIdExt} {chain : BlockProofChain}
    {v : Validation} (h : processBlockProof K source chain = some v) :
    v.lastUtime = (if chain.links = [] then 0 else savedTime time chain.target.seqno) ∧
      chain.target.isValid = true ∧ KeyFound v.keyBlkid := by
  unfold processBlockProof BlockProofChain.validate at h
  rw [guard_bind_iff, guard_bind_iff] at h
  obtain ⟨-, hmaster, h⟩ := h
  obtain ⟨v₁, hloop, h⟩ := Option.bind_eq_some_iff.1 h
  rw [guard_bind_iff] at h
  obtain ⟨hcur, h⟩ := h
  obtain rfl := Option.some.inj h
  obtain ⟨htime, hkey⟩ := foldlM_round_spec hK _ hloop
  refine ⟨?_, BlockIdExt.isValid_of_isMasterchainExt hmaster.2, hkey (.inl rfl)⟩
  split_ifs with hnil
  · rw [hnil] at hloop
    obtain rfl := Option.some.inj hloop
    rfl
  · rw [← hcur]
    exact htime hnil

theorem lastUtime_eq (hK : K.Genuine time) {source : BlockIdExt} {chain : BlockProofChain}
    {v : Validation} (h : processBlockProof K source chain = some v) (hlinks : chain.links ≠ [])
    (hzero : chain.target.seqno ≠ 0) : v.lastUtime = time chain.target.seqno := by
  rw [(validate_spec hK h).1, if_neg hlinks, savedTime, if_neg hzero]

/-- The time of a valid proof is not behind that of a block exactly when the proof has links, does
not end at the zero state and ends at no older block. -/
theorem time_le_lastUtime_iff (hK : K.Genuine time) {source : BlockIdExt} {chain : BlockProofChain}
    {v : Validation} (h : processBlockProof K source chain = some v) (seqno : Nat) :
    time seqno ≤ v.lastUtime ↔
      chain.links ≠ [] ∧ chain.target.seqno ≠ 0 ∧ seqno ≤ chain.target.seqno := by
  have hlast := (validate_spec hK h).1
  have hpositive := hK.positive seqno
  constructor
  · intro hle
    -- the time is not the 0 of a proof without links or of the zero state
    have hlinks : chain.links ≠ [] := by
      intro hnil
      rw [if_pos hnil] at hlast
      omega
    have hzero : chain.target.seqno ≠ 0 := by
      intro hzero
      rw [if_neg hlinks, savedTime, if_pos hzero] at hlast
      omega
    rw [lastUtime_eq hK h hlinks hzero] at hle
    exact ⟨hlinks, hzero, hK.increasing.le_iff_le.1 hle⟩
  · intro hkeeps
    obtain ⟨hlinks, hzero, hle⟩ := hkeeps
    rw [lastUtime_eq hK h hlinks hzero]
    exact hK.increasing.monotone hle

/-! ## Runs -/

namespace Actor

/-- An event brings no proof, and then the state stays, or it brings one that is valid. -/
theorem next_cases (a : Actor) (e : Event) :
    (e.proof K = none ∧ (a.next K e).state = a.state ∧ (a.next K e).previous = a.state ∧
      (a.next K e).headUtime = a.headUtime) ∨
    ∃ source chain v, processBlockProof K source chain = some v ∧ e.proof K = some (chain, v) ∧
      (a.next K e).state = a.state.update chain v ∧ (a.next K e).previous = a.state ∧
      (a.next K e).headUtime =
        if a.state.lastBlockId.GivesWay chain.target then v.lastUtime else a.headUtime := by
  cases hproof : e.proof K with
  | none =>
    refine .inl ⟨rfl, ?_, ?_, ?_⟩ <;> simp only [next, hproof]
  | some p =>
    obtain ⟨chain, v⟩ := p
    have hvalid : ∃ source, processBlockProof K source chain = some v := by
      cases e with
      | last => cases hproof
      | answer source response =>
        obtain ⟨chain', -, hv⟩ := Option.bind_eq_some_iff.1 hproof
        obtain ⟨v', hv', heq⟩ := Option.map_eq_some_iff.1 hv
        cases heq
        exact ⟨source, hv'⟩
    obtain ⟨source, hvalid⟩ := hvalid
    refine .inr ⟨source, chain, v, hvalid, rfl, ?_, ?_, ?_⟩ <;> simp only [next, hproof, take]

end Actor

/-- A block gives way only to a newer one. -/
theorem BlockIdExt.seqno_le_ite {id next : BlockIdExt} (hvalid : id.isValid = true) :
    id.seqno ≤ (if id.GivesWay next then next else id).seqno := by
  split_ifs with hnewer
  · obtain hinvalid | hlt := hnewer
    · rw [hvalid] at hinvalid
      cases hinvalid
    · exact Nat.le_of_lt hlt
  · exact Nat.le_refl _

theorem BlockIdExt.isValid_ite {id next : BlockIdExt} (hvalid : id.isValid = true)
    (hnext : id.seqno < next.seqno → next.isValid = true) :
    (if id.GivesWay next then next else id).isValid = true := by
  split_ifs with hnewer
  · obtain hinvalid | hlt := hnewer
    · rw [hvalid] at hinvalid
      cases hinvalid
    · exact hnext hlt
  · exact hvalid

namespace LastBlockState

variable {state : LastBlockState} {chain : BlockProofChain} {v : Validation}

/-- The sequence numbers never go back. -/
theorem follows_update (hvalid : state.Valid) : (state.update chain v).Follows state where
  head := BlockIdExt.seqno_le_ite hvalid.head
  key := BlockIdExt.seqno_le_ite hvalid.key

theorem valid_update (hvalid : state.Valid) (htarget : chain.target.isValid = true)
    (hkey : KeyFound v.keyBlkid) : (state.update chain v).Valid where
  head := BlockIdExt.isValid_ite hvalid.head fun _ => htarget
  key := by
    apply BlockIdExt.isValid_ite hvalid.key
    intro hlt
    -- a key block newer than some block was found
    exact hkey.resolve_left (by omega)

end LastBlockState

theorem valid_step (hK : K.Genuine time) {a a' : Actor} {e : Event} (hvalid : a.state.Valid)
    (hstep : Actor.Step K a e a') : a'.state.Valid := by
  obtain ⟨-, rfl⟩ := hstep
  obtain ⟨-, hstate, -⟩ | ⟨source, chain, v, hproof, -, hstate, -⟩ := a.next_cases (K := K) e
  · rw [hstate]
    exact hvalid
  · obtain ⟨-, htarget, hkey⟩ := validate_spec hK hproof
    rw [hstate]
    exact LastBlockState.valid_update hvalid htarget hkey

theorem follows_step {a a' : Actor} {e : Event} (hvalid : a.state.Valid)
    (hstep : Actor.Step K a e a') : a'.state.Follows a'.previous := by
  obtain ⟨-, rfl⟩ := hstep
  obtain ⟨-, hstate, hprevious, -⟩ | ⟨source, chain, v, hproof, -, hstate, hprevious, -⟩ :=
    a.next_cases (K := K) e
  · rw [hstate, hprevious]
    exact ⟨Nat.le_refl _, Nat.le_refl _⟩
  · rw [hstate, hprevious]
    exact LastBlockState.follows_update hvalid

/-- The time of a state is that of its head. -/
def OnTime (time : Nat → Nat) (a : Actor) : Prop :=
  a.state.utime = time a.state.lastBlockId.seqno ∧ a.headUtime = a.state.utime

theorem keeps_of_none {a : Actor} {e : Event} (h : e.proof K = none) : Keeps K a e := by
  intro p hp
  rw [h] at hp
  cases hp

theorem keeps_iff_of_some {a : Actor} {e : Event} {chain : BlockProofChain} {v : Validation}
    (h : e.proof K = some (chain, v)) : Keeps K a e ↔ chain.links ≠ [] ∧
      chain.target.seqno ≠ 0 ∧ a.state.lastBlockId.seqno ≤ chain.target.seqno := by
  unfold Keeps
  rw [h]
  simp

/-- An event keeps the times of a state in order when its proof, if it brings one, has links and
does not end before the head. -/
theorem onTime_step (hK : K.Genuine time) {a a' : Actor} {e : Event} (htime : OnTime time a)
    (hstep : Actor.Step K a e a') (hkeeps : Keeps K a e) : OnTime time a' := by
  obtain ⟨-, rfl⟩ := hstep
  obtain ⟨hutime, hhead⟩ := htime
  unfold OnTime
  obtain ⟨-, hstate, -, hheadUtime⟩ | ⟨source, chain, v, hproof, hsome, hstate, -, hheadUtime⟩ :=
    a.next_cases (K := K) e
  · rw [hstate, hheadUtime]
    exact ⟨hutime, hhead⟩
  · obtain ⟨hlinks, hzero, hle⟩ := (keeps_iff_of_some hsome).1 hkeeps
    have hlast := lastUtime_eq hK hproof hlinks hzero
    rw [hstate, hheadUtime]
    unfold LastBlockState.update
    by_cases hnewer : a.state.lastBlockId.GivesWay chain.target
    · rw [if_pos hnewer, if_pos hnewer]
      exact ⟨hlast, rfl⟩
    · rw [if_neg hnewer, if_neg hnewer]
      -- the proof ends at the head, which stays
      have hequal : chain.target.seqno = a.state.lastBlockId.seqno := by
        have hnlt : ¬ a.state.lastBlockId.seqno < chain.target.seqno := fun h => hnewer (.inr h)
        omega
      rw [hequal] at hlast
      exact ⟨hlast, by rw [hhead, hutime, hlast]⟩

/-- From a state on time an event advances the state exactly when its proof, if it brings one, has
links and does not end before the head. -/
theorem advances_step_iff (hK : K.Genuine time) {a a' : Actor} {e : Event}
    (hvalid : a.state.Valid) (htime : OnTime time a) (hstep : Actor.Step K a e a') :
    a'.Advances ↔ Keeps K a e := by
  have hfollows := follows_step hvalid hstep
  have hontime := onTime_step hK htime hstep
  obtain ⟨-, rfl⟩ := hstep
  obtain ⟨hnone, hstate, hprevious, -⟩ | ⟨source, chain, v, hproof, hsome, hstate, hprevious, -⟩ :=
    a.next_cases (K := K) e
  · have hkeeps : Keeps K a e := keeps_of_none hnone
    refine iff_of_true ⟨hfollows, (hontime hkeeps).2.symm, ?_⟩ hkeeps
    rw [hstate, hprevious]
  · have hle : (a.next K e).previous.utime ≤ (a.next K e).state.utime ↔ Keeps K a e := by
      rw [hstate, hprevious, htime.1, keeps_iff_of_some hsome]
      exact time_le_lastUtime_iff hK hproof _
    constructor
    · exact fun hadvances => hle.1 hadvances.utime_le
    · exact fun hkeeps => ⟨hfollows, (hontime hkeeps).2.symm, hle.2 hkeeps⟩

/-- Over every interleaving of calls and answers the sequence numbers never go back. The time is
that of the head, and does not go back either, throughout a run exactly when every proof that is
taken has links, does not end at the zero state and ends at no older block than the head. -/
theorem head_advances_iff (hK : K.Genuine time) {state : LastBlockState} (hvalid : state.Valid)
    (hutime : state.utime = time state.lastBlockId.seqno) {trace : List (Actor × Event)} {a : Actor}
    (hrun : Run (Actor.Step K) (.init state) trace a) :
    (∀ t ∈ states trace a, t.state.Follows t.previous) ∧
      ((∀ t ∈ states trace a, t.Advances) ↔ ∀ p ∈ trace, Keeps K p.1 p.2) := by
  have hsteps : ∀ {s : Actor} {e : Event} {s' : Actor},
      (s.state.Valid ∧ s.state.Follows s.previous) → Actor.Step K s e s' →
      (s'.state.Valid ∧ s'.state.Follows s'.previous) :=
    fun h hstep => ⟨valid_step hK h.1 hstep, follows_step h.1 hstep⟩
  have hinit : (Actor.init state).state.Valid ∧
      (Actor.init state).state.Follows (Actor.init state).previous :=
    ⟨hvalid, Nat.le_refl _, Nat.le_refl _⟩
  have hadvances : (Actor.init state).Advances := ⟨hinit.2, rfl, Nat.le_refl _⟩
  have hontime : OnTime time (Actor.init state) := ⟨hutime, rfl⟩
  have hinvariant := hrun.invariant_states hinit hsteps
  refine ⟨fun t ht => (hinvariant t ht).2, ?_⟩
  -- as long as the states advance they are on time
  have hstrong : (∀ t ∈ states trace a, t.Advances ∧ OnTime time t) ↔
      ∀ p ∈ trace, Keeps K p.1 p.2 := by
    apply hrun.forall_states_iff hinit hsteps ⟨hadvances, hontime⟩
    intro s e s' hs htime hstep
    have hiff := advances_step_iff hK hs.1 htime.2 hstep
    have hontime := onTime_step hK htime.2 hstep
    exact ⟨fun h => hiff.1 h.1, fun h => ⟨hiff.2 h, hontime h⟩⟩
  rw [← hstrong]
  constructor
  · intro hall
    have hcarried := hrun.forall_states_carry (Q := fun t => t.state.Valid ∧ OnTime time t)
      ⟨hvalid, hontime⟩ (fun {s e s'} h hstep hadv => ⟨valid_step hK h.1 hstep,
        onTime_step hK h.2 hstep ((advances_step_iff hK h.1 h.2 hstep).1 hadv)⟩) hall
    exact fun t ht => ⟨hall t ht, (hcarried t ht).2⟩
  · exact fun hall t ht => (hall t ht).1

/-! ## Two overlapping calls

    Both ask from the key block 10. The answer of the second is newer and arrives first. -/

namespace TwoCalls

def blockTime (seqno : Nat) : Nat := 1600000000 + 5 * seqno

def block (seqno : Nat) : BlockIdExt := ⟨masterchainId, shardIdAll, seqno, seqno + 1, seqno + 2⟩

/-- Block 10 is the only key block. -/
def checks : Checks where
  header link := some ⟨blockTime link.target.seqno, link.target.seqno == 10⟩
  linked _ := true

theorem genuine : checks.Genuine blockTime where
  increasing := by
    intro m n h
    unfold blockTime
    omega
  positive n := by
    unfold blockTime
    omega
  genUtime_eq link info _ hheader := by
    obtain rfl := Option.some.inj hheader
    rfl

def start : LastBlockState := ⟨block 10, block 10, blockTime 10⟩

theorem valid_start : start.Valid := ⟨by decide, by decide⟩

def proofTo (seqno : Nat) : BlockProofChain :=
  ⟨block 10, block seqno, true, [⟨block 10, block seqno, false, true, []⟩]⟩

def asked : Actor := ((Actor.init start).next checks .last).next checks .last

def newer : Actor := asked.next checks (.answer (block 10) (some (proofTo 12)))

def older : Actor := newer.next checks (.answer (block 10) (some (proofTo 11)))

theorem run_newer : ∃ trace, Run (Actor.Step checks) (.init start) trace newer := by
  have hfirst : Actor.Step checks (.init start) .last ((Actor.init start).next checks .last) :=
    ⟨trivial, rfl⟩
  have hsecond : Actor.Step checks ((Actor.init start).next checks .last) .last asked :=
    ⟨trivial, rfl⟩
  have hanswer : Actor.Step checks asked (.answer (block 10) (some (proofTo 12))) newer :=
    ⟨by decide, rfl⟩
  exact ⟨_, ((Run.nil.snoc hfirst).snoc hsecond).snoc hanswer⟩

theorem run_older : ∃ trace, Run (Actor.Step checks) (.init start) trace older := by
  obtain ⟨trace, hrun⟩ := run_newer
  have hanswer : Actor.Step checks newer (.answer (block 10) (some (proofTo 11))) older :=
    ⟨by decide, rfl⟩
  exact ⟨_, hrun.snoc hanswer⟩

end TwoCalls

/-- The head is block 12 and keeps it, with the time of block 11. -/
theorem not_advances_two_calls :
    ¬ ∀ (trace : List (Actor × Event)) (a : Actor),
      Run (Actor.Step TwoCalls.checks) (.init TwoCalls.start) trace a → a.Advances := by
  intro hall
  obtain ⟨trace, hrun⟩ := TwoCalls.run_older
  exact absurd (hall trace _ hrun).utime_eq (by decide)

/-- Up to the first answer the time is that of the head. -/
theorem head_advances_two_calls : ∃ trace,
    Run (Actor.Step TwoCalls.checks) (.init TwoCalls.start) trace TwoCalls.newer ∧
      ((∀ t ∈ states trace TwoCalls.newer, t.Advances) ↔
        ∀ p ∈ trace, Keeps TwoCalls.checks p.1 p.2) := by
  obtain ⟨trace, hrun⟩ := TwoCalls.run_newer
  exact ⟨trace, hrun, (head_advances_iff TwoCalls.genuine TwoCalls.valid_start rfl hrun).2⟩

end LiteClient
