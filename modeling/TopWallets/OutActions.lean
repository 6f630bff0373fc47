import TopWallets.Vm

/- Output actions and the messages they send, as `block-auto.cpp` reads them (TL-B types
   `OutAction`, `MessageRelaxed`, `CommonMsgInfoRelaxed`, `MsgAddressInt`).

   A type is skipped on a slice, or does not fit; `fetch` is what was skipped. A constructor
   is chosen by the first bits of its tag only, and its record compares the whole tag.

   Correspondence (C++ ↔ Lean):
     `advance`, `skip_ext` of one reference ↔ `advance`, `advanceRef`
     `bselect`                              ↔ `bselect`
     `t_X.skip`                             ↔ the functions named after the types
     `t_X.fetch_to`                         ↔ `fetch`
     `unpack` of a record                   ↔ the functions `unpack...` -/
namespace Block

/-- A reader of a type: the slice after it. -/
abbrev Skip := Slice → Option Slice

def advance (n : Nat) : Skip := fun s =>
  if n ≤ s.bits.length then some ⟨s.bits.drop n, s.refs⟩ else none

def advanceRef : Skip := fun s =>
  match s.refs with
  | [] => none
  | _ :: refs => some ⟨s.bits, refs⟩

def prefetchUlong (bits : Nat) (s : Slice) : Option Nat :=
  (Vm.fetchUlongBool bits s).map Prod.fst

/-- How many of the mask's bits are at or below the number in the first `bits` bits, less one;
    `none` for -1. -/
def bselect (bits mask : Nat) (s : Slice) : Option Nat :=
  match prefetchUlong bits s with
  | none => none
  | some n =>
    match (List.range (n + 1)).countP (mask.testBit ·) with
    | 0 => none
    | count + 1 => some count

/-- Nothing, or something after a set bit. -/
def maybe (X : Skip) : Skip := fun s =>
  match s.bits with
  | [] => none
  | false :: bits => some ⟨bits, s.refs⟩
  | true :: bits => X ⟨bits, s.refs⟩

def either (X Y : Skip) : Skip := fun s =>
  match s.bits with
  | [] => none
  | false :: bits => X ⟨bits, s.refs⟩
  | true :: bits => Y ⟨bits, s.refs⟩

def anything : Skip := fun _ => some ⟨[], []⟩

/-- The dictionary is in a reference. -/
def hashmapE : Skip := maybe advanceRef

/-- `VarUInteger 16`: the number of bytes in four bits. -/
def grams : Skip := fun s => do
  let (len, s) ← Vm.fetchUlongBool 4 s
  advance (8 * len) s

def currencyCollection : Skip := fun s => do hashmapE (← grams s)

def anycast : Skip := fun s => do
  let (depth, s) ← Vm.fetchUlongBool 5 s
  if depth ≤ 30 ∧ 1 ≤ depth then advance depth s else none

def msgAddressInt : Skip := fun s =>
  match bselect 2 12 s with
  | some 0 => do advance 264 (← maybe anycast (← advance 2 s))
  | some 1 => do
    let (addrLen, s) ← Vm.fetchUlongBool 9 (← maybe anycast (← advance 2 s))
    advance addrLen (← advance 32 s)
  | _ => none

def msgAddressExt : Skip := fun s =>
  match bselect 2 3 s with
  | some 0 => advance 2 s
  | some 1 => do
    let (len, s) ← Vm.fetchUlongBool 9 (← advance 2 s)
    advance len s
  | _ => none

def msgAddress : Skip := fun s =>
  match prefetchUlong 1 s with
  | some 0 => msgAddressExt s
  | some 1 => msgAddressInt s
  | _ => none

def commonMsgInfoRelaxed : Skip := fun s =>
  match prefetchUlong 1 s with
  | some 0 => do
    let s ← msgAddressInt (← msgAddress (← advance 4 s))
    advance 96 (← grams (← grams (← currencyCollection s)))
  | some 1 => do
    advance 96 (← msgAddressExt (← msgAddress (← advance 2 s)))
  | _ => none

def stateInit : Skip := fun s => do
  let s ← maybe (advance 2) (← maybe (advance 5) s)
  hashmapE (← maybe advanceRef (← maybe advanceRef s))

/-- What a type takes off the slice, and the rest. -/
def fetch (X : Skip) (s : Slice) : Option (Slice × Slice) :=
  (X s).map fun rest =>
    (⟨s.bits.take (s.bits.length - rest.bits.length),
      s.refs.take (s.refs.length - rest.refs.length)⟩, rest)

/-- `empty_ext`. -/
def emptyExt (s : Slice) : Bool := s.bits.isEmpty && s.refs.isEmpty

/-- The record of `MessageRelaxed`. -/
structure MessageRelaxed where
  info : Slice
  init : Slice
  body : Slice

/-- `type_unpack_cell` at `MessageRelaxed Any`. -/
def unpackMessageRelaxed (cell : Cell) : Option MessageRelaxed := do
  let (info, s) ← fetch commonMsgInfoRelaxed cell.toSlice
  let (init, s) ← fetch (maybe (either stateInit advanceRef)) s
  let (body, s) ← fetch (either anything advanceRef) s
  if emptyExt s then some ⟨info, init, body⟩ else none

/-- The destination of `int_msg_info`, of the whole slice. -/
def unpackIntMsgInfo (s : Slice) : Option Slice := do
  let (tag, s) ← Vm.fetchUlongBool 1 s
  if tag ≠ 0 then none
  else
    let (dest, s) ← fetch msgAddressInt (← msgAddress (← advance 3 s))
    let s ← grams (← grams (← currencyCollection s))
    let s ← advance 96 s
    if emptyExt s then some dest else none

/-- The workchain of `addr_std`, of the whole slice. -/
def unpackAddrStd (s : Slice) : Option Int := do
  let (tag, s) ← Vm.fetchUlongBool 2 s
  if tag ≠ 2 then none
  else
    let (workchain, s) ← Vm.fetchUlongBool 8 (← maybe anycast s)
    let s ← advance 256 s
    if emptyExt s then some ((workchain : Int).bmod 256) else none

/-! ## Actions -/

inductive OutAction where
  | sendMsg | changeLibrary | reserveCurrency | setCode
  deriving DecidableEq

namespace OutAction

/-- `cons_tag`. -/
def consTag : OutAction → Nat
  | sendMsg => 0x0ec3c86d
  | changeLibrary => 0x26fa1dd4
  | reserveCurrency => 0x36e6b809
  | setCode => 0xad4de08e

def getTag (s : Slice) : Option OutAction :=
  match bselect 4 0x40d s with
  | some 0 => some sendMsg
  | some 1 => some changeLibrary
  | some 2 => some reserveCurrency
  | some 3 => some setCode
  | _ => none

/-- `unpack_exact` of `action_send_msg`: the mode and the message. -/
def unpackSendMsg (s : Slice) : Option (Nat × Cell) := do
  let (tag, s) ← Vm.fetchUlongBool 32 s
  if tag ≠ consTag sendMsg then none
  else
    let (mode, s) ← Vm.fetchUlongBool 8 s
    match s.refs with
    | [outMsg] => if s.bits.isEmpty then some (mode, outMsg) else none
    | _ => none

/-- The action whose tag stands in front. -/
def HasTag (action : OutAction) (s : Slice) : Prop :=
  prefetchUlong 32 s = some (consTag action)

instance (action : OutAction) (s : Slice) : Decidable (HasTag action s) :=
  inferInstanceAs (Decidable (_ = _))

/-- The first four bits tell the actions apart. -/
theorem getTag_of_hasTag {action : OutAction} {s : Slice} (h : HasTag action s) :
    getTag s = some action := by
  unfold HasTag prefetchUlong Vm.fetchUlongBool at h
  by_cases hlen : 32 > 64 ∨ s.bits.length < 32
  · rw [if_pos hlen] at h
    cases h
  rw [if_neg hlen] at h
  have hvalue : BitField.toNat (s.bits.take 32) = consTag action := Option.some.inj h
  have hfield : s.bits.take 32 = BitField.ofNat 32 (consTag action) := by
    have hlength : (s.bits.take 32).length = 32 := by rw [List.length_take]; omega
    calc s.bits.take 32
        = BitField.ofNat (s.bits.take 32).length (BitField.toNat (s.bits.take 32)) :=
          (BitField.ofNat_toNat _).symm
      _ = BitField.ofNat 32 (consTag action) := by rw [hlength, hvalue]
  have hfront : prefetchUlong 4 s
      = some (BitField.toNat ((BitField.ofNat 32 (consTag action)).take 4)) := by
    have hroom : ¬ (4 > 64 ∨ s.bits.length < 4) := by omega
    rw [prefetchUlong, Vm.fetchUlongBool, if_neg hroom, ← hfield, List.take_take]
    rfl
  unfold getTag bselect
  rw [hfront]
  cases action <;> decide

end OutAction

end Block
