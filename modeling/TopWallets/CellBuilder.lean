import TopWallets.Exceptions
import TopWallets.Vm
import TopWallets.BigInteger
import TopWallets.Address
import TopWallets.Lib.Utf8

/- `CellBuilder` of Complex.TonLib and the native functions under it.

   Every native store function answers whether its item went in. The managed
   methods drop that answer and return the builder, so a caller cannot tell a
   refused item from a stored one. What a run of stores leaves is therefore not
   the items but the items that happened to fit: `losesNothing_iff` says for
   which runs the two are the same.

   Correspondence (C++ / C# ↔ Lean):
     `CellBuilderStoreLong` and its siblings ↔ the functions of `TonLib`
     `CellBuilder.Store`, `.StoreRef`, ...   ↔ the functions of `Ton.CellBuilder`
     one call on a builder                   ↔ `Item`, `Item.store`
     `CellBuilder.Begin()` ... `End()`       ↔ `build`
   A managed `Cell` or `Dictionary` is `Option (Option Cell)`: a null object, or
   an object around a native pointer that may itself be null. -/
namespace TonLib
open Vm CellBuilder

/-- An `int` that arrives as `unsigned int`. -/
def unsigned (n : Int) : Nat := (if n < 0 then n + 2 ^ 32 else n).toNat

def cellBuilderStoreLong (value bits : Int) : Store := storeLongBool value (unsigned bits)

/-- `unset` is the address object before anything is read into it. A text that is no address
leaves it so: no workchain, and 32 bytes that nothing has written. -/
def cellBuilderStoreAddress (unset : Block.StdAddress) : Option (List Char) → Store
  | some address =>
    let addr := (Block.StdAddress.rdeserialize address).getD unset
    (storeLongBool 2 2).and ((storeLongBool 0 1).and
      ((storeLongBool addr.workchain 8).and (storeBytesBool addr.addr)))
  | none => storeLongBool 0 2

def cellBuilderStoreRef (cell : Option Cell) : Store := storeRefBool cell

/-- The argument is the dictionary's root, which is null while the dictionary is empty. -/
def cellBuilderStoreDict : Option (Option Cell) → Store
  | some rootCell => (storeLongBool 1 1).and (storeRefBool rootCell)
  | none => storeLongBool 0 1

def cellBuilderStoreDictFromCell : Option Cell → Store
  | some rootCell => (storeLongBool 1 1).and (storeRefBool (some rootCell))
  | none => storeLongBool 0 1

def cellBuilderStoreBytes (data : List UInt8) : Store := storeBytesBool data

def cellBuilderFinalize (builder : CellBuilder) : Except CellWriteError Cell :=
  builder.finalizeNovm

end TonLib

namespace Ton

namespace CellBuilder
open TonLib
open Vm (CellBuilder)

def begin : CellBuilder := Vm.CellBuilder.empty

def finish (b : CellBuilder) : Except Exception Cell :=
  match cellBuilderFinalize b with
  | .ok cell => .ok cell
  | .error _ => .error .cellWrite

def store (value bits : Int) (b : CellBuilder) : CellBuilder :=
  (cellBuilderStoreLong value bits b).2

def storeBool (value : Bool) (b : CellBuilder) : CellBuilder := store (if value then 1 else 0) 1 b

def storeBytes (value : List UInt8) (b : CellBuilder) : CellBuilder :=
  (cellBuilderStoreBytes value b).2

def storeCoins (value : BitVec 128) (b : CellBuilder) : CellBuilder :=
  if value = 0 then store 0 4 b
  else
    let data := BigInteger.getData value.toNat
    storeBytes data (store data.length 4 b)

def storeDict (dict : Option (Option Cell)) (b : CellBuilder) : CellBuilder :=
  (cellBuilderStoreDict dict b).2

def storeDictCell (rootCell : Option (Option Cell)) (b : CellBuilder) : CellBuilder :=
  (cellBuilderStoreDictFromCell rootCell.join b).2

/-- The null check is `cell.Dispose()`, after the store. -/
def storeRef (cell : Option (Option Cell)) (b : CellBuilder) : Except Exception CellBuilder :=
  match cell with
  | some handle => .ok (cellBuilderStoreRef handle b).2
  | none => .error .nullReference

def storeAddress (unset : Block.StdAddress) (address : Option (List Char)) (b : CellBuilder) :
    CellBuilder :=
  (cellBuilderStoreAddress unset address b).2

end CellBuilder

/-- A call that stores something, with what it stores. -/
inductive Item where
  | number (value bits : Int)
  | bytes (value : Option (List UInt8))
  | string (value : Option (List Char))
  | ref (cell : Option (Option Cell))
  | dict (dict : Option (Option Cell))
  | dictCell (rootCell : Option (Option Cell))
  | coins (value : BitVec 128)
  | address (address : Option (List Char))

section Runs
open Vm (CellBuilder)

def Item.store (unset : Block.StdAddress) (b : CellBuilder) : Item → Except Exception CellBuilder
  | .number value bits => .ok (CellBuilder.store value bits b)
  | .bytes (some value) => .ok (CellBuilder.storeBytes value b)
  | .bytes none => .error .nullReference
  | .string (some value) => .ok (CellBuilder.storeBytes (Utf8.encode value) b)
  | .string none => .error .argumentNull
  | .ref cell => CellBuilder.storeRef cell b
  | .dict d => .ok (CellBuilder.storeDict d b)
  | .dictCell rootCell => .ok (CellBuilder.storeDictCell rootCell b)
  | .coins value => .ok (CellBuilder.storeCoins value b)
  | .address text => .ok (CellBuilder.storeAddress unset text b)

/-- The builder a sequence of calls leaves. -/
def storeItems (unset : Block.StdAddress) (items : List Item) (b : CellBuilder) :
    Except Exception CellBuilder :=
  items.foldlM (Item.store unset) b

/-- `CellBuilder.Begin()`, the calls, and `End()`. -/
def build (unset : Block.StdAddress) (items : List Item) : Except Exception Cell := do
  CellBuilder.finish (← storeItems unset items CellBuilder.begin)

end Runs

/-! ## What the items are

    The bits and references an item stands for, without regard to what the
    builder does with it. A number that its width cannot hold has none. -/

/-- A number of this width, signed or unsigned. -/
def FitsWidth (value : Int) (bits : Nat) : Prop := -2 ^ bits ≤ 2 * value ∧ value < 2 ^ bits

instance (value : Int) (bits : Nat) : Decidable (FitsWidth value bits) :=
  inferInstanceAs (Decidable (_ ∧ _))

/-- The workchain of a standard address is a signed byte. -/
def FitsByte (workchain : Int) : Prop := -128 ≤ workchain ∧ workchain < 128

instance (workchain : Int) : Decidable (FitsByte workchain) :=
  inferInstanceAs (Decidable (_ ∧ _))

def addressBits (a : Block.StdAddress) : List Bool :=
  Vm.CellBuilder.longBits 2 2 ++ (Vm.CellBuilder.longBits 0 1 ++
    (Vm.CellBuilder.longBits a.workchain 8 ++ BitField.ofBytes a.addr))

/-- The number of bytes in 4 bits, and the bytes. -/
def coinsBits (value : Nat) : List Bool :=
  BitField.ofNat 4 (BigInteger.dataLength value) ++ BitField.ofBytes (BigInteger.getData value)

/-- The content of an item. There is none for a null argument, for a number that its width cannot
hold, for an amount whose byte count needs more than 4 bits, for a text that is no address and for
an address whose workchain is no signed byte. -/
def Item.content : Item → Option (List Bool × List Cell)
  | .number value bits =>
    if 0 ≤ bits ∧ FitsWidth value bits.toNat then
      some (BitField.ofNat bits.toNat (value % 2 ^ bits.toNat).toNat, [])
    else none
  | .bytes value => value.map (fun bs => (BitField.ofBytes bs, []))
  | .string value => value.map (fun cs => (BitField.ofBytes (Utf8.encode cs), []))
  | .ref cell => cell.join.map (fun c => ([], [c]))
  | .dict d =>
    match d.join with
    | some root => some ([true], [root])
    | none => some ([false], [])
  | .dictCell rootCell =>
    match rootCell.join with
    | some root => some ([true], [root])
    | none => some ([false], [])
  | .coins value =>
    if BigInteger.dataLength value.toNat ≤ 15 then some (coinsBits value.toNat, []) else none
  | .address none => some ([false, false], [])
  | .address (some text) => do
    let a ← Block.StdAddress.rdeserialize text
    if FitsByte a.workchain then some (addressBits a, []) else none

/-- The contents of the items in call order, one after the other. -/
def contents : List Item → Option (List Bool × List Cell)
  | [] => some ([], [])
  | i :: is =>
    match i.content, contents is with
    | some c, some cs => some (c.1 ++ cs.1, c.2 ++ cs.2)
    | _, _ => none

/-! ## What a builder keeps of them -/

/-- `Kept ok bs rs b b'`: between `b` and `b'` at most as many bits and references came in as the
item of `bs` and `rs` has, and they are that item exactly when it is `ok` and fits. -/
def Kept (ok : Prop) (bs : List Bool) (rs : List Cell) (b b' : Vm.CellBuilder) : Prop :=
  ∃ bs' rs', b'.bits = b.bits ++ bs' ∧ b'.refs = b.refs ++ rs' ∧
    bs'.length ≤ bs.length ∧ rs'.length ≤ rs.length ∧
    (bs' = bs ∧ rs' = rs ↔ ok ∧ b.canExtendBy bs.length rs.length)

namespace Kept
variable {ok ok' : Prop} {bs cs : List Bool} {rs qs : List Cell} {b b' b'' : Vm.CellBuilder}

theorem of_stores {f : Vm.Store} (hf : Vm.Stores f bs rs) (b : Vm.CellBuilder) :
    Kept True bs rs b (f b).2 := by
  obtain ⟨bs', rs', hb, hr, pb, pr, hfit, hall⟩ := hf b
  exact ⟨bs', rs', hb, hr, pb.length_le, pr.length_le, by rw [← hall, hfit, true_and]⟩

/-- The builder refused the item without regard to its size. -/
theorem refused (hne : ¬ (bs = [] ∧ rs = [])) : Kept False bs rs b b :=
  ⟨[], [], by simp, by simp, Nat.zero_le _, Nat.zero_le _, by
    simp only [false_and, iff_false]
    exact fun h => hne ⟨h.1.symm, h.2.symm⟩⟩

theorem refl : Kept True [] [] b b :=
  ⟨[], [], by simp, by simp, le_rfl, le_rfl, by simp [Vm.CellBuilder.canExtendBy]⟩

theorem congr (h : Kept ok bs rs b b') (hok : ok ↔ ok') : Kept ok' bs rs b b' := by
  rwa [propext hok] at h

/-- Two parts of at most the lengths of `xs` and `ys` make up `xs ++ ys` only by being them. -/
theorem append_eq_iff {α : Type} {xs ys xs' ys' : List α} (hx : xs'.length ≤ xs.length)
    (hy : ys'.length ≤ ys.length) : xs' ++ ys' = xs ++ ys ↔ xs' = xs ∧ ys' = ys := by
  constructor
  · intro h
    have hlen := congrArg List.length h
    rw [List.length_append, List.length_append] at hlen
    exact List.append_inj h (by omega)
  · rintro ⟨rfl, rfl⟩
    rfl

/-- One item after another. -/
theorem trans (h : Kept ok bs rs b b') (h' : Kept ok' cs qs b' b'') :
    Kept (ok ∧ ok') (bs ++ cs) (rs ++ qs) b b'' := by
  obtain ⟨bs₁, rs₁, hb₁, hr₁, lb₁, lr₁, hall₁⟩ := h
  obtain ⟨bs₂, rs₂, hb₂, hr₂, lb₂, lr₂, hall₂⟩ := h'
  refine ⟨bs₁ ++ bs₂, rs₁ ++ rs₂, by rw [hb₂, hb₁, List.append_assoc],
    by rw [hr₂, hr₁, List.append_assoc], by simp only [List.length_append]; omega,
    by simp only [List.length_append]; omega, ?_⟩
  rw [append_eq_iff lb₁ lb₂, append_eq_iff lr₁ lr₂]
  -- the second item is stored after what the first one left, so it fits after the first one whole
  have hfit : bs₁ = bs ∧ rs₁ = rs → (b'.canExtendBy cs.length qs.length ∧
      b.canExtendBy bs.length rs.length ↔
        b.canExtendBy (bs ++ cs).length (rs ++ qs).length) := by
    rintro ⟨rfl, rfl⟩
    simp only [Vm.CellBuilder.canExtendBy, hb₁, hr₁, List.length_append]
    omega
  constructor
  · rintro ⟨⟨e₁, e₂⟩, e₃, e₄⟩
    have h₁ := hall₁.1 ⟨e₁, e₃⟩
    have h₂ := hall₂.1 ⟨e₂, e₄⟩
    exact ⟨⟨h₁.1, h₂.1⟩, (hfit ⟨e₁, e₃⟩).1 ⟨h₂.2, h₁.2⟩⟩
  · rintro ⟨⟨hok, hok'⟩, hcan⟩
    have hcan₁ : b.canExtendBy bs.length rs.length := by
      simp only [Vm.CellBuilder.canExtendBy, List.length_append] at hcan ⊢
      omega
    have e₁ := hall₁.2 ⟨hok, hcan₁⟩
    have e₂ := hall₂.2 ⟨hok', ((hfit e₁).2 hcan).1⟩
    exact ⟨⟨e₁.1, e₂.1⟩, e₁.2, e₂.2⟩

/-- An item that is `ok` and fits is appended. -/
theorem eq_append (h : Kept ok bs rs b b') (hok : ok)
    (hfit : b.canExtendBy bs.length rs.length) : b' = b.append bs rs hfit := by
  obtain ⟨bs', rs', hb, hr, -, -, hall⟩ := h
  obtain ⟨rfl, rfl⟩ := hall.2 ⟨hok, hfit⟩
  exact Vm.CellBuilder.ext hb hr

end Kept

/-- The calls that raise: those with a null argument. -/
def Item.Raises : Item → Prop
  | .bytes value => value = none
  | .string value => value = none
  | .ref cell => cell = none
  | _ => False

/-- The items a large enough builder takes whole. -/
def Item.Storable : Item → Prop
  | .number value bits => 0 ≤ bits ∧ bits ≤ 64 ∧ FitsWidth value bits.toNat
  | .ref cell => cell ≠ some none
  | .dict d => d ≠ some none
  | .coins value => value.toNat < 2 ^ 119
  | .address text => ∀ t ∈ text, ∃ a, Block.StdAddress.rdeserialize t = some a ∧
      FitsByte a.workchain
  | _ => True

/-- The low bits of a number do not depend on where it was cut off above them. -/
theorem ofNat_emod {w v : Nat} {x : Int} (h : w ≤ v) :
    BitField.ofNat w (x % 2 ^ v).toNat = BitField.ofNat w (x % 2 ^ w).toNat := by
  have hmod : (x % 2 ^ v).toNat % 2 ^ w = (x % 2 ^ w).toNat % 2 ^ w := by
    have hdvd : (2 ^ w : Int) ∣ 2 ^ v := pow_dvd_pow 2 h
    apply Int.natCast_inj.1
    rw [Int.natCast_emod, Int.natCast_emod, Int.toNat_of_nonneg (Int.emod_nonneg _ (by positivity)),
      Int.toNat_of_nonneg (Int.emod_nonneg _ (by positivity))]
    push_cast
    rw [Int.emod_emod_of_dvd _ hdvd, Int.emod_emod_of_dvd _ dvd_rfl]
  rw [← BitField.ofNat_mod, hmod, BitField.ofNat_mod]

/-- A number store keeps the low bits of the number, if they are not more than 64. -/
theorem kept_store (value : Int) (bits : Int) (h : 0 ≤ bits) (b : Vm.CellBuilder) :
    Kept (bits ≤ 64) (BitField.ofNat bits.toNat (value % 2 ^ bits.toNat).toNat) [] b
      (CellBuilder.store value bits b) := by
  have huns : TonLib.unsigned bits = bits.toNat := by rw [TonLib.unsigned, if_neg (by omega)]
  rw [CellBuilder.store, TonLib.cellBuilderStoreLong, huns]
  by_cases hle : bits ≤ 64
  · have hs := Vm.Stores.storeLongBool value bits.toNat (by omega)
    rw [Vm.CellBuilder.longBits, ofNat_emod (by omega)] at hs
    exact (Kept.of_stores hs b).congr (by simp [hle])
  · rw [Vm.CellBuilder.storeLongBool, if_pos (by omega)]
    refine (Kept.refused ?_).congr (by simp [hle])
    rintro ⟨hnil, -⟩
    have := congrArg List.length hnil
    rw [BitField.length_ofNat, List.length_nil] at this
    omega

theorem kept_storeBytes (value : List UInt8) (b : Vm.CellBuilder) :
    Kept True (BitField.ofBytes value) [] b (CellBuilder.storeBytes value b) :=
  Kept.of_stores (Vm.Stores.storeBytesBool value) b

/-- `Appends f bs`: `f` appends the bits `bs` where they fit. -/
def Appends (f : Vm.CellBuilder → Vm.CellBuilder) (bs : List Bool) : Prop :=
  ∀ b (h : b.canExtendBy bs.length 0), f b = b.append bs [] h

namespace Appends
variable {f g : Vm.CellBuilder → Vm.CellBuilder} {bs cs : List Bool}

theorem store (value : Int) (bits : Nat) (h : bits ≤ 64) :
    Appends (CellBuilder.store value bits) (BitField.ofNat bits (value % 2 ^ bits).toNat) :=
  fun b hfit => (kept_store value bits (by omega) b).eq_append (by omega) hfit

theorem storeNat (value : Nat) (bits : Nat) (h : bits ≤ 64) :
    Appends (CellBuilder.store value bits) (BitField.ofNat bits value) := by
  have happ := store value bits h
  have hmod : ((value : Int) % 2 ^ bits).toNat = value % 2 ^ bits := by
    rw [← Int.toNat_natCast (value % 2 ^ bits), Int.natCast_emod, Int.natCast_pow]
    rfl
  rwa [hmod, BitField.ofNat_mod] at happ

/-- A `long` goes in as its two's complement. -/
theorem storeLong (value : BitVec 64) :
    Appends (CellBuilder.store value.toInt 64) (BitField.ofNat 64 value.toNat) := by
  have happ := store value.toInt 64 (by decide)
  have hmod : (value.toInt % 2 ^ 64).toNat = value.toNat := by
    rw [BitVec.toInt_eq_toNat_bmod]
    change ((value.toNat : Int).bmod (2 ^ 64) % ((2 ^ 64 : Nat) : Int)).toNat = value.toNat
    rw [Int.bmod_emod, ← Int.natCast_emod, Int.toNat_natCast, Nat.mod_eq_of_lt value.isLt]
  rwa [hmod] at happ

theorem storeBool (value : Bool) : Appends (CellBuilder.storeBool value) [value] := by
  cases value
  · exact store 0 1 (by decide)
  · exact store 1 1 (by decide)

/-- No dictionary is one zero bit. -/
theorem storeDict_none : Appends (CellBuilder.storeDict none) [false] := fun b hfit =>
  (Kept.of_stores (Vm.Stores.storeLongBool 0 1 (by decide)) b).eq_append trivial hfit

theorem storeBytes (value : List UInt8) :
    Appends (CellBuilder.storeBytes value) (BitField.ofBytes value) :=
  fun b hfit => (kept_storeBytes value b).eq_append trivial hfit

theorem id : Appends (fun b => b) [] :=
  fun b _ => Vm.CellBuilder.ext (by simp) (by simp)

theorem comp (hf : Appends f bs) (hg : Appends g cs) : Appends (fun b => g (f b)) (bs ++ cs) := by
  intro b h
  have hf' : b.canExtendBy bs.length 0 := by
    simp only [Vm.CellBuilder.canExtendBy, List.length_append] at h ⊢
    omega
  have hg' : (b.append bs [] hf').canExtendBy cs.length 0 := by
    simp only [Vm.CellBuilder.canExtendBy, List.length_append, Vm.CellBuilder.bits_append,
      Vm.CellBuilder.refs_append, List.append_nil] at h ⊢
    omega
  simp only [hf b hf', hg _ hg']
  exact Vm.CellBuilder.ext (by simp) (by simp)

/-- A loop that appends one item for every element of a list. -/
theorem foldl {γ : Type} {step : Vm.CellBuilder → γ → Vm.CellBuilder} {code : γ → List Bool}
    (hstep : ∀ x, Appends (fun b => step b x) (code x)) (xs : List γ) :
    Appends (fun b => xs.foldl step b) (xs.flatMap code) := by
  induction xs with
  | nil => exact id
  | cons x xs ih => exact (hstep x).comp ih

end Appends

theorem kept_storeCoins {value : BitVec 128} (h : BigInteger.dataLength value.toNat ≤ 15)
    (b : Vm.CellBuilder) :
    Kept True (coinsBits value.toNat) [] b (CellBuilder.storeCoins value b) := by
  rw [CellBuilder.storeCoins]
  by_cases hv : value = 0
  · subst hv
    rw [if_pos rfl]
    exact (kept_store 0 4 (by decide) b).congr (by decide)
  · rw [if_neg hv]
    have hlen : ((BigInteger.getData value.toNat).length : Int) % 2 ^ (4 : Int).toNat
        = BigInteger.dataLength value.toNat := by
      rw [BigInteger.length_getData]
      change (_ : Int) % 2 ^ 4 = _
      omega
    have hnibble := kept_store (BigInteger.getData value.toNat).length 4 (by decide) b
    rw [hlen, Int.toNat_natCast] at hnibble
    exact (hnibble.trans (kept_storeBytes _ _)).congr (by decide)

theorem kept_storeDict (root : Cell) (b : Vm.CellBuilder) :
    Kept True [true] [root] b (CellBuilder.storeDict (some (some root)) b) :=
  Kept.of_stores ((Vm.Stores.storeLongBool 1 1 (by decide)).and
    (Vm.Stores.storeRefBool root)) b

/-- An empty dictionary object leaves a set flag, if anything: never the one of an empty one. -/
theorem kept_storeDict_empty (b : Vm.CellBuilder) :
    Kept False [false] [] b (CellBuilder.storeDict (some none) b) := by
  have hstore : CellBuilder.storeDict (some none) b = (Vm.CellBuilder.storeLongBool 1 1 b).2 := by
    simp only [CellBuilder.storeDict, TonLib.cellBuilderStoreDict, Vm.Store.and,
      Vm.CellBuilder.storeRefBool]
    split <;> rfl
  obtain ⟨bs', rs', hb, hr, pb, pr, -⟩ :=
    Vm.Stores.storeLongBool 1 1 (by decide) b
  refine ⟨bs', rs', by rw [hstore, hb], by rw [hstore, hr], pb.length_le, pr.length_le, ?_⟩
  simp only [false_and, iff_false]
  rintro ⟨rfl, -⟩
  exact absurd pb (by decide)

theorem kept_storeAddress (unset a : Block.StdAddress) {text : List Char}
    (h : Block.StdAddress.rdeserialize text = some a) (b : Vm.CellBuilder) :
    Kept True (addressBits a) [] b (CellBuilder.storeAddress unset (some text) b) := by
  rw [CellBuilder.storeAddress, TonLib.cellBuilderStoreAddress, h, Option.getD_some]
  exact Kept.of_stores ((Vm.Stores.storeLongBool 2 2 (by decide)).and
    ((Vm.Stores.storeLongBool 0 1 (by decide)).and
      ((Vm.Stores.storeLongBool a.workchain 8 (by decide)).and
        (Vm.Stores.storeBytesBool a.addr)))) b

/-- What `StoreAddress` stores: two zeros for null, and what nothing has written for a text that
is no address. -/
def storedAddress (unset : Block.StdAddress) : Option (List Char) → List Bool
  | some address => addressBits ((Block.StdAddress.rdeserialize address).getD unset)
  | none => Vm.CellBuilder.longBits 0 2

theorem length_storedAddress_le (unset : Block.StdAddress) (address : Option (List Char)) :
    (storedAddress unset address).length ≤ 267 := by
  cases address with
  | none => rw [storedAddress, Vm.CellBuilder.length_longBits]; omega
  | some address =>
    rw [storedAddress, addressBits]
    simp only [List.length_append, Vm.CellBuilder.length_longBits, BitField.length_ofBytes,
      Block.StdAddress.addr_length]
    omega

theorem appends_storeAddress (unset : Block.StdAddress) (address : Option (List Char)) :
    Appends (CellBuilder.storeAddress unset address) (storedAddress unset address) := by
  intro b hfit
  cases address with
  | none =>
    exact (Kept.of_stores (Vm.Stores.storeLongBool 0 2 (by decide)) b).eq_append trivial hfit
  | some address =>
    exact (Kept.of_stores ((Vm.Stores.storeLongBool 2 2 (by decide)).and
      ((Vm.Stores.storeLongBool 0 1 (by decide)).and ((Vm.Stores.storeLongBool _ 8 (by decide)).and
        (Vm.Stores.storeBytesBool _)))) b).eq_append trivial hfit

theorem Item.store_of_raises {i : Item} (h : i.Raises) (unset : Block.StdAddress)
    (b : Vm.CellBuilder) : ∃ e, i.store unset b = .error e := by
  cases i with
  | bytes value => obtain rfl : value = none := h; exact ⟨_, rfl⟩
  | string value => obtain rfl : value = none := h; exact ⟨_, rfl⟩
  | ref cell => obtain rfl : cell = none := h; exact ⟨_, rfl⟩
  | number | dict | dictCell | coins | address => exact h.elim

/-- What one call leaves in the builder, an item at a time. -/
theorem Item.kept_store {i : Item} (h : ¬ i.Raises) (unset : Block.StdAddress)
    (b : Vm.CellBuilder) : ∃ b', i.store unset b = .ok b' ∧
      ∀ c, i.content = some c → Kept i.Storable c.1 c.2 b b' := by
  cases i with
  | number value bits =>
    refine ⟨_, rfl, fun c hc => ?_⟩
    simp only [content] at hc
    split at hc
    · rename_i hbits
      obtain rfl := Option.some.inj hc
      exact (Ton.kept_store value bits hbits.1 b).congr (by simp [Storable, hbits])
    · cases hc
  | bytes value =>
    cases value with
    | none => exact absurd rfl h
    | some value =>
      refine ⟨_, rfl, fun c hc => ?_⟩
      obtain rfl := Option.some.inj hc
      exact kept_storeBytes value b
  | string value =>
    cases value with
    | none => exact absurd rfl h
    | some value =>
      refine ⟨_, rfl, fun c hc => ?_⟩
      obtain rfl := Option.some.inj hc
      exact kept_storeBytes _ b
  | ref cell =>
    match cell with
    | none => exact absurd rfl h
    | some none => exact ⟨_, rfl, fun c hc => by cases hc⟩
    | some (some cell) =>
      refine ⟨_, rfl, fun c hc => ?_⟩
      obtain rfl := Option.some.inj hc
      exact (Kept.of_stores (Vm.Stores.storeRefBool cell) b).congr (by simp [Storable])
  | dict d =>
    refine ⟨_, rfl, fun c hc => ?_⟩
    match d with
    | none =>
      obtain rfl := Option.some.inj hc
      exact (Kept.of_stores (Vm.Stores.storeLongBool 0 1 (by decide)) b).congr
        (by simp [Storable])
    | some none =>
      obtain rfl := Option.some.inj hc
      exact (kept_storeDict_empty b).congr (by simp [Storable])
    | some (some root) =>
      obtain rfl := Option.some.inj hc
      exact (kept_storeDict root b).congr (by simp [Storable])
  | dictCell rootCell =>
    refine ⟨_, rfl, fun c hc => ?_⟩
    simp only [content] at hc
    rw [CellBuilder.storeDictCell]
    cases hroot : rootCell.join with
    | none =>
      rw [hroot] at hc
      obtain rfl := Option.some.inj hc
      exact Kept.of_stores (Vm.Stores.storeLongBool 0 1 (by decide)) b
    | some root =>
      rw [hroot] at hc
      obtain rfl := Option.some.inj hc
      exact kept_storeDict root b
  | coins value =>
    refine ⟨_, rfl, fun c hc => ?_⟩
    simp only [content] at hc
    split at hc
    · rename_i hlen
      obtain rfl := Option.some.inj hc
      refine (kept_storeCoins hlen b).congr ?_
      simpa [Storable] using (BigInteger.dataLength_le_iff (by decide)).1 hlen
    · cases hc
  | address text =>
    refine ⟨_, rfl, fun c hc => ?_⟩
    cases text with
    | none =>
      obtain rfl := Option.some.inj hc
      exact (Kept.of_stores (Vm.Stores.storeLongBool 0 2 (by decide)) b).congr
        (by simp [Storable])
    | some text =>
      obtain ⟨a, ha, hfits⟩ := Option.bind_eq_some_iff.1 hc
      split_ifs at hfits with hbyte
      obtain rfl := Option.some.inj hfits
      exact (kept_storeAddress unset a ha b).congr (by simp [Storable, ha, hbyte])

theorem storeRef_eq (c : Cell) (b : Vm.CellBuilder) (h : b.canExtendBy 0 1) :
    CellBuilder.storeRef (some (some c)) b = .ok (b.append [] [c] h) := by
  simp only [CellBuilder.storeRef, TonLib.cellBuilderStoreRef]
  rw [(Vm.Stores.storeRefBool c).eq_append h]

theorem finish_eq (b : Vm.CellBuilder) : CellBuilder.finish b =
    if Cell.depthRefs b.refs ≤ Vm.maxDepth then .ok (.mk b.bits b.refs) else .error .cellWrite := by
  simp only [CellBuilder.finish, TonLib.cellBuilderFinalize, Vm.CellBuilder.finalizeNovm]
  split
  · rename_i heq
    split at heq
    · cases heq; rw [if_pos ‹_›]
    · cases heq
  · rename_i heq
    split at heq
    · cases heq
    · rw [if_neg ‹_›]

/-- A cell of some bits. -/
theorem finish_begin {f : Vm.CellBuilder → Vm.CellBuilder} {bs : List Bool} (hf : Appends f bs)
    (h : bs.length ≤ Vm.maxBits) : CellBuilder.finish (f CellBuilder.begin) = .ok (.mk bs []) := by
  have hfit : CellBuilder.begin.canExtendBy bs.length 0 := ⟨h, Nat.zero_le _⟩
  rw [hf _ hfit, finish_eq]
  exact if_pos (by simp [CellBuilder.begin])

/-- A cell of some bits and one reference. -/
theorem finish_storeRef {f : Vm.CellBuilder → Vm.CellBuilder} {bs : List Bool} (hf : Appends f bs)
    (h : bs.length ≤ Vm.maxBits) (ref : Cell) :
    (do CellBuilder.finish (← CellBuilder.storeRef (some (some ref)) (f CellBuilder.begin))) =
      if ref.depth + 1 ≤ Vm.maxDepth then .ok (.mk bs [ref]) else .error .cellWrite := by
  have hfit : CellBuilder.begin.canExtendBy bs.length 0 := ⟨h, Nat.zero_le _⟩
  have hroom : (CellBuilder.begin.append bs [] hfit).canExtendBy 0 1 :=
    ⟨Nat.zero_le _, show 1 ≤ Vm.maxRefs by decide⟩
  have hdepth : Cell.depthRefs [ref] = ref.depth + 1 := by simp
  rw [hf _ hfit, storeRef_eq _ _ hroom, ← hdepth]
  refine (finish_eq ((CellBuilder.begin.append bs [] hfit).append [] [ref] hroom)).trans ?_
  rw [Vm.CellBuilder.bits_append, List.append_nil]
  rfl

/-! ## Runs of calls -/

section Runs
variable (unset : Block.StdAddress)

theorem storeItems_of_raises {items : List Item} (h : ∃ i ∈ items, i.Raises)
    (b : Vm.CellBuilder) : ∃ e, storeItems unset items b = .error e := by
  induction items generalizing b with
  | nil => simp at h
  | cons i items ih =>
    rw [storeItems, List.foldlM_cons]
    cases hstore : i.store unset b with
    | error e => exact ⟨e, rfl⟩
    | ok b' =>
      obtain ⟨j, hj, hraises⟩ := h
      rcases List.mem_cons.1 hj with rfl | hj
      · obtain ⟨e, he⟩ := Item.store_of_raises hraises unset b
        rw [he] at hstore
        cases hstore
      · exact ih ⟨j, hj, hraises⟩ b'

/-- What a run of calls leaves, all the items taken together. -/
theorem kept_storeItems (items : List Item) (h : ∀ i ∈ items, ¬ i.Raises) (b : Vm.CellBuilder) :
    ∃ b', storeItems unset items b = .ok b' ∧
      ∀ c, contents items = some c → Kept (∀ i ∈ items, i.Storable) c.1 c.2 b b' := by
  induction items generalizing b with
  | nil =>
    refine ⟨b, rfl, fun c hc => ?_⟩
    obtain rfl := Option.some.inj hc
    exact Kept.refl.congr (by simp)
  | cons i items ih =>
    obtain ⟨b', hb', hkept⟩ := Item.kept_store (h i (by simp)) unset b
    obtain ⟨b'', hb'', hrest⟩ := ih (fun j hj => h j (by simp [hj])) b'
    refine ⟨b'', by rw [storeItems, List.foldlM_cons, hb']; exact hb'', fun c hc => ?_⟩
    rw [contents] at hc
    split at hc
    · rename_i c₁ c₂ hc₁ hc₂
      obtain rfl := Option.some.inj hc
      exact ((hkept c₁ hc₁).trans (hrest c₂ hc₂)).congr (by simp)
    · cases hc

/-- Either the run raises, or the cell holds the contents of all the items in call order. -/
def LosesNothing (items : List Item) : Prop :=
  ∀ cell, build unset items = .ok cell → contents items = some (cell.bits, cell.refs)

/-- The references left in the builder nest deeper than a cell may. -/
def TooDeep (items : List Item) : Prop :=
  ∃ b, storeItems unset items CellBuilder.begin = .ok b ∧ Vm.maxDepth < Cell.depthRefs b.refs

/-- The items can be stored one by one, and together they are no more than a cell holds. -/
def FitsCell (items : List Item) : Prop :=
  (∀ i ∈ items, i.Storable) ∧
    ∃ c, contents items = some c ∧ c.1.length ≤ Vm.maxBits ∧ c.2.length ≤ Vm.maxRefs

/-- A builder loses nothing exactly when a call raises, or `End` does, or everything fits. -/
theorem losesNothing_iff (items : List Item) :
    LosesNothing unset items ↔
      (∃ i ∈ items, i.Raises) ∨ TooDeep unset items ∨ FitsCell items := by
  by_cases hraises : ∃ i ∈ items, i.Raises
  · obtain ⟨e, he⟩ := storeItems_of_raises unset hraises CellBuilder.begin
    refine ⟨fun _ => .inl hraises, fun _ cell hcell => ?_⟩
    rw [build, he] at hcell
    cases hcell
  have hr : ∀ i ∈ items, ¬ i.Raises := fun i hi h => hraises ⟨i, hi, h⟩
  obtain ⟨b, hb, hkept⟩ := kept_storeItems unset items hr CellBuilder.begin
  have hbuild : build unset items = CellBuilder.finish b := by rw [build, hb]; rfl
  by_cases hdeep : Cell.depthRefs b.refs ≤ Vm.maxDepth
  · rw [finish_eq, if_pos hdeep] at hbuild
    -- the cell is what the builder kept, so it is the contents exactly when they were kept whole
    have hkeeps : ∀ c, contents items = some c → ((b.bits, b.refs) = c ↔
        (∀ i ∈ items, i.Storable) ∧ c.1.length ≤ Vm.maxBits ∧ c.2.length ≤ Vm.maxRefs) := by
      intro c hc
      obtain ⟨bs, rs, hbits, hrefs, -, -, hall⟩ := hkept c hc
      have hbs : b.bits = bs := hbits
      have hrs : b.refs = rs := hrefs
      rw [Prod.ext_iff, hbs, hrs, hall]
      rfl
    constructor
    · intro h
      have hc := h _ hbuild
      obtain ⟨hs, hfit⟩ := (hkeeps _ hc).1 rfl
      exact .inr (.inr ⟨hs, _, hc, hfit⟩)
    · rintro (h | ⟨b', hb', hdeep'⟩ | ⟨hs, c, hc, hfit⟩) cell hcell
      · exact absurd h hraises
      · rw [hb] at hb'
        cases hb'
        omega
      · rw [hbuild] at hcell
        cases hcell
        rw [hc, ← (hkeeps c hc).2 ⟨hs, hfit⟩]
        rfl
  · rw [finish_eq, if_neg hdeep] at hbuild
    refine ⟨fun _ => .inr (.inl ⟨b, hb, by omega⟩), fun _ cell hcell => ?_⟩
    rw [hbuild] at hcell
    cases hcell

end Runs

/-- Off-chain metadata, whose first byte is 1, with a link of 127 bytes: the link is left out. -/
theorem losesNothing_offChain_false :
    ¬ LosesNothing ⟨Block.workchainInvalid, true, false, List.replicate 32 0, rfl⟩
      [.number 1 8, .bytes (some (List.replicate 127 97))] := by
  intro h
  have hcontents : contents [.number 1 8, .bytes (some (List.replicate 127 97))] =
      some (BitField.ofNat 8 1 ++ BitField.ofBytes (List.replicate 127 97), []) := by
    simp [contents, Item.content, FitsWidth]
  obtain ⟨b, hb, hkept⟩ := kept_storeItems
    ⟨Block.workchainInvalid, true, false, List.replicate 32 0, rfl⟩
    [.number 1 8, .bytes (some (List.replicate 127 97))] (by simp [Item.Raises]) CellBuilder.begin
  obtain ⟨bs, rs, -, hrefs, -, hlen, -⟩ := hkept _ hcontents
  have hnil : b.refs = [] := hrefs.trans (List.eq_nil_of_length_eq_zero (Nat.le_zero.1 hlen))
  have hfinish : CellBuilder.finish b = .ok (.mk b.bits b.refs) := by simp [finish_eq, hnil]
  have hcell := h (.mk b.bits b.refs) (by rw [build, hb]; exact hfinish)
  -- the contents have one bit more than a cell
  rw [hcontents] at hcell
  have hbits := congrArg (fun c => c.1.length) (Option.some.inj hcell)
  have hmax := b.bits_le
  simp [Vm.maxBits] at hbits hmax
  omega

end Ton
