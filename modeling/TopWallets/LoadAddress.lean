import TopWallets.SnakeText

/- Addresses in cells: `CellBuilder.StoreAddress` and `Slice.LoadAddress`.

   The writer parses the text with the constructor of `StdAddress`, which reads the friendly
   form only; any other text leaves the address object as it was made, and that object is
   stored: workchain 0, the low byte of the invalid one, and 32 bytes that nothing has
   written. The reader takes the workchain as an unsigned byte, and from 128 on there is no
   text for it. Main result: an address comes back exactly when its text is null, or the
   friendly form in a workchain that is not negative, up to the accident that the bytes
   nothing has written are those of the address (`roundTrips_iff`).

   Correspondence (C++ / C# ↔ Lean):
     a `StdAddress` made of a text that is no friendly form ↔ `StdAddress.unset`
     `AddressFromDataToString`            ↔ `addressFromDataToString`
     `Slice.LoadBytes`, with the slice after it ↔ `Slice.takeBytes`
     `Slice.LoadAddress`                  ↔ `Slice.loadAddress` -/
namespace Block.StdAddress

/-- 32 bytes of memory. -/
abbrev Memory := {bytes : List UInt8 // bytes.length = 32}

/-- The object before anything is read into it. -/
def unset (memory : Memory) : StdAddress :=
  ⟨workchainInvalid, true, false, memory.1, memory.2⟩

/-- The text is an address, in a workchain that the standard form has a byte for. -/
def Denotes (text : List Char) (a : StdAddress) : Prop :=
  parseAddr text = some a ∧ -128 ≤ a.workchain ∧ a.workchain < 128

theorem parseAddr_of_rdeserialize {text : List Char} {a : StdAddress}
    (h : rdeserialize text = some a) : parseAddr text = some a := by
  rw [parseAddr, h]

/-- The text of an address denotes it, and there is no text for what does not fit the byte. -/
theorem denotes_rserialize_iff (a b : StdAddress) :
    Denotes a.rserialize b ↔ b = a ∧ -128 ≤ a.workchain ∧ a.workchain < 128 := by
  by_cases hfits : -128 ≤ a.workchain ∧ a.workchain < 128
  · have hparse := parseAddr_of_rdeserialize (rdeserialize_rserialize a hfits.1 hfits.2)
    constructor
    · intro h
      have heq : a = b := Option.some.inj (hparse.symm.trans h.1)
      exact ⟨heq.symm, hfits⟩
    · intro h
      rw [h.1]
      exact ⟨hparse, hfits⟩
  · constructor
    · intro h
      rw [rserialize, if_neg hfits] at h
      exact absurd h.1 (by simp [parseAddr, rdeserialize, ofHex, parseHex])
    · intro h
      exact absurd h.2 hfits

end Block.StdAddress

namespace Ton
open Block (StdAddress)
open Block.StdAddress (Memory Denotes unset)

def addressFromDataToString (wc : Int) (rdata : {bytes : List UInt8 // bytes.length = 32})
    (bounceable testnet : Bool) : List Char :=
  StdAddress.rserialize ⟨wc, bounceable, testnet, rdata.1, rdata.2⟩

namespace Slice

/-- The bytes, zeros where the cell has too few, and the slice after them. -/
def takeBytes (len : Nat) (s : Slice) : {bytes : List UInt8 // bytes.length = len} × Slice :=
  (⟨loadBytes len s, by
    rw [loadBytes]
    split
    · rename_i h
      rw [Vm.fetchBytes] at h
      split at h
      · cases h
      · rw [← (Prod.mk.inj (Option.some.inj h)).1, Vm.length_bytesOfBits]
    · exact List.length_replicate⟩,
  ((Vm.fetchBytes len s).map Prod.snd).getD s)

def loadAddress (s : Slice) : Option (List Char) × Slice :=
  let (flag, s) := loadInt 2 s
  if flag = 2 then
    let (_, s) := loadInt 1 s
    let (wc, s) := loadInt 8 s
    let (rdata, s) := takeBytes 32 s
    (some (addressFromDataToString wc rdata true false), s)
  else (none, s)

end Slice

/-! ## What is written and read -/

/-- The tag `addr_std$10` stands in front. -/
def IsStdAddress (bits : List Bool) : Prop := [true, false] <+: bits

/-- What the storing and loading of an address should do. -/
def AddressRoundTrips (memory : Memory) : Option (List Char) → Prop
  | none => ∀ b : Vm.CellBuilder, b.canExtendBy 267 0 →
      ∃ bits, (CellBuilder.storeAddress (unset memory) none b).bits = b.bits ++ bits ∧
        ∀ rest refs, Slice.loadAddress ⟨bits ++ rest, refs⟩ = (none, ⟨rest, refs⟩)
  | some text => ∀ b : Vm.CellBuilder, b.canExtendBy 267 0 →
      ∃ bits, (CellBuilder.storeAddress (unset memory) (some text) b).bits = b.bits ++ bits ∧
        (∀ a, Denotes text a → ∀ rest refs, ∃ text' a',
          Slice.loadAddress ⟨bits ++ rest, refs⟩ = (some text', ⟨rest, refs⟩) ∧
            Denotes text' a' ∧ a'.workchain = a.workchain ∧ a'.addr = a.addr) ∧
        ((∀ a, ¬ Denotes text a) → ¬ IsStdAddress bits)

/-- The text is null, or the friendly form in a workchain that is not negative, or an address of
    workchain 0 that the unwritten bytes happen to hold. -/
def AddressKept (memory : Memory) : Option (List Char) → Prop
  | none => True
  | some text => ∃ a, Denotes text a ∧
      ((StdAddress.rdeserialize text = some a ∧ 0 ≤ a.workchain) ∨
        (a.workchain = 0 ∧ a.addr = memory.1))

/-- The low byte of a number in 8 bits. -/
theorem longBits_eight (v : Int) :
    Vm.CellBuilder.longBits v 8 = BitField.ofNat 8 (v % 256).toNat := by
  rw [Vm.CellBuilder.longBits, ← BitField.ofNat_mod]
  congr 1
  omega

theorem takeBytes_ofBytes (bytes : List UInt8) (hlen : bytes.length = 32) (rest : List Bool)
    (refs : List Cell) :
    Slice.takeBytes 32 ⟨BitField.ofBytes bytes ++ rest, refs⟩ = (⟨bytes, hlen⟩, ⟨rest, refs⟩) := by
  have hfetch : Vm.fetchBytes 32 ⟨BitField.ofBytes bytes ++ rest, refs⟩ =
      some (bytes, ⟨rest, refs⟩) := by
    rw [Vm.fetchBytes, if_neg (by simp [hlen]), List.drop_left' (by simp [hlen])]
    have hbytes := Vm.bytesOfBits_ofBytes bytes rest
    rw [hlen] at hbytes
    rw [hbytes]
  have hdata : Slice.loadBytes 32 ⟨BitField.ofBytes bytes ++ rest, refs⟩ = bytes := by
    rw [Slice.loadBytes, hfetch]
  rw [Slice.takeBytes, hfetch]
  exact Prod.ext (Subtype.ext hdata) rfl

/-- What is read of a stored address: the workchain as an unsigned byte. -/
theorem loadAddress_addressBits (a : StdAddress) (rest : List Bool) (refs : List Cell) :
    Slice.loadAddress ⟨addressBits a ++ rest, refs⟩ =
      (some (StdAddress.rserialize ⟨a.workchain % 256, true, false, a.addr, a.addr_length⟩),
        ⟨rest, refs⟩) := by
  have htag : Vm.CellBuilder.longBits 2 2 = BitField.ofNat 2 2 := rfl
  have hanycast : Vm.CellBuilder.longBits 0 1 = BitField.ofNat 1 0 := rfl
  have hbyte : ((a.workchain % 256).toNat : Int) = a.workchain % 256 := by omega
  rw [addressBits, longBits_eight, htag, hanycast, List.append_assoc, List.append_assoc,
    List.append_assoc, Slice.loadAddress]
  simp only [loadInt_ofNat (w := 2) (n := 2) (by decide) (by decide),
    loadInt_ofNat (w := 1) (n := 0) (by decide) (by decide),
    loadInt_ofNat (w := 8) (n := (a.workchain % 256).toNat) (by decide) (by omega),
    takeBytes_ofBytes a.addr a.addr_length, hbyte]
  rfl

theorem loadAddress_none (rest : List Bool) (refs : List Cell) :
    Slice.loadAddress ⟨Vm.CellBuilder.longBits 0 2 ++ rest, refs⟩ = (none, ⟨rest, refs⟩) := by
  have htag : Vm.CellBuilder.longBits 0 2 = BitField.ofNat 2 0 := rfl
  rw [htag, Slice.loadAddress]
  simp only [loadInt_ofNat (w := 2) (n := 0) (by decide) (by decide)]
  rfl

theorem isStdAddress_addressBits (a : StdAddress) : IsStdAddress (addressBits a) :=
  ⟨_, rfl⟩

/-- With room for an address the builder gets the item whole. -/
theorem bits_storeAddress {b : Vm.CellBuilder} (hroom : b.canExtendBy 267 0) (unset : StdAddress)
    (address : Option (List Char)) :
    (CellBuilder.storeAddress unset address b).bits = b.bits ++ storedAddress unset address := by
  have hlen := length_storedAddress_le unset address
  rw [appends_storeAddress unset address b ⟨hlen.trans hroom.1, hroom.2⟩]
  rfl

/-- The address object that a text leaves. -/
def parsedAddress (memory : Memory) (text : List Char) : StdAddress :=
  (StdAddress.rdeserialize text).getD (unset memory)

theorem parsedAddress_eq (memory : Memory) {text : List Char} {a : StdAddress}
    (ha : Denotes text a) :
    (StdAddress.rdeserialize text = some a ∧ parsedAddress memory text = a) ∨
      (StdAddress.rdeserialize text = none ∧ parsedAddress memory text = unset memory) := by
  cases h : StdAddress.rdeserialize text with
  | none => exact .inr ⟨rfl, by rw [parsedAddress, h]; rfl⟩
  | some b =>
    have hba : b = a :=
      Option.some.inj ((StdAddress.parseAddr_of_rdeserialize h).symm.trans ha.1)
    exact .inl ⟨by rw [hba], by rw [parsedAddress, h, hba]; rfl⟩

/-- An address is kept when what the object holds reads as the address. -/
theorem addressKept_iff (memory : Memory) (text : List Char) : AddressKept memory (some text) ↔
    ∃ a, Denotes text a ∧ (parsedAddress memory text).workchain % 256 = a.workchain ∧
      (parsedAddress memory text).addr = a.addr := by
  rw [AddressKept]
  refine exists_congr fun a => and_congr_right fun ha => ?_
  have hrange := ha.2
  obtain ⟨hparsed, heq⟩ | ⟨hparsed, heq⟩ := parsedAddress_eq memory ha
  · rw [heq]
    constructor
    · intro h
      exact ⟨by omega, rfl⟩
    · intro h
      exact .inl ⟨hparsed, by omega⟩
  · have hlow : (unset memory).workchain % 256 = 0 := rfl
    rw [heq, hlow]
    constructor
    · intro h
      obtain ⟨hsome, -⟩ | ⟨hzero, haddr⟩ := h
      · rw [hparsed] at hsome
        cases hsome
      · exact ⟨hzero.symm, haddr.symm⟩
    · intro h
      exact .inr ⟨h.1.symm, h.2.symm⟩

/-- What is read back of a text: the object's address, its workchain an unsigned byte. -/
theorem loadAddress_storedAddress (memory : Memory) (text : List Char) (rest : List Bool)
    (refs : List Cell) :
    Slice.loadAddress ⟨storedAddress (unset memory) (some text) ++ rest, refs⟩ =
      (some (StdAddress.rserialize ⟨(parsedAddress memory text).workchain % 256, true, false,
        (parsedAddress memory text).addr, (parsedAddress memory text).addr_length⟩),
        ⟨rest, refs⟩) :=
  loadAddress_addressBits (parsedAddress memory text) rest refs

theorem kept_of_roundTrips {memory : Memory} {address : Option (List Char)}
    (h : AddressRoundTrips memory address) : AddressKept memory address := by
  cases address with
  | none => exact trivial
  | some text =>
    rw [addressKept_iff]
    obtain ⟨bits, hbits, hload, hinvalid⟩ := h CellBuilder.begin (by decide)
    obtain rfl : storedAddress (unset memory) (some text) = bits :=
      List.append_cancel_left ((bits_storeAddress (by decide) _ _).symm.trans hbits)
    by_cases hdenotes : ∃ a, Denotes text a
    · obtain ⟨a, ha⟩ := hdenotes
      obtain ⟨text', a', heq, ha', hworkchain, haddr⟩ := hload a ha [] []
      rw [loadAddress_storedAddress] at heq
      rw [← Option.some.inj (Prod.mk.inj heq).1, StdAddress.denotes_rserialize_iff] at ha'
      rw [ha'.1] at hworkchain haddr
      exact ⟨a, ha, hworkchain, haddr⟩
    · exact absurd (isStdAddress_addressBits _) (hinvalid (not_exists.1 hdenotes))

theorem roundTrips_of_kept {memory : Memory} {address : Option (List Char)}
    (h : AddressKept memory address) : AddressRoundTrips memory address := by
  cases address with
  | none =>
    intro b hroom
    exact ⟨_, bits_storeAddress hroom _ _, loadAddress_none⟩
  | some text =>
    intro b hroom
    obtain ⟨a, ha, hworkchain, haddr⟩ := (addressKept_iff memory text).1 h
    refine ⟨_, bits_storeAddress hroom _ _, ?_, fun hnone => absurd ha (hnone a)⟩
    intro a₁ ha₁ rest refs
    obtain rfl : a = a₁ := Option.some.inj (ha.1.symm.trans ha₁.1)
    refine ⟨_, _, loadAddress_storedAddress memory text rest refs,
      (StdAddress.denotes_rserialize_iff _ _).2 ⟨rfl, ?_⟩, hworkchain, haddr⟩
    show -128 ≤ (parsedAddress memory text).workchain % 256 ∧ _
    rw [hworkchain]
    exact ha.2

/-- Which addresses come back. -/
theorem roundTrips_iff (memory : Memory) (address : Option (List Char)) :
    AddressRoundTrips memory address ↔ AddressKept memory address :=
  ⟨kept_of_roundTrips, roundTrips_of_kept⟩

/-- The elector's account. -/
def elector : StdAddress := ⟨-1, true, false, List.replicate 32 0x33, rfl⟩

set_option maxRecDepth 8000 in
/-- Its text does not come back: workchain 255 has none. -/
theorem not_roundTrips_elector : ¬ ∀ memory address, AddressRoundTrips memory address := by
  intro hall
  have h := hall ⟨List.replicate 32 0, rfl⟩
    (some "Ef8zMzMzMzMzMzMzMzMzMzMzMzMzMzMzMzMzMzMzMzMzM0vF".toList)
  have htext : "Ef8zMzMzMzMzMzMzMzMzMzMzMzMzMzMzMzMzMzMzMzMzM0vF".toList = elector.rserialize := by
    decide
  obtain ⟨a, ha, hkept⟩ := kept_of_roundTrips h
  rw [htext, StdAddress.denotes_rserialize_iff] at ha
  rw [ha.1] at hkept
  obtain ⟨-, hneg⟩ | ⟨hzero, -⟩ := hkept
  · exact absurd hneg (by decide)
  · exact absurd hzero (by decide)

end Ton
