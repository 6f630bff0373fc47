import TopWallets.SnakeText
import TopWallets.Lib.VarUInteger

/- Amounts in cells: `CellBuilder.StoreCoins` and `Slice.LoadCoins`, for a
   `VarUInteger 16`.

   The writer takes the number of bytes from the size of a signed number, so it
   spends one more byte wherever the top bit of the leading byte is set
   (`storeCoins_canonical_iff`). The reader fetches up to 64 bits as an unsigned
   number and more of them as a signed one, of which it makes 0 where it is
   negative (`loadCoins_iff`). Between them an amount is kept below 2 ^ 119
   (`loadCoins_coinsBits`): the byte that is too many is what keeps it from being
   read as negative.

   Correspondence (C++ / C# ↔ Lean):
     `CellSliceLoadLong`, `CellSliceLoadBigInt` ↔ the functions of `TonLib`
     `fetch_int256`                             ↔ `Vm.fetchInt256`
     `Slice.LoadUlong`, `.LoadLong`, `.LoadUint`, `.LoadUInt128`, `.LoadCoins`
                                                ↔ the functions of `Slice`
   A `UInt128` is a `BitVec 128`. The decimal text in which a big number crosses
   the boundary is exact and is not modelled. -/
namespace Vm

/-- The value of the next `bits` bits. -/
def fetchInt256 (bits : Nat) (sgnd : Bool) (s : Slice) : Option (Int × Slice) :=
  if s.bits.length < bits then none
  else
    let value := BitField.toNat (s.bits.take bits)
    some (if sgnd then (value : Int).bmod (2 ^ bits) else value, ⟨s.bits.drop bits, s.refs⟩)

end Vm

namespace TonLib

/-- A read that the slice refuses leaves it as it is, and gives 0. -/
def cellSliceLoadLong (bits : Int) (s : Slice) : Nat × Slice :=
  (Vm.fetchUlongBool (unsigned bits) s).getD (0, s)

/-- `Int128.Parse`. -/
def int128Parse (value : Int) : Except Ton.Exception Int :=
  if -2 ^ 127 ≤ value ∧ value < 2 ^ 127 then .ok value else .error .overflow

/-- The native function reads on through a null pointer where the slice is too short. -/
def cellSliceLoadBigInt (bits : Int) (s : Slice) : Except Ton.Exception (BitVec 128 × Slice) :=
  match Vm.fetchInt256 (unsigned bits) true s with
  | none => .error .accessViolation
  | some (value, s) => do
    let value ← int128Parse value
    return (if 0 < value then BitVec.ofInt 128 value else 0, s)

end TonLib

namespace Ton

namespace Slice
open TonLib

def loadUlong (bits : Int) (s : Slice) : Nat × Slice := cellSliceLoadLong bits s

def loadLong (bits : Int) (s : Slice) : Int × Slice :=
  match cellSliceLoadLong bits s with
  | (value, s) => ((BitVec.ofNat 64 value).toInt, s)

def loadUint (bits : Int) (s : Slice) : Nat × Slice :=
  match loadLong bits s with
  | (value, s) => ((BitVec.ofInt 32 value).toNat, s)

/-- `LoadUInt128`, of a length whose logarithm is taken as exact. -/
def loadUInt128 (length : Nat) (s : Slice) : Except Exception (BitVec 128 × Slice) :=
  match loadInt (Nat.clog 2 length) s with
  | (count, s) =>
    let bits := (count * 8).bmod (2 ^ 32)
    if bits ≤ 64 then
      match loadUlong bits s with
      | (value, s) => .ok (BitVec.ofNat 128 value, s)
    else cellSliceLoadBigInt bits s

def loadCoins (s : Slice) : Except Exception (BitVec 128 × Slice) := loadUInt128 16 s

end Slice

/-! ## Writing -/

open BigInteger

/-- A signed number has room for its sign: it takes a byte more where the unsigned one fills its
bytes. -/
theorem dataLength_eq (v : Nat) : dataLength v = if v = 0 then 0 else v.size / 8 + 1 := by
  rw [dataLength, BigInt256.bitSize]
  split
  · rfl
  · omega

theorem lt_two_pow_dataLength (v : Nat) : v < 2 ^ (8 * dataLength v) := by
  rw [← Nat.size_le, dataLength_eq]
  split
  · next hzero => rw [hzero, Nat.size_zero]
  · omega

theorem ofBytes_exportBytes (n v : Nat) :
    BitField.ofBytes (BigInt256.exportBytes n v) = BitField.ofNat (8 * n) v := by
  induction n with
  | zero => rfl
  | succ n ih =>
    rw [BigInt256.exportBytes, BitField.ofBytes, List.flatMap_cons, ← BitField.ofBytes, ih,
      UInt8.toNat_ofNat', show 8 * (n + 1) = 8 + 8 * n by omega, BitField.ofNat_add,
      Nat.pow_mul]
    refine congrArg (· ++ _) ?_
    exact BitField.ofNat_mod 8 _

theorem coinsBits_eq (v : Nat) : coinsBits v = VarUInteger.spell 4 (dataLength v) v := by
  rw [coinsBits, VarUInteger.spell, getData, ofBytes_exportBytes]

theorem length_coinsBits_le (value : BitVec 128) : (coinsBits value.toNat).length ≤ 140 := by
  have hsize : value.toNat.size ≤ 128 := Nat.size_le.2 value.isLt
  rw [coinsBits_eq, VarUInteger.length_spell, dataLength_eq]
  split <;> omega

/-- Below 2 ^ 119 the length fits, and so the bits are a spelling of the amount. -/
theorem spells_coinsBits_iff (v : Nat) : VarUInteger.Spells 4 (coinsBits v) v ↔ v < 2 ^ 119 := by
  rw [coinsBits_eq]
  constructor
  · intro h
    have hlen := h.length_eq
    rw [BitField.length_ofNat] at hlen
    have hle : dataLength v ≤ 15 := by omega
    exact (dataLength_le_iff (by decide)).1 hle
  · intro h
    have hle : dataLength v ≤ 15 := (dataLength_le_iff (by decide)).2 h
    exact VarUInteger.spells_spell (by omega) (lt_two_pow_dataLength v)

/-- The length in four bits, and the bytes, whatever their number. -/
theorem appends_storeCoins (value : BitVec 128) :
    Appends (CellBuilder.storeCoins value) (coinsBits value.toNat) := by
  by_cases hv : value = 0
  · subst hv
    have hzero : CellBuilder.storeCoins 0 = CellBuilder.store 0 4 := by
      funext b
      exact if_pos rfl
    rw [hzero]
    exact Appends.store 0 4 (by decide)
  · have hstore : CellBuilder.storeCoins value = fun b =>
        CellBuilder.storeBytes (getData value.toNat)
          (CellBuilder.store (getData value.toNat).length 4 b) := by
      funext b
      exact if_neg hv
    have happ := (Appends.storeNat (getData value.toNat).length 4 (by decide)).comp
      (Appends.storeBytes (getData value.toNat))
    rw [hstore, coinsBits]
    rwa [length_getData] at happ ⊢

/-- What `StoreCoins` promises: the least number of bytes that holds the amount, and these bytes. -/
def StoresCanonically (value : BitVec 128) (b : Vm.CellBuilder) : Prop :=
  ∃ n, IsLeast {n | value.toNat < 2 ^ (8 * n)} n ∧
    (CellBuilder.storeCoins value b).bits = b.bits ++ VarUInteger.spell 4 n value.toNat ∧
    (CellBuilder.storeCoins value b).refs = b.refs

/-- The bits that are stored start with the number of bytes that are to follow. -/
theorem bits_storeCoins {value : BitVec 128} (hvalue : value ≠ 0) {b : Vm.CellBuilder}
    (hroom : b.canExtendBy 4 0) :
    ∃ rest, (CellBuilder.storeCoins value b).bits =
      b.bits ++ (BitField.ofNat 4 (dataLength value.toNat) ++ rest) := by
  have hfit : b.canExtendBy (BitField.ofNat 4 (dataLength value.toNat)).length 0 := by
    rwa [BitField.length_ofNat]
  have hnibble : CellBuilder.store (dataLength value.toNat) 4 b = b.append _ [] hfit :=
    Appends.storeNat _ _ (by decide) b hfit
  obtain ⟨bs', rs', hbits, -⟩ := kept_storeBytes (getData value.toNat)
    (CellBuilder.store (dataLength value.toNat) 4 b)
  refine ⟨bs', ?_⟩
  rw [CellBuilder.storeCoins, if_neg hvalue]
  simp only [length_getData]
  rw [hbits, hnibble, Vm.CellBuilder.bits_append, List.append_assoc]

/-- An amount is stored canonically exactly when there is room and the top bit of its leading byte
is clear. -/
theorem storeCoins_canonical_iff {value : BitVec 128} (hvalue : value.toNat < 2 ^ 120)
    (b : Vm.CellBuilder) :
    StoresCanonically value b ↔ b.canExtendBy (4 + 8 * VarUInteger.byteLength value.toNat) 0 ∧
      (value.toNat = 0 ∨ value.toNat.size % 8 ≠ 0) := by
  have hlength := dataLength_eq value.toNat
  have hleast := VarUInteger.isLeast_byteLength value.toNat
  constructor
  · rintro ⟨n, hn, hbits, -⟩
    obtain rfl := hn.unique hleast
    -- the builder it leaves is one
    have hroom : b.canExtendBy (4 + 8 * VarUInteger.byteLength value.toNat) 0 := by
      have hfull := (CellBuilder.storeCoins value b).bits_le
      rw [hbits, List.length_append, VarUInteger.length_spell] at hfull
      exact ⟨Nat.le_sub_of_add_le (by omega), Nat.zero_le _⟩
    refine ⟨hroom, ?_⟩
    by_contra hcond
    obtain ⟨hzero, hsize⟩ := not_or.1 hcond
    have hsize := not_not.1 hsize
    have hne : value ≠ 0 := by
      rintro rfl
      exact hzero rfl
    have hnibble : b.canExtendBy 4 0 := ⟨(Nat.le_add_right _ _).trans hroom.1, hroom.2⟩
    obtain ⟨rest, hrest⟩ := bits_storeCoins hne hnibble
    rw [hrest, VarUInteger.spell] at hbits
    have hfield := (List.append_inj (List.append_cancel_left hbits) (by simp)).1
    have hnum := congrArg BitField.toNat hfield
    rw [BitField.toNat_ofNat, BitField.toNat_ofNat, hlength, if_neg hzero,
      VarUInteger.byteLength] at hnum
    -- the lengths differ by one
    omega
  · rintro ⟨hroom, hcond⟩
    have heq : dataLength value.toNat = VarUInteger.byteLength value.toNat := by
      rw [hlength, VarUInteger.byteLength]
      split
      · next hzero => rw [hzero, Nat.size_zero]
      · omega
    have hfit : b.canExtendBy (coinsBits value.toNat).length 0 := by
      rwa [coinsBits_eq, VarUInteger.length_spell, heq]
    refine ⟨_, hleast, ?_, ?_⟩
    · rw [appends_storeCoins value b hfit, Vm.CellBuilder.bits_append, coinsBits_eq, heq]
    · rw [appends_storeCoins value b hfit, Vm.CellBuilder.refs_append, List.append_nil]

/-- An amount of 127 takes one byte. -/
theorem storesCanonically_127 : StoresCanonically 127#128 CellBuilder.begin :=
  (storeCoins_canonical_iff (by decide) CellBuilder.begin).2 ⟨by decide, .inr (by decide)⟩

/-- An amount of 128 takes two bytes, of which the first one is zero. -/
theorem not_storesCanonically_128 :
    (CellBuilder.storeCoins 128#128 CellBuilder.begin).bits = VarUInteger.spell 4 2 128 ∧
      ¬ StoresCanonically 128#128 CellBuilder.begin := by
  refine ⟨by decide, ?_⟩
  rintro ⟨n, hn, hbits, -⟩
  obtain rfl : n = 1 := hn.unique (VarUInteger.isLeast_byteLength 128)
  exact absurd hbits (by decide)

/-! ## Reading -/

theorem unsigned_natCast (n : Nat) : TonLib.unsigned n = n := by
  rw [TonLib.unsigned, if_neg (by omega), Int.toNat_natCast]

theorem cellSliceLoadLong_append (payload : List Bool) (h : payload.length ≤ 64) (rest : List Bool)
    (refs : List Cell) : TonLib.cellSliceLoadLong payload.length ⟨payload ++ rest, refs⟩ =
      (BitField.toNat payload, ⟨rest, refs⟩) := by
  rw [TonLib.cellSliceLoadLong, unsigned_natCast, Vm.fetchUlongBool_append payload h,
    Option.getD_some]

theorem cellSliceLoadLong_ofNat {w n : Nat} (hw : w ≤ 64) (hn : n < 2 ^ w) (rest : List Bool)
    (refs : List Cell) :
    TonLib.cellSliceLoadLong w ⟨BitField.ofNat w n ++ rest, refs⟩ = (n, ⟨rest, refs⟩) := by
  have hload := cellSliceLoadLong_append (BitField.ofNat w n) (by simpa using hw) rest refs
  rwa [BitField.length_ofNat, BitField.toNat_ofNat_of_lt hn] at hload

/-- A `long` comes out as it went in. -/
theorem loadLong_ofNat (value : BitVec 64) (rest : List Bool) (refs : List Cell) :
    Slice.loadLong 64 ⟨BitField.ofNat 64 value.toNat ++ rest, refs⟩ =
      (value.toInt, ⟨rest, refs⟩) := by
  have hload : TonLib.cellSliceLoadLong 64 ⟨BitField.ofNat 64 value.toNat ++ rest, refs⟩ =
      (value.toNat, ⟨rest, refs⟩) := cellSliceLoadLong_ofNat (by decide) value.isLt rest refs
  rw [Slice.loadLong, hload]
  simp only [BitVec.ofNat_toNat, BitVec.setWidth_eq]

theorem loadUint_ofNat {n : Nat} (hn : n < 2 ^ 32) (rest : List Bool) (refs : List Cell) :
    Slice.loadUint 32 ⟨BitField.ofNat 32 n ++ rest, refs⟩ = (n, ⟨rest, refs⟩) := by
  have hload : TonLib.cellSliceLoadLong 32 ⟨BitField.ofNat 32 n ++ rest, refs⟩ =
      (n, ⟨rest, refs⟩) := cellSliceLoadLong_ofNat (by decide) hn rest refs
  have hint : (BitVec.ofNat 64 n).toInt = n := by
    rw [BitVec.toInt_eq_toNat_of_lt, BitVec.toNat_ofNat, Nat.mod_eq_of_lt (by omega)]
    rw [BitVec.toNat_ofNat, Nat.mod_eq_of_lt (by omega)]
    omega
  rw [Slice.loadUint, Slice.loadLong, hload]
  simp only [hint, BitVec.ofInt_natCast, BitVec.toNat_ofNat, Nat.mod_eq_of_lt hn]

/-- A signed number is the unsigned one, or less by a power of two where its top bit is set. -/
theorem bmod_two_pow {v n : Nat} (hn : 0 < n) (hv : v < 2 ^ n) :
    (v : Int).bmod (2 ^ n) = if v < 2 ^ (n - 1) then (v : Int) else v - (2 ^ n : Nat) := by
  obtain ⟨k, rfl⟩ : ∃ k, n = k + 1 := ⟨n - 1, by omega⟩
  rw [Nat.add_sub_cancel, Int.bmod_def]
  rw [Nat.pow_succ] at hv ⊢
  generalize 2 ^ k = p at hv ⊢
  rw [Int.emod_eq_of_lt (by omega) (by omega)]
  split <;> split <;> omega

theorem int128Parse_ok {value : Int} (h : -2 ^ 127 ≤ value ∧ value < 2 ^ 127) :
    TonLib.int128Parse value = .ok value := if_pos h

/-- The unsigned value of a number that is not negative. -/
theorem ofInt_natCast_or_zero (v : Nat) :
    (if 0 < (v : Int) then BitVec.ofInt 128 v else 0) = BitVec.ofNat 128 v := by
  cases v with
  | zero => rfl
  | succ v => rw [if_pos (Int.natCast_pos.2 v.succ_pos), BitVec.ofInt_natCast]

/-- The signed path: of a number whose top bit is set it makes 0. -/
theorem cellSliceLoadBigInt_eq {payload : List Bool} (hpos : 0 < payload.length)
    (hle : payload.length ≤ 120) (rest : List Bool) (refs : List Cell) :
    TonLib.cellSliceLoadBigInt payload.length ⟨payload ++ rest, refs⟩ =
      .ok (if BitField.toNat payload < 2 ^ (payload.length - 1)
        then BitVec.ofNat 128 (BitField.toNat payload) else 0, ⟨rest, refs⟩) := by
  have hfetch : Vm.fetchInt256 payload.length true ⟨payload ++ rest, refs⟩ =
      some ((BitField.toNat payload : Int).bmod (2 ^ payload.length), ⟨rest, refs⟩) := by
    rw [Vm.fetchInt256, if_neg (by rw [List.length_append]; omega), List.take_left,
      List.drop_left]
    rfl
  have hv := BitField.toNat_lt payload
  have hpow : 2 ^ payload.length ≤ 2 ^ 120 := Nat.pow_le_pow_right (by decide) hle
  have hrange := bmod_two_pow hpos hv
  rw [TonLib.cellSliceLoadBigInt, unsigned_natCast, hfetch, hrange]
  generalize BitField.toNat payload = v at hv hrange
  generalize 2 ^ payload.length = p at hv hpow
  by_cases htop : v < 2 ^ (payload.length - 1)
  · simp only [if_pos htop]
    rw [int128Parse_ok (by omega)]
    simp only [bind, Except.bind, pure, Except.pure, ofInt_natCast_or_zero]
  · -- the number is negative, and 0 is taken for it
    simp only [if_neg htop]
    rw [int128Parse_ok (by omega)]
    have hneg : ¬ 0 < (v : Int) - p := by omega
    simp only [bind, Except.bind, pure, Except.pure, if_neg hneg]

/-- What `LoadUInt128` does once it has read the number of bytes. -/
theorem loadUInt128_of {length count : Nat} {s s' : Slice}
    (hload : Slice.loadInt (Nat.clog 2 length) s = ((count : Int), s')) (hcount : count < 16) :
    Slice.loadUInt128 length s =
      if count ≤ 8 then
        .ok (BitVec.ofNat 128 (Slice.loadUlong (8 * count : Nat) s').1,
          (Slice.loadUlong (8 * count : Nat) s').2)
      else TonLib.cellSliceLoadBigInt (8 * count : Nat) s' := by
  have hbits : ((count : Int) * 8).bmod (2 ^ 32) = (8 * count : Nat) := by
    rw [Int.bmod_eq_of_le (by omega) (by omega)]
    omega
  rw [Slice.loadUInt128, hload]
  change (if ((count : Int) * 8).bmod (2 ^ 32) ≤ 64 then _ else _) = _
  rw [hbits]
  by_cases h : count ≤ 8
  · rw [if_pos h, if_pos (by omega)]
  · rw [if_neg h, if_neg (by omega)]

/-- What `LoadCoins` does, by the path it takes. -/
theorem loadCoins_eq {n : Nat} (hn : n < 16) {payload : List Bool} (hlen : payload.length = 8 * n)
    (rest : List Bool) (refs : List Cell) :
    Slice.loadCoins ⟨BitField.ofNat 4 n ++ (payload ++ rest), refs⟩ =
      .ok (if n ≤ 8 ∨ BitField.toNat payload < 2 ^ (8 * n - 1)
        then BitVec.ofNat 128 (BitField.toNat payload) else 0, ⟨rest, refs⟩) := by
  have hnibble : Slice.loadInt (Nat.clog 2 16) ⟨BitField.ofNat 4 n ++ (payload ++ rest), refs⟩ =
      ((n : Int), ⟨payload ++ rest, refs⟩) := by
    have hclog : Nat.clog 2 16 = 4 := by decide
    rw [hclog]
    exact loadInt_ofNat (by decide) hn _ _
  rw [Slice.loadCoins, loadUInt128_of hnibble hn, ← hlen]
  by_cases hshort : n ≤ 8
  · rw [if_pos hshort, if_pos (.inl hshort), Slice.loadUlong,
      cellSliceLoadLong_append _ (by omega)]
  · rw [if_neg hshort, cellSliceLoadBigInt_eq (by omega) (by omega)]
    simp only [hshort, false_or]

/-- `LoadCoins` reads what a length and its bytes say exactly when the bytes are at most eight or
the top bit of the first one is clear; it moves on behind them either way. -/
theorem loadCoins_iff {n : Nat} (hn : n < 16) {payload : List Bool} (hlen : payload.length = 8 * n)
    (rest : List Bool) (refs : List Cell) :
    (∃ value, Slice.loadCoins ⟨BitField.ofNat 4 n ++ (payload ++ rest), refs⟩ =
        .ok (value, ⟨rest, refs⟩) ∧ value.toNat = BitField.toNat payload) ↔
      n ≤ 8 ∨ BitField.toNat payload < 2 ^ (8 * n - 1) := by
  have hv := BitField.toNat_lt payload
  rw [hlen] at hv
  have hpow : 2 ^ (8 * n) ≤ 2 ^ 120 := Nat.pow_le_pow_right (by decide) (by omega)
  rw [loadCoins_eq hn hlen]
  constructor
  · rintro ⟨value, hload, hvalue⟩
    obtain ⟨rfl, -⟩ := Prod.mk.inj (Except.ok.inj hload)
    by_contra hcond
    rw [if_neg hcond] at hvalue
    -- a number whose top bit is set is not 0
    have hpos : 0 < 2 ^ (8 * n - 1) := Nat.two_pow_pos _
    have hzero : BitField.toNat payload = 0 := hvalue.symm
    omega
  · intro hcond
    refine ⟨_, rfl, ?_⟩
    rw [if_pos hcond, BitVec.toNat_ofNat, Nat.mod_eq_of_lt (by omega)]

/-- Eight bytes of which all bits are set. -/
theorem loadCoins_max_ulong :
    ∃ value, Slice.loadCoins ⟨BitField.ofNat 4 8 ++ (List.replicate 64 true ++ []), []⟩ =
      .ok (value, ⟨[], []⟩) ∧ value.toNat = BitField.toNat (List.replicate 64 true) :=
  (loadCoins_iff (by decide) (by decide) [] []).2 (.inl (by decide))

/-- Nine bytes of which the first bit is set read as 0. -/
theorem loadCoins_nine_bytes :
    ¬ ∃ value, Slice.loadCoins
        ⟨BitField.ofNat 4 9 ++ (true :: List.replicate 71 false ++ []), []⟩ =
      .ok (value, ⟨[], []⟩) ∧
        value.toNat = BitField.toNat (true :: List.replicate 71 false) := by
  rintro ⟨value, hload, hvalue⟩
  rw [loadCoins_eq (by decide) (by decide)] at hload
  obtain ⟨rfl, -⟩ := Prod.mk.inj (Except.ok.inj hload)
  exact absurd hvalue (by decide)

/-- An amount below 2 ^ 119 is read back as it was stored. -/
theorem loadCoins_coinsBits {value : BitVec 128} (h : value.toNat < 2 ^ 119) (rest : List Bool)
    (refs : List Cell) :
    Slice.loadCoins ⟨coinsBits value.toNat ++ rest, refs⟩ = .ok (value, ⟨rest, refs⟩) := by
  have hlen : dataLength value.toNat ≤ 15 := (dataLength_le_iff (by decide)).2 h
  have hcond : dataLength value.toNat ≤ 8 ∨
      value.toNat < 2 ^ (8 * dataLength value.toNat - 1) := by
    by_cases hzero : value.toNat = 0
    · exact .inl (by rw [hzero]; decide)
    · exact .inr ((dataLength_le_iff (dataLength_pos hzero)).1 (Nat.le_refl _))
  have hbytes := lt_two_pow_dataLength value.toNat
  rw [coinsBits_eq, VarUInteger.spell, List.append_assoc,
    loadCoins_eq (by omega) (BitField.length_ofNat _ _), BitField.toNat_ofNat_of_lt hbytes,
    if_pos hcond, BitVec.ofNat_toNat, BitVec.setWidth_eq]

/-- From 2 ^ 119 on the length is cut, and at most one of the bytes is read. -/
theorem loadCoins_coinsBits_cut {value : BitVec 128} (h : 2 ^ 119 ≤ value.toNat) (rest : List Bool)
    (refs : List Cell) : ∃ value' s',
      Slice.loadCoins ⟨coinsBits value.toNat ++ rest, refs⟩ = .ok (value', s') ∧
        value' ≠ value := by
  have hlarge : 15 < dataLength value.toNat := by
    by_contra hle
    exact absurd ((dataLength_le_iff (by decide)).1 (Nat.le_of_not_lt hle)) (Nat.not_lt.2 h)
  have hsmall : dataLength value.toNat ≤ 17 :=
    (dataLength_le_iff (by decide)).2 (value.isLt.trans (by decide))
  obtain ⟨n, hn⟩ : ∃ n, dataLength value.toNat % 16 = n := ⟨_, rfl⟩
  generalize hpayload : BitField.ofNat (8 * dataLength value.toNat) value.toNat = payload
  have hlen : payload.length = 8 * dataLength value.toNat := by
    rw [← hpayload, BitField.length_ofNat]
  have htake : (payload.take (8 * n)).length = 8 * n := by
    rw [List.length_take]
    omega
  have hbits : coinsBits value.toNat ++ rest =
      BitField.ofNat 4 n ++ (payload.take (8 * n) ++ (payload.drop (8 * n) ++ rest)) := by
    rw [coinsBits_eq, VarUInteger.spell, hpayload, ← hn, List.append_assoc,
      ← List.append_assoc (List.take _ _), List.take_append_drop]
    exact congrArg (· ++ _) (BitField.ofNat_mod 4 _).symm
  -- 16 or 17 bytes are read as 0 or 1
  have hread := BitField.toNat_lt (payload.take (8 * n))
  rw [htake] at hread
  have hpow : 2 ^ (8 * n) ≤ 2 ^ 8 := Nat.pow_le_pow_right (by decide) (by omega)
  rw [hbits, loadCoins_eq (by omega) htake]
  refine ⟨_, _, rfl, ?_⟩
  rintro rfl
  split at h
  · rw [BitVec.toNat_ofNat, Nat.mod_eq_of_lt (by omega)] at h
    omega
  · exact absurd h (by decide)

end Ton
