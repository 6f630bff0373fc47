import TopWallets.BagOfCellsReader
import TopWallets.BagOfCellsOrder
import TopWallets.Exceptions

/- The bytes of one cell of a bag are read back (`createDataCell_spec`).

   A number is read at its offset: the bytes before it are as many. The data of a cell ends in its
   last byte with a bit that is set, where it does not fill it, so that the zeros behind that bit
   tell the length. -/
namespace Vm.BagOfCells
open Ton (ok_bind)

/-! ## Numbers at offsets -/

section
variable {width offset v : Nat}

theorem readInt_append {pre post : List UInt8} (hoffset : pre.length = offset)
    (hv : v < 256 ^ width) : readInt (pre ++ (Bytes.big width v ++ post)) offset width = .ok v := by
  subst hoffset
  have hle : pre.length + width ≤ (pre ++ (Bytes.big width v ++ post)).length := by
    rw [List.length_append, List.length_append, Bytes.length_big]
    omega
  rw [readInt, if_pos hle, List.drop_left, List.take_left' (Bytes.length_big width v),
    Bytes.ofBig_big_of_lt hv]

/-- A number below 2^31 is not negative as an `int`. -/
theorem readIndex_of_readInt {data : List UInt8} (h : readInt data offset width = .ok v)
    (hv : v < 2 ^ 31) : readIndex data offset width = .ok (v : Int) := by
  rw [readIndex, h]
  exact congrArg Except.ok (if_pos hv)

theorem flatMap_split {α β : Type} (f : α → List β) {l : List α} {i : Nat} {a : α}
    (ha : l[i]? = some a) :
    l.flatMap f = (l.take i).flatMap f ++ (f a ++ (l.drop (i + 1)).flatMap f) := by
  obtain ⟨hi, rfl⟩ := List.getElem?_eq_some_iff.1 ha
  conv_lhs => rw [← List.take_append_drop i l, List.drop_eq_getElem_cons hi]
  rw [List.flatMap_append, List.flatMap_cons]

theorem length_flatMap_take {α β : Type} {f : α → List β} {l : List α}
    (hf : ∀ a ∈ l, (f a).length = width) {i : Nat} (hi : i ≤ l.length) :
    ((l.take i).flatMap f).length = i * width := by
  have hconst : ((l.take i).map fun a => (f a).length) = List.replicate i width := by
    refine List.eq_replicate_iff.2 ⟨by rw [List.length_map, List.length_take, min_eq_left hi], ?_⟩
    intro n hn
    obtain ⟨a, ha, rfl⟩ := List.mem_map.1 hn
    exact hf a (List.mem_of_mem_take ha)
  rw [List.length_flatMap, hconst, List.sum_replicate, smul_eq_mul]

/-- One of the numbers of a table. -/
theorem readInt_table {α : Type} (pre : List UInt8) {post : List UInt8} {l : List α}
    {g : α → Nat} {i : Nat} {a : α} (ha : l[i]? = some a) (hg : g a < 256 ^ width)
    (hoffset : pre.length + i * width = offset) :
    readInt (pre ++ (l.flatMap (fun a => Bytes.big width (g a)) ++ post)) offset width =
      .ok (g a) := by
  have hi := (List.getElem?_eq_some_iff.1 ha).1
  have hlength := length_flatMap_take (l := l) (f := fun a => Bytes.big width (g a))
    (fun a _ => Bytes.length_big width (g a)) hi.le
  rw [flatMap_split _ ha, List.append_assoc, List.append_assoc, ← List.append_assoc pre]
  exact readInt_append (by rw [List.length_append, hlength, hoffset]) hg

theorem substr_append {pre mid post : List UInt8} (hoffset : pre.length = offset) :
    substr (pre ++ (mid ++ post)) offset mid.length = .ok mid := by
  subst hoffset
  have hle : pre.length ≤ (pre ++ (mid ++ post)).length := by
    rw [List.length_append]
    omega
  rw [substr, if_pos hle, List.drop_left, List.take_left]

/-- One of the parts of a table. -/
theorem substr_table {α : Type} (pre : List UInt8) {post : List UInt8} {l : List α}
    {f : α → List UInt8} (hf : ∀ a ∈ l, (f a).length = width) {i : Nat} {a : α}
    (ha : l[i]? = some a) (hoffset : pre.length + i * width = offset) :
    substr (pre ++ (l.flatMap f ++ post)) offset width = .ok (f a) := by
  have hi := (List.getElem?_eq_some_iff.1 ha).1
  have hlength := length_flatMap_take hf hi.le
  rw [flatMap_split _ ha, List.append_assoc, List.append_assoc, ← List.append_assoc pre,
    ← hf a (List.mem_of_getElem? ha)]
  exact substr_append (by rw [List.length_append, hlength, hoffset])

end

/-! ## The data of a cell -/

section
variable {D : DataCells} (dc : D.DataCell)

theorem toNat_append (bs bs' : List Bool) :
    BitField.toNat (bs ++ bs') = BitField.toNat bs * 2 ^ bs'.length + BitField.toNat bs' := by
  induction bs with
  | nil => simp [BitField.toNat]
  | cons b bs ih =>
    rw [List.cons_append, BitField.toNat, BitField.toNat, ih, List.length_append, pow_add]
    ring

theorem toNat_replicate_false (n : Nat) : BitField.toNat (List.replicate n false) = 0 := by
  induction n with
  | zero => rfl
  | succ n ih => rw [List.replicate_succ, BitField.toNat, ih, Bool.toNat_false, Nat.zero_mul]

/-- The bits of a cell, and what fills the last byte. -/
def padded : List Bool :=
  D.bits dc ++ if (D.bits dc).length % 8 = 0 then []
    else true :: List.replicate (7 - (D.bits dc).length % 8) false

theorem data_eq : D.data dc = bytesOfBits (((D.bits dc).length + 7) / 8) (padded dc) := rfl

theorem length_padded : (padded dc).length = 8 * (((D.bits dc).length + 7) / 8) := by
  rw [padded, List.length_append]
  split
  · rw [List.length_nil]
    omega
  · rw [List.length_cons, List.length_replicate]
    omega

theorem length_data : (D.data dc).length = ((D.bits dc).length + 7) / 8 := by
  rw [data_eq, length_bytesOfBits]

/-- The bits are read back from bytes that start with the data. -/
theorem take_data (rest : List UInt8) :
    (BitField.ofBytes (D.data dc ++ rest)).take (D.bits dc).length = D.bits dc := by
  rw [BitField.ofBytes, List.flatMap_append, ← BitField.ofBytes, data_eq,
    ofBytes_bytesOfBits (length_padded dc), padded, List.append_assoc, List.take_left]

/-- The last byte of `m` bits tells `m`. -/
theorem trailingZeroes_spec : ∀ m < 8, 0 < m → ∀ x < 2 ^ m,
    x * 2 ^ (8 - m) + 2 ^ (7 - m) < 256 ∧ (x * 2 ^ (8 - m) + 2 ^ (7 - m)) % 128 ≠ 0 ∧
      CellSerializationInfo.countTrailingZeroes (x * 2 ^ (8 - m) + 2 ^ (7 - m)) = 7 - m := by
  decide

/-- The last byte, where the bits do not fill it. -/
theorem data_last (h : (D.bits dc).length % 8 ≠ 0) :
    ∃ front last, D.data dc = front ++ [last] ∧ front.length = (D.bits dc).length / 8 ∧
      last.toNat % 128 ≠ 0 ∧ CellSerializationInfo.countTrailingZeroes last.toNat =
        7 - (D.bits dc).length % 8 := by
  have hbytes : ((D.bits dc).length + 7) / 8 = (D.bits dc).length / 8 + 1 := by omega
  have hrest : ((D.bits dc).drop (8 * ((D.bits dc).length / 8))).length =
      (D.bits dc).length % 8 := by
    rw [List.length_drop]
    omega
  generalize hx : (D.bits dc).drop (8 * ((D.bits dc).length / 8)) = x at hrest
  generalize hm : (D.bits dc).length % 8 = m at h hrest
  have hlt : BitField.toNat x < 2 ^ m := hrest ▸ BitField.toNat_lt x
  have hm8 : m < 8 := by omega
  have hbyte : BitField.toNat (((padded dc).drop (8 * ((D.bits dc).length / 8))).take 8) =
      BitField.toNat x * 2 ^ (8 - m) + 2 ^ (7 - m) := by
    have hdrop : (padded dc).drop (8 * ((D.bits dc).length / 8)) =
        x ++ true :: List.replicate (7 - m) false := by
      rw [padded, List.drop_append_of_le_length (by omega), hx, hm, if_neg h]
    have hlength : (x ++ true :: List.replicate (7 - m) false).length = 8 := by
      rw [List.length_append, List.length_cons, List.length_replicate]
      omega
    rw [hdrop, List.take_of_length_le hlength.le, toNat_append, BitField.toNat,
      toNat_replicate_false, List.length_cons, List.length_replicate, Bool.toNat_true]
    have hsucc : 7 - m + 1 = 8 - m := by omega
    rw [hsucc]
    omega
  obtain ⟨hlast, hmod, hzeroes⟩ := trailingZeroes_spec m hm8 (Nat.pos_of_ne_zero h) _ hlt
  generalize BitField.toNat x * 2 ^ (8 - m) + 2 ^ (7 - m) = v at hbyte hlast hmod hzeroes
  have htoNat : (UInt8.ofNat v).toNat = v := by
    rw [UInt8.toNat_ofNat', Nat.mod_eq_of_lt hlast]
  refine ⟨bytesOfBits ((D.bits dc).length / 8) (padded dc), UInt8.ofNat v, ?_,
    length_bytesOfBits _ _, ?_, ?_⟩
  · rw [data_eq, hbytes, bytesOfBits_succ, hbyte]
  · rw [htoNat]
    exact hmod
  · rw [htoNat]
    exact hzeroes

/-! ## The two bytes before a cell -/

/-- What the two bytes say. -/
def serializationInfo (withHashes : Bool) (refByteSize : Nat) : CellSerializationInfo :=
  let n := LevelMask.hashesCount (D.levelMask dc)
  let depthOffset := 2 + if withHashes then n * hashBytes else 0
  let dataOffset := depthOffset + if withHashes then n * depthBytes else 0
  let dataLen := ((D.bits dc).length + 7) / 8
  { special := D.special dc
    levelMask := D.levelMask dc
    withHashes
    hashesOffset := 2
    depthOffset
    dataOffset
    dataLen
    dataWithBits := decide ((D.bits dc).length % 8 ≠ 0)
    refsOffset := dataOffset + dataLen
    refsCnt := (D.refs dc).length
    endOffset := dataOffset + dataLen + (D.refs dc).length * refByteSize }

theorem endOffset_serializationInfo (withHashes : Bool) (refByteSize : Nat) :
    (serializationInfo dc withHashes refByteSize).endOffset =
      D.serializedSize dc withHashes + (D.refs dc).length * refByteSize := by
  simp only [serializationInfo, DataCells.serializedSize]
  cases withHashes
  · simp only [Bool.false_eq_true, if_false]
    omega
  · simp only [if_true]
    ring_nf
    omega

/-- The bytes of a cell that fits the buffer. -/
theorem serialize_eq {withHashes : Bool} {buffSize : Nat}
    (hfits : D.serializedSize dc withHashes ≤ buffSize) :
    D.serialize dc buffSize withHashes = UInt8.ofNat (D.d1 dc + withHashes.toNat * 16) ::
      UInt8.ofNat (D.d2 dc) :: ((if withHashes then D.hashes dc else []) ++ D.data dc) :=
  if_neg (not_lt.2 hfits)

variable (hD : D.Lawful)
include hD

theorem d1_lt (withHashes : Bool) : D.d1 dc + withHashes.toNat * 16 < 256 := by
  have hrefs := hD.refs_le dc
  have hmask := hD.levelMask_lt dc
  have hspecial := Bool.toNat_le (D.special dc)
  have hhashes := Bool.toNat_le withHashes
  rw [maxRefs] at hrefs
  rw [DataCells.d1]
  omega

theorem d2_lt : D.d2 dc < 256 := by
  have hbits := hD.bits_le dc
  rw [maxBits] at hbits
  rw [DataCells.d2]
  split <;> omega

theorem ofBytes_serializationInfo (withHashes : Bool) (refByteSize : Nat) :
    CellSerializationInfo.ofBytes (D.d1 dc + withHashes.toNat * 16) (D.d2 dc) refByteSize =
      .ok (serializationInfo dc withHashes refByteSize) := by
  have hrefs := hD.refs_le dc
  have hmask := hD.levelMask_lt dc
  rw [maxRefs] at hrefs
  have hspecial := Bool.toNat_le (D.special dc)
  have hhashes := Bool.toNat_le withHashes
  have hcnt : (D.d1 dc + withHashes.toNat * 16) % 8 = (D.refs dc).length := by
    rw [DataCells.d1]
    omega
  have hlevel : (D.d1 dc + withHashes.toNat * 16) / 32 = D.levelMask dc := by
    rw [DataCells.d1]
    omega
  have hbit4 : (D.d1 dc + withHashes.toNat * 16).testBit 4 = withHashes := by
    have hdiv : (D.d1 dc + withHashes.toNat * 16) / 2 ^ 4 % 2 = withHashes.toNat := by
      rw [DataCells.d1]
      omega
    rw [Nat.testBit_eq_decide_div_mod_eq, hdiv]
    cases withHashes <;> rfl
  have hbit3 : (D.d1 dc + withHashes.toNat * 16).testBit 3 = D.special dc := by
    have hdiv : (D.d1 dc + withHashes.toNat * 16) / 2 ^ 3 % 2 = (D.special dc).toNat := by
      rw [DataCells.d1]
      omega
    rw [Nat.testBit_eq_decide_div_mod_eq, hdiv]
    cases D.special dc <;> rfl
  have hlen : D.d2 dc / 2 + D.d2 dc % 2 = ((D.bits dc).length + 7) / 8 := by
    rw [DataCells.d2]
    split <;> omega
  have hwith : decide (D.d2 dc % 2 = 1) = decide ((D.bits dc).length % 8 ≠ 0) := by
    rw [decide_eq_decide, DataCells.d2]
    split <;> omega
  rw [CellSerializationInfo.ofBytes]
  have hfour : ¬ (D.refs dc).length > 4 := by omega
  simp only [hcnt, hlevel, hbit4, hbit3, hlen, hwith, if_neg hfour]
  rfl

theorem init_serialize {withHashes : Bool} {refByteSize buffSize : Nat} {rest : List UInt8}
    (hfits : D.serializedSize dc withHashes ≤ buffSize)
    (hlength : D.serializedSize dc withHashes + (D.refs dc).length * refByteSize ≤
      (D.serialize dc buffSize withHashes ++ rest).length) :
    CellSerializationInfo.init (D.serialize dc buffSize withHashes ++ rest) refByteSize =
      .ok (serializationInfo dc withHashes refByteSize) := by
  rw [← endOffset_serializationInfo] at hlength
  rw [serialize_eq dc hfits] at hlength ⊢
  have htoNat : ∀ {n : Nat}, n < 256 → (UInt8.ofNat n).toNat = n := by
    intro n hn
    rw [UInt8.toNat_ofNat', Nat.mod_eq_of_lt hn]
  rw [List.cons_append, List.cons_append, CellSerializationInfo.init, htoNat (d1_lt dc hD _),
    htoNat (d2_lt dc hD), ofBytes_serializationInfo dc hD]
  exact if_neg (not_lt.2 hlength)

/-! ## The hashes of a cell -/

omit hD in
theorem levels_spec : ∀ mask < 8, (LevelMask.levels mask).length = LevelMask.hashesCount mask ∧
    LevelMask.levels mask = (List.range (LevelMask.level mask)).filter
      (LevelMask.isSignificant mask) ++ [LevelMask.level mask] := by
  decide

omit hD in
theorem forM_ok {α ε : Type} {f : α → Except ε Unit} {l : List α} (h : ∀ a ∈ l, f a = .ok ()) :
    l.forM f = .ok () := by
  induction l with
  | nil => rfl
  | cons a l ih =>
    change (f a >>= fun _ => l.forM f) = _
    rw [h a List.mem_cons_self]
    exact ih fun b hb => h b (List.mem_cons_of_mem _ hb)

theorem length_hashes : (D.hashes dc).length =
    LevelMask.hashesCount (D.levelMask dc) * (hashBytes + depthBytes) := by
  obtain ⟨hlength, -⟩ := levels_spec _ (hD.levelMask_lt dc)
  have hhash := length_flatMap_take (l := LevelMask.levels (D.levelMask dc))
    (fun i _ => hD.length_hash dc i) le_rfl
  have hdepth := length_flatMap_take (l := LevelMask.levels (D.levelMask dc))
    (f := fun i => Bytes.big depthBytes (D.depth dc i))
    (fun i _ => Bytes.length_big depthBytes (D.depth dc i)) le_rfl
  rw [List.take_length] at hhash hdepth
  rw [DataCells.hashes, List.length_append, hhash, hdepth, hlength, Nat.mul_add]

/-- The hashes and depths of a cell are found where they are expected. -/
theorem checkHashes_spec (refByteSize : Nat) (d1 d2 : UInt8) (rest : List UInt8) :
    (serializationInfo dc true refByteSize).checkHashes D
      (d1 :: d2 :: (D.hashes dc ++ rest)) dc = .ok () := by
  obtain ⟨hcount, hlevels⟩ := levels_spec _ (hD.levelMask_lt dc)
  have hhash : ∀ {i level : Nat}, (LevelMask.levels (D.levelMask dc))[i]? = some level →
      substr (d1 :: d2 :: (D.hashes dc ++ rest)) (2 + hashBytes * i) hashBytes =
        .ok (D.hash dc level) := by
    intro i level hi
    rw [DataCells.hashes, List.append_assoc]
    exact substr_table [d1, d2] (fun i _ => hD.length_hash dc i) hi
      (by rw [mul_comm]; rfl)
  have hdepth : ∀ {i level : Nat}, (LevelMask.levels (D.levelMask dc))[i]? = some level →
      readInt (d1 :: d2 :: (D.hashes dc ++ rest))
        ((serializationInfo dc true refByteSize).depthOffset + depthBytes * i) depthBytes =
        .ok (D.depth dc level) := by
    intro i level hi
    have hhashes := length_flatMap_take (l := LevelMask.levels (D.levelMask dc))
      (fun i _ => hD.length_hash dc i) le_rfl
    rw [List.take_length, hcount] at hhashes
    rw [DataCells.hashes, List.append_assoc]
    refine readInt_table
      (d1 :: d2 :: (LevelMask.levels (D.levelMask dc)).flatMap (D.hash dc)) hi
      (hD.depth_lt dc level) ?_
    rw [List.length_cons, List.length_cons, hhashes]
    simp only [serializationInfo, if_true]
    ring
  have hlast : (LevelMask.levels (D.levelMask dc))[LevelMask.hashesCount (D.levelMask dc) - 1]? =
      some (LevelMask.level (D.levelMask dc)) := by
    rw [← hcount, hlevels, List.length_append, List.length_singleton, Nat.add_sub_cancel,
      List.getElem?_concat_length]
  have hlower : ∀ p ∈ ((List.range (LevelMask.level (D.levelMask dc))).filter
      (LevelMask.isSignificant (D.levelMask dc))).zipIdx,
      (LevelMask.levels (D.levelMask dc))[p.2]? = some p.1 := by
    intro p hp
    have hget := List.mem_zipIdx_iff_getElem?.1 hp
    rw [hlevels, List.getElem?_append_left (List.getElem?_eq_some_iff.1 hget).1, hget]
  have hforM := forM_ok (f := fun p : Nat × Nat =>
      (serializationInfo dc true refByteSize).checkLevel D (d1 :: d2 :: (D.hashes dc ++ rest)) dc
        p.2 p.1) fun p hp => by
    have hp := hlower p hp
    have hoffset : (serializationInfo dc true refByteSize).hashesOffset = 2 := rfl
    simp only [CellSerializationInfo.checkLevel, hoffset, hhash hp, hdepth hp, ok_bind, ne_eq,
      not_true_eq_false, if_false]
    rfl
  have hoffset : (serializationInfo dc true refByteSize).hashesOffset = 2 := rfl
  have hmask : (serializationInfo dc true refByteSize).levelMask = D.levelMask dc := rfl
  simp only [CellSerializationInfo.checkHashes, hoffset, hmask, hhash hlast, hdepth hlast, ok_bind,
    ne_eq, not_true_eq_false, if_false]
  exact hforM

/-! ## The cell -/

omit hD in
theorem big_one (b : UInt8) : Bytes.big 1 b.toNat = [b] := by
  rw [Bytes.big, Bytes.little, Bytes.little, List.reverse_singleton,
    Nat.mod_eq_of_lt (UInt8.toNat_lt b), UInt8.ofNat_toNat]

omit hD in
theorem getBits_spec (withHashes : Bool) (refByteSize : Nat) (rest : List UInt8) {pre : List UInt8}
    (hpre : pre.length = (serializationInfo dc withHashes refByteSize).dataOffset) :
    (serializationInfo dc withHashes refByteSize).getBits (pre ++ (D.data dc ++ rest)) =
      .ok (D.bits dc).length := by
  have hlen : (serializationInfo dc withHashes refByteSize).dataLen =
      ((D.bits dc).length + 7) / 8 := rfl
  have hwith : (serializationInfo dc withHashes refByteSize).dataWithBits =
      decide ((D.bits dc).length % 8 ≠ 0) := rfl
  rw [CellSerializationInfo.getBits, hwith, hlen]
  by_cases h : (D.bits dc).length % 8 = 0
  · rw [if_neg (by simpa using h)]
    exact congrArg Except.ok (by omega)
  · obtain ⟨front, last, hdata, hfront, hmod, hzeroes⟩ := data_last dc h
    have hread : readInt (pre ++ (D.data dc ++ rest))
        ((serializationInfo dc withHashes refByteSize).dataOffset +
          ((D.bits dc).length + 7) / 8 - 1) 1 = .ok last.toNat := by
      rw [hdata, ← big_one, List.append_assoc, ← List.append_assoc pre]
      refine readInt_append ?_ (by simpa using UInt8.toNat_lt last)
      rw [List.length_append, hpre, hfront]
      omega
    rw [if_pos (by simpa using h), hread, ok_bind, if_neg hmod, hzeroes]
    exact congrArg Except.ok (by omega)

/-- The cell is made again from its bytes and its references. -/
theorem createDataCell_spec {withHashes : Bool} {buffSize : Nat} (refByteSize : Nat)
    (rest : List UInt8) (hfits : D.serializedSize dc withHashes ≤ buffSize) :
    (serializationInfo dc withHashes refByteSize).createDataCell D
      (D.serialize dc buffSize withHashes ++ rest) (D.refs dc) = .ok dc := by
  rw [serialize_eq dc hfits]
  generalize UInt8.ofNat (D.d1 dc + withHashes.toNat * 16) = d1
  generalize UInt8.ofNat (D.d2 dc) = d2
  obtain ⟨hashes, hhashes⟩ : ∃ hashes, hashes = if withHashes then D.hashes dc else [] := ⟨_, rfl⟩
  rw [← hhashes]
  have hpre : (d1 :: d2 :: hashes).length =
      (serializationInfo dc withHashes refByteSize).dataOffset := by
    rw [hhashes, List.length_cons, List.length_cons]
    simp only [serializationInfo]
    cases withHashes
    · rfl
    · simp only [if_true, length_hashes dc hD]
      ring
  have hslice : d1 :: d2 :: (hashes ++ D.data dc) ++ rest =
      (d1 :: d2 :: hashes) ++ (D.data dc ++ rest) := by
    simp only [List.cons_append, List.append_assoc]
  have hbits := hD.bits_le dc
  have hrefs := hD.refs_le dc
  have hlong : ¬ (d1 :: d2 :: (hashes ++ D.data dc) ++ rest).length * 8 <
      (serializationInfo dc withHashes refByteSize).dataOffset * 8 + (D.bits dc).length := by
    rw [hslice, List.length_append, hpre, List.length_append, length_data]
    omega
  have htake : (BitField.ofBytes ((d1 :: d2 :: (hashes ++ D.data dc) ++ rest).drop
      (serializationInfo dc withHashes refByteSize).dataOffset)).take (D.bits dc).length =
      D.bits dc := by
    rw [hslice, ← hpre, List.drop_left, take_data]
  have hgetBits := getBits_spec dc withHashes refByteSize rest hpre
  rw [← hslice] at hgetBits
  have hcheck : withHashes = true → (serializationInfo dc withHashes refByteSize).checkHashes D
      (d1 :: d2 :: (hashes ++ D.data dc) ++ rest) dc = .ok () := by
    rintro rfl
    rw [hhashes, if_pos rfl, List.cons_append, List.cons_append, List.append_assoc]
    exact checkHashes_spec dc hD refByteSize d1 d2 _
  have hspecial : (serializationInfo dc withHashes refByteSize).special = D.special dc := rfl
  have hmask : (serializationInfo dc withHashes refByteSize).levelMask = D.levelMask dc := rfl
  have hwith : (serializationInfo dc withHashes refByteSize).withHashes = withHashes := rfl
  rw [CellSerializationInfo.createDataCell, hgetBits, ok_bind]
  simp only [if_neg hlong, htake, hspecial, hmask, hwith, hD.create_eq,
    if_neg (not_or.2 ⟨not_lt.2 hbits, not_lt.2 hrefs⟩)]
  have hok : Except.mapError ReadError.create (Except.ok dc : Except String D.DataCell) = .ok dc :=
    rfl
  rw [hok, ok_bind, if_neg (not_not.2 rfl), if_neg (not_not.2 rfl)]
  by_cases h : withHashes = true
  · rw [if_pos h, hcheck h]
    rfl
  · rw [if_neg h]
    rfl

end
end Vm.BagOfCells
