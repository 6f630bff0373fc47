import TopWallets.Lib.Cell

/- The native cell builder and cell reader (`vm::CellBuilder`, `vm::CellSlice`).

   A store either appends its whole item or refuses and leaves the builder as it
   was; the refusal is a `false` result, not an exception. `Store` is the type of
   such an operation and `Store.and` is `&&` between two of them, which stops at
   the first refusal and keeps what the operations before it have appended.

   Correspondence (C++ ↔ Lean):
     `can_extend_by`            ↔ `CellBuilder.canExtendBy`
     `store_bits_bool`          ↔ `CellBuilder.storeBitsBool`
     `store_long_bool`          ↔ `CellBuilder.storeLongBool`
     `store_bytes_bool`         ↔ `CellBuilder.storeBytesBool`
     `store_ref_bool`           ↔ `CellBuilder.storeRefBool`
     `finalize_novm`            ↔ `CellBuilder.finalizeNovm`
     `fetch_ulong_bool` and so on ↔ the functions of `Slice` below -/
namespace Vm

def maxBits : Nat := 1023
def maxBytes : Nat := 128
def maxRefs : Nat := 4
def maxDepth : Nat := 1024

/-- The exception `CellWriteError` of `finalize_novm`. -/
inductive CellWriteError where
  | depthTooBig
  deriving DecidableEq, Repr

/-- A builder: the bits and references stored so far, within a cell's capacity. -/
structure CellBuilder where
  bits : List Bool
  refs : List Cell
  bits_le : bits.length ≤ maxBits
  refs_le : refs.length ≤ maxRefs

/-- A native store: whether it succeeded, and the builder after it. -/
abbrev Store := CellBuilder → Bool × CellBuilder

/-- `f && g`: `g` runs only if `f` succeeded. -/
def Store.and (f g : Store) : Store := fun b =>
  if (f b).1 then g (f b).2 else (false, (f b).2)

/-- A cell is within the limits. -/
def CellFits (c : Cell) : Prop :=
  c.bits.length ≤ maxBits ∧ c.refs.length ≤ maxRefs ∧ Cell.depthRefs c.refs ≤ maxDepth

namespace CellBuilder

@[ext] theorem ext {b b' : CellBuilder} (hbits : b.bits = b'.bits) (hrefs : b.refs = b'.refs) :
    b = b' := by
  cases b; cases b'
  simp_all

def empty : CellBuilder := ⟨[], [], by decide, by decide⟩

@[simp] theorem bits_empty : empty.bits = [] := rfl

@[simp] theorem refs_empty : empty.refs = [] := rfl

def canExtendBy (b : CellBuilder) (newBits newRefs : Nat) : Prop :=
  newBits ≤ maxBits - b.bits.length ∧ newRefs ≤ maxRefs - b.refs.length

instance (b : CellBuilder) (newBits newRefs : Nat) : Decidable (b.canExtendBy newBits newRefs) :=
  inferInstanceAs (Decidable (_ ∧ _))

/-- The builder with bits and references appended, where they fit. -/
def append (b : CellBuilder) (bs : List Bool) (rs : List Cell)
    (h : b.canExtendBy bs.length rs.length) : CellBuilder :=
  ⟨b.bits ++ bs, b.refs ++ rs,
    by have := b.bits_le; have := h.1; rw [List.length_append]; omega,
    by have := b.refs_le; have := h.2; rw [List.length_append]; omega⟩

/-- Append an item of bits and references whole, or refuse it. -/
def storeAll (bs : List Bool) (rs : List Cell) : Store := fun b =>
  if h : b.canExtendBy bs.length rs.length then (true, b.append bs rs h) else (false, b)

def storeBitsBool (bs : List Bool) : Store := storeAll bs []

/-- The low `bits` bits of `val`, which is a 64-bit two's complement number. -/
def longBits (val : Int) (bits : Nat) : List Bool := BitField.ofNat bits (val % 2 ^ 64).toNat

def storeLongBool (val : Int) (bits : Nat) : Store := fun b =>
  if bits > 64 then (false, b) else storeBitsBool (longBits val bits) b

def storeBytesBool (str : List UInt8) : Store := fun b =>
  if str.length ≤ maxBytes then storeBitsBool (BitField.ofBytes str) b else (false, b)

/-- `none` is a null reference. -/
def storeRefBool : Option Cell → Store
  | none => fun b => (false, b)
  | some ref => storeAll [] [ref]

/-- The cell with the builder's content; `DataCell::create` bounds the depth. -/
def finalizeNovm (b : CellBuilder) : Except CellWriteError Cell :=
  if Cell.depthRefs b.refs ≤ maxDepth then .ok (.mk b.bits b.refs) else .error .depthTooBig

@[simp] theorem length_longBits (val : Int) (bits : Nat) : (longBits val bits).length = bits :=
  BitField.length_ofNat _ _

theorem storeAll_eq {b : CellBuilder} {bs : List Bool} {rs : List Cell}
    (h : b.canExtendBy bs.length rs.length) : storeAll bs rs b = (true, b.append bs rs h) := by
  rw [storeAll, dif_pos h]

theorem storeAll_refused {b : CellBuilder} {bs : List Bool} {rs : List Cell}
    (h : ¬ b.canExtendBy bs.length rs.length) : storeAll bs rs b = (false, b) := by
  rw [storeAll, dif_neg h]

@[simp] theorem bits_append (b : CellBuilder) (bs : List Bool) (rs : List Cell)
    (h : b.canExtendBy bs.length rs.length) : (b.append bs rs h).bits = b.bits ++ bs := rfl

@[simp] theorem refs_append (b : CellBuilder) (bs : List Bool) (rs : List Cell)
    (h : b.canExtendBy bs.length rs.length) : (b.append bs rs h).refs = b.refs ++ rs := rfl

end CellBuilder

/-- `Stores f bs rs`: the store `f` appends the item of bits `bs` and references `rs` whole,
and says so, exactly when it fits; otherwise it appends at most a proper part of it. -/
def Stores (f : Store) (bs : List Bool) (rs : List Cell) : Prop :=
  ∀ b, ∃ bs' rs', (f b).2.bits = b.bits ++ bs' ∧ (f b).2.refs = b.refs ++ rs' ∧
    bs' <+: bs ∧ rs' <+: rs ∧
    ((f b).1 = true ↔ b.canExtendBy bs.length rs.length) ∧
    ((f b).1 = true ↔ bs' = bs ∧ rs' = rs)

namespace Stores
open CellBuilder
variable {f g : Store} {bs cs : List Bool} {rs qs : List Cell}

theorem storeAll (bs : List Bool) (rs : List Cell) : Stores (storeAll bs rs) bs rs := by
  intro b
  by_cases h : b.canExtendBy bs.length rs.length
  · rw [storeAll_eq h]
    exact ⟨bs, rs, rfl, rfl, List.prefix_rfl, List.prefix_rfl, by simp [h], by simp⟩
  · rw [storeAll_refused h]
    refine ⟨[], [], by simp, by simp, List.nil_prefix, List.nil_prefix, by simp [h], ?_⟩
    simp only [Bool.false_eq_true, false_iff, not_and]
    rintro rfl rfl
    exact h ⟨Nat.zero_le _, Nat.zero_le _⟩

theorem storeLongBool (val : Int) (bits : Nat) (h : bits ≤ 64) :
    Stores (storeLongBool val bits) (longBits val bits) [] := by
  intro b
  rw [CellBuilder.storeLongBool, if_neg (by omega)]
  exact storeAll _ _ b

theorem storeBytesBool (str : List UInt8) :
    Stores (storeBytesBool str) (BitField.ofBytes str) [] := by
  intro b
  by_cases h : str.length ≤ maxBytes
  · rw [CellBuilder.storeBytesBool, if_pos h]
    exact storeAll _ _ b
  · have hfit : ¬ b.canExtendBy (BitField.ofBytes str).length 0 := by
      rw [BitField.length_ofBytes]
      rintro ⟨hle, -⟩
      simp only [maxBytes, maxBits] at h hle
      omega
    rw [CellBuilder.storeBytesBool, if_neg h]
    refine ⟨[], [], by simp, by simp, List.nil_prefix, List.nil_prefix, by simpa using hfit, ?_⟩
    simp only [Bool.false_eq_true, false_iff, not_and]
    rintro hnil -
    rw [← hnil] at hfit
    exact hfit ⟨Nat.zero_le _, Nat.zero_le _⟩

theorem storeRefBool (ref : Cell) : Stores (storeRefBool (some ref)) [] [ref] := storeAll [] [ref]

/-- `&&` of two stores stores the two items one after the other. -/
theorem and (hf : Stores f bs rs) (hg : Stores g cs qs) :
    Stores (f.and g) (bs ++ cs) (rs ++ qs) := by
  intro b
  obtain ⟨bs₁, rs₁, hb₁, hr₁, pb₁, pr₁, hfit₁, hall₁⟩ := hf b
  by_cases hok : (f b).1 = true
  · obtain ⟨bs₂, rs₂, hb₂, hr₂, pb₂, pr₂, hfit₂, hall₂⟩ := hg (f b).2
    obtain ⟨rfl, rfl⟩ := hall₁.1 hok
    obtain ⟨hcb, hcr⟩ := hfit₁.1 hok
    rw [Store.and, if_pos hok]
    refine ⟨bs₁ ++ bs₂, rs₁ ++ rs₂, by rw [hb₂, hb₁, List.append_assoc],
      by rw [hr₂, hr₁, List.append_assoc], (List.prefix_append_right_inj _).2 pb₂,
      (List.prefix_append_right_inj _).2 pr₂, ?_, ?_⟩
    · rw [hfit₂]
      simp only [canExtendBy, hb₁, hr₁, List.length_append] at hcb hcr ⊢
      omega
    · rw [hall₂]
      simp
  · rw [Store.and, if_neg hok]
    refine ⟨bs₁, rs₁, hb₁, hr₁, pb₁.trans (List.prefix_append _ _),
      pr₁.trans (List.prefix_append _ _), ?_, ?_⟩
    · simp only [Bool.false_eq_true, false_iff]
      rintro ⟨hcb, hcr⟩
      rw [List.length_append] at hcb hcr
      exact hok (hfit₁.2 ⟨by omega, by omega⟩)
    · simp only [Bool.false_eq_true, false_iff, not_and]
      intro hbs hrs
      have hlb := pb₁.length_le
      have hlr := pr₁.length_le
      rw [hbs, List.length_append] at hlb
      rw [hrs, List.length_append] at hlr
      obtain rfl : cs = [] := List.eq_nil_of_length_eq_zero (by omega)
      obtain rfl : qs = [] := List.eq_nil_of_length_eq_zero (by omega)
      rw [List.append_nil] at hbs hrs
      exact hok (hall₁.2 ⟨hbs, hrs⟩)

/-- Where the item fits, the store appends exactly the item. -/
theorem eq_append (hf : Stores f bs rs) {b : CellBuilder}
    (h : b.canExtendBy bs.length rs.length) : f b = (true, b.append bs rs h) := by
  obtain ⟨bs', rs', hb, hr, -, -, hfit, hall⟩ := hf b
  have hok := hfit.2 h
  obtain ⟨rfl, rfl⟩ := hall.1 hok
  exact Prod.ext hok (CellBuilder.ext hb hr)

end Stores

/-- The unsigned value of the next `bits` bits, taken off the slice. -/
def fetchUlongBool (bits : Nat) (s : Slice) : Option (Nat × Slice) :=
  if bits > 64 ∨ s.bits.length < bits then none
  else some (BitField.toNat (s.bits.take bits), ⟨s.bits.drop bits, s.refs⟩)

/-- The next `bytes` bytes of a bit string. -/
def bytesOfBits : Nat → List Bool → List UInt8
  | 0, _ => []
  | n + 1, bs => UInt8.ofNat (BitField.toNat (bs.take 8)) :: bytesOfBits n (bs.drop 8)

def fetchBytes (bytes : Nat) (s : Slice) : Option (List UInt8 × Slice) :=
  if s.bits.length < bytes * 8 then none
  else some (bytesOfBits bytes s.bits, ⟨s.bits.drop (bytes * 8), s.refs⟩)

/-- The next reference, or null where none is left. -/
def fetchRef (s : Slice) : Option Cell × Slice :=
  match s.refs with
  | [] => (none, s)
  | r :: rs => (some r, ⟨s.bits, rs⟩)

theorem fetchUlongBool_append (payload : List Bool) (h : payload.length ≤ 64) (rest : List Bool)
    (refs : List Cell) : fetchUlongBool payload.length ⟨payload ++ rest, refs⟩ =
      some (BitField.toNat payload, ⟨rest, refs⟩) := by
  have hroom : ¬ (payload.length > 64 ∨ (payload ++ rest).length < payload.length) := by
    rw [List.length_append]
    omega
  rw [fetchUlongBool, if_neg hroom, List.take_left, List.drop_left]

theorem fetchUlongBool_ofNat {w n : Nat} (hw : w ≤ 64) (hn : n < 2 ^ w) (rest : List Bool)
    (refs : List Cell) :
    fetchUlongBool w ⟨BitField.ofNat w n ++ rest, refs⟩ = some (n, ⟨rest, refs⟩) := by
  have hfetch := fetchUlongBool_append (BitField.ofNat w n) (by simpa using hw) rest refs
  rwa [BitField.length_ofNat, BitField.toNat_ofNat_of_lt hn] at hfetch

@[simp] theorem length_bytesOfBits (n : Nat) (bs : List Bool) : (bytesOfBits n bs).length = n := by
  induction n generalizing bs with
  | zero => rfl
  | succ n ih => rw [bytesOfBits, List.length_cons, ih]

theorem bytesOfBits_ofBytes (bs : List UInt8) (rest : List Bool) :
    bytesOfBits bs.length (BitField.ofBytes bs ++ rest) = bs := by
  induction bs with
  | nil => rfl
  | cons b bs ih =>
    obtain ⟨htake, hdrop⟩ := BitField.take_drop_ofNat 8 b.toNat (BitField.ofBytes bs ++ rest)
    have hbyte : BitField.toNat (BitField.ofNat 8 b.toNat) = b.toNat :=
      BitField.toNat_ofNat_of_lt (UInt8.toNat_lt b)
    rw [List.length_cons, bytesOfBits, BitField.ofBytes, List.flatMap_cons, ← BitField.ofBytes,
      List.append_assoc, htake, hdrop, ih, hbyte, UInt8.ofNat_toNat]

theorem ofBytes_bytesOfBits {n : Nat} {bs : List Bool} (h : bs.length = 8 * n) :
    BitField.ofBytes (bytesOfBits n bs) = bs := by
  induction n generalizing bs with
  | zero =>
    rw [Nat.mul_zero, List.length_eq_zero_iff] at h
    rw [h]
    rfl
  | succ n ih =>
    have htake : (bs.take 8).length = 8 := by
      rw [List.length_take]
      omega
    have hlt : BitField.toNat (bs.take 8) < 256 := by
      have hlt := BitField.toNat_lt (bs.take 8)
      rwa [htake] at hlt
    have hbyte : (UInt8.ofNat (BitField.toNat (bs.take 8))).toNat = BitField.toNat (bs.take 8) := by
      rw [UInt8.toNat_ofNat', Nat.mod_eq_of_lt hlt]
    have hfield : BitField.ofNat 8 (BitField.toNat (bs.take 8)) = bs.take 8 := by
      have hof := BitField.ofNat_toNat (bs.take 8)
      rwa [htake] at hof
    have hdrop : (bs.drop 8).length = 8 * n := by
      rw [List.length_drop]
      omega
    rw [bytesOfBits, BitField.ofBytes, List.flatMap_cons, ← BitField.ofBytes, ih hdrop, hbyte,
      hfield, List.take_append_drop]

theorem bytesOfBits_succ (n : Nat) (bs : List Bool) : bytesOfBits (n + 1) bs =
    bytesOfBits n bs ++ [UInt8.ofNat (BitField.toNat ((bs.drop (8 * n)).take 8))] := by
  induction n generalizing bs with
  | zero => rfl
  | succ n ih =>
    have hdrop : (bs.drop 8).drop (8 * n) = bs.drop (8 * (n + 1)) := by
      rw [List.drop_drop]
      congr 1
      omega
    rw [bytesOfBits, ih, hdrop, bytesOfBits, List.cons_append]

end Vm
