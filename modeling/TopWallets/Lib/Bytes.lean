import Mathlib

/- Numbers of a fixed width as bytes, and fields of a fixed width in front of a byte string.

   `little` and `big` write the low bytes of a number in the two orders, and
   `ofLittle` and `ofBig` read them. A signed number is written as the unsigned one of
   the same bits. `field` takes exactly as many bytes as are asked for, or fails. -/
namespace Bytes

/-- The low `width` bytes, least significant first. -/
def little (width v : Nat) : List UInt8 :=
  match width with
  | 0 => []
  | width + 1 => UInt8.ofNat (v % 256) :: little width (v / 256)

def ofLittle (bs : List UInt8) : Nat := bs.foldr (fun b v => b.toNat + 256 * v) 0

def big (width v : Nat) : List UInt8 := (little width v).reverse

def ofBig (bs : List UInt8) : Nat := ofLittle bs.reverse

@[simp] theorem length_little (width v : Nat) : (little width v).length = width := by
  induction width generalizing v with
  | zero => rfl
  | succ width ih => rw [little, List.length_cons, ih]

@[simp] theorem length_big (width v : Nat) : (big width v).length = width := by
  rw [big, List.length_reverse, length_little]

/-- What is read back is the number in that width. -/
theorem ofLittle_little (width v : Nat) : ofLittle (little width v) = v % 256 ^ width := by
  induction width generalizing v with
  | zero => simp [little, ofLittle, Nat.mod_one]
  | succ width ih =>
    have hbyte : (UInt8.ofNat (v % 256)).toNat = v % 256 := by
      rw [UInt8.toNat_ofNat', Nat.mod_eq_of_lt (Nat.mod_lt _ (by decide))]
    calc ofLittle (little (width + 1) v)
        = (UInt8.ofNat (v % 256)).toNat + 256 * ofLittle (little width (v / 256)) := rfl
      _ = v % 256 + 256 * (v / 256 % 256 ^ width) := by rw [hbyte, ih]
      _ = v % (256 * 256 ^ width) := (Nat.mod_mul ..).symm
      _ = v % 256 ^ (width + 1) := by rw [pow_succ, mul_comm]

theorem ofLittle_little_of_lt {width v : Nat} (hv : v < 256 ^ width) :
    ofLittle (little width v) = v := by
  rw [ofLittle_little, Nat.mod_eq_of_lt hv]

theorem ofBig_big_of_lt {width v : Nat} (hv : v < 256 ^ width) : ofBig (big width v) = v := by
  rw [ofBig, big, List.reverse_reverse, ofLittle_little_of_lt hv]

theorem ofLittle_append (l l' : List UInt8) :
    ofLittle (l ++ l') = ofLittle l + 256 ^ l.length * ofLittle l' := by
  induction l with
  | nil => simp [ofLittle]
  | cons a l ih =>
    calc ofLittle (a :: l ++ l')
        = a.toNat + 256 * ofLittle (l ++ l') := rfl
      _ = a.toNat + 256 * (ofLittle l + 256 ^ l.length * ofLittle l') := by rw [ih]
      _ = a.toNat + 256 * ofLittle l + 256 ^ (l.length + 1) * ofLittle l' := by ring

theorem ofBig_cons (b : UInt8) (bs : List UInt8) :
    ofBig (b :: bs) = b.toNat * 256 ^ bs.length + ofBig bs := by
  have hbyte : ofLittle [b] = b.toNat := rfl
  rw [ofBig, List.reverse_cons, ofLittle_append, List.length_reverse, hbyte, ofBig]
  ring

theorem ofBig_lt (bs : List UInt8) : ofBig bs < 256 ^ bs.length := by
  induction bs with
  | nil => decide
  | cons b bs ih =>
    have hb := b.toNat_lt
    rw [ofBig_cons, List.length_cons]
    calc b.toNat * 256 ^ bs.length + ofBig bs
        < b.toNat * 256 ^ bs.length + 256 ^ bs.length := by omega
      _ = (b.toNat + 1) * 256 ^ bs.length := by ring
      _ ≤ 256 * 256 ^ bs.length := Nat.mul_le_mul_right _ hb
      _ = 256 ^ (bs.length + 1) := by ring

/-- The first `n` bytes and the rest. -/
def field (n : Nat) (bs : List UInt8) : Option (List UInt8 × List UInt8) :=
  if n ≤ bs.length then some (bs.take n, bs.drop n) else none

theorem field_append {n : Nat} {f : List UInt8} (hf : f.length = n) (bs : List UInt8) :
    field n (f ++ bs) = some (f, bs) := by
  have hn : n ≤ (f ++ bs).length := by
    rw [List.length_append]
    omega
  rw [field, if_pos hn, List.take_left' hf, List.drop_left' hf]

theorem length_of_field {n : Nat} {bs f rest : List UInt8} (h : field n bs = some (f, rest)) :
    f.length = n := by
  unfold field at h
  split at h
  · simp only [Option.some.injEq, Prod.mk.injEq] at h
    rw [← h.1, List.length_take]
    omega
  · cases h

/-! ## Signed numbers -/

/-- The unsigned number of the same bits. -/
def unsigned (bits : Nat) (v : Int) : Nat := (v % 2 ^ bits).toNat

/-- The signed number of the same bits. -/
def signed (bits v : Nat) : Int := if v < 2 ^ (bits - 1) then v else v - 2 ^ bits

theorem unsigned_lt (bits : Nat) (v : Int) : unsigned bits v < 2 ^ bits := by
  have hpos : (0 : Int) < 2 ^ bits := by positivity
  have hlt := Int.emod_lt_of_pos v hpos
  have hnonneg := Int.emod_nonneg v hpos.ne'
  unfold unsigned
  zify
  rw [Int.toNat_of_nonneg hnonneg]
  exact_mod_cast hlt

/-- A number that fits is read back. -/
theorem signed_unsigned {bits : Nat} (hbits : 0 < bits) {v : Int} (hlo : -2 ^ (bits - 1) ≤ v)
    (hhi : v < 2 ^ (bits - 1)) : signed bits (unsigned bits v) = v := by
  have hpow : (2 : Int) ^ bits = 2 * 2 ^ (bits - 1) := by
    rw [← pow_succ', Nat.sub_add_cancel hbits]
  have hcast : ((2 ^ (bits - 1) : Nat) : Int) = 2 ^ (bits - 1) := by push_cast; rfl
  unfold signed unsigned
  rw [hpow]
  generalize (2 : Int) ^ (bits - 1) = p at hlo hhi hcast
  obtain hneg | hpos := Int.lt_or_le v 0
  · have hmod : v % (2 * p) = v + 2 * p := by
      rw [Int.emod_eq_add_self_emod, Int.emod_eq_of_lt (by omega) (by omega)]
    rw [hmod, if_neg (by omega)]
    omega
  · have hmod : v % (2 * p) = v := Int.emod_eq_of_lt hpos (by omega)
    rw [hmod, if_pos (by omega)]
    omega

/-- A number that fits is told apart by its bytes. -/
theorem unsigned_inj {bits : Nat} (hbits : 0 < bits) {v w : Int} (hv : -2 ^ (bits - 1) ≤ v)
    (hv' : v < 2 ^ (bits - 1)) (hw : -2 ^ (bits - 1) ≤ w) (hw' : w < 2 ^ (bits - 1))
    (h : unsigned bits v = unsigned bits w) : v = w := by
  rw [← signed_unsigned hbits hv hv', h, signed_unsigned hbits hw hw']

theorem little_inj {width v w : Nat} (hv : v < 256 ^ width) (hw : w < 256 ^ width)
    (h : little width v = little width w) : v = w := by
  rw [← ofLittle_little_of_lt hv, h, ofLittle_little_of_lt hw]

theorem big_inj {width v w : Nat} (hv : v < 256 ^ width) (hw : w < 256 ^ width)
    (h : big width v = big width w) : v = w := by
  rw [← ofBig_big_of_lt hv, h, ofBig_big_of_lt hw]

end Bytes
