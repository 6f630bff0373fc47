import Mathlib

/- Big-endian bit fields. `BitField.ofNat w n` is the `w` low bits of `n`, most
   significant first; `BitField.toNat` reads such a field back. The two are
   inverse on `w`-bit numbers, so a field of known width can be written in front
   of other bits and taken off again. -/
namespace BitField

/-- The `w` low bits of `n`, most significant first. -/
def ofNat : Nat → Nat → List Bool
  | 0, _ => []
  | w + 1, n => n.testBit w :: ofNat w n

/-- The number a bit list spells, most significant bit first. -/
def toNat : List Bool → Nat
  | [] => 0
  | b :: bs => b.toNat * 2 ^ bs.length + toNat bs

/-- The bits of a byte string, most significant bit of each byte first. -/
def ofBytes (bs : List UInt8) : List Bool := bs.flatMap (fun b => ofNat 8 b.toNat)

@[simp] theorem ofNat_zero_width (n : Nat) : ofNat 0 n = [] := rfl

@[simp] theorem length_ofNat (w n : Nat) : (ofNat w n).length = w := by
  induction w with
  | zero => rfl
  | succ w ih => rw [ofNat, List.length_cons, ih]

@[simp] theorem length_ofBytes (bs : List UInt8) : (ofBytes bs).length = 8 * bs.length := by
  induction bs with
  | nil => rfl
  | cons b bs ih =>
    rw [ofBytes, List.flatMap_cons, List.length_append, length_ofNat, ← ofBytes, ih,
      List.length_cons]
    omega

theorem toNat_ofNat (w n : Nat) : toNat (ofNat w n) = n % 2 ^ w := by
  induction w with
  | zero => simp [toNat, Nat.mod_one]
  | succ w ih =>
    rw [ofNat, toNat, ih, length_ofNat, Nat.mod_pow_succ, Nat.toNat_testBit]
    ring

theorem toNat_ofNat_of_lt {w n : Nat} (h : n < 2 ^ w) : toNat (ofNat w n) = n := by
  rw [toNat_ofNat, Nat.mod_eq_of_lt h]

/-- A field determines the number it was written from. -/
theorem ofNat_inj {w m n : Nat} (hm : m < 2 ^ w) (hn : n < 2 ^ w) (h : ofNat w m = ofNat w n) :
    m = n := by
  have := congrArg toNat h
  rwa [toNat_ofNat_of_lt hm, toNat_ofNat_of_lt hn] at this

/-- A field depends on the low bits of the number only. -/
theorem ofNat_mod (w n : Nat) : ofNat w (n % 2 ^ w) = ofNat w n := by
  have hle : ∀ v ≤ w, ofNat v (n % 2 ^ w) = ofNat v n := by
    intro v
    induction v with
    | zero => intro _; rfl
    | succ v ih =>
      intro hv
      rw [ofNat, ofNat, ih (by omega), Nat.testBit_mod_two_pow]
      simp [show v < w by omega]
  exact hle w le_rfl

/-- A field of more bits than the number needs starts with zeros. -/
theorem ofNat_add_of_lt (k : Nat) {w n : Nat} (h : n < 2 ^ w) :
    ofNat (k + w) n = List.replicate k false ++ ofNat w n := by
  induction k with
  | zero => simp
  | succ k ih =>
    have hbit : n.testBit (k + w) = false :=
      Nat.testBit_lt_two_pow (lt_of_lt_of_le h (Nat.pow_le_pow_right (by decide) (by omega)))
    rw [show k + 1 + w = (k + w) + 1 by omega, ofNat, hbit, ih, List.replicate_succ,
      List.cons_append]

theorem ofNat_zero (w : Nat) : ofNat w 0 = List.replicate w false := by
  induction w with
  | zero => rfl
  | succ w ih => rw [ofNat, ih, Nat.zero_testBit, List.replicate_succ]

theorem ofNat_two_pow_sub_one {w v : Nat} (h : w ≤ v) :
    ofNat w (2 ^ v - 1) = List.replicate w true := by
  induction w with
  | zero => rfl
  | succ w ih =>
    rw [ofNat, ih (by omega), Nat.testBit_two_pow_sub_one, List.replicate_succ,
      decide_eq_true (by omega)]

/-- Twice a number has the bits of the number and a zero. -/
theorem ofNat_two_mul (w n : Nat) : ofNat (w + 1) (2 * n) = ofNat w n ++ [false] := by
  induction w with
  | zero => simp [ofNat]
  | succ w ih =>
    rw [ofNat, ih, ofNat, Nat.testBit_succ, Nat.mul_div_cancel_left n (by decide)]
    rfl

/-- A field of a number is the field of its high bits and that of its low bits. -/
theorem ofNat_add (k w n : Nat) : ofNat (k + w) n = ofNat k (n / 2 ^ w) ++ ofNat w n := by
  induction k with
  | zero => rw [Nat.zero_add, ofNat_zero_width, List.nil_append]
  | succ k ih =>
    rw [Nat.add_right_comm, ofNat, ih, ofNat, Nat.testBit_div_two_pow,
      List.cons_append]

theorem toNat_lt (bs : List Bool) : toNat bs < 2 ^ bs.length := by
  induction bs with
  | nil => decide
  | cons b bs ih =>
    rw [toNat, List.length_cons, Nat.pow_succ]
    cases b
    · simp only [Bool.toNat_false, Nat.zero_mul]
      omega
    · simp only [Bool.toNat_true, Nat.one_mul]
      omega

/-- Writing back what was read. -/
theorem ofNat_toNat (bs : List Bool) : ofNat bs.length (toNat bs) = bs := by
  induction bs with
  | nil => rfl
  | cons b bs ih =>
    have hlt := toNat_lt bs
    have hbit : (b.toNat * 2 ^ bs.length + toNat bs).testBit bs.length = b := by
      rw [Nat.mul_comm, Nat.testBit_two_pow_mul_add _ hlt, if_neg (lt_irrefl _), Nat.sub_self]
      cases b <;> rfl
    have hlow : (b.toNat * 2 ^ bs.length + toNat bs) % 2 ^ bs.length = toNat bs := by
      rw [Nat.mul_comm, Nat.mul_add_mod, Nat.mod_eq_of_lt hlt]
    calc ofNat (bs.length + 1) (b.toNat * 2 ^ bs.length + toNat bs)
        = b :: ofNat bs.length (b.toNat * 2 ^ bs.length + toNat bs) := by rw [ofNat, hbit]
      _ = b :: ofNat bs.length (toNat bs) := by rw [← ofNat_mod, hlow]
      _ = b :: bs := by rw [ih]

/-- Taking a field off the front of a bit list. -/
theorem take_drop_ofNat (w n : Nat) (rest : List Bool) :
    (ofNat w n ++ rest).take w = ofNat w n ∧ (ofNat w n ++ rest).drop w = rest := by
  constructor
  · rw [List.take_left' (length_ofNat w n)]
  · rw [List.drop_left' (length_ofNat w n)]

end BitField
