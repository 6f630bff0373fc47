import Mathlib

/- Integers as digits around zero: in base `2 * h` a digit is at least `-h` and below `h`.

   Digits are little-endian. The numbers of `n` such digits are an interval
   (`Centered.bounds`, `exists_centered`), so numbers of different lengths are told apart by
   the longer one's top digit (`Centered.lt_of_top_pos`, `Centered.lt_of_top_neg`), and numbers
   of one length by the first digit from the top in which they differ (`cmp_eq_sign`). -/
namespace SignedDigits

variable {h : Int}

/-- The number that digits in base `2 * h` stand for, least significant first. -/
def value (h : Int) : List Int → Int
  | [] => 0
  | d :: ds => d + 2 * h * value h ds

@[simp] theorem value_nil : value h [] = 0 := rfl

@[simp] theorem value_cons (d : Int) (ds : List Int) :
    value h (d :: ds) = d + 2 * h * value h ds := rfl

theorem value_append (xs ys : List Int) :
    value h (xs ++ ys) = value h xs + (2 * h) ^ xs.length * value h ys := by
  induction xs with
  | nil => simp
  | cons x xs ih =>
    rw [List.cons_append, value_cons, value_cons, ih, List.length_cons, pow_succ]
    ring

/-- Every digit is in the range around zero. -/
def Centered (h : Int) (ds : List Int) : Prop := ∀ d ∈ ds, -h ≤ d ∧ d < h

theorem centered_cons {d : Int} {ds : List Int} :
    Centered h (d :: ds) ↔ (-h ≤ d ∧ d < h) ∧ Centered h ds := by
  simp [Centered]

theorem centered_append {xs ys : List Int} :
    Centered h (xs ++ ys) ↔ Centered h xs ∧ Centered h ys := by
  simp only [Centered, List.mem_append]
  constructor
  · intro hall
    exact ⟨fun d hd => hall d (.inl hd), fun d hd => hall d (.inr hd)⟩
  · intro hall d hd
    obtain hd | hd := hd
    · exact hall.1 d hd
    · exact hall.2 d hd

/-- The number of `n` ones. -/
def ones (h : Int) : Nat → Int
  | 0 => 0
  | n + 1 => 1 + 2 * h * ones h n

theorem pow_eq_ones (n : Nat) : (2 * h) ^ n = (2 * h - 1) * ones h n + 1 := by
  induction n with
  | zero => simp [ones]
  | succ n ih =>
    rw [pow_succ, ih, ones]
    ring

theorem ones_nonneg (hh : 0 < h) (n : Nat) : 0 ≤ ones h n := by
  induction n with
  | zero => simp [ones]
  | succ n ih =>
    rw [ones]
    positivity

theorem ones_mono (hh : 0 < h) {m n : Nat} (hmn : m ≤ n) : ones h m ≤ ones h n := by
  induction n with
  | zero => rw [Nat.le_zero.1 hmn]
  | succ n ih =>
    by_cases hm : m = n + 1
    · rw [hm]
    · have hstep : ones h n ≤ ones h (n + 1) := by
        have hnonneg := ones_nonneg hh n
        rw [ones]
        nlinarith
      exact (ih (by omega)).trans hstep

namespace Centered

variable {xs ys : List Int}

/-- The least number of a length has the digit `-h` everywhere, the greatest `h - 1`. -/
theorem bounds (hh : 0 < h) (hx : Centered h xs) :
    -h * ones h xs.length ≤ value h xs ∧ value h xs ≤ (h - 1) * ones h xs.length := by
  induction xs with
  | nil => simp [ones]
  | cons d ds ih =>
    obtain ⟨⟨hlow, hhigh⟩, hds⟩ := centered_cons.1 hx
    obtain ⟨ihlow, ihhigh⟩ := ih hds
    rw [value_cons, List.length_cons, ones]
    constructor
    · calc -h * (1 + 2 * h * ones h ds.length)
          = -h + 2 * h * (-h * ones h ds.length) := by ring
        _ ≤ d + 2 * h * value h ds :=
          add_le_add hlow (mul_le_mul_of_nonneg_left ihlow (by omega))
    · calc d + 2 * h * value h ds
          ≤ (h - 1) + 2 * h * ((h - 1) * ones h ds.length) :=
          add_le_add (by omega) (mul_le_mul_of_nonneg_left ihhigh (by omega))
        _ = (h - 1) * (1 + 2 * h * ones h ds.length) := by ring

/-- The same bounds for a longer length. -/
theorem bounds_of_le (hh : 0 < h) (hx : Centered h xs) {n : Nat} (hn : xs.length ≤ n) :
    -h * ones h n ≤ value h xs ∧ value h xs ≤ (h - 1) * ones h n := by
  obtain ⟨hlow, hhigh⟩ := hx.bounds hh
  have hmono := ones_mono hh hn
  constructor
  · nlinarith
  · nlinarith

/-- A positive top digit puts a number above all that are not longer. -/
theorem lt_of_top_pos (hh : 0 < h) (hx : Centered h xs) {t : Int} (ht : 0 < t)
    (hy : Centered h ys) (hlen : ys.length ≤ xs.length) :
    value h ys < value h (xs ++ [t]) := by
  obtain ⟨hlow, -⟩ := hx.bounds hh
  obtain ⟨-, hhigh⟩ := hy.bounds_of_le hh hlen
  have hpow := pow_eq_ones (h := h) xs.length
  have hpos : 0 < (2 * h) ^ xs.length := by positivity
  calc value h ys
      ≤ (h - 1) * ones h xs.length := hhigh
    _ < -h * ones h xs.length + (2 * h) ^ xs.length := by linarith
    _ ≤ value h xs + (2 * h) ^ xs.length * t := by nlinarith
    _ = value h (xs ++ [t]) := by rw [value_append]; simp

/-- A negative top digit puts a number below all that are not longer. -/
theorem lt_of_top_neg (hh : 0 < h) (hx : Centered h xs) {t : Int} (ht : t < 0)
    (hy : Centered h ys) (hlen : ys.length ≤ xs.length) :
    value h (xs ++ [t]) < value h ys := by
  obtain ⟨-, hhigh⟩ := hx.bounds hh
  obtain ⟨hlow, -⟩ := hy.bounds_of_le hh hlen
  have hpow := pow_eq_ones (h := h) xs.length
  have hpos : 0 < (2 * h) ^ xs.length := by positivity
  calc value h (xs ++ [t])
      = value h xs + (2 * h) ^ xs.length * t := by rw [value_append]; simp
    _ ≤ (h - 1) * ones h xs.length - (2 * h) ^ xs.length := by nlinarith
    _ < -h * ones h xs.length := by linarith
    _ ≤ value h ys := hlow

end Centered

/-- Every number in those bounds has that many digits. -/
theorem exists_centered (hh : 0 < h) : ∀ (n : Nat) (y : Int), -h * ones h n ≤ y →
    y ≤ (h - 1) * ones h n → ∃ ys : List Int, ys.length = n ∧ Centered h ys ∧ value h ys = y
  | 0, y, hlow, hhigh => by
    simp only [ones, mul_zero] at hlow hhigh
    exact ⟨[], rfl, by simp [Centered], by rw [value_nil]; omega⟩
  | n + 1, y, hlow, hhigh => by
    rw [ones] at hlow hhigh
    have hdigit := Int.emod_add_mul_ediv (y + h) (2 * h)
    have hmod := Int.emod_nonneg (y + h) (b := 2 * h) (by omega)
    have hlt := Int.emod_lt_of_pos (y + h) (b := 2 * h) (by omega)
    have hqlow : -h * ones h n ≤ (y + h) / (2 * h) := by
      rw [Int.le_ediv_iff_mul_le (by omega)]
      linarith
    have hqhigh : (y + h) / (2 * h) ≤ (h - 1) * ones h n := by
      rw [← Int.lt_add_one_iff, Int.ediv_lt_iff_lt_mul (by omega)]
      linarith
    obtain ⟨ys, hlen, hys, hvalue⟩ := exists_centered hh n _ hqlow hqhigh
    refine ⟨((y + h) % (2 * h) - h) :: ys, by simp [hlen], ?_, ?_⟩
    · exact centered_cons.2 ⟨by omega, hys⟩
    · rw [value_cons, hvalue]
      linarith

/-- The digits from the top down, until two differ. -/
def cmp : List Int → List Int → Int
  | x :: xs, y :: ys =>
    if cmp xs ys = 0 then (if x < y then -1 else if x > y then 1 else 0) else cmp xs ys
  | _, _ => 0

theorem ite_eq_sign_sub (x y : Int) :
    (if x < y then -1 else if x > y then 1 else 0) = (x - y).sign := by
  obtain hlt | heq | hgt := lt_trichotomy x y
  · rw [if_pos hlt, Int.sign_eq_neg_one_of_neg (by omega)]
  · rw [if_neg (by omega), if_neg (by omega), heq, sub_self, Int.sign_zero]
  · rw [if_neg (by omega), if_pos hgt, Int.sign_eq_one_of_pos (by omega)]

theorem cmp_singleton (x y : Int) : cmp [x] [y] = (x - y).sign := ite_eq_sign_sub x y

/-- Two numbers of one length compare as their digits do. -/
theorem cmp_eq_sign (hh : 0 < h) : ∀ {xs ys : List Int}, Centered h xs → Centered h ys →
    xs.length = ys.length → cmp xs ys = (value h xs - value h ys).sign
  | [], [], _, _, _ => by simp [cmp]
  | x :: xs, y :: ys, hx, hy, hlen => by
    obtain ⟨hx0, hxs⟩ := centered_cons.1 hx
    obtain ⟨hy0, hys⟩ := centered_cons.1 hy
    have ih := cmp_eq_sign hh hxs hys (by simpa using hlen)
    rw [value_cons, value_cons, cmp, ih]
    obtain hlt | heq | hgt := lt_trichotomy (value h xs) (value h ys)
    · have hneg : x + 2 * h * value h xs - (y + 2 * h * value h ys) < 0 := by nlinarith
      rw [Int.sign_eq_neg_one_of_neg (by omega), Int.sign_eq_neg_one_of_neg hneg]
      rfl
    · -- the digits above agree
      have hdiff : x + 2 * h * value h xs - (y + 2 * h * value h ys) = x - y := by
        rw [heq]
        ring
      rw [hdiff, heq, sub_self, Int.sign_zero, if_pos rfl, ite_eq_sign_sub]
    · have hpos : 0 < x + 2 * h * value h xs - (y + 2 * h * value h ys) := by nlinarith
      rw [Int.sign_eq_one_of_pos (by omega), Int.sign_eq_one_of_pos hpos]
      rfl

end SignedDigits
