import TopWallets.Lib.SignedDigits

/- The native big integers of `crypto/common/bigint.hpp`, at the width of `BigInt256`, as far
   as the fees use them.

   A number is a row of digits in base 2^52, each in a word of 64 bits; no digits stand for
   an invalid number. Words wrap. A number is normal when its digits are around zero and its
   top digit is not zero; what an operation leaves out of that form `normalize` brings back,
   but the constructor from a word does not. Each operation computes the exact number when
   its words do not overflow.

   Correspondence (C++ ↔ Lean):
     `word_t` arithmetic               ↔ `word`
     `normalize_bool_any`              ↔ `normalize`
     `mul_short_opt`, `mul_add_short_any` ↔ `mulShortOpt`, `mulShort`
     `add_any`, `add_tiny`             ↔ `add`, `addTiny`
     `rshift_any`, `lshift_any`, below a digit ↔ `rshiftCeil`, `lshift`
     `mod_div_any`, by one digit, and `divmod_short_any` ↔ `divShort`, `divmodShort`
     `cmp_any` (two overloads), `sgn`  ↔ `cmpAny`, `cmpWord`, `sgn`
     `to_long_any`                     ↔ `toLong` -/
namespace BigIntG
open SignedDigits (Centered centered_cons centered_append)

/-- The value of a result in a `long long`. -/
def word (x : Int) : Int := x.bmod (2 ^ 64)

def Base : Int := 2 ^ 52
def Half : Int := 2 ^ 51
def MaxDenorm : Int := 2 ^ 11

/-- `word_cnt` of `BigIntG<257>`. -/
def wordCnt : Nat := 5

/-! ## Normal form -/

/-- Passes carries on, from a digit on to the top. -/
def carry (val : Int) : List Int → List Int × Int
  | [] => ([], val)
  | d :: ds =>
    let val := word (val + word (d + Half))
    let (ds, top) := carry (val / Base) ds
    ((val % Base - Half) :: ds, top)

/-- Leaves the digits that are in range, up to the first that is not. -/
def settle : List Int → List Int × Int
  | [] => ([], 0)
  | d :: ds =>
    if d < Half ∧ -Half ≤ d then
      let (ds, top) := settle ds
      (d :: ds, top)
    else carry 0 (d :: ds)

/-- What is left to carry becomes new digits, as far as there is room. -/
def grow (val : Int) : Nat → Option (List Int)
  | 0 => if val = 0 then some [] else none
  | room + 1 =>
    if val = 0 then some []
    else (grow ((val + Half) / Base) room).map (((val + Half) % Base - Half) :: ·)

/-- Drops zero digits at the top, but not the last digit. -/
def trim : List Int → List Int
  | [] => []
  | d :: ds => if trim ds = [0] ∨ ds = [] then [d] else d :: trim ds

def normalize (x : List Int) : List Int :=
  if x = [] then []
  else
    let (ds, val) := settle x
    match grow val (wordCnt - x.length) with
    | none => []
    | some more => trim (ds ++ more)

/-! ## Multiplication by a word -/

/-- One product per digit: its low part is added to what came from below. -/
def mulLoop (y : Int) : Int → List Int → List Int × Int
  | z, [] => ([], z)
  | z, d :: ds =>
    let (ds, top) := mulLoop y (word (y * d / Base)) ds
    (word (y * d % Base + z) :: ds, top)

def mulShort (x : List Int) (y : Int) : List Int :=
  let (ds, z) := mulLoop y 0 x
  if x = [] then []
  else if z = 0 then ds
  else if ds.length < wordCnt then ds ++ [z]
  else
    let top := ds.getLastD 0
    let z := word (z + top / Base)
    if z = 0 ∨ z = -1 then ds.dropLast ++ [word (top % Base + z * Base)] else []

/-- A small factor multiplies every digit in its own word. -/
def mulShortOpt (x : List Int) (y : Int) : List Int :=
  if y ≤ MaxDenorm ∧ -MaxDenorm ≤ y then x.map fun d => word (d * y) else mulShort x y

/-! ## Addition -/

def addDigits : List Int → List Int → List Int
  | xs, [] => xs
  | [], ys => ys
  | x :: xs, y :: ys => word (x + y) :: addDigits xs ys

def add (x y : List Int) : List Int := if x = [] ∨ y = [] then [] else addDigits x y

def addTiny (x : List Int) (y : Int) : List Int :=
  match x with
  | [] => []
  | d :: ds => word (d + y) :: ds

/-! ## Shifts by less than a digit -/

/-- The low `r` bits of each digit become the high bits of the one below. -/
def rshiftLoop (r : Nat) (v : Int) : List Int → List Int
  | [] => [v]
  | w :: ds => word (v + w % 2 ^ r * 2 ^ (52 - r)) :: rshiftLoop r (w / 2 ^ r) ds

/-- `rshift_any` with `round_mode` 1. -/
def rshiftCeil (r : Nat) : List Int → List Int
  | [] => [0]
  | d :: ds => rshiftLoop r (word (d - 1) / 2 ^ r + 1) ds

def lshiftLoop (r : Nat) (v : Int) : List Int → List Int × Int
  | [] => ([], v)
  | w :: ds =>
    let (ds, top) := lshiftLoop r (w / 2 ^ (52 - r)) ds
    (word (v + w % 2 ^ (52 - r) * 2 ^ r) :: ds, top)

def lshift (r : Nat) (x : List Int) : List Int :=
  let (ds, v) := lshiftLoop r 0 x
  if v = 0 then ds
  else if ds.length < wordCnt then ds ++ [v]
  else if v = -1 then ds.dropLast ++ [word (ds.getLastD 0 - Base)]
  else []

/-! ## Division by one digit -/

/-- `dbl_divmod` down from the top: the quotient's digits and the remainder. -/
def divLoop (y rem : Int) : List Int → List Int × Int
  | [] => ([], rem)
  | d :: ds =>
    let (qs, rem) := divLoop y rem ds
    (word ((rem * Base + d).tdiv y) :: qs, word ((rem * Base + d).tmod y))

/-- The top digit is the first remainder if it is small; the last remainder gets the sign of
    the divisor. -/
def divmodShort (x : List Int) (y : Int) : List Int × Int :=
  let top := x.getLastD 0
  let (qs, rem) :=
    if 1 < x.length ∧ word (|top| * 2) < |y| then divLoop y top x.dropLast else divLoop y 0 x
  if rem ≠ 0 ∧ (rem < 0 ↔ ¬ y < 0) then (trim (addTiny qs (-1)), word (rem + y))
  else (trim qs, rem)

/-- The quotient of `mod_div_any` with `round_mode` -1; no digits when the divisor is 0. -/
def divShort (x : List Int) (y : Int) : List Int :=
  if x = [] ∨ y = 0 then [] else normalize (divmodShort x y).1

/-! ## Comparison and conversion -/

def sgn (x : List Int) : Int := (x.getLastD 0).sign

def cmpAny (x y : List Int) : Int :=
  if y.length < x.length then (if x.getLastD 0 < 0 then -1 else 1)
  else if x.length < y.length then (if y.getLastD 0 > 0 then -1 else 1)
  else SignedDigits.cmp x y

def cmpWord (x : List Int) (y : Int) : Int :=
  match x with
  | [] => -2 ^ 31
  | [d] => (d - y).sign
  | [d₀, d₁] =>
    if y ≥ Half ∨ y < -Half then
      let x₁ := word (d₁ + d₀ / Base)
      if x₁ < y / Base then -1
      else if x₁ > y / Base then 1
      else (d₀ % Base - y % Base).sign
    else if d₁ < 0 then -1
    else 1
  | _ => if x.getLastD 0 < 0 then -1 else 1

/-- Takes the digits above the lowest off the excess; `none` where a digit does not match. -/
def excess (w : Int) : List Int → Option Unit
  | [] => none
  | [d] => if w = d then some () else none
  | d :: ds => if word (w - d) % Base = 0 then excess (word (w - d) / Base) ds else none

/-- The number in a `long long`, its least value if it does not fit. -/
def toLong : List Int → Int
  | [] => -2 ^ 63
  | [d] => d
  | d₀ :: d₁ :: ds =>
    let v := word (d₀ + d₁ * Base)
    let w := word (word (v % Base - d₀) / Base + v / Base)
    if (excess w (d₁ :: ds)).isSome then v else -2 ^ 63

/-! ## Words -/

theorem word_eq {x : Int} (hlow : -2 ^ 63 ≤ x) (hhigh : x < 2 ^ 63) : word x = x := by
  apply Int.bmod_eq_of_le
  · omega
  · omega

/-- Past the greatest word the count starts again at the least. -/
theorem word_eq_sub {x : Int} (hlow : 2 ^ 63 ≤ x) (hhigh : x < 2 ^ 64 + 2 ^ 63) :
    word x = x - 2 ^ 64 :=
  calc word x = word (x - (2 ^ 64 : Nat)) := (Int.sub_bmod_right x _).symm
    _ = x - 2 ^ 64 := word_eq (by omega) (by omega)

/-- The number a row of digits stands for. -/
def value (x : List Int) : Int := SignedDigits.value Half x

/-- A number in normal form. -/
structure Normal (x : List Int) : Prop where
  length_pos : 0 < x.length
  length_le_wordCnt : x.length ≤ wordCnt
  centered : Centered Half x
  top_ne : x.length = 1 ∨ x.getLastD 0 ≠ 0

theorem half_pos : 0 < Half := by decide

@[simp] theorem value_nil : value [] = 0 := rfl

@[simp] theorem value_cons (d : Int) (ds : List Int) : value (d :: ds) = d + Base * value ds := rfl

theorem value_append (xs ys : List Int) :
    value (xs ++ ys) = value xs + Base ^ xs.length * value ys :=
  SignedDigits.value_append xs ys

/-! ## Normal form -/

theorem settle_eq_carry (x : List Int) : settle x = carry 0 x := by
  induction x with
  | nil => rfl
  | cons d ds ih =>
    rw [settle]
    split
    · rename_i hd
      have hin : word (0 + word (d + Half)) = d + Half := by
        unfold Half at *
        rw [word_eq (x := d + 2 ^ 51) (by omega) (by omega), zero_add,
          word_eq (by omega) (by omega)]
      have hdigit : (d + Half) % Base - Half = d := by
        unfold Half Base at *
        omega
      have hzero : (d + Half) / Base = 0 := by
        unfold Half Base at *
        omega
      rw [carry, hin, hzero, ih, hdigit]
    · rfl

/-- Digits whose words leave room for a carry. -/
def Slack (ds : List Int) : Prop := ∀ d ∈ ds, -2 ^ 62 ≤ d ∧ d ≤ 2 ^ 62

/-- Carrying keeps the number, and what is left to carry is small. -/
theorem carry_spec : ∀ (ds : List Int) (val : Int), -2 ^ 12 ≤ val → val ≤ 2 ^ 12 → Slack ds →
    (carry val ds).1.length = ds.length ∧ Centered Half (carry val ds).1 ∧
    value (carry val ds).1 + Base ^ ds.length * (carry val ds).2 = val + value ds ∧
    -2 ^ 12 ≤ (carry val ds).2 ∧ (carry val ds).2 ≤ 2 ^ 12
  | [], val, hlow, hhigh, _ => by
    refine ⟨rfl, by simp [carry, Centered], ?_, hlow, hhigh⟩
    simp [carry]
  | d :: ds, val, hlow, hhigh, hds => by
    obtain ⟨hdlow, hdhigh⟩ := hds d (by simp)
    have hword : word (val + word (d + Half)) = val + (d + Half) := by
      unfold Half
      rw [word_eq (x := d + 2 ^ 51) (by omega) (by omega), word_eq (by omega) (by omega)]
    have hnext : -2 ^ 12 ≤ (val + (d + Half)) / Base ∧ (val + (d + Half)) / Base ≤ 2 ^ 12 := by
      unfold Half Base
      omega
    obtain ⟨hlen, hbal, hval, htop⟩ := carry_spec ds _ hnext.1 hnext.2
      (fun e he => hds e (List.mem_cons_of_mem _ he))
    rw [carry, hword]
    refine ⟨by simp [hlen], ?_, ?_, htop⟩
    · rw [centered_cons]
      refine ⟨?_, hbal⟩
      unfold Half Base
      omega
    · have hdigit := Int.emod_add_mul_ediv (val + (d + Half)) Base
      rw [value_cons, value_cons, List.length_cons, pow_succ]
      linear_combination Base * hval + hdigit

theorem grow_eq {val : Int} (hlow : -2 ^ 12 ≤ val) (hhigh : val ≤ 2 ^ 12) {room : Nat}
    (hroom : 0 < room) : grow val room = some (if val = 0 then [] else [val]) := by
  obtain ⟨room, rfl⟩ := Nat.exists_eq_succ_of_ne_zero hroom.ne'
  rw [grow]
  have hdigit : (val + Half) % Base - Half = val := by
    unfold Half Base
    omega
  have hzero : (val + Half) / Base = 0 := by
    unfold Half Base
    omega
  split
  · rfl
  · rw [hdigit, hzero]
    cases room with
    | zero => rfl
    | succ room => rfl

theorem trim_ne_nil {x : List Int} (hx : x ≠ []) : trim x ≠ [] := by
  cases x with
  | nil => exact absurd rfl hx
  | cons d ds =>
    rw [trim]
    split
    · simp
    · simp

theorem value_trim (x : List Int) : value (trim x) = value x := by
  induction x with
  | nil => rfl
  | cons d ds ih =>
    rw [trim]
    split
    · rename_i h
      obtain h | h := h
      · rw [h] at ih
        rw [value_cons, value_cons, ← ih, value_cons]
        rfl
      · rw [h]
    · rw [value_cons, value_cons, ih]

theorem centered_trim {x : List Int} (hx : Centered Half x) : Centered Half (trim x) := by
  induction x with
  | nil => exact hx
  | cons d ds ih =>
    obtain ⟨hd, hds⟩ := centered_cons.1 hx
    rw [trim]
    split
    · exact centered_cons.2 ⟨hd, by simp [Centered]⟩
    · exact centered_cons.2 ⟨hd, ih hds⟩

theorem length_trim_le (x : List Int) : (trim x).length ≤ x.length := by
  induction x with
  | nil => rfl
  | cons d ds ih =>
    rw [trim]
    split
    · simp
    · simpa using ih

theorem trim_top (x : List Int) : (trim x).length ≤ 1 ∨ (trim x).getLastD 0 ≠ 0 := by
  induction x with
  | nil => simp [trim]
  | cons d ds ih =>
    rw [trim]
    split
    · simp
    · rename_i h
      rw [not_or] at h
      right
      have hne := trim_ne_nil h.2
      -- the digits above keep their top digit
      obtain ⟨e, es, he⟩ := List.exists_cons_of_ne_nil hne
      obtain ih | ih := ih
      · have hes : es = [] := by simpa [he] using ih
        rw [he, hes] at h ⊢
        simpa using h.1
      · rw [he] at ih ⊢
        simpa using ih

/-- Digits in range, and a number in as many: normal once zeros at the top are gone. -/
theorem normal_trim {x : List Int} (hx : x ≠ []) (hlen : x.length ≤ wordCnt)
    (hbal : Centered Half x) : Normal (trim x) where
  length_pos := List.length_pos_iff.2 (trim_ne_nil hx)
  length_le_wordCnt := (length_trim_le x).trans hlen
  centered := centered_trim hbal
  top_ne := by
    have hpos := List.length_pos_iff.2 (trim_ne_nil hx)
    obtain h | h := trim_top x
    · exact .inl (by omega)
    · exact .inr h

/-- What normalizing does once the carries have been passed on. -/
theorem normalize_of_carry {x ds : List Int} {val : Int} (hx : x ≠ [])
    (hlen : x.length < wordCnt) (hcarry : carry 0 x = (ds, val)) (hlength : ds.length = x.length)
    (hbal : Centered Half ds) (hlow : -2 ^ 12 ≤ val) (hhigh : val ≤ 2 ^ 12) :
    Normal (normalize x) ∧ value (normalize x) = value ds + Base ^ x.length * val := by
  have hds : ds ≠ [] := by
    intro h
    rw [h] at hlength
    exact hx (List.length_eq_zero_iff.1 hlength.symm)
  rw [normalize, if_neg hx, settle_eq_carry, hcarry]
  simp only [grow_eq hlow hhigh (Nat.sub_pos_of_lt hlen)]
  by_cases hval : val = 0
  · rw [if_pos hval, List.append_nil]
    refine ⟨normal_trim hds (by omega) hbal, ?_⟩
    rw [value_trim, hval, mul_zero, add_zero]
  · rw [if_neg hval]
    refine ⟨normal_trim (by simp) (by simp; omega) ?_, ?_⟩
    · refine centered_append.2 ⟨hbal, ?_⟩
      refine centered_cons.2 ⟨?_, by simp [Centered]⟩
      unfold Half
      omega
    · rw [value_trim, value_append, hlength]
      simp

/-- Normalizing keeps the number when no word overflows. -/
theorem normalize_spec {d : Int} {ds : List Int} (hlen : ds.length + 1 < wordCnt)
    (hlow : -2 ^ 63 ≤ d + Half) (hhigh : d + Half < 2 ^ 63) (hds : Slack ds) :
    Normal (normalize (d :: ds)) ∧ value (normalize (d :: ds)) = value (d :: ds) := by
  have hword : word (0 + word (d + Half)) = d + Half := by
    rw [word_eq hlow hhigh, zero_add, word_eq hlow hhigh]
  have hnext : -2 ^ 12 ≤ (d + Half) / Base ∧ (d + Half) / Base ≤ 2 ^ 12 := by
    unfold Half Base at *
    omega
  obtain ⟨hlength, hbal, hval, htop⟩ := carry_spec ds _ hnext.1 hnext.2 hds
  have hcarry : carry 0 (d :: ds) = (((d + Half) % Base - Half) :: (carry ((d + Half) / Base) ds).1,
      (carry ((d + Half) / Base) ds).2) := by
    rw [carry, hword]
  have hdigit := Int.emod_add_mul_ediv (d + Half) Base
  obtain ⟨hnormal, hvalue⟩ := normalize_of_carry (by simp) (by simpa using hlen) hcarry
    (by simp [hlength]) (centered_cons.2 ⟨by unfold Half Base; omega, hbal⟩) htop.1 htop.2
  refine ⟨hnormal, ?_⟩
  rw [hvalue, value_cons, value_cons, List.length_cons, pow_succ]
  linear_combination Base * hval + hdigit

/-! ## Comparison -/

/-- Two digits hold every word. -/
theorem exists_two_digits {y : Int} (hlow : -2 ^ 63 ≤ y) (hhigh : y < 2 ^ 63) :
    ∃ ys : List Int, ys.length = 2 ∧ Centered Half ys ∧ value ys = y := by
  apply SignedDigits.exists_centered half_pos
  · simp only [SignedDigits.ones, Half]
    omega
  · simp only [SignedDigits.ones, Half]
    omega

namespace Normal

variable {x y : List Int}

theorem ne_nil (hx : Normal x) : x ≠ [] := List.length_pos_iff.1 hx.length_pos

/-- A normal number is one digit, or has a top digit over others that is not zero. -/
theorem cases_top (hx : Normal x) :
    (∃ d, x = [d]) ∨ ∃ low t, x = low ++ [t] ∧ t ≠ 0 ∧ 0 < low.length ∧ Centered Half low := by
  obtain ⟨low, t, rfl⟩ := List.eq_nil_or_concat x |>.resolve_left hx.ne_nil
  rw [List.concat_eq_append] at hx ⊢
  by_cases hlow : low = []
  · exact .inl ⟨t, by rw [hlow]; rfl⟩
  · right
    have hpos := List.length_pos_iff.2 hlow
    refine ⟨low, t, rfl, ?_, hpos, (centered_append.1 hx.centered).1⟩
    have htop := hx.top_ne
    simp only [List.length_append, List.length_singleton, List.getLastD_concat] at htop
    obtain h | h := htop
    · omega
    · exact h

/-- The top digit has the sign of the difference to any number with fewer digits. -/
theorem sign_sub_of_length_lt (hx : Normal x) (hlong : 1 < x.length) (hy : Centered Half y)
    (hlen : y.length < x.length) :
    (value x - value y).sign = if x.getLastD 0 < 0 then -1 else 1 := by
  obtain ⟨d, rfl⟩ | ⟨low, t, rfl, ht, -, hlow⟩ := hx.cases_top
  · exact absurd hlong (by simp)
  · have hle : y.length ≤ low.length := by simpa [Nat.lt_succ_iff] using hlen
    rw [List.getLastD_concat]
    obtain hneg | hpos := lt_or_gt_of_ne ht
    · rw [if_pos hneg, Int.sign_eq_neg_one_of_neg]
      have hlt : value (low ++ [t]) < value y := hlow.lt_of_top_neg half_pos hneg hy hle
      omega
    · rw [if_neg (by omega), Int.sign_eq_one_of_pos]
      have hlt : value y < value (low ++ [t]) := hlow.lt_of_top_pos half_pos hpos hy hle
      omega

theorem sgn_eq (hx : Normal x) : sgn x = (value x).sign := by
  obtain ⟨d, rfl⟩ | ⟨low, t, rfl, ht, hpos, hlow⟩ := hx.cases_top
  · rw [sgn, value_cons]
    simp
  · have hsign := hx.sign_sub_of_length_lt (y := []) (by simpa using hpos) (by simp [Centered])
      (by simp)
    rw [value_nil, sub_zero, List.getLastD_concat] at hsign
    rw [hsign, sgn, List.getLastD_concat]
    obtain hneg | hpos := lt_or_gt_of_ne ht
    · rw [if_pos hneg, Int.sign_eq_neg_one_of_neg hneg]
    · rw [if_neg (by omega), Int.sign_eq_one_of_pos hpos]

theorem cmpAny_eq (hx : Normal x) (hy : Normal y) :
    cmpAny x y = (value x - value y).sign := by
  rw [cmpAny]
  split
  · rename_i hlt
    have hone := hy.length_pos
    rw [hx.sign_sub_of_length_lt (by omega) hy.centered hlt]
  · split
    · rename_i hlt
      have hone := hx.length_pos
      have hsign := hy.sign_sub_of_length_lt (by omega) hx.centered hlt
      rw [← neg_sub, Int.sign_neg, hsign]
      have htop := hy.top_ne
      split
      · rw [if_neg (by omega)]
      · rw [if_pos (by omega), neg_neg]
    · exact SignedDigits.cmp_eq_sign half_pos hx.centered hy.centered (by omega)

/-- The comparison with a word is that of the numbers. -/
theorem cmpWord_eq (hx : Normal x) {w : Int} (hlow : -2 ^ 63 ≤ w) (hhigh : w < 2 ^ 63) :
    cmpWord x w = (value x - w).sign := by
  match x, hx with
  | [], hx => exact absurd hx.length_pos (by simp)
  | [d], hx => rw [cmpWord, value_cons]; simp
  | [d₀, d₁], hx =>
    rw [cmpWord]
    split
    · have h₀ := hx.centered d₀ (by simp)
      have h₁ := hx.centered d₁ (by simp)
      have hword : word (d₁ + d₀ / Base) = d₁ + d₀ / Base := by
        unfold Half Base at *
        exact word_eq (by omega) (by omega)
      have hvalue : value [d₀, d₁] = d₀ + Base * d₁ := by simp
      simp only [hword, hvalue]
      have hd := Int.emod_add_mul_ediv d₀ Base
      have hw := Int.emod_add_mul_ediv w Base
      split
      · rw [Int.sign_eq_neg_one_of_neg]
        unfold Base at *
        omega
      · split
        · rw [Int.sign_eq_one_of_pos]
          unfold Base at *
          omega
        · congr 1
          unfold Base at *
          omega
    · rename_i hin
      have hsign := hx.sign_sub_of_length_lt (y := [w]) (by simp)
        (centered_cons.2 ⟨by omega, by simp [Centered]⟩) (by simp)
      rw [value_cons w] at hsign
      simp only [value_nil, mul_zero, add_zero] at hsign
      rw [hsign]
      rfl
  | d₀ :: d₁ :: d₂ :: ds, hx =>
    have hdef : cmpWord (d₀ :: d₁ :: d₂ :: ds) w =
        if (d₀ :: d₁ :: d₂ :: ds).getLastD 0 < 0 then -1 else 1 := rfl
    obtain ⟨ys, hlen, hys, rfl⟩ := exists_two_digits hlow hhigh
    rw [hdef, hx.sign_sub_of_length_lt (by simp) hys (by rw [hlen]; simp)]

/-- A normal number has no more digits than it needs. -/
theorem length_le (hx : Normal x) {n : Nat} (hn : 0 < n)
    (hlow : -Half * SignedDigits.ones Half n ≤ value x)
    (hhigh : value x ≤ (Half - 1) * SignedDigits.ones Half n) : x.length ≤ n := by
  by_contra hlong
  obtain ⟨ys, hlen, hys, hvalue⟩ := SignedDigits.exists_centered half_pos n _ hlow hhigh
  have hsign := hx.sign_sub_of_length_lt (y := ys) (by omega) hys (by omega)
  rw [show value ys = value x from hvalue, sub_self, Int.sign_zero] at hsign
  split at hsign
  · omega
  · omega

/-- A number in the range of a word has at most two digits. -/
theorem length_le_two (hx : Normal x) (hlow : -2 ^ 63 ≤ value x) (hhigh : value x < 2 ^ 63) :
    x.length ≤ 2 := by
  apply hx.length_le (by decide)
  · simp only [SignedDigits.ones, Half]
    omega
  · simp only [SignedDigits.ones, Half]
    omega

theorem toLong_eq (hx : Normal x) (hlow : -2 ^ 63 ≤ value x) (hhigh : value x < 2 ^ 63) :
    toLong x = value x := by
  have hlen := hx.length_le_two hlow hhigh
  match x, hx with
  | [], hx => exact absurd hx.length_pos (by simp)
  | [d], hx => rw [toLong, value_cons]; simp
  | [d₀, d₁], hx =>
    have hvalue : value [d₀, d₁] = d₀ + d₁ * Base := by simp [mul_comm]
    have h₀ := hx.centered d₀ (by simp)
    rw [hvalue] at hlow hhigh ⊢
    have hword : word (d₀ + d₁ * Base) = d₀ + d₁ * Base := word_eq hlow hhigh
    have hexcess : word (word ((d₀ + d₁ * Base) % Base - d₀) / Base + (d₀ + d₁ * Base) / Base) =
        d₁ := by
      unfold Half Base at *
      rw [word_eq (x := (d₀ + d₁ * 2 ^ 52) % 2 ^ 52 - d₀) (by omega) (by omega),
        word_eq (by omega) (by omega)]
      omega
    simp only [toLong, hword, hexcess, excess, if_true, Option.isSome_some]
  | d₀ :: d₁ :: d₂ :: ds, hx => exact absurd hlen (by simp)

end Normal

theorem word_bounds (x : Int) : -2 ^ 63 ≤ word x ∧ word x < 2 ^ 63 := by
  have hlow := Int.le_bmod (x := x) (m := 2 ^ 64) (by decide)
  have hhigh := Int.bmod_lt (x := x) (m := 2 ^ 64) (by decide)
  unfold word
  omega

theorem slack_of_centered {ds : List Int} (hds : Centered Half ds) : Slack ds := by
  intro d hd
  have h := hds d hd
  unfold Half at h
  omega

theorem normalize_slack {x : List Int} (hx : x ≠ []) (hlen : x.length < wordCnt)
    (hslack : Slack x) : Normal (normalize x) ∧ value (normalize x) = value x := by
  obtain ⟨d, ds, rfl⟩ := List.exists_cons_of_ne_nil hx
  have hd := hslack d (by simp)
  apply normalize_spec
  · simpa using hlen
  · unfold Half
    omega
  · unfold Half
    omega
  · exact fun e he => hslack e (List.mem_cons_of_mem _ he)

/-- One word, normalized: the range that it keeps is not quite that of the word. -/
theorem normalize_word (p : Int) :
    Normal (normalize [word p]) ∧ value (normalize [word p]) = word (p + Half) - Half := by
  have hword : word (0 + word (word p + Half)) = word (p + Half) := by
    rw [zero_add]
    unfold word
    rw [Int.bmod_bmod, Int.bmod_add_bmod]
  have hbounds := word_bounds (p + Half)
  have hcarry : carry 0 [word p] =
      ([word (p + Half) % Base - Half], word (p + Half) / Base) := by
    rw [carry, hword, carry]
  obtain ⟨hnormal, hvalue⟩ := normalize_of_carry (by simp) (by simp [wordCnt]) hcarry rfl
    (centered_cons.2 ⟨by unfold Half Base; omega, by simp [Centered]⟩)
    (by unfold Base; omega) (by unfold Base; omega)
  refine ⟨hnormal, ?_⟩
  have hdigit := Int.emod_add_mul_ediv (word (p + Half)) Base
  rw [hvalue, value_cons, value_nil, List.length_singleton, pow_one]
  linarith

/-! ## Multiplication by a word -/

/-- The range in which the product of a one digit number is exact. -/
def ProductFits (g y : Int) : Prop :=
  if y ≤ MaxDenorm then g * y + Half < 2 ^ 63 else g * y < 2 ^ 114

theorem mulShort_single {g y : Int} (hp : 0 ≤ y * g) (hfits : y * g < 2 ^ 114) :
    mulShort [g] y = y * g % Base :: if y * g / Base = 0 then [] else [y * g / Base] := by
  have hhi : word (y * g / Base) = y * g / Base := by
    apply word_eq
    · unfold Base
      omega
    · unfold Base
      omega
  have hlo : word (y * g % Base + 0) = y * g % Base := by
    rw [add_zero]
    apply word_eq
    · unfold Base
      omega
    · unfold Base
      omega
  simp only [mulShort, mulLoop, hhi, hlo]
  rw [if_neg (by simp)]
  split
  · rfl
  · rw [if_pos (by simp [wordCnt])]
    rfl

theorem mulShortOpt_spec {g y : Int} (hg : 0 ≤ g) (hy : 0 ≤ y) (hfits : ProductFits g y) :
    Normal (normalize (mulShortOpt [g] y)) ∧ value (normalize (mulShortOpt [g] y)) = g * y := by
  have hp : 0 ≤ g * y := mul_nonneg hg hy
  unfold ProductFits at hfits
  by_cases hsmall : y ≤ MaxDenorm
  · rw [if_pos hsmall] at hfits
    have hdef : mulShortOpt [g] y = [word (g * y)] := by
      rw [mulShortOpt, if_pos ⟨hsmall, by unfold MaxDenorm; omega⟩]
      rfl
    obtain ⟨hnormal, hvalue⟩ := normalize_word (g * y)
    rw [hdef]
    refine ⟨hnormal, ?_⟩
    rw [hvalue, word_eq (by unfold Half; omega) hfits]
    omega
  · rw [if_neg hsmall] at hfits
    rw [mul_comm] at hp hfits
    have hdef : mulShortOpt [g] y = mulShort [g] y := by
      rw [mulShortOpt, if_neg (fun h => hsmall h.1)]
    have hdigit := Int.emod_add_mul_ediv (y * g) Base
    rw [hdef, mulShort_single hp hfits, mul_comm g y]
    split
    · rename_i hzero
      obtain ⟨hnormal, hvalue⟩ := normalize_slack (x := [y * g % Base]) (by simp)
        (by simp [wordCnt]) (by
        intro d hd
        rw [List.mem_singleton.1 hd]
        unfold Base
        omega)
      refine ⟨hnormal, ?_⟩
      rw [hvalue, value_cons, value_nil]
      rw [hzero] at hdigit
      linarith
    · obtain ⟨hnormal, hvalue⟩ := normalize_slack (x := [y * g % Base, y * g / Base]) (by simp)
        (by simp [wordCnt]) (by
        intro d hd
        simp only [List.mem_cons, List.not_mem_nil, or_false] at hd
        obtain rfl | rfl := hd
        · unfold Base
          omega
        · unfold Base
          omega)
      refine ⟨hnormal, ?_⟩
      rw [hvalue, value_cons, value_cons, value_nil]
      linarith

/-- A small factor whose product leaves the range: the word wraps. -/
theorem mulShortOpt_wraps {g y : Int} (hy : 0 ≤ y) (hsmall : y ≤ MaxDenorm)
    (hlow : 2 ^ 63 ≤ g * y + Half) (hhigh : g * y + Half < 2 ^ 64 + 2 ^ 63) :
    Normal (normalize (mulShortOpt [g] y)) ∧
      value (normalize (mulShortOpt [g] y)) = g * y - 2 ^ 64 := by
  have hdef : mulShortOpt [g] y = [word (g * y)] := by
    rw [mulShortOpt, if_pos ⟨hsmall, by unfold MaxDenorm; omega⟩]
    rfl
  obtain ⟨hnormal, hvalue⟩ := normalize_word (g * y)
  rw [hdef]
  refine ⟨hnormal, ?_⟩
  rw [hvalue, word_eq_sub hlow hhigh]
  omega

/-! ## Addition -/

theorem add_single {x : List Int} (hx : x ≠ []) (y : Int) : add x [y] = addTiny x y := by
  obtain ⟨d, ds, rfl⟩ := List.exists_cons_of_ne_nil hx
  rw [add, if_neg (by simp), addDigits, addTiny]
  cases ds with
  | nil => rfl
  | cons e es => rfl

theorem addTiny_spec {x : List Int} (hx : Normal x) (hlen : x.length < wordCnt) {y : Int}
    (hlow : -2 ^ 62 ≤ y) (hhigh : y ≤ 2 ^ 62) :
    Normal (normalize (addTiny x y)) ∧ value (normalize (addTiny x y)) = value x + y := by
  obtain ⟨d, ds, rfl⟩ := List.exists_cons_of_ne_nil hx.ne_nil
  obtain ⟨hd, hds⟩ := centered_cons.1 hx.centered
  have hword : word (d + y) = d + y := by
    unfold Half at hd
    exact word_eq (by omega) (by omega)
  rw [addTiny, hword]
  obtain ⟨hnormal, hvalue⟩ := normalize_spec (d := d + y) (by simpa using hlen)
    (by unfold Half at *; omega) (by unfold Half at *; omega) (slack_of_centered hds)
  refine ⟨hnormal, ?_⟩
  rw [hvalue, value_cons, value_cons]
  omega

theorem slack_cons {d : Int} {ds : List Int} :
    Slack (d :: ds) ↔ (-2 ^ 62 ≤ d ∧ d ≤ 2 ^ 62) ∧ Slack ds := by
  simp [Slack]

theorem slack_append {xs ys : List Int} : Slack (xs ++ ys) ↔ Slack xs ∧ Slack ys := by
  simp only [Slack, List.mem_append]
  constructor
  · intro hall
    exact ⟨fun d hd => hall d (.inl hd), fun d hd => hall d (.inr hd)⟩
  · intro hall d hd
    obtain hd | hd := hd
    · exact hall.1 d hd
    · exact hall.2 d hd

/-! ## Shifts -/

theorem rshiftLoop_spec : ∀ (ds : List Int) (v : Int), -2 ^ 52 ≤ v → v ≤ 2 ^ 52 →
    Centered Half ds → (rshiftLoop 16 v ds).length = ds.length + 1 ∧
      Slack (rshiftLoop 16 v ds) ∧ value (rshiftLoop 16 v ds) = v + 2 ^ 36 * value ds
  | [], v, hlow, hhigh, _ => by
    refine ⟨rfl, ?_, by simp [rshiftLoop]⟩
    rw [rshiftLoop, slack_cons]
    exact ⟨by omega, by simp [Slack]⟩
  | w :: ds, v, hlow, hhigh, hds => by
    obtain ⟨hw, hds⟩ := centered_cons.1 hds
    unfold Half at hw
    have hnext : -2 ^ 52 ≤ w / 2 ^ 16 ∧ w / 2 ^ 16 ≤ 2 ^ 52 := by omega
    have hword : word (v + w % 2 ^ 16 * 2 ^ (52 - 16)) = v + w % 2 ^ 16 * 2 ^ 36 :=
      word_eq (by omega) (by omega)
    obtain ⟨hlen, hslack, hvalue⟩ := rshiftLoop_spec ds _ hnext.1 hnext.2 hds
    rw [rshiftLoop, hword]
    refine ⟨by rw [List.length_cons, hlen, List.length_cons],
      slack_cons.2 ⟨by omega, hslack⟩, ?_⟩
    have hdigit := Int.emod_add_mul_ediv w (2 ^ 16)
    rw [value_cons, value_cons, hvalue, Base]
    linear_combination 2 ^ 36 * hdigit

/-- The shift by 16 divides by 2^16 and rounds up. -/
theorem rshiftCeil_spec {x : List Int} (hx : Normal x) (hlen : x.length < wordCnt) :
    Normal (normalize (rshiftCeil 16 x)) ∧
      value (normalize (rshiftCeil 16 x)) = -(-value x / 2 ^ 16) := by
  obtain ⟨d, ds, rfl⟩ := List.exists_cons_of_ne_nil hx.ne_nil
  obtain ⟨hd, hds⟩ := centered_cons.1 hx.centered
  unfold Half at hd
  have hword : word (d - 1) = d - 1 := word_eq (by omega) (by omega)
  obtain ⟨hlength, hslack, hvalue⟩ := rshiftLoop_spec ds ((d - 1) / 2 ^ 16 + 1)
    (by omega) (by omega) hds
  rw [rshiftCeil, hword]
  obtain ⟨hnormal, hnorm⟩ := normalize_slack (List.ne_nil_of_length_pos (by omega))
    (by rw [hlength]; simpa using hlen) hslack
  refine ⟨hnormal, ?_⟩
  -- only the lowest digit is rounded, the others are whole multiples
  rw [hnorm, hvalue, value_cons, Base]
  omega

theorem lshiftLoop_spec : ∀ (ds : List Int) (v : Int), -2 ^ 16 ≤ v → v ≤ 2 ^ 16 →
    Centered Half ds → (lshiftLoop 16 v ds).1.length = ds.length ∧
      Slack (lshiftLoop 16 v ds).1 ∧
      value (lshiftLoop 16 v ds).1 + Base ^ ds.length * (lshiftLoop 16 v ds).2 =
        v + 2 ^ 16 * value ds ∧
      -2 ^ 16 ≤ (lshiftLoop 16 v ds).2 ∧ (lshiftLoop 16 v ds).2 ≤ 2 ^ 16
  | [], v, hlow, hhigh, _ => by
    refine ⟨rfl, by simp [lshiftLoop, Slack], by simp [lshiftLoop], hlow, hhigh⟩
  | w :: ds, v, hlow, hhigh, hds => by
    obtain ⟨hw, hds⟩ := centered_cons.1 hds
    unfold Half at hw
    have hnext : -2 ^ 16 ≤ w / 2 ^ 36 ∧ w / 2 ^ 36 ≤ 2 ^ 16 := by omega
    have hword : word (v + w % 2 ^ 36 * 2 ^ 16) = v + w % 2 ^ 36 * 2 ^ 16 :=
      word_eq (by omega) (by omega)
    have hdef : lshiftLoop 16 v (w :: ds) = ((v + w % 2 ^ 36 * 2 ^ 16) ::
        (lshiftLoop 16 (w / 2 ^ 36) ds).1, (lshiftLoop 16 (w / 2 ^ 36) ds).2) := by
      rw [← hword]
      rfl
    obtain ⟨hlen, hslack, hvalue, htop⟩ := lshiftLoop_spec ds _ hnext.1 hnext.2 hds
    rw [hdef]
    refine ⟨by rw [List.length_cons, hlen, List.length_cons],
      slack_cons.2 ⟨by omega, hslack⟩, ?_, htop⟩
    have hdigit := Int.emod_add_mul_ediv w (2 ^ 36)
    have hbase : Base = 2 ^ 16 * 2 ^ 36 := by decide
    rw [value_cons, value_cons, List.length_cons, pow_succ Base]
    linear_combination Base * hvalue + 2 ^ 16 * hdigit + (w / 2 ^ 36) * hbase

theorem lshift_spec {x : List Int} (hx : Normal x) (hlen : x.length + 1 < wordCnt) :
    Normal (normalize (lshift 16 x)) ∧ value (normalize (lshift 16 x)) = 2 ^ 16 * value x := by
  obtain ⟨hlength, hslack, hvalue, htop⟩ := lshiftLoop_spec x 0 (by omega) (by omega) hx.centered
  have hpos := hx.length_pos
  rw [zero_add] at hvalue
  rw [lshift]
  generalize lshiftLoop 16 0 x = r at *
  by_cases hzero : r.2 = 0
  · obtain ⟨hnormal, hnorm⟩ := normalize_slack (x := r.1)
      (List.ne_nil_of_length_pos (by omega)) (by omega) hslack
    simp only [hzero, if_true]
    refine ⟨hnormal, ?_⟩
    rw [hnorm, ← hvalue, hzero, mul_zero, add_zero]
  · obtain ⟨hnormal, hnorm⟩ := normalize_slack (x := r.1 ++ [r.2]) (by simp) (by simp; omega)
      (slack_append.2 ⟨hslack, slack_cons.2 ⟨by omega, by simp [Slack]⟩⟩)
    simp only [hzero, if_false, if_pos (show r.1.length < wordCnt by omega)]
    refine ⟨hnormal, ?_⟩
    rw [hnorm, value_append, hlength, ← hvalue]
    simp

/-! ## Division by one digit -/

/-- One step down: the quotient digit fits a word and the remainder stays below the divisor. -/
theorem divStep_spec {x y : Int} (hy : 0 < y) (hlow : -(y * Base) < x) (hhigh : x < y * Base) :
    (-Base ≤ x.tdiv y ∧ x.tdiv y ≤ Base) ∧ (-y < x.tmod y ∧ x.tmod y < y) ∧
      y * x.tdiv y + x.tmod y = x := by
  have heq := Int.mul_tdiv_add_tmod x y
  have habs : |x.tmod y| < y := by
    rw [Int.abs_eq_natAbs, Int.natAbs_tmod]
    have hmod := Nat.mod_lt x.natAbs (y := y.natAbs) (by omega)
    omega
  rw [abs_lt] at habs
  refine ⟨⟨?_, ?_⟩, habs, heq⟩
  · by_contra h
    have hq : x.tdiv y + Base ≤ -1 := by omega
    nlinarith
  · by_contra h
    have hq : 1 ≤ x.tdiv y - Base := by omega
    nlinarith

theorem divLoop_spec {y : Int} (hy : 0 < y) (hword : y < 2 ^ 63) : ∀ (ds : List Int) (rem : Int),
    -y < rem → rem < y → Centered Half ds →
    (divLoop y rem ds).1.length = ds.length ∧
      (∀ q ∈ (divLoop y rem ds).1, -Base ≤ q ∧ q ≤ Base) ∧
      y * value (divLoop y rem ds).1 + (divLoop y rem ds).2 =
        value ds + Base ^ ds.length * rem ∧
      -y < (divLoop y rem ds).2 ∧ (divLoop y rem ds).2 < y
  | [], rem, hlow, hhigh, _ => by
    exact ⟨rfl, by simp [divLoop], by simp [divLoop], hlow, hhigh⟩
  | d :: ds, rem, hlow, hhigh, hds => by
    obtain ⟨hd, hds⟩ := centered_cons.1 hds
    obtain ⟨hlen, hslack, hvalue, hrem⟩ := divLoop_spec hy hword ds rem hlow hhigh hds
    rw [divLoop]
    generalize divLoop y rem ds = r at *
    obtain ⟨hq, hr, heq⟩ := divStep_spec (x := r.2 * Base + d) hy
      (by unfold Half Base at *; omega) (by unfold Half Base at *; omega)
    have hbase : Base = 2 ^ 52 := rfl
    simp only
    rw [word_eq (x := (r.2 * Base + d).tdiv y) (by omega) (by omega),
      word_eq (x := (r.2 * Base + d).tmod y) (by omega) (by omega)]
    refine ⟨by rw [List.length_cons, hlen, List.length_cons],
      List.forall_mem_cons.2 ⟨hq, hslack⟩, ?_, hr⟩
    rw [value_cons, value_cons, List.length_cons, pow_succ]
    linear_combination Base * hvalue + heq

theorem slack_trim {x : List Int} (hx : Slack x) : Slack (trim x) := by
  induction x with
  | nil => exact hx
  | cons d ds ih =>
    obtain ⟨hd, hds⟩ := slack_cons.1 hx
    rw [trim]
    split
    · exact slack_cons.2 ⟨hd, by simp [Slack]⟩
    · exact slack_cons.2 ⟨hd, ih hds⟩

/-- The loop starts below the top digit, when that is the first remainder, or at it. -/
theorem divStart_spec {x : List Int} (hx : Normal x) {y : Int} (hy : 0 < y) (hword : y < 2 ^ 63) :
    ∃ r : List Int × Int,
      (if 1 < x.length ∧ word (|x.getLastD 0| * 2) < |y| then divLoop y (x.getLastD 0) x.dropLast
        else divLoop y 0 x) = r ∧
      r.1 ≠ [] ∧ r.1.length ≤ x.length ∧ (∀ q ∈ r.1, -Base ≤ q ∧ q ≤ Base) ∧
      y * value r.1 + r.2 = value x ∧ -y < r.2 ∧ r.2 < y := by
  refine ⟨_, rfl, ?_⟩
  have hpos := hx.length_pos
  split
  · rename_i htop
    obtain ⟨d, rfl⟩ | ⟨low, t, rfl, -, hlow, hcentered⟩ := hx.cases_top
    · exact absurd htop.1 (by simp)
    · rw [List.getLastD_concat] at htop ⊢
      rw [List.dropLast_concat]
      have ht := hx.centered t (by simp)
      unfold Half at ht
      have habs : word (|t| * 2) = |t| * 2 := by
        have h := abs_le.2 (show -2 ^ 51 ≤ t ∧ t ≤ 2 ^ 51 by omega)
        have hnonneg := abs_nonneg t
        exact word_eq (by omega) (by omega)
      rw [habs, abs_of_pos hy] at htop
      obtain ⟨htlow, hthigh⟩ := abs_lt.1 (show |t| < y by have := abs_nonneg t; omega)
      obtain ⟨hlen, hq, hvalue, hrem⟩ := divLoop_spec hy hword low t htlow hthigh hcentered
      refine ⟨List.ne_nil_of_length_pos (by omega), by simp [hlen], hq, ?_, hrem⟩
      rw [hvalue, value_append]
      simp
  · obtain ⟨hlen, hq, hvalue, hrem⟩ := divLoop_spec hy hword x 0 (by omega) hy hx.centered
    refine ⟨List.ne_nil_of_length_pos (by omega), by omega, hq, ?_, hrem⟩
    rw [hvalue, mul_zero, add_zero]

/-- Division by a positive digit rounds down. -/
theorem divShort_spec {x : List Int} (hx : Normal x) (hlen : x.length < wordCnt) {y : Int}
    (hy : 0 < y) (hword : y < 2 ^ 63) :
    Normal (divShort x y) ∧ value (divShort x y) = value x / y := by
  obtain ⟨r, hr, hne, hle, hq, hvalue, hlow, hhigh⟩ := divStart_spec hx hy hword
  have hquot : ∃ qs : List Int, (divmodShort x y).1 = trim qs ∧ qs ≠ [] ∧ qs.length ≤ x.length ∧
      Slack qs ∧ value qs = value x / y := by
    simp only [divmodShort, hr]
    split
    · -- the remainder was negative
      rename_i hneg
      obtain ⟨q, qs, hqs⟩ := List.exists_cons_of_ne_nil hne
      rw [hqs] at hq hvalue hle
      obtain ⟨hq, hqs⟩ := List.forall_mem_cons.1 hq
      unfold Base at hq hqs
      have hsub : word (q + -1) = q + -1 := word_eq (by omega) (by omega)
      refine ⟨(q + -1) :: qs, ?_, by simp, by simpa using hle, ?_, ?_⟩
      · rw [‹r.1 = q :: qs›, addTiny, hsub]
      · refine slack_cons.2 ⟨by omega, fun e he => ?_⟩
        have h := hqs e he
        omega
      · symm
        rw [value_cons] at hvalue ⊢
        have hr : value x - y * (q + -1 + Base * value qs) = r.2 + y := by linarith
        have hneg : r.2 < 0 := hneg.2.2 (by omega)
        exact ((Int.ediv_emod_unique (r := r.2 + y) hy).2 ⟨by linarith, by omega, by omega⟩).1
    · rename_i hnonneg
      refine ⟨r.1, rfl, hne, hle, ?_, ?_⟩
      · intro q hq'
        have h := hq q hq'
        unfold Base at h
        omega
      · symm
        have hr : 0 ≤ r.2 := by
          by_contra h
          exact hnonneg ⟨by omega, by omega⟩
        exact ((Int.ediv_emod_unique hy).2 ⟨by linarith, hr, hhigh⟩).1
  obtain ⟨qs, hqs, hne, hle, hslack, hvalue⟩ := hquot
  have hlength := length_trim_le qs
  rw [divShort, if_neg (by simp [hx.ne_nil, hy.ne']), hqs]
  obtain ⟨hnormal, hnorm⟩ := normalize_slack (trim_ne_nil hne) (by omega) (slack_trim hslack)
  refine ⟨hnormal, ?_⟩
  rw [hnorm, value_trim, hvalue]

end BigIntG
