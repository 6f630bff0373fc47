import TopWallets.BigIntDigits

/- What gas costs and how much of it a balance buys: the gas functions of `CalcFee.cpp`.

   Gas up to the flat limit has one price; more of it costs a number of 1/2^16 nanograms,
   rounded up, and a balance buys a whole number of it, rounded down. The two rounded
   functions are adjoint (`gc_fee`), so that what a balance buys is the most it can pay
   for, as long as the numbers are exact (`consistent_of_priceFits`).

   They are not always: `RefInt256{true, cfg.gas_price}` does not normalize, and a small
   amount of gas multiplies that one word in place. Where the product leaves the word, the
   price falls below the flat one (`computeGasPrice_wraps`).

   Correspondence (C++ ↔ Lean):
     `block::GasLimitsPrices`   ↔ `GasLimitsPrices`
     `RefInt256{true, x}`       ↔ `refInt`
     `compute_threshold`        ↔ `computeThreshold`
     `gas_bought_for`           ↔ `gasBoughtFor`
     `compute_gas_price`        ↔ `computeGasPrice` -/
namespace CalcFee
open BigIntG

/-- The prices, in words of 64 bits. -/
structure GasLimitsPrices where
  flatGasLimit : Nat
  flatGasPrice : Nat
  gasPrice : Nat
  gasLimit : Nat

/-- A number of one word, as it is. -/
def refInt (x : Nat) : List Int := [word x]

variable (cfg : GasLimitsPrices)

/-- `rshift(gas_price256 * gas, 16, 1)`. -/
def gasFee (gas : Nat) : List Int :=
  normalize (rshiftCeil 16 (normalize (mulShortOpt (refInt cfg.gasPrice) (word gas))))

def computeThreshold : List Int :=
  if cfg.gasLimit > cfg.flatGasLimit then
    normalize (add (gasFee cfg (cfg.gasLimit - cfg.flatGasLimit)) (refInt cfg.flatGasPrice))
  else refInt cfg.flatGasPrice

/-- `none` is the null reference. -/
def gasBoughtFor (nanograms : Option (List Int)) (maxGasThreshold : List Int) : Nat :=
  match nanograms with
  | none => 0
  | some nanograms =>
    if sgn nanograms < 0 then 0
    else if cmpAny nanograms maxGasThreshold ≥ 0 then cfg.gasLimit
    else if cmpWord nanograms (word cfg.flatGasPrice) < 0 then 0
    else
      let res := normalize (divShort
        (normalize (lshift 16 (normalize (addTiny nanograms (-word cfg.flatGasPrice)))))
        (word cfg.gasPrice))
      ((toLong res + cfg.flatGasLimit) % 2 ^ 64).toNat

def computeGasPrice (gasUsed : Nat) : List Int :=
  if gasUsed ≤ cfg.flatGasLimit then refInt cfg.flatGasPrice
  else normalize (addTiny (gasFee cfg (gasUsed - cfg.flatGasLimit)) (word cfg.flatGasPrice))

/-! ## What the prices are for -/

/-- The gas that a balance buys under the threshold of the prices. -/
def bought (n : List Int) : Nat := gasBoughtFor cfg (some n) (computeThreshold cfg)

/-- None of the returns before the division is taken. -/
def Divides (n : List Int) : Prop :=
  ¬ sgn n < 0 ∧ ¬ cmpAny n (computeThreshold cfg) ≥ 0 ∧ ¬ cmpWord n (word cfg.flatGasPrice) < 0

/-- A balance. -/
def IsBalance (n : List Int) : Prop := Normal n ∧ 0 ≤ value n

/-- Buying and paying for gas agree. -/
structure Consistent : Prop where
  divides : ∀ n, IsBalance n → Divides cfg n → cfg.gasPrice ≠ 0
  le_limit : ∀ n, IsBalance n → bought cfg n ≤ cfg.gasLimit
  price_le : ∀ n, IsBalance n → (cfg.flatGasPrice : Int) ≤ value n →
    value (computeGasPrice cfg (bought cfg n)) ≤ value n
  lt_price : ∀ n, IsBalance n → (cfg.flatGasPrice : Int) ≤ value n →
    bought cfg n < cfg.gasLimit → value n < value (computeGasPrice cfg (bought cfg n + 1))
  bought_mono : ∀ n m, IsBalance n → IsBalance m → value n ≤ value m →
    bought cfg n ≤ bought cfg m
  price_mono : ∀ a b, a ≤ b → b < 2 ^ 62 →
    value (computeGasPrice cfg a) ≤ value (computeGasPrice cfg b)

/-- The parameters are below 2^62, and the flat limit is not above the limit. -/
structure InRange : Prop where
  flatGasLimit_lt : cfg.flatGasLimit < 2 ^ 62
  flatGasPrice_lt : cfg.flatGasPrice < 2 ^ 62
  gasPrice_lt : cfg.gasPrice < 2 ^ 62
  gasLimit_lt : cfg.gasLimit < 2 ^ 62
  flat_le : cfg.flatGasLimit ≤ cfg.gasLimit

/-- The price of every amount that is multiplied in place stays in its word, with the room
    that normalizing takes. -/
def PriceFits : Prop :=
  cfg.gasPrice * min (2 ^ 11) (2 ^ 62 - 1 - cfg.flatGasLimit) + 2 ^ 51 < 2 ^ 63

instance : Decidable (PriceFits cfg) := inferInstanceAs (Decidable (_ < _))

/-! ## The exact functions -/

/-- The price of an amount of gas, rounded up. -/
def fee (g gas : Int) : Int := -(-(g * gas) / 2 ^ 16)

/-- The gas for a sum, rounded down. -/
def amount (g m : Int) : Int := 2 ^ 16 * m / g

theorem fee_le_iff (g gas m : Int) : fee g gas ≤ m ↔ g * gas ≤ 2 ^ 16 * m := by
  unfold fee
  omega

theorem le_amount_iff {g : Int} (hg : 0 < g) (gas m : Int) :
    gas ≤ amount g m ↔ g * gas ≤ 2 ^ 16 * m := by
  rw [amount, Int.le_ediv_iff_mul_le hg, mul_comm]

/-- What a sum buys is the most it can pay for. -/
theorem gc_fee {g : Int} (hg : 0 < g) : GaloisConnection (fee g) (amount g) := by
  intro gas m
  rw [fee_le_iff, le_amount_iff hg]

theorem lt_fee_succ {g : Int} (hg : 0 < g) (m : Int) : m < fee g (amount g m + 1) := by
  by_contra h
  have hle := (gc_fee hg _ _).1 (not_lt.1 h)
  omega

theorem fee_mono {g : Int} (hg : 0 ≤ g) : Monotone (fee g) := by
  intro a b hab
  have hmul := mul_le_mul_of_nonneg_left hab hg
  unfold fee
  omega

theorem fee_nonneg {g a : Int} (hg : 0 ≤ g) (ha : 0 ≤ a) : 0 ≤ fee g a := by
  have hmul := mul_nonneg hg ha
  unfold fee
  omega

variable {cfg}

/-! ## The code computes the exact functions -/

theorem word_natCast {x : Nat} (hx : x < 2 ^ 62) : word x = x := word_eq (by omega) (by omega)

theorem value_refInt {x : Nat} (hx : x < 2 ^ 62) : value (refInt x) = x := by
  rw [refInt, word_natCast hx]
  simp

theorem productFits (hfits : PriceFits cfg) {a : Nat}
    (hgas : cfg.flatGasLimit + a < 2 ^ 62) : ProductFits cfg.gasPrice a := by
  unfold PriceFits at hfits
  unfold ProductFits MaxDenorm Half
  split
  · rename_i hsmall
    have hmin : a ≤ min (2 ^ 11) (2 ^ 62 - 1 - cfg.flatGasLimit) := by omega
    have hmul := Nat.mul_le_mul_left cfg.gasPrice hmin
    have hcast : (cfg.gasPrice : Int) * a = ((cfg.gasPrice * a : Nat) : Int) := by simp
    omega
  · -- with a larger amount in range the price is below 2^52
    rename_i hlarge
    have hmin : min (2 ^ 11) (2 ^ 62 - 1 - cfg.flatGasLimit) = 2 ^ 11 := by omega
    rw [hmin] at hfits
    have hmul : cfg.gasPrice * a ≤ 2 ^ 52 * a := Nat.mul_le_mul_right a (by omega)
    have hcast : (cfg.gasPrice : Int) * a = ((cfg.gasPrice * a : Nat) : Int) := by simp
    omega

/-- The product is below 2^124 in any case, so the fee has few digits. -/
theorem length_lt_of_value {x : List Int} (hx : Normal x) (hlow : -2 ^ 150 ≤ value x)
    (hhigh : value x ≤ 2 ^ 150) : x.length ≤ 3 := by
  apply hx.length_le (by decide)
  · simp only [SignedDigits.ones, Half]
    omega
  · simp only [SignedDigits.ones, Half]
    omega

/-- The rounding and the sum that follow a product are exact. -/
theorem gasFee_of_product {a : Nat} {p : Int} (hgas : a < 2 ^ 62) (hlow : -2 ^ 125 ≤ p)
    (hhigh : p ≤ 2 ^ 125)
    (hproduct : Normal (normalize (mulShortOpt (refInt cfg.gasPrice) a)) ∧
      value (normalize (mulShortOpt (refInt cfg.gasPrice) a)) = p) :
    Normal (gasFee cfg a) ∧ value (gasFee cfg a) = -(-p / 2 ^ 16) ∧
      (gasFee cfg a).length < wordCnt := by
  obtain ⟨hnormal, hvalue⟩ := hproduct
  have hlen := length_lt_of_value hnormal (by omega) (by omega)
  obtain ⟨hfee, hval⟩ := rshiftCeil_spec hnormal (by unfold wordCnt; omega)
  rw [gasFee, word_natCast hgas]
  rw [hvalue] at hval
  have hshort := length_lt_of_value hfee (by omega) (by omega)
  exact ⟨hfee, hval, by unfold wordCnt; omega⟩

theorem gasFee_spec (hcfg : InRange cfg) (hfits : PriceFits cfg) {a : Nat}
    (hgas : cfg.flatGasLimit + a < 2 ^ 62) :
    Normal (gasFee cfg a) ∧ value (gasFee cfg a) = fee cfg.gasPrice a ∧
      (gasFee cfg a).length < wordCnt := by
  have hg := hcfg.gasPrice_lt
  have hproduct := mulShortOpt_spec (g := cfg.gasPrice) (y := a) (by omega) (by omega)
    (productFits hfits hgas)
  rw [← word_natCast hg, ← refInt, word_natCast hg] at hproduct
  have hnonneg : 0 ≤ cfg.gasPrice * a := Nat.zero_le _
  have hbound : cfg.gasPrice * a ≤ 2 ^ 62 * 2 ^ 62 := Nat.mul_le_mul hg.le (by omega)
  have hcast : (cfg.gasPrice : Int) * a = ((cfg.gasPrice * a : Nat) : Int) := by simp
  exact gasFee_of_product (by omega) (by omega) (by omega) hproduct

theorem value_computeGasPrice (hcfg : InRange cfg) (hfits : PriceFits cfg) {a : Nat}
    (hgas : a < 2 ^ 62) :
    value (computeGasPrice cfg a) =
      cfg.flatGasPrice + fee cfg.gasPrice (a - cfg.flatGasLimit : Nat) := by
  have hP := hcfg.flatGasPrice_lt
  rw [computeGasPrice]
  split
  · rename_i hflat
    rw [value_refInt hP, Nat.sub_eq_zero_of_le hflat]
    simp [fee]
  · obtain ⟨hnormal, hvalue, hlen⟩ :=
      gasFee_spec hcfg hfits (a := a - cfg.flatGasLimit) (by omega)
    rw [word_natCast hP, (addTiny_spec hnormal hlen (by omega) (by omega)).2, hvalue, add_comm]

theorem computeThreshold_spec (hcfg : InRange cfg) (hfits : PriceFits cfg)
    (hlt : cfg.flatGasLimit < cfg.gasLimit) :
    Normal (computeThreshold cfg) ∧ value (computeThreshold cfg) =
      cfg.flatGasPrice + fee cfg.gasPrice (cfg.gasLimit - cfg.flatGasLimit : Nat) := by
  have hP := hcfg.flatGasPrice_lt
  have hL := hcfg.gasLimit_lt
  obtain ⟨hnormal, hvalue, hlen⟩ :=
    gasFee_spec hcfg hfits (a := cfg.gasLimit - cfg.flatGasLimit) (by omega)
  rw [computeThreshold, if_pos hlt, refInt, add_single hnormal.ne_nil, word_natCast hP]
  obtain ⟨hsum, hval⟩ := addTiny_spec hnormal hlen (y := cfg.flatGasPrice) (by omega) (by omega)
  exact ⟨hsum, by rw [hval, hvalue, add_comm]⟩

/-- What the division computes, for a sum between the flat price and the threshold. -/
theorem bought_of_divides (hcfg : InRange cfg) {n : List Int} (hn : Normal n)
    (hg : 0 < cfg.gasPrice) (hlow : (cfg.flatGasPrice : Int) ≤ value n)
    (hhigh : value n ≤ 2 ^ 130)
    (hamount : amount cfg.gasPrice (value n - cfg.flatGasPrice) < 2 ^ 62) :
    ((toLong (normalize (divShort (normalize (lshift 16 (normalize
      (addTiny n (-word cfg.flatGasPrice))))) (word cfg.gasPrice))) + cfg.flatGasLimit) %
        2 ^ 64).toNat = cfg.flatGasLimit + amount cfg.gasPrice (value n - cfg.flatGasPrice) := by
  have hP := hcfg.flatGasPrice_lt
  have hF := hcfg.flatGasLimit_lt
  have hG := hcfg.gasPrice_lt
  have hlen := length_lt_of_value hn (by omega) (by omega)
  rw [word_natCast hP, word_natCast hG]
  obtain ⟨hsub, hsubval⟩ := addTiny_spec hn (y := -cfg.flatGasPrice) (by unfold wordCnt; omega)
    (by omega) (by omega)
  have hsublen := length_lt_of_value hsub (by omega) (by omega)
  obtain ⟨hshift, hshiftval⟩ := lshift_spec hsub (by unfold wordCnt; omega)
  have hshiftlen := length_lt_of_value hshift (by omega) (by omega)
  obtain ⟨hdiv, hdivval⟩ := divShort_spec hshift (y := cfg.gasPrice) (by unfold wordCnt; omega)
    (by omega) (by omega)
  have hquot : value (divShort (normalize (lshift 16 (normalize (addTiny n (-cfg.flatGasPrice)))))
      cfg.gasPrice) = amount cfg.gasPrice (value n - cfg.flatGasPrice) := by
    rw [hdivval, hshiftval, hsubval, amount, sub_eq_add_neg]
  have hnonneg : 0 ≤ amount cfg.gasPrice (value n - cfg.flatGasPrice) := by
    rw [le_amount_iff (by omega)]
    omega
  have hdivlen := length_lt_of_value hdiv (by omega) (by omega)
  obtain ⟨hres, hresval⟩ := normalize_slack hdiv.ne_nil (by unfold wordCnt; omega)
    (slack_of_centered hdiv.centered)
  rw [hquot] at hresval
  rw [hres.toLong_eq (by omega) (by omega), hresval]
  omega

/-- Below the threshold there is a price for gas, and less gas is bought than the limit. -/
theorem amount_lt_of_lt_threshold {g D m : Int} (hg : 0 ≤ g) (hm : 0 ≤ m) (hlt : m < fee g D) :
    0 < g ∧ amount g m < D := by
  have hpos : 0 < g := by
    obtain rfl | hpos := hg.eq_or_lt
    · simp [fee] at hlt
      omega
    · exact hpos
  refine ⟨hpos, ?_⟩
  by_contra h
  have hle := (gc_fee hpos _ _).2 (not_lt.1 h)
  omega

/-- The code on a balance, when there is more than the flat gas to buy. -/
theorem bought_eq (hcfg : InRange cfg) (hfits : PriceFits cfg)
    (hlt : cfg.flatGasLimit < cfg.gasLimit) {n : List Int} (hn : IsBalance n) :
    (bought cfg n : Int) =
      if cfg.flatGasPrice + fee cfg.gasPrice (cfg.gasLimit - cfg.flatGasLimit : Nat) ≤ value n then
        (cfg.gasLimit : Int)
      else if value n < cfg.flatGasPrice then 0
      else cfg.flatGasLimit + amount cfg.gasPrice (value n - cfg.flatGasPrice) := by
  obtain ⟨hnormal, hnonneg⟩ := hn
  obtain ⟨hthreshold, hvalue⟩ := computeThreshold_spec hcfg hfits hlt
  have hP := hcfg.flatGasPrice_lt
  have hG := hcfg.gasPrice_lt
  have hL := hcfg.gasLimit_lt
  simp only [bought, gasBoughtFor]
  rw [hnormal.sgn_eq, hnormal.cmpAny_eq hthreshold, word_natCast hP,
    hnormal.cmpWord_eq (by omega) (by omega), if_neg (by simpa using hnonneg), hvalue]
  by_cases hT :
      cfg.flatGasPrice + fee cfg.gasPrice (cfg.gasLimit - cfg.flatGasLimit : Nat) ≤ value n
  · rw [if_pos (Int.sign_nonneg_iff.2 (by omega)), if_pos hT]
  · rw [if_neg (by simpa using hT), if_neg hT]
    by_cases hlow : value n < cfg.flatGasPrice
    · rw [if_pos (Int.sign_neg_iff.2 (by omega)), if_pos hlow]
      rfl
    · rw [if_neg (by simpa using hlow), if_neg hlow]
      obtain ⟨hpos, hless⟩ := amount_lt_of_lt_threshold (g := cfg.gasPrice)
        (D := (cfg.gasLimit - cfg.flatGasLimit : Nat)) (m := value n - cfg.flatGasPrice)
        (by omega) (by omega) (by omega)
      have hbound : fee cfg.gasPrice (cfg.gasLimit - cfg.flatGasLimit : Nat) ≤ 2 ^ 108 := by
        rw [fee_le_iff]
        have hmul : cfg.gasPrice * (cfg.gasLimit - cfg.flatGasLimit) ≤ 2 ^ 62 * 2 ^ 62 :=
          Nat.mul_le_mul hG.le (by omega)
        have hcast : (cfg.gasPrice : Int) * (cfg.gasLimit - cfg.flatGasLimit : Nat) =
            ((cfg.gasPrice * (cfg.gasLimit - cfg.flatGasLimit) : Nat) : Int) := by simp
        omega
      have hdivides := bought_of_divides hcfg hnormal (by omega) (by omega) (by omega) (by omega)
      rw [word_natCast hP] at hdivides
      exact hdivides

/-- When only the flat gas is sold, the threshold is the flat price as it is, and a balance of
    two digits counts as above it. -/
theorem cmpAny_threshold_flat (hcfg : InRange cfg) (heq : cfg.flatGasLimit = cfg.gasLimit)
    {n : List Int} (hn : IsBalance n) :
    cmpAny n (computeThreshold cfg) ≥ 0 ↔ 2 ≤ n.length ∨ cfg.flatGasPrice ≤ value n := by
  obtain ⟨hnormal, hnonneg⟩ := hn
  rw [computeThreshold, if_neg (by omega), refInt, word_natCast hcfg.flatGasPrice_lt]
  obtain ⟨d, rfl⟩ | ⟨low, t, rfl, ht, hlow, -⟩ := hnormal.cases_top
  · rw [cmpAny, if_neg (by simp), if_neg (by simp), SignedDigits.cmp_singleton, ge_iff_le,
      Int.sign_nonneg_iff]
    simp
  · have htop : ¬ t < 0 := by
      have hsign := hnormal.sgn_eq
      rw [sgn, List.getLastD_concat] at hsign
      rw [← Int.sign_neg_iff, hsign, Int.sign_neg_iff]
      omega
    rw [cmpAny, if_pos (by simpa using hlow), List.getLastD_concat, if_neg htop]
    simp only [List.length_append, List.length_singleton]
    omega

theorem bought_eq_flat (hcfg : InRange cfg) (heq : cfg.flatGasLimit = cfg.gasLimit)
    {n : List Int} (hn : IsBalance n) :
    bought cfg n = if 2 ≤ n.length ∨ cfg.flatGasPrice ≤ value n then cfg.gasLimit else 0 := by
  have hP := hcfg.flatGasPrice_lt
  have hsgn : ¬ sgn n < 0 := by
    rw [hn.1.sgn_eq]
    simpa using hn.2
  simp only [bought, gasBoughtFor, hsgn, if_false, cmpAny_threshold_flat hcfg heq hn]
  split
  · rfl
  · rename_i h
    rw [if_pos]
    rw [word_natCast hP, hn.1.cmpWord_eq (by omega) (by omega), Int.sign_neg_iff]
    omega

/-! ## Consistency -/

/-- A balance of more digits is not the smaller one. -/
theorem long_of_le {n m : List Int} (hn : IsBalance n) (hm : IsBalance m)
    (hle : value n ≤ value m) (hlong : 2 ≤ n.length) : 2 ≤ m.length := by
  by_contra hshort
  have hpos := hm.1.length_pos
  have hsign := hn.1.sign_sub_of_length_lt (by omega) hm.1.centered (by omega)
  have htop : ¬ n.getLastD 0 < 0 := by
    have hsgn := hn.1.sgn_eq
    rw [sgn] at hsgn
    rw [← Int.sign_neg_iff, hsgn, Int.sign_neg_iff]
    exact not_lt.2 hn.2
  rw [if_neg htop] at hsign
  have hlt := Int.sign_pos_iff.1 (show 0 < (value n - value m).sign by omega)
  omega

theorem price_mono_of_priceFits (hcfg : InRange cfg) (hfits : PriceFits cfg) {a b : Nat}
    (hab : a ≤ b) (hb : b < 2 ^ 62) :
    value (computeGasPrice cfg a) ≤ value (computeGasPrice cfg b) := by
  rw [value_computeGasPrice hcfg hfits (by omega), value_computeGasPrice hcfg hfits hb]
  have hmono := fee_mono (g := cfg.gasPrice) (by omega)
    (show ((a - cfg.flatGasLimit : Nat) : Int) ≤ (b - cfg.flatGasLimit : Nat) by omega)
  omega

/-- Only the flat gas is for sale. -/
theorem consistent_of_flat (hcfg : InRange cfg) (hfits : PriceFits cfg)
    (heq : cfg.flatGasLimit = cfg.gasLimit) : Consistent cfg where
  divides n hn hdiv := by
    obtain ⟨-, hcmp, hlow⟩ := hdiv
    have hP := hcfg.flatGasPrice_lt
    rw [cmpAny_threshold_flat hcfg heq hn] at hcmp
    rw [word_natCast hP, hn.1.cmpWord_eq (by omega) (by omega), Int.sign_neg_iff] at hlow
    omega
  le_limit n hn := by
    rw [bought_eq_flat hcfg heq hn]
    split
    · exact le_rfl
    · exact Nat.zero_le _
  price_le n hn hle := by
    rw [bought_eq_flat hcfg heq hn, if_pos (.inr hle), computeGasPrice, if_pos (by omega),
      value_refInt hcfg.flatGasPrice_lt]
    exact hle
  lt_price n hn hle hlt := by
    rw [bought_eq_flat hcfg heq hn, if_pos (.inr hle)] at hlt
    omega
  bought_mono n m hn hm hle := by
    rw [bought_eq_flat hcfg heq hn, bought_eq_flat hcfg heq hm]
    split
    · rename_i h
      rw [if_pos]
      obtain h | h := h
      · exact .inl (long_of_le hn hm hle h)
      · exact .inr (h.trans hle)
    · exact Nat.zero_le _
  price_mono a b := price_mono_of_priceFits hcfg hfits

/-- There is more gas for sale than the flat one: a balance below the flat price buys none, one
    at the threshold buys the limit, and one between buys less than that. -/
theorem bought_cases (hcfg : InRange cfg) (hfits : PriceFits cfg)
    (hlt : cfg.flatGasLimit < cfg.gasLimit) {n : List Int} (hn : IsBalance n) :
    (value n < cfg.flatGasPrice ∧ bought cfg n = 0) ∨
    (cfg.flatGasPrice + fee cfg.gasPrice (cfg.gasLimit - cfg.flatGasLimit : Nat) ≤ value n ∧
      bought cfg n = cfg.gasLimit) ∨
    ((cfg.flatGasPrice ≤ value n ∧
        value n < cfg.flatGasPrice + fee cfg.gasPrice (cfg.gasLimit - cfg.flatGasLimit : Nat)) ∧
      0 < cfg.gasPrice ∧ bought cfg n < cfg.gasLimit ∧ cfg.flatGasLimit ≤ bought cfg n ∧
      ((bought cfg n - cfg.flatGasLimit : Nat) : Int) =
        amount cfg.gasPrice (value n - cfg.flatGasPrice)) := by
  have hbought := bought_eq hcfg hfits hlt hn
  split at hbought
  · exact .inr (.inl ⟨‹_›, by omega⟩)
  · split at hbought
    · exact .inl ⟨‹_›, by omega⟩
    · right
      right
      obtain ⟨hpos, hless⟩ := amount_lt_of_lt_threshold (g := cfg.gasPrice)
        (D := (cfg.gasLimit - cfg.flatGasLimit : Nat)) (m := value n - cfg.flatGasPrice)
        (by omega) (by omega) (by omega)
      have hnonneg : 0 ≤ amount cfg.gasPrice (value n - cfg.flatGasPrice) := by
        rw [le_amount_iff hpos]
        omega
      exact ⟨by omega, by omega, by omega, by omega, by omega⟩

theorem consistent_of_lt (hcfg : InRange cfg) (hfits : PriceFits cfg)
    (hlt : cfg.flatGasLimit < cfg.gasLimit) : Consistent cfg where
  divides n hn hdiv := by
    obtain ⟨-, hcmp, hlow⟩ := hdiv
    obtain ⟨hthreshold, hvalue⟩ := computeThreshold_spec hcfg hfits hlt
    have hP := hcfg.flatGasPrice_lt
    rw [hn.1.cmpAny_eq hthreshold, ge_iff_le, Int.sign_nonneg_iff, hvalue] at hcmp
    rw [word_natCast hP, hn.1.cmpWord_eq (by omega) (by omega), Int.sign_neg_iff] at hlow
    have hpos := (amount_lt_of_lt_threshold (g := cfg.gasPrice)
      (D := (cfg.gasLimit - cfg.flatGasLimit : Nat)) (m := value n - cfg.flatGasPrice)
      (by omega) (by omega) (by omega)).1
    omega
  le_limit n hn := by
    obtain h | h | h := bought_cases hcfg hfits hlt hn
    · omega
    · omega
    · omega
  price_le n hn hle := by
    have hL := hcfg.gasLimit_lt
    obtain h | h | ⟨-, hpos, hless, -, hamount⟩ := bought_cases hcfg hfits hlt hn
    · omega
    · rw [h.2, value_computeGasPrice hcfg hfits hL]
      exact h.1
    · rw [value_computeGasPrice hcfg hfits (by omega), hamount]
      have hback := (gc_fee (g := cfg.gasPrice) (by omega)).l_u_le (value n - cfg.flatGasPrice)
      omega
  lt_price n hn hle hless := by
    have hL := hcfg.gasLimit_lt
    obtain h | h | ⟨-, hpos, -, hflat, hamount⟩ := bought_cases hcfg hfits hlt hn
    · omega
    · omega
    · rw [value_computeGasPrice hcfg hfits (by omega),
        show ((bought cfg n + 1 - cfg.flatGasLimit : Nat) : Int) =
          amount cfg.gasPrice (value n - cfg.flatGasPrice) + 1 by omega]
      have hnext := lt_fee_succ (g := cfg.gasPrice) (by omega) (value n - cfg.flatGasPrice)
      omega
  bought_mono n m hn hm hle := by
    obtain h | h | ⟨⟨hlow, -⟩, hpos, hless, hflat, hamount⟩ := bought_cases hcfg hfits hlt hn
    · omega
    · obtain h' | h' | h' := bought_cases hcfg hfits hlt hm
      · have hnonneg := fee_nonneg (g := cfg.gasPrice)
          (a := (cfg.gasLimit - cfg.flatGasLimit : Nat)) (by omega) (by omega)
        omega
      · omega
      · omega
    · obtain h' | h' | ⟨-, -, -, hflat', hamount'⟩ := bought_cases hcfg hfits hlt hm
      · omega
      · omega
      · have hmono := (gc_fee (g := cfg.gasPrice) (by omega)).monotone_u
          (show value n - cfg.flatGasPrice ≤ value m - cfg.flatGasPrice by omega)
        omega
  price_mono a b := price_mono_of_priceFits hcfg hfits

theorem consistent_of_priceFits (hcfg : InRange cfg) (hfits : PriceFits cfg) : Consistent cfg := by
  obtain heq | hlt := hcfg.flat_le.eq_or_lt
  · exact consistent_of_flat hcfg hfits heq
  · exact consistent_of_lt hcfg hfits hlt

/-- Where the price does not fit, some amount above the flat limit costs less than it. -/
theorem computeGasPrice_wraps (hcfg : InRange cfg) (hfits : ¬ PriceFits cfg) :
    ∃ gas, cfg.flatGasLimit ≤ gas ∧ gas < 2 ^ 62 ∧
      value (computeGasPrice cfg gas) < cfg.flatGasPrice := by
  have hG := hcfg.gasPrice_lt
  have hP := hcfg.flatGasPrice_lt
  have hF := hcfg.flatGasLimit_lt
  -- the least amount whose product does not fit
  have hexists : ∃ y, 2 ^ 63 ≤ cfg.gasPrice * y + 2 ^ 51 := ⟨_, not_lt.1 hfits⟩
  have hspec := Nat.find_spec hexists
  have hle : Nat.find hexists ≤ min (2 ^ 11) (2 ^ 62 - 1 - cfg.flatGasLimit) :=
    Nat.find_min' hexists (not_lt.1 hfits)
  obtain ⟨y, hy⟩ : ∃ y, Nat.find hexists = y + 1 := by
    apply Nat.exists_eq_succ_of_ne_zero
    intro hzero
    rw [hzero] at hspec
    omega
  have hbelow : cfg.gasPrice * y + 2 ^ 51 < 2 ^ 63 := by
    have hmin := Nat.find_min hexists (m := y) (by omega)
    omega
  rw [hy] at hspec hle
  have hcast : (cfg.gasPrice : Int) * (y + 1 : Nat) =
      (cfg.gasPrice * y : Nat) + (cfg.gasPrice : Int) := by
    push_cast
    ring
  rw [mul_add, mul_one] at hspec
  obtain ⟨hnormal, hvalue⟩ := mulShortOpt_wraps (g := cfg.gasPrice) (y := (y + 1 : Nat))
    (by omega) (by unfold MaxDenorm; omega) (by unfold Half; omega) (by unfold Half; omega)
  obtain ⟨hfee, hfeeval, hlen⟩ := gasFee_of_product (a := y + 1)
    (p := cfg.gasPrice * (y + 1 : Nat) - 2 ^ 64) (by omega)
    (by omega) (by omega) (by rw [refInt, word_natCast hG]; exact ⟨hnormal, hvalue⟩)
  refine ⟨cfg.flatGasLimit + (y + 1), by omega, by omega, ?_⟩
  rw [computeGasPrice, if_neg (by omega), Nat.add_sub_cancel_left, word_natCast hP,
    (addTiny_spec hfee hlen (by omega) (by omega)).2, hfeeval]
  omega

/-- Buying and paying agree exactly when the price fits. -/
theorem gas_consistent_iff (cfg : GasLimitsPrices) (hcfg : InRange cfg) :
    Consistent cfg ↔ PriceFits cfg := by
  constructor
  · intro h
    by_contra hfits
    obtain ⟨gas, hflat, hgas, hlt⟩ := computeGasPrice_wraps hcfg hfits
    have hmono := h.price_mono _ _ hflat hgas
    rw [computeGasPrice, if_pos le_rfl, value_refInt hcfg.flatGasPrice_lt] at hmono
    omega
  · exact consistent_of_priceFits hcfg

/-- The prices of the basechain. -/
theorem consistent_basechain : Consistent ⟨100, 100000, 65536000, 1000000⟩ :=
  (gas_consistent_iff _ ⟨by decide, by decide, by decide, by decide, by decide⟩).2 (by decide)

/-- At a price of 2^61 the fourth unit of gas makes the whole cheaper than the flat price. -/
theorem not_consistent : ¬ ∀ cfg : GasLimitsPrices, InRange cfg → Consistent cfg := by
  intro hall
  have h := hall ⟨0, 1, 2 ^ 61, 8⟩ ⟨by decide, by decide, by decide, by decide, by decide⟩
  exact absurd (h.price_mono 0 4 (by decide) (by decide)) (by decide)

end CalcFee
