import Mathlib

/- Decimal texts of integers: what a number prints as, and what a text of an
   optional sign and decimal digits denotes. Parsing inverts printing. -/
namespace Decimal

/-- The character of a decimal digit. -/
def digitChar (d : Nat) : Char := Char.ofNat (48 + d)

def digitValue (c : Char) : Option Nat :=
  if 48 ≤ c.toNat ∧ c.toNat ≤ 57 then some (c.toNat - 48) else none

def ofNat (n : Nat) : List Char :=
  if n = 0 then ['0'] else ((Nat.digits 10 n).map digitChar).reverse

def ofInt : Int → List Char
  | .ofNat n => ofNat n
  | .negSucc n => '-' :: ofNat (n + 1)

def toNat? (cs : List Char) : Option Nat :=
  if cs = [] then none else (cs.reverse.mapM digitValue).map (Nat.ofDigits 10)

def toInt? : List Char → Option Int
  | '-' :: cs => (toNat? cs).map (fun n => -(n : Int))
  | '+' :: cs => (toNat? cs).map (fun n => (n : Int))
  | cs => (toNat? cs).map (fun n => (n : Int))

theorem toNat_digitChar {d : Nat} (h : d < 10) : (digitChar d).toNat = 48 + d := by
  have hvalid : (48 + d).isValidChar := Or.inl (by omega)
  simp [digitChar, Char.ofNat, hvalid, Char.toNat, Char.ofNatAux, UInt32.toNat]
  omega

theorem digitValue_digitChar {d : Nat} (h : d < 10) : digitValue (digitChar d) = some d := by
  rw [digitValue, toNat_digitChar h, if_pos (by omega)]
  simp

theorem mapM_digitValue (ds : List Nat) (h : ∀ d ∈ ds, d < 10) :
    (ds.map digitChar).mapM digitValue = some ds := by
  induction ds with
  | nil => rfl
  | cons d ds ih =>
    rw [List.map_cons, List.mapM_cons, digitValue_digitChar (h d (by simp)),
      ih (fun x hx => h x (by simp [hx]))]
    rfl

theorem toNat?_ofNat (n : Nat) : toNat? (ofNat n) = some n := by
  by_cases hn : n = 0
  · subst hn; decide
  · have hdigits : ∀ d ∈ Nat.digits 10 n, d < 10 := fun d hd => Nat.digits_lt_base (by decide) hd
    rw [ofNat, if_neg hn, toNat?, if_neg (by simpa [Nat.digits_eq_nil_iff_eq_zero] using hn),
      List.reverse_reverse, mapM_digitValue _ hdigits, Option.map_some, Nat.ofDigits_digits]

theorem isDigit_ofNat (n : Nat) : ∀ c ∈ ofNat n, 48 ≤ c.toNat ∧ c.toNat ≤ 57 := by
  intro c hc
  by_cases hn : n = 0
  · subst hn
    rw [ofNat, if_pos rfl, List.mem_singleton] at hc
    subst hc; decide
  · rw [ofNat, if_neg hn, List.mem_reverse, List.mem_map] at hc
    obtain ⟨d, hd, rfl⟩ := hc
    have := Nat.digits_lt_base (by decide) hd
    rw [toNat_digitChar this]
    omega

/-- Parsing a printed integer gives the integer back. -/
theorem toInt?_ofInt (x : Int) : toInt? (ofInt x) = some x := by
  cases x with
  | negSucc n => simp [ofInt, toInt?, toNat?_ofNat, Int.negSucc_eq]
  | ofNat n =>
    have hval := toNat?_ofNat n
    have hdig := isDigit_ofNat n
    rw [ofInt]
    generalize ofNat n = cs at hval hdig
    unfold toInt?
    split
    · exact absurd (hdig '-' (by simp)).1 (by decide)
    · exact absurd (hdig '+' (by simp)).1 (by decide)
    · simp [hval]

/-- Different integers print differently. -/
theorem ofInt_injective : Function.Injective ofInt := by
  intro x y h
  have := congrArg toInt? h
  rwa [toInt?_ofInt, toInt?_ofInt, Option.some.injEq] at this

theorem ofNat_ne_nil (n : Nat) : ofNat n ≠ [] := by
  intro h
  have := toNat?_ofNat n
  rw [h] at this
  cases this

theorem ofInt_ne_nil (x : Int) : ofInt x ≠ [] := by
  cases x with
  | ofNat n => exact ofNat_ne_nil n
  | negSucc n => simp [ofInt]

/-- A number below `10 ^ k` prints with at most `k` digits, for positive `k`. -/
theorem length_ofNat_le {n k : Nat} (hk : 0 < k) (h : n < 10 ^ k) : (ofNat n).length ≤ k := by
  by_cases hn : n = 0
  · subst hn
    rw [ofNat, if_pos rfl]
    exact hk
  · rw [ofNat, if_neg hn, List.length_reverse, List.length_map]
    exact (Nat.digits_length_le_iff (by decide) n).2 h

theorem digitChar_of_digitValue {c : Char} {d : Nat} (h : digitValue c = some d) :
    d < 10 ∧ c = digitChar d := by
  rw [digitValue] at h
  obtain ⟨hrange, hd⟩ := Option.ite_none_right_eq_some.1 h
  obtain rfl := Option.some.inj hd
  refine ⟨by omega, ?_⟩
  have hcode : 48 + (c.toNat - 48) = c.toNat := by omega
  rw [digitChar, hcode, Char.ofNat_toNat]

theorem map_digitChar_of_mapM {cs : List Char} {ds : List Nat}
    (h : cs.mapM digitValue = some ds) : (∀ d ∈ ds, d < 10) ∧ cs = ds.map digitChar := by
  induction cs generalizing ds with
  | nil =>
    obtain rfl := Option.some.inj h
    exact ⟨by simp, rfl⟩
  | cons c cs ih =>
    rw [List.mapM_cons] at h
    obtain ⟨d, hd, h⟩ := Option.bind_eq_some_iff.1 h
    obtain ⟨rest, hrest, h⟩ := Option.bind_eq_some_iff.1 h
    obtain rfl := Option.some.inj h
    obtain ⟨hlt, rfl⟩ := digitChar_of_digitValue hd
    obtain ⟨hall, rfl⟩ := ih hrest
    exact ⟨List.forall_mem_cons.2 ⟨hlt, hall⟩, rfl⟩

/-- A text of a number is its digits, with zeros before them. -/
theorem exists_digits_of_toNat? {cs : List Char} {n : Nat} (h : toNat? cs = some n) :
    ∃ ds : List Nat, ds ≠ [] ∧ (∀ d ∈ ds, d < 10) ∧ cs = ds.map digitChar ∧
      n = Nat.ofDigits 10 ds.reverse := by
  by_cases hcs : cs = []
  · rw [toNat?, if_pos hcs] at h
    cases h
  · rw [toNat?, if_neg hcs] at h
    obtain ⟨ds, hds, rfl⟩ := Option.map_eq_some_iff.1 h
    obtain ⟨hlt, hmap⟩ := map_digitChar_of_mapM hds
    have hrev : cs = ds.reverse.map digitChar := by
      rw [List.map_reverse, ← hmap, List.reverse_reverse]
    refine ⟨ds.reverse, ?_, ?_, hrev, by rw [List.reverse_reverse]⟩
    · intro hnil
      rw [hnil] at hrev
      exact hcs hrev
    · intro d hd
      exact hlt d (List.mem_reverse.1 hd)

end Decimal
