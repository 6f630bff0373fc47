import TopWallets.BigInteger
import TopWallets.Exceptions
import TopWallets.Lib.Decimal

/- The text of a private key: `PrivateKey.ToString` and `PrivateKey.Parse`.

   The text is the key as a decimal number without a sign. The parser reads it into a big
   integer with `parse_dec` and takes the bytes with `export_bytes`, which asks for a number that
   fits with a sign. Neither what `parse_dec` read nor what `export_bytes` reports is looked at,
   and the bytes are written before the report. So every key comes back from its text, also where
   `export_bytes` fails, and of every text some key is made.

   Main result: a text is parsed as what it denotes exactly when it denotes a key
   (`parse_iff`).

   Correspondence (C++ / C# ↔ Lean):
     `mul_add_short_bool`, `normalize_bool`       ↔ `BigInt256.Arithmetic`
     `parse_dec`, `export_bytes`                  ↔ `BigInt256.parseDec`, `BigInt256.exportSigned`
     `import_bytes`, `to_dec_string_destroy`      ↔ `BigInt256.ofBytes`, `Decimal.ofNat`
     `PrivateKeyToString`, `PrivateKeyParse`      ↔ `privateKeyToString`, `privateKeyParse`
     `PrivateKey.ToString`, `.From`, `.Parse`     ↔ `toText`, `fromText`, `parse`
   `marshal` is the C string of a text. -/
namespace BigInt256

/-- `Half / 10`. -/
def parseLimit : Nat := 2 ^ 51 / 10

/-- The number that the digits hold after an operation, with what it returns. -/
structure Arithmetic where
  mul_add_short_bool : (x y z : Int) → Bool × Int
  /-- None when the number is invalid after it. -/
  normalize_bool : Int → Option Int

/-- Both are exact on what has 256 bits, for factors of one word. -/
structure Arithmetic.Lawful (A : Arithmetic) : Prop where
  mul_add_short : ∀ x y z : Nat, y ≤ 10 * parseLimit → z < y → x * y + z < 2 ^ 256 →
    A.mul_add_short_bool x y z = (true, ((x * y + z : Nat) : Int))
  normalize : ∀ x : Nat, x < 2 ^ 256 → A.normalize_bool x = some x

variable (A : Arithmetic)

/-- After the last digit. -/
def parseEnd (x q a : Int) (ok : Bool) : Option Int :=
  if ok then
    match A.mul_add_short_bool x q a with
    | (true, x) => A.normalize_bool x
    | (false, x) => some x
  else some x

/-- The loop of `parse_dec`: `q` and `a` collect the digits that the number does not have yet. -/
def parseLoop (sgn : Bool) : List UInt8 → (x q a : Int) → (ok : Bool) → Option Int
  | [], x, q, a, ok => parseEnd A x q a ok
  | b :: str, x, q, a, ok =>
    if 48 ≤ b.toNat ∧ b.toNat < 58 then
      let digit : Int := b.toNat - 48
      if q ≥ parseLimit then
        match A.mul_add_short_bool x q a with
        | (true, x) => parseLoop sgn str x 10 (if sgn then -digit else digit) true
        | (false, x) => some x
      else parseLoop sgn str x (q * 10) (a * 10 + if sgn then -digit else digit) true
    else parseEnd A x q a ok

/-- `parse_dec`: the number after it, `none` if that is invalid. -/
def parseDec (str : List UInt8) : Option Int :=
  match str with
  | 45 :: str => parseLoop A true str 0 1 0 false
  | str => parseLoop A false str 0 1 0 false

/-- `import_bytes` without a sign. -/
def ofBytes (bytes : List UInt8) : Nat := Nat.ofDigits 256 (bytes.map UInt8.toNat).reverse

/-- `export_bytes` with a sign: what it returns, and what the bytes are then. They are written
before they are found not to fit. -/
def exportSigned (buff : List UInt8) : Option Int → Bool × List UInt8
  | none => (false, buff)
  | some v =>
    (decide (-2 ^ (8 * buff.length - 1) ≤ v ∧ v < 2 ^ (8 * buff.length - 1)),
      exportBytes buff.length (v % 256 ^ buff.length).toNat)

/-! ## Reading digits -/

/-- The character of a digit, as a byte. -/
def digitByte (d : Nat) : UInt8 := UInt8.ofNat (48 + d)

theorem toNat_digitByte {d : Nat} (h : d < 10) : (digitByte d).toNat = 48 + d := by
  rw [digitByte, UInt8.toNat_ofNat', Nat.mod_eq_of_lt (by omega)]

theorem ofDigits_reverse_cons (d : Nat) (ds : List Nat) : Nat.ofDigits 10 (d :: ds).reverse =
    d * 10 ^ ds.length + Nat.ofDigits 10 ds.reverse := by
  rw [List.reverse_cons, Nat.ofDigits_append, Nat.ofDigits_singleton, List.length_reverse]
  ring

variable {A : Arithmetic}

/-- One digit goes to the number, or to what is collected before it. -/
theorem parseLoop_cons (hA : A.Lawful) {d : Nat} (hd : d < 10) (str : List UInt8) {x q a : Nat}
    (hq : q ≤ 10 * parseLimit) (ha : a < q) (hfit : x * q + a < 2 ^ 256) (ok : Bool) :
    ∃ x' q' a' : Nat, q' ≤ 10 * parseLimit ∧ a' < q' ∧ x' * q' + a' = (x * q + a) * 10 + d ∧
      parseLoop A false (digitByte d :: str) x q a ok = parseLoop A false str x' q' a' true := by
  have hbyte := toNat_digitByte hd
  have hdigit : 48 ≤ (digitByte d).toNat ∧ (digitByte d).toNat < 58 := by omega
  have hval : ((digitByte d).toNat : Int) - 48 = d := by omega
  rw [parseLoop, if_pos hdigit, hval]
  by_cases hlimit : parseLimit ≤ q
  · refine ⟨x * q + a, 10, d, by decide, hd, rfl, ?_⟩
    have hge : (q : Int) ≥ parseLimit := Int.ofNat_le.2 hlimit
    simp only [if_pos hge, hA.mul_add_short x q a hq ha hfit]
    rfl
  · refine ⟨x, q * 10, a * 10 + d, by omega, by omega, by ring, ?_⟩
    have hlt : ¬ (q : Int) ≥ parseLimit := fun hge => hlimit (Int.ofNat_le.1 hge)
    simp only [if_neg hlt]
    rfl

theorem parseLoop_digits (hA : A.Lawful) {ds : List Nat} (hds : ∀ d ∈ ds, d < 10) {x q a : Nat}
    (hq : q ≤ 10 * parseLimit) (ha : a < q) {ok : Bool} (hok : ok = true ∨ ds ≠ [])
    (hfit : (x * q + a) * 10 ^ ds.length + Nat.ofDigits 10 ds.reverse < 2 ^ 256) :
    parseLoop A false (ds.map digitByte) x q a ok =
      some (((x * q + a) * 10 ^ ds.length + Nat.ofDigits 10 ds.reverse : Nat) : Int) := by
  induction ds generalizing x q a ok with
  | nil =>
    have hnum : (x * q + a) * 10 ^ ([] : List Nat).length + Nat.ofDigits 10 ([] : List Nat).reverse
        = x * q + a := by simp
    rw [hnum] at hfit ⊢
    have htrue : ok = true := hok.resolve_right fun h => h rfl
    rw [List.map_nil, parseLoop, parseEnd, if_pos htrue]
    simp only [hA.mul_add_short x q a hq ha hfit]
    exact hA.normalize _ hfit
  | cons d ds ih =>
    have hnum : (x * q + a) * 10 ^ (d :: ds).length + Nat.ofDigits 10 (d :: ds).reverse =
        ((x * q + a) * 10 + d) * 10 ^ ds.length + Nat.ofDigits 10 ds.reverse := by
      rw [ofDigits_reverse_cons, List.length_cons]
      ring
    rw [hnum] at hfit ⊢
    have hd : d < 10 := hds d List.mem_cons_self
    have hpos : 0 < 10 ^ ds.length := Nat.pow_pos (by decide)
    have hle : (x * q + a) * 10 + d ≤ ((x * q + a) * 10 + d) * 10 ^ ds.length :=
      Nat.le_mul_of_pos_right _ hpos
    have hread : x * q + a < 2 ^ 256 := by omega
    obtain ⟨x', q', a', hq', ha', hstep, hloop⟩ :=
      parseLoop_cons hA hd (ds.map digitByte) hq ha hread ok
    rw [List.map_cons, hloop, ← hstep]
    rw [← hstep] at hfit
    exact ih (fun e he => hds e (List.mem_cons_of_mem _ he)) hq' ha' (.inl rfl) hfit

/-- `parse_dec` reads digits, and nothing else, as their number. -/
theorem parseDec_digits (hA : A.Lawful) {ds : List Nat} (hds : ∀ d ∈ ds, d < 10) (hne : ds ≠ [])
    (hfit : Nat.ofDigits 10 ds.reverse < 2 ^ 256) :
    parseDec A (ds.map digitByte) = some ((Nat.ofDigits 10 ds.reverse : Nat) : Int) := by
  have hnonempty : false = true ∨ ds ≠ [] := .inr hne
  have hloop := parseLoop_digits hA hds (x := 0) (q := 1) (a := 0) (by decide) (by decide)
    hnonempty (by simpa using hfit)
  simp only [Nat.zero_mul, Nat.zero_add] at hloop
  have hminus : ∀ str, ds.map digitByte ≠ 45 :: str := by
    intro str heq
    cases ds with
    | nil => exact hne rfl
    | cons d ds =>
      have hbyte := toNat_digitByte (hds d List.mem_cons_self)
      rw [(List.cons.inj heq).1] at hbyte
      have hval : (45 : UInt8).toNat = 45 := by decide
      omega
  rw [parseDec]
  · exact hloop
  · exact hminus

/-! ## Bytes -/

/-- What is above the bytes is left out. -/
theorem exportBytes_add (n k v : Nat) : exportBytes n (k * 256 ^ n + v) = exportBytes n v := by
  induction n generalizing k with
  | zero => rfl
  | succ n ih =>
    have hnum : k * 256 ^ (n + 1) + v = k * 256 * 256 ^ n + v := by ring
    have hpos : 0 < 256 ^ n := Nat.pow_pos (by decide)
    have hquot : (k * 256 * 256 ^ n + v) / 256 ^ n = v / 256 ^ n + k * 256 := by
      rw [Nat.add_comm, Nat.add_mul_div_right _ _ hpos]
    have hbyte : UInt8.ofNat (v / 256 ^ n + k * 256) = UInt8.ofNat (v / 256 ^ n) := by
      apply UInt8.toNat_inj.1
      rw [UInt8.toNat_ofNat', UInt8.toNat_ofNat', Nat.add_mul_mod_self_right]
    rw [exportBytes, exportBytes, hnum, hquot, hbyte, ih]

theorem ofBytes_cons (b : UInt8) (bytes : List UInt8) :
    ofBytes (b :: bytes) = b.toNat * 256 ^ bytes.length + ofBytes bytes := by
  rw [ofBytes, List.map_cons, List.reverse_cons, Nat.ofDigits_append, Nat.ofDigits_singleton,
    List.length_reverse, List.length_map, ← ofBytes]
  ring

theorem ofBytes_lt (bytes : List UInt8) : ofBytes bytes < 256 ^ bytes.length := by
  have hdigits : ∀ d ∈ (bytes.map UInt8.toNat).reverse, d < 256 := by
    intro d hd
    obtain ⟨b, -, rfl⟩ := List.mem_map.1 (List.mem_reverse.1 hd)
    exact b.toNat_lt
  have hlt := Nat.ofDigits_lt_base_pow_length (by decide) hdigits
  rwa [List.length_reverse, List.length_map] at hlt

theorem exportBytes_ofBytes (bytes : List UInt8) :
    exportBytes bytes.length (ofBytes bytes) = bytes := by
  induction bytes with
  | nil => rfl
  | cons b bytes ih =>
    have hpos : 0 < 256 ^ bytes.length := Nat.pow_pos (by decide)
    have hquot : (b.toNat * 256 ^ bytes.length + ofBytes bytes) / 256 ^ bytes.length = b.toNat := by
      rw [Nat.add_comm, Nat.add_mul_div_right _ _ hpos, Nat.div_eq_of_lt (ofBytes_lt bytes),
        Nat.zero_add]
    rw [ofBytes_cons, List.length_cons, exportBytes, hquot, exportBytes_add, ih, UInt8.ofNat_toNat]

/-- Of a number that fits without a sign the bytes are written. -/
theorem exportSigned_snd {v : Nat} {buff : List UInt8} (hv : v < 256 ^ buff.length) :
    (exportSigned buff (some (v : Int))).2 = exportBytes buff.length v := by
  have hmod : (v : Int) % 256 ^ buff.length = v := by
    apply Int.emod_eq_of_lt (Int.natCast_nonneg v)
    exact_mod_cast hv
  simp only [exportSigned, hmod, Int.toNat_natCast]

end BigInt256

namespace Ton.PrivateKey
open BigInt256

section
variable (A : Arithmetic) (marshal : List Char → List UInt8)

def privateKeyToString (data : Vector UInt8 32) : List Char :=
  Decimal.ofNat (ofBytes data.toList)

/-- The number is not looked at, whatever `parse_dec` returns. -/
def privateKeyParse (data : List UInt8) (res : List UInt8) : Bool × List UInt8 :=
  exportSigned res (parseDec A data)

def toText (keyData : Vector UInt8 32) : List Char := privateKeyToString keyData

def fromText (key : List Char) : Except Exception (List UInt8) := do
  let data := List.replicate 32 0
  let (_, data) := privateKeyParse A (marshal key) data
  return data

def parse (key : List Char) : Except Exception (List UInt8) := do
  return ← fromText A marshal key

/-- The key that a text denotes: a decimal number of 256 bits. -/
def denoted (text : List Char) : Option (List UInt8) :=
  match Decimal.toNat? text with
  | some n => if n < 2 ^ 256 then some (exportBytes 32 n) else none
  | none => none

/-- A text is parsed as what it denotes, or the parser fails. -/
def ParsesAs (text : List Char) : Option (List UInt8) → Prop
  | some key => parse A marshal text = .ok key
  | none => ∃ e, parse A marshal text = .error e

end

/-- A text of digits is their characters as bytes. -/
def DigitsAsBytes (marshal : List Char → List UInt8) : Prop :=
  ∀ ds : List Nat, (∀ d ∈ ds, d < 10) → marshal (ds.map Decimal.digitChar) = ds.map digitByte

/-! ## The texts of keys -/

section
variable {A : Arithmetic} {marshal : List Char → List UInt8}

/-- A text of a key is parsed as the key. -/
theorem parse_of_lt (hA : A.Lawful)
    (hmarshal : DigitsAsBytes marshal)
    {text : List Char} {n : Nat} (h : Decimal.toNat? text = some n) (hn : n < 2 ^ 256) :
    parse A marshal text = .ok (exportBytes 32 n) := by
  obtain ⟨ds, hne, hds, rfl, rfl⟩ := Decimal.exists_digits_of_toNat? h
  have hfit : Nat.ofDigits 10 ds.reverse < 256 ^ (List.replicate 32 (0 : UInt8)).length := by
    rw [List.length_replicate]
    exact hn
  have hbytes := exportSigned_snd hfit
  rw [List.length_replicate] at hbytes
  have hparse : parse A marshal (ds.map Decimal.digitChar) =
      .ok (exportSigned (List.replicate 32 0)
        (parseDec A (marshal (ds.map Decimal.digitChar)))).2 := rfl
  rw [hparse, hmarshal ds hds, parseDec_digits hA hds hne hn, hbytes]

theorem parse_toText (hA : A.Lawful)
    (hmarshal : DigitsAsBytes marshal) (key : Vector UInt8 32) :
    parse A marshal (toText key) = .ok key.toList := by
  have hlen : key.toList.length = 32 := by simp
  have hlt : ofBytes key.toList < 2 ^ 256 := by
    have h := ofBytes_lt key.toList
    rw [hlen] at h
    exact h
  have hkey := exportBytes_ofBytes key.toList
  rw [hlen] at hkey
  have htext : Decimal.toNat? (toText key) = some (ofBytes key.toList) := Decimal.toNat?_ofNat _
  rw [parse_of_lt hA hmarshal htext hlt, hkey]

/-- The parser never fails. -/
theorem not_parse_error (text : List Char) (e : Exception) : parse A marshal text ≠ .error e :=
  nofun

theorem denoted_eq_some_iff {text : List Char} {key : List UInt8} : denoted text = some key ↔
    ∃ n, Decimal.toNat? text = some n ∧ n < 2 ^ 256 ∧ exportBytes 32 n = key := by
  rw [denoted]
  cases Decimal.toNat? text with
  | none => simp
  | some n => simp

/-- Every key comes back from its text, and a text is parsed as what it denotes exactly when it
denotes a key. -/
theorem parse_iff (hA : A.Lawful) (hmarshal : DigitsAsBytes marshal) :
    (∀ key : Vector UInt8 32, parse A marshal (toText key) = .ok key.toList) ∧
      ∀ text, ParsesAs A marshal text (denoted text) ↔
        ∃ n, Decimal.toNat? text = some n ∧ n < 2 ^ 256 := by
  refine ⟨parse_toText hA hmarshal, ?_⟩
  intro text
  constructor
  · intro h
    cases hdenoted : denoted text with
    | none =>
      rw [hdenoted] at h
      obtain ⟨e, he⟩ := h
      exact absurd he (not_parse_error text e)
    | some key =>
      obtain ⟨n, hn, hlt, -⟩ := denoted_eq_some_iff.1 hdenoted
      exact ⟨n, hn, hlt⟩
  · intro h
    obtain ⟨n, hn, hlt⟩ := h
    have hdenoted : denoted text = some (exportBytes 32 n) :=
      denoted_eq_some_iff.2 ⟨n, hn, hlt, rfl⟩
    rw [hdenoted]
    exact parse_of_lt hA hmarshal hn hlt

/-! ## Two texts -/

/-- Numbers without a bound. -/
def unbounded : Arithmetic := ⟨fun x y z => (true, x * y + z), some⟩

theorem unbounded_lawful : unbounded.Lawful where
  mul_add_short := by
    intro x y z _ _ _
    simp [unbounded]
  normalize := fun _ _ => rfl

/-- The ASCII bytes of a text. -/
def ascii (text : List Char) : List UInt8 := text.map fun c => UInt8.ofNat c.toNat

theorem digitsAsBytes_ascii : DigitsAsBytes ascii := by
  intro ds hds
  rw [ascii, List.map_map]
  apply List.map_congr_left
  intro d hd
  change UInt8.ofNat (Decimal.digitChar d).toNat = digitByte d
  rw [Decimal.toNat_digitChar (hds d hd), digitByte]

/-- A key of the greatest first byte comes back, and the text 7 is the key 7. -/
theorem parse_greatest :
    parse unbounded ascii (toText (Vector.replicate 32 0xff)) =
        .ok (Vector.replicate 32 0xff).toList ∧
      ParsesAs unbounded ascii ['7'] (denoted ['7']) := by
  have h := parse_iff unbounded_lawful digitsAsBytes_ascii
  exact ⟨h.1 _, (h.2 ['7']).2 ⟨7, by decide, by decide⟩⟩

/-- The text -1 denotes no key and is parsed as one. -/
theorem not_parsesAs_minus_one : ¬ ParsesAs unbounded ascii ['-', '1'] (denoted ['-', '1']) := by
  have hnone : denoted ['-', '1'] = none := by decide
  rw [hnone]
  intro h
  obtain ⟨e, he⟩ := h
  exact not_parse_error _ e he

end

end Ton.PrivateKey
