import TopWallets.Lib.Decimal
import TopWallets.Lib.Utf8
import TopWallets.Exceptions

/- The address of an invoice: `GetInvoiceUrl` of a wallet writes an amount and a comment into a
   `ton://` address, and `TonUrl.Parse` reads them.

   The comment is appended as it is, so that a delimiter in it ends the text or the query, and what
   looks escaped is unescaped; white space at its end is the end of the address, and cut off. The
   address of a jetton wallet has no comment.

   Main result: where the amount has base units at all and the invoice is not longer than an address
   may be, address and amount come back, and the comment exactly when it has no delimiter, nothing
   to unescape and no white space at its end, of a jetton wallet exactly when it is empty
   (`getInvoiceUrl_roundTrips_iff`).

   Correspondence (C# ↔ Lean):
     `Balance.FromDecimal`             ↔ `Balance.fromDecimal`
     `TonUnknownWallet.GetInvoiceUrl`  ↔ `TonUnknownWallet.getInvoiceUrl`
     `JettonWallet.GetInvoiceUrl`      ↔ `JettonWallet.getInvoiceUrl`
     `TonUrl.Parse`                    ↔ `TonUrl.parse`
     `Uri`, `Json.ParseUrl`            ↔ `UrlLibrary`
   A text that is null is an empty one where only `IsNullOrEmpty` looks at it. -/
namespace Ton.InvoiceUrl

abbrev Text := List Char

/-! ## The library -/

/-- `Uri` and the array that `Json.ParseUrl` makes of an address. -/
structure UrlLibrary where
  Uri : Type
  JsonArray : Type
  /-- Null stands for an exception. -/
  newUri : Text → Option Uri
  authority : Uri → Text
  localPath : Uri → Text
  toString : Uri → Text
  parseUrl : Text → JsonArray
  getString : JsonArray → Text → Option Text
  /-- Null stands for an exception. -/
  getUInt128 : JsonArray → Text → Option Nat
  /-- The names and values of the array. -/
  entries : JsonArray → List (Text × Text)
  /-- What becomes of a part of the query between two `&`. -/
  entry : Text → Option (Text × Text)
  /-- The decoding of a name or a value. -/
  unescape : Text → Text

def isPlain (c : Char) : Bool := c.isAlphanum || c = '-' || c = '_'

/-- A text that an address holds as it is. -/
def Plain (text : Text) : Prop := ∀ c ∈ text, isPlain c = true

/-- The query of what follows the path: from its `?` to a `#`. -/
def query (rest : Text) : Text := (rest.drop 1).takeWhile (· ≠ '#')

/-- The white space that `Uri` cuts off at the end of an address. -/
def isWhite (c : Char) : Bool := c = ' ' || c = '\t' || c = '\n' || c = '\r'

def trimEnd (text : Text) : Text := text.rdropWhile isWhite

/-- `Uri` takes no more UTF-16 units than this. -/
def maxLength : Nat := 65519

/-- `Uri` takes a text of this length. -/
def Fits (text : Text) : Prop := Utf8.utf16Length text ≤ maxLength

instance (text : Text) : Decidable (Fits text) := inferInstanceAs (Decidable (_ ≤ _))

/-- An address that is too long is refused. Of another, white space at its end is cut off, the
    delimiters are kept, the query is split on `&` and `=`, and each part is decoded. -/
structure UrlLibrary.Lawful (L : UrlLibrary) : Prop where
  long : ∀ text, ¬ Fits text → L.newUri text = none
  uri : ∀ path rest : Text, Plain path → (rest = [] ∨ rest.head? = some '?') →
    Fits ("ton://transfer/".toList ++ path ++ rest) →
    ∃ uri, L.newUri ("ton://transfer/".toList ++ path ++ rest) = some uri ∧
      L.authority uri = "transfer".toList ∧ L.localPath uri = '/' :: path ∧
      L.entries (L.parseUrl (L.toString uri)) =
        ((query (trimEnd rest)).splitOn '&').filterMap L.entry
  entry_pair : ∀ name value : Text, '=' ∉ name → '=' ∉ value →
    L.entry (name ++ '=' :: value) = some (L.unescape name, L.unescape value)
  entry_nil : ∀ e, L.entry [] = some e → e = ([], [])
  entry_value : ∀ part name value, L.entry part = some (name, value) →
    value = [] ∨ ∃ piece ∈ part.splitOn '=', value = L.unescape piece
  unescape_plain : ∀ text, Plain text → L.unescape text = text
  unescape_length : ∀ text, (L.unescape text).length ≤ text.length
  getString_some : ∀ array name value, L.getString array name = some value →
    (name, value) ∈ L.entries array
  getString_none : ∀ array name value, L.getString array name = none →
    (name, value) ∉ L.entries array
  getUInt128_some : ∀ array name n, n < 2 ^ 128 →
    L.getString array name = some (Decimal.ofNat n) → L.getUInt128 array name = some n
  getUInt128_none : ∀ array name, L.getString array name = none →
    L.getUInt128 array name = some 0

/-- The product of decimals. -/
abbrev DecimalMul := Rat → Rat → Except Exception Rat

/-! ## The code -/

/-- `Math.Round`, to the even one of two that are as near. -/
def roundEven (x : Rat) : Int :=
  let fraction := x - x.floor
  if fraction < 1 / 2 then x.floor
  else if fraction > 1 / 2 then x.floor + 1
  else if x.floor % 2 = 0 then x.floor else x.floor + 1

def Balance.fromDecimal (mul : DecimalMul) (denominator : Nat) (value : Rat) :
    Except Exception Nat := do
  let product ← mul value denominator
  let units := roundEven product
  if 0 ≤ units ∧ units < 2 ^ 128 then .ok units.toNat else .error .overflow

structure TonUrl where
  command : Text
  address : Text
  jetton : Option Text
  nft : Option Text
  feeAmount : Nat
  forwardAmount : Nat
  amount : Nat
  comment : Option Text

/-- `StartsWith("ton://")` in either case. -/
def hasScheme (text : Text) : Bool := (text.take 6).map Char.toLower = "ton://".toList

def TonUrl.read (L : UrlLibrary) (uri : L.Uri) : Option TonUrl := do
  let array := L.parseUrl (L.toString uri)
  let amount ← L.getUInt128 array "amount".toList
  let feeAmount ← L.getUInt128 array "fee-amount".toList
  let forwardAmount ← L.getUInt128 array "forward-amount".toList
  return {
    command := L.authority uri
    address := (L.localPath uri).filter (· ≠ '/')
    jetton := L.getString array "jetton".toList
    nft := L.getString array "nft".toList
    amount := amount
    comment := L.getString array "text".toList
    feeAmount := feeAmount
    forwardAmount := forwardAmount }

def TonUrl.parse (L : UrlLibrary) (text : Text) : Option TonUrl :=
  if text ≠ [] ∧ hasScheme text = true then L.newUri text >>= TonUrl.read L else none

/-- A wallet by what `GetInvoiceUrl` reads of it. -/
structure TonUnknownWallet where
  denominator : Nat

structure JettonWallet extends TonUnknownWallet where
  address : Text
  ownerAddress : Text
  jettonAddress : Text

variable (mul : DecimalMul)

def TonUnknownWallet.getInvoiceUrl (w : TonUnknownWallet) (address : Text) (amount : Rat)
    (message : Text) : Except Exception Text := do
  let url := "ton://transfer/".toList ++ address
  let url ← if amount > 0 then do
      let units ← Balance.fromDecimal mul w.denominator amount
      let url := url ++ "?amount=".toList ++ Decimal.ofNat units
      pure (if message ≠ [] then url ++ "&".toList else url)
    else pure url
  if message ≠ [] then
    let url := if amount ≤ 0 then url ++ "?".toList else url
    return url ++ "text=".toList ++ message
  else return url

def JettonWallet.getInvoiceUrl (w : JettonWallet) (address : Text) (amount : Rat)
    (message : Text) : Except Exception Text :=
  if address ≠ w.address then w.toTonUnknownWallet.getInvoiceUrl mul address amount message
  else do
    let url := "ton://transfer/".toList ++ w.ownerAddress ++ "?jetton=".toList ++ w.jettonAddress
    if amount > 0 then do
      let units ← Balance.fromDecimal mul w.denominator amount
      let url := url ++ "&amount=".toList ++ Decimal.ofNat units
      return if message ≠ [] then url ++ "&".toList else url
    else return url

/-! ## What is to come back -/

variable (L : UrlLibrary)

/-- The address, the amount in base units and the comment. -/
def TonUnknownWallet.RoundTrips (w : TonUnknownWallet) (address : Text) (amount : Rat)
    (message : Text) : Prop :=
  ∃ url units ton, w.getInvoiceUrl mul address amount message = .ok url ∧
    Balance.fromDecimal mul w.denominator amount = .ok units ∧ TonUrl.parse L url = some ton ∧
    ton.address = address ∧ ton.amount = units ∧ ton.comment.getD [] = message

/-- For the wallet's own address the owner's address and the jetton's. -/
def JettonWallet.RoundTrips (w : JettonWallet) (amount : Rat) (message : Text) : Prop :=
  ∃ url units ton, w.getInvoiceUrl mul w.address amount message = .ok url ∧
    Balance.fromDecimal mul w.denominator amount = .ok units ∧ TonUrl.parse L url = some ton ∧
    ton.address = w.ownerAddress ∧ ton.jetton = some w.jettonAddress ∧ ton.amount = units ∧
    ton.comment.getD [] = message

/-- A comment that no delimiter and no white space ends and that decodes to itself. -/
structure Clean (message : Text) : Prop where
  ampersand : '&' ∉ message
  equals : '=' ∉ message
  hash : '#' ∉ message
  trimmed : trimEnd message = message
  unescape : L.unescape message = message

/-! ## Splitting -/

/-- A part of a split text is the whole of it, or shorter. -/
theorem mem_splitOn_cases {c : Char} {s part : Text} (h : part ∈ s.splitOn c) :
    part = s ∧ c ∉ s ∨ part.length < s.length := by
  induction s generalizing part with
  | nil =>
    rw [List.splitOn_nil, List.mem_singleton] at h
    exact Or.inl ⟨h, List.not_mem_nil⟩
  | cons x s ih =>
    rw [List.splitOn_cons_eq_if_modifyHead] at h
    split at h
    · cases List.mem_cons.mp h with
      | inl h => exact Or.inr (by rw [h]; simp)
      | inr h =>
        cases ih h with
        | inl hwhole => exact Or.inr (by rw [hwhole.1]; simp)
        | inr hlt => exact Or.inr (Nat.lt_succ_of_lt hlt)
    · next hx =>
      obtain ⟨first, parts, hparts⟩ := List.exists_cons_of_ne_nil (List.splitOn_ne_nil c s)
      rw [hparts, List.modifyHead_cons] at h
      cases List.mem_cons.mp h with
      | inl h =>
        cases ih (hparts ▸ List.mem_cons_self) with
        | inl hwhole =>
          refine Or.inl ⟨by rw [h, hwhole.1], ?_⟩
          intro hc
          cases List.mem_cons.mp hc with
          | inl hc => exact hx (by simp [hc])
          | inr hc => exact hwhole.2 hc
        | inr hlt => exact Or.inr (by rw [h]; exact Nat.succ_lt_succ hlt)
      | inr h =>
        cases ih (hparts ▸ List.mem_cons_of_mem first h) with
        | inl hwhole => exact Or.inr (by rw [hwhole.1]; simp)
        | inr hlt => exact Or.inr (Nat.lt_succ_of_lt hlt)

theorem length_le_of_mem_splitOn {c : Char} {s part : Text} (h : part ∈ s.splitOn c) :
    part.length ≤ s.length := by
  cases mem_splitOn_cases h with
  | inl hwhole => exact Nat.le_of_eq (by rw [hwhole.1])
  | inr hlt => exact Nat.le_of_lt hlt

/-! ## Plain texts -/

theorem Plain.not_mem {text : Text} (h : Plain text) {c : Char} (hc : isPlain c = false) :
    c ∉ text := by
  intro hmem
  rw [h c hmem] at hc
  cases hc

theorem plain_ofNat (n : Nat) : Plain (Decimal.ofNat n) := by
  intro c hc
  obtain ⟨hlow, hhigh⟩ := Decimal.isDigit_ofNat n c hc
  have hdigit : c.isDigit = true := by
    simp only [Char.isDigit, Bool.and_eq_true, decide_eq_true_eq]
    exact ⟨hlow, hhigh⟩
  simp [isPlain, Char.isAlphanum, hdigit]

/-! ## White space at the end -/

theorem trimEnd_append {s : Text} (hs : trimEnd s = s) (t : Text) :
    trimEnd (s ++ t) = s ++ trimEnd t := by
  unfold trimEnd List.rdropWhile at *
  rw [List.reverse_append, List.dropWhile_append]
  split
  · next hwhite =>
    rw [hs, List.isEmpty_iff.mp hwhite, List.reverse_nil, List.append_nil]
  · rw [List.reverse_append, List.reverse_reverse]

theorem prefix_trimEnd (text : Text) : trimEnd text <+: text :=
  List.rdropWhile_prefix isWhite text

theorem Plain.trimEnd {text : Text} (h : Plain text) : trimEnd text = text := by
  apply List.rdropWhile_eq_self_iff.mpr
  intro hne hwhite
  have hlast := h _ (List.getLast_mem hne)
  simp only [isWhite, Bool.or_eq_true, decide_eq_true_eq] at hwhite
  obtain ((hc | hc) | hc) | hc := hwhite <;> rw [hc] at hlast <;> cases hlast

/-- A text that ends with another character. -/
theorem trimEnd_concat (s : Text) {c : Char} (hc : isWhite c = false) :
    trimEnd (s ++ [c]) = s ++ [c] := by
  apply List.rdropWhile_concat_neg
  simp [hc]

/-- Before a value, only the white space of the value can be at the end. -/
theorem trimEnd_field (name value : Text) :
    trimEnd (name ++ '=' :: value) = name ++ '=' :: trimEnd value := by
  rw [List.append_cons, trimEnd_append (trimEnd_concat name (by decide)), ← List.append_cons]

theorem trimEnd_intercalate {parts : List Text} (h : ∀ p ∈ parts, trimEnd p = p)
    (last : Text) : trimEnd (['&'].intercalate (parts ++ [last])) =
      ['&'].intercalate (parts ++ [trimEnd last]) := by
  induction parts with
  | nil => rw [List.nil_append, List.intercalate_singleton, List.nil_append,
      List.intercalate_singleton]
  | cons p parts ih =>
    have hrest := ih (fun q hq => h q (List.mem_cons_of_mem p hq))
    rw [List.cons_append, List.cons_append, List.intercalate_cons_of_ne_nil (by simp),
      List.intercalate_cons_of_ne_nil (by simp),
      trimEnd_append (trimEnd_concat p (by decide)), hrest]

/-! ## Reading -/

section Reading
variable {L : UrlLibrary} (hL : L.Lawful)
include hL

theorem getString_eq {array : L.JsonArray} {name value : Text}
    (hmem : (name, value) ∈ L.entries array)
    (hone : ∀ v, (name, v) ∈ L.entries array → v = value) :
    L.getString array name = some value := by
  cases h : L.getString array name with
  | none => exact absurd hmem (hL.getString_none array name value h)
  | some v => rw [hone v (hL.getString_some array name v h)]

theorem getString_eq_none {array : L.JsonArray} {name : Text}
    (hnone : ∀ v, (name, v) ∉ L.entries array) : L.getString array name = none := by
  cases h : L.getString array name with
  | none => rfl
  | some v => exact absurd (hL.getString_some array name v h) (hnone v)

/-- What is parsed was not too long. -/
theorem fits_of_parse {text : Text} {ton : TonUrl} (h : TonUrl.parse L text = some ton) :
    Fits text := by
  by_contra hlong
  rw [TonUrl.parse, hL.long text hlong] at h
  split at h <;> cases h

/-- An address of a transfer is read from the parts of its query. -/
theorem parse_eq {address rest : Text} (ha : Plain address)
    (hrest : rest = [] ∨ rest.head? = some '?')
    (hfits : Fits ("ton://transfer/".toList ++ address ++ rest)) :
    ∃ uri, TonUrl.parse L ("ton://transfer/".toList ++ address ++ rest) = TonUrl.read L uri ∧
      (L.localPath uri).filter (· ≠ '/') = address ∧
      L.entries (L.parseUrl (L.toString uri)) =
        ((query (trimEnd rest)).splitOn '&').filterMap L.entry := by
  obtain ⟨uri, hnew, -, hpath, hentries⟩ := hL.uri address rest ha hrest hfits
  have hscheme : hasScheme ("ton://transfer/".toList ++ address ++ rest) = true := by
    simp [hasScheme]
  have hslash : address.filter (· ≠ '/') = address := by
    rw [List.filter_eq_self]
    intro c hc
    have hne : c ≠ '/' := fun h => ha.not_mem (by decide) (h ▸ hc)
    exact decide_eq_true hne
  refine ⟨uri, ?_, ?_, hentries⟩
  · rw [TonUrl.parse, if_pos ⟨by simp, hscheme⟩, hnew]
    rfl
  · rw [hpath, List.filter_cons_of_neg (by decide), hslash]

theorem entry_plain {name : Text} (hname : Plain name) {value : Text} (heq : '=' ∉ value) :
    L.entry (name ++ '=' :: value) = some (name, L.unescape value) := by
  rw [hL.entry_pair name value (hname.not_mem (by decide)) heq, hL.unescape_plain name hname]

/-- A field that is not there is null or zero. -/
theorem read_eq {uri : L.Uri} {units : Nat}
    (hamount : L.getUInt128 (L.parseUrl (L.toString uri)) "amount".toList = some units)
    (hfee : ∀ v, ("fee-amount".toList, v) ∉ L.entries (L.parseUrl (L.toString uri)))
    (hforward : ∀ v, ("forward-amount".toList, v) ∉ L.entries (L.parseUrl (L.toString uri))) :
    ∃ ton, TonUrl.read L uri = some ton ∧
      ton.address = (L.localPath uri).filter (· ≠ '/') ∧ ton.amount = units ∧
      ton.jetton = L.getString (L.parseUrl (L.toString uri)) "jetton".toList ∧
      ton.comment = L.getString (L.parseUrl (L.toString uri)) "text".toList := by
  have hfee := hL.getUInt128_none _ _ (getString_eq_none hL hfee)
  have hforward := hL.getUInt128_none _ _ (getString_eq_none hL hforward)
  refine ⟨⟨L.authority uri, (L.localPath uri).filter (· ≠ '/'),
    L.getString (L.parseUrl (L.toString uri)) "jetton".toList,
    L.getString (L.parseUrl (L.toString uri)) "nft".toList, 0, 0, units,
    L.getString (L.parseUrl (L.toString uri)) "text".toList⟩, ?_, rfl, rfl, rfl, rfl⟩
  rw [TonUrl.read]
  simp only [hamount, hfee, hforward]
  rfl

omit hL in
theorem comment_of_read {uri : L.Uri} {ton : TonUrl} (h : TonUrl.read L uri = some ton) :
    ton.comment = L.getString (L.parseUrl (L.toString uri)) "text".toList := by
  simp only [TonUrl.read, Option.bind_eq_bind, Option.bind_eq_some_iff] at h
  obtain ⟨amount, -, fee, -, forward, -, h⟩ := h
  cases h
  rfl

end Reading

/-! ## Writing -/

/-- A name and its value. -/
def part (name : String) (value : Text) : Text := name.toList ++ '=' :: value

/-- What follows the address. -/
def tail (parts : List Text) : Text :=
  if parts = [] then [] else '?' :: ['&'].intercalate parts

/-- The address of a transfer with the parts of its query. -/
def transfer (address : Text) (parts : List Text) : Text :=
  "ton://transfer/".toList ++ address ++ tail parts

def amountParts (amount : Rat) (units : Nat) : List Text :=
  if amount > 0 then [part "amount" (Decimal.ofNat units)] else []

def textParts (message : Text) : List Text :=
  if message ≠ [] then [part "text" message] else []

/-- What a wallet writes for an amount in base units. -/
def TonUnknownWallet.invoice (address : Text) (amount : Rat) (units : Nat) (message : Text) :
    Text :=
  transfer address (amountParts amount units ++ textParts message)

/-- What a jetton wallet writes for its own address. -/
def JettonWallet.invoice (w : JettonWallet) (amount : Rat) (units : Nat) (message : Text) : Text :=
  transfer w.ownerAddress (part "jetton" w.jettonAddress :: (amountParts amount units ++
    if amount > 0 ∧ message ≠ [] then [[]] else []))

theorem tail_head (parts : List Text) : tail parts = [] ∨ (tail parts).head? = some '?' := by
  unfold tail
  split
  · exact Or.inl rfl
  · exact Or.inr rfl

/-- Only the last part is looked at for white space. -/
theorem trimEnd_tail {parts : List Text} (h : ∀ p ∈ parts, trimEnd p = p) (last : Text) :
    trimEnd (tail (parts ++ [last])) = tail (parts ++ [trimEnd last]) := by
  have hmark : trimEnd ['?'] = ['?'] := trimEnd_concat [] (by decide)
  rw [tail, if_neg (by simp), tail, if_neg (by simp), ← List.singleton_append,
    trimEnd_append hmark, trimEnd_intercalate h, List.singleton_append]

theorem trimEnd_tail_self {parts : List Text} (h : ∀ p ∈ parts, trimEnd p = p) :
    trimEnd (tail parts) = tail parts := by
  by_cases hne : parts = []
  · rw [hne]
    rfl
  · have hbefore : ∀ p ∈ parts.dropLast, trimEnd p = p :=
      fun p hp => h p (List.mem_of_mem_dropLast hp)
    rw [← List.dropLast_append_getLast hne, trimEnd_tail hbefore,
      h _ (List.getLast_mem hne)]

theorem getInvoiceUrl_eq {w : TonUnknownWallet} {amount : Rat} {units : Nat}
    (h : Balance.fromDecimal mul w.denominator amount = .ok units) (address message : Text) :
    w.getInvoiceUrl mul address amount message =
      .ok (TonUnknownWallet.invoice address amount units message) := by
  unfold TonUnknownWallet.invoice transfer
  by_cases hamount : amount > 0
  · have hnot : ¬ amount ≤ 0 := Rat.not_le.mpr hamount
    by_cases hmessage : message = []
    · simp [TonUnknownWallet.getInvoiceUrl, h, hamount, hmessage, amountParts, textParts, tail,
        part, bind, Except.bind, pure, Except.pure]
    · simp [TonUnknownWallet.getInvoiceUrl, h, hamount, hmessage, hnot, amountParts, textParts,
        tail, part, bind, Except.bind, pure, Except.pure, List.intercalate]
  · have hle : amount ≤ 0 := Rat.not_lt.mp hamount
    by_cases hmessage : message = []
    · simp [TonUnknownWallet.getInvoiceUrl, hamount, hmessage, amountParts, textParts, tail,
        bind, Except.bind, pure, Except.pure]
    · simp [TonUnknownWallet.getInvoiceUrl, hamount, hmessage, hle, amountParts, textParts, tail,
        part, bind, Except.bind, pure, Except.pure, List.intercalate]

theorem getInvoiceUrl_jetton {w : JettonWallet} {amount : Rat} {units : Nat}
    (h : Balance.fromDecimal mul w.denominator amount = .ok units) (message : Text) :
    w.getInvoiceUrl mul w.address amount message = .ok (w.invoice amount units message) := by
  unfold JettonWallet.invoice transfer
  by_cases hamount : amount > 0
  · by_cases hmessage : message = []
    · simp [JettonWallet.getInvoiceUrl, h, hamount, hmessage, amountParts, tail, part,
        bind, Except.bind, pure, Except.pure, List.intercalate]
    · simp [JettonWallet.getInvoiceUrl, h, hamount, hmessage, amountParts, tail,
        part, bind, Except.bind, pure, Except.pure, List.intercalate]
  · simp [JettonWallet.getInvoiceUrl, hamount, amountParts, tail, part, pure, Except.pure,
      List.intercalate]

/-! ## The parts of the query -/

theorem takeWhile_of_not_mem {s : Text} (h : '#' ∉ s) : s.takeWhile (· ≠ '#') = s := by
  rw [List.takeWhile_eq_self_iff]
  intro c hc
  exact decide_eq_true (fun heq => h (heq ▸ hc))

/-- Only the last part is looked at for delimiters. -/
theorem splitOn_query {parts : List Text} (h : ∀ p ∈ parts, '&' ∉ p ∧ '#' ∉ p) (last : Text) :
    (query (tail (parts ++ [last]))).splitOn '&' =
      parts ++ (last.takeWhile (· ≠ '#')).splitOn '&' := by
  have hquery : query (tail (parts ++ [last])) =
      (['&'].intercalate (parts ++ [last])).takeWhile (· ≠ '#') := by
    rw [tail, if_neg (by simp)]
    rfl
  rw [hquery]
  clear hquery
  induction parts with
  | nil => rw [List.nil_append, List.intercalate_singleton, List.nil_append]
  | cons p parts ih =>
    obtain ⟨hamp, hhash⟩ := h p List.mem_cons_self
    have hbefore : ∀ c ∈ p ++ ['&'], decide (c ≠ '#') = true := by
      intro c hc
      apply decide_eq_true
      intro heq
      rw [heq] at hc
      cases List.mem_append.mp hc with
      | inl hc => exact hhash hc
      | inr hc => exact absurd (List.mem_singleton.mp hc) (by decide)
    have hrest := ih (fun q hq => h q (List.mem_cons_of_mem p hq))
    rw [List.cons_append, List.intercalate_cons_of_ne_nil (by simp),
      List.takeWhile_append_of_pos hbefore, List.append_assoc, List.singleton_append,
      List.splitOn_append_cons_self_of_not_mem hamp, hrest, List.cons_append]

theorem splitOn_query_clean {parts : List Text} (hne : parts ≠ [])
    (h : ∀ p ∈ parts, '&' ∉ p ∧ '#' ∉ p) : (query (tail parts)).splitOn '&' = parts := by
  have hsplit : parts = parts.dropLast ++ [parts.getLast hne] :=
    (List.dropLast_append_getLast hne).symm
  obtain ⟨hamp, hhash⟩ := h (parts.getLast hne) (List.getLast_mem hne)
  have hbefore : ∀ p ∈ parts.dropLast, '&' ∉ p ∧ '#' ∉ p :=
    fun p hp => h p (List.mem_of_mem_dropLast hp)
  have hlast := splitOn_query hbefore (parts.getLast hne)
  rw [takeWhile_of_not_mem hhash, List.splitOn_eq_singleton hamp, ← hsplit] at hlast
  exact hlast

/-- The query has its parts, and without any an empty one. -/
theorem mem_splitOn_query {parts : List Text} (h : ∀ p ∈ parts, '&' ∉ p ∧ '#' ∉ p) :
    (∀ p ∈ parts, p ∈ (query (tail parts)).splitOn '&') ∧
      ∀ p ∈ (query (tail parts)).splitOn '&', p ∈ parts ∨ p = [] := by
  by_cases hne : parts = []
  · have hsplit : (query (tail parts)).splitOn '&' = [[]] := by
      rw [hne]
      rfl
    rw [hsplit]
    exact ⟨by simp [hne], fun p hp => Or.inr (List.mem_singleton.mp hp)⟩
  · rw [splitOn_query_clean hne h]
    exact ⟨fun p hp => hp, fun p hp => Or.inl hp⟩

theorem not_mem_field {name value : Text} (hname : Plain name) {c : Char}
    (hc : isPlain c = false) (heq : c ≠ '=') (h : c ∉ value) : c ∉ name ++ '=' :: value := by
  intro hmem
  cases List.mem_append.mp hmem with
  | inl hmem => exact hname.not_mem hc hmem
  | inr hmem => exact h (List.mem_of_ne_of_mem heq hmem)

/-- A piece of the text is its name or the whole message, or is shorter. -/
theorem text_piece {message p piece : Text} (hp : p ∈ (part "text" message).splitOn '&')
    (hpiece : piece ∈ p.splitOn '=') : piece = "text".toList ∨ piece.length < message.length ∨
      piece = message ∧ '&' ∉ message ∧ '=' ∉ message := by
  have hname : Plain "text".toList := List.all_eq_true.mp rfl
  have hpart : ∀ value : Text, '&' ∉ value → '&' ∉ part "text" value :=
    fun value => not_mem_field hname (by decide) (by decide)
  have hfirst : ∀ value : Text, piece ∈ (part "text" value).splitOn '=' →
      piece = "text".toList ∨ piece ∈ value.splitOn '=' := by
    intro value hmem
    rw [part, List.splitOn_append_cons_self_of_not_mem (hname.not_mem (by decide))] at hmem
    exact List.mem_cons.mp hmem
  by_cases hamp : '&' ∈ message
  · obtain ⟨before, after, hmessage, hbefore⟩ := List.eq_append_cons_of_mem hamp
    have hsplit : (part "text" message).splitOn '&' =
        part "text" before :: after.splitOn '&' := by
      have happend : part "text" message = part "text" before ++ '&' :: after := by
        rw [hmessage, part, part, List.append_assoc, List.cons_append]
      rw [happend, List.splitOn_append_cons_self_of_not_mem (hpart before hbefore)]
    have hlength : message.length = before.length + (after.length + 1) := by
      rw [hmessage, List.length_append, List.length_cons]
    rw [hsplit] at hp
    cases List.mem_cons.mp hp with
    | inl hp =>
      rw [hp] at hpiece
      cases hfirst before hpiece with
      | inl htext => exact Or.inl htext
      | inr hmem =>
        have hle := length_le_of_mem_splitOn hmem
        exact Or.inr (Or.inl (by omega))
    | inr hp =>
      have hle := length_le_of_mem_splitOn hp
      have hle' := length_le_of_mem_splitOn hpiece
      exact Or.inr (Or.inl (by omega))
  · rw [List.splitOn_eq_singleton (hpart message hamp), List.mem_singleton] at hp
    rw [hp] at hpiece
    cases hfirst message hpiece with
    | inl htext => exact Or.inl htext
    | inr hmem =>
      cases mem_splitOn_cases hmem with
      | inl hwhole => exact Or.inr (Or.inr ⟨hwhole.1, hamp, hwhole.2⟩)
      | inr hlt => exact Or.inr (Or.inl hlt)

/-! ## The comment -/

theorem amountParts_clean (amount : Rat) (units : Nat) :
    ∀ p ∈ amountParts amount units, '&' ∉ p ∧ '#' ∉ p := by
  intro p hp
  have hname : Plain "amount".toList := List.all_eq_true.mp rfl
  have hdigits := plain_ofNat units
  unfold amountParts at hp
  split at hp
  · rw [List.mem_singleton] at hp
    rw [hp]
    exact ⟨not_mem_field hname (by decide) (by decide) (hdigits.not_mem (by decide)),
      not_mem_field hname (by decide) (by decide) (hdigits.not_mem (by decide))⟩
  · cases hp

section Comment
variable {L : UrlLibrary} (hL : L.Lawful)
include hL

theorem clean_nil : Clean L [] where
  ampersand := List.not_mem_nil
  equals := List.not_mem_nil
  hash := List.not_mem_nil
  trimmed := rfl
  unescape := hL.unescape_plain [] (fun _ hc => absurd hc List.not_mem_nil)

theorem entry_amount (units : Nat) :
    L.entry (part "amount" (Decimal.ofNat units)) =
      some ("amount".toList, Decimal.ofNat units) := by
  have hname : Plain "amount".toList := List.all_eq_true.mp rfl
  rw [part, entry_plain hL hname ((plain_ofNat units).not_mem (by decide)),
    hL.unescape_plain _ (plain_ofNat units)]

/-- A message that is read as it was written is clean; what is written has lost the white space
    at its end. -/
theorem clean_of_entry {amount : Rat} {units : Nat} {message p : Text} (hne : message ≠ [])
    (hp : p ∈ (query (tail
      (amountParts amount units ++ [part "text" (trimEnd message)]))).splitOn '&')
    (hentry : L.entry p = some ("text".toList, message)) : Clean L message := by
  have hname : Plain "text".toList := List.all_eq_true.mp rfl
  have hpart : (part "text" (trimEnd message)).takeWhile (· ≠ '#') =
      part "text" ((trimEnd message).takeWhile (· ≠ '#')) := by
    have hbefore : ∀ c ∈ "text".toList ++ ['='], decide (c ≠ '#') = true :=
      List.all_eq_true.mp rfl
    rw [part, part, List.append_cons, List.takeWhile_append_of_pos hbefore, ← List.append_cons]
  rw [splitOn_query (amountParts_clean amount units), hpart] at hp
  cases List.mem_append.mp hp with
  | inl hp =>
    unfold amountParts at hp
    split at hp
    · rw [List.mem_singleton.mp hp, entry_amount hL] at hentry
      have hnames := congrArg (fun e => e.map Prod.fst) hentry
      exact absurd hnames (by simp)
    · cases hp
  | inr hp =>
    obtain ⟨piece, hpiece, hvalue⟩ := (hL.entry_value p _ _ hentry).resolve_left hne
    have hlength : message.length ≤ piece.length := by
      rw [hvalue]
      exact hL.unescape_length piece
    have hstart : (trimEnd message).takeWhile (fun c => decide (c ≠ '#')) <+: message :=
      (List.takeWhile_prefix _).trans (prefix_trimEnd message)
    have hle := hstart.length_le
    cases text_piece hp hpiece with
    | inl htext =>
      -- the message is the name of its own field
      rw [htext, hL.unescape_plain _ hname] at hvalue
      rw [hvalue]
      exact ⟨hname.not_mem (by decide), hname.not_mem (by decide), hname.not_mem (by decide),
        hname.trimEnd, hL.unescape_plain _ hname⟩
    | inr hcases =>
      cases hcases with
      | inl hlt => exact absurd hlength (by omega)
      | inr hwhole =>
        obtain ⟨heq, hamp, heqs⟩ := hwhole
        have hall : (trimEnd message).takeWhile (· ≠ '#') = message := by
          apply hstart.eq_of_length
          rw [heq] at hlength
          omega
        have htrimmed : trimEnd message = message := by
          apply (prefix_trimEnd message).eq_of_length_le
          calc message.length = ((trimEnd message).takeWhile (· ≠ '#')).length := by rw [hall]
            _ ≤ (trimEnd message).length := (List.takeWhile_prefix _).length_le
        rw [hall] at heq hamp heqs
        refine ⟨hamp, heqs, ?_, htrimmed, ?_⟩
        · intro hhash
          have hc := List.mem_takeWhile_imp (hall ▸ hhash)
          simp at hc
        · rw [← heq]
          rw [← hvalue, heq]

/-! ## The fields -/

theorem Plain.clean {text : Text} (h : Plain text) : Clean L text where
  ampersand := h.not_mem (by decide)
  equals := h.not_mem (by decide)
  hash := h.not_mem (by decide)
  trimmed := h.trimEnd
  unescape := hL.unescape_plain text h

omit hL in
/-- An array has the fields, and nothing else with a name. -/
structure Holds (array : L.JsonArray) (fields : List (Text × Text)) : Prop where
  keys : (fields.map Prod.fst).Nodup
  mem : ∀ f ∈ fields, f ∈ L.entries array
  only : ∀ f ∈ L.entries array, f ∈ fields ∨ f.1 = []

theorem Holds.getString_some {array : L.JsonArray} {fields : List (Text × Text)}
    (h : Holds array fields) {name value : Text} (hname : name ≠ [])
    (hmem : (name, value) ∈ fields) : L.getString array name = some value := by
  apply getString_eq hL (h.mem _ hmem)
  intro v hv
  have hfield := (h.only _ hv).resolve_right hname
  have heq := List.inj_on_of_nodup_map h.keys hfield hmem rfl
  exact congrArg Prod.snd heq

omit hL in
theorem Holds.not_mem_entries {array : L.JsonArray} {fields : List (Text × Text)}
    (h : Holds array fields) {name : Text} (hname : name ≠ [])
    (habsent : name ∉ fields.map Prod.fst) (v : Text) : (name, v) ∉ L.entries array := by
  intro hv
  have hfield := (h.only _ hv).resolve_right hname
  exact habsent (List.mem_map_of_mem hfield)

omit hL in
/-- Fields that are told apart and whose values come back. -/
structure Fields (L : UrlLibrary) (fields : List (Text × Text)) : Prop where
  keys : (fields.map Prod.fst).Nodup
  names : ∀ f ∈ fields, Plain f.1
  values : ∀ f ∈ fields, Clean L f.2

omit hL in
theorem Fields.parts {fields : List (Text × Text)} (h : Fields L fields) {extra : List Text}
    (hextra : ∀ p ∈ extra, p = []) :
    ∀ p ∈ fields.map (fun f => f.1 ++ '=' :: f.2) ++ extra, '&' ∉ p ∧ '#' ∉ p := by
  intro p hp
  cases List.mem_append.mp hp with
  | inl hp =>
    obtain ⟨f, hf, hfp⟩ := List.mem_map.mp hp
    rw [← hfp]
    exact ⟨not_mem_field (h.names f hf) (by decide) (by decide) (h.values f hf).ampersand,
      not_mem_field (h.names f hf) (by decide) (by decide) (h.values f hf).hash⟩
  | inr hp =>
    rw [hextra p hp]
    exact ⟨List.not_mem_nil, List.not_mem_nil⟩

omit hL in
theorem Fields.trimmed {fields : List (Text × Text)} (h : Fields L fields) {extra : List Text}
    (hextra : ∀ p ∈ extra, p = []) :
    ∀ p ∈ fields.map (fun f => f.1 ++ '=' :: f.2) ++ extra, trimEnd p = p := by
  intro p hp
  cases List.mem_append.mp hp with
  | inl hp =>
    obtain ⟨f, hf, hfp⟩ := List.mem_map.mp hp
    rw [← hfp, trimEnd_field, (h.values f hf).trimmed]
  | inr hp =>
    rw [hextra p hp]
    rfl

theorem Fields.entry {fields : List (Text × Text)} (h : Fields L fields) {f : Text × Text}
    (hf : f ∈ fields) : L.entry (f.1 ++ '=' :: f.2) = some f := by
  rw [entry_plain hL (h.names f hf) (h.values f hf).equals, (h.values f hf).unescape]

/-- The array of an address with the fields in its query, and perhaps with an `&` at the end. -/
theorem Fields.holds {array : L.JsonArray} {fields : List (Text × Text)} (h : Fields L fields)
    {extra : List Text} (hextra : ∀ p ∈ extra, p = [])
    (hentries : L.entries array = ((query (tail
      (fields.map (fun f => f.1 ++ '=' :: f.2) ++ extra))).splitOn '&').filterMap L.entry) :
    Holds array fields := by
  obtain ⟨hparts, hsplit⟩ := mem_splitOn_query (h.parts hextra)
  have hnil : ∀ p, p = [] → ∀ f, L.entry p = some f → f.1 = [] := by
    intro p hp f hf
    rw [hp] at hf
    rw [hL.entry_nil f hf]
  refine ⟨h.keys, ?_, ?_⟩
  · intro f hf
    rw [hentries, List.mem_filterMap]
    exact ⟨_, hparts _ (List.mem_append_left extra (List.mem_map_of_mem hf)), h.entry hL hf⟩
  · intro f hf
    rw [hentries, List.mem_filterMap] at hf
    obtain ⟨p, hp, hpf⟩ := hf
    cases hsplit p hp with
    | inl hp =>
      cases List.mem_append.mp hp with
      | inl hp =>
        obtain ⟨g, hg, hgp⟩ := List.mem_map.mp hp
        rw [← hgp, h.entry hL hg] at hpf
        cases hpf
        exact Or.inl hg
      | inr hp => exact Or.inr (hnil p (hextra p hp) f hpf)
    | inr hp => exact Or.inr (hnil p hp f hpf)

def amountFields (amount : Rat) (units : Nat) : List (Text × Text) :=
  if amount > 0 then [("amount".toList, Decimal.ofNat units)] else []

def textFields (message : Text) : List (Text × Text) :=
  if message ≠ [] then [("text".toList, message)] else []

omit hL in
theorem map_amountFields (amount : Rat) (units : Nat) :
    (amountFields amount units).map (fun f => f.1 ++ '=' :: f.2) = amountParts amount units := by
  unfold amountFields amountParts
  split <;> rfl

omit hL in
theorem map_textFields (message : Text) :
    (textFields message).map (fun f => f.1 ++ '=' :: f.2) = textParts message := by
  unfold textFields textParts
  split <;> rfl

omit hL in
theorem mem_amountFields {amount : Rat} {units : Nat} {f : Text × Text} :
    f ∈ amountFields amount units ↔ amount > 0 ∧ f = ("amount".toList, Decimal.ofNat units) := by
  unfold amountFields
  split <;> simp [*]

omit hL in
theorem mem_textFields {message : Text} {f : Text × Text} :
    f ∈ textFields message ↔ message ≠ [] ∧ f = ("text".toList, message) := by
  unfold textFields
  split <;> simp [*]

/-- The amount is read from its field, or is zero without one. -/
theorem Holds.getUInt128 {array : L.JsonArray} {fields : List (Text × Text)}
    (h : Holds array fields) {units : Nat} (hunits : units < 2 ^ 128)
    (hfield : ("amount".toList, Decimal.ofNat units) ∈ fields ∨
      units = 0 ∧ "amount".toList ∉ fields.map Prod.fst) :
    L.getUInt128 array "amount".toList = some units := by
  cases hfield with
  | inl hfield =>
    apply hL.getUInt128_some array _ units hunits
    exact h.getString_some hL (by simp) hfield
  | inr habsent =>
    rw [habsent.1]
    apply hL.getUInt128_none
    apply getString_eq_none hL
    exact h.not_mem_entries (by simp) habsent.2

/-- A transfer is read from its fields. -/
theorem Fields.parse {address : Text} (ha : Plain address) {fields : List (Text × Text)}
    (h : Fields L fields) {extra : List Text} (hextra : ∀ p ∈ extra, p = []) {units : Nat}
    (hunits : units < 2 ^ 128)
    (hamount : ("amount".toList, Decimal.ofNat units) ∈ fields ∨
      units = 0 ∧ "amount".toList ∉ fields.map Prod.fst)
    (hfee : "fee-amount".toList ∉ fields.map Prod.fst)
    (hforward : "forward-amount".toList ∉ fields.map Prod.fst)
    (hfits : Fits (transfer address (fields.map (fun f => f.1 ++ '=' :: f.2) ++ extra))) :
    ∃ ton array, TonUrl.parse L (transfer address
        (fields.map (fun f => f.1 ++ '=' :: f.2) ++ extra)) = some ton ∧
      ton.address = address ∧ ton.amount = units ∧ Holds array fields ∧
      ton.jetton = L.getString array "jetton".toList ∧
      ton.comment = L.getString array "text".toList := by
  obtain ⟨uri, hparse, hpath, hentries⟩ := parse_eq hL ha
    (tail_head (fields.map (fun f => f.1 ++ '=' :: f.2) ++ extra)) hfits
  rw [trimEnd_tail_self (h.trimmed hextra)] at hentries
  have hholds := h.holds hL hextra hentries
  obtain ⟨ton, hread, haddress, hton, hjetton, hcomment⟩ := read_eq hL
    (hholds.getUInt128 hL hunits hamount) (hholds.not_mem_entries (by simp) hfee)
    (hholds.not_mem_entries (by simp) hforward)
  exact ⟨ton, _, hparse.trans hread, haddress.trans hpath, hton, hholds, hjetton, hcomment⟩

end Comment

/-! ## The round trip -/

/-- A whole number of units is left. -/
theorem roundEven_intCast (n : Int) : roundEven n = n := by
  rw [roundEven, Rat.floor_intCast]
  simp

theorem fromDecimal_zero (hmul : ∀ y, mul 0 y = .ok 0) (denominator : Nat) :
    Balance.fromDecimal mul denominator 0 = .ok 0 := by
  have hround : roundEven 0 = 0 := roundEven_intCast 0
  rw [Balance.fromDecimal, hmul, ok_bind, hround]
  rfl

theorem fromDecimal_lt {denominator : Nat} {amount : Rat} {units : Nat}
    (h : Balance.fromDecimal mul denominator amount = .ok units) : units < 2 ^ 128 := by
  rw [Balance.fromDecimal, bind_ok_iff] at h
  obtain ⟨product, -, h⟩ := h
  dsimp only at h
  split at h
  · cases h
    omega
  · cases h

section RoundTrip
variable {mul} {L : UrlLibrary} (hL : L.Lawful) (hmul : ∀ y, mul 0 y = .ok 0)
include hL hmul

omit hL in
theorem units_of_not_pos {denominator : Nat} {amount : Rat} {units : Nat} (hamount : 0 ≤ amount)
    (h : Balance.fromDecimal mul denominator amount = .ok units) (hnot : ¬ amount > 0) :
    units = 0 := by
  have hzero : amount = 0 := Rat.le_antisymm (Rat.not_lt.mp hnot) hamount
  rw [hzero, fromDecimal_zero mul hmul] at h
  cases h
  rfl

omit hL in
/-- The amount is a field where it is not zero. -/
theorem mem_amount_or {denominator : Nat} {amount : Rat} {units : Nat} (hamount : 0 ≤ amount)
    (h : Balance.fromDecimal mul denominator amount = .ok units) :
    ("amount".toList, Decimal.ofNat units) ∈ amountFields amount units ∨
      units = 0 ∧ amountFields amount units = [] := by
  by_cases hpos : amount > 0
  · exact Or.inl (mem_amountFields.mpr ⟨hpos, rfl⟩)
  · exact Or.inr ⟨units_of_not_pos hmul hamount h hpos, if_neg hpos⟩

theorem TonUnknownWallet.roundTrips_clean (w : TonUnknownWallet) {address : Text}
    (ha : Plain address) {amount : Rat} (hamount : 0 ≤ amount) {units : Nat}
    (hunits : Balance.fromDecimal mul w.denominator amount = .ok units) {message : Text}
    (hfits : Fits (TonUnknownWallet.invoice address amount units message))
    (hmessage : Clean L message) : w.RoundTrips mul L address amount message := by
  have hfields : Fields L (amountFields amount units ++ textFields message) := by
    constructor
    case keys =>
      unfold amountFields textFields
      split <;> split <;> simp
    case names =>
      intro f hf
      cases List.mem_append.mp hf with
      | inl hf => exact (mem_amountFields.mp hf).2 ▸ List.all_eq_true.mp rfl
      | inr hf => exact (mem_textFields.mp hf).2 ▸ List.all_eq_true.mp rfl
    case values =>
      intro f hf
      cases List.mem_append.mp hf with
      | inl hf => exact (mem_amountFields.mp hf).2 ▸ (plain_ofNat units).clean hL
      | inr hf => exact (mem_textFields.mp hf).2 ▸ hmessage
  have hnames : ∀ name ∈ (amountFields amount units ++ textFields message).map Prod.fst,
      name = "amount".toList ∨ name = "text".toList := by
    unfold amountFields textFields
    split <;> split <;> simp
  have hextra : ∀ p ∈ ([] : List Text), p = [] := by simp
  have hfield : ("amount".toList, Decimal.ofNat units) ∈
      amountFields amount units ++ textFields message ∨ units = 0 ∧
        "amount".toList ∉ (amountFields amount units ++ textFields message).map Prod.fst := by
    cases mem_amount_or hmul hamount hunits with
    | inl hmem => exact Or.inl (List.mem_append_left _ hmem)
    | inr hnone =>
      refine Or.inr ⟨hnone.1, ?_⟩
      rw [hnone.2, textFields]
      split <;> simp
  have hparts : (amountFields amount units ++ textFields message).map
      (fun f => f.1 ++ '=' :: f.2) ++ [] = amountParts amount units ++ textParts message := by
    rw [List.append_nil, List.map_append, map_amountFields, map_textFields]
  obtain ⟨ton, array, hparse, haddress, hton, hholds, -, hcomment⟩ := hfields.parse hL ha hextra
    (fromDecimal_lt mul hunits) hfield (fun h => by simpa using hnames _ h)
    (fun h => by simpa using hnames _ h) (by rw [hparts]; exact hfits)
  rw [hparts] at hparse
  refine ⟨_, units, ton, getInvoiceUrl_eq mul hunits address message, hunits, hparse, haddress,
    hton, ?_⟩
  rw [hcomment]
  by_cases hne : message = []
  · have hno : "text".toList ∉
        (amountFields amount units ++ textFields message).map Prod.fst := by
      rw [hne, textFields, if_neg (by simp), amountFields]
      split <;> simp
    rw [getString_eq_none hL (hholds.not_mem_entries (by simp) hno), hne]
    rfl
  · rw [hholds.getString_some hL (by simp)
      (List.mem_append_right _ (mem_textFields.mpr ⟨hne, rfl⟩))]
    rfl

omit hmul in
theorem TonUnknownWallet.clean_of_roundTrips {w : TonUnknownWallet} {address : Text}
    (ha : Plain address) {amount : Rat} {message : Text}
    (h : w.RoundTrips mul L address amount message) : Clean L message := by
  obtain ⟨url, units, ton, hurl, hunits, hton, -, -, hcomment⟩ := h
  by_cases hne : message = []
  · rw [hne]
    exact clean_nil hL
  rw [getInvoiceUrl_eq mul hunits] at hurl
  cases hurl
  obtain ⟨uri, hparse, -, hentries⟩ := parse_eq hL ha
    (tail_head (amountParts amount units ++ textParts message)) (fits_of_parse hL hton)
  have hread : TonUrl.read L uri = some ton := hparse.symm.trans hton
  have hsome : L.getString (L.parseUrl (L.toString uri)) "text".toList = some message := by
    rw [comment_of_read hread] at hcomment
    cases hget : L.getString (L.parseUrl (L.toString uri)) "text".toList with
    | none =>
      rw [hget] at hcomment
      exact absurd hcomment.symm hne
    | some v =>
      rw [hget] at hcomment
      exact congrArg some hcomment
  have hmem := hL.getString_some _ _ _ hsome
  have htext : textParts message = [part "text" message] := if_pos hne
  have htrimmed : ∀ p ∈ amountParts amount units, trimEnd p = p := by
    intro p hp
    rw [← map_amountFields] at hp
    obtain ⟨f, hf, hfp⟩ := List.mem_map.mp hp
    rw [← hfp, trimEnd_field, (mem_amountFields.mp hf).2, (plain_ofNat units).trimEnd]
  rw [hentries, htext, trimEnd_tail htrimmed, part, trimEnd_field,
    List.mem_filterMap] at hmem
  obtain ⟨p, hp, hentry⟩ := hmem
  exact clean_of_entry hL hne hp hentry

/-- The address of a jetton wallet has the fields that there are without a comment. -/
theorem JettonWallet.parse_invoice (w : JettonWallet) (howner : Plain w.ownerAddress)
    (hjetton : Plain w.jettonAddress) {amount : Rat} (hamount : 0 ≤ amount) {units : Nat}
    (hunits : Balance.fromDecimal mul w.denominator amount = .ok units) {message : Text}
    (hfits : Fits (w.invoice amount units message)) :
    ∃ ton, TonUrl.parse L (w.invoice amount units message) = some ton ∧
      ton.address = w.ownerAddress ∧ ton.jetton = some w.jettonAddress ∧ ton.amount = units ∧
      ton.comment = none := by
  have hfields : Fields L (("jetton".toList, w.jettonAddress) :: amountFields amount units) := by
    constructor
    case keys =>
      unfold amountFields
      split <;> simp
    case names =>
      intro f hf
      cases List.mem_cons.mp hf with
      | inl hf => exact hf ▸ List.all_eq_true.mp rfl
      | inr hf => exact (mem_amountFields.mp hf).2 ▸ List.all_eq_true.mp rfl
    case values =>
      intro f hf
      cases List.mem_cons.mp hf with
      | inl hf => exact hf ▸ hjetton.clean hL
      | inr hf => exact (mem_amountFields.mp hf).2 ▸ (plain_ofNat units).clean hL
  have hnames : ∀ name ∈ (("jetton".toList, w.jettonAddress) ::
      amountFields amount units).map Prod.fst, name = "jetton".toList ∨ name = "amount".toList := by
    unfold amountFields
    split <;> simp
  have hextra : ∀ p ∈ (if amount > 0 ∧ message ≠ [] then [[]] else [] : List Text), p = [] := by
    split <;> simp
  have hfield : ("amount".toList, Decimal.ofNat units) ∈
      ("jetton".toList, w.jettonAddress) :: amountFields amount units ∨ units = 0 ∧
        "amount".toList ∉ (("jetton".toList, w.jettonAddress) ::
          amountFields amount units).map Prod.fst := by
    apply (mem_amount_or hmul hamount hunits).imp (List.mem_cons_of_mem _)
    intro hnone
    exact ⟨hnone.1, by simp [hnone.2]⟩
  have hparts : (("jetton".toList, w.jettonAddress) :: amountFields amount units).map
      (fun f => f.1 ++ '=' :: f.2) =
        part "jetton" w.jettonAddress :: amountParts amount units := by
    rw [List.map_cons, map_amountFields, part]
  obtain ⟨ton, array, hparse, haddress, hton, hholds, hjettonton, hcomment⟩ :=
    hfields.parse hL howner hextra (fromDecimal_lt mul hunits) hfield
      (fun h => by simpa using hnames _ h) (fun h => by simpa using hnames _ h)
      (by rw [hparts]; exact hfits)
  rw [hparts] at hparse
  refine ⟨ton, hparse, haddress, ?_, hton, ?_⟩
  · rw [hjettonton, hholds.getString_some hL (by simp) List.mem_cons_self]
  · rw [hcomment, getString_eq_none hL
      (hholds.not_mem_entries (by simp) (fun h => by simpa using hnames _ h))]

/-- An invoice comes back exactly where its amount has base units, it is not too long and its
    comment is clean, that of a jetton wallet where it has no comment. -/
theorem getInvoiceUrl_roundTrips_iff :
    (∀ (w : TonUnknownWallet) (address : Text) (amount : Rat) (message : Text),
      Plain address → 0 ≤ amount → (w.RoundTrips mul L address amount message ↔
        (∃ units, Balance.fromDecimal mul w.denominator amount = .ok units ∧
          Fits (TonUnknownWallet.invoice address amount units message)) ∧ Clean L message)) ∧
    (∀ (w : JettonWallet) (amount : Rat) (message : Text), Plain w.ownerAddress →
      Plain w.jettonAddress → 0 ≤ amount → (w.RoundTrips mul L amount message ↔
        (∃ units, Balance.fromDecimal mul w.denominator amount = .ok units ∧
          Fits (w.invoice amount units message)) ∧ message = [])) := by
  constructor
  · intro w address amount message ha hamount
    constructor
    · intro h
      have hclean := w.clean_of_roundTrips hL ha h
      obtain ⟨url, units, ton, hurl, hunits, hton, -⟩ := h
      rw [getInvoiceUrl_eq mul hunits] at hurl
      cases hurl
      exact ⟨⟨units, hunits, fits_of_parse hL hton⟩, hclean⟩
    · intro h
      obtain ⟨⟨units, hunits, hfits⟩, hclean⟩ := h
      exact w.roundTrips_clean hL hmul ha hamount hunits hfits hclean
  · intro w amount message howner hjetton hamount
    constructor
    · intro h
      obtain ⟨url, units, ton, hurl, hunits, hton, -, -, -, hcomment⟩ := h
      rw [getInvoiceUrl_jetton mul hunits] at hurl
      cases hurl
      have hfits := fits_of_parse hL hton
      obtain ⟨ton', hton', -, -, -, hnone⟩ :=
        w.parse_invoice hL hmul howner hjetton hamount hunits hfits
      rw [hton] at hton'
      cases hton'
      rw [hnone] at hcomment
      exact ⟨⟨units, hunits, hfits⟩, hcomment.symm⟩
    · intro h
      obtain ⟨⟨units, hunits, hfits⟩, hmessage⟩ := h
      obtain ⟨ton, hton, haddress, hjettonaddress, hamount', hnone⟩ :=
        w.parse_invoice hL hmul howner hjetton hamount hunits hfits
      refine ⟨_, units, ton, getInvoiceUrl_jetton mul hunits message, hunits, hton, haddress,
        hjettonaddress, hamount', ?_⟩
      rw [hnone, hmessage]
      rfl

end RoundTrip

/-! ## A library -/

namespace Sample

def hexDigit (c : Char) : Option Nat :=
  if c.isDigit then some (c.toNat - 48)
  else if 'A' ≤ c ∧ c ≤ 'F' then some (c.toNat - 55)
  else if 'a' ≤ c ∧ c ≤ 'f' then some (c.toNat - 87)
  else none

/-- The escapes of ASCII characters. -/
def unescape : Text → Text
  | '%' :: a :: b :: rest =>
    match hexDigit a, hexDigit b with
    | some x, some y => Char.ofNat (16 * x + y) :: unescape rest
    | _, _ => '%' :: unescape (a :: b :: rest)
  | c :: rest => c :: unescape rest
  | [] => []

def entry (p : Text) : Option (Text × Text) :=
  match p.splitOn '=' with
  | [name, value] => some (unescape name, unescape value)
  | _ => none

def getString (array : List (Text × Text)) (name : Text) : Option Text :=
  (array.find? (·.1 = name)).map Prod.snd

def library : UrlLibrary where
  Uri := Text
  JsonArray := List (Text × Text)
  newUri text := if Fits text then some (trimEnd text) else none
  authority uri := (uri.drop 6).takeWhile (· ≠ '/')
  localPath uri := ((uri.drop 6).dropWhile (· ≠ '/')).takeWhile (· ≠ '?')
  toString uri := uri
  parseUrl text := ((query (text.dropWhile (· ≠ '?'))).splitOn '&').filterMap entry
  getString := getString
  getUInt128 array name :=
    match getString array name with
    | none => some 0
    | some text => (Decimal.toNat? text).filter (· < 2 ^ 128)
  entries array := array
  entry := entry
  unescape := unescape

theorem newUri_long {text : Text} (h : ¬ Fits text) : library.newUri text = none := if_neg h

theorem newUri_fits {text : Text} (h : Fits text) : library.newUri text = some (trimEnd text) :=
  if_pos h

theorem length_unescape (text : Text) : (unescape text).length ≤ text.length := by
  fun_induction unescape text with
  | case1 a b rest x y hx hy ih =>
    simp only [List.length_cons]
    omega
  | case2 a b rest _ ih => simpa using ih
  | case3 c rest _ ih => simpa using ih
  | case4 => exact Nat.le_refl 0

theorem unescape_of_not_mem {text : Text} (h : '%' ∉ text) : unescape text = text := by
  fun_induction unescape text with
  | case1 a b rest x y hx hy ih => exact absurd List.mem_cons_self h
  | case2 a b rest _ ih => exact absurd List.mem_cons_self h
  | case3 c rest _ ih => rw [ih (fun hmem => h (List.mem_cons_of_mem c hmem))]
  | case4 => rfl

theorem entry_some {p name value : Text} (h : entry p = some (name, value)) :
    ∃ n v, p.splitOn '=' = [n, v] ∧ name = unescape n ∧ value = unescape v := by
  unfold entry at h
  split at h
  · next n v hsplit =>
    cases h
    exact ⟨n, v, hsplit, rfl, rfl⟩
  · cases h

/-- What is before the host is taken off, then the host and the path. -/
theorem library_uri {host path rest : Text} (hhost : Plain host) (hpath : Plain path)
    (hrest : rest = [] ∨ rest.head? = some '?') :
    library.authority ("ton://".toList ++ (host ++ '/' :: (path ++ rest))) = host ∧
      library.localPath ("ton://".toList ++ (host ++ '/' :: (path ++ rest))) = '/' :: path ∧
      query (("ton://".toList ++ (host ++ '/' :: (path ++ rest))).dropWhile (· ≠ '?')) =
        query rest := by
  have hdrop : ("ton://".toList ++ (host ++ '/' :: (path ++ rest))).drop 6 =
      host ++ '/' :: (path ++ rest) := rfl
  have hslash : ∀ c ∈ host, decide (c ≠ '/') = true :=
    fun c hc => decide_eq_true (fun h => hhost.not_mem (by decide) (h ▸ hc))
  have hmark : ∀ c ∈ "ton://".toList ++ host ++ '/' :: path, decide (c ≠ '?') = true := by
    intro c hc
    apply decide_eq_true
    intro h
    rw [h] at hc
    cases List.mem_append.mp hc with
    | inl hc =>
      cases List.mem_append.mp hc with
      | inl hc => exact absurd hc (by simp)
      | inr hc => exact hhost.not_mem (by decide) hc
    | inr hc => exact hpath.not_mem (by decide) (List.mem_of_ne_of_mem (by decide) hc)
  have hpathmark : ∀ c ∈ '/' :: path, decide (c ≠ '?') = true :=
    fun c hc => hmark c (List.mem_append_right _ hc)
  have htake : rest.takeWhile (· ≠ '?') = [] ∧ rest.dropWhile (· ≠ '?') = rest := by
    cases rest with
    | nil => exact ⟨rfl, rfl⟩
    | cons c rest =>
      have hc : c = '?' := by simpa using hrest
      rw [hc]
      exact ⟨rfl, rfl⟩
  refine ⟨?_, ?_, ?_⟩
  · change List.takeWhile _ (List.drop 6 _) = host
    rw [hdrop, List.takeWhile_append_of_pos hslash, List.takeWhile_cons_of_neg (by simp),
      List.append_nil]
  · change List.takeWhile _ (List.dropWhile _ (List.drop 6 _)) = '/' :: path
    rw [hdrop, List.dropWhile_append_of_pos hslash, List.dropWhile_cons_of_neg (by simp),
      ← List.cons_append, List.takeWhile_append_of_pos hpathmark, htake.1, List.append_nil]
  · have hsplit : "ton://".toList ++ (host ++ '/' :: (path ++ rest)) =
        ("ton://".toList ++ host ++ '/' :: path) ++ rest := by simp
    rw [hsplit, List.dropWhile_append_of_pos hmark, htake.2]

/-- Only white space behind the path is cut off. -/
theorem trimEnd_address {path : Text} (hpath : Plain path) (rest : Text) :
    trimEnd ("ton://transfer/".toList ++ path ++ rest) =
      "ton://".toList ++ ("transfer".toList ++ '/' :: (path ++ trimEnd rest)) := by
  have hstart : trimEnd ("ton://".toList ++ ("transfer".toList ++ '/' :: path)) =
      "ton://".toList ++ ("transfer".toList ++ '/' :: path) := by
    have hslash := trimEnd_concat "ton://transfer".toList (c := '/') (by decide)
    have htext := trimEnd_append hslash path
    rw [hpath.trimEnd] at htext
    simpa using htext
  have htext := trimEnd_append hstart rest
  simpa using htext

theorem head_trimEnd {rest : Text} (hrest : rest = [] ∨ rest.head? = some '?') :
    trimEnd rest = [] ∨ (trimEnd rest).head? = some '?' := by
  cases rest with
  | nil => exact Or.inl rfl
  | cons c rest =>
    have hc : c = '?' := by simpa using hrest
    have hmark : trimEnd ['?'] = ['?'] := trimEnd_concat [] (by decide)
    rw [hc, ← List.singleton_append, trimEnd_append hmark]
    exact Or.inr rfl

theorem library_lawful : library.Lawful where
  long := fun text h => newUri_long h
  uri := by
    intro path rest hpath hrest hfits
    have hhost : Plain "transfer".toList := List.all_eq_true.mp rfl
    obtain ⟨hauthority, hlocal, hquery⟩ := library_uri hhost hpath (head_trimEnd hrest)
    have hnew := newUri_fits hfits
    rw [trimEnd_address hpath rest] at hnew
    refine ⟨_, hnew, hauthority, hlocal, ?_⟩
    change List.filterMap entry (List.splitOn '&' _) = _
    rw [← hquery]
    rfl
  entry_pair := by
    intro name value hname hvalue
    change entry _ = _
    rw [entry, List.splitOn_append_cons_self_of_not_mem hname, List.splitOn_eq_singleton hvalue]
    rfl
  entry_nil := by
    intro e he
    have hentry : entry [] = some e := he
    obtain ⟨n, v, hsplit, -⟩ := entry_some hentry
    rw [List.splitOn_nil] at hsplit
    cases hsplit
  entry_value := by
    intro p name value h
    obtain ⟨n, v, hsplit, -, hvalue⟩ := entry_some h
    refine Or.inr ⟨v, ?_, hvalue⟩
    rw [hsplit]
    simp
  unescape_plain := fun text h => unescape_of_not_mem (h.not_mem (by decide))
  unescape_length := length_unescape
  getString_some := by
    intro array name value h
    obtain ⟨f, hf, hvalue⟩ := Option.map_eq_some_iff.mp h
    have hname := List.find?_some hf
    have hpair : f = (name, value) := Prod.ext (by simpa using hname) hvalue
    exact hpair ▸ List.mem_of_find?_eq_some hf
  getString_none := by
    intro array name value h hmem
    have hnone := List.find?_eq_none.mp (Option.map_eq_none_iff.mp h) _ hmem
    simp at hnone
  getUInt128_some := by
    intro array name n hn h
    change (match getString array name with | none => _ | some text => _) = _
    rw [show getString array name = _ from h]
    simp only [Decimal.toNat?_ofNat, Option.filter_some]
    rw [if_pos (by simpa using hn)]
  getUInt128_none := by
    intro array name h
    change (match getString array name with | none => _ | some text => _) = _
    rw [show getString array name = _ from h]

/-- A product of decimals that fits. -/
def product : DecimalMul := fun x y => .ok (x * y)

theorem product_zero (y : Rat) : product 0 y = .ok 0 := by
  rw [product, Rat.zero_mul]

end Sample

/-- A comment with an `&` does not come back, and none of a jetton wallet does. -/
theorem not_roundTrips_ampersand :
    ¬ TonUnknownWallet.RoundTrips Sample.product Sample.library ⟨1000000000⟩ "EQ".toList 0
      "a&b".toList := by
  intro h
  have hplain : Plain "EQ".toList := List.all_eq_true.mp rfl
  have hclean := TonUnknownWallet.clean_of_roundTrips Sample.library_lawful hplain h
  exact hclean.ampersand (by simp)

/-- An amount and a comment of one word come back. -/
theorem getInvoiceUrl_roundTrips_word :
    TonUnknownWallet.RoundTrips Sample.product Sample.library ⟨10⟩ "EQ".toList 2
      "hi".toList := by
  have hround : roundEven (2 * (10 : Nat)) = 20 := by
    have hproduct : (2 * (10 : Nat) : Rat) = ((20 : Int) : Rat) := by norm_num
    rw [hproduct, roundEven_intCast]
  have hunits : Balance.fromDecimal Sample.product 10 2 = .ok 20 := by
    rw [Balance.fromDecimal, Sample.product, ok_bind, hround]
    rfl
  have hfits : Fits (TonUnknownWallet.invoice "EQ".toList 2 20 "hi".toList) := by decide
  have hclean : Clean Sample.library "hi".toList := by
    refine ⟨by simp, by simp, by simp, rfl, rfl⟩
  exact ((getInvoiceUrl_roundTrips_iff Sample.library_lawful Sample.product_zero).1 ⟨10⟩
    "EQ".toList 2 "hi".toList (List.all_eq_true.mp rfl) (by decide)).2
      ⟨⟨20, hunits, hfits⟩, hclean⟩

end Ton.InvoiceUrl
