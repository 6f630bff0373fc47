import TopWallets.Lib.Bytes

/- The TL serialization of a private key with its words: `td::serialize_secure` and
   `td::unserialize` of a `RawDecryptedKey`.

   A string is written after its length, in 1, 4 or 8 bytes, and filled up to a multiple
   of four. The parser goes on after an error, on 32 zero bytes; it counts what is left
   apart from where it reads. Main results: what is serialized parses to the same key
   (`unserialize_serialize`), and on no bytes does the parser read outside of them
   (`unserialize_inRange`).

   Correspondence (C++ ↔ Lean):
     `TlStorerUnsafe::store_string`, `store`   ↔ `storeString`, `storeStrings`
     `TlStorerCalcLength::store_string`        ↔ `calcString`
     `serialize_secure`                        ↔ `serializeSecure`
     `TlParser`                                ↔ `TlParser`, its functions
     `parse` of a vector                       ↔ `TlParser.fetchStrings`
     `unserialize`                             ↔ `unserialize`
   A read out of range has no value. Lengths fit the 64 bits of a size. -/
namespace Td

structure RawDecryptedKey where
  mnemonic_words : List (List UInt8)
  private_key : List UInt8

/-! ## Storing -/

def padding (len : Nat) : List UInt8 :=
  match len % 4 with
  | 1 => [0, 0, 0]
  | 2 => [0, 0]
  | 3 => [0]
  | _ => []

/-- A string too long to be stored stops the program. -/
def storeString (str : List UInt8) : Option (List UInt8) :=
  let len := str.length
  if len < 254 then some (UInt8.ofNat len :: str ++ padding (len + 1))
  else if len < 2 ^ 24 then some (254 :: Bytes.little 3 len ++ str ++ padding len)
  else if len < 2 ^ 32 then some (255 :: (Bytes.little 4 len ++ [0, 0, 0]) ++ str ++ padding len)
  else none

def storeStrings : List (List UInt8) → Option (List UInt8)
  | [] => some []
  | s :: ss => do return (← storeString s) ++ (← storeStrings ss)

/-- The number of words is narrowed to 32 bits with a check. -/
def store (key : RawDecryptedKey) : Option (List UInt8) :=
  if key.mnemonic_words.length < 2 ^ 31 then do
    let words ← storeStrings key.mnemonic_words
    let privateKey ← storeString key.private_key
    return Bytes.little 4 key.mnemonic_words.length ++ words ++ privateKey
  else none

def calcString (str : List UInt8) : Nat :=
  let add := str.length
  let add := if add < 254 then add + 1 else if add < 2 ^ 24 then add + 4 else add + 8
  (add + 3) / 4 * 4

def calcLength (key : RawDecryptedKey) : Nat :=
  4 + (key.mnemonic_words.map calcString).sum + calcString key.private_key

/-- The buffer has the length that was calculated, which is checked at the end. -/
def serializeSecure (key : RawDecryptedKey) : Option (List UInt8) :=
  match store key with
  | some data => if data.length = calcLength key then some data else none
  | none => none

/-! ## Parsing -/

structure TlParser where
  data : List UInt8
  data_len : Nat
  left_len : Nat
  error : Option (String × Nat)

def emptyData : List UInt8 := List.replicate 32 0

namespace TlParser

def ofData (data : List UInt8) : TlParser := ⟨data, data.length, data.length, none⟩

def setError (message : String) (p : TlParser) : TlParser :=
  match p.error with
  | none => ⟨emptyData, 0, 0, some (message, p.data_len - p.left_len)⟩
  | some _ => { p with data := emptyData }

def checkLen (len : Nat) (p : TlParser) : TlParser :=
  if p.left_len < len then p.setError "Not enough data to read"
  else { p with left_len := p.left_len - len }

/-- The `len` bytes at `i` behind the pointer. -/
def read (i len : Nat) (p : TlParser) : Option (List UInt8) :=
  if i + len ≤ p.data.length then some ((p.data.drop i).take len) else none

def advance (len : Nat) (p : TlParser) : TlParser := { p with data := p.data.drop len }

def fetchInt (p : TlParser) : Option (Nat × TlParser) := do
  let p := p.checkLen 4
  return (Bytes.ofLittle (← p.read 0 4), p.advance 4)

/-- What `fetch_string` does once the length is known: the string at `i`, and the pointer behind
the first `header` bytes and `alignedLen` more. -/
def fetchResult (i len header alignedLen : Nat) (p : TlParser) :
    Option (List UInt8 × TlParser) := do
  let next := (p.advance header).checkLen alignedLen
  if next.error.isSome then return ([], next)
  return (← p.read i len, next.advance alignedLen)

def fetchString (p : TlParser) : Option (List UInt8 × TlParser) := do
  let p := p.checkLen 4
  let len := Bytes.ofLittle (← p.read 0 1)
  if len < 254 then p.fetchResult 1 len 4 (len / 4 * 4)
  else if len = 254 then
    let len := Bytes.ofLittle (← p.read 1 3)
    p.fetchResult 4 len 4 ((len + 3) / 4 * 4)
  else
    let p := p.checkLen 4
    -- seven bytes do not reach the largest size, which the source checks here
    let len := Bytes.ofLittle (← p.read 1 7)
    p.fetchResult 8 len 8 ((len + 3) / 4 * 4)

def fetchStrings : Nat → TlParser → Option (List (List UInt8) × TlParser)
  | 0, p => some ([], p)
  | n + 1, p => do
    let (s, p) ← p.fetchString
    let (ss, p) ← fetchStrings n p
    return (s :: ss, p)

def fetchVector (p : TlParser) : Option (List (List UInt8) × TlParser) := do
  let (size, p) ← p.fetchInt
  if p.left_len < size then return ([], p.setError "Wrong vector length")
  fetchStrings size p

def fetchEnd (p : TlParser) : TlParser :=
  if p.left_len ≠ 0 then p.setError "Too much data to fetch" else p

end TlParser

/-- The key, or the error and where it is. -/
def unserialize (data : List UInt8) : Option (Except (String × Nat) RawDecryptedKey) := do
  let (mnemonic_words, p) ← (TlParser.ofData data).fetchVector
  let (private_key, p) ← p.fetchString
  return match p.fetchEnd.error with
    | some e => .error e
    | none => .ok { mnemonic_words, private_key }

/-! ## No read out of range -/

namespace TlParser

/-- `n` bytes were checked and not passed yet: they are there, or there was an error and they are
zeros. -/
structure Checked (n : Nat) (p : TlParser) : Prop where
  left : p.error = none → n ≤ p.data.length ∧ p.left_len = p.data.length - n
  failed : p.error ≠ none → p.left_len = 0 ∧ (0 < n → p.data = emptyData)

theorem checked_ofData (data : List UInt8) : (ofData data).Checked 0 :=
  ⟨fun _ => ⟨Nat.zero_le _, rfl⟩, fun h => absurd rfl h⟩

namespace Checked
variable {n : Nat} {p : TlParser}

theorem setError (h : p.Checked n) (message : String) (m : Nat) :
    (p.setError message).Checked m := by
  rw [TlParser.setError]
  split
  · exact ⟨nofun, fun _ => ⟨rfl, fun _ => rfl⟩⟩
  · next heq =>
    have hne : p.error ≠ none := by
      rw [heq]
      nofun
    exact ⟨fun hnone => absurd hnone hne, fun _ => ⟨(h.failed hne).1, fun _ => rfl⟩⟩

theorem checkLen (h : p.Checked n) (len : Nat) : (p.checkLen len).Checked (n + len) := by
  rw [TlParser.checkLen]
  split
  · exact h.setError _ _
  · next hlt =>
    refine ⟨fun hnone => ?_, fun hne => ?_⟩
    · obtain ⟨hle, hleft⟩ := h.left hnone
      show n + len ≤ p.data.length ∧ p.left_len - len = p.data.length - (n + len)
      omega
    · obtain ⟨hzero, hdata⟩ := h.failed hne
      show p.left_len - len = 0 ∧ (0 < n + len → p.data = emptyData)
      exact ⟨by omega, fun hpos => hdata (by omega)⟩

theorem advance (h : p.Checked n) : (p.advance n).Checked 0 := by
  refine ⟨fun hnone => ?_, fun hne => ⟨(h.failed hne).1, fun hpos => absurd hpos (by decide)⟩⟩
  have hleft := (h.left hnone).2
  refine ⟨Nat.zero_le _, ?_⟩
  rw [TlParser.advance, List.length_drop]
  exact hleft

theorem zero (h : p.Checked n) (hne : p.error ≠ none) : p.Checked 0 :=
  ⟨fun hnone => absurd hnone hne, fun _ => ⟨(h.failed hne).1, fun hpos => absurd hpos (by decide)⟩⟩

/-- What was checked can be read, as far as the zeros reach. -/
theorem read (h : p.Checked n) {i len : Nat} (hlen : i + len ≤ n) (hpos : 0 < n) (hn : n ≤ 32) :
    ∃ bytes, p.read i len = some bytes := by
  refine ⟨_, if_pos ?_⟩
  by_cases hnone : p.error = none
  · have hle := (h.left hnone).1
    omega
  · -- after an error the parser stands at the beginning of the zeros
    rw [(h.failed hnone).2 hpos, emptyData, List.length_replicate]
    omega

end Checked

theorem checkLen_ok {p : TlParser} {len : Nat} (h : (p.checkLen len).error = none) :
    p.error = none ∧ (p.checkLen len).data = p.data := by
  rw [checkLen] at h ⊢
  split
  · next hlt =>
    rw [if_pos hlt, setError] at h
    split at h
    · cases h
    · next heq =>
      rw [heq] at h
      cases h
  · next hlt =>
    rw [if_neg hlt] at h
    exact ⟨h, rfl⟩

/-- A computation that reads in range and leaves nothing checked. -/
def InRange {α : Type} (x : Option (α × TlParser)) : Prop := ∃ a p, x = some (a, p) ∧ p.Checked 0

theorem inRange_some {α : Type} {a : α} {p : TlParser} (h : p.Checked 0) : InRange (some (a, p)) :=
  ⟨a, p, rfl, h⟩

theorem inRange_bind {α β : Type} {x : Option (α × TlParser)}
    {f : α × TlParser → Option (β × TlParser)} (hx : InRange x)
    (hf : ∀ a p, p.Checked 0 → InRange (f (a, p))) : InRange (x >>= f) := by
  obtain ⟨a, p, rfl, hp⟩ := hx
  exact hf a p hp

theorem fetchInt_inRange {p : TlParser} (h : p.Checked 0) : InRange p.fetchInt := by
  have hchecked := h.checkLen 4
  obtain ⟨bytes, hread⟩ := @Checked.read _ _ hchecked 0 4 (by decide) (by decide) (by decide)
  rw [fetchInt]
  simp only [hread]
  exact inRange_some hchecked.advance

theorem fetchResult_inRange {p : TlParser} {i len header alignedLen : Nat} (h : p.Checked header)
    (hlen : i + len ≤ header + alignedLen) : InRange (p.fetchResult i len header alignedLen) := by
  have hnext := h.advance.checkLen alignedLen
  rw [Nat.zero_add] at hnext
  rw [fetchResult]
  by_cases hnone : ((p.advance header).checkLen alignedLen).error = none
  · obtain ⟨hbefore, hdata⟩ := checkLen_ok hnone
    have hread : p.read i len = some ((p.data.drop i).take len) := by
      apply if_pos
      have hheader := (h.left hbefore).1
      have haligned := (hnext.left hnone).1
      rw [hdata, advance, List.length_drop] at haligned
      omega
    simp only [hnone, Option.isSome_none, Bool.false_eq_true, if_false, hread]
    exact inRange_some hnext.advance
  · have hsome := Option.isSome_iff_ne_none.2 hnone
    simp only [hsome, if_true]
    exact inRange_some (hnext.zero hnone)

theorem fetchString_inRange {p : TlParser} (h : p.Checked 0) : InRange p.fetchString := by
  have hfour := h.checkLen 4
  obtain ⟨first, hfirst⟩ := @Checked.read _ _ hfour 0 1 (by decide) (by decide) (by decide)
  rw [fetchString]
  simp only [hfirst, Option.bind_eq_bind, Option.bind_some]
  split
  · exact fetchResult_inRange hfour (by omega)
  · split
    · obtain ⟨len, hlen⟩ := @Checked.read _ _ hfour 1 3 (by decide) (by decide) (by decide)
      simp only [hlen, Option.bind_some]
      exact fetchResult_inRange hfour (by omega)
    · have height := hfour.checkLen 4
      obtain ⟨len, hlen⟩ := @Checked.read _ _ height 1 7 (by decide) (by decide) (by decide)
      simp only [hlen, Option.bind_some]
      exact fetchResult_inRange height (by omega)

theorem fetchStrings_inRange (n : Nat) {p : TlParser} (h : p.Checked 0) :
    InRange (p.fetchStrings n) := by
  induction n generalizing p with
  | zero => exact inRange_some h
  | succ n ih =>
    rw [fetchStrings]
    apply inRange_bind (fetchString_inRange h)
    intro s p hp
    apply inRange_bind (ih hp)
    intro ss p hp
    exact inRange_some hp

theorem fetchVector_inRange {p : TlParser} (h : p.Checked 0) : InRange p.fetchVector := by
  rw [fetchVector]
  apply inRange_bind (fetchInt_inRange h)
  intro size p hp
  show InRange (if p.left_len < size then _ else _)
  split
  · exact inRange_some (hp.setError _ 0)
  · exact fetchStrings_inRange size hp

end TlParser

theorem isSome_unserialize (data : List UInt8) : (unserialize data).isSome := by
  obtain ⟨words, p, hwords, hp⟩ := TlParser.fetchVector_inRange (TlParser.checked_ofData data)
  obtain ⟨key, p', hkey, -⟩ := TlParser.fetchString_inRange hp
  rw [unserialize]
  simp only [hwords, hkey, Option.bind_eq_bind, Option.bind_some]
  rfl

/-- The parser never reads outside of the bytes, whatever they are. -/
theorem unserialize_inRange (data : List UInt8) : ∃ r, unserialize data = some r :=
  Option.isSome_iff_exists.1 (isSome_unserialize data)

/-! ## What is stored is parsed -/

theorem length_padding (len : Nat) : (len + (padding len).length) % 4 = 0 ∧
    (padding len).length < 4 := by
  have hcases : len % 4 = 0 ∨ len % 4 = 1 ∨ len % 4 = 2 ∨ len % 4 = 3 := by omega
  rcases hcases with h | h | h | h <;>
    · simp only [padding, h, List.length_cons, List.length_nil]
      omega

theorem length_storeString {s enc : List UInt8} (h : storeString s = some enc) :
    enc.length = calcString s := by
  rw [storeString] at h
  rw [calcString]
  have hshort := length_padding (s.length + 1)
  have hlong := length_padding s.length
  split_ifs at h with hone hfour height
  · obtain rfl := Option.some.inj h
    simp only [if_pos hone, List.length_append, List.length_cons]
    omega
  · obtain rfl := Option.some.inj h
    simp only [if_neg hone, if_pos hfour, List.length_append, List.length_cons,
      Bytes.length_little]
    omega
  · obtain rfl := Option.some.inj h
    simp only [if_neg hone, if_neg hfour, List.length_append, List.length_cons, List.length_nil,
      Bytes.length_little]
    omega

theorem storeStrings_cons_iff {s : List UInt8} {ss : List (List UInt8)} {enc : List UInt8} :
    storeStrings (s :: ss) = some enc ↔
      ∃ e es, storeString s = some e ∧ storeStrings ss = some es ∧ enc = e ++ es := by
  rw [storeStrings]
  cases storeString s with
  | none => simp
  | some e =>
    cases storeStrings ss with
    | none => simp
    | some es => simp [eq_comm]

theorem length_storeStrings {ss : List (List UInt8)} {enc : List UInt8}
    (h : storeStrings ss = some enc) : enc.length = (ss.map calcString).sum := by
  induction ss generalizing enc with
  | nil =>
    obtain rfl := Option.some.inj h
    rfl
  | cons s ss ih =>
    obtain ⟨e, es, he, hes, rfl⟩ := storeStrings_cons_iff.1 h
    rw [List.length_append, List.map_cons, List.sum_cons, length_storeString he, ih hes]

/-- Every string takes some bytes. -/
theorem length_le_storeStrings {ss : List (List UInt8)} {enc : List UInt8}
    (h : storeStrings ss = some enc) : ss.length ≤ enc.length := by
  rw [length_storeStrings h]
  have hpos : ∀ n ∈ ss.map calcString, 1 ≤ n := by
    intro n hn
    obtain ⟨s, -, rfl⟩ := List.mem_map.1 hn
    simp only [calcString]
    split_ifs <;> omega
  have hsum := List.length_le_sum_of_one_le _ hpos
  rwa [List.length_map] at hsum

theorem store_eq_some_iff {key : RawDecryptedKey} {data : List UInt8} :
    store key = some data ↔ key.mnemonic_words.length < 2 ^ 31 ∧
      ∃ words privateKey, storeStrings key.mnemonic_words = some words ∧
        storeString key.private_key = some privateKey ∧
        data = Bytes.little 4 key.mnemonic_words.length ++ words ++ privateKey := by
  rw [store]
  by_cases hcount : key.mnemonic_words.length < 2 ^ 31
  swap
  · rw [if_neg hcount]
    exact iff_of_false nofun fun h => hcount h.1
  rw [if_pos hcount, and_iff_right hcount]
  cases storeStrings key.mnemonic_words with
  | none => simp
  | some words =>
    cases storeString key.private_key with
    | none => simp
    | some privateKey => simp [eq_comm]

/-- The calculated length is right, so the check at the end of the buffer never fails. -/
theorem serializeSecure_eq_store (key : RawDecryptedKey) : serializeSecure key = store key := by
  rw [serializeSecure]
  cases hstore : store key with
  | none => rfl
  | some data =>
    obtain ⟨-, words, privateKey, hwords, hkey, rfl⟩ := store_eq_some_iff.1 hstore
    have hlen : (Bytes.little 4 key.mnemonic_words.length ++ words ++ privateKey).length =
        calcLength key := by
      rw [List.length_append, List.length_append, Bytes.length_little, length_storeStrings hwords,
        length_storeString hkey, calcLength]
    exact if_pos hlen

namespace TlParser

/-- The parser before `data`, at which nothing went wrong. -/
def before (data : List UInt8) (data_len : Nat) : TlParser := ⟨data, data_len, data.length, none⟩

theorem checkLen_before {data : List UInt8} {left n : Nat} (h : n ≤ left) (data_len : Nat) :
    checkLen n ⟨data, data_len, left, none⟩ = ⟨data, data_len, left - n, none⟩ := by
  rw [checkLen, if_neg (Nat.not_lt.2 h)]

theorem read_of_eq {data front bytes back : List UInt8} (h : data = front ++ (bytes ++ back))
    (data_len left : Nat) :
    read front.length bytes.length ⟨data, data_len, left, none⟩ = some bytes := by
  subst h
  rw [read, if_pos (by simp only [List.length_append]; omega), List.drop_left, List.take_left]

theorem fetchInt_append {v : Nat} (hv : v < 2 ^ 32) (rest : List UInt8) (data_len : Nat) :
    (before (Bytes.little 4 v ++ rest) data_len).fetchInt = some (v, before rest data_len) := by
  have hlen : (Bytes.little 4 v).length = 4 := Bytes.length_little 4 v
  have hvalue := Bytes.ofLittle_little_of_lt (show v < 256 ^ 4 from hv)
  have hread := @read_of_eq (Bytes.little 4 v ++ rest) [] (Bytes.little 4 v) rest rfl data_len
    ((Bytes.little 4 v ++ rest).length - 4)
  rw [hlen, List.length_nil] at hread
  rw [fetchInt, before, checkLen_before (by rw [List.length_append]; omega)]
  simp only [hread, Option.bind_eq_bind, Option.bind_some, hvalue]
  rw [advance, before, List.length_append, hlen, Nat.add_sub_cancel_left]
  simp only [List.drop_left' hlen]
  rfl

/-- The string behind its length is what is fetched. -/
theorem fetchResult_append {front s pad : List UInt8} {header alignedLen : Nat}
    (hlen : (front ++ s ++ pad).length = header + alignedLen) (rest : List UInt8)
    (data_len : Nat) :
    fetchResult front.length s.length header alignedLen
        ⟨front ++ s ++ pad ++ rest, data_len, (front ++ s ++ pad ++ rest).length - header, none⟩ =
      some (s, before rest data_len) := by
  have htotal : (front ++ s ++ pad ++ rest).length = header + alignedLen + rest.length := by
    rw [List.length_append, hlen]
  have hdata : front ++ s ++ pad ++ rest = front ++ (s ++ (pad ++ rest)) := by
    simp only [List.append_assoc]
  have hread := read_of_eq hdata data_len ((front ++ s ++ pad ++ rest).length - header)
  have hroom : alignedLen ≤ (front ++ s ++ pad ++ rest).length - header := by omega
  rw [fetchResult, advance]
  simp only [checkLen_before hroom, hread, Option.isSome_none, Bool.false_eq_true, if_false,
    Option.bind_eq_bind, Option.bind_some]
  rw [advance, before, List.drop_drop, ← hlen, List.drop_left, htotal]
  simp only [Nat.sub_sub, Nat.add_sub_cancel_left]
  rfl

theorem fetchString_short {data t : List UInt8} {b : UInt8} (h : data = b :: t)
    (hlen : 4 ≤ data.length) (hb : b.toNat < 254) (data_len : Nat) :
    (before data data_len).fetchString =
      fetchResult 1 b.toNat 4 (b.toNat / 4 * 4) ⟨data, data_len, data.length - 4, none⟩ := by
  have hfirst := @read_of_eq data [] [b] t h data_len (data.length - 4)
  rw [List.length_nil, List.length_singleton] at hfirst
  have hvalue : Bytes.ofLittle [b] = b.toNat := rfl
  rw [fetchString, before, checkLen_before hlen]
  simp only [hfirst, Option.bind_eq_bind, Option.bind_some, hvalue, if_pos hb]

theorem fetchString_four {data bs t : List UInt8} (h : data = 254 :: (bs ++ t))
    (hbs : bs.length = 3) (data_len : Nat) :
    (before data data_len).fetchString = fetchResult 4 (Bytes.ofLittle bs) 4
      ((Bytes.ofLittle bs + 3) / 4 * 4) ⟨data, data_len, data.length - 4, none⟩ := by
  have hlen : 4 ≤ data.length := by
    rw [h, List.length_cons, List.length_append]
    omega
  have hfirst := @read_of_eq data [] [254] (bs ++ t) h data_len (data.length - 4)
  have hrest := @read_of_eq data [254] bs t h data_len (data.length - 4)
  rw [List.length_nil, List.length_singleton] at hfirst
  rw [List.length_singleton, hbs] at hrest
  have hvalue : Bytes.ofLittle [254] = 254 := rfl
  rw [fetchString, before, checkLen_before hlen]
  simp only [hfirst, hrest, Option.bind_eq_bind, Option.bind_some, hvalue, Nat.lt_irrefl, if_false,
    if_true]

theorem fetchString_eight {data bs t : List UInt8} (h : data = 255 :: (bs ++ t))
    (hbs : bs.length = 7) (data_len : Nat) :
    (before data data_len).fetchString = fetchResult 8 (Bytes.ofLittle bs) 8
      ((Bytes.ofLittle bs + 3) / 4 * 4) ⟨data, data_len, data.length - 8, none⟩ := by
  have hlen : 8 ≤ data.length := by
    rw [h, List.length_cons, List.length_append]
    omega
  have hfirst := @read_of_eq data [] [255] (bs ++ t) h data_len (data.length - 4)
  have hrest := @read_of_eq data [255] bs t h data_len (data.length - 8)
  rw [List.length_nil, List.length_singleton] at hfirst
  rw [List.length_singleton, hbs] at hrest
  have hvalue : Bytes.ofLittle [255] = 255 := rfl
  have hsub : data.length - 4 - 4 = data.length - 8 := by omega
  rw [fetchString, before, checkLen_before (by omega)]
  simp only [hfirst, Option.bind_eq_bind, Option.bind_some, hvalue]
  rw [if_neg (by decide), if_neg (by decide), checkLen_before (by omega), hsub, hrest]
  rfl

theorem fetchString_append {s enc : List UInt8} (h : storeString s = some enc)
    (rest : List UInt8) (data_len : Nat) :
    (before (enc ++ rest) data_len).fetchString = some (s, before rest data_len) := by
  have hshort := length_padding (s.length + 1)
  have hlong := length_padding s.length
  rw [storeString] at h
  split_ifs at h with hone hfour height
  · -- the length in one byte
    obtain rfl : [UInt8.ofNat s.length] ++ s ++ padding (s.length + 1) = enc := Option.some.inj h
    have hlen : ([UInt8.ofNat s.length] ++ s ++ padding (s.length + 1)).length =
        4 + s.length / 4 * 4 := by
      simp only [List.length_append, List.length_cons, List.length_nil]
      omega
    have hvalue : (UInt8.ofNat s.length).toNat = s.length := by
      rw [UInt8.toNat_ofNat', Nat.mod_eq_of_lt (by omega)]
    have hdata : [UInt8.ofNat s.length] ++ s ++ padding (s.length + 1) ++ rest =
        UInt8.ofNat s.length :: (s ++ padding (s.length + 1) ++ rest) := rfl
    have hroom : 4 ≤ ([UInt8.ofNat s.length] ++ s ++ padding (s.length + 1) ++ rest).length := by
      rw [List.length_append, hlen]
      omega
    rw [fetchString_short hdata hroom (by omega), hvalue]
    exact fetchResult_append hlen rest data_len
  · -- the length in three bytes
    obtain rfl : 254 :: Bytes.little 3 s.length ++ s ++ padding s.length = enc :=
      Option.some.inj h
    have hcount : (254 :: Bytes.little 3 s.length).length = 4 := by
      rw [List.length_cons, Bytes.length_little]
    have hlen : (254 :: Bytes.little 3 s.length ++ s ++ padding s.length).length =
        4 + (s.length + 3) / 4 * 4 := by
      rw [List.length_append, List.length_append, hcount]
      omega
    have hvalue := Bytes.ofLittle_little_of_lt (show s.length < 256 ^ 3 from hfour)
    have hdata : 254 :: Bytes.little 3 s.length ++ s ++ padding s.length ++ rest =
        254 :: (Bytes.little 3 s.length ++ (s ++ padding s.length ++ rest)) := by
      simp only [List.cons_append, List.append_assoc]
    rw [fetchString_four hdata (Bytes.length_little 3 _), hvalue, ← hcount]
    rw [← hcount] at hlen
    exact fetchResult_append hlen rest data_len
  · -- the length in four bytes, and three zeros
    obtain rfl : 255 :: (Bytes.little 4 s.length ++ [0, 0, 0]) ++ s ++ padding s.length = enc :=
      Option.some.inj h
    have hcount : (255 :: (Bytes.little 4 s.length ++ [0, 0, 0])).length = 8 := by
      rw [List.length_cons, List.length_append, Bytes.length_little]
      rfl
    have hlen : (255 :: (Bytes.little 4 s.length ++ [0, 0, 0]) ++ s ++ padding s.length).length =
        8 + (s.length + 3) / 4 * 4 := by
      rw [List.length_append, List.length_append, hcount]
      omega
    have hvalue : Bytes.ofLittle (Bytes.little 4 s.length ++ [0, 0, 0]) = s.length := by
      rw [Bytes.ofLittle_append, Bytes.ofLittle_little_of_lt (show s.length < 256 ^ 4 from height)]
      rfl
    have hdata : 255 :: (Bytes.little 4 s.length ++ [0, 0, 0]) ++ s ++ padding s.length ++ rest =
        255 :: ((Bytes.little 4 s.length ++ [0, 0, 0]) ++ (s ++ padding s.length ++ rest)) := by
      simp only [List.cons_append, List.append_assoc]
    rw [fetchString_eight hdata (by rw [List.length_append, Bytes.length_little]; rfl), hvalue,
      ← hcount]
    rw [← hcount] at hlen
    exact fetchResult_append hlen rest data_len

theorem fetchStrings_append {ss : List (List UInt8)} {enc : List UInt8}
    (h : storeStrings ss = some enc) (rest : List UInt8) (data_len : Nat) :
    (before (enc ++ rest) data_len).fetchStrings ss.length = some (ss, before rest data_len) := by
  induction ss generalizing enc with
  | nil =>
    obtain rfl := Option.some.inj h
    rfl
  | cons s ss ih =>
    obtain ⟨e, es, he, hes, rfl⟩ := storeStrings_cons_iff.1 h
    rw [List.append_assoc, List.length_cons, fetchStrings]
    simp only [fetchString_append he, ih hes, Option.bind_eq_bind, Option.bind_some]
    rfl

theorem fetchVector_append {ss : List (List UInt8)} {enc : List UInt8}
    (hcount : ss.length < 2 ^ 31) (h : storeStrings ss = some enc) (rest : List UInt8)
    (data_len : Nat) :
    (before (Bytes.little 4 ss.length ++ enc ++ rest) data_len).fetchVector =
      some (ss, before rest data_len) := by
  have hle := length_le_storeStrings h
  have hroom : ¬ (enc ++ rest).length < ss.length := by
    rw [List.length_append]
    omega
  rw [List.append_assoc, fetchVector, fetchInt_append (by omega)]
  show (if (enc ++ rest).length < ss.length then _ else _) = _
  rw [if_neg hroom]
  exact fetchStrings_append h rest data_len

end TlParser

theorem unserialize_of_store {key : RawDecryptedKey} {data : List UInt8}
    (h : store key = some data) : unserialize data = some (.ok key) := by
  obtain ⟨hcount, words, privateKey, hwords, hkey, rfl⟩ := store_eq_some_iff.1 h
  have hstart (data : List UInt8) : TlParser.ofData data = TlParser.before data data.length := rfl
  have hlast := TlParser.fetchString_append hkey []
  simp only [List.append_nil] at hlast
  rw [unserialize, hstart]
  simp only [TlParser.fetchVector_append hcount hwords, hlast, Option.bind_eq_bind,
    Option.bind_some]
  rfl

/-- What is serialized is parsed back. -/
theorem unserialize_serialize {key : RawDecryptedKey} {data : List UInt8}
    (h : serializeSecure key = some data) : unserialize data = some (.ok key) := by
  rw [serializeSecure_eq_store] at h
  exact unserialize_of_store h

/-- A key of one word. -/
theorem unserialize_serialize_word :
    unserialize [1, 0, 0, 0, 1, 97, 0, 0, 2, 1, 2, 0] = some (.ok ⟨[[97]], [1, 2]⟩) :=
  unserialize_serialize rfl

end Td
