import TopWallets.Lib.Decimal

/- Account addresses (`block::StdAddress`): the friendly form, 48 base64 characters
   of tag, workchain, address and CRC, and the raw form `workchain:hex`.

   Main result: reading the friendly form of an address gives the address back
   (`rdeserialize_rserialize`), for every workchain that fits the form's one byte.

   Correspondence (C++ ↔ Lean):
     `base64_table`, `buff_base64_encode`, `buff_base64_decode` ↔ the functions `base64...`
     `td::crc16`                         ↔ `crc16`
     `pack_std_smc_addr_to`, `rserialize` ↔ `StdAddress.rserialize`
     `unpack_std_smc_addr`, `rdeserialize` ↔ `StdAddress.rdeserialize`
     `StdAddress::parse_addr`            ↔ `StdAddress.parseAddr` -/
namespace Block

/-- The digits of `base64_url_table`. -/
def base64UrlTable : List Char :=
  "ABCDEFGHIJKLMNOPQRSTUVWXYZabcdefghijklmnopqrstuvwxyz0123456789-_".toList

def base64Char (i : Nat) : Char := base64UrlTable.getD (i % 64) 'A'

/-- The value `base64_dec_table` gives a character, where a base64 or base64url text may hold
it. The padding character counts as 1 wherever it stands. -/
def base64Value (c : Char) : Option Nat :=
  if 65 ≤ c.toNat ∧ c.toNat ≤ 90 then some (c.toNat - 65)
  else if 97 ≤ c.toNat ∧ c.toNat ≤ 122 then some (c.toNat - 71)
  else if 48 ≤ c.toNat ∧ c.toNat ≤ 57 then some (c.toNat + 4)
  else if c = '+' ∨ c = '-' then some 62
  else if c = '/' ∨ c = '_' then some 63
  else if c = '=' then some 1
  else none

def base64Encode : List UInt8 → List Char
  | a :: b :: c :: rest =>
    let x := a.toNat * 65536 + b.toNat * 256 + c.toNat
    base64Char (x / 262144) :: base64Char (x / 4096) :: base64Char (x / 64) :: base64Char x ::
      base64Encode rest
  | [a, b] =>
    let x := a.toNat * 65536 + b.toNat * 256
    [base64Char (x / 262144), base64Char (x / 4096), base64Char (x / 64), '=']
  | [a] =>
    let x := a.toNat * 65536
    [base64Char (x / 262144), base64Char (x / 4096), '=', '=']
  | [] => []

/-- The three bytes of every four characters, the padding not yet removed. -/
def base64Groups : List Char → Option (List UInt8)
  | [] => some []
  | a :: b :: c :: d :: rest =>
    match base64Value a, base64Value b, base64Value c, base64Value d, base64Groups rest with
    | some va, some vb, some vc, some vd, some bytes =>
      let x := va * 262144 + vb * 4096 + vc * 64 + vd
      some (UInt8.ofNat (x / 65536) :: UInt8.ofNat (x / 256) :: UInt8.ofNat x :: bytes)
    | _, _, _, _, _ => none
  | _ => none

/-- How many padding characters end the text, at most two. -/
def base64Padding (cs : List Char) : Nat :=
  match cs.reverse with
  | '=' :: '=' :: _ => 2
  | '=' :: _ => 1
  | _ => 0

def base64Decode (cs : List Char) : Option (List UInt8) :=
  (base64Groups cs).map (fun bytes => bytes.take (bytes.length - base64Padding cs))

def crc16Table : Array Nat :=
  #[0x0000, 0x1021, 0x2042, 0x3063, 0x4084, 0x50a5, 0x60c6, 0x70e7, 0x8108, 0x9129,
   0xa14a, 0xb16b, 0xc18c, 0xd1ad, 0xe1ce, 0xf1ef, 0x1231, 0x0210, 0x3273, 0x2252,
   0x52b5, 0x4294, 0x72f7, 0x62d6, 0x9339, 0x8318, 0xb37b, 0xa35a, 0xd3bd, 0xc39c,
   0xf3ff, 0xe3de, 0x2462, 0x3443, 0x0420, 0x1401, 0x64e6, 0x74c7, 0x44a4, 0x5485,
   0xa56a, 0xb54b, 0x8528, 0x9509, 0xe5ee, 0xf5cf, 0xc5ac, 0xd58d, 0x3653, 0x2672,
   0x1611, 0x0630, 0x76d7, 0x66f6, 0x5695, 0x46b4, 0xb75b, 0xa77a, 0x9719, 0x8738,
   0xf7df, 0xe7fe, 0xd79d, 0xc7bc, 0x48c4, 0x58e5, 0x6886, 0x78a7, 0x0840, 0x1861,
   0x2802, 0x3823, 0xc9cc, 0xd9ed, 0xe98e, 0xf9af, 0x8948, 0x9969, 0xa90a, 0xb92b,
   0x5af5, 0x4ad4, 0x7ab7, 0x6a96, 0x1a71, 0x0a50, 0x3a33, 0x2a12, 0xdbfd, 0xcbdc,
   0xfbbf, 0xeb9e, 0x9b79, 0x8b58, 0xbb3b, 0xab1a, 0x6ca6, 0x7c87, 0x4ce4, 0x5cc5,
   0x2c22, 0x3c03, 0x0c60, 0x1c41, 0xedae, 0xfd8f, 0xcdec, 0xddcd, 0xad2a, 0xbd0b,
   0x8d68, 0x9d49, 0x7e97, 0x6eb6, 0x5ed5, 0x4ef4, 0x3e13, 0x2e32, 0x1e51, 0x0e70,
   0xff9f, 0xefbe, 0xdfdd, 0xcffc, 0xbf1b, 0xaf3a, 0x9f59, 0x8f78, 0x9188, 0x81a9,
   0xb1ca, 0xa1eb, 0xd10c, 0xc12d, 0xf14e, 0xe16f, 0x1080, 0x00a1, 0x30c2, 0x20e3,
   0x5004, 0x4025, 0x7046, 0x6067, 0x83b9, 0x9398, 0xa3fb, 0xb3da, 0xc33d, 0xd31c,
   0xe37f, 0xf35e, 0x02b1, 0x1290, 0x22f3, 0x32d2, 0x4235, 0x5214, 0x6277, 0x7256,
   0xb5ea, 0xa5cb, 0x95a8, 0x8589, 0xf56e, 0xe54f, 0xd52c, 0xc50d, 0x34e2, 0x24c3,
   0x14a0, 0x0481, 0x7466, 0x6447, 0x5424, 0x4405, 0xa7db, 0xb7fa, 0x8799, 0x97b8,
   0xe75f, 0xf77e, 0xc71d, 0xd73c, 0x26d3, 0x36f2, 0x0691, 0x16b0, 0x6657, 0x7676,
   0x4615, 0x5634, 0xd94c, 0xc96d, 0xf90e, 0xe92f, 0x99c8, 0x89e9, 0xb98a, 0xa9ab,
   0x5844, 0x4865, 0x7806, 0x6827, 0x18c0, 0x08e1, 0x3882, 0x28a3, 0xcb7d, 0xdb5c,
   0xeb3f, 0xfb1e, 0x8bf9, 0x9bd8, 0xabbb, 0xbb9a, 0x4a75, 0x5a54, 0x6a37, 0x7a16,
   0x0af1, 0x1ad0, 0x2ab3, 0x3a92, 0xfd2e, 0xed0f, 0xdd6c, 0xcd4d, 0xbdaa, 0xad8b,
   0x9de8, 0x8dc9, 0x7c26, 0x6c07, 0x5c64, 0x4c45, 0x3ca2, 0x2c83, 0x1ce0, 0x0cc1,
   0xef1f, 0xff3e, 0xcf5d, 0xdf7c, 0xaf9b, 0xbfba, 0x8fd9, 0x9ff8, 0x6e17, 0x7e36,
   0x4e55, 0x5e74, 0x2e93, 0x3eb2, 0x0ed1, 0x1ef0]

def crc16 (data : List UInt8) : Nat :=
  data.foldl (fun crc c =>
    (crc16Table.getD ((c.toNat ^^^ (crc / 256)) % 256) 0 ^^^ (crc * 256)) % 65536) 0

def workchainInvalid : Int := -2 ^ 31

structure StdAddress where
  workchain : Int
  bounceable : Bool
  testnet : Bool
  addr : List UInt8
  addr_length : addr.length = 32

/-- The signed value of a byte. -/
def int8 (b : UInt8) : Int := if b.toNat < 128 then b.toNat else (b.toNat : Int) - 256

namespace StdAddress

/-- The tag byte of the friendly form. -/
def tag (a : StdAddress) : UInt8 :=
  match a.bounceable, a.testnet with
  | true, false => 0x11
  | false, false => 0x51
  | true, true => 0x91
  | false, true => 0xd1

/-- Tag, workchain and address: the bytes under the CRC. -/
def payload (a : StdAddress) : List UInt8 :=
  a.tag :: UInt8.ofNat (a.workchain % 256).toNat :: a.addr

def crcBytes (bytes : List UInt8) : List UInt8 :=
  [UInt8.ofNat (crc16 bytes / 256), UInt8.ofNat (crc16 bytes % 256)]

/-- The friendly form, or the empty text where the workchain does not fit. -/
def rserialize (a : StdAddress) : List Char :=
  if -128 ≤ a.workchain ∧ a.workchain < 128 then
    base64Encode (a.payload ++ crcBytes a.payload)
  else []

/-- The address in the 36 bytes of a friendly form. -/
def ofBuffer (buffer : List UInt8) : Option StdAddress :=
  if hlen : buffer.length = 36 then
    if buffer.drop 34 = crcBytes (buffer.take 34) ∧ buffer.headD 0 &&& 0x3f = 0x11 then
      some
        { workchain := int8 (buffer.getD 1 0)
          bounceable := (buffer.headD 0 &&& 0x40) == 0
          testnet := (buffer.headD 0 &&& 0x80) != 0
          addr := (buffer.drop 2).take 32
          addr_length := by simp [hlen] }
    else none
  else none

/-- Reading the friendly form. Bytes the base64 text is too short to fill are zero. -/
def rdeserialize (cs : List Char) : Option StdAddress :=
  if cs.length = 48 then
    (base64Decode cs).bind (fun bytes => ofBuffer (bytes ++ List.replicate (36 - bytes.length) 0))
  else none

def parseHexDigit (c : Char) : Option Nat :=
  if 48 ≤ c.toNat ∧ c.toNat ≤ 57 then some (c.toNat - 48)
  else if 97 ≤ c.toNat ||| 0x20 ∧ c.toNat ||| 0x20 ≤ 122 then some ((c.toNat ||| 0x20) - 87)
  else none

/-- The bytes of a hex text; `parse_hex_digit` accepts letters above `f` too. -/
def parseHex : List Char → Option (List UInt8)
  | [] => some []
  | a :: b :: rest =>
    match parseHexDigit a, parseHexDigit b, parseHex rest with
    | some hi, some lo, some bytes => some (UInt8.ofNat ((hi * 16 &&& 0xf0) ||| lo) :: bytes)
    | _, _, _ => none
  | _ => none

/-- `td::to_integer_safe<int32>`: the canonical decimal text of a 32-bit number. -/
def toIntegerSafe (cs : List Char) : Option Int :=
  match Decimal.toInt? cs with
  | some n => if Decimal.ofInt n = cs ∧ -2 ^ 31 ≤ n ∧ n < 2 ^ 31 then some n else none
  | none => none

/-- The address of 64 hex digits in a given workchain. -/
def ofHex (workchain : Int) (hex : List Char) : Option StdAddress :=
  match parseHex hex with
  | some bytes =>
    if h : bytes.length = 32 then
      some ⟨workchain, true, false, bytes, h⟩
    else none
  | none => none

/-- The friendly form, or `workchain:hex`, or 64 hex digits with no workchain. -/
def parseAddr (cs : List Char) : Option StdAddress :=
  match rdeserialize cs with
  | some a => some a
  | none =>
    match cs.idxOf? ':' with
    | some pos =>
      if 10 < pos then none
      else
        match toIntegerSafe (cs.take pos) with
        | some wc => if wc = workchainInvalid then none else ofHex wc (cs.drop (pos + 1))
        | none => none
    | none => ofHex workchainInvalid cs

end StdAddress

/-! ## The friendly form reads back -/

set_option maxRecDepth 4000 in
theorem base64Value_base64Char : ∀ i < 64, base64Value (base64Char i) = some i := by
  decide

theorem base64Char_mod (i : Nat) : base64Char i = base64Char (i % 64) := by
  rw [base64Char, base64Char, Nat.mod_mod]

theorem base64Value_char (i : Nat) : base64Value (base64Char i) = some (i % 64) := by
  rw [base64Char_mod, base64Value_base64Char _ (Nat.mod_lt _ (by decide))]

set_option maxRecDepth 4000 in
theorem base64Char_ne_pad (i : Nat) : base64Char i ≠ '=' := by
  rw [base64Char_mod]
  have hall : ∀ j < 64, base64Char j ≠ '=' := by decide
  exact hall _ (Nat.mod_lt _ (by decide))

/-- The four sextets of a 24-bit number put together again. -/
theorem sextets {x : Nat} (h : x < 2 ^ 24) :
    x / 262144 % 64 * 262144 + x / 4096 % 64 * 4096 + x / 64 % 64 * 64 + x % 64 = x := by
  omega

/-- The three bytes of a 24-bit number put together from them. -/
theorem bytes_of_group (a b c : UInt8) :
    let x := a.toNat * 65536 + b.toNat * 256 + c.toNat
    UInt8.ofNat (x / 65536) = a ∧ UInt8.ofNat (x / 256) = b ∧ UInt8.ofNat x = c := by
  have ha := UInt8.toNat_lt a
  have hb := UInt8.toNat_lt b
  have hc := UInt8.toNat_lt c
  refine ⟨?_, ?_, ?_⟩ <;> apply UInt8.toNat_inj.1 <;> rw [UInt8.toNat_ofNat'] <;> omega

/-- Decoding whole groups of three bytes gives them back. -/
theorem base64Groups_encode (n : Nat) (bytes : List UInt8) (h : bytes.length = 3 * n) :
    base64Groups (base64Encode bytes) = some bytes := by
  induction n generalizing bytes with
  | zero =>
    obtain rfl := List.eq_nil_of_length_eq_zero (by simpa using h)
    rfl
  | succ n ih =>
    match bytes, h with
    | a :: b :: c :: rest, h =>
      have hrest := ih rest (by simp only [List.length_cons] at h; omega)
      have hx : a.toNat * 65536 + b.toNat * 256 + c.toNat < 2 ^ 24 := by
        have ha := UInt8.toNat_lt a
        have hb := UInt8.toNat_lt b
        have hc := UInt8.toNat_lt c
        omega
      obtain ⟨h1, h2, h3⟩ := bytes_of_group a b c
      simp only [base64Encode, base64Groups, base64Value_char, hrest, sextets hx, h1, h2, h3]

theorem length_base64Encode (n : Nat) (bytes : List UInt8) (h : bytes.length = 3 * n) :
    (base64Encode bytes).length = 4 * n := by
  induction n generalizing bytes with
  | zero =>
    obtain rfl := List.eq_nil_of_length_eq_zero (by simpa using h)
    rfl
  | succ n ih =>
    match bytes, h with
    | a :: b :: c :: rest, h =>
      have hrest := ih rest (by simp only [List.length_cons] at h; omega)
      simp only [base64Encode, List.length_cons, hrest]
      omega

theorem base64Encode_no_pad (n : Nat) (bytes : List UInt8) (h : bytes.length = 3 * n) :
    '=' ∉ base64Encode bytes := by
  induction n generalizing bytes with
  | zero =>
    obtain rfl := List.eq_nil_of_length_eq_zero (by simpa using h)
    simp [base64Encode]
  | succ n ih =>
    match bytes, h with
    | a :: b :: c :: rest, h =>
      have hrest := ih rest (by simp only [List.length_cons] at h; omega)
      simp only [base64Encode, List.mem_cons, not_or]
      exact ⟨(base64Char_ne_pad _).symm, (base64Char_ne_pad _).symm, (base64Char_ne_pad _).symm,
        (base64Char_ne_pad _).symm, hrest⟩

theorem base64Padding_of_no_pad {cs : List Char} (h : '=' ∉ cs) : base64Padding cs = 0 := by
  rw [← List.mem_reverse] at h
  unfold base64Padding
  split
  · rename_i heq
    rw [heq] at h
    simp at h
  · rename_i heq
    rw [heq] at h
    simp at h
  · rfl

theorem base64Decode_encode (n : Nat) (bytes : List UInt8) (h : bytes.length = 3 * n) :
    base64Decode (base64Encode bytes) = some bytes := by
  rw [base64Decode, base64Groups_encode n bytes h, base64Padding_of_no_pad
    (base64Encode_no_pad n bytes h), Option.map_some, Nat.sub_zero, List.take_length]

theorem int8_ofNat_emod {w : Int} (hlo : -128 ≤ w) (hhi : w < 128) :
    int8 (UInt8.ofNat (w % 256).toNat) = w := by
  have hbyte : (UInt8.ofNat (w % 256).toNat).toNat = (w % 256).toNat := by
    rw [UInt8.toNat_ofNat', Nat.mod_eq_of_lt (by omega)]
  rw [int8, hbyte]
  split <;> omega

namespace StdAddress

theorem length_payload (a : StdAddress) : a.payload.length = 34 := by
  simp [payload, a.addr_length]

/-- The tag byte says that it is one, and spells both flags. -/
theorem tag_flags (a : StdAddress) : a.tag &&& 0x3f = 0x11 ∧
    (a.tag &&& 0x40 == 0) = a.bounceable ∧ (a.tag &&& 0x80 != 0) = a.testnet := by
  obtain ⟨wc, bounceable, testnet, addr, hl⟩ := a
  cases bounceable <;> cases testnet <;> simp only [tag] <;> decide

/-- The buffer of an address reads back as the address. -/
theorem ofBuffer_payload (a : StdAddress) (hlo : -128 ≤ a.workchain) (hhi : a.workchain < 128) :
    ofBuffer (a.payload ++ crcBytes a.payload) = some a := by
  have hlen : (a.payload ++ crcBytes a.payload).length = 36 := by
    simp [length_payload, crcBytes]
  have htake : (a.payload ++ crcBytes a.payload).take 34 = a.payload :=
    List.take_left' a.length_payload
  have hdrop : (a.payload ++ crcBytes a.payload).drop 34 = crcBytes a.payload :=
    List.drop_left' a.length_payload
  have hhead : (a.payload ++ crcBytes a.payload).headD 0 = a.tag := rfl
  have hsecond : (a.payload ++ crcBytes a.payload).getD 1 0
      = UInt8.ofNat (a.workchain % 256).toNat := rfl
  obtain ⟨htag, hbounceable, htestnet⟩ := a.tag_flags
  have haddr : ((a.payload ++ crcBytes a.payload).drop 2).take 32 = a.addr := by
    rw [payload, List.cons_append, List.cons_append, List.drop_succ_cons, List.drop_succ_cons,
      List.drop_zero, List.take_left' a.addr_length]
  rw [ofBuffer, dif_pos hlen, if_pos ⟨by rw [htake, hdrop], by rw [hhead, htag]⟩]
  simp only [hhead, hsecond, hbounceable, htestnet, haddr, int8_ofNat_emod hlo hhi]

/-- Reading the friendly form of an address gives the address back. -/
theorem rdeserialize_rserialize (a : StdAddress) (hlo : -128 ≤ a.workchain)
    (hhi : a.workchain < 128) : rdeserialize a.rserialize = some a := by
  have hlen : (a.payload ++ crcBytes a.payload).length = 3 * 12 := by
    simp [length_payload, crcBytes]
  rw [rserialize, if_pos ⟨hlo, hhi⟩, rdeserialize,
    if_pos (length_base64Encode 12 _ hlen), base64Decode_encode 12 _ hlen, Option.bind_some, hlen]
  simpa using ofBuffer_payload a hlo hhi

end StdAddress

end Block
