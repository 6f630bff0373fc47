import TopWallets.Lib.Bytes
import TopWallets.TonConnect

/- The proof of a connection: `ParsedMessage.ToBytes` on what `Connection.Connect` signs.

   The bytes that are hashed are a prefix, the workchain (big-endian), the address, the
   length of the domain (little-endian), the domain, the timestamp (little-endian) and
   the payload. `Connect` takes the length from `uri.Host.Length`, which counts UTF-16
   units, and `ToBytes` writes the host in UTF-8, as `string.ToBytes` of another library
   makes it (`Utf8Text`). This file

   1. embeds the bytes and both hashes around them (`preimage`, `toBytes`);
   2. defines a reader of the format (`read`), which takes the length at its word;
   3. proves that the reader recovers a message exactly when its host is ASCII
      (`recovers_iff_ascii`), and that the bytes still tell all messages apart
      (`preimage_inj`): UTF-8 texts of one length in UTF-16 units are equal when the bytes
      of one begin the other's.

   SHA-256 is a parameter. A request without a payload makes `ToBytes` raise. -/
namespace Ton.TonConnect

open Bytes Utf8

/-- `string.ToBytes` is UTF-8. -/
structure Utf8Text (stringBytes : List Char → List UInt8) : Prop where
  utf8 : ∀ text, stringBytes text = encode text

theorem utf8Text_encode : Utf8Text encode := ⟨fun _ => rfl⟩

namespace ParsedMessage

section
variable (stringBytes : List Char → List UInt8)

/-- The bytes of a message with a payload. -/
def fields (m : ParsedMessage) (payload : List Char) : List UInt8 :=
  stringBytes "ton-proof-item-v2/".toList ++ (big 4 (unsigned 32 m.workchain) ++ (m.address ++
    (little 4 m.domain.lengthBytes ++ (stringBytes m.domain.value ++
      (little 8 (unsigned 64 m.timestamp) ++ stringBytes payload)))))

/-- What `ToBytes` hashes first. -/
def preimage (m : ParsedMessage) : Except Exception (List UInt8) :=
  match m.payload with
  | some payload => .ok (m.fields stringBytes payload)
  | none => .error .argumentNull

def toBytes (sha256 : List UInt8 → List UInt8) (m : ParsedMessage) :
    Except Exception (List UInt8) := do
  let messageHash := sha256 (← m.preimage stringBytes)
  return sha256 ([0xff, 0xff] ++ stringBytes "ton-connect".toList ++ messageHash)

end

end ParsedMessage

/-- What a reader gets. -/
structure Reading where
  workchain : Int
  hash : List UInt8
  domain : List UInt8
  timestamp : Int
  payload : List UInt8
  deriving DecidableEq

def itemPrefix : List UInt8 := encode "ton-proof-item-v2/".toList

/-- A reader of the format. -/
def read (bytes : List UInt8) : Option Reading := do
  let (begin, bytes) ← field itemPrefix.length bytes
  guard (begin = itemPrefix)
  let (workchain, bytes) ← field 4 bytes
  let (hash, bytes) ← field 32 bytes
  let (length, bytes) ← field 4 bytes
  let (domain, bytes) ← field (ofLittle length) bytes
  let (timestamp, bytes) ← field 8 bytes
  return ⟨signed 32 (ofBig workchain), hash, domain, signed 64 (ofLittle timestamp), bytes⟩

/-- The values that a wallet and its dApp have by their types: an `int`, 32 bytes, a `long` and a
text whose length is an `int`. -/
structure ProofWallet where
  wallet : ConnectWallet
  workchain_ge : -2 ^ 31 ≤ wallet.addressData.1
  workchain_lt : wallet.addressData.1 < 2 ^ 31
  length_address : wallet.addressData.2.length = 32
  serverTime_ge : -2 ^ 63 ≤ wallet.serverTime
  serverTime_lt : wallet.serverTime < 2 ^ 63
  length_host : utf16Length wallet.host < 2 ^ 31

/-- The message of `Connect` for a request with a payload. -/
def ProofWallet.message (w : ProofWallet) (payload : List Char) : ParsedMessage :=
  w.wallet.proof ⟨"ton_proof".toList, some payload⟩

/-- The reader recovers what the message holds. -/
def Recovers (stringBytes : List Char → List UInt8) (w : ProofWallet) (payload : List Char) :
    Prop :=
  ∃ bytes, (w.message payload).preimage stringBytes = .ok bytes ∧
    read bytes = some ⟨w.wallet.addressData.1, w.wallet.addressData.2, encode w.wallet.host,
      w.wallet.serverTime, encode payload⟩

/-! ## Reading -/

section
variable (w : ProofWallet) (payload : List Char)

theorem preimage_message : (w.message payload).preimage encode =
    .ok ((w.message payload).fields encode payload) := rfl

theorem fields_message : (w.message payload).fields encode payload =
    itemPrefix ++ (big 4 (unsigned 32 w.wallet.addressData.1) ++ (w.wallet.addressData.2 ++
      (little 4 (utf16Length w.wallet.host) ++ (encode w.wallet.host ++
        (little 8 (unsigned 64 w.wallet.serverTime) ++ encode payload))))) := rfl

/-- What stands behind the domain's length is read by that length. -/
theorem read_fields : read ((w.message payload).fields encode payload) =
    (field (utf16Length w.wallet.host) (encode w.wallet.host ++
        (little 8 (unsigned 64 w.wallet.serverTime) ++ encode payload))).bind
      fun p => (field 8 p.2).map fun q =>
        ⟨w.wallet.addressData.1, w.wallet.addressData.2, p.1, signed 64 (ofLittle q.1), q.2⟩ := by
  have hworkchain : unsigned 32 w.wallet.addressData.1 < 256 ^ 4 := unsigned_lt 32 _
  have hlength : utf16Length w.wallet.host < 256 ^ 4 := w.length_host.trans (by decide)
  have hsigned : signed 32 (unsigned 32 w.wallet.addressData.1) = w.wallet.addressData.1 :=
    signed_unsigned (by decide) w.workchain_ge w.workchain_lt
  rw [fields_message]
  unfold read
  rw [field_append rfl]
  simp only [Option.bind_eq_bind, Option.pure_def, Option.bind_some, guard_true,
    field_append (length_big _ _), field_append w.length_address,
    field_append (length_little _ _), ofLittle_little_of_lt hlength,
    ofBig_big_of_lt hworkchain, hsigned]
  congr 1
  funext p
  cases field 8 p.2 <;> rfl

/-- The reader takes as many bytes for the domain as the host has units. -/
theorem recovers_iff_ascii : Recovers encode w payload ↔ Ascii w.wallet.host := by
  have htimestamp : unsigned 64 w.wallet.serverTime < 256 ^ 8 := unsigned_lt 64 _
  have hsigned : signed 64 (unsigned 64 w.wallet.serverTime) = w.wallet.serverTime :=
    signed_unsigned (by decide) w.serverTime_ge w.serverTime_lt
  rw [← utf16Length_eq_iff, Recovers]
  constructor
  · intro h
    obtain ⟨bytes, hbytes, h⟩ := h
    obtain rfl := Except.ok.inj hbytes
    rw [read_fields] at h
    obtain ⟨p, hp, h⟩ := Option.bind_eq_some_iff.1 h
    obtain ⟨q, _, h⟩ := Option.map_eq_some_iff.1 h
    have hdomain : p.1 = encode w.wallet.host := congrArg Reading.domain h
    rw [← hdomain]
    exact (length_of_field hp).symm
  · intro hlen
    refine ⟨_, preimage_message w payload, ?_⟩
    rw [read_fields, field_append hlen.symm, Option.bind_some, field_append (length_little _ _),
      Option.map_some, ofLittle_little_of_lt htimestamp, hsigned]

variable {w payload}

/-- Two messages of the same bytes are one. -/
theorem preimage_inj {w' : ProofWallet} {payload' : List Char}
    (h : (w.message payload).preimage encode = (w'.message payload').preimage encode) :
    w.message payload = w'.message payload' := by
  have hbytes := Except.ok.inj h
  rw [fields_message, fields_message] at hbytes
  -- the fields of fixed width first
  obtain ⟨hworkchain, hbytes⟩ := List.append_inj (List.append_cancel_left hbytes) (by simp)
  obtain ⟨haddress, hbytes⟩ := List.append_inj hbytes (by rw [w.length_address, w'.length_address])
  obtain ⟨hlength, hbytes⟩ := List.append_inj hbytes (by simp)
  have hunits := little_inj (w.length_host.trans (by decide)) (w'.length_host.trans (by decide))
    hlength
  -- then the hosts, whose lengths in units are equal
  obtain ⟨hhost, hbytes⟩ := eq_of_encode_append hunits hbytes
  obtain ⟨htimestamp, hpayload⟩ := List.append_inj hbytes (by simp)
  have hworkchain := unsigned_inj (by decide) w.workchain_ge w.workchain_lt w'.workchain_ge
    w'.workchain_lt (big_inj (unsigned_lt 32 _) (unsigned_lt 32 _) hworkchain)
  have htimestamp := unsigned_inj (by decide) w.serverTime_ge w.serverTime_lt w'.serverTime_ge
    w'.serverTime_lt (little_inj (unsigned_lt 64 _) (unsigned_lt 64 _) htimestamp)
  unfold ProofWallet.message ConnectWallet.proof ConnectWallet.domain
  rw [hworkchain, haddress, hhost, htimestamp, encode_injective hpayload]

end

/-- A message is recovered exactly when its host is ASCII, and no other message has its bytes. -/
theorem proof_decodable {stringBytes : List Char → List UInt8} (h : Utf8Text stringBytes)
    (w : ProofWallet) (payload : List Char) :
    (Recovers stringBytes w payload ↔ Ascii w.wallet.host) ∧
      ∀ (w' : ProofWallet) (payload' : List Char),
        (w'.message payload').preimage stringBytes = (w.message payload).preimage stringBytes →
        w'.message payload' = w.message payload := by
  obtain rfl : stringBytes = encode := funext h.utf8
  exact ⟨recovers_iff_ascii w payload, fun _ _ => preimage_inj⟩

/-! ## Two hosts -/

/-- A wallet in the masterchain, whose dApp has this host. -/
def proofWallet (host : List Char) (hhost : utf16Length host < 2 ^ 31) : ProofWallet where
  wallet :=
    { addressHex := []
      addressData := (-1, List.replicate 32 0)
      isTestnet := false
      publicKeyHex := []
      serverTime := 1700000000
      host := host
      sign := fun _ _ => .ok [] }
  workchain_ge := by show (-2 ^ 31 : Int) ≤ -1; decide
  workchain_lt := by show (-1 : Int) < 2 ^ 31; decide
  length_address := List.length_replicate
  serverTime_ge := by show (-2 ^ 63 : Int) ≤ 1700000000; decide
  serverTime_lt := by show (1700000000 : Int) < 2 ^ 63; decide
  length_host := hhost

theorem recovers_asciiHost :
    Recovers encode (proofWallet "ton.org".toList (by decide)) "nonce".toList := by
  have hascii : Ascii "ton.org".toList := by simp [Ascii]
  exact (proof_decodable utf8Text_encode (proofWallet _ _) _).1.2 hascii

/-- The Cyrillic host `\u043f\u0440.\u0440\u0444` has five units and nine bytes. -/
theorem not_recovers_unicodeHost :
    ¬ ∀ (w : ProofWallet) (payload : List Char), Recovers encode w payload := by
  intro hall
  have hascii := (recovers_iff_ascii _ _).1
    (hall (proofWallet "\u043f\u0440.\u0440\u0444".toList (by decide)) [])
  have hmem : '\u043f' ∈ "\u043f\u0440.\u0440\u0444".toList := by decide
  exact absurd (hascii '\u043f' hmem) (by decide)

end Ton.TonConnect
