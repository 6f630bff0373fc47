import TopWallets.SimpleEncryption

/- Encryption for a public key: `comx::encrypt` and `comx::decrypt`.

   A message is the public key of a fresh key pair, the digest of the data and the data under
   AES-CTR, whose key and initial vector are glued together from the shared secret and the digest.
   Slices are lists, and a slice operation whose `CHECK` fails, or that would write behind its
   slice, stops with `check`. Ed25519, SHA-256 and AES-CTR are parameters; assumed is that
   the shared secret of two key pairs is the same from both sides, and that AES-CTR inverts
   itself.

   Main result: what is encrypted decrypts to the data, and what is no message is an error, or data
   of the digest in it, with no operation out of range (`decrypt_spec`).

   Correspondence (C++ ↔ Lean):
     `td::Slice`, `td::MutableSlice`            ↔ lists, `MutableSlice`
     `comx::encrypt`, `comx::decrypt`           ↔ `encrypt`, `decrypt`
     `PublicKeyEncrypt`, `PrivateKeyDecrypt`    ↔ `publicKeyEncrypt`, `privateKeyDecrypt`
     `KeyEncryptDecrypt`                        ↔ `keyEncryptDecrypt` -/
namespace Comx.Key

/-- Why a function has no result: a `CHECK` or a status. -/
inductive Stop where
  | check
  | status (message : String)
  deriving DecidableEq

namespace Slice

def removePrefix (s : List UInt8) (len : Nat) : Except Stop (List UInt8) :=
  if len ≤ s.length then .ok (s.drop len) else .error .check

def substr (s : List UInt8) (start size : Nat) : Except Stop (List UInt8) :=
  if start ≤ s.length then .ok ((s.drop start).take size) else .error .check

def truncate (s : List UInt8) (size : Nat) : List UInt8 := s.take size

end Slice

/-- The bytes of a buffer from some place on, and those before it. -/
structure MutableSlice where
  before : List UInt8
  bytes : List UInt8

namespace MutableSlice

/-- The slice of a new buffer. What is in it is not read before it is written. -/
def new (size : Nat) : MutableSlice := ⟨[], List.replicate size 0⟩

def buffer (s : MutableSlice) : List UInt8 := s.before ++ s.bytes

def removePrefix (s : MutableSlice) (len : Nat) : Except Stop MutableSlice :=
  if len ≤ s.bytes.length then
    .ok ⟨s.before ++ s.bytes.take len, s.bytes.drop len⟩
  else .error .check

def copyFrom (s : MutableSlice) (source : List UInt8) : Except Stop MutableSlice :=
  if source.length ≤ s.bytes.length then
    .ok { s with bytes := source ++ s.bytes.drop source.length }
  else .error .check

end MutableSlice

/-- The functions that come from elsewhere. `ctr` is the AES-CTR stream over the data. -/
structure Library where
  get_public_key : (private_key : List UInt8) → Except String (List UInt8)
  compute_shared_secret : (public_key private_key : List UInt8) → Except String (Vector UInt8 32)
  sha256 : List UInt8 → Vector UInt8 32
  ctr : (key iv data : List UInt8) → List UInt8

/-- `AesCtrState::init` and `encrypt`. -/
def Library.ctr_encrypt (L : Library) (key iv data : List UInt8) : Except Stop (List UInt8) :=
  if key.length = 32 ∧ iv.length = 16 then .ok (L.ctr key iv data) else .error .check

/-- `TRY_RESULT_PREFIX`. -/
def tryResult {α : Type} (message : String) : Except String α → Except Stop α
  | .ok a => .ok a
  | .error e => .error (.status (message ++ e))

section
variable (L : Library)

/-- The key of `decrypt`. -/
def decryptKey (shared_secret digest : List UInt8) : Except Stop (List UInt8) := do
  let key ← (MutableSlice.new 32).copyFrom (← Slice.substr shared_secret 0 16)
  let key ← (← key.removePrefix 16).copyFrom (← Slice.substr digest 16 16)
  return key.buffer

def decryptIv (shared_secret digest : List UInt8) : Except Stop (List UInt8) := do
  let iv ← (MutableSlice.new 16).copyFrom (← Slice.substr digest 0 4)
  let iv ← (← iv.removePrefix 4).copyFrom (← Slice.substr shared_secret 20 12)
  return iv.buffer

def decrypt (pk : List UInt8) (data : List UInt8) : Except Stop (List UInt8) :=
  if data.length < 32 + 32 then .error (.status "message is too short")
  else do
    let pub ← Slice.substr data 0 32
    let data ← Slice.removePrefix data 32
    let digest ← Slice.substr data 0 32
    let data ← Slice.removePrefix data 32
    let shared_secret ← tryResult "failed to generate shared secret: "
      (L.compute_shared_secret pub pk)
    let key ← decryptKey shared_secret.toList digest
    let iv ← decryptIv shared_secret.toList digest
    let res ← (MutableSlice.new data.length).copyFrom (← L.ctr_encrypt key iv data)
    if (L.sha256 res.buffer).toList ≠ digest then
      .error (.status "sha256 mismatch after decryption")
    else return res.buffer

/-- The key of `encrypt`. -/
def encryptKey (shared_secret digest : List UInt8) : Except Stop (List UInt8) := do
  let S ← (MutableSlice.new 32).copyFrom (Slice.truncate shared_secret 16)
  let S ← S.removePrefix 16
  let S ← S.copyFrom (Slice.truncate (← Slice.removePrefix digest 16) 16)
  return S.buffer

def encryptIv (shared_secret digest : List UInt8) : Except Stop (List UInt8) := do
  let S ← (MutableSlice.new 16).copyFrom (Slice.truncate digest 4)
  let S ← S.removePrefix 4
  let S ← S.copyFrom (Slice.truncate (← Slice.removePrefix shared_secret 20) 12)
  return S.buffer

/-- `generated` is the private key that is generated. The digest is a slice of the message and is
written there. -/
def encrypt (generated : Except String (List UInt8)) (pub : List UInt8) (data : List UInt8) :
    Except Stop (List UInt8) := do
  let pk ← tryResult "failed to generate private key: " generated
  let pubkey_str ← tryResult "failed to get public key from private: " (L.get_public_key pk)
  let slice ← (MutableSlice.new (pubkey_str.length + 32 + data.length)).copyFrom pubkey_str
  let slice ← slice.removePrefix pubkey_str.length
  let shared_secret ← tryResult "failed to compute shared secret: "
    (L.compute_shared_secret pub pk)
  let digest := (L.sha256 data).toList
  let slice ← slice.copyFrom digest
  let slice ← slice.removePrefix 32
  let key ← encryptKey shared_secret.toList digest
  let iv ← encryptIv shared_secret.toList digest
  let slice ← slice.copyFrom (← L.ctr_encrypt key iv data)
  return slice.buffer

/-! ## The native functions -/

/-- A native function returns false when there is a status. -/
def orFalse {α : Type} : Except Stop α → Except Stop (Option α)
  | .ok a => .ok (some a)
  | .error (.status _) => .ok none
  | .error .check => .error .check

def publicKeyEncrypt (generated : Except String (List UInt8)) (pubKey : Vector UInt8 32)
    (data : List UInt8) : Except Stop (Option (List UInt8)) :=
  orFalse (encrypt L generated pubKey.toList data)

def privateKeyDecrypt (privKey : Vector UInt8 32) (data : List UInt8) :
    Except Stop (Option (List UInt8)) :=
  orFalse (decrypt L privKey.toList data)

/-- `move_as_ok`: a status is a failed `CHECK`. -/
def moveAsOk {α : Type} : Except Stop α → Except Stop α
  | .error _ => .error .check
  | .ok a => .ok a

def keyEncryptDecrypt (generated : Except String (List UInt8)) (pubKey privKey : Vector UInt8 32)
    (data : List UInt8) : Except Stop (List UInt8) := do
  let encData ← moveAsOk (encrypt L generated pubKey.toList data)
  moveAsOk (decrypt L privKey.toList encData)

end

/-! ## Slices in range -/

theorem Slice.substr_eq {s : List UInt8} {start : Nat} (h : start ≤ s.length) (size : Nat) :
    Slice.substr s start size = .ok ((s.drop start).take size) := by
  rw [Slice.substr, if_pos h]

theorem Slice.removePrefix_eq {s : List UInt8} {len : Nat} (h : len ≤ s.length) :
    Slice.removePrefix s len = .ok (s.drop len) := by
  rw [Slice.removePrefix, if_pos h]

namespace MutableSlice

theorem copyFrom_new {size : Nat} {a : List UInt8} (h : a.length ≤ size) :
    (new size).copyFrom a = .ok ⟨[], a ++ List.replicate (size - a.length) 0⟩ := by
  rw [copyFrom, new, if_pos (by rwa [List.length_replicate]), List.drop_replicate]

theorem removePrefix_append (before a rest : List UInt8) :
    (MutableSlice.mk before (a ++ rest)).removePrefix a.length = .ok ⟨before ++ a, rest⟩ := by
  rw [removePrefix, if_pos (by simp), List.take_left, List.drop_left]

theorem copyFrom_append {before a rest : List UInt8} {b : List UInt8}
    (h : b.length = a.length) :
    (MutableSlice.mk before (a ++ rest)).copyFrom b = .ok ⟨before, b ++ rest⟩ := by
  rw [copyFrom, if_pos (by simp [h]), h, List.drop_left]

end MutableSlice

/-- A buffer that is filled by two parts. -/
theorem glue {size len : Nat} {a b : List UInt8} (ha : a.length = len)
    (hb : b.length = size - len) (hle : len ≤ size) :
    (do
      let s ← (MutableSlice.new size).copyFrom a
      let s ← (← s.removePrefix len).copyFrom b
      return s.buffer : Except Stop (List UInt8)) = .ok (a ++ b) := by
  subst ha
  have hfill : (MutableSlice.mk ([] ++ a) (List.replicate (size - a.length) 0)).copyFrom b =
      .ok ⟨[] ++ a, b ++ []⟩ := by
    rw [← List.append_nil (List.replicate (size - a.length) (0 : UInt8))]
    apply MutableSlice.copyFrom_append
    rw [List.length_replicate, hb]
  rw [MutableSlice.copyFrom_new hle]
  simp only [bind, Except.bind, MutableSlice.removePrefix_append, hfill]
  simp [MutableSlice.buffer, pure, Except.pure]

/-! ## Key and initial vector -/

def ctrKey (shared_secret digest : List UInt8) : List UInt8 :=
  shared_secret.take 16 ++ (digest.drop 16).take 16

def ctrIv (shared_secret digest : List UInt8) : List UInt8 :=
  digest.take 4 ++ (shared_secret.drop 20).take 12

section
variable {shared_secret digest : List UInt8} (hs : shared_secret.length = 32)
  (hd : digest.length = 32)
include hs hd

theorem length_ctrKey : (ctrKey shared_secret digest).length = 32 := by
  simp [ctrKey, hs, hd]

theorem length_ctrIv : (ctrIv shared_secret digest).length = 16 := by
  simp [ctrIv, hs, hd]

theorem decryptKey_eq : decryptKey shared_secret digest = .ok (ctrKey shared_secret digest) := by
  rw [decryptKey, Slice.substr_eq (Nat.zero_le _), Slice.substr_eq (by omega)]
  exact glue (by simp [hs]) (by simp [hd]) (by decide)

theorem decryptIv_eq : decryptIv shared_secret digest = .ok (ctrIv shared_secret digest) := by
  rw [decryptIv, Slice.substr_eq (Nat.zero_le _), Slice.substr_eq (by omega)]
  exact glue (by simp [hd]) (by simp [hs]) (by decide)

theorem encryptKey_eq : encryptKey shared_secret digest = .ok (ctrKey shared_secret digest) := by
  rw [encryptKey, Slice.removePrefix_eq (by omega)]
  exact glue (by simp [Slice.truncate, hs]) (by simp [Slice.truncate, hd]) (by decide)

theorem encryptIv_eq : encryptIv shared_secret digest = .ok (ctrIv shared_secret digest) := by
  rw [encryptIv, Slice.removePrefix_eq (by omega)]
  exact glue (by simp [Slice.truncate, hd]) (by simp [Slice.truncate, hs]) (by decide)

end

/-! ## Messages -/

variable {L : Library}

/-- What the data of a message decrypt to. -/
def opened (L : Library) (shared_secret digest body : List UInt8) : List UInt8 :=
  L.ctr (ctrKey shared_secret digest) (ctrIv shared_secret digest) body

structure KeyPair (L : Library) where
  public_key : Vector UInt8 32
  private_key : Vector UInt8 32
  matching : L.get_public_key private_key.toList = .ok public_key.toList

/-- AES-CTR keeps the length and inverts itself, and two key pairs have one shared secret. -/
structure Library.Lawful (L : Library) : Prop where
  length_ctr : ∀ key iv data, (L.ctr key iv data).length = data.length
  ctr_ctr : ∀ key iv data, key.length = 32 → iv.length = 16 →
    L.ctr key iv (L.ctr key iv data) = data
  shared_secret : ∀ keys keys' : KeyPair L, ∃ secret,
    L.compute_shared_secret keys.public_key.toList keys'.private_key.toList = .ok secret ∧
    L.compute_shared_secret keys'.public_key.toList keys.private_key.toList = .ok secret

theorem ctr_encrypt_eq {shared_secret digest : List UInt8} (hs : shared_secret.length = 32)
    (hd : digest.length = 32) (body : List UInt8) :
    L.ctr_encrypt (ctrKey shared_secret digest) (ctrIv shared_secret digest) body =
      .ok (opened L shared_secret digest body) := by
  rw [Library.ctr_encrypt, if_pos ⟨length_ctrKey hs hd, length_ctrIv hs hd⟩, opened]

/-- `decrypt` of a message of the parts, when its key has a shared secret. -/
theorem decrypt_parts (hL : L.Lawful) {pk pub digest : List UInt8} (hpub : pub.length = 32)
    (hd : digest.length = 32) (body : List UInt8) :
    decrypt L pk (pub ++ digest ++ body) =
      tryResult "failed to generate shared secret: " (L.compute_shared_secret pub pk) >>=
        fun secret =>
          if (L.sha256 (opened L secret.toList digest body)).toList = digest then
            .ok (opened L secret.toList digest body)
          else .error (.status "sha256 mismatch after decryption") := by
  have hlong : ¬ (pub ++ digest ++ body).length < 32 + 32 := by
    simp only [List.length_append]
    omega
  have hpub' : Slice.substr (pub ++ digest ++ body) 0 32 = .ok pub := by
    rw [Slice.substr_eq (Nat.zero_le _), List.drop_zero, List.append_assoc, ← hpub, List.take_left]
  have hrest : Slice.removePrefix (pub ++ digest ++ body) 32 = .ok (digest ++ body) := by
    rw [Slice.removePrefix_eq (by omega), List.append_assoc, ← hpub, List.drop_left]
  have hdigest : Slice.substr (digest ++ body) 0 32 = .ok digest := by
    rw [Slice.substr_eq (Nat.zero_le _), List.drop_zero, ← hd, List.take_left]
  have hbody : Slice.removePrefix (digest ++ body) 32 = .ok body := by
    rw [Slice.removePrefix_eq (by simp; omega), ← hd, List.drop_left]
  rw [decrypt, if_neg hlong, hpub', hrest]
  simp only [bind, Except.bind, hdigest, hbody]
  cases L.compute_shared_secret pub pk with
  | error e => rfl
  | ok secret =>
    have hs : secret.toList.length = 32 := by simp
    have hres : (MutableSlice.new body.length).copyFrom (opened L secret.toList digest body) =
        .ok ⟨[], opened L secret.toList digest body⟩ := by
      have hlen : (opened L secret.toList digest body).length = body.length := hL.length_ctr _ _ _
      rw [MutableSlice.copyFrom_new (Nat.le_of_eq hlen), hlen, Nat.sub_self, List.replicate_zero,
        List.append_nil]
    simp only [tryResult, decryptKey_eq hs hd, decryptIv_eq hs hd, ctr_encrypt_eq hs hd, hres]
    by_cases heq : (L.sha256 (opened L secret.toList digest body)).toList = digest
    · rw [if_pos heq]
      exact if_neg (not_not.2 heq)
    · rw [if_neg heq]
      exact if_pos heq

/-- The message of a generated key pair. -/
theorem encrypt_parts (hL : L.Lawful) {generated : List UInt8} {pub pubkey data : List UInt8}
    {secret : Vector UInt8 32} (hpubkey : L.get_public_key generated = .ok pubkey)
    (hsecret : L.compute_shared_secret pub generated = .ok secret) :
    encrypt L (.ok generated) pub data =
      .ok (pubkey ++ (L.sha256 data).toList ++
        opened L secret.toList (L.sha256 data).toList data) := by
  have hs : secret.toList.length = 32 := by simp
  have hd : (L.sha256 data).toList.length = 32 := by simp
  have hlen : (opened L secret.toList (L.sha256 data).toList data).length = data.length :=
    hL.length_ctr _ _ _
  -- what is left of the buffer after the public key, and after the digest
  have hroom : pubkey.length + 32 + data.length - pubkey.length = 32 + data.length := by omega
  have hfirst : (MutableSlice.new (pubkey.length + 32 + data.length)).copyFrom pubkey =
      .ok ⟨[], pubkey ++ (List.replicate 32 0 ++ List.replicate data.length 0)⟩ := by
    rw [MutableSlice.copyFrom_new (by omega), hroom, List.replicate_add]
  have hdigest : (MutableSlice.mk ([] ++ pubkey)
      (List.replicate 32 0 ++ List.replicate data.length 0)).copyFrom (L.sha256 data).toList =
        .ok ⟨[] ++ pubkey, (L.sha256 data).toList ++ List.replicate data.length 0⟩ :=
    MutableSlice.copyFrom_append (by rw [hd, List.length_replicate])
  have hskip : (MutableSlice.mk ([] ++ pubkey)
      ((L.sha256 data).toList ++ List.replicate data.length 0)).removePrefix 32 =
        .ok ⟨[] ++ pubkey ++ (L.sha256 data).toList, List.replicate data.length 0⟩ := by
    have h := MutableSlice.removePrefix_append ([] ++ pubkey) (L.sha256 data).toList
      (List.replicate data.length 0)
    rwa [hd] at h
  have hbody : (MutableSlice.mk ([] ++ pubkey ++ (L.sha256 data).toList)
      (List.replicate data.length 0)).copyFrom
        (opened L secret.toList (L.sha256 data).toList data) =
        .ok ⟨[] ++ pubkey ++ (L.sha256 data).toList,
          opened L secret.toList (L.sha256 data).toList data⟩ := by
    have hzeros : List.replicate data.length (0 : UInt8) =
        List.replicate data.length 0 ++ [] := (List.append_nil _).symm
    have hsame : (opened L secret.toList (L.sha256 data).toList data).length =
        (List.replicate data.length (0 : UInt8)).length := by
      rw [hlen, List.length_replicate]
    rw [hzeros, MutableSlice.copyFrom_append hsame, List.append_nil]
  rw [encrypt]
  simp only [tryResult, bind, Except.bind, hpubkey, hsecret, hfirst,
    MutableSlice.removePrefix_append, hdigest, hskip, encryptKey_eq hs hd, encryptIv_eq hs hd,
    ctr_encrypt_eq hs hd, hbody]
  rfl

theorem decrypt_encrypt (hL : L.Lawful) (keys generated : KeyPair L) (data : List UInt8) :
    ∃ msg, encrypt L (.ok generated.private_key.toList) keys.public_key.toList data = .ok msg ∧
      decrypt L keys.private_key.toList msg = .ok data := by
  obtain ⟨secret, hencrypt, hdecrypt⟩ := hL.shared_secret keys generated
  have hs : secret.toList.length = 32 := by simp
  have hd : (L.sha256 data).toList.length = 32 := by simp
  have hopen : opened L secret.toList (L.sha256 data).toList
      (opened L secret.toList (L.sha256 data).toList data) = data :=
    hL.ctr_ctr _ _ data (length_ctrKey hs hd) (length_ctrIv hs hd)
  refine ⟨_, encrypt_parts hL generated.matching hencrypt, ?_⟩
  rw [decrypt_parts hL (by simp) hd, hdecrypt, tryResult]
  simp only [bind, Except.bind, hopen, if_true]

/-- The same through the native functions. -/
theorem native_decrypt_encrypt (hL : L.Lawful) (keys generated : KeyPair L) (data : List UInt8) :
    (∃ msg, publicKeyEncrypt L (.ok generated.private_key.toList) keys.public_key data =
        .ok (some msg) ∧ privateKeyDecrypt L keys.private_key msg = .ok (some data)) ∧
      keyEncryptDecrypt L (.ok generated.private_key.toList) keys.public_key keys.private_key
        data = .ok data := by
  obtain ⟨msg, hencrypt, hdecrypt⟩ := decrypt_encrypt hL keys generated data
  refine ⟨⟨msg, ?_, ?_⟩, ?_⟩
  · rw [publicKeyEncrypt, hencrypt, orFalse]
  · rw [privateKeyDecrypt, hdecrypt, orFalse]
  · rw [keyEncryptDecrypt, hencrypt]
    simp only [moveAsOk, bind, Except.bind, hdecrypt]

/-- A message of at least 64 bytes decrypts to data of its digest, or there is a status. -/
theorem decrypt_long (hL : L.Lawful) (pk : List UInt8) {data : List UInt8}
    (h : 64 ≤ data.length) : (∃ message, decrypt L pk data = .error (.status message)) ∨
      ∃ res, decrypt L pk data = .ok res ∧ (L.sha256 res).toList = (data.drop 32).take 32 := by
  have hpub : (data.take 32).length = 32 := by
    rw [List.length_take]
    omega
  have hd : ((data.drop 32).take 32).length = 32 := by
    rw [List.length_take, List.length_drop]
    omega
  have hdata : data.take 32 ++ (data.drop 32).take 32 ++ (data.drop 32).drop 32 = data := by
    rw [List.append_assoc, List.take_append_drop, List.take_append_drop]
  have hparts := @decrypt_parts L hL pk _ _ hpub hd ((data.drop 32).drop 32)
  rw [hdata] at hparts
  rw [hparts]
  cases L.compute_shared_secret (data.take 32) pk with
  | error e => exact .inl ⟨_, rfl⟩
  | ok secret =>
    by_cases heq : (L.sha256 (opened L secret.toList ((data.drop 32).take 32)
        ((data.drop 32).drop 32))).toList = (data.drop 32).take 32
    · exact .inr ⟨_, if_pos heq, heq⟩
    · exact .inl ⟨_, if_neg heq⟩

/-- What is encrypted for a key decrypts to the data. What is no message gives a status or data of
the digest in it, and what is too short a status; no operation is out of range. -/
theorem decrypt_spec (hL : L.Lawful) :
    (∀ (keys generated : KeyPair L) (data : List UInt8), ∃ msg,
      encrypt L (.ok generated.private_key.toList) keys.public_key.toList data = .ok msg ∧
      decrypt L keys.private_key.toList msg = .ok data) ∧
    (∀ pk data : List UInt8, 64 ≤ data.length →
      (∃ message, decrypt L pk data = .error (.status message)) ∨
        ∃ res, decrypt L pk data = .ok res ∧ (L.sha256 res).toList = (data.drop 32).take 32) ∧
    ∀ pk data : List UInt8, data.length < 64 →
      decrypt L pk data = .error (.status "message is too short") := by
  refine ⟨decrypt_encrypt hL, fun pk data h => decrypt_long hL pk h, ?_⟩
  intro pk data h
  rw [decrypt, if_pos h]

/-! ## Two parties

    The key pairs of two parties, and the values of the functions that come up when one encrypts
    the bytes 1, 2, 3 for the other. -/

namespace TwoParties
open Tonlib.TwoParties (privateKey privateKey' publicKey publicKey' sharedSecret ownSecret
  ownSecret')

/-- SHA-256 of the bytes. -/
def digest : Vector UInt8 32 := #v[
    0x03, 0x90, 0x58, 0xc6, 0xf2, 0xc0, 0xcb, 0x49, 0x2c, 0x53, 0x3b, 0x0a, 0x4d, 0x14, 0xef, 0x77,
    0xcc, 0x0f, 0x78, 0xab, 0xcc, 0xce, 0xd5, 0x28, 0x7d, 0x84, 0xa1, 0xa2, 0x01, 0x1c, 0xfb, 0x81]

/-- The first block of the AES-CTR stream. -/
def block : List UInt8 := [
    0x19, 0xff, 0x00, 0x0b, 0x57, 0xab, 0x8d, 0xc1, 0xab, 0x38, 0x6c, 0xc1, 0x07, 0xfa, 0x49, 0x3d]

def stream (key iv : List UInt8) (i : Nat) : UInt8 :=
  if key = ctrKey sharedSecret.toList digest.toList ∧
    iv = ctrIv sharedSecret.toList digest.toList then block.getD i 0 else 0

def library : Library where
  get_public_key key :=
    if key = privateKey.toList then .ok publicKey.toList
    else if key = privateKey'.toList then .ok publicKey'.toList
    else .error "Can't import private key"
  compute_shared_secret pub pk :=
    if pub = publicKey.toList ∧ pk = privateKey.toList then .ok ownSecret
    else if pub = publicKey'.toList ∧ pk = privateKey'.toList then .ok ownSecret'
    else .ok sharedSecret
  sha256 data := if data = [1, 2, 3] then digest else Vector.replicate 32 0
  ctr key iv data := data.mapIdx fun i b => b ^^^ stream key iv i

def keys : KeyPair library := ⟨publicKey', privateKey', rfl⟩

def generated : KeyPair library := ⟨publicKey, privateKey, rfl⟩

theorem keyPair_cases (k : KeyPair library) :
    k.private_key = privateKey ∧ k.public_key = publicKey ∨
      k.private_key = privateKey' ∧ k.public_key = publicKey' := by
  have h := k.matching
  simp only [library, Vector.toList_inj] at h
  split_ifs at h with hk hk'
  · exact .inl ⟨hk, (Vector.toList_inj.1 (Except.ok.inj h)).symm⟩
  · exact .inr ⟨hk', (Vector.toList_inj.1 (Except.ok.inj h)).symm⟩

theorem library_lawful : library.Lawful where
  length_ctr key iv data := List.length_mapIdx
  ctr_ctr key iv data _ _ := by
    simp only [library, List.mapIdx_mapIdx]
    apply List.ext_getElem (by simp)
    intro i hi hi'
    simp
  shared_secret k k' := by
    obtain ⟨hsk, hpk⟩ | ⟨hsk, hpk⟩ := keyPair_cases k <;>
      obtain ⟨hsk', hpk'⟩ | ⟨hsk', hpk'⟩ := keyPair_cases k' <;>
      rw [hsk, hpk, hsk', hpk']
    · exact ⟨ownSecret, rfl, rfl⟩
    · exact ⟨sharedSecret, rfl, rfl⟩
    · exact ⟨sharedSecret, rfl, rfl⟩
    · exact ⟨ownSecret', rfl, rfl⟩

end TwoParties

open TwoParties

theorem decrypt_two_parties : ∃ msg,
    encrypt library (.ok generated.private_key.toList) keys.public_key.toList [1, 2, 3] =
      .ok msg ∧
    decrypt library keys.private_key.toList msg = .ok [1, 2, 3] ∧
    msg = generated.public_key.toList ++ digest.toList ++ [0x18, 0xfd, 0x03] := by
  obtain ⟨msg, hencrypt, hdecrypt⟩ := (decrypt_spec library_lawful).1 keys generated [1, 2, 3]
  have hmsg : encrypt library (.ok generated.private_key.toList) keys.public_key.toList [1, 2, 3] =
      .ok (generated.public_key.toList ++ digest.toList ++ [0x18, 0xfd, 0x03]) := by
    decide +kernel
  exact ⟨msg, hencrypt, hdecrypt, Except.ok.inj (hencrypt.symm.trans hmsg)⟩

end Comx.Key
