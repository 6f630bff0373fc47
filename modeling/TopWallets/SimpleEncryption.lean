import TopWallets.Lib.Bytes
import TopWallets.Exceptions

/- The encryption of local keys and of messages: `SimpleEncryption` and `SimpleEncryptionV2`.

   Both hash the data behind a random prefix, derive the key and the initial vector of AES-CBC from
   the hash and a secret, and write the hash before what they encrypt. The first byte of the prefix
   is its length. Main results: what decrypts is what was encrypted behind some prefix, byte for
   byte (`decrypts_iff`), with a proof that opens it without the secret
   (`V2.opens_iff`); and a message for a public key decrypts for both parties, each with
   its own key pair (`V2.parties_decrypt`).

   Correspondence (C++ ↔ Lean):
     `calc_aes_cbc_state_hash`, `AesCbcState`  ↔ `aesCbcEncrypt`, `aesCbcDecrypt`
     `gen_random_prefix`                       ↔ `genRandomPrefix`
     `combine_secrets`, `kdf`                  ↔ `combineSecrets`, `kdf`
     `encrypt_data_with_prefix`                ↔ `encryptDataWithPrefix`
     `encrypt_data`, `decrypt_data`            ↔ `encryptData`, `decryptData`
     the same of `SimpleEncryptionV2`          ↔ the functions in `V2`
     `unpack_encrypted_data`, `do_decrypt`     ↔ `unpack`, `V2.doDecrypt`
   SHA-256, HMAC, PBKDF2, AES-CBC and Ed25519 are parameters. -/
namespace Tonlib

structure Primitives where
  sha256 : List UInt8 → Vector UInt8 32
  hmac_sha512 : (key message : List UInt8) → Vector UInt8 64
  pbkdf2_sha512 : (password salt : List UInt8) → (iterations : Nat) → Vector UInt8 64
  aes_cbc_encrypt : (key iv data : List UInt8) → List UInt8
  aes_cbc_decrypt : (key iv data : List UInt8) → List UInt8

/-- AES-CBC permutes the data of whole blocks. -/
structure Primitives.Lawful (P : Primitives) : Prop where
  decrypt_encrypt : ∀ key iv data, data.length % 16 = 0 →
    P.aes_cbc_decrypt key iv (P.aes_cbc_encrypt key iv data) = data
  encrypt_decrypt : ∀ key iv data, data.length % 16 = 0 →
    P.aes_cbc_encrypt key iv (P.aes_cbc_decrypt key iv data) = data
  length_encrypt : ∀ key iv data, data.length % 16 = 0 →
    (P.aes_cbc_encrypt key iv data).length = data.length
  length_decrypt : ∀ key iv data, data.length % 16 = 0 →
    (P.aes_cbc_decrypt key iv data).length = data.length

/-! ## Data behind a prefix -/

/-- The size of the prefix fits its first byte. -/
def genRandomPrefix (random : (n : Nat) → Vector UInt8 n) (dataSize minPadding : Nat) :
    List UInt8 :=
  let size := (minPadding + 15 + dataSize) / 16 * 16 - dataSize
  (random size).toList.set 0 (UInt8.ofNat size)

/-- The hash and the encrypted data. -/
def unpack (hashSize : Nat) (encryptedData : List UInt8) :
    Except String (List UInt8 × List UInt8) :=
  if encryptedData.length < hashSize + 1 then .error "Failed to decrypt: data is too small"
  else if encryptedData.length % 16 ≠ 0 then
    .error "Failed to decrypt: data size is not divisible by 16"
  else .ok (encryptedData.take hashSize, encryptedData.drop hashSize)

/-- The data behind the prefix, if the hash is right. -/
def checked (hash : List UInt8 → List UInt8) (minPadding : Nat)
    (dataHash decryptedData : List UInt8) : Except String (List UInt8) :=
  if dataHash ≠ hash decryptedData then .error "Failed to decrypt: hash mismatch"
  else
    let prefixSize := (decryptedData.headD 0).toNat
    if prefixSize > decryptedData.length ∨ prefixSize < minPadding then
      .error "Failed to decrypt: invalid prefix size"
    else .ok (decryptedData.drop prefixSize)

/-- A prefix that begins with its length, and fills the data up to whole blocks. -/
structure IsPrefix (minPadding : Nat) (pre data : List UInt8) : Prop where
  le_length : minPadding ≤ pre.length
  length_lt : pre.length < 256
  head : pre.head? = some (UInt8.ofNat pre.length)
  blocks : (pre ++ data).length % 16 = 0

theorem isPrefix_genRandomPrefix (random : (n : Nat) → Vector UInt8 n) (data : List UInt8)
    {minPadding : Nat} (hpos : 0 < minPadding) (hlt : minPadding ≤ 32) :
    IsPrefix minPadding (genRandomPrefix random data.length minPadding) data := by
  generalize hsize : (minPadding + 15 + data.length) / 16 * 16 - data.length = size
  have hbounds : minPadding ≤ size ∧ size < 256 ∧ (size + data.length) % 16 = 0 := by omega
  have hpre : genRandomPrefix random data.length minPadding =
      (random size).toList.set 0 (UInt8.ofNat size) := by
    rw [genRandomPrefix, hsize]
  have hlen : (genRandomPrefix random data.length minPadding).length = size := by
    rw [hpre, List.length_set, Vector.length_toList]
  refine ⟨by omega, by omega, ?_, by rw [List.length_append]; omega⟩
  rw [hlen, hpre]
  have hne : (random size).toList ≠ [] := by
    apply List.ne_nil_of_length_pos
    rw [Vector.length_toList]
    omega
  obtain ⟨b, bs, hbs⟩ := List.exists_cons_of_ne_nil hne
  rw [hbs]
  rfl

theorem unpack_eq_ok_iff {hashSize : Nat} {encryptedData dataHash data : List UInt8} :
    unpack hashSize encryptedData = .ok (dataHash, data) ↔
      encryptedData = dataHash ++ data ∧ dataHash.length = hashSize ∧ data ≠ [] ∧
        encryptedData.length % 16 = 0 := by
  rw [unpack]
  constructor
  · intro h
    split_ifs at h with hsmall hblocks
    obtain ⟨rfl, rfl⟩ := Prod.mk.inj (Except.ok.inj h)
    refine ⟨(List.take_append_drop ..).symm, by rw [List.length_take]; omega, ?_,
      not_not.1 hblocks⟩
    apply List.ne_nil_of_length_pos
    rw [List.length_drop]
    omega
  · rintro ⟨rfl, rfl, hne, hblocks⟩
    have hpos := List.length_pos_iff.2 hne
    rw [if_neg (by rw [List.length_append]; omega), if_neg (not_not.2 hblocks), List.take_left,
      List.drop_left]

theorem checked_eq_ok_iff {hash : List UInt8 → List UInt8} {minPadding : Nat}
    (hpos : 0 < minPadding) {dataHash decryptedData data : List UInt8}
    (hblocks : decryptedData.length % 16 = 0) :
    checked hash minPadding dataHash decryptedData = .ok data ↔
      dataHash = hash decryptedData ∧ ∃ pre, decryptedData = pre ++ data ∧
        IsPrefix minPadding pre data := by
  rw [checked]
  constructor
  · intro h
    split_ifs at h with hhash
    dsimp only at h
    split_ifs at h with hsize
    refine ⟨not_not.1 hhash, decryptedData.take (decryptedData.headD 0).toNat, ?_, ?_⟩
    · rw [← Except.ok.inj h, List.take_append_drop]
    · rw [not_or, Nat.not_lt, Nat.not_lt] at hsize
      have hlt := (decryptedData.headD 0).toNat_lt
      have hlen : (decryptedData.take (decryptedData.headD 0).toNat).length =
          (decryptedData.headD 0).toNat := by
        rw [List.length_take]
        omega
      refine ⟨by omega, by omega, ?_, ?_⟩
      · rw [hlen, UInt8.ofNat_toNat]
        cases decryptedData with
        | nil => simp at hsize; omega
        | cons b bs =>
          -- the size is at least that of the padding, so the prefix keeps its first byte
          obtain ⟨n, hn⟩ := Nat.exists_eq_succ_of_ne_zero (show b.toNat ≠ 0 by
            simp only [List.headD_cons] at hsize
            omega)
          simp only [List.headD_cons, hn, List.take_succ_cons, List.head?_cons]
      · rw [← Except.ok.inj h, List.take_append_drop]
        exact hblocks
  · rintro ⟨hhash, pre, rfl, hpre⟩
    obtain ⟨b, bs, rfl⟩ := List.exists_cons_of_ne_nil (List.ne_nil_of_length_pos
      (hpos.trans_le hpre.le_length))
    have hb := congrArg UInt8.toNat (Option.some.inj hpre.head)
    rw [UInt8.toNat_ofNat', Nat.mod_eq_of_lt hpre.length_lt] at hb
    have hle := hpre.le_length
    rw [if_neg (not_not.2 hhash), List.cons_append, List.headD_cons, hb, if_neg, ← List.cons_append,
      List.drop_left]
    rw [← List.cons_append, List.length_append]
    omega

/-! ## The encryption with a secret -/

section
variable (P : Primitives)

/-- The key and the initial vector are the first bytes of the hash. -/
def aesCbcEncrypt (hash data : List UInt8) : List UInt8 :=
  P.aes_cbc_encrypt (hash.take 32) ((hash.drop 32).take 16) data

def aesCbcDecrypt (hash data : List UInt8) : List UInt8 :=
  P.aes_cbc_decrypt (hash.take 32) ((hash.drop 32).take 16) data

def combineSecrets (a b : List UInt8) : List UInt8 := (P.hmac_sha512 a b).toList

def kdf (secret password : List UInt8) (iterations : Nat) : List UInt8 :=
  (P.pbkdf2_sha512 secret password iterations).toList

/-- The data are whole blocks, which is checked. -/
def encryptDataWithPrefix (data secret : List UInt8) : List UInt8 :=
  let dataHash := (P.sha256 data).toList
  dataHash ++ aesCbcEncrypt P (combineSecrets P dataHash secret) data

def encryptData (random : (n : Nat) → Vector UInt8 n) (data secret : List UInt8) : List UInt8 :=
  encryptDataWithPrefix P (genRandomPrefix random data.length 32 ++ data) secret

def decryptData (encryptedData secret : List UInt8) : Except String (List UInt8) := do
  let (dataHash, data) ← unpack 32 encryptedData
  checked (fun data => (P.sha256 data).toList) 32 dataHash
    (aesCbcDecrypt P (combineSecrets P dataHash secret) data)

namespace V2

def encryptDataWithPrefix (data secret salt : List UInt8) : List UInt8 :=
  let msgKey := (combineSecrets P salt data).take 16
  msgKey ++ aesCbcEncrypt P (combineSecrets P secret msgKey) data

def encryptData (random : (n : Nat) → Vector UInt8 n) (data secret salt : List UInt8) :
    List UInt8 :=
  encryptDataWithPrefix P (genRandomPrefix random data.length 16 ++ data) secret salt

/-- The proof is what the key and the initial vector are taken from. -/
structure Decrypted where
  proof : List UInt8
  data : List UInt8
  deriving DecidableEq

def doDecrypt (cbcStateSecret msgKey encryptedData salt : List UInt8) :
    Except String (List UInt8) :=
  checked (fun data => (combineSecrets P salt data).take 16) 16 msgKey
    (aesCbcDecrypt P cbcStateSecret encryptedData)

def decryptData (encryptedData secret salt : List UInt8) : Except String Decrypted := do
  let (msgKey, data) ← unpack 16 encryptedData
  let cbcStateSecret := (combineSecrets P secret msgKey).take 48
  return ⟨cbcStateSecret, ← doDecrypt P cbcStateSecret msgKey data salt⟩

def decryptDataWithProof (encryptedData proof salt : List UInt8) : Except String (List UInt8) :=
  if encryptedData.length < 32 then .error "Failed to decrypte: data is too small"
  else if proof.length ≠ 48 then .error "Invalid proof size"
  else do
    let (msgKey, data) ← unpack 16 (encryptedData.drop 32)
    doDecrypt P proof msgKey data salt

end V2

end

section
variable {P : Primitives}

theorem length_combineSecrets (a b : List UInt8) : (combineSecrets P a b).length = 64 :=
  Vector.length_toList

/-- The key and the initial vector do not reach behind 48 bytes. -/
theorem aesCbcDecrypt_take (hash data : List UInt8) :
    aesCbcDecrypt P (hash.take 48) data = aesCbcDecrypt P hash data := by
  rw [aesCbcDecrypt, aesCbcDecrypt, List.take_take, List.drop_take, List.take_take]
  rfl

/-- What is unpacked and passes the check is the hash of some blocks, and these encrypted. -/
theorem unpack_checked_iff (hP : P.Lawful) {hash : List UInt8 → List UInt8}
    {hashSize minPadding : Nat} (hlen : ∀ data, (hash data).length = hashSize)
    (hsize : hashSize % 16 = 0) (hpos : 0 < minPadding) (state : List UInt8 → List UInt8)
    {encryptedData dataHash body data : List UInt8} :
    (unpack hashSize encryptedData = .ok (dataHash, body) ∧
      checked hash minPadding dataHash (aesCbcDecrypt P (state dataHash) body) = .ok data) ↔
    ∃ pre, IsPrefix minPadding pre data ∧ dataHash = hash (pre ++ data) ∧
      body = aesCbcEncrypt P (state dataHash) (pre ++ data) ∧
      encryptedData = dataHash ++ body := by
  constructor
  · rintro ⟨hunpack, hchecked⟩
    obtain ⟨rfl, hhash, -, hblocks⟩ := unpack_eq_ok_iff.1 hunpack
    have hbody : body.length % 16 = 0 := by
      rw [List.length_append] at hblocks
      omega
    have hdecrypted : (aesCbcDecrypt P (state dataHash) body).length % 16 = 0 := by
      rw [aesCbcDecrypt, hP.length_decrypt _ _ _ hbody]
      exact hbody
    obtain ⟨heq, pre, hdata, hpre⟩ := (checked_eq_ok_iff hpos hdecrypted).1 hchecked
    refine ⟨pre, hpre, hdata ▸ heq, ?_, rfl⟩
    rw [← hdata, aesCbcEncrypt, aesCbcDecrypt, hP.encrypt_decrypt _ _ _ hbody]
  · rintro ⟨pre, hpre, hhash, hbody, rfl⟩
    have hlength : body.length = (pre ++ data).length := by
      rw [hbody, aesCbcEncrypt, hP.length_encrypt _ _ _ hpre.blocks]
    have hdecrypted : aesCbcDecrypt P (state dataHash) body = pre ++ data := by
      rw [hbody, aesCbcDecrypt, aesCbcEncrypt, hP.decrypt_encrypt _ _ _ hpre.blocks]
    have hle := hpre.le_length
    have hdataHash : dataHash.length = hashSize := by
      rw [hhash]
      exact hlen _
    have hblocks := hpre.blocks
    constructor
    · apply unpack_eq_ok_iff.2
      refine ⟨rfl, hdataHash, ?_, ?_⟩
      · apply List.ne_nil_of_length_pos
        rw [hlength, List.length_append]
        omega
      · rw [List.length_append, hlength, hdataHash]
        omega
    · rw [hdecrypted]
      exact (checked_eq_ok_iff hpos hpre.blocks).2 ⟨hhash, pre, rfl, hpre⟩

theorem length_sha256 (data : List UInt8) : (P.sha256 data).toList.length = 32 :=
  Vector.length_toList

theorem decryptData_of_isPrefix (hP : P.Lawful) {pre data : List UInt8}
    (hpre : IsPrefix 32 pre data) (secret : List UInt8) :
    decryptData P (encryptDataWithPrefix P (pre ++ data) secret) secret = .ok data := by
  obtain ⟨hunpack, hchecked⟩ := (unpack_checked_iff hP length_sha256 (by decide) (by decide)
    (combineSecrets P · secret)).2 ⟨pre, hpre, rfl, rfl, rfl⟩
  exact Ton.bind_ok_iff.2 ⟨_, hunpack, hchecked⟩

/-- What decrypts is what was encrypted behind some prefix. -/
theorem decrypts_iff (hP : P.Lawful) {encryptedData secret data : List UInt8} :
    decryptData P encryptedData secret = .ok data ↔
      ∃ pre, IsPrefix 32 pre data ∧
        encryptedData = encryptDataWithPrefix P (pre ++ data) secret := by
  constructor
  · intro h
    obtain ⟨⟨dataHash, body⟩, hunpack, hchecked⟩ := Ton.bind_ok_iff.1 h
    obtain ⟨pre, hpre, rfl, rfl, rfl⟩ := (unpack_checked_iff hP length_sha256 (by decide)
      (by decide) (combineSecrets P · secret)).1 ⟨hunpack, hchecked⟩
    exact ⟨pre, hpre, rfl⟩
  · rintro ⟨pre, hpre, rfl⟩
    exact decryptData_of_isPrefix hP hpre secret

theorem decryptData_encryptData (hP : P.Lawful) (random : (n : Nat) → Vector UInt8 n)
    (data secret : List UInt8) :
    decryptData P (encryptData P random data secret) secret = .ok data :=
  decryptData_of_isPrefix hP (isPrefix_genRandomPrefix random data (by decide) (by decide)) secret

namespace V2

theorem length_msgKey (salt data : List UInt8) :
    ((combineSecrets P salt data).take 16).length = 16 := by
  rw [List.length_take, length_combineSecrets]
  rfl

theorem decryptData_of_isPrefix (hP : P.Lawful) {pre data : List UInt8}
    (hpre : IsPrefix 16 pre data) (secret salt : List UInt8) :
    decryptData P (encryptDataWithPrefix P (pre ++ data) secret salt) secret salt =
      .ok ⟨(combineSecrets P secret ((combineSecrets P salt (pre ++ data)).take 16)).take 48,
        data⟩ := by
  obtain ⟨hunpack, hchecked⟩ := (unpack_checked_iff hP (length_msgKey salt) (by decide)
    (by decide) (combineSecrets P secret ·)).2 ⟨pre, hpre, rfl, rfl, rfl⟩
  rw [← aesCbcDecrypt_take] at hchecked
  exact Ton.bind_ok_iff.2 ⟨_, hunpack, Ton.bind_ok_iff.2 ⟨_, hchecked, rfl⟩⟩

/-- What decrypts is what was encrypted behind some prefix, and the proof is that of its hash. -/
theorem opens_iff (hP : P.Lawful) {encryptedData secret salt proof data : List UInt8} :
    decryptData P encryptedData secret salt = .ok ⟨proof, data⟩ ↔
      ∃ pre, IsPrefix 16 pre data ∧
        encryptedData = encryptDataWithPrefix P (pre ++ data) secret salt ∧
        proof = (combineSecrets P secret (encryptedData.take 16)).take 48 := by
  have htake (pre : List UInt8) : (encryptDataWithPrefix P (pre ++ data) secret salt).take 16 =
      (combineSecrets P salt (pre ++ data)).take 16 :=
    List.take_left' (length_msgKey salt _)
  constructor
  · intro h
    obtain ⟨⟨msgKey, body⟩, hunpack, hchecked⟩ := Ton.bind_ok_iff.1 h
    obtain ⟨data', hdata, hd⟩ := Ton.bind_ok_iff.1 hchecked
    obtain ⟨rfl, rfl⟩ := Decrypted.mk.inj (Except.ok.inj hd)
    rw [doDecrypt, aesCbcDecrypt_take] at hdata
    obtain ⟨pre, hpre, rfl, rfl, rfl⟩ := (unpack_checked_iff hP (length_msgKey salt) (by decide)
      (by decide) (combineSecrets P secret ·)).1 ⟨hunpack, hdata⟩
    refine ⟨pre, hpre, rfl, ?_⟩
    rw [List.take_left' (length_msgKey salt _)]
  · rintro ⟨pre, hpre, rfl, rfl⟩
    rw [htake]
    exact decryptData_of_isPrefix hP hpre secret salt

theorem decryptData_encryptData (hP : P.Lawful) (random : (n : Nat) → Vector UInt8 n)
    (data secret salt : List UInt8) :
    ∃ proof, decryptData P (encryptData P random data secret salt) secret salt =
      .ok ⟨proof, data⟩ :=
  ⟨_, decryptData_of_isPrefix hP (isPrefix_genRandomPrefix random data (by decide) (by decide))
    secret salt⟩

/-- The proof opens what it is the proof of. -/
theorem decryptDataWithProof_of_decryptData {front encryptedData secret salt : List UInt8}
    (hfront : front.length = 32) {d : Decrypted}
    (h : decryptData P encryptedData secret salt = .ok d) :
    decryptDataWithProof P (front ++ encryptedData) d.proof salt = .ok d.data := by
  obtain ⟨⟨msgKey, body⟩, hunpack, hchecked⟩ := Ton.bind_ok_iff.1 h
  obtain ⟨data, hdata, hd⟩ := Ton.bind_ok_iff.1 hchecked
  obtain rfl := Except.ok.inj hd
  have hproof : ((combineSecrets P secret msgKey).take 48).length = 48 := by
    rw [List.length_take, length_combineSecrets]
    rfl
  rw [decryptDataWithProof, if_neg (by rw [List.length_append]; omega),
    if_neg (not_not.2 hproof), List.drop_left' hfront, hunpack]
  exact hdata

end V2

end

/-! ## The encryption for a public key -/

/-- Ed25519 with its shared secrets. The keys are 32 bytes. -/
structure Ed25519 where
  get_public_key : (private_key : Vector UInt8 32) → Except String (Vector UInt8 32)
  compute_shared_secret : (public_key private_key : Vector UInt8 32) →
    Except String (Vector UInt8 32)

/-- Two key pairs have a shared secret, and it is the same from both sides. -/
structure Ed25519.Lawful (E : Ed25519) : Prop where
  shared_symm : ∀ {a b A B}, E.get_public_key a = .ok A → E.get_public_key b = .ok B →
    ∃ secret, E.compute_shared_secret B a = .ok secret ∧ E.compute_shared_secret A b = .ok secret

def secureXor (a b : Vector UInt8 32) : Vector UInt8 32 := Vector.zipWith (· ^^^ ·) a b

theorem secureXor_secureXor (a b : Vector UInt8 32) : secureXor (secureXor a b) a = b := by
  apply Vector.ext
  intro i hi
  simp only [secureXor, Vector.getElem_zipWith]
  rw [UInt8.xor_comm, ← UInt8.xor_assoc, UInt8.xor_self, UInt8.zero_xor]

theorem secureXor_comm (a b : Vector UInt8 32) : secureXor a b = secureXor b a := by
  apply Vector.ext
  intro i hi
  simp only [secureXor, Vector.getElem_zipWith]
  exact UInt8.xor_comm _ _

theorem secureXor_self (a : Vector UInt8 32) : secureXor a a = Vector.replicate 32 0 := by
  apply Vector.ext
  intro i hi
  simp only [secureXor, Vector.getElem_zipWith, Vector.getElem_replicate, UInt8.xor_self]

namespace V2
section
variable (P : Primitives) (E : Ed25519)

/-- `private_key` is the sender's: a fresh one, or that of its wallet. -/
def encryptFor (random : (n : Nat) → Vector UInt8 n) (data : List UInt8)
    (public_key private_key : Vector UInt8 32) (salt : List UInt8) :
    Except String (List UInt8) := do
  let sharedSecret ← E.compute_shared_secret public_key private_key
  let encrypted := encryptData P random data sharedSecret.toList salt
  let tmpPublicKey ← E.get_public_key private_key
  return (secureXor public_key tmpPublicKey).toList ++ encrypted

/-- The key of the other party, from the first bytes and the own public key. -/
def otherKey (data : List UInt8) (public_key : Vector UInt8 32) (h : ¬ data.length < 32) :
    Vector UInt8 32 :=
  secureXor ⟨(data.take 32).toArray, by simp; omega⟩ public_key

def decryptFor (data : List UInt8) (public_key private_key : Vector UInt8 32)
    (salt : List UInt8) : Except String Decrypted :=
  if h : data.length < 32 then .error "Failed to decrypte: data is too small"
  else do
    let sharedSecret ← E.compute_shared_secret (otherKey data public_key h) private_key
    decryptData P (data.drop 32) sharedSecret.toList salt

/-- The same with the private key only. -/
def decryptWith (data : List UInt8) (private_key : Vector UInt8 32) (salt : List UInt8) :
    Except String Decrypted :=
  if data.length < 32 then .error "Failed to decrypte: data is too small"
  else do decryptFor P E data (← E.get_public_key private_key) private_key salt

end

section
variable {P : Primitives} {E : Ed25519}

theorem otherKey_append (key public_key : Vector UInt8 32) (encrypted : List UInt8)
    (h : ¬ (key.toList ++ encrypted).length < 32) :
    otherKey (key.toList ++ encrypted) public_key h = secureXor key public_key := by
  rw [otherKey]
  congr 1
  apply Vector.toList_inj.1
  show (key.toList ++ encrypted).take 32 = key.toList
  exact List.take_left' key.length_toList

/-- A party with a shared secret decrypts what begins with both public keys. -/
theorem decryptFor_append {key public_key private_key sharedSecret : Vector UInt8 32}
    (hshared : E.compute_shared_secret (secureXor key public_key) private_key = .ok sharedSecret)
    (encrypted salt : List UInt8) :
    decryptFor P E (key.toList ++ encrypted) public_key private_key salt =
      decryptData P encrypted sharedSecret.toList salt := by
  have hlen : ¬ (key.toList ++ encrypted).length < 32 := by
    rw [List.length_append, Vector.length_toList]
    omega
  rw [decryptFor, dif_neg hlen, otherKey_append, hshared, List.drop_left' key.length_toList]
  rfl

theorem encryptFor_eq {A a B sharedSecret : Vector UInt8 32} (ha : E.get_public_key a = .ok A)
    (hshared : E.compute_shared_secret B a = .ok sharedSecret)
    (random : (n : Nat) → Vector UInt8 n) (data salt : List UInt8) :
    encryptFor P E random data B a salt =
      .ok ((secureXor B A).toList ++ encryptData P random data sharedSecret.toList salt) := by
  rw [encryptFor, hshared, Ton.ok_bind, ha]
  rfl

/-- A message decrypts for both parties, each with its own key pair, and for who has the proof. -/
theorem parties_decrypt (hP : P.Lawful) (hE : E.Lawful) (random : (n : Nat) → Vector UInt8 n)
    (data salt : List UInt8) {a b A B : Vector UInt8 32} (ha : E.get_public_key a = .ok A)
    (hb : E.get_public_key b = .ok B) :
    ∃ encrypted proof, encryptFor P E random data B a salt = .ok encrypted ∧
      decryptWith P E encrypted b salt = .ok ⟨proof, data⟩ ∧
      decryptFor P E encrypted B b salt = .ok ⟨proof, data⟩ ∧
      decryptFor P E encrypted A a salt = .ok ⟨proof, data⟩ ∧
      decryptDataWithProof P encrypted proof salt = .ok data := by
  obtain ⟨secret, hsender, hreceiver⟩ := hE.shared_symm ha hb
  obtain ⟨proof, hdecrypt⟩ := decryptData_encryptData hP random data secret.toList salt
  -- each party finds the public key of the other behind its own
  have htoReceiver : secureXor (secureXor B A) B = A := secureXor_secureXor B A
  have htoSender : secureXor (secureXor B A) A = B := by
    rw [secureXor_comm B A, secureXor_secureXor]
  have hreceived : decryptFor P E ((secureXor B A).toList ++
      encryptData P random data secret.toList salt) B b salt = .ok ⟨proof, data⟩ := by
    rw [decryptFor_append (by rw [htoReceiver]; exact hreceiver), hdecrypt]
  refine ⟨(secureXor B A).toList ++ encryptData P random data secret.toList salt, proof,
    ?_, ?_, hreceived, ?_, ?_⟩
  · exact encryptFor_eq ha hsender random data salt
  · have hlen : ¬ ((secureXor B A).toList ++
        encryptData P random data secret.toList salt).length < 32 := by
      rw [List.length_append, Vector.length_toList]
      omega
    rw [decryptWith, if_neg hlen, hb]
    exact hreceived
  · rw [decryptFor_append (by rw [htoSender]; exact hsender), hdecrypt]
  · exact decryptDataWithProof_of_decryptData (secureXor B A).length_toList hdecrypt

end

end V2

/-! ## Two parties

    The private keys of the parties are 32 ones and 32 twos. The primitives have the values of the
    real ones that come up when one encrypts the bytes 1, 2, 3 for the other behind a prefix of
    zeros. -/

namespace TwoParties

def privateKey : Vector UInt8 32 := Vector.replicate 32 1

def privateKey' : Vector UInt8 32 := Vector.replicate 32 2

def publicKey : Vector UInt8 32 := #v[
    0x8a, 0x88, 0xe3, 0xdd, 0x74, 0x09, 0xf1, 0x95, 0xfd, 0x52, 0xdb, 0x2d, 0x3c, 0xba, 0x5d, 0x72,
    0xca, 0x67, 0x09, 0xbf, 0x1d, 0x94, 0x12, 0x1b, 0xf3, 0x74, 0x88, 0x01, 0xb4, 0x0f, 0x6f, 0x5c]

def publicKey' : Vector UInt8 32 := #v[
    0x81, 0x39, 0x77, 0x0e, 0xa8, 0x7d, 0x17, 0x5f, 0x56, 0xa3, 0x54, 0x66, 0xc3, 0x4c, 0x7e, 0xcc,
    0xcb, 0x8d, 0x8a, 0x91, 0xb4, 0xee, 0x37, 0xa2, 0x5d, 0xf6, 0x0f, 0x5b, 0x8f, 0xc9, 0xb3, 0x94]

/-- The secret the parties share. -/
def sharedSecret : Vector UInt8 32 := #v[
    0x41, 0x81, 0xd7, 0x30, 0x25, 0x57, 0x34, 0x2b, 0xdb, 0x6d, 0x06, 0x1c, 0x4b, 0x1e, 0xeb, 0xea,
    0x82, 0x8e, 0xcb, 0x62, 0x5c, 0x33, 0x68, 0xb7, 0x11, 0x16, 0x80, 0x79, 0x33, 0x07, 0x22, 0x0b]

/-- What each shares with itself. -/
def ownSecret : Vector UInt8 32 := #v[
    0x41, 0x50, 0x98, 0x5b, 0xde, 0xbd, 0xc5, 0x8f, 0x3e, 0x3c, 0x59, 0xcc, 0x22, 0x74, 0x57, 0x0e,
    0xa8, 0x47, 0xa9, 0x81, 0x20, 0x89, 0xb8, 0x35, 0x59, 0x3a, 0xeb, 0x0f, 0x18, 0x29, 0xd6, 0x21]

def ownSecret' : Vector UInt8 32 := #v[
    0x36, 0x17, 0x15, 0xbc, 0x12, 0x78, 0xf0, 0x68, 0xc0, 0xf3, 0x23, 0x55, 0x41, 0x54, 0x54, 0xb8,
    0x56, 0x96, 0x2a, 0xa4, 0x9f, 0x27, 0x68, 0x01, 0x89, 0xd2, 0xb3, 0x8f, 0x3e, 0xb1, 0x43, 0x52]

def salt : List UInt8 := [4]

def data : List UInt8 := [1, 2, 3]

/-- The data behind its prefix, in the two encryptions. -/
def plain : List UInt8 := 45 :: List.replicate 44 0 ++ data

def plain' : List UInt8 := 29 :: List.replicate 28 0 ++ data

/-- SHA-256 of the first, and HMAC of it with the secret. -/
def hash : Vector UInt8 32 := #v[
    0xf7, 0xc7, 0x2c, 0x91, 0x1e, 0x9e, 0x2f, 0x55, 0x47, 0x7e, 0x91, 0x15, 0x1e, 0x8d, 0x7b, 0x75,
    0x78, 0xd8, 0x31, 0x2a, 0xe7, 0xbc, 0x46, 0x1e, 0xc0, 0xb7, 0xe0, 0x3d, 0x6b, 0xcb, 0x5b, 0xc6]

def state : Vector UInt8 64 := #v[
    0xf6, 0x92, 0x41, 0xc6, 0x1d, 0x1f, 0x37, 0x9d, 0x78, 0x88, 0x2e, 0x5c, 0x01, 0x5a, 0x22, 0x89,
    0x3b, 0x99, 0xfc, 0xa0, 0x01, 0xb1, 0x18, 0xb3, 0x1c, 0x13, 0x09, 0x51, 0x13, 0x0c, 0x47, 0x4b,
    0x35, 0x5b, 0x2e, 0xc5, 0x51, 0x5a, 0xb8, 0x44, 0xa2, 0x87, 0x1b, 0xbe, 0x2f, 0x34, 0xbf, 0xd2,
    0x90, 0x8e, 0x1e, 0xca, 0xf0, 0xf9, 0x79, 0xb3, 0x1e, 0xfd, 0xfa, 0xf2, 0x65, 0xdb, 0x55, 0xbf]

/-- HMAC of the salt with the second, and of the secret with the first bytes of that. -/
def hash' : Vector UInt8 64 := #v[
    0x6d, 0xec, 0x3f, 0x15, 0xc3, 0xc4, 0x2f, 0x67, 0x5a, 0x6e, 0x5d, 0xfa, 0x3d, 0x8b, 0x7c, 0xfd,
    0xea, 0xe4, 0x4b, 0x22, 0x93, 0x78, 0xf6, 0x4f, 0x86, 0x1a, 0xb3, 0x20, 0x5c, 0xc0, 0x82, 0x7d,
    0xf5, 0x10, 0x98, 0xf2, 0x89, 0x55, 0x00, 0x59, 0xf3, 0x4a, 0xfa, 0xa7, 0x36, 0xc7, 0x92, 0xb6,
    0x0a, 0x69, 0x1f, 0x4b, 0xf0, 0x26, 0x3f, 0xc9, 0x03, 0x37, 0xf3, 0x44, 0x3d, 0xc4, 0x8e, 0xcc]

def state' : Vector UInt8 64 := #v[
    0x88, 0x54, 0x3c, 0xbb, 0x30, 0x02, 0x21, 0xac, 0xc2, 0x78, 0xb7, 0x47, 0x78, 0xb2, 0x50, 0x41,
    0xe7, 0xec, 0x7f, 0xc1, 0x2a, 0xd5, 0x47, 0x48, 0x40, 0xd5, 0x88, 0x9b, 0xac, 0x71, 0x7b, 0xfb,
    0x7e, 0xb4, 0xea, 0xd3, 0x61, 0x0b, 0x25, 0x3d, 0xc1, 0xed, 0xce, 0x94, 0xa7, 0xf5, 0x51, 0x50,
    0x8e, 0xe0, 0xb3, 0xbf, 0xf3, 0x8c, 0xb9, 0x4a, 0x53, 0x1d, 0xcf, 0x40, 0x20, 0xf9, 0x43, 0x12]

def encrypted : List UInt8 := [
    0x85, 0x5d, 0x8b, 0x49, 0x47, 0x75, 0x27, 0x7a, 0xb5, 0xfa, 0x6f, 0xc2, 0xa1, 0x79, 0xe8, 0x70,
    0xbd, 0x0b, 0x90, 0x63, 0x1b, 0x39, 0xeb, 0xae, 0x89, 0x67, 0xaf, 0x22, 0x02, 0xa0, 0xee, 0x0c,
    0x96, 0x51, 0xb0, 0x98, 0xa8, 0x14, 0x07, 0x6d, 0x18, 0x6a, 0x84, 0xf6, 0x2c, 0xd3, 0xcd, 0x04]

def encrypted' : List UInt8 := [
    0xb5, 0xf1, 0x55, 0x9a, 0xb3, 0x14, 0x2a, 0x09, 0xb4, 0x64, 0x2f, 0xe6, 0x26, 0xec, 0x43, 0x6f,
    0x7e, 0x46, 0xa8, 0xdb, 0xcb, 0x89, 0x4f, 0xc8, 0x6c, 0x5b, 0x54, 0x42, 0x5e, 0x86, 0xfc, 0xc4]

def perm : Equiv.Perm (List UInt8) :=
  (Equiv.swap plain encrypted).trans (Equiv.swap plain' encrypted')

theorem length_swap {x y : List UInt8} (h : x.length = y.length) (z : List UInt8) :
    (Equiv.swap x y z).length = z.length := by
  rw [Equiv.swap_apply_def]
  split_ifs with hx hy
  · rw [hx, h]
  · rw [hy, h]
  · rfl

theorem length_perm (z : List UInt8) : (perm z).length = z.length := by
  rw [perm, Equiv.trans_apply, length_swap (by decide), length_swap (by decide)]

def zeros (n : Nat) : Vector UInt8 n := Vector.replicate n 0

def primitives : Primitives where
  sha256 data := if data = plain then hash else zeros 32
  hmac_sha512 key message :=
    if key = hash.toList ∧ message = sharedSecret.toList then state
    else if key = salt ∧ message = plain' then hash'
    else if key = sharedSecret.toList ∧ message = hash'.toList.take 16 then state'
    else zeros 64
  pbkdf2_sha512 _ _ _ := zeros 64
  aes_cbc_encrypt _ _ data := perm data
  aes_cbc_decrypt _ _ data := perm.symm data

theorem primitives_lawful : primitives.Lawful where
  decrypt_encrypt _ _ data _ := perm.symm_apply_apply data
  encrypt_decrypt _ _ data _ := perm.apply_symm_apply data
  length_encrypt _ _ data _ := length_perm data
  length_decrypt _ _ data _ := by
    have h := length_perm (perm.symm data)
    rw [Equiv.apply_symm_apply] at h
    exact h.symm

def curve : Ed25519 where
  get_public_key key :=
    if key = privateKey then .ok publicKey
    else if key = privateKey' then .ok publicKey'
    else .error "Can't import private key"
  compute_shared_secret public_key private_key :=
    if public_key = publicKey ∧ private_key = privateKey then .ok ownSecret
    else if public_key = publicKey' ∧ private_key = privateKey' then .ok ownSecret'
    else .ok sharedSecret

theorem curve_lawful : curve.Lawful where
  shared_symm := by
    have hkeys {k K : Vector UInt8 32} (h : curve.get_public_key k = .ok K) :
        k = privateKey ∧ K = publicKey ∨ k = privateKey' ∧ K = publicKey' := by
      simp only [curve] at h
      split_ifs at h with hk hk'
      · exact .inl ⟨hk, (Except.ok.inj h).symm⟩
      · exact .inr ⟨hk', (Except.ok.inj h).symm⟩
    intro a b A B ha hb
    rcases hkeys ha with ⟨rfl, rfl⟩ | ⟨rfl, rfl⟩ <;> rcases hkeys hb with ⟨rfl, rfl⟩ | ⟨rfl, rfl⟩
    · exact ⟨ownSecret, rfl, rfl⟩
    · exact ⟨sharedSecret, rfl, rfl⟩
    · exact ⟨sharedSecret, rfl, rfl⟩
    · exact ⟨ownSecret', rfl, rfl⟩

end TwoParties

open TwoParties

theorem decrypts_iff_two_parties :
    decryptData primitives (hash.toList ++ encrypted) sharedSecret.toList = .ok data := by
  apply (decrypts_iff primitives_lawful).2
  exact ⟨45 :: List.replicate 44 0, ⟨by decide, by decide, by decide, by decide⟩, by decide +kernel⟩

theorem opens_iff_two_parties :
    V2.decryptData primitives (hash'.toList.take 16 ++ encrypted') sharedSecret.toList salt =
      .ok ⟨state'.toList.take 48, data⟩ := by
  apply (V2.opens_iff primitives_lawful).2
  exact ⟨29 :: List.replicate 28 0, ⟨by decide, by decide, by decide, by decide⟩,
    by decide +kernel, by decide +kernel⟩

theorem parties_decrypt_two_parties :
    ∃ encrypted proof,
      V2.encryptFor primitives curve zeros data publicKey' privateKey salt = .ok encrypted ∧
      V2.decryptWith primitives curve encrypted privateKey' salt = .ok ⟨proof, data⟩ ∧
      V2.decryptFor primitives curve encrypted publicKey' privateKey' salt = .ok ⟨proof, data⟩ ∧
      V2.decryptFor primitives curve encrypted publicKey privateKey salt = .ok ⟨proof, data⟩ ∧
      V2.decryptDataWithProof primitives encrypted proof salt = .ok data :=
  V2.parties_decrypt primitives_lawful curve_lawful zeros data salt rfl rfl

end Tonlib
