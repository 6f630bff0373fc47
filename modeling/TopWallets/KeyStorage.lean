import TopWallets.TlStrings
import TopWallets.SimpleEncryption

/- The storage of private keys: `EncryptedKey`, `DecryptedKey` and `KeyStorage`.

   A key is encrypted under a secret of 32 bytes and a password, and kept under the hash of
   the secret. A key found under its public key is moved, and a key of the deprecated
   encryption is encrypted again, when it is loaded. Main results: what is loaded has the
   public key that was asked for, from any storage (`loads_asked`); an exported key imports
   into any storage under any local password, words and all (`imports_exported`); and a
   saved key loads after any run of calls that spare its file (`saved_loads`).

   Correspondence (C++ ↔ Lean):
     `DecryptedKey::encrypt`         ↔ `DecryptedKey.encrypt`
     `EncryptedKey::decrypt`         ↔ `EncryptedKey.decrypt`
     `export_decrypted_key`          ↔ `exportDecryptedKey`, `findData`
     `save_key`                      ↔ `saveKey`
     `export_encrypted_key`          ↔ `exportEncryptedKey`
     `import_encrypted_key`          ↔ `importEncryptedKey`
     `change_local_password`         ↔ `changeLocalPassword`
     `delete_key`                    ↔ `deleteKey`
     `KeyValueInmemory`              ↔ `KeyValue`
   A failed check has no value. The hexadecimal names of files are their bytes. -/
namespace Tonlib

open Td (RawDecryptedKey)

/-! ## The encryption of a key -/

def Ed25519.publicKey (E : Ed25519) (octets : List UInt8) : Except String (List UInt8) :=
  if h : octets.length = 32 then
    (E.get_public_key ⟨octets.toArray, by simpa using h⟩).map Vector.toList
  else .error "Can't import private key"

structure EncryptedKey where
  encrypted_data : List UInt8
  public_key : List UInt8
  secret : List UInt8

section
variable (P : Primitives) (E : Ed25519)

def localKey : List UInt8 := "TON local key".toList.map fun c => UInt8.ofNat c.toNat

/-- The deprecated encryption mixes the secret with the hash of the password. -/
def encryptionSecret (secret localPassword : List UInt8) (old : Bool) : List UInt8 :=
  let decryptedSecret :=
    if old then List.zipWith (· ^^^ ·) secret (P.sha256 localPassword).toList
    else combineSecrets P secret localPassword
  kdf P decryptedSecret localKey 100000

/-- `fresh` is the secret where none of the right size is given. -/
def DecryptedKey.encrypt (random : (n : Nat) → Vector UInt8 n) (fresh : Vector UInt8 32)
    (key : RawDecryptedKey) (localPassword oldSecret : List UInt8) : Option EncryptedKey := do
  let secret := if oldSecret.length = 32 then oldSecret else fresh.toList
  let data ← Td.serializeSecure key
  let public_key ← (E.publicKey key.private_key).toOption
  return {
    encrypted_data := encryptData P random data (encryptionSecret P secret localPassword false)
    public_key, secret }

def EncryptedKey.decrypt (k : EncryptedKey) (localPassword : List UInt8)
    (checkPublicKey old : Bool) : Option (Except String RawDecryptedKey) :=
  if k.secret.length ≠ 32 then some (.error "Failed to decrypt key: invalid secret size")
  else
    match decryptData P k.encrypted_data (encryptionSecret P k.secret localPassword old) with
    | .error e => some (.error e)
    | .ok data => (Td.unserialize data).map fun
      | .error (e, pos) => .error (e ++ " at " ++ toString pos)
      | .ok key => do
        let gotPublicKey ← E.publicKey key.private_key
        if checkPublicKey ∧ gotPublicKey ≠ k.public_key then
          throw ("Something wrong: public key of decrypted private key differs from " ++
            "requested public key")
        return key

end

/-! ## The storage -/

structure Key where
  public_key : List UInt8
  secret : List UInt8

structure InputKey where
  key : Key
  local_password : List UInt8

/-- The files by their names. -/
abbrev KeyValue := List UInt8 → Option (List UInt8)

section
variable (P : Primitives) (E : Ed25519) (sha512 : List UInt8 → Vector UInt8 64)
variable (random : (n : Nat) → Vector UInt8 n) (fresh : Vector UInt8 32)

def toFileNameOld (key : Key) : List UInt8 := key.public_key

def toFileName (key : Key) : List UInt8 := (sha512 key.secret).toList.take 32

/-- The data of a key. Those under the deprecated name are moved. -/
def findData (kv : KeyValue) (key : Key) : Option (List UInt8) × KeyValue :=
  match kv (toFileName sha512 key) with
  | some data => (some data, kv)
  | none =>
    match kv (toFileNameOld key) with
    | some data =>
      let moved := Function.update kv (toFileName sha512 key) (some data)
      (some data, Function.update moved (toFileNameOld key) none)
    | none => (none, kv)

/-- The key that was encrypted again is checked against the key it was. -/
def reencrypt (kv : KeyValue) (input : InputKey) (key : RawDecryptedKey) :
    Option (Except String RawDecryptedKey × KeyValue) := do
  let new ← DecryptedKey.encrypt P E random fresh key input.local_password input.key.secret
  -- a failed check stops the program
  guard (new.public_key = input.key.public_key)
  guard (new.secret = input.key.secret)
  let .ok decrypted ← new.decrypt P E input.local_password true false | none
  guard (decrypted.private_key = key.private_key)
  return (.ok key, Function.update kv (toFileName sha512 input.key) (some new.encrypted_data))

/-- The deprecated encryption is tried first. -/
def exportDecryptedKey (kv : KeyValue) (input : InputKey) :
    Option (Except String RawDecryptedKey × KeyValue) :=
  match findData sha512 kv input.key with
  | (none, kv) => some (.error "KEY_UNKNOWNUnknown key", kv)
  | (some data, kv) => do
    let encryptedKey : EncryptedKey := ⟨data, input.key.public_key, input.key.secret⟩
    match ← encryptedKey.decrypt P E input.local_password true true with
    | .ok key => reencrypt P E sha512 random fresh kv input key
    | .error _ =>
      -- the error of the first attempt is dropped
      match ← encryptedKey.decrypt P E input.local_password true false with
      | .ok key => return (.ok key, kv)
      | .error e => return (.error ("KEY_DECRYPT" ++ e), kv)

def saveKey (kv : KeyValue) (key : RawDecryptedKey) (localPassword : List UInt8) :
    Option (Key × KeyValue) := do
  let encryptedKey ← DecryptedKey.encrypt P E random fresh key localPassword []
  let res : Key := ⟨encryptedKey.public_key, encryptedKey.secret⟩
  return (res, Function.update kv (toFileName sha512 res) (some encryptedKey.encrypted_data))

def dummySecret : List UInt8 :=
  "dummy secret of 32 bytes length!".toList.map fun c => UInt8.ofNat c.toNat

def exportEncryptedKey (kv : KeyValue) (input : InputKey) (keyPassword : List UInt8) :
    Option (Except String (List UInt8) × KeyValue) := do
  match ← exportDecryptedKey P E sha512 random fresh kv input with
  | (.ok key, kv) =>
    let res ← DecryptedKey.encrypt P E random fresh key keyPassword dummySecret
    return (.ok res.encrypted_data, kv)
  | (.error e, kv) => return (.error e, kv)

def importEncryptedKey (kv : KeyValue) (localPassword keyPassword exportedKey : List UInt8) :
    Option (Except String (Key × KeyValue)) := do
  -- no public key comes with the data, and none is checked
  let encryptedKey : EncryptedKey := ⟨exportedKey, [], dummySecret⟩
  match ← encryptedKey.decrypt P E keyPassword false false with
  | .ok key => return .ok (← saveKey P E sha512 random fresh kv key localPassword)
  | .error e => return .error ("KEY_DECRYPT" ++ e)

def changeLocalPassword (kv : KeyValue) (input : InputKey) (newLocalPassword : List UInt8) :
    Option (Except String Key × KeyValue) := do
  match ← exportDecryptedKey P E sha512 random fresh kv input with
  | (.ok key, kv) =>
    -- the file of the old secret stays
    let (res, kv) ← saveKey P E sha512 random fresh kv key newLocalPassword
    return (.ok res, kv)
  | (.error e, kv) => return (.error e, kv)

def deleteKey (kv : KeyValue) (key : Key) : KeyValue :=
  Function.update kv (toFileName sha512 key) none

end

/-! ## Runs -/

/-- What the random generator gives a call. -/
structure Drawn where
  random : (n : Nat) → Vector UInt8 n
  fresh : Vector UInt8 32

inductive Call where
  | save (key : RawDecryptedKey) (localPassword : List UInt8)
  | load (input : InputKey)
  | exportEncrypted (input : InputKey) (keyPassword : List UInt8)
  | importEncrypted (localPassword keyPassword exportedKey : List UInt8)
  | changeLocalPassword (input : InputKey) (newLocalPassword : List UInt8)
  | delete (key : Key)

section
variable (P : Primitives) (E : Ed25519) (sha512 : List UInt8 → Vector UInt8 64)

/-- The storage after a call. -/
def step (kv : KeyValue) (d : Drawn) : Call → Option KeyValue
  | .save key localPassword =>
    (saveKey P E sha512 d.random d.fresh kv key localPassword).map Prod.snd
  | .load input => (exportDecryptedKey P E sha512 d.random d.fresh kv input).map Prod.snd
  | .exportEncrypted input keyPassword =>
    (exportEncryptedKey P E sha512 d.random d.fresh kv input keyPassword).map Prod.snd
  | .importEncrypted localPassword keyPassword exportedKey =>
    (importEncryptedKey P E sha512 d.random d.fresh kv localPassword keyPassword exportedKey).map
      fun
      | .ok (_, kv') => kv'
      | .error _ => kv
  | .changeLocalPassword input newLocalPassword =>
    (changeLocalPassword P E sha512 d.random d.fresh kv input newLocalPassword).map Prod.snd
  | .delete key => some (deleteKey sha512 kv key)

def run (kv : KeyValue) (calls : List (Drawn × Call)) : Option KeyValue :=
  calls.foldlM (fun kv c => step P E sha512 kv c.1 c.2) kv

/-- The deprecated encryption does not open the data of a key under a password. -/
def Current (data : List UInt8) (key : Key) (localPassword : List UInt8) : Prop :=
  ∀ decrypted, (EncryptedKey.mk data key.public_key key.secret).decrypt P E
    localPassword true true ≠ some (.ok decrypted)

/-- A load of the key itself, or of one whose files have other names. -/
def SparesLoad (key : Key) (input : InputKey) : Prop :=
  input.key = key ∨ toFileName sha512 input.key ≠ toFileName sha512 key ∧
    toFileNameOld input.key ≠ toFileName sha512 key

/-- A call that loads the key itself under a password. -/
def LoadsUnder (key : Key) (localPassword : List UInt8) : Call → Prop
  | .load input | .exportEncrypted input _ | .changeLocalPassword input _ =>
    input = ⟨key, localPassword⟩
  | .save _ _ | .importEncrypted _ _ _ | .delete _ => False

def SparesSave (key : Key) (d : Drawn) : Prop :=
  toFileName sha512 ⟨[], d.fresh.toList⟩ ≠ toFileName sha512 key

/-- A call that does not save or delete under the name of the key. -/
def Spares (key : Key) (d : Drawn) : Call → Prop
  | .save _ _ | .importEncrypted _ _ _ => SparesSave sha512 key d
  | .load input | .exportEncrypted input _ => SparesLoad sha512 key input
  | .changeLocalPassword input _ => SparesLoad sha512 key input ∧ SparesSave sha512 key d
  | .delete key' => toFileName sha512 key' ≠ toFileName sha512 key

end

section
variable {P : Primitives} {E : Ed25519} {sha512 : List UInt8 → Vector UInt8 64}
variable {random : (n : Nat) → Vector UInt8 n} {fresh : Vector UInt8 32}

/-! ## What is encrypted is decrypted -/

theorem encrypt_eq_some_iff {key : RawDecryptedKey} {localPassword oldSecret : List UInt8}
    {k : EncryptedKey} :
    DecryptedKey.encrypt P E random fresh key localPassword oldSecret = some k ↔
      ∃ data, Td.serializeSecure key = some data ∧ E.publicKey key.private_key = .ok k.public_key ∧
        k.secret = (if oldSecret.length = 32 then oldSecret else fresh.toList) ∧
        k.encrypted_data =
          encryptData P random data (encryptionSecret P k.secret localPassword false) := by
  simp only [DecryptedKey.encrypt, Option.bind_eq_bind, Option.bind_eq_some_iff]
  constructor
  · rintro ⟨data, hdata, A, hA, hk⟩
    obtain rfl := Option.some.inj hk
    refine ⟨data, hdata, ?_, rfl, rfl⟩
    cases hkey : E.publicKey key.private_key with
    | error e =>
      rw [hkey] at hA
      cases hA
    | ok A' =>
      rw [hkey] at hA
      exact congrArg Except.ok (Option.some.inj hA)
  · rintro ⟨data, hdata, hA, hsecret, hencrypted⟩
    refine ⟨data, hdata, k.public_key, by rw [hA]; rfl, ?_⟩
    cases k
    simp only at hsecret hencrypted
    subst hsecret hencrypted
    rfl

theorem decrypt_eq_ok_iff {k : EncryptedKey} {localPassword : List UInt8}
    {checkPublicKey old : Bool} {key : RawDecryptedKey} :
    k.decrypt P E localPassword checkPublicKey old = some (.ok key) ↔
      k.secret.length = 32 ∧
      ∃ data, decryptData P k.encrypted_data (encryptionSecret P k.secret localPassword old) =
          .ok data ∧
        Td.unserialize data = some (.ok key) ∧
        ∃ A, E.publicKey key.private_key = .ok A ∧ (checkPublicKey → A = k.public_key) := by
  rw [EncryptedKey.decrypt]
  by_cases hsecret : k.secret.length = 32
  · rw [if_neg (not_not.2 hsecret)]
    cases hdata : decryptData P k.encrypted_data
        (encryptionSecret P k.secret localPassword old) with
    | error e => simp
    | ok data =>
      simp only [hsecret, true_and, Except.ok.injEq, exists_eq_left', Option.map_eq_some_iff]
      constructor
      · rintro ⟨r, hr, hkey⟩
        cases r with
        | error e => cases hkey
        | ok key' =>
          obtain ⟨A, hA, hcheck⟩ := Ton.bind_ok_iff.1 hkey
          split_ifs at hcheck with h
          · cases hcheck
          · obtain rfl := Except.ok.inj hcheck
            refine ⟨hr, A, hA, fun hon => ?_⟩
            by_contra hne
            exact h ⟨hon, hne⟩
      · rintro ⟨hr, A, hA, hcheck⟩
        refine ⟨_, hr, ?_⟩
        apply Ton.bind_ok_iff.2
        refine ⟨A, hA, ?_⟩
        rw [if_neg (fun h => h.2 (hcheck h.1))]
        rfl
  · simp [hsecret]

/-- The secret of an encrypted key has the right size. -/
theorem length_secret {key : RawDecryptedKey} {localPassword oldSecret : List UInt8}
    {k : EncryptedKey}
    (h : DecryptedKey.encrypt P E random fresh key localPassword oldSecret = some k) :
    k.secret.length = 32 := by
  obtain ⟨data, hdata, hA, hsecret, -⟩ := encrypt_eq_some_iff.1 h
  rw [hsecret]
  split_ifs with hold
  · exact hold
  · exact fresh.length_toList

/-- An encrypted key decrypts under its password, to the same words and the same private key. -/
theorem decrypt_encrypt (hP : P.Lawful) {key : RawDecryptedKey}
    {localPassword oldSecret public_key : List UInt8} {checkPublicKey : Bool} {k : EncryptedKey}
    (h : DecryptedKey.encrypt P E random fresh key localPassword oldSecret = some k)
    (hpublic : checkPublicKey → public_key = k.public_key) :
    ({ k with public_key } : EncryptedKey).decrypt P E localPassword checkPublicKey false =
      some (.ok key) := by
  apply decrypt_eq_ok_iff.2
  have hlength : k.secret.length = 32 := length_secret h
  refine ⟨hlength, ?_⟩
  obtain ⟨data, hdata, hA, -, hencrypted⟩ := encrypt_eq_some_iff.1 h
  rw [Td.serializeSecure_eq_store] at hdata
  refine ⟨data, ?_, Td.unserialize_of_store hdata, k.public_key, hA,
    fun hon => (hpublic hon).symm⟩
  show decryptData P k.encrypted_data _ = _
  rw [hencrypted]
  exact decryptData_encryptData hP random data _

/-! ## What is loaded -/

theorem publicKey_of_decrypt {k : EncryptedKey} {localPassword : List UInt8} {old : Bool}
    {key : RawDecryptedKey} (h : k.decrypt P E localPassword true old = some (.ok key)) :
    E.publicKey key.private_key = .ok k.public_key := by
  obtain ⟨-, data, -, -, A, hA, hcheck⟩ := decrypt_eq_ok_iff.1 h
  rw [hA, hcheck rfl]

theorem key_of_reencrypt {kv kv' : KeyValue} {input : InputKey} {key key' : RawDecryptedKey}
    (h : reencrypt P E sha512 random fresh kv input key = some (.ok key', kv')) : key' = key := by
  simp only [reencrypt, Option.bind_eq_bind, Option.bind_eq_some_iff] at h
  obtain ⟨new, -, -, -, -, -, r, -, h⟩ := h
  cases r with
  | error e => cases h
  | ok d =>
    obtain ⟨-, -, h⟩ := Option.bind_eq_some_iff.1 h
    exact (Except.ok.inj (Prod.mk.inj (Option.some.inj h)).1).symm

/-- What a load does: nothing is found, a key of the deprecated encryption is encrypted again,
or the key is decrypted as it is. -/
theorem export_cases {kv kv' : KeyValue} {input : InputKey} {r : Except String RawDecryptedKey}
    (h : exportDecryptedKey P E sha512 random fresh kv input = some (r, kv')) :
    ((∃ e, r = .error e) ∧ kv' = (findData sha512 kv input.key).2) ∨
    ∃ data, (findData sha512 kv input.key).1 = some data ∧
      ((∃ key, (EncryptedKey.mk data input.key.public_key input.key.secret).decrypt P E
            input.local_password true true = some (.ok key) ∧
          reencrypt P E sha512 random fresh (findData sha512 kv input.key).2 input key =
            some (r, kv')) ∨
        ∃ key, (EncryptedKey.mk data input.key.public_key input.key.secret).decrypt P E
            input.local_password true false = some (.ok key) ∧
          r = .ok key ∧ kv' = (findData sha512 kv input.key).2) := by
  rw [exportDecryptedKey] at h
  generalize findData sha512 kv input.key = found at h ⊢
  obtain ⟨found, moved⟩ := found
  cases found with
  | none =>
    obtain ⟨rfl, rfl⟩ := Prod.mk.inj (Option.some.inj h)
    exact .inl ⟨⟨_, rfl⟩, rfl⟩
  | some data =>
    obtain ⟨d, hd, h⟩ := Option.bind_eq_some_iff.1 h
    cases d with
    | ok key => exact .inr ⟨data, rfl, .inl ⟨key, hd, h⟩⟩
    | error e =>
      obtain ⟨d', hd', h⟩ := Option.bind_eq_some_iff.1 h
      cases d' with
      | error e' =>
        obtain ⟨rfl, rfl⟩ := Prod.mk.inj (Option.some.inj h)
        exact .inl ⟨⟨_, rfl⟩, rfl⟩
      | ok key =>
        obtain ⟨rfl, rfl⟩ := Prod.mk.inj (Option.some.inj h)
        exact .inr ⟨data, rfl, .inr ⟨key, hd', rfl, rfl⟩⟩

theorem publicKey_of_export {kv kv' : KeyValue} {input : InputKey} {key : RawDecryptedKey}
    (h : exportDecryptedKey P E sha512 random fresh kv input = some (.ok key, kv')) :
    E.publicKey key.private_key = .ok input.key.public_key := by
  obtain ⟨⟨e, he⟩, -⟩ | ⟨data, -, ⟨key', hkey, hnew⟩ | ⟨key', hkey, hr, -⟩⟩ := export_cases h
  · cases he
  · obtain rfl := key_of_reencrypt hnew
    exact publicKey_of_decrypt hkey
  · obtain rfl := Except.ok.inj hr
    exact publicKey_of_decrypt hkey

/-! ## Other files -/

theorem findData_of_eq_some {kv : KeyValue} {key : Key} {data : List UInt8}
    (h : kv (toFileName sha512 key) = some data) : findData sha512 kv key = (some data, kv) := by
  rw [findData, h]

theorem findData_frame {kv : KeyValue} {key : Key} {name : List UInt8}
    (hname : toFileName sha512 key ≠ name) (hold : toFileNameOld key ≠ name) :
    (findData sha512 kv key).2 name = kv name := by
  rw [findData]
  cases kv (toFileName sha512 key) with
  | some data => rfl
  | none =>
    cases kv (toFileNameOld key) with
    | none => rfl
    | some data =>
      show Function.update _ _ _ name = _
      rw [Function.update_of_ne hold.symm, Function.update_of_ne hname.symm]

theorem reencrypt_frame {kv kv' : KeyValue} {input : InputKey} {key : RawDecryptedKey}
    {r : Except String RawDecryptedKey} {name : List UInt8}
    (h : reencrypt P E sha512 random fresh kv input key = some (r, kv'))
    (hname : toFileName sha512 input.key ≠ name) : kv' name = kv name := by
  simp only [reencrypt, Option.bind_eq_bind, Option.bind_eq_some_iff] at h
  obtain ⟨new, -, -, -, -, -, d, -, h⟩ := h
  cases d with
  | error e => cases h
  | ok d =>
    obtain ⟨-, -, h⟩ := Option.bind_eq_some_iff.1 h
    rw [← (Prod.mk.inj (Option.some.inj h)).2, Function.update_of_ne hname.symm]

/-- A load writes no files but the two of its key. -/
theorem export_frame {kv kv' : KeyValue} {input : InputKey} {r : Except String RawDecryptedKey}
    {name : List UInt8}
    (h : exportDecryptedKey P E sha512 random fresh kv input = some (r, kv'))
    (hname : toFileName sha512 input.key ≠ name) (hold : toFileNameOld input.key ≠ name) :
    kv' name = kv name := by
  have hmoved : (findData sha512 kv input.key).2 name = kv name := findData_frame hname hold
  obtain ⟨-, rfl⟩ | ⟨data, -, ⟨key', -, hnew⟩ | ⟨key', -, -, rfl⟩⟩ := export_cases h
  · exact hmoved
  · exact (reencrypt_frame hnew hname).trans hmoved
  · exact hmoved

/-- What is loaded has the public key that was asked for, and no other file is written. -/
theorem loads_asked {kv kv' : KeyValue} {input : InputKey} {r : Except String RawDecryptedKey}
    (h : exportDecryptedKey P E sha512 random fresh kv input = some (r, kv')) :
    (∀ key, r = .ok key → E.publicKey key.private_key = .ok input.key.public_key) ∧
      ∀ name, name ≠ toFileName sha512 input.key → name ≠ toFileNameOld input.key →
        kv' name = kv name := by
  constructor
  · rintro key rfl
    exact publicKey_of_export h
  · intro name hname hold
    exact export_frame h hname.symm hold.symm

/-! ## Export and import -/

theorem length_dummySecret : dummySecret.length = 32 := rfl

/-- The key of an export is the key that was loaded, encrypted under the password of the export. -/
theorem exportEncryptedKey_eq_ok_iff {kv kv' : KeyValue} {input : InputKey}
    {keyPassword exported : List UInt8} :
    exportEncryptedKey P E sha512 random fresh kv input keyPassword = some (.ok exported, kv') ↔
      ∃ key k, exportDecryptedKey P E sha512 random fresh kv input = some (.ok key, kv') ∧
        DecryptedKey.encrypt P E random fresh key keyPassword dummySecret = some k ∧
        exported = k.encrypted_data := by
  simp only [exportEncryptedKey, Option.bind_eq_bind, Option.bind_eq_some_iff]
  constructor
  · rintro ⟨⟨r, kv₁⟩, hr, h⟩
    cases r with
    | error e => cases h
    | ok key =>
      obtain ⟨k, hk, h⟩ := Option.bind_eq_some_iff.1 h
      obtain ⟨hexported, rfl⟩ := Prod.mk.inj (Option.some.inj h)
      exact ⟨key, k, hr, hk, (Except.ok.inj hexported).symm⟩
  · rintro ⟨key, k, hr, hk, rfl⟩
    exact ⟨_, hr, Option.bind_eq_some_iff.2 ⟨k, hk, rfl⟩⟩

/-- The secret of a key does not enter what can be saved. -/
theorem exists_saveKey {key : RawDecryptedKey} {password oldSecret : List UInt8}
    {k : EncryptedKey} (h : DecryptedKey.encrypt P E random fresh key password oldSecret = some k)
    (sha512 : List UInt8 → Vector UInt8 64) (random' : (n : Nat) → Vector UInt8 n)
    (fresh' : Vector UInt8 32) (kv : KeyValue) (localPassword : List UInt8) :
    ∃ saved, DecryptedKey.encrypt P E random' fresh' key localPassword [] = some saved ∧
      saved.public_key = k.public_key ∧
      saveKey P E sha512 random' fresh' kv key localPassword =
        some (⟨saved.public_key, saved.secret⟩,
          Function.update kv (toFileName sha512 ⟨saved.public_key, saved.secret⟩)
            (some saved.encrypted_data)) := by
  obtain ⟨data, hdata, hA, -, -⟩ := encrypt_eq_some_iff.1 h
  have hsaved : DecryptedKey.encrypt P E random' fresh' key localPassword [] =
      some ⟨encryptData P random' data (encryptionSecret P fresh'.toList localPassword false),
        k.public_key, fresh'.toList⟩ :=
    encrypt_eq_some_iff.2 ⟨data, hdata, hA, rfl, rfl⟩
  refine ⟨_, hsaved, rfl, ?_⟩
  rw [saveKey, hsaved]
  rfl

/-- An exported key imports anywhere under any local password: the file it is saved in holds the
words and the private key that were loaded. -/
theorem imports_exported (hP : P.Lawful) {kv kv' : KeyValue} {input : InputKey}
    {keyPassword exported : List UInt8}
    (h : exportEncryptedKey P E sha512 random fresh kv input keyPassword = some (.ok exported, kv'))
    (random' : (n : Nat) → Vector UInt8 n) (fresh' : Vector UInt8 32) (store : KeyValue)
    (localPassword : List UInt8) :
    ∃ key saved data, exportDecryptedKey P E sha512 random fresh kv input = some (.ok key, kv') ∧
      importEncryptedKey P E sha512 random' fresh' store localPassword keyPassword exported =
        some (.ok (saved, Function.update store (toFileName sha512 saved) (some data))) ∧
      saved.public_key = input.key.public_key ∧
      (EncryptedKey.mk data saved.public_key saved.secret).decrypt P E localPassword true false =
        some (.ok key) := by
  obtain ⟨key, k, hkey, hk, rfl⟩ := exportEncryptedKey_eq_ok_iff.1 h
  obtain ⟨saved, hsaved, hpublic, hsave⟩ :=
    exists_saveKey hk sha512 random' fresh' store localPassword
  have hA : k.public_key = input.key.public_key := by
    obtain ⟨data, -, hA, -, -⟩ := encrypt_eq_some_iff.1 hk
    exact Except.ok.inj (hA.symm.trans (publicKey_of_export hkey))
  have hsecret : k.secret = dummySecret := by
    obtain ⟨data, -, -, hsecret, -⟩ := encrypt_eq_some_iff.1 hk
    rw [hsecret, if_pos length_dummySecret]
  -- every export is under the same secret, which the import knows
  have himported : (EncryptedKey.mk k.encrypted_data [] dummySecret).decrypt P E keyPassword
      false false = some (.ok key) := by
    rw [← hsecret]
    exact decrypt_encrypt hP hk (fun h => by cases h)
  refine ⟨key, ⟨saved.public_key, saved.secret⟩, saved.encrypted_data, hkey, ?_,
    hpublic.trans hA, decrypt_encrypt hP hsaved (fun _ => rfl)⟩
  rw [importEncryptedKey]
  simp only [himported, hsave, Option.bind_eq_bind, Option.bind_some]
  rfl

/-! ## Keys that are kept -/

theorem save_kept {key : Key} {data : List UInt8} {kv kv' : KeyValue} {d : Drawn}
    {saved : RawDecryptedKey} {localPassword : List UInt8} {res : Key}
    (hkv : kv (toFileName sha512 key) = some data) (hspares : SparesSave sha512 key d)
    (h : saveKey P E sha512 d.random d.fresh kv saved localPassword = some (res, kv')) :
    kv' (toFileName sha512 key) = some data := by
  obtain ⟨k, hk, h⟩ := Option.bind_eq_some_iff.1 h
  obtain ⟨-, rfl⟩ := Prod.mk.inj (Option.some.inj h)
  obtain ⟨-, -, -, hsecret, -⟩ := encrypt_eq_some_iff.1 hk
  have hname : toFileName sha512 key ≠ toFileName sha512 ⟨k.public_key, k.secret⟩ := by
    rw [hsecret]
    exact hspares.symm
  rw [Function.update_of_ne hname]
  exact hkv

theorem export_kept {key : Key} {data : List UInt8} {kv kv' : KeyValue} {input : InputKey}
    {r : Except String RawDecryptedKey}
    (hcurrent : input.key = key → Current P E data key input.local_password)
    (hkv : kv (toFileName sha512 key) = some data) (hspares : SparesLoad sha512 key input)
    (h : exportDecryptedKey P E sha512 random fresh kv input = some (r, kv')) :
    kv' (toFileName sha512 key) = some data := by
  obtain rfl | ⟨hname, hold⟩ := hspares
  · -- the load finds the file under its name, and has no reason to encrypt the key again
    have hfound := findData_of_eq_some hkv
    have hcases := export_cases h
    rw [hfound] at hcases
    obtain ⟨-, rfl⟩ | ⟨data', hdata, ⟨key', hkey, -⟩ | ⟨key', -, -, rfl⟩⟩ := hcases
    · exact hkv
    · obtain rfl := Option.some.inj hdata
      exact absurd hkey (hcurrent rfl _)
    · exact hkv
  · rw [export_frame h hname hold]
    exact hkv

theorem current_of_loads {key : Key} {data : List UInt8} {input : InputKey}
    (h : ∀ localPassword, input = ⟨key, localPassword⟩ → Current P E data key localPassword) :
    input.key = key → Current P E data key input.local_password := by
  rintro rfl
  exact h input.local_password rfl

/-- A call that spares the key keeps its file. -/
theorem step_kept {key : Key} {data : List UInt8} {kv kv' : KeyValue} {d : Drawn} {call : Call}
    (hcurrent : ∀ localPassword, LoadsUnder key localPassword call →
      Current P E data key localPassword)
    (hkv : kv (toFileName sha512 key) = some data) (hspares : Spares sha512 key d call)
    (h : step P E sha512 kv d call = some kv') : kv' (toFileName sha512 key) = some data := by
  cases call with
  | save saved localPassword =>
    obtain ⟨r, hr, rfl⟩ := Option.map_eq_some_iff.1 h
    exact save_kept hkv hspares hr
  | load input =>
    obtain ⟨r, hr, rfl⟩ := Option.map_eq_some_iff.1 h
    exact export_kept (current_of_loads hcurrent) hkv hspares hr
  | exportEncrypted input keyPassword =>
    obtain ⟨r, hr, rfl⟩ := Option.map_eq_some_iff.1 h
    obtain ⟨⟨loaded, kv₁⟩, hload, hr⟩ := Option.bind_eq_some_iff.1 hr
    have hkept := export_kept (current_of_loads hcurrent) hkv hspares hload
    cases loaded with
    | error e =>
      obtain rfl := Option.some.inj hr
      exact hkept
    | ok loaded =>
      obtain ⟨k, -, hr⟩ := Option.bind_eq_some_iff.1 hr
      obtain rfl := Option.some.inj hr
      exact hkept
  | importEncrypted localPassword keyPassword exportedKey =>
    obtain ⟨r, hr, rfl⟩ := Option.map_eq_some_iff.1 h
    obtain ⟨decrypted, -, hr⟩ := Option.bind_eq_some_iff.1 hr
    cases decrypted with
    | error e =>
      obtain rfl := Option.some.inj hr
      exact hkv
    | ok decrypted =>
      obtain ⟨saved, hsaved, hr⟩ := Option.bind_eq_some_iff.1 hr
      obtain rfl := Option.some.inj hr
      exact save_kept hkv hspares hsaved
  | changeLocalPassword input newLocalPassword =>
    obtain ⟨r, hr, rfl⟩ := Option.map_eq_some_iff.1 h
    obtain ⟨⟨loaded, kv₁⟩, hload, hr⟩ := Option.bind_eq_some_iff.1 hr
    have hkept := export_kept (current_of_loads hcurrent) hkv hspares.1 hload
    cases loaded with
    | error e =>
      obtain rfl := Option.some.inj hr
      exact hkept
    | ok loaded =>
      obtain ⟨saved, hsaved, hr⟩ := Option.bind_eq_some_iff.1 hr
      obtain rfl := Option.some.inj hr
      exact save_kept hkept hspares.2 hsaved
  | delete deleted =>
    obtain rfl := Option.some.inj h
    rw [deleteKey, Function.update_of_ne (Ne.symm hspares)]
    exact hkv

theorem run_kept {key : Key} {data : List UInt8} {kv kv' : KeyValue}
    {calls : List (Drawn × Call)}
    (hcurrent : ∀ localPassword, (∃ c ∈ calls, LoadsUnder key localPassword c.2) →
      Current P E data key localPassword)
    (hkv : kv (toFileName sha512 key) = some data)
    (hspares : ∀ c ∈ calls, Spares sha512 key c.1 c.2)
    (h : run P E sha512 kv calls = some kv') : kv' (toFileName sha512 key) = some data := by
  induction calls generalizing kv with
  | nil =>
    obtain rfl := Option.some.inj h
    exact hkv
  | cons c calls ih =>
    rw [run, List.foldlM_cons] at h
    obtain ⟨kv₁, hstep, h⟩ := Option.bind_eq_some_iff.1 h
    have hkept := step_kept (fun localPassword hload =>
      hcurrent localPassword ⟨c, List.mem_cons_self, hload⟩) hkv
      (hspares c List.mem_cons_self) hstep
    refine ih (fun localPassword hload => ?_) hkept
      (fun c hc => hspares c (List.mem_cons_of_mem _ hc)) h
    obtain ⟨c', hc', hload⟩ := hload
    exact hcurrent localPassword ⟨c', List.mem_cons_of_mem _ hc', hload⟩

theorem exists_decrypt (k : EncryptedKey) (localPassword : List UInt8)
    (checkPublicKey old : Bool) :
    ∃ r, k.decrypt P E localPassword checkPublicKey old = some r := by
  apply Option.isSome_iff_exists.1
  rw [EncryptedKey.decrypt]
  split_ifs
  · rfl
  · cases decryptData P k.encrypted_data (encryptionSecret P k.secret localPassword old) with
    | error e => rfl
    | ok data =>
      rw [Option.isSome_map]
      exact Td.isSome_unserialize data

/-- A load of a key that is not of the deprecated encryption changes nothing. -/
theorem export_of_current {kv : KeyValue} {input : InputKey} {data : List UInt8}
    {key : RawDecryptedKey} (hkv : kv (toFileName sha512 input.key) = some data)
    (hcurrent : Current P E data input.key input.local_password)
    (hkey : (EncryptedKey.mk data input.key.public_key input.key.secret).decrypt P E
      input.local_password true false = some (.ok key)) :
    exportDecryptedKey P E sha512 random fresh kv input = some (.ok key, kv) := by
  obtain ⟨r, hr⟩ := exists_decrypt (P := P) (E := E)
    ⟨data, input.key.public_key, input.key.secret⟩ input.local_password true true
  rw [exportDecryptedKey, findData_of_eq_some hkv]
  cases r with
  | ok decrypted => exact absurd hr (hcurrent _)
  | error e =>
    simp only [hr, hkey, Option.bind_eq_bind, Option.bind_some]
    rfl

/-- A key that was saved loads after any run of calls that spare it, and the load changes
nothing, where the deprecated encryption opens it under none of the passwords it is loaded
with. -/
theorem saved_loads (hP : P.Lawful) {kv kv₁ kv₂ : KeyValue} {saved : RawDecryptedKey}
    {localPassword : List UInt8} {key : Key} {calls : List (Drawn × Call)}
    (hsave : saveKey P E sha512 random fresh kv saved localPassword = some (key, kv₁))
    (hcurrent : ∀ data, kv₁ (toFileName sha512 key) = some data → ∀ password,
      password = localPassword ∨ (∃ c ∈ calls, LoadsUnder key password c.2) →
        Current P E data key password)
    (hspares : ∀ c ∈ calls, Spares sha512 key c.1 c.2)
    (hrun : run P E sha512 kv₁ calls = some kv₂) (d : Drawn) :
    exportDecryptedKey P E sha512 d.random d.fresh kv₂ ⟨key, localPassword⟩ =
      some (.ok saved, kv₂) := by
  obtain ⟨k, hk, h⟩ := Option.bind_eq_some_iff.1 hsave
  obtain ⟨rfl, rfl⟩ := Prod.mk.inj (Option.some.inj h)
  have hfirst : Function.update kv (toFileName sha512 ⟨k.public_key, k.secret⟩)
      (some k.encrypted_data) (toFileName sha512 ⟨k.public_key, k.secret⟩) =
        some k.encrypted_data := Function.update_self ..
  have hcur := hcurrent _ hfirst
  have hkept := run_kept (fun password hload => hcur password (.inr hload)) hfirst hspares hrun
  have hnew : k.decrypt P E localPassword true false = some (.ok saved) :=
    decrypt_encrypt hP hk (fun _ => rfl)
  exact export_of_current hkept (hcur localPassword (.inl rfl)) hnew

end

/-! ## One key

    A key of one word and of 32 ones is saved under the password `p`, exported under `e` and
    saved again under `q`; the secrets are 32 threes and 32 fours, and the prefixes are of zeros.
    The primitives have the values of the real ones that come up in this. -/

namespace OneKey
open TwoParties (privateKey publicKey curve zeros length_swap)

def password : List UInt8 := [112]

def newPassword : List UInt8 := [113]

def keyPassword : List UInt8 := [101]

def secret : Vector UInt8 32 := Vector.replicate 32 3

def newSecret : Vector UInt8 32 := Vector.replicate 32 4

def saved : RawDecryptedKey := ⟨[[119, 111, 114, 100]], privateKey.toList⟩

def data : List UInt8 :=
  [1, 0, 0, 0, 4, 119, 111, 114, 100, 0, 0, 0, 32] ++ privateKey.toList ++ [0, 0, 0]

/-- The data behind their prefix, and SHA-256 of that. -/
def plain : List UInt8 := 32 :: List.replicate 31 0 ++ data

def hash : Vector UInt8 32 := #v[
    0xaf, 0x82, 0xa8, 0x36, 0xaa, 0x6f, 0xa1, 0xb3, 0xed, 0xa2, 0x8f, 0x56, 0xc1, 0x02, 0x16, 0x23,
    0x59, 0xae, 0xb8, 0x4c, 0x9d, 0xcd, 0x11, 0xd1, 0xea, 0x43, 0xf7, 0xb5, 0xd6, 0x33, 0x4f, 0xd3]

/-- SHA-256 of the password. -/
def passwordHash : Vector UInt8 32 := #v[
    0x14, 0x8d, 0xe9, 0xc5, 0xa7, 0xa4, 0x4d, 0x19, 0xe5, 0x6c, 0xd9, 0xae, 0x1a, 0x55, 0x4b, 0xf6,
    0x78, 0x47, 0xaf, 0xb0, 0xc5, 0x8f, 0x6e, 0x12, 0xfa, 0x29, 0xac, 0x7d, 0xdf, 0xca, 0x99, 0x40]

/-- HMAC of a secret with its password. -/
def mixed : Vector UInt8 64 := #v[
    0xfb, 0xd4, 0x40, 0x3b, 0x4f, 0x6b, 0x48, 0x74, 0x79, 0x5a, 0xf7, 0x59, 0x4e, 0x00, 0x12, 0x61,
    0xb5, 0xf9, 0xea, 0x84, 0x44, 0xb4, 0xbb, 0x02, 0xc5, 0xa8, 0xa0, 0xc5, 0xb4, 0x6f, 0x4e, 0x73,
    0x9b, 0xca, 0x94, 0xbd, 0x4c, 0x6a, 0x3b, 0xe8, 0x64, 0xec, 0xe3, 0x5a, 0x35, 0xa5, 0x9d, 0x38,
    0xf1, 0x18, 0x5c, 0x88, 0x5c, 0xe3, 0x49, 0xd2, 0x1d, 0x72, 0x9c, 0x6a, 0xf8, 0xc4, 0x9a, 0x50]

def newMixed : Vector UInt8 64 := #v[
    0xc4, 0x4a, 0x93, 0xdd, 0x06, 0x0b, 0xc9, 0xa1, 0x09, 0xd1, 0xb6, 0x01, 0xe3, 0x6b, 0xc2, 0x73,
    0xe5, 0xc6, 0x9c, 0xb2, 0x05, 0x3f, 0x05, 0xb5, 0xc7, 0x89, 0x1c, 0xec, 0x72, 0x33, 0xe4, 0x04,
    0x20, 0x09, 0x04, 0x3d, 0xa5, 0x5b, 0x5e, 0xd5, 0xb9, 0x83, 0xe8, 0x5d, 0x83, 0x6d, 0x9e, 0x69,
    0xae, 0x4d, 0xa9, 0x6e, 0x76, 0x3d, 0xb4, 0x94, 0xfd, 0x0d, 0xa4, 0xd9, 0x85, 0x3a, 0x2c, 0x83]

def exportMixed : Vector UInt8 64 := #v[
    0x96, 0x66, 0x41, 0x5c, 0x2c, 0x52, 0xe4, 0x50, 0xf5, 0xf3, 0xd7, 0x39, 0x2e, 0x47, 0xd0, 0xff,
    0x2a, 0x8c, 0x4f, 0x05, 0x9c, 0xde, 0xd0, 0x21, 0xcc, 0xbf, 0xbf, 0x9b, 0xab, 0xb6, 0x2c, 0xce,
    0xf8, 0x44, 0x72, 0xe8, 0x5c, 0x7f, 0xf3, 0x30, 0xc4, 0xbe, 0xa0, 0xfd, 0xfc, 0x9c, 0xbf, 0x9b,
    0x29, 0x08, 0x10, 0x84, 0xc6, 0x12, 0x88, 0x49, 0x68, 0xe5, 0xaf, 0xaf, 0x61, 0x9c, 0x7f, 0x77]

/-- The values of one encryption: what secret and password are mixed to, PBKDF2 of that, HMAC of
the hash with that, and blocks that AES-CBC encrypts under it. -/
structure Layer where
  mixed : List UInt8
  derived : Vector UInt8 64
  state : Vector UInt8 64
  plain : List UInt8
  blocks : List UInt8

def layer : Layer where
  mixed := OneKey.mixed.toList
  derived := #v[
    0xdd, 0x08, 0xc6, 0xf0, 0x7a, 0x3e, 0x8b, 0xf6, 0x83, 0xd5, 0x3a, 0xdd, 0xa3, 0x10, 0x1a, 0x77,
    0xfc, 0x83, 0xf0, 0xec, 0x2b, 0xa2, 0x65, 0x52, 0x53, 0x75, 0xfb, 0x7e, 0x99, 0xaa, 0x69, 0xc1,
    0x91, 0x00, 0xb3, 0x92, 0x48, 0x31, 0xe0, 0x7b, 0x72, 0x7a, 0x4c, 0x1f, 0xa7, 0x69, 0xe3, 0xf9,
    0x0d, 0xed, 0x69, 0xc5, 0xa8, 0xd6, 0x4a, 0x27, 0x1d, 0x18, 0x64, 0x52, 0x9b, 0x9b, 0x18, 0x30]
  state := #v[
    0xfb, 0xcb, 0x2d, 0x26, 0xdd, 0x37, 0x5b, 0x43, 0xd2, 0xdd, 0xa9, 0x25, 0x46, 0xc4, 0x35, 0x06,
    0x66, 0x47, 0xae, 0x96, 0x92, 0x0e, 0xd9, 0xbd, 0xf8, 0x30, 0x1d, 0x9a, 0x71, 0x87, 0x9e, 0x59,
    0xde, 0x0c, 0x9a, 0x6a, 0x39, 0x23, 0xc0, 0x45, 0x1c, 0x50, 0xfd, 0xa0, 0xcf, 0xb9, 0xd9, 0x88,
    0xb6, 0xdb, 0x73, 0x6a, 0xf8, 0x5c, 0x27, 0xcb, 0xbc, 0x24, 0x43, 0x61, 0x4a, 0xc0, 0xdf, 0x21]
  plain := OneKey.plain
  blocks := [
    0x16, 0xb0, 0xd4, 0x4b, 0xf5, 0x25, 0xce, 0xaf, 0x79, 0x46, 0x82, 0xfe, 0x00, 0x0c, 0xa6, 0xe0,
    0xce, 0x26, 0x0d, 0x1d, 0xe3, 0xb0, 0x98, 0x3e, 0x0a, 0x4d, 0x6d, 0xd2, 0x6d, 0x32, 0x95, 0x69,
    0x8f, 0x71, 0x85, 0x21, 0xb9, 0x1c, 0xed, 0x99, 0xbd, 0xf0, 0x2e, 0xe5, 0xbc, 0x25, 0xcb, 0x89,
    0x38, 0xed, 0xf1, 0xda, 0xda, 0xe1, 0xcc, 0xa2, 0x3c, 0x88, 0x3d, 0x94, 0x76, 0xf5, 0x97, 0x0e,
    0x65, 0xb4, 0x6a, 0x6f, 0x8f, 0x04, 0xa2, 0xe3, 0xef, 0x78, 0xff, 0x73, 0x20, 0x13, 0x43, 0xf4]

/-- The deprecated one, of the same blocks. -/
def oldLayer : Layer where
  mixed := List.zipWith (· ^^^ ·) secret.toList passwordHash.toList
  derived := #v[
    0xb8, 0x0b, 0x48, 0x05, 0xff, 0xcf, 0xa8, 0x39, 0x53, 0x5e, 0x9a, 0x7f, 0xed, 0xf3, 0x9a, 0x99,
    0x02, 0xf3, 0x98, 0x54, 0x56, 0x76, 0x8f, 0x2f, 0xc8, 0x4e, 0x69, 0x17, 0xd0, 0x0c, 0xd1, 0x7c,
    0xfa, 0x81, 0x50, 0x04, 0x1c, 0x85, 0xd1, 0x38, 0x45, 0x31, 0x2f, 0x6f, 0x82, 0x65, 0x5f, 0x54,
    0xa4, 0xa8, 0x40, 0xa5, 0xf5, 0xf1, 0xd5, 0xdb, 0xf4, 0xd0, 0xc3, 0xf0, 0x4e, 0x19, 0x82, 0x07]
  state := #v[
    0x58, 0xb4, 0x9d, 0x2e, 0xb8, 0xd3, 0x65, 0xc6, 0x4b, 0x53, 0xb9, 0xd8, 0xcd, 0x3d, 0x22, 0xec,
    0xac, 0x8b, 0x1a, 0x69, 0xe5, 0xe4, 0x5b, 0x09, 0xce, 0xf6, 0xb1, 0x5d, 0x1a, 0x4f, 0xf2, 0x05,
    0x06, 0x7c, 0x8e, 0x54, 0x36, 0xf3, 0xb3, 0x50, 0xeb, 0xc2, 0x58, 0x7d, 0x0f, 0x0d, 0xb9, 0xed,
    0xd0, 0x7b, 0x66, 0x23, 0xd5, 0xb0, 0x9d, 0xe3, 0xb9, 0x07, 0x5f, 0x9a, 0x06, 0xcc, 0x0f, 0x1e]
  plain := [
    0x1b, 0x4f, 0xc9, 0x73, 0xcc, 0xb3, 0x7c, 0xde, 0xa4, 0xab, 0xdd, 0x33, 0x95, 0x8b, 0x75, 0xb9,
    0xf1, 0x24, 0x33, 0xa0, 0xb4, 0x13, 0x0a, 0xf7, 0xef, 0x63, 0xc6, 0xf9, 0xa6, 0xdb, 0xb9, 0x38,
    0x47, 0x3d, 0xae, 0xee, 0xec, 0xd4, 0x3b, 0xa3, 0x93, 0xc1, 0x3a, 0x9f, 0x85, 0x04, 0xc8, 0x85,
    0x84, 0xf9, 0x41, 0x12, 0x9c, 0xa2, 0x9b, 0x32, 0x00, 0x04, 0x57, 0xe5, 0x90, 0x55, 0xb9, 0x7c,
    0xa0, 0x1e, 0xce, 0xf6, 0x36, 0xc4, 0x21, 0x80, 0xcb, 0xe5, 0x89, 0x76, 0xb4, 0x79, 0xdf, 0x03]
  blocks := layer.blocks

/-- SHA-256 of what it decrypts them to. -/
def oldHash : Vector UInt8 32 := #v[
    0x5d, 0x96, 0x3f, 0xdb, 0x7d, 0x0d, 0xff, 0x92, 0x36, 0xc1, 0x45, 0x5c, 0x7f, 0xfe, 0xa0, 0xff,
    0xda, 0x48, 0x79, 0xeb, 0x5c, 0x83, 0x74, 0xe9, 0x47, 0xe1, 0x33, 0x8d, 0x40, 0x74, 0xee, 0x16]

def newLayer : Layer where
  mixed := newMixed.toList
  derived := #v[
    0x15, 0x82, 0x7c, 0x4f, 0x89, 0x36, 0x65, 0x17, 0xdf, 0x8c, 0x5b, 0xfe, 0x9e, 0xa6, 0xbc, 0x10,
    0x38, 0x16, 0x3f, 0x74, 0xfd, 0xc3, 0x05, 0x1e, 0xca, 0xb9, 0x6c, 0x56, 0x47, 0x93, 0x87, 0x64,
    0xf0, 0x14, 0x94, 0x9a, 0xcb, 0x92, 0x24, 0xc9, 0x36, 0xf0, 0xc0, 0x88, 0x60, 0xf9, 0x89, 0x3c,
    0x9e, 0xa7, 0x5b, 0x76, 0xf2, 0xff, 0x02, 0x09, 0x71, 0x89, 0xe8, 0xa1, 0x6f, 0x55, 0x48, 0x3f]
  state := #v[
    0xc9, 0xce, 0x87, 0xfc, 0x1f, 0x04, 0xfa, 0xff, 0x3f, 0xc6, 0xcb, 0xbe, 0xd4, 0xca, 0xf3, 0x53,
    0x33, 0xf1, 0x88, 0xec, 0xc3, 0xd0, 0x1e, 0x31, 0xc6, 0x5f, 0x6e, 0x58, 0x5a, 0xd0, 0x31, 0x7c,
    0x2d, 0xba, 0xb0, 0xe9, 0x3d, 0x3b, 0x48, 0x09, 0xbd, 0x94, 0x91, 0xe0, 0x61, 0x84, 0x8f, 0x27,
    0xfd, 0x20, 0x39, 0xcb, 0xd9, 0x23, 0x27, 0xaa, 0x55, 0x55, 0xee, 0xc0, 0xca, 0x98, 0x19, 0x01]
  plain := OneKey.plain
  blocks := [
    0x18, 0xc6, 0xe3, 0xe5, 0x6a, 0x8c, 0x28, 0x13, 0x5a, 0x22, 0xa1, 0xc7, 0xdd, 0x0b, 0x54, 0xaf,
    0x71, 0x8d, 0xcb, 0x25, 0x9d, 0x1c, 0x47, 0x6c, 0x15, 0x9d, 0x7c, 0x7d, 0xba, 0x48, 0x89, 0x42,
    0xaf, 0xd2, 0xdc, 0x5c, 0xcb, 0xe4, 0x33, 0x05, 0xcf, 0x4f, 0xc3, 0xbb, 0xda, 0x8b, 0x9c, 0x29,
    0xe3, 0x70, 0x35, 0xd2, 0xf7, 0xf9, 0x09, 0x63, 0x01, 0x32, 0x57, 0xbd, 0x56, 0xd4, 0x3f, 0xfd,
    0xc7, 0xa2, 0x36, 0xd9, 0x6b, 0xcf, 0x20, 0xf5, 0xa4, 0x97, 0x39, 0x58, 0x04, 0x01, 0x6a, 0x8f]

def exportLayer : Layer where
  mixed := exportMixed.toList
  derived := #v[
    0xf9, 0xf9, 0xce, 0xa6, 0x95, 0xe9, 0x75, 0x37, 0xe6, 0x25, 0x20, 0x9b, 0xf3, 0xc4, 0x00, 0x7d,
    0xf4, 0x7f, 0xc3, 0x62, 0x69, 0x04, 0x09, 0x09, 0x31, 0x84, 0x57, 0x6f, 0xa5, 0xf5, 0xd3, 0xfe,
    0x34, 0x98, 0x31, 0x88, 0xc6, 0x0b, 0x06, 0xa5, 0xc2, 0xd8, 0x86, 0x29, 0x32, 0xb9, 0xae, 0xc5,
    0x85, 0x62, 0x2c, 0xdc, 0x30, 0x24, 0x6c, 0x40, 0xe6, 0x85, 0xf9, 0xaa, 0x9c, 0x4f, 0xad, 0x43]
  state := #v[
    0x5c, 0x49, 0x74, 0x2d, 0x6a, 0x7c, 0x74, 0x7c, 0xba, 0x12, 0x50, 0x15, 0xae, 0xa9, 0xb6, 0x41,
    0xa7, 0x94, 0x2d, 0xeb, 0x89, 0xc1, 0x28, 0xd2, 0xdd, 0x6d, 0x14, 0xe1, 0x90, 0xda, 0xd2, 0x75,
    0xfb, 0xce, 0x77, 0x09, 0xc4, 0x00, 0x7e, 0x67, 0xa0, 0x53, 0xcb, 0x54, 0xdd, 0x79, 0x69, 0x7f,
    0x90, 0x14, 0x64, 0x43, 0x03, 0x05, 0x7f, 0x67, 0x44, 0x84, 0xfa, 0x5d, 0x50, 0x5f, 0x6e, 0xfd]
  plain := OneKey.plain
  blocks := [
    0x77, 0xd9, 0xc1, 0xea, 0x2f, 0xb6, 0xbf, 0x74, 0x95, 0x6d, 0x74, 0x28, 0x0f, 0x0c, 0x2c, 0xff,
    0x58, 0xc9, 0xa9, 0xa4, 0xa8, 0xb7, 0x63, 0x84, 0xc4, 0xc2, 0x21, 0x67, 0xb9, 0xce, 0x88, 0x01,
    0x5f, 0xe2, 0xd6, 0x00, 0x15, 0x35, 0xa3, 0xdd, 0x9d, 0x27, 0x7d, 0xe7, 0x7f, 0xaf, 0xc9, 0x3b,
    0x9d, 0xfc, 0x89, 0x2b, 0x28, 0x48, 0xb0, 0xfa, 0x44, 0x02, 0xfd, 0xe8, 0x9d, 0xe0, 0x6d, 0xb5,
    0x57, 0xbe, 0x26, 0x4c, 0x4b, 0x83, 0x6d, 0x53, 0x83, 0x01, 0x9e, 0x2b, 0x98, 0x9b, 0xf9, 0x66]

def layers : List Layer := [layer, oldLayer, newLayer, exportLayer]

/-- The table of HMAC. -/
def macs : List ((List UInt8 × List UInt8) × Vector UInt8 64) :=
  [((secret.toList, password), mixed), ((newSecret.toList, newPassword), newMixed),
    ((dummySecret, keyPassword), exportMixed)] ++
  layers.map fun l => ((hash.toList, l.derived.toList), l.state)

/-- AES-CBC under a key and an initial vector. -/
def cipher (key iv : List UInt8) : Equiv.Perm (List UInt8) :=
  match layers.find? fun l =>
      l.state.toList.take 32 = key ∧ (l.state.toList.drop 32).take 16 = iv with
  | some l => Equiv.swap l.plain l.blocks
  | none => Equiv.refl _

theorem length_cipher (key iv data : List UInt8) : (cipher key iv data).length = data.length := by
  rw [cipher]
  split
  · next l hl =>
    have hlengths : ∀ l ∈ layers, l.plain.length = l.blocks.length := by decide
    exact length_swap (hlengths l (List.mem_of_find?_eq_some hl)) data
  · rfl

def primitives : Primitives where
  sha256 data :=
    (([(plain, hash), (password, passwordHash), (oldLayer.plain, oldHash)] :
      List (List UInt8 × Vector UInt8 32)).lookup data).getD (zeros 32)
  hmac_sha512 key message := (macs.lookup (key, message)).getD (zeros 64)
  pbkdf2_sha512 password salt iterations :=
    if salt = localKey ∧ iterations = 100000 then
      ((layers.map fun l => (l.mixed, l.derived)).lookup password).getD (zeros 64)
    else zeros 64
  aes_cbc_encrypt key iv data := cipher key iv data
  aes_cbc_decrypt key iv data := (cipher key iv).symm data

theorem primitives_lawful : primitives.Lawful where
  decrypt_encrypt key iv data _ := (cipher key iv).symm_apply_apply data
  encrypt_decrypt key iv data _ := (cipher key iv).apply_symm_apply data
  length_encrypt key iv data _ := length_cipher key iv data
  length_decrypt key iv data _ := by
    have h := length_cipher key iv ((cipher key iv).symm data)
    rw [Equiv.apply_symm_apply] at h
    exact h.symm

def sha512 (data : List UInt8) : Vector UInt8 64 :=
  if data = secret.toList then #v[
    0x98, 0xae, 0xbb, 0xb1, 0x78, 0xa5, 0x51, 0x87, 0x6b, 0xfa, 0xf8, 0xe1, 0xe5, 0x30, 0xda, 0xc6,
    0xaa, 0xf6, 0xc2, 0xea, 0x1c, 0x8f, 0x84, 0x06, 0xa3, 0xab, 0x37, 0xdf, 0xb4, 0x0f, 0xbc, 0x25,
    0xcf, 0x9c, 0x2f, 0xb2, 0x9c, 0xcb, 0xb8, 0xfb, 0x7c, 0xdc, 0x18, 0x79, 0x86, 0x0b, 0xa0, 0x69,
    0xcc, 0x55, 0x7e, 0xae, 0x1a, 0xed, 0x76, 0xaa, 0x30, 0xbe, 0x4b, 0xc8, 0x8f, 0x90, 0x40, 0x8d]
  else if data = newSecret.toList then #v[
    0x4b, 0x3e, 0x3c, 0x14, 0x5d, 0x7e, 0x68, 0x0a, 0x16, 0x67, 0x69, 0x25, 0xfc, 0x04, 0x51, 0x83,
    0xd2, 0xf5, 0x10, 0xcb, 0x2f, 0x66, 0x0a, 0x1f, 0xc5, 0x17, 0xc7, 0x37, 0x62, 0x18, 0x5d, 0xc3,
    0xc6, 0xe9, 0x9a, 0xff, 0x28, 0x8d, 0x3b, 0x06, 0x43, 0x51, 0xe4, 0x9c, 0xc0, 0xff, 0x13, 0xe3,
    0x99, 0x29, 0x58, 0x7a, 0xc9, 0x43, 0x73, 0x71, 0xe5, 0x1c, 0x57, 0x28, 0x87, 0x21, 0x4c, 0x60]
  else zeros 64

def key : Key := ⟨publicKey.toList, secret.toList⟩

def encrypted : EncryptedKey := ⟨hash.toList ++ layer.blocks, key.public_key, key.secret⟩

def files : KeyValue :=
  Function.update (fun _ => none) (toFileName sha512 key) (some encrypted.encrypted_data)

theorem encrypt_saved :
    DecryptedKey.encrypt primitives curve zeros secret saved password [] = some encrypted :=
  encrypt_eq_some_iff.2 ⟨data, by decide +kernel, rfl, rfl, by decide +kernel⟩

theorem save_saved : saveKey primitives curve sha512 zeros secret (fun _ => none) saved password =
    some (key, files) := by
  rw [saveKey, encrypt_saved]
  rfl

/-- The deprecated encryption fails at the hash. -/
theorem current : Current primitives curve encrypted.encrypted_data key password := by
  intro decrypted h
  obtain ⟨-, data, hdata, -⟩ := decrypt_eq_ok_iff.1 h
  have hnone : (decryptData primitives encrypted.encrypted_data
      (encryptionSecret primitives key.secret password true)).isOk = false := by decide +kernel
  rw [hdata] at hnone
  cases hnone

theorem files_key : files (toFileName sha512 key) = some encrypted.encrypted_data :=
  Function.update_self ..

theorem export_saved : exportDecryptedKey primitives curve sha512 zeros (zeros 32) files
    ⟨key, password⟩ = some (.ok saved, files) :=
  export_of_current files_key current
    (decrypt_encrypt primitives_lawful encrypt_saved (fun _ => rfl))

def exported : EncryptedKey := ⟨hash.toList ++ exportLayer.blocks, key.public_key, dummySecret⟩

theorem encrypt_exported : DecryptedKey.encrypt primitives curve zeros (zeros 32) saved keyPassword
    dummySecret = some exported :=
  encrypt_eq_some_iff.2 ⟨data, by decide +kernel, rfl, rfl, by decide +kernel⟩

theorem export_exported : exportEncryptedKey primitives curve sha512 zeros (zeros 32) files
    ⟨key, password⟩ keyPassword = some (.ok exported.encrypted_data, files) :=
  exportEncryptedKey_eq_ok_iff.2 ⟨saved, exported, export_saved, encrypt_exported, rfl⟩

/-- The key gets a new password, under a new secret, and the file of that is deleted. -/
def calls : List (Drawn × Call) :=
  [(⟨zeros, newSecret⟩, .changeLocalPassword ⟨key, password⟩ newPassword),
    (⟨zeros, zeros 32⟩, .delete ⟨publicKey.toList, newSecret.toList⟩)]

theorem newName_ne : toFileName sha512 ⟨[], newSecret.toList⟩ ≠ toFileName sha512 key := by
  decide +kernel

theorem calls_spare : ∀ c ∈ calls, Spares sha512 key c.1 c.2 := by
  intro c hc
  rcases List.mem_cons.1 hc with rfl | hc
  · exact ⟨.inl rfl, newName_ne⟩
  · obtain rfl := List.mem_singleton.1 hc
    exact newName_ne

theorem password_of_calls {localPassword : List UInt8}
    (h : ∃ c ∈ calls, LoadsUnder key localPassword c.2) : localPassword = password := by
  obtain ⟨c, hc, hload⟩ := h
  rcases List.mem_cons.1 hc with rfl | hc
  · exact (InputKey.mk.inj hload).2.symm
  · obtain rfl := List.mem_singleton.1 hc
    exact hload.elim

theorem exists_run : ∃ kv, run primitives curve sha512 files calls = some kv := by
  obtain ⟨k, -, -, hsave⟩ := exists_saveKey encrypt_saved sha512 zeros newSecret files newPassword
  have hload : exportDecryptedKey primitives curve sha512 zeros newSecret files ⟨key, password⟩ =
      some (.ok saved, files) :=
    export_of_current files_key current
      (decrypt_encrypt primitives_lawful encrypt_saved (fun _ => rfl))
  apply Option.isSome_iff_exists.1
  rw [run, calls, List.foldlM_cons, step, changeLocalPassword, hload]
  simp only [hsave, Option.bind_eq_bind, Option.bind_some]
  rfl

end OneKey

open OneKey
open TwoParties (curve zeros)

theorem loads_asked_one_key : curve.publicKey saved.private_key = .ok key.public_key :=
  (loads_asked export_saved).1 saved rfl

theorem imports_exported_one_key :
    ∃ imported data, importEncryptedKey primitives curve sha512 zeros newSecret
        (fun _ => none) newPassword keyPassword exported.encrypted_data =
          some (.ok (imported,
            Function.update (fun _ => none) (toFileName sha512 imported) (some data))) ∧
      imported.public_key = key.public_key := by
  obtain ⟨_, imported, data, -, himport, hpublic, -⟩ := imports_exported primitives_lawful
    export_exported zeros newSecret (fun _ => none) newPassword
  exact ⟨imported, data, himport, hpublic⟩

theorem saved_loads_one_key :
    ∃ kv, run primitives curve sha512 files calls = some kv ∧
      exportDecryptedKey primitives curve sha512 zeros (zeros 32) kv ⟨key, password⟩ =
        some (.ok saved, kv) := by
  obtain ⟨kv, hrun⟩ := exists_run
  refine ⟨kv, hrun, saved_loads primitives_lawful save_saved ?_ calls_spare hrun
    ⟨zeros, zeros 32⟩⟩
  intro data hdata localPassword hload
  rw [files_key] at hdata
  obtain rfl := Option.some.inj hdata
  have hpassword : localPassword = password := hload.elim id password_of_calls
  rw [hpassword]
  exact current

end Tonlib
