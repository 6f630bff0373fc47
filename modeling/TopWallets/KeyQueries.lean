/- The queries for a key and for the cell of a message: `GetKeyQuery` and
   `CreateSendMessageCellQuery`, with the native functions that they call.

   A native function reports through a callback and gives its values through its buffers and what
   it returns. `GetKeyQuery` builds its value when the call has returned, but its handler
   runs in the callback; `CreateSendMessageCellQuery` takes the cell from the code of the
   callback, which is 0, and leaves what the call returns. So with the native functions as they
   are, which report during the call, a handler gets a value from neither query.

   Main result: the handler gets the outcome exactly when the native operation fails, and in the
   key query also exactly when it succeeds and reports after the call (`consistent_iff`). A
   caller that waits and reads the fields of the key query has the outcome
   (`GetKeyQuery.send_fields`).

   Correspondence (C++ / C# ↔ Lean):
     `Query.OnResult`                              ↔ `Query.onResult`
     `LiteClientCreateWalletAddress`               ↔ `liteClientCreateWalletAddress`
     `LiteClientGetImportKey`                      ↔ `liteClientGetImportKey`
     `LiteClientCreateSendMessageCell`             ↔ `liteClientCreateSendMessageCell`
     `GetKeyQuery.OnResult`, `.Send`               ↔ `GetKeyQuery.onResult`, `GetKeyQuery.send`
     `CreateSendMessageCellQuery.OnResult`, `.Send` ↔ `CreateSendMessageCellQuery.onResult`,
                                                     `CreateSendMessageCellQuery.send`
   The key storage and the address of a key are parameters, and so is the cell that
   `getSendMessageRaw` builds. -/
namespace Ton.KeyQueries

/-! ## The native functions -/

structure Key where
  public_key : List UInt8
  secret : List UInt8

/-- `KeyStorage`, and the address of a public key: that of a new wallet, and the one that is found
for an imported key. -/
structure KeyService where
  create_new_key : (password seed : List UInt8) → Except String Key
  export_key : Key → (password : List UInt8) → Except String (List (List Char))
  import_key : (password : List UInt8) → (words : List (List Char)) → Except String Key
  newAddress : (public_key : List UInt8) → Except String (List Char)
  foundAddress : (public_key : List UInt8) → Except String (List Char)

/-- What a call hands to its handlers and what is in its buffers when it returns; the address is
null when it returns false. -/
structure NativeCall where
  words : List (List Char)
  publicKey : List UInt8
  secret : List UInt8
  address : Option (List Char)
  resultHandler : Int × Option String

/-- A new buffer of 32 bytes. -/
def buffer : List UInt8 := List.replicate 32 0

section
variable (K : KeyService)

def liteClientCreateWalletAddress (password seed : List UInt8) : NativeCall :=
  match K.create_new_key password seed with
  | .error e => ⟨[], buffer, buffer, none, (-1, some e)⟩
  | .ok key =>
    match K.export_key key password with
    | .error e => ⟨[], key.public_key, key.secret, none, (-1, some e)⟩
    | .ok words =>
      match K.newAddress key.public_key with
      | .error e => ⟨words, key.public_key, key.secret, none, (-1, some e)⟩
      | .ok text => ⟨words, key.public_key, key.secret, some text, (0, none)⟩

def liteClientGetImportKey (password : List UInt8) (words : List (List Char)) : NativeCall :=
  match K.import_key password words with
  | .error e => ⟨[], buffer, buffer, none, (-1, some e)⟩
  | .ok key =>
    match K.foundAddress key.public_key with
    | .error e => ⟨[], buffer, buffer, none, (-1, some e)⟩
    | .ok text => ⟨[], key.public_key, key.secret, some text, (0, none)⟩

end

/-- The call of the result handler and the cell that is returned, for the message of
`getSendMessageRaw`. -/
def liteClientCreateSendMessageCell : Except String Int → (Int × Option String) × Option Int
  | .error e => ((-1, some e), none)
  | .ok message => ((0, none), some message)

/-! ## The queries -/

/-- Whether the callback comes before the native function returns, or later. -/
inductive Timing where
  | during
  | after
  deriving DecidableEq

structure Query where
  handle : Int
  error : Option String

/-- `name` is that of the class without `Query`, `command` a text of the language. -/
def Query.onResult (command name : String) (q : Query) (result : Int) :
    Option String → Query
  | some error =>
    { q with handle := -1, error := some (command ++ ": " ++ name ++ ".\r\n" ++ error) }
  | none => { q with handle := result }

structure KeyData where
  address : Option (List Char)
  publicKey : List UInt8
  words : List (List Char)
  password : List UInt8
  secret : List UInt8

/-- `calls` are those of the handler that the query was made with. -/
structure GetKeyQuery extends Query where
  words : Option (List (List Char))
  wordsList : List (List Char)
  keyData : Option KeyData
  calls : List (Option KeyData × Option String)

namespace GetKeyQuery

def new (words : Option (List (List Char))) : GetKeyQuery := ⟨⟨0, none⟩, words, [], none, []⟩

def onResult (command : String) (q : GetKeyQuery) (result : Int) (error : Option String) :
    GetKeyQuery :=
  { q with
    toQuery := q.toQuery.onResult command "GetKey" result error
    calls := q.calls ++ [(q.keyData, error)] }

variable (K : KeyService) (command : String)

/-- The native function of new words, or of given ones. -/
def call (password seed : List UInt8) : Option (List (List Char)) → NativeCall
  | none => liteClientCreateWalletAddress K password seed
  | some words => liteClientGetImportKey K password words

/-- What `Send` does when the call has returned. -/
def returned (library : NativeCall) (password : List UInt8) (q : GetKeyQuery) : GetKeyQuery :=
  let words := q.words.getD q.wordsList
  let q := { q with words := some words }
  if q.error = none then
    { q with keyData := some ⟨library.address, library.publicKey, words, password, library.secret⟩ }
  else q

/-- The random password and seed are given. -/
def send (timing : Timing) (password seed : List UInt8) (q : GetKeyQuery) : GetKeyQuery :=
  let library := call K password seed q.words
  let q := { q with wordsList := q.wordsList ++ library.words }
  match timing with
  | .during => returned library password
      (q.onResult command library.resultHandler.1 library.resultHandler.2)
  | .after => (returned library password q).onResult command library.resultHandler.1
      library.resultHandler.2

end GetKeyQuery

structure CreateSendMessageCellQuery extends Query where
  calls : List (Option Int × Option String)

namespace CreateSendMessageCellQuery

def new : CreateSendMessageCellQuery := ⟨⟨0, none⟩, []⟩

/-- A cell is its handle. -/
def onResult (command : String) (q : CreateSendMessageCellQuery) (result : Int)
    (error : Option String) : CreateSendMessageCellQuery :=
  let cell := if result > 0 then some result else none
  { q with
    toQuery := q.toQuery.onResult command "CreateSendMessageCell" result error
    calls := q.calls ++ [(cell, error)] }

/-- What the native function returns is not looked at, so that it makes no difference when the
handler is called. -/
def send (command : String) (raw : Except String Int) (q : CreateSendMessageCellQuery) :
    CreateSendMessageCellQuery :=
  let (handler, _) := liteClientCreateSendMessageCell raw
  q.onResult command handler.1 handler.2

end CreateSendMessageCellQuery

/-! ## Outcomes -/

/-- What the native operation makes: the key of new words or of the given ones. -/
def keyOutcome (K : KeyService) (password seed : List UInt8) :
    Option (List (List Char)) → Except String KeyData
  | none => do
    let key ← K.create_new_key password seed
    let words ← K.export_key key password
    let address ← K.newAddress key.public_key
    return ⟨some address, key.public_key, words, password, key.secret⟩
  | some words => do
    let key ← K.import_key password words
    let address ← K.foundAddress key.public_key
    return ⟨some address, key.public_key, words, password, key.secret⟩

/-- The handler is called once, with the value of an operation that succeeded and no error, or with
an error and no value. -/
def Consistent {α : Type} (calls : List (Option α × Option String)) : Except String α → Prop
  | .ok value => calls = [(some value, none)]
  | .error _ => ∃ error, calls = [(none, some error)]

/-! ## The key query -/

namespace GetKeyQuery

variable (K : KeyService) (command : String) (password seed : List UInt8)

/-- A call hands over the outcome: a key has the values that are in the buffers. -/
def Reports (library : NativeCall) (words : Option (List (List Char))) (password : List UInt8) :
    Except String KeyData → Prop
  | .ok keyData => library.resultHandler = (0, none) ∧
      keyData = ⟨library.address, library.publicKey, words.getD library.words, password,
        library.secret⟩
  | .error e => library.resultHandler = (-1, some e)

theorem call_reports (words : Option (List (List Char))) :
    Reports (call K password seed words) words password (keyOutcome K password seed words) := by
  cases words with
  | none =>
    rw [call, liteClientCreateWalletAddress, keyOutcome]
    cases K.create_new_key password seed with
    | error e => rfl
    | ok key =>
      simp only [bind, Except.bind]
      cases K.export_key key password with
      | error e => rfl
      | ok words =>
        cases K.newAddress key.public_key with
        | error e => rfl
        | ok address => exact ⟨rfl, rfl⟩
  | some words =>
    rw [call, liteClientGetImportKey, keyOutcome]
    cases K.import_key password words with
    | error e => rfl
    | ok key =>
      simp only [bind, Except.bind]
      cases K.foundAddress key.public_key with
      | error e => rfl
      | ok address => exact ⟨rfl, rfl⟩

theorem returned_calls (library : NativeCall) (q : GetKeyQuery) :
    (returned library password q).calls = q.calls := by
  rw [returned]
  split
  · rfl
  · rfl

/-- In the callback the handler has no value yet. -/
theorem calls_during (words : Option (List (List Char))) :
    (send K command .during password seed (new words)).calls =
      [(none, (call K password seed words).resultHandler.2)] := by
  rw [send, returned_calls]
  rfl

/-- Later it has one, whatever is reported. -/
theorem calls_after (words : Option (List (List Char))) :
    (send K command .after password seed (new words)).calls =
      [(some ⟨(call K password seed words).address, (call K password seed words).publicKey,
        words.getD (call K password seed words).words, password,
        (call K password seed words).secret⟩, (call K password seed words).resultHandler.2)] :=
  rfl

theorem consistent_send_iff (timing : Timing) (words : Option (List (List Char))) :
    Consistent (send K command timing password seed (new words)).calls
        (keyOutcome K password seed words) ↔
      (timing = .during ∧ ∃ e, keyOutcome K password seed words = .error e) ∨
        (timing = .after ∧ ∃ keyData, keyOutcome K password seed words = .ok keyData) := by
  have hreports := call_reports K password seed words
  cases timing with
  | during =>
    rw [calls_during]
    cases houtcome : keyOutcome K password seed words with
    | error e =>
      rw [houtcome] at hreports
      have hcall : (call K password seed words).resultHandler = (-1, some e) := hreports
      simp [Consistent, hcall]
    | ok keyData => simp [Consistent]
  | after =>
    rw [calls_after]
    cases houtcome : keyOutcome K password seed words with
    | error e => simp [Consistent]
    | ok keyData =>
      rw [houtcome] at hreports
      obtain ⟨hcall, rfl⟩ := hreports
      simp [Consistent, hcall]

/-- Of a report during the call the fields of the query are the outcome when `Send` returns. -/
theorem send_fields (words : Option (List (List Char))) :
    Consistent [((send K command .during password seed (new words)).keyData,
      (send K command .during password seed (new words)).error)]
        (keyOutcome K password seed words) := by
  have hreports := call_reports K password seed words
  cases houtcome : keyOutcome K password seed words with
  | error e =>
    rw [houtcome] at hreports
    have hcall : (call K password seed words).resultHandler = (-1, some e) := hreports
    refine ⟨command ++ ": " ++ "GetKey" ++ ".\r\n" ++ e, ?_⟩
    simp [send, returned, new, onResult, hcall, Query.onResult]
  | ok keyData =>
    rw [houtcome] at hreports
    obtain ⟨hcall, rfl⟩ := hreports
    simp [Consistent, send, returned, new, onResult, hcall, Query.onResult]

end GetKeyQuery

/-! ## Both queries -/

theorem CreateSendMessageCellQuery.calls_send (command : String) (raw : Except String Int) :
    (send command raw new).calls =
      [(none, (liteClientCreateSendMessageCell raw).1.2)] := by
  cases raw with
  | error e => rfl
  | ok message => rfl

/-- The handler of a key query gets the outcome exactly when the operation fails and reports during
the call, as the native functions do, or succeeds and reports after it; that of a query for the cell
of a message exactly when the operation fails. -/
theorem consistent_iff (K : KeyService) (command : String) :
    (∀ timing password seed words,
      Consistent (GetKeyQuery.send K command timing password seed (GetKeyQuery.new words)).calls
          (keyOutcome K password seed words) ↔
        (timing = .during ∧ ∃ e, keyOutcome K password seed words = .error e) ∨
          (timing = .after ∧ ∃ keyData, keyOutcome K password seed words = .ok keyData)) ∧
    ∀ raw : Except String Int,
      Consistent (CreateSendMessageCellQuery.send command raw CreateSendMessageCellQuery.new).calls
          raw ↔ ∃ e, raw = .error e := by
  refine ⟨fun timing password seed words =>
    GetKeyQuery.consistent_send_iff K command password seed timing words, ?_⟩
  intro raw
  rw [CreateSendMessageCellQuery.calls_send]
  cases raw with
  | error e => simp [Consistent, liteClientCreateSendMessageCell]
  | ok message => simp [Consistent]

/-- A key storage in which everything succeeds. -/
def succeeding : KeyService where
  create_new_key _ _ := .ok ⟨[1], [2]⟩
  export_key _ _ := .ok ["word".toList]
  import_key _ _ := .ok ⟨[1], [2]⟩
  newAddress _ := .ok "address".toList
  foundAddress _ := .ok "address".toList

/-- A new key is created, and the handler gets neither a value nor an error; nor does it get the
cell that was built. -/
theorem not_consistent_succeeding :
    ¬ Consistent (GetKeyQuery.send succeeding "command" .during [] [] (GetKeyQuery.new none)).calls
        (keyOutcome succeeding [] [] none) ∧
      ¬ Consistent (CreateSendMessageCellQuery.send "command" (.ok 7)
        CreateSendMessageCellQuery.new).calls (.ok 7) := by
  refine ⟨?_, ?_⟩
  · intro h
    cases h
  · intro h
    cases h

end Ton.KeyQueries
