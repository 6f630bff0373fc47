import TopWallets.Coins
import TopWallets.SerializeDictRoundtrip

/- Minting NFT items one by one and in a batch: `NftController.Mint` and `.BatchMint`.

   Both paths make a message of the owner and the content of an item. The one for a
   single item chains cells for a long content (`ContentToCell`); the serializer of
   the batch stores it in one cell, which refuses more than 127 bytes. Main result:
   the dictionary of a batch holds what `Mint` makes of each item exactly when every
   content has between 1 and 126 bytes and every amount is below 2 ^ 119
   (`batchAgrees_iff`).

   Correspondence (C# ↔ Lean):
     `NftMintItemInfo`                  ↔ `NftMintItemInfo`
     `ContentToCell`, `Mint`            ↔ `contentToCell`, `mint`
     the lambda in `BatchMint`          ↔ `serializeItem`
     `BatchMint`                        ↔ `batchMint` -/
namespace Ton

structure NftMintItemInfo where
  passAmount : BitVec 128
  index : BitVec 64
  ownerAddress : Option (List Char)
  content : List Char

namespace NftController
open CellBuilder SerializeDict

/-- The value of `TransactionType.NftMint`. -/
def nftMint : Nat := 1

/-- The value of `TransactionType.NftBatchMint`. -/
def nftBatchMint : Nat := 2

def contentToCell (content : List Char) : Except Exception Cell :=
  storeBuffer (Utf8.encode content) (-1)

section Mint
variable (unset : Block.StdAddress)

def mint (queryId : BitVec 64) (item : NftMintItemInfo) : Except Exception Cell := do
  let content ← contentToCell item.content
  let nftItemMessage ←
    (do finish (← storeRef (some (some content)) (storeAddress unset item.ownerAddress begin)))
  finish (← storeRef (some (some nftItemMessage)) (storeCoins item.passAmount
    (store item.index.toInt 64 (store queryId.toInt 64 (store nftMint 32 begin)))))

/-- What `BatchMint` has `SerializeDict` call for every item. -/
def serializeItem (item : NftMintItemInfo) (cell : Vm.CellBuilder) :
    Except Exception Vm.CellBuilder := do
  let content ← finish (storeBytes (Utf8.encode item.content) begin)
  let nftItemMessage ←
    (do finish (← storeRef (some (some content)) (storeAddress unset item.ownerAddress begin)))
  storeRef (some (some nftItemMessage)) (storeCoins item.passAmount cell)

/-- The result is null for no items. -/
def batchMint (queryId : BitVec 64) : List NftMintItemInfo → Except Exception (Option Cell)
  | [] => .ok none
  | [item] => do return some (← mint unset queryId item)
  | items => do
    let dict ← items.foldlM
      (fun dict item => Dict.add dict (Decimal.ofInt item.index.toInt) item) []
    let dictCell ← serialize dict 64 (serializeItem unset)
    let cell ← (do finish (← storeRef (some (some dictCell))
      (store queryId.toInt 64 (store nftBatchMint 32 begin))))
    return some cell

/-! ## What the dictionary should hold -/

/-- A value of the dictionary is what `Mint` makes of the item: it has the amount, and the same
message, whose content reads as the content of the item. -/
def Holds (queryId : BitVec 64) (item : NftMintItemInfo) (value : Slice) : Prop :=
  VarUInteger.Spells 4 value.bits item.passAmount.toNat ∧
    ∃ minted message content, mint unset queryId item = .ok minted ∧ minted.refs = [message] ∧
      value.refs = [message] ∧ message.refs = [content] ∧
      Slice.loadString content = some item.content

/-- The dictionary of a batch has the indices of the items as its keys, and holds every item. -/
def BatchAgrees (queryId : BitVec 64) (items : List NftMintItemInfo) : Prop :=
  ∃ cell dictCell t, batchMint unset queryId items = .ok (some cell) ∧ cell.refs = [dictCell] ∧
    Hashmap Eq 64 dictCell.toSlice t ∧
    (t.entries.map Prod.fst).Perm (items.map fun item => keyBits 64 item.index.toInt) ∧
    ∀ item ∈ items, ∃ value, (keyBits 64 item.index.toInt, value) ∈ t.entries ∧
      Holds unset queryId item value

/-! ## One item -/

variable {unset}

/-- The message of an owner and a content. -/
def messageCell (unset : Block.StdAddress) (owner : Option (List Char)) (content : Cell) : Cell :=
  .mk (storedAddress unset owner) [content]

theorem message_eq (owner : Option (List Char)) (content : Cell) :
    (do finish (← storeRef (some (some content)) (storeAddress unset owner begin))) =
      if content.depth + 1 ≤ Vm.maxDepth then .ok (messageCell unset owner content)
      else .error .cellWrite :=
  finish_storeRef (appends_storeAddress unset owner)
    ((length_storedAddress_le unset owner).trans (by decide)) content

/-- The bits of what `Mint` makes. -/
def mintBits (queryId : BitVec 64) (item : NftMintItemInfo) : List Bool :=
  ((BitField.ofNat 32 nftMint ++ BitField.ofNat 64 queryId.toNat) ++
    BitField.ofNat 64 item.index.toNat) ++ coinsBits item.passAmount.toNat

theorem appends_mintBits (queryId : BitVec 64) (item : NftMintItemInfo) :
    Appends (fun b => storeCoins item.passAmount
      (store item.index.toInt 64 (store queryId.toInt 64 (store nftMint 32 b))))
      (mintBits queryId item) :=
  (((Appends.storeNat nftMint 32 (by decide)).comp (Appends.storeLong queryId)).comp
    (Appends.storeLong item.index)).comp (appends_storeCoins item.passAmount)

/-- What `Mint` makes: a message that refers to the content, and a cell that refers to it. -/
theorem mint_eq (queryId : BitVec 64) (item : NftMintItemInfo) :
    mint unset queryId item = (do
      let content ← contentToCell item.content
      let message ← (if content.depth + 1 ≤ Vm.maxDepth
        then .ok (messageCell unset item.ownerAddress content) else .error .cellWrite)
      (if message.depth + 1 ≤ Vm.maxDepth then .ok (.mk (mintBits queryId item) [message])
        else .error .cellWrite)) := by
  have hlen := length_coinsBits_le item.passAmount
  have hbits : (mintBits queryId item).length ≤ Vm.maxBits := by
    simp only [mintBits, List.length_append, BitField.length_ofNat, Vm.maxBits]
    omega
  rw [mint]
  refine bind_congr fun content => ?_
  rw [message_eq]
  exact bind_congr fun message => finish_storeRef (appends_mintBits queryId item) hbits message

/-- The only reference of what `Mint` makes is the message. -/
theorem mint_ok {queryId : BitVec 64} {item : NftMintItemInfo} {minted : Cell}
    (h : mint unset queryId item = .ok minted) :
    ∃ content, contentToCell item.content = .ok content ∧
      minted.refs = [messageCell unset item.ownerAddress content] := by
  rw [mint_eq] at h
  obtain ⟨content, hcontent, h⟩ := bind_ok_iff.1 h
  obtain ⟨message, hmessage, h⟩ := bind_ok_iff.1 h
  refine ⟨content, hcontent, ?_⟩
  split at hmessage
  · obtain rfl := Except.ok.inj hmessage
    split at h
    · obtain rfl := Except.ok.inj h
      rfl
    · cases h
  · cases hmessage

theorem mint_short (unset : Block.StdAddress) (queryId : BitVec 64) {item : NftMintItemInfo}
    (h : (Utf8.encode item.content).length < 127) :
    ∃ minted, mint unset queryId item = .ok minted ∧
      minted.refs = [messageCell unset item.ownerAddress
        (.mk (BitField.ofBytes (Utf8.encode item.content)) [])] := by
  have hcontent : contentToCell item.content =
      .ok (.mk (BitField.ofBytes (Utf8.encode item.content)) []) :=
    storeBuffer_plain (by decide) h
  refine ⟨.mk (mintBits queryId item) [messageCell unset item.ownerAddress
    (.mk (BitField.ofBytes (Utf8.encode item.content)) [])], ?_, rfl⟩
  rw [mint_eq, hcontent]
  simp [messageCell, Vm.maxDepth]

/-! ## The batch -/

/-- The content cell of the batch: a content of more than 127 bytes is refused. -/
def batchContent (content : List Char) : Cell :=
  .mk (storeBytes (Utf8.encode content) begin).bits []

theorem batchContent_eq (content : List Char) :
    finish (storeBytes (Utf8.encode content) begin) = .ok (batchContent content) := by
  obtain ⟨bs, rs, -, hrefs, -, hlen, -⟩ := kept_storeBytes (Utf8.encode content) begin
  have hnil : (storeBytes (Utf8.encode content) begin).refs = [] :=
    hrefs.trans (List.eq_nil_of_length_eq_zero (Nat.le_zero.1 hlen))
  rw [finish_eq, hnil, Cell.depthRefs_nil, if_pos (Nat.zero_le _), batchContent]

theorem batchContent_short {content : List Char} (h : (Utf8.encode content).length ≤ 127) :
    batchContent content = .mk (BitField.ofBytes (Utf8.encode content)) [] := by
  obtain ⟨b, hb, hbits, -⟩ := storeBytes_begin _ h
  rw [batchContent, hb, hbits]

/-- What the serializer writes for an item. -/
def encodeItem (unset : Block.StdAddress) (item : NftMintItemInfo) : List Bool × List Cell :=
  (coinsBits item.passAmount.toNat,
    [messageCell unset item.ownerAddress (batchContent item.content)])

theorem depth_messageCell (owner : Option (List Char)) (content : List Char) :
    (messageCell unset owner (batchContent content)).depth = 1 := by
  simp [messageCell, batchContent]

theorem serializes_serializeItem : Serializes (serializeItem unset) (encodeItem unset) := by
  intro item b h
  have hmessage : (do finish (← storeRef (some (some (batchContent item.content)))
      (storeAddress unset item.ownerAddress begin))) =
        .ok (messageCell unset item.ownerAddress (batchContent item.content)) := by
    rw [message_eq, if_pos (by simp [batchContent, Vm.maxDepth])]
  have hbits : b.canExtendBy (coinsBits item.passAmount.toNat).length 0 := ⟨h.1, Nat.zero_le _⟩
  have hroom : (b.append (coinsBits item.passAmount.toNat) [] hbits).canExtendBy 0 1 := by
    have hrefs := h.2
    simp only [encodeItem, List.length_singleton] at hrefs
    simpa [Vm.CellBuilder.canExtendBy] using hrefs
  have hlast :=
    storeRef_eq (messageCell unset item.ownerAddress (batchContent item.content)) _ hroom
  rw [serializeItem, batchContent_eq, ok_bind, hmessage, ok_bind,
    appends_storeCoins item.passAmount b hbits]
  refine hlast.trans (congrArg Except.ok (Vm.CellBuilder.ext ?_ ?_))
  · exact List.append_nil _
  · simp [encodeItem]

/-- The map that `BatchMint` hands to `SerializeDict`. -/
def itemDict (items : List NftMintItemInfo) : Dict NftMintItemInfo :=
  items.map fun item => (Decimal.ofInt item.index.toInt, item)

theorem isKey_toInt (index : BitVec 64) : IsKey 64 index.toInt := by
  rw [IsKey, if_neg (by decide)]
  exact ⟨index.le_toInt, index.toInt_lt⟩

theorem hasKeys_itemDict {items : List NftMintItemInfo}
    (hdistinct : (items.map NftMintItemInfo.index).Nodup) : HasKeys 64 (itemDict items) := by
  refine ⟨fun e he => ?_, ?_⟩
  · obtain ⟨item, -, rfl⟩ := List.mem_map.1 he
    exact ⟨item.index.toInt, Decimal.toInt?_ofInt _, isKey_toInt _⟩
  · rw [itemDict, List.map_map]
    have hkeys : items.map ((fun e => Decimal.toInt? e.1) ∘
        fun item : NftMintItemInfo => (Decimal.ofInt item.index.toInt, item)) =
        (items.map NftMintItemInfo.index).map (fun index => some index.toInt) := by
      simp [Function.comp_def, Decimal.toInt?_ofInt]
    rw [hkeys]
    exact hdistinct.map fun x y h => BitVec.toInt_inj.1 (Option.some.inj h)

theorem keyed_itemDict (items : List NftMintItemInfo) :
    keyed 64 (itemDict items) = items.map fun item => (keyBits 64 item.index.toInt, item) := by
  simp [keyed, itemDict, keyOf, Decimal.toInt?_ofInt, Function.comp_def]

theorem foldlM_itemDict {items : List NftMintItemInfo}
    (hdistinct : (items.map NftMintItemInfo.index).Nodup) :
    items.foldlM (fun dict item => Dict.add dict (Decimal.ofInt item.index.toInt) item) [] =
      .ok (itemDict items) := by
  have hnd : ((itemDict items).map Prod.fst).Nodup := by
    have hkeys : (itemDict items).map Prod.fst =
        (items.map NftMintItemInfo.index).map (fun index => Decimal.ofInt index.toInt) := by
      simp [itemDict, Function.comp_def]
    rw [hkeys]
    exact hdistinct.map fun x y h => BitVec.toInt_inj.1 (Decimal.ofInt_injective h)
  have hstep : ∀ dict, ∀ e ∈ itemDict items,
      Dict.add dict e.1 e.2 = Dict.add dict (Prod.fst e) e.2 :=
    fun _ _ _ => rfl
  have hadd := Dict.foldlM_add hstep [] hnd (by simp [Dict.keys])
  rw [itemDict, List.foldlM_map] at hadd
  rw [hadd]
  simp [itemDict]

/-- The bits of what `BatchMint` makes. -/
def batchBits (queryId : BitVec 64) : List Bool :=
  BitField.ofNat 32 nftBatchMint ++ BitField.ofNat 64 queryId.toNat

theorem appends_batchBits (queryId : BitVec 64) :
    Appends (fun b => store queryId.toInt 64 (store nftBatchMint 32 b)) (batchBits queryId) :=
  (Appends.storeNat nftBatchMint 32 (by decide)).comp (Appends.storeLong queryId)

theorem batchMint_eq (queryId : BitVec 64) {items : List NftMintItemInfo}
    (hlen : 2 ≤ items.length) (hdistinct : (items.map NftMintItemInfo.index).Nodup) :
    batchMint unset queryId items = (do
      let dictCell ← serialize (itemDict items) 64 (serializeItem unset)
      let cell ← (if dictCell.depth + 1 ≤ Vm.maxDepth
        then .ok (.mk (batchBits queryId) [dictCell]) else .error .cellWrite)
      return some cell) := by
  have hbits : (batchBits queryId).length ≤ Vm.maxBits := by
    simp [batchBits, Vm.maxBits]
  have hlast := finish_storeRef (appends_batchBits queryId) hbits
  have hitems : batchMint unset queryId items = (do
      let dict ← items.foldlM
        (fun dict item => Dict.add dict (Decimal.ofInt item.index.toInt) item) []
      let dictCell ← serialize dict 64 (serializeItem unset)
      let cell ← (do finish (← storeRef (some (some dictCell))
        (store queryId.toInt 64 (store nftBatchMint 32 begin))))
      return some cell) := by
    cases items with
    | nil => simp at hlen
    | cons a items =>
      cases items with
      | nil => simp at hlen
      | cons b items => rfl
  rw [hitems, foldlM_itemDict hdistinct, ok_bind]
  refine bind_congr fun dictCell => ?_
  exact congrArg (fun cell : Except Exception Cell => cell >>= fun cell => pure (some cell))
    (hlast dictCell)

/-- What `BatchMint` makes of two items or more. -/
theorem batchMint_ok (unset : Block.StdAddress) (queryId : BitVec 64) {items : List NftMintItemInfo}
    (hlen : 2 ≤ items.length) (hdistinct : (items.map NftMintItemInfo.index).Nodup) :
    ∃ cell dictCell t, batchMint unset queryId items = .ok (some cell) ∧ cell.refs = [dictCell] ∧
      Hashmap Eq 64 dictCell.toSlice t ∧
      t.entries.Perm (items.map fun item =>
        (keyBits 64 item.index.toInt, valueSlice (encodeItem unset) item)) := by
  have hne : itemDict items ≠ [] := by
    rw [itemDict, Ne, List.map_eq_nil_iff, ← List.length_eq_zero_iff]
    omega
  have hkeys := hasKeys_itemDict hdistinct
  have hfit : ∀ e, buildTree (itemDict items) 64 = .ok e →
      e.LeavesFit (encodeItem unset) 64 66 := by
    intro e he
    obtain ⟨e', he', -, hk, -⟩ := buildTree_spells (by decide) (by decide) hne hkeys
    obtain rfl := Except.ok.inj (he.symm.trans he')
    refine e.leavesFit_of_small (k := 2) (fun item => ?_) (fun _ => Nat.one_le_ofNat)
      (fun item => ?_) hk (by decide) (by decide)
    · exact (length_coinsBits_le item.passAmount).trans (by decide)
    · rw [encodeItem, Cell.depthRefs_cons, Cell.depthRefs_nil, depth_messageCell]
      decide
  obtain ⟨t, ht, hk, hperm, hdepth⟩ := serialize_cell (by decide) (by decide) hne hkeys
    serializes_serializeItem (by decide) (by decide) hfit
  have hhm := (HmEdge.shortHashmap_cell (valueSlice (encodeItem unset))
    (X := fun s v => s = valueSlice (encodeItem unset) v) (fun _ => rfl) hk).hashmap
  have hslices : Hashmap Eq 64 _ (t.map (valueSlice (encodeItem unset))) :=
    hhm.map (Y := Eq) fun _ _ h => h
  refine ⟨.mk (batchBits queryId) [t.cell (valueSlice (encodeItem unset)) 64], _, _, ?_, rfl,
    hslices, ?_⟩
  · rw [batchMint_eq queryId hlen hdistinct, ht, ok_bind, if_pos (by rw [Vm.maxDepth]; omega)]
    rfl
  · rw [keyed_itemDict] at hperm
    rw [HmEdge.entries_map]
    simpa [Function.comp_def] using hperm.map fun e => (e.1, valueSlice (encodeItem unset) e.2)

/-! ## Where the two paths agree -/

/-- What the batch writes for an item is what `Mint` makes of it exactly when the content has
between 1 and 126 bytes and the amount is below 2 ^ 119. -/
theorem holds_iff (queryId : BitVec 64) (item : NftMintItemInfo) :
    Holds unset queryId item (valueSlice (encodeItem unset) item) ↔
      item.content ≠ [] ∧ (Utf8.encode item.content).length < 127 ∧
        item.passAmount.toNat < 2 ^ 119 := by
  constructor
  · rintro ⟨hspells, minted, message, content, hmint, hminted, hvalue, hmessage, hload⟩
    obtain rfl : messageCell unset item.ownerAddress (batchContent item.content) = message :=
      (List.cons.inj hvalue).1
    obtain rfl : batchContent item.content = content := (List.cons.inj hmessage).1
    refine ⟨?_, ?_, ?_⟩
    · intro hempty
      rw [hempty, batchContent_short (by decide)] at hload
      cases hload
    · by_contra hlong
      -- the content cell of `Mint` refers to a second one, the one of the batch does not
      obtain ⟨content, hcontent, hrefs⟩ := mint_ok hmint
      obtain ⟨next, hnext⟩ := refs_storeBuffer (by decide) (Nat.le_of_not_lt hlong) hcontent
      have hsame := (List.cons.inj (hminted.symm.trans hrefs)).1
      have hcell : batchContent item.content = content :=
        (List.cons.inj (congrArg Cell.refs hsame)).1
      rw [← hcell] at hnext
      cases hnext
    · exact (spells_coinsBits_iff _).1 hspells
  · rintro ⟨hne, hshort, hamount⟩
    obtain ⟨minted, hmint, hrefs⟩ := mint_short unset queryId hshort
    refine ⟨(spells_coinsBits_iff _).2 hamount, minted, _, _, hmint, hrefs, ?_, rfl,
      loadString_encode hne⟩
    rw [← batchContent_short (Nat.le_of_lt hshort)]
    rfl

/-- Where the dictionary holds the items, it does so with what the serializer wrote. -/
theorem BatchAgrees.holds {queryId : BitVec 64} {items : List NftMintItemInfo}
    (h : BatchAgrees unset queryId items) (hlen : 2 ≤ items.length)
    (hdistinct : (items.map NftMintItemInfo.index).Nodup) :
    ∀ item ∈ items, Holds unset queryId item (valueSlice (encodeItem unset) item) := by
  obtain ⟨cell, dictCell, t, hcell, hrefs, hhm, hperm⟩ :=
    batchMint_ok unset queryId hlen hdistinct
  obtain ⟨cell', dictCell', t', hcell', hrefs', hhm', -, hholds⟩ := h
  intro item hitem
  obtain rfl : cell' = cell := Option.some.inj (Except.ok.inj (hcell'.symm.trans hcell))
  obtain rfl : dictCell' = dictCell := (List.cons.inj (hrefs'.symm.trans hrefs)).1
  obtain rfl : t' = t := Hashmap.unique (fun _ _ _ h h' => h.symm.trans h') hhm' hhm
  obtain ⟨value, hmem, hvalue⟩ := hholds item hitem
  obtain ⟨item', hitem', heq⟩ := List.mem_map.1 (hperm.mem_iff.1 hmem)
  obtain ⟨hkey, rfl⟩ := Prod.mk.inj heq
  -- the key is the one of the item alone
  have hindex := BitVec.toInt_inj.1 (keyBits_inj (by decide) (isKey_toInt _) (isKey_toInt _) hkey)
  obtain rfl := List.inj_on_of_nodup_map hdistinct hitem' hitem hindex
  exact hvalue

/-- The dictionary of a batch of two items or more, of distinct indices, holds what `Mint` makes of
each of them exactly when every content has between 1 and 126 bytes and every amount is below
2 ^ 119. -/
theorem batchAgrees_iff (queryId : BitVec 64) {items : List NftMintItemInfo}
    (hlen : 2 ≤ items.length) (hdistinct : (items.map NftMintItemInfo.index).Nodup) :
    BatchAgrees unset queryId items ↔ ∀ item ∈ items, item.content ≠ [] ∧
      (Utf8.encode item.content).length < 127 ∧ item.passAmount.toNat < 2 ^ 119 := by
  constructor
  · intro h item hitem
    exact (holds_iff queryId item).1 (h.holds hlen hdistinct item hitem)
  · intro hall
    obtain ⟨cell, dictCell, t, hcell, hrefs, hhm, hperm⟩ :=
      batchMint_ok unset queryId hlen hdistinct
    refine ⟨cell, dictCell, t, hcell, hrefs, hhm, ?_, fun item hitem => ?_⟩
    · simpa [Function.comp_def] using hperm.map Prod.fst
    · exact ⟨_, hperm.mem_iff.2 (List.mem_map_of_mem hitem),
        (holds_iff queryId item).2 (hall item hitem)⟩

end Mint

/-- Two items of one letter each. -/
theorem batchAgrees_letters :
    BatchAgrees ⟨Block.workchainInvalid, true, false, List.replicate 32 0, rfl⟩ 0
      [⟨1, 0, none, ['a']⟩, ⟨1, 1, none, ['b']⟩] := by
  refine (batchAgrees_iff 0 (by decide) (by decide)).2 ?_
  simp only [List.forall_mem_cons]
  exact ⟨⟨by decide, by decide, by decide⟩, ⟨by decide, by decide, by decide⟩, by simp⟩

theorem length_encode_replicate_a (n : Nat) :
    (Utf8.encode (List.replicate n 'a')).length = n := by
  induction n with
  | zero => rfl
  | succ n ih =>
    have hchar : String.utf8EncodeChar 'a' = [97] := by decide
    rw [List.replicate_succ, Utf8.encode_cons, hchar, List.length_append, ih, List.length_singleton]
    omega

/-- The batch leaves a content of 128 bytes out. -/
theorem not_batchAgrees_long :
    ¬ BatchAgrees ⟨Block.workchainInvalid, true, false, List.replicate 32 0, rfl⟩ 0
      [⟨1, 0, none, List.replicate 128 'a'⟩, ⟨1, 1, none, ['b']⟩] := by
  intro h
  have hholds := h.holds (by decide) (by decide) _ (List.mem_cons_self ..)
  have hshort := ((holds_iff _ _).1 hholds).2.1
  rw [length_encode_replicate_a] at hshort
  omega

end NftController
end Ton
