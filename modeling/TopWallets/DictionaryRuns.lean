import TopWallets.Dictionary

/- Runs of the native dictionary refine a finite map.

   A map from keys to values says what a dictionary is for (`spec`); a root cell
   represents the map of the tree it spells (`Represents`). Main results: every call
   replies what the map replies and leaves a root that represents the map after it,
   or it throws and changes nothing, which it does exactly when no cells within the
   limits hold that map (`calls_refine`); the root depends on the map alone and not on
   the calls that led to it (`root_eq_iff`); and no call throws where the values leave
   room for their keys (`calls_of_room`). -/
namespace Vm.Dict
open CellBuilder

/-! ## Calls -/

inductive Op where
  | lookup (key : List Bool)
  | set (mode : SetMode) (key : List Bool) (value : Slice)
  | lookupDelete (key : List Bool)

inductive Reply where
  | value (v : Option Slice)
  | changed (b : Bool)

/-- The root after a call, and what it returns. A call that throws has not changed the root. -/
def call (n : Nat) (root : Option Cell) : Op → Option Cell × Except DictError Reply
  | .lookup key => (root, Reply.value <$> lookup n root key)
  | .set mode key value =>
    match setValue n root key value mode with
    | .ok (changed, root) => (root, .ok (.changed changed))
    | .error e => (root, .error e)
  | .lookupDelete key =>
    match lookupDelete n root key with
    | .ok (v, root) => (root, .ok (.value v))
    | .error e => (root, .error e)

def calls (n : Nat) (root : Option Cell) : List Op → Option Cell × List (Except DictError Reply)
  | [] => (root, [])
  | op :: ops =>
    let rest := calls n (call n root op).1 ops
    (rest.1, (call n root op).2 :: rest.2)

/-! ## The map -/

/-- What a dictionary is for. -/
abbrev Contents := List Bool → Option Slice

def spec (n : Nat) (m : Contents) : Op → Contents × Reply
  | .lookup key => (m, .value (m key))
  | .set mode key v =>
    if key.length = n ∧ mode.allows (m key).isSome = true then
      (Function.update m key (some v), .changed true)
    else (m, .changed false)
  | .lookupDelete key => (Function.update m key none, .value (m key))

/-- The root spells the tree of the map. -/
def Represents (n : Nat) (root : Option Cell) (m : Contents) : Prop :=
  ∃ t, Spelled id n t ∧ root = t.map (HmEdge.cell id n) ∧ m = HmEdge.findIn t

/-- Some cells within the limits hold the map. -/
def Holds (n : Nat) (m : Contents) : Prop := ∃ root, Represents n root m

open Classical in
/-- A call as the map sees it, which stays as it is where no cells hold the result. -/
noncomputable def specCall (n : Nat) (m : Contents) (op : Op) : Contents × Option Reply :=
  if Holds n (spec n m op).1 then ((spec n m op).1, some (spec n m op).2) else (m, none)

noncomputable def specCalls (n : Nat) (m : Contents) : List Op → Contents × List (Option Reply)
  | [] => (m, [])
  | op :: ops =>
    let rest := specCalls n (specCall n m op).1 ops
    (rest.1, (specCall n m op).2 :: rest.2)

/-! ## What a root represents -/

theorem holds_findIn_iff {n : Nat} {t : Option (HmEdge Slice)} :
    Holds n (HmEdge.findIn t) ↔ Spelled id n t := by
  constructor
  · rintro ⟨root, t', ht', -, hfind⟩
    rwa [HmEdge.findIn_injective hfind]
  · intro ht
    exact ⟨_, t, ht, rfl, rfl⟩

theorem represents_empty (n : Nat) : Represents n none fun _ => none :=
  ⟨none, nofun, rfl, rfl⟩

theorem represents_some {n : Nat} {t : HmEdge Slice} (ht : t.HasKeyLength n)
    (hfits : t.AllCells CellFits id n) : Represents n (some (t.cell id n)) t.find := by
  refine ⟨some t, ?_, rfl, rfl⟩
  rintro t' ⟨⟩
  exact ⟨ht, hfits⟩

/-- The root is the map's. -/
theorem Represents.root_eq {n : Nat} {root root' : Option Cell} {m : Contents}
    (h : Represents n root m) (h' : Represents n root' m) : root = root' := by
  obtain ⟨t, -, rfl, rfl⟩ := h
  obtain ⟨t', -, rfl, hfind⟩ := h'
  rw [HmEdge.findIn_injective hfind]

/-- The map is the root's. -/
theorem Represents.contents_eq {n : Nat} {root : Option Cell} {m m' : Contents}
    (h : Represents n root m) (h' : Represents n root m') : m = m' := by
  obtain ⟨t, ht, rfl, rfl⟩ := h
  obtain ⟨t', ht', hroot, rfl⟩ := h'
  cases t with
  | none =>
    cases t' with
    | none => rfl
    | some t' => cases hroot
  | some t =>
    cases t' with
    | none => cases hroot
    | some t' =>
      have hcell : t.cell id n = t'.cell id n := Option.some.inj hroot
      have hgrammar (t : HmEdge Slice) (ht : t.HasKeyLength n) :
          Hashmap (fun s v => s = v) n (t.cell id n).toSlice t :=
        (HmEdge.shortHashmap_cell id (fun _ => rfl) ht).hashmap
      have hspelled := hgrammar t (ht t rfl).1
      rw [hcell] at hspelled
      obtain rfl := Hashmap.unique (fun s v v' hv hv' => hv.symm.trans hv') hspelled
        (hgrammar t' (ht' t' rfl).1)
      rfl

/-! ## What a call does -/

/-- What a call leaves of what the map says: its reply and the next root, or nothing changed. -/
def Refines (n : Nat) (root : Option Cell) (m : Contents) (reply : Reply)
    (r : Option Cell × Except DictError Reply) : Prop :=
  (Represents n r.1 m ∧ r.2 = .ok reply) ∨ (¬ Holds n m ∧ r.1 = root ∧ ∃ e, r.2 = .error e)

theorem call_set {n : Nat} (hn : n ≤ maxKeyBits) {root : Option Cell} {m : Contents}
    (h : Represents n root m) (mode : SetMode) (key : List Bool) (v : Slice) :
    Refines n root (spec n m (.set mode key v)).1 (spec n m (.set mode key v)).2
      (call n root (.set mode key v)) := by
  have hsame := h
  obtain ⟨t, ht, rfl, rfl⟩ := h
  rw [spec, call, setValue, setGen]
  by_cases hkey : key.length = n
  swap
  · rw [if_neg fun hallowed => hkey hallowed.1, if_pos hkey]
    exact .inl ⟨hsame, rfl⟩
  rw [if_neg (not_not.2 hkey)]
  have hspec := dictSet_spec hn ht hkey v mode
  rw [id] at hspec
  rcases hspec with ⟨hmode, hset⟩ | ⟨hmode, hset⟩
  · rw [hset, if_neg fun hallowed => by simp [hmode] at hallowed]
    exact .inl ⟨hsame, rfl⟩
  rw [if_pos ⟨hkey, hmode⟩, ← HmEdge.find_insertIn ht.hasKeyLength hkey v]
  have hlength := HmEdge.hasKeyLength_insertIn ht.hasKeyLength hkey v
  rcases ok_or_error hset with ⟨hfits, hok⟩ | ⟨hfits, e, herror⟩
  · rw [hok]
    exact .inl ⟨represents_some hlength hfits, rfl⟩
  · rw [herror]
    refine .inr ⟨fun hholds => hfits ?_, rfl, e, rfl⟩
    exact ((holds_findIn_iff (t := some _)).1 hholds _ rfl).2

theorem call_lookupDelete {n : Nat} (hn : n ≤ maxKeyBits) {root : Option Cell} {m : Contents}
    (h : Represents n root m) (key : List Bool) :
    Refines n root (spec n m (.lookupDelete key)).1 (spec n m (.lookupDelete key)).2
      (call n root (.lookupDelete key)) := by
  have hsame := h
  obtain ⟨t, ht, rfl, rfl⟩ := h
  rw [spec, call, lookupDelete]
  cases hfind : HmEdge.findIn t key with
  | none =>
    -- nothing is deleted, and nothing is erased from the map
    have hupdate : Function.update (HmEdge.findIn t) key none = HmEdge.findIn t := by
      rw [← hfind, Function.update_eq_self]
    rw [hupdate]
    by_cases hkey : key.length = n
    · rw [if_neg (not_not.2 hkey)]
      have hnone : dictLookupDelete (t.map (HmEdge.cell id n)) key n = .ok none := by
        cases t with
        | none => rw [Option.map_none, dictLookupDelete]
        | some t =>
          have hfound : t.find key = none := hfind
          exact dictLookupDelete_none (descends_cell hn (ht t rfl).1 hkey) (by rw [hfound]; rfl)
      rw [hnone]
      exact .inl ⟨hsame, rfl⟩
    · rw [if_pos hkey]
      exact .inl ⟨hsame, rfl⟩
  | some v =>
    cases t with
    | none => cases hfind
    | some t =>
      obtain ⟨hlength, hfits⟩ := ht t rfl
      have hkey := HmEdge.length_of_find hlength hfind
      obtain ⟨r, hr⟩ := HmEdge.exists_erases hlength hfind
      have hdelete := @dictLookupDelete_cell Slice id v n t key r hr hn hfits
      rw [if_neg (not_not.2 hkey), show HmEdge.findIn (some t) = t.find from rfl, ← hr.find]
      rcases ok_or_error hdelete with ⟨hall, hok⟩ | ⟨hall, e, herror⟩
      · rw [Option.map_some, hok]
        exact .inl ⟨⟨r, fun t' ht' => ⟨hr.hasKeyLength t' ht', hall t' ht'⟩, rfl, rfl⟩, rfl⟩
      · rw [Option.map_some, herror]
        refine .inr ⟨fun hholds => hall fun t' ht' => ?_, rfl, e, rfl⟩
        exact (holds_findIn_iff.1 hholds t' ht').2

/-- A call replies what the map replies and leaves the map's next root, or it throws where there is
none. -/
theorem call_refines {n : Nat} (hn : n ≤ maxKeyBits) {root : Option Cell} {m : Contents}
    (h : Represents n root m) (op : Op) :
    Refines n root (spec n m op).1 (spec n m op).2 (call n root op) := by
  cases op with
  | lookup key =>
    have hsame := h
    obtain ⟨t, ht, rfl, rfl⟩ := h
    refine .inl ⟨hsame, ?_⟩
    rw [call, lookup_spec hn ht, Option.map_id]
    rfl
  | set mode key v => exact call_set hn h mode key v
  | lookupDelete key => exact call_lookupDelete hn h key

/-! ## Runs -/

theorem specCall_of_refines {n : Nat} {root : Option Cell} {m : Contents} {op : Op}
    (hroot : Represents n root m)
    (h : Refines n root (spec n m op).1 (spec n m op).2 (call n root op)) :
    Represents n (call n root op).1 (specCall n m op).1 ∧
      (call n root op).2.toOption = (specCall n m op).2 := by
  rw [specCall]
  rcases h with ⟨hnext, hreply⟩ | ⟨hholds, hsame, e, hreply⟩
  · rw [if_pos ⟨_, hnext⟩, hreply]
    exact ⟨hnext, rfl⟩
  · rw [if_neg hholds, hsame, hreply]
    exact ⟨hroot, rfl⟩

/-- A run of calls replies what the map replies and leaves a root that represents the map. Calls
that throw, which are those whose result no cells hold, change neither. -/
theorem calls_refine {n : Nat} (hn : n ≤ maxKeyBits) {root : Option Cell} {m : Contents}
    (h : Represents n root m) (ops : List Op) :
    Represents n (calls n root ops).1 (specCalls n m ops).1 ∧
      (calls n root ops).2.map Except.toOption = (specCalls n m ops).2 := by
  induction ops generalizing root m with
  | nil => exact ⟨h, rfl⟩
  | cons op ops ih =>
    obtain ⟨hnext, hreply⟩ := specCall_of_refines h (call_refines hn h op)
    obtain ⟨hlast, hreplies⟩ := ih hnext
    refine ⟨hlast, ?_⟩
    rw [calls, specCalls, List.map_cons, hreply, hreplies]

/-- A key that is set, and one of the wrong length. -/
theorem calls_refine_sample :
    Represents 2 (calls 2 none [.set .set [true, false] ⟨[true], []⟩, .lookup [true]]).1
        (specCalls 2 (fun _ => none) [.set .set [true, false] ⟨[true], []⟩, .lookup [true]]).1 ∧
      (calls 2 none [.set .set [true, false] ⟨[true], []⟩, .lookup [true]]).2.map
          Except.toOption =
        (specCalls 2 (fun _ => none) [.set .set [true, false] ⟨[true], []⟩, .lookup [true]]).2 :=
  calls_refine (by decide) (represents_empty 2) _

/-- Two runs leave the same root exactly when they leave the same map: the root does not tell in
which order keys were set, nor which keys were there in between. -/
theorem root_eq_iff {n : Nat} (hn : n ≤ maxKeyBits) (ops ops' : List Op) :
    (calls n none ops).1 = (calls n none ops').1 ↔
      (specCalls n (fun _ => none) ops).1 = (specCalls n (fun _ => none) ops').1 := by
  obtain ⟨h, -⟩ := calls_refine hn (represents_empty n) ops
  obtain ⟨h', -⟩ := calls_refine hn (represents_empty n) ops'
  constructor
  · intro heq
    rw [heq] at h
    exact h.contents_eq h'
  · intro heq
    rw [heq] at h
    exact h.root_eq h'

/-- A key that is set and deleted leaves no trace. -/
theorem root_eq_iff_sample :
    (calls 2 none [.set .set [true, false] ⟨[true], []⟩, .set .add [true, true] ⟨[], []⟩,
        .lookupDelete [true, true]]).1 =
        (calls 2 none [.set .set [true, false] ⟨[true], []⟩]).1 ↔
      (specCalls 2 (fun _ => none) [.set .set [true, false] ⟨[true], []⟩,
        .set .add [true, true] ⟨[], []⟩, .lookupDelete [true, true]]).1 =
        (specCalls 2 (fun _ => none) [.set .set [true, false] ⟨[true], []⟩]).1 :=
  root_eq_iff (by decide) _ _

/-! ## Room -/

/-- A value that is set leaves room for its key. -/
def Op.Room (n : Nat) : Op → Prop
  | .set _ _ v => Dict.Room n v
  | _ => True

/-- A run as the map sees it that has no limits. -/
def specRun (n : Nat) (m : Contents) : List Op → Contents × List Reply
  | [] => (m, [])
  | op :: ops =>
    let rest := specRun n (spec n m op).1 ops
    (rest.1, (spec n m op).2 :: rest.2)

/-- The values of the map leave room for their keys. -/
def RoomIn (n : Nat) (m : Contents) : Prop := ∀ key v, m key = some v → Room n v

theorem roomIn_spec {n : Nat} {m : Contents} (h : RoomIn n m) {op : Op} (hop : op.Room n) :
    RoomIn n (spec n m op).1 := by
  have hupdate (key : List Bool) (x : Option Slice) (hx : ∀ v, x = some v → Room n v) :
      RoomIn n (Function.update m key x) := by
    intro key' v hv
    by_cases hk : key' = key
    · subst hk
      rw [Function.update_self] at hv
      exact hx v hv
    · rw [Function.update_of_ne hk] at hv
      exact h key' v hv
  cases op with
  | lookup key => exact h
  | set mode key v =>
    rw [spec]
    split
    · exact hupdate key (some v) fun w hw => Option.some.inj hw ▸ hop
    · exact h
  | lookupDelete key => exact hupdate key none nofun

/-- A call leaves the map of a tree, whether cells hold it or not. -/
theorem exists_tree_spec {n : Nat} {t : Option (HmEdge Slice)} (ht : Spelled id n t) (op : Op) :
    ∃ t' : Option (HmEdge Slice), (∀ t'', t' = some t'' → t''.HasKeyLength n) ∧
      (spec n (HmEdge.findIn t) op).1 = HmEdge.findIn t' := by
  have hsame : ∀ t'', t = some t'' → t''.HasKeyLength n := fun t'' h => (ht t'' h).1
  cases op with
  | lookup key => exact ⟨t, hsame, rfl⟩
  | set mode key v =>
    rw [spec]
    split
    · next hallowed =>
      refine ⟨some (HmEdge.insertIn key v t), ?_,
        (HmEdge.find_insertIn ht.hasKeyLength hallowed.1 v).symm⟩
      rintro t' ⟨⟩
      exact HmEdge.hasKeyLength_insertIn ht.hasKeyLength hallowed.1 v
    · exact ⟨t, hsame, rfl⟩
  | lookupDelete key =>
    show ∃ t' : Option (HmEdge Slice), _ ∧
      Function.update (HmEdge.findIn t) key none = HmEdge.findIn t'
    cases hfind : HmEdge.findIn t key with
    | none => exact ⟨t, hsame, by rw [← hfind, Function.update_eq_self]⟩
    | some v =>
      cases t with
      | none => cases hfind
      | some t =>
        obtain ⟨r, hr⟩ := HmEdge.exists_erases (ht t rfl).1 hfind
        exact ⟨r, hr.hasKeyLength, hr.find.symm⟩

theorem holds_spec_of_room {n : Nat} {root : Option Cell} {m : Contents}
    (h : Represents n root m) {op : Op} (hroom : RoomIn n (spec n m op).1) :
    Holds n (spec n m op).1 := by
  obtain ⟨t, ht, rfl, rfl⟩ := h
  obtain ⟨t', hlength, hspec⟩ := exists_tree_spec ht op
  rw [hspec] at hroom ⊢
  apply holds_findIn_iff.2
  intro t'' ht'
  refine ⟨hlength t'' ht', (allCells_of_room (Nat.le_refl n) (hlength t'' ht') ?_).1⟩
  subst ht'
  exact fun e he => hroom e.1 e.2 (HmEdge.mem_entries_iff.1 he)

/-- Where the values that are set leave room for their keys, no call throws. -/
theorem calls_of_room {n : Nat} (hn : n ≤ maxKeyBits) {root : Option Cell} {m : Contents}
    (h : Represents n root m) (hm : RoomIn n m) {ops : List Op} (hops : ∀ op ∈ ops, op.Room n) :
    Represents n (calls n root ops).1 (specRun n m ops).1 ∧
      (calls n root ops).2 = (specRun n m ops).2.map .ok := by
  induction ops generalizing root m with
  | nil => exact ⟨h, rfl⟩
  | cons op ops ih =>
    rw [List.forall_mem_cons] at hops
    have hroom := roomIn_spec hm hops.1
    rcases call_refines hn h op with ⟨hnext, hreply⟩ | ⟨hholds, -⟩
    · obtain ⟨hlast, hreplies⟩ := ih hnext hroom hops.2
      refine ⟨hlast, ?_⟩
      rw [calls, specRun, List.map_cons, hreply, hreplies]
    · exact absurd (holds_spec_of_room h hroom) hholds

/-- A key that is there is not added, and it is not there once it was deleted. -/
theorem calls_of_room_sample :
    (calls 2 none [.set .set [true, false] ⟨[true], []⟩, .set .add [true, false] ⟨[false], []⟩,
        .lookupDelete [true, false], .lookup [true, false]]).2 =
      [.ok (.changed true), .ok (.changed false), .ok (.value (some ⟨[true], []⟩)),
        .ok (.value none)] := by
  have hlen : lenBits 2 ≤ 10 := lenBits_le_ten (by decide)
  have hroom (b : Bool) : Room 2 ⟨[b], []⟩ := by
    refine ⟨?_, Nat.zero_le _, by simp [maxDepth]⟩
    simp only [List.length_singleton, maxBits]
    omega
  refine (calls_of_room (n := 2) (by decide) (represents_empty 2)
    (fun _ _ h => by cases h) ?_).2.trans rfl
  simp [Op.Room, hroom]

end Vm.Dict
