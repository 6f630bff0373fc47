import TopWallets.Lib.HashmapTree
import Mathlib.Logic.Function.Basic

/- Prefix trees as finite maps: what a key is mapped to, and erasure.

   `find` reads the entries of a tree. Main results: an insertion updates the map at
   its key (`HmEdge.Inserts.find`), so does an erasure (`HmEdge.Erases.find`), which
   there is for every key that is found (`HmEdge.exists_erases`); and a tree is
   determined by its map (`HmEdge.eq_of_find`). -/
namespace HmEdge
variable {α : Type}

/-- What a key is mapped to. -/
def find (t : HmEdge α) (key : List Bool) : Option α := t.entries.lookup key

/-- The same of a tree that may be missing. -/
def findIn : Option (HmEdge α) → List Bool → Option α
  | none, _ => none
  | some t, key => t.find key

/-! ## The entries under a label -/

theorem lookup_under (s : List Bool) (b : Bool) (k : List Bool) (es : List (List Bool × α)) :
    (under s b es).lookup (s ++ b :: k) = es.lookup k := by
  induction es with
  | nil => rfl
  | cons e es ih =>
    have hbeq : (s ++ b :: k == s ++ b :: e.1) = (k == e.1) := by
      rw [Bool.eq_iff_iff]
      simp
    rw [under, List.map_cons, List.lookup_cons, List.lookup_cons, hbeq]
    cases k == e.1
    · exact ih
    · rfl

theorem lookup_under_of_ne {s key : List Bool} {b : Bool} (h : ∀ k, key ≠ s ++ b :: k)
    (es : List (List Bool × α)) : (under s b es).lookup key = none := by
  rw [List.lookup_eq_none_iff]
  intro e he
  obtain ⟨e', -, rfl⟩ := List.mem_map.1 he
  simpa using h e'.1

@[simp] theorem find_leaf (s : List Bool) (v : α) (key : List Bool) :
    (leaf s v).find key = if key = s then some v else none := by
  by_cases h : key = s
  · simp [find, entries, h]
  · rw [if_neg h, find, entries, List.lookup_cons, beq_false_of_ne h]
    rfl

theorem find_forkOn_eq (s : List Bool) (c : Bool) (t t' : HmEdge α) (key : List Bool) :
    (forkOn s c t t').find key =
      ((under s c t.entries).lookup key).or ((under s (!c) t'.entries).lookup key) := by
  have hside (b : Bool) (x : HmEdge α) (h : key.getD s.length false ≠ b) :
      (under s b x.entries).lookup key = none := by
    apply lookup_under_of_ne
    rintro k rfl
    exact h (getD_append_cons s b k)
  cases c
  · exact List.lookup_append
  · -- the entries of the left side stand first
    show ((under s false t'.entries) ++ (under s true t.entries)).lookup key = _
    rw [List.lookup_append]
    by_cases hbit : key.getD s.length false = false
    · rw [hside true t (by rw [hbit]; decide)]
      simp
    · rw [hside false t' hbit]
      simp [hside false t' hbit]

@[simp] theorem find_forkOn (s : List Bool) (c : Bool) (t t' : HmEdge α) (k : List Bool) :
    (forkOn s c t t').find (s ++ c :: k) = t.find k := by
  have hother : (under s (!c) t'.entries).lookup (s ++ c :: k) = none := by
    apply lookup_under_of_ne
    simp
  rw [find_forkOn_eq, lookup_under, hother, Option.or_none]
  rfl

@[simp] theorem find_forkOn_not (s : List Bool) (c : Bool) (t t' : HmEdge α) (k : List Bool) :
    (forkOn s c t t').find (s ++ (!c) :: k) = t'.find k := by
  have hother : (under s c t.entries).lookup (s ++ (!c) :: k) = none := by
    apply lookup_under_of_ne
    simp
  rw [find_forkOn_eq, lookup_under, hother, Option.none_or]
  rfl

theorem find_forkOn_of_ne {s key : List Bool} (h : ∀ b k, key ≠ s ++ b :: k) (c : Bool)
    (t t' : HmEdge α) : (forkOn s c t t').find key = none := by
  rw [find_forkOn_eq, lookup_under_of_ne (h c), lookup_under_of_ne (h !c)]
  rfl

/-- A key goes on with a bit behind a label, with the other one, or it has not all of the label. -/
theorem key_cases (s : List Bool) (c : Bool) (key : List Bool) :
    (∃ k, key = s ++ c :: k) ∨ (∃ k, key = s ++ (!c) :: k) ∨ ∀ b k, key ≠ s ++ b :: k := by
  by_cases h : ∃ b k, key = s ++ b :: k
  · obtain ⟨b, k, rfl⟩ := h
    rcases Bool.eq_or_eq_not b c with rfl | rfl
    · exact .inl ⟨k, rfl⟩
    · exact .inr (.inl ⟨k, rfl⟩)
  · push Not at h
    exact .inr (.inr h)

/-- What changes below a fork changes behind its label. -/
theorem find_forkOn_update {s k : List Bool} {c : Bool} {t t' : HmEdge α} {x : Option α}
    (h : t'.find = Function.update t.find k x) (other : HmEdge α) :
    (forkOn s c t' other).find =
      Function.update (forkOn s c t other).find (s ++ c :: k) x := by
  funext key
  rcases key_cases s c key with ⟨k', rfl⟩ | ⟨k', rfl⟩ | hne
  · by_cases hk : k' = k
    · subst hk
      simp [h]
    · rw [Function.update_of_ne (by simpa using hk), find_forkOn, find_forkOn, h,
        Function.update_of_ne hk]
  · rw [Function.update_of_ne (by simp), find_forkOn_not, find_forkOn_not]
  · rw [Function.update_of_ne (hne c k), find_forkOn_of_ne hne, find_forkOn_of_ne hne]

/-- A tree under a shorter label finds what the tree found behind the rest. -/
theorem find_of_label {t : HmEdge α} {q : List Bool} {b : Bool} {s' : List Bool}
    (hlabel : t.label = q ++ b :: s') :
    (∀ k, t.find (q ++ b :: k) = (t.withLabel s').find k) ∧
      ∀ key, (∀ k, key ≠ q ++ b :: k) → t.find key = none := by
  have hentries := under_withLabel hlabel
  constructor
  · intro k
    rw [find, ← hentries]
    exact lookup_under q b k _
  · intro key h
    rw [find, ← hentries]
    exact lookup_under_of_ne h _

/-! ## Insertion -/

/-- An insertion updates the map at its key. -/
theorem Inserts.find {v : α} {n : Nat} {t t' : HmEdge α} {key : List Bool}
    (h : Inserts v n t key t') : t'.find = Function.update t.find key (some v) := by
  induction h with
  | @parts m t q s' k' b hlabel _ _ =>
    obtain ⟨hbelow, hnone⟩ := find_of_label hlabel
    funext key
    rcases key_cases q (!b) key with ⟨k, rfl⟩ | ⟨k, rfl⟩ | hne
    · rw [find_forkOn, find_leaf]
      by_cases hk : k = k'
      · simp [hk]
      · rw [if_neg hk, Function.update_of_ne (by simpa using hk), hnone _ (by simp)]
    · rw [find_forkOn_not, Function.update_of_ne (by simp), Bool.not_not, hbelow]
    · rw [find_forkOn_of_ne hne, Function.update_of_ne (hne _ _), hnone _ (hne b)]
  | @replace key w =>
    funext key'
    by_cases hk : key' = key
    · simp [hk]
    · simp [hk]
  | inFork _ _ _ _ ih => exact find_forkOn_update ih _

/-- The tree with a key set, also where there was none. -/
def insertIn (key : List Bool) (v : α) : Option (HmEdge α) → HmEdge α
  | none => leaf key v
  | some t => t.insert key v

theorem hasKeyLength_insertIn {n : Nat} {t : Option (HmEdge α)}
    (ht : ∀ t', t = some t' → t'.HasKeyLength n) {key : List Bool} (hkey : key.length = n) (v : α) :
    (insertIn key v t).HasKeyLength n := by
  cases t with
  | none => exact hkey
  | some t => exact (inserts_insert (ht t rfl) hkey v).hasKeyLength

theorem find_insertIn {n : Nat} {t : Option (HmEdge α)}
    (ht : ∀ t', t = some t' → t'.HasKeyLength n) {key : List Bool} (hkey : key.length = n) (v : α) :
    (insertIn key v t).find = Function.update (findIn t) key (some v) := by
  cases t with
  | none =>
    funext key'
    by_cases hk : key' = key
    · simp [insertIn, hk]
    · simp [insertIn, hk, findIn]
  | some t => exact (inserts_insert (ht t rfl) hkey v).find

/-! ## Erasure -/

/-- `Erases v n t key r`: `r` is `t` without its key `key`, which was mapped to `v`. A leaf leaves
nothing; a fork with a leaf becomes its other side, under a label as long as both. -/
inductive Erases (v : α) : Nat → HmEdge α → List Bool → Option (HmEdge α) → Prop where
  | leaf {key : List Bool} : Erases v key.length (leaf key v) key none
  | merge {m : Nat} {s k : List Bool} {c : Bool} {other : HmEdge α} :
      other.HasKeyLength m → k.length = m →
      Erases v (s.length + (m + 1)) (forkOn s c (leaf k v) other) (s ++ c :: k)
        (some (other.withLabel (s ++ (!c) :: other.label)))
  | inFork {m : Nat} {s k : List Bool} {c : Bool} {t t' other : HmEdge α} :
      t.HasKeyLength m → other.HasKeyLength m → k.length = m → Erases v m t k (some t') →
      Erases v (s.length + (m + 1)) (forkOn s c t other) (s ++ c :: k)
        (some (forkOn s c t' other))

theorem withLabel_withLabel (t : HmEdge α) (s s' : List Bool) :
    (t.withLabel s).withLabel s' = t.withLabel s' := by
  cases t <;> rfl

theorem withLabel_label (t : HmEdge α) : t.withLabel t.label = t := by
  cases t <;> rfl

namespace Erases
variable {v : α} {n : Nat} {t : HmEdge α} {key : List Bool} {r : Option (HmEdge α)}

theorem hasKeyLength (h : Erases v n t key r) : ∀ t', r = some t' → t'.HasKeyLength n := by
  induction h with
  | leaf => nofun
  | @merge m s k c other hother hk =>
    rintro t' ⟨⟩
    cases other with
    | leaf s' w =>
      have hs' : s'.length = m := hother
      show (s ++ (!c) :: s').length = _
      simp [hs']
    | fork s' l r =>
      obtain ⟨j, rfl, hl, hr⟩ := hother
      refine ⟨j, ?_, hl, hr⟩
      show _ = (s ++ (!c) :: s').length + (j + 1)
      simp only [List.length_append, List.length_cons]
      omega
  | inFork _ hother _ _ ih =>
    rintro t' ⟨⟩
    exact hasKeyLength_forkOn (ih _ rfl) hother

/-- An erasure updates the map at its key. -/
theorem find (h : Erases v n t key r) : findIn r = Function.update t.find key none := by
  induction h with
  | @leaf key =>
    funext key'
    show none = _
    by_cases hk : key' = key
    · simp [hk]
    · simp [hk]
  | @merge m s k c other _ _ =>
    have hlabel : (other.withLabel (s ++ (!c) :: other.label)).label =
        s ++ (!c) :: other.label := label_withLabel ..
    obtain ⟨hbelow, hnone⟩ := find_of_label hlabel
    rw [withLabel_withLabel, withLabel_label] at hbelow
    funext key
    show (other.withLabel _).find key = _
    rcases key_cases s c key with ⟨k', rfl⟩ | ⟨k', rfl⟩ | hne
    · rw [hnone _ (by simp)]
      by_cases hk : k' = k
      · simp [hk]
      · rw [Function.update_of_ne (by simpa using hk), find_forkOn, find_leaf, if_neg hk]
    · rw [hbelow, Function.update_of_ne (by simp), find_forkOn_not]
    · rw [hnone _ (hne _), Function.update_of_ne (hne c k), find_forkOn_of_ne hne]
  | inFork _ _ _ _ ih => exact find_forkOn_update ih _

end Erases

theorem length_of_mem_entries {n : Nat} {t : HmEdge α} (ht : t.HasKeyLength n) :
    ∀ e ∈ t.entries, e.1.length = n := by
  induction t generalizing n with
  | leaf s v =>
    intro e he
    rw [List.mem_singleton.1 he]
    exact ht
  | fork s l r ihl ihr =>
    obtain ⟨m, rfl, hl, hr⟩ := ht
    intro e he
    rcases List.mem_append.1 he with he | he
    · obtain ⟨e', he', rfl⟩ := List.mem_map.1 he
      simp [ihl hl e' he']
    · obtain ⟨e', he', rfl⟩ := List.mem_map.1 he
      simp [ihr hr e' he']

theorem mem_entries_iff {t : HmEdge α} {key : List Bool} {v : α} :
    (key, v) ∈ t.entries ↔ t.find key = some v := by
  have hnodup := t.nodup_keys
  rw [find]
  generalize t.entries = es at hnodup
  induction es with
  | nil => simp
  | cons e es ih =>
    rw [List.map_cons, List.nodup_cons] at hnodup
    rw [List.mem_cons, List.lookup_cons]
    by_cases hkey : key = e.1
    · subst hkey
      have hnot : (e.1, v) ∉ es := fun hmem => hnodup.1 (List.mem_map.2 ⟨_, hmem, rfl⟩)
      simp [hnot, Prod.ext_iff, eq_comm]
    · have hne : (key, v) ≠ e := fun heq => hkey (congrArg Prod.fst heq)
      rw [beq_false_of_ne hkey, or_iff_right hne]
      exact ih hnodup.2

theorem length_of_find {n : Nat} {t : HmEdge α} (ht : t.HasKeyLength n) {key : List Bool} {v : α}
    (h : t.find key = some v) : key.length = n :=
  length_of_mem_entries ht (key, v) (mem_entries_iff.2 h)

theorem hasKeyLength_of_hashmap {X : Slice → α → Prop} {n : Nat} {c : Slice} {t : HmEdge α}
    (h : Hashmap X n c t) : t.HasKeyLength n := by
  induction h with
  | leaf _ hlen _ => exact hlen
  | fork _ hn _ _ ihl ihr => exact ⟨_, hn, ihl, ihr⟩

/-- Every key that is found can be erased. -/
theorem exists_erases {n : Nat} {t : HmEdge α} (ht : t.HasKeyLength n) {key : List Bool} {v : α}
    (h : t.find key = some v) : ∃ r, Erases v n t key r := by
  induction t generalizing n key with
  | leaf s w =>
    obtain rfl : s.length = n := ht
    rw [find_leaf] at h
    obtain ⟨rfl, hv⟩ := Option.ite_some_none_eq_some.1 h
    subst hv
    exact ⟨none, .leaf⟩
  | fork s l r ihl ihr =>
    obtain ⟨m, rfl, hl, hr⟩ := ht
    -- the side that the key goes on into, and the other one
    have hside {c : Bool} {t other : HmEdge α} {k : List Bool} (ht : t.HasKeyLength m)
        (hother : other.HasKeyLength m) (hfind : t.find k = some v)
        (ih : ∃ r, Erases v m t k r) :
        ∃ r, Erases v (s.length + (m + 1)) (forkOn s c t other) (s ++ c :: k) r := by
      have hk := length_of_find ht hfind
      obtain ⟨r, hr⟩ := ih
      cases r with
      | none =>
        cases hr
        exact ⟨_, .merge hother rfl⟩
      | some t' => exact ⟨_, .inFork ht hother hk hr⟩
    rcases key_cases s false key with ⟨k, rfl⟩ | ⟨k, rfl⟩ | hne
    · have hfind : l.find k = some v := (find_forkOn s false l r k).symm.trans h
      exact hside (c := false) hl hr hfind (ihl hl hfind)
    · have hfind : r.find k = some v := (find_forkOn s true r l k).symm.trans h
      exact hside (c := true) hr hl hfind (ihr hr hfind)
    · have hnone : (fork s l r).find key = none := find_forkOn_of_ne hne false l r
      rw [hnone] at h
      cases h

/-- Two trees with the same map are the same. -/
theorem eq_of_find {t t' : HmEdge α} (h : t.find = t'.find) : t = t' := by
  apply eq_of_perm_entries
  rw [List.perm_ext_iff_of_nodup t.nodup_keys.of_map t'.nodup_keys.of_map]
  rintro ⟨key, v⟩
  rw [mem_entries_iff, mem_entries_iff, h]

/-- A tree maps some key. -/
theorem exists_find (t : HmEdge α) : ∃ key v, t.find key = some v := by
  obtain ⟨e, he⟩ := List.exists_mem_of_ne_nil _ t.entries_ne_nil
  exact ⟨e.1, e.2, mem_entries_iff.1 he⟩

theorem findIn_injective {t t' : Option (HmEdge α)} (h : findIn t = findIn t') : t = t' := by
  have hfound (t : HmEdge α) : findIn (none : Option (HmEdge α)) ≠ t.find := by
    intro heq
    obtain ⟨key, v, hv⟩ := t.exists_find
    rw [← heq] at hv
    cases hv
  cases t with
  | none =>
    cases t' with
    | none => rfl
    | some t' => exact absurd h (hfound t')
  | some t =>
    cases t' with
    | none => exact absurd h.symm (hfound t)
    | some t' => exact congrArg some (eq_of_find h)

theorem findIn_of_length_ne {n : Nat} {t : Option (HmEdge α)}
    (ht : ∀ t', t = some t' → t'.HasKeyLength n) {key : List Bool} (hkey : key.length ≠ n) :
    findIn t key = none := by
  cases t with
  | none => rfl
  | some t =>
    cases hfind : t.find key with
    | none => exact hfind
    | some v => exact absurd (length_of_find (ht t rfl) hfind) hkey

end HmEdge
