import TopWallets.Lib.Hashmap

/- Prefix trees as values: the shortest label, insertion, and the cell of a tree.

   Main results: no code of a label is shorter than `HmLabel.shortest`
   (`HmLabel.length_shortest_le`); inserting a new key adds its entry
   (`HmEdge.entries_insert`); and a tree is determined by its entries in any order
   (`HmEdge.eq_of_perm_entries`), so what is left of a run of insertions does not
   depend on their order. -/

/-! ## The shortest label -/

namespace HmLabel

/-- A shortest code of a label: of codes of one length the short form goes before the long one, and
that before the form of equal bits. -/
def shortest (m : Nat) (s : List Bool) : List Bool :=
  if 1 < s.length ∧ lenBits m < 2 * s.length - 1 ∧ s = List.replicate s.length (s.headD false) then
    true :: true :: s.headD false :: BitField.ofNat (lenBits m) s.length
  else if lenBits m < s.length then
    true :: false :: (BitField.ofNat (lenBits m) s.length ++ s)
  else false :: (List.replicate s.length true ++ false :: s)

variable {m : Nat} {s code : List Bool}

theorem hmLabel_shortest (h : s.length ≤ m) : HmLabel m s (shortest m s) := by
  unfold shortest
  split
  · next hsame =>
    have hlabel := HmLabel.same (v := s.headD false) h
    rwa [← hsame.2.2] at hlabel
  · split
    · exact .long h
    · exact .short h

theorem length_shortest (m : Nat) (s : List Bool) :
    (shortest m s).length =
      if 1 < s.length ∧ lenBits m < 2 * s.length - 1 ∧
          s = List.replicate s.length (s.headD false) then 3 + lenBits m
      else if lenBits m < s.length then 2 + lenBits m + s.length else 2 + 2 * s.length := by
  unfold shortest
  split
  · simp only [List.length_cons, BitField.length_ofNat]
    omega
  · split
    · simp only [List.length_cons, List.length_append, BitField.length_ofNat]
      omega
    · simp only [List.length_cons, List.length_append, List.length_replicate]
      omega

/-- No label is written longer than in its long form. -/
theorem length_shortest_le_long (m : Nat) (s : List Bool) :
    (shortest m s).length ≤ 2 + lenBits m + s.length := by
  rw [length_shortest]
  split
  · omega
  · split <;> omega

theorem lenBits_pos (h : 0 < m) : 0 < lenBits m := Nat.clog_pos (by decide) (by omega)

theorem lenBits_le {n : Nat} (h : m ≤ n) : lenBits m ≤ lenBits n :=
  Nat.clog_mono_right 2 (by omega)

/-- No code of a label is shorter. -/
theorem length_shortest_le (h : HmLabel m s code) : (shortest m s).length ≤ code.length := by
  have hlong := length_shortest_le_long m s
  have hle := h.length_le
  cases h with
  | long _ =>
    simp only [List.length_cons, List.length_append, BitField.length_ofNat]
    omega
  | short _ =>
    rw [length_shortest]
    simp only [List.length_cons, List.length_append, List.length_replicate]
    split
    · omega
    · split <;> omega
  | @same v n _ =>
    rw [List.length_replicate] at hle
    have hpos : 0 < n → 0 < lenBits m := fun h0 => lenBits_pos (by omega)
    have hconst : List.replicate n v = List.replicate n ((List.replicate n v).headD false) := by
      cases n <;> rfl
    rw [length_shortest]
    simp only [List.length_replicate, ← hconst, and_true, List.length_cons, BitField.length_ofNat]
    split
    · omega
    · split <;> omega

/-- A code of a label of which no other code is shorter. -/
def IsShortest (m : Nat) (s code : List Bool) : Prop :=
  HmLabel m s code ∧ ∀ code', HmLabel m s code' → code.length ≤ code'.length

theorem isShortest_shortest (h : s.length ≤ m) : IsShortest m s (shortest m s) :=
  ⟨hmLabel_shortest h, fun _ => length_shortest_le⟩

end HmLabel

/-- `ShortHashmap X n c t`: the slice `c` spells the tree `t`, with a shortest label on every
edge. -/
inductive ShortHashmap {α : Type} (X : Slice → α → Prop) : Nat → Slice → HmEdge α → Prop where
  | leaf {n : Nat} {s code rest : List Bool} {refs : List Cell} {v : α} :
      HmLabel.IsShortest n s code → s.length = n → X ⟨rest, refs⟩ v →
      ShortHashmap X n ⟨code ++ rest, refs⟩ (.leaf s v)
  | fork {n m : Nat} {s code : List Bool} {left right : Cell} {l r : HmEdge α} :
      HmLabel.IsShortest n s code → n = s.length + (m + 1) →
      ShortHashmap X m left.toSlice l → ShortHashmap X m right.toSlice r →
      ShortHashmap X n ⟨code, [left, right]⟩ (.fork s l r)

theorem ShortHashmap.hashmap {α : Type} {X : Slice → α → Prop} {n : Nat} {c : Slice} {t : HmEdge α}
    (h : ShortHashmap X n c t) : Hashmap X n c t := by
  induction h with
  | leaf hlabel hlen hv => exact .leaf hlabel.1 hlen hv
  | fork hlabel hn _ _ ihl ihr => exact .fork hlabel.1 hn ihl ihr

/-! ## Common prefixes -/

/-- The number of bits two bit strings have in common at the start. -/
def commonLength : List Bool → List Bool → Nat
  | a :: as, b :: bs => if a = b then commonLength as bs + 1 else 0
  | _, _ => 0

theorem commonLength_append (s k : List Bool) : commonLength s (s ++ k) = s.length := by
  induction s with
  | nil => simp [commonLength]
  | cons a s ih => rw [List.cons_append, commonLength, if_pos rfl, ih, List.length_cons]

theorem commonLength_take (s k : List Bool) :
    commonLength s (k.take s.length) = commonLength s k := by
  induction s generalizing k with
  | nil => simp [commonLength]
  | cons a s ih =>
    cases k with
    | nil => rfl
    | cons b k => rw [List.length_cons, List.take_succ_cons, commonLength, commonLength, ih]

theorem commonLength_parts (q : List Bool) (b : Bool) (s k : List Bool) :
    commonLength (q ++ b :: s) (q ++ (!b) :: k) = q.length := by
  induction q with
  | nil => cases b <;> rfl
  | cons a q ih =>
    rw [List.cons_append, List.cons_append, commonLength, if_pos rfl, ih, List.length_cons]

/-- A bit string is a prefix of one that is not shorter, or the two part. -/
theorem prefix_or_parts {s k : List Bool} (h : s.length ≤ k.length) :
    s <+: k ∨ ∃ q b s' k', s = q ++ b :: s' ∧ k = q ++ (!b) :: k' := by
  induction s generalizing k with
  | nil => exact .inl List.nil_prefix
  | cons a s ih =>
    cases k with
    | nil => simp at h
    | cons c k =>
      by_cases hac : a = c
      · subst hac
        rcases ih (by simpa using h) with hpre | ⟨q, b, s', k', rfl, rfl⟩
        · exact .inl ((List.prefix_cons_inj a).2 hpre)
        · exact .inr ⟨a :: q, b, s', k', rfl, rfl⟩
      · obtain rfl : c = !a := by cases a <;> cases c <;> simp_all
        exact .inr ⟨[], a, s, k, rfl, rfl⟩

/-! ## Insertion -/

namespace HmEdge
variable {α : Type}

/-- A fork with one tree on the side of a bit and another one on the other side. -/
def forkOn (s : List Bool) (b : Bool) (t t' : HmEdge α) : HmEdge α :=
  if b then fork s t' t else fork s t t'

/-- The tree under another label. -/
def withLabel : HmEdge α → List Bool → HmEdge α
  | leaf _ v, s => leaf s v
  | fork _ l r, s => fork s l r

/-- The tree with a key set to a value. -/
def insert : HmEdge α → List Bool → α → HmEdge α
  | leaf s w, key, v =>
    let p := commonLength s key
    if p < s.length then
      forkOn (key.take p) (key.getD p false) (leaf (key.drop (p + 1)) v) (leaf (s.drop (p + 1)) w)
    else leaf key v
  | fork s l r, key, v =>
    let p := commonLength s key
    if p < s.length then
      forkOn (key.take p) (key.getD p false) (leaf (key.drop (p + 1)) v) (fork (s.drop (p + 1)) l r)
    else if key.getD s.length false then fork s l (r.insert (key.drop (s.length + 1)) v)
    else fork s (l.insert (key.drop (s.length + 1)) v) r

/-! What an insertion does, case by case. -/

theorem length_label_le {n : Nat} {t : HmEdge α} (ht : t.HasKeyLength n) : t.label.length ≤ n := by
  cases t with
  | leaf s v => exact Nat.le_of_eq ht
  | fork s l r =>
    obtain ⟨m, rfl, -⟩ := ht
    exact Nat.le_add_right _ _

/-- `Inserts v n t key t'`: `t'` is `t` with `key` set to `v`. The key parts from the label and gets
a fork of its own, it is the key of the leaf, or it goes on below the fork. -/
inductive Inserts (v : α) : Nat → HmEdge α → List Bool → HmEdge α → Prop where
  | parts {m : Nat} {t : HmEdge α} {q s' k' : List Bool} {b : Bool} :
      t.label = q ++ b :: s' → t.HasKeyLength (q.length + (m + 1)) → k'.length = m →
      Inserts v (q.length + (m + 1)) t (q ++ (!b) :: k')
        (forkOn q (!b) (leaf k' v) (t.withLabel s'))
  | replace {key : List Bool} {w : α} : Inserts v key.length (leaf key w) key (leaf key v)
  | inFork {m : Nat} {s k : List Bool} {c : Bool} {t t' other : HmEdge α} :
      t.HasKeyLength m → other.HasKeyLength m → k.length = m → Inserts v m t k t' →
      Inserts v (s.length + (m + 1)) (forkOn s c t other) (s ++ c :: k) (forkOn s c t' other)

theorem drop_append_cons (q : List Bool) (b : Bool) (k : List Bool) :
    (q ++ b :: k).drop (q.length + 1) = k := by
  rw [← List.drop_drop, List.drop_left, List.drop_one, List.tail_cons]

theorem getD_append_cons (q : List Bool) (b : Bool) (k : List Bool) :
    (q ++ b :: k).getD q.length false = b := by
  simp

theorem inserts_of_parts {n : Nat} {t : HmEdge α} (ht : t.HasKeyLength n) {q s' k' : List Bool}
    {b : Bool} (hlabel : t.label = q ++ b :: s') (hkey : (q ++ (!b) :: k').length = n) (v : α) :
    Inserts v n t (q ++ (!b) :: k') (t.insert (q ++ (!b) :: k') v) := by
  have hinsert : t.insert (q ++ (!b) :: k') v =
      forkOn q (!b) (leaf k' v) (t.withLabel s') := by
    have hlt : q.length < (q ++ b :: s').length := by simp
    cases t <;>
      · obtain rfl := hlabel
        simp only [insert, commonLength_parts, if_pos hlt, List.take_left, getD_append_cons,
          drop_append_cons, withLabel]
  rw [List.length_append, List.length_cons] at hkey
  subst hkey
  rw [hinsert]
  exact .parts hlabel ht rfl

theorem inserts_insert {n : Nat} {t : HmEdge α} (ht : t.HasKeyLength n) {key : List Bool}
    (hkey : key.length = n) (v : α) : Inserts v n t key (t.insert key v) := by
  induction t generalizing n key with
  | leaf s w =>
    rcases prefix_or_parts ((length_label_le ht).trans_eq hkey.symm) with
      hpre | ⟨q, b, s', k', hs, rfl⟩
    · have hs : s.length = n := ht
      obtain rfl : s = key := hpre.eq_of_length (hs.trans hkey.symm)
      -- a label that is all of the key is the key
      have hself := commonLength_append s []
      rw [List.append_nil] at hself
      subst hkey
      simp only [insert, hself, if_neg (Nat.lt_irrefl _)]
      exact .replace
    · exact inserts_of_parts ht hs hkey v
  | fork s l r ihl ihr =>
    rcases prefix_or_parts ((length_label_le ht).trans_eq hkey.symm) with
      ⟨k', hk⟩ | ⟨q, b, s', k', hs, rfl⟩
    · obtain ⟨m, rfl, hl, hr⟩ := ht
      obtain rfl : s ++ k' = key := hk
      rw [List.length_append] at hkey
      cases k' with
      | nil => rw [List.length_nil] at hkey; omega
      | cons c k =>
        have hklen : k.length = m := by rw [List.length_cons] at hkey; omega
        simp only [insert, commonLength_append, if_neg (Nat.lt_irrefl _), getD_append_cons,
          drop_append_cons]
        cases c
        · exact .inFork (s := s) (c := false) hl hr hklen (ihl hl hklen)
        · exact .inFork (s := s) (c := true) hr hl hklen (ihr hr hklen)
    · exact inserts_of_parts ht hs hkey v

/-! The entries of a tree after an insertion. -/

/-- The entries of a subtree, their keys behind a common start. -/
def under (s : List Bool) (b : Bool) (es : List (List Bool × α)) : List (List Bool × α) :=
  es.map fun e => (s ++ b :: e.1, e.2)

theorem entries_forkOn (s : List Bool) (b : Bool) (t t' : HmEdge α) :
    (forkOn s b t t').entries.Perm (under s b t.entries ++ under s (!b) t'.entries) := by
  cases b
  · exact .refl _
  · exact List.perm_append_comm

theorem under_withLabel {t : HmEdge α} {q : List Bool} {b : Bool} {s' : List Bool}
    (hlabel : t.label = q ++ b :: s') : under q b (t.withLabel s').entries = t.entries := by
  cases t <;>
    · obtain rfl := hlabel
      simp [under, withLabel, entries, Function.comp_def]

theorem hasKeyLength_forkOn {s : List Bool} {b : Bool} {t t' : HmEdge α} {m : Nat}
    (ht : t.HasKeyLength m) (ht' : t'.HasKeyLength m) :
    (forkOn s b t t').HasKeyLength (s.length + (m + 1)) := by
  cases b
  · exact ⟨m, rfl, ht, ht'⟩
  · exact ⟨m, rfl, ht', ht⟩

theorem hasKeyLength_withLabel {t : HmEdge α} {q : List Bool} {b : Bool} {s' : List Bool} {m : Nat}
    (hlabel : t.label = q ++ b :: s') (ht : t.HasKeyLength (q.length + (m + 1))) :
    (t.withLabel s').HasKeyLength m := by
  cases t with
  | leaf s v =>
    obtain rfl : s = q ++ b :: s' := hlabel
    simp only [HasKeyLength, withLabel, List.length_append, List.length_cons] at ht ⊢
    omega
  | fork s l r =>
    obtain rfl : s = q ++ b :: s' := hlabel
    obtain ⟨k, hk, hl, hr⟩ := ht
    rw [List.length_append, List.length_cons] at hk
    exact ⟨k, by omega, hl, hr⟩

namespace Inserts
variable {v : α} {n : Nat} {t t' : HmEdge α} {key : List Bool}

theorem hasKeyLength (h : Inserts v n t key t') : t'.HasKeyLength n := by
  induction h with
  | parts hlabel ht hk => exact hasKeyLength_forkOn hk (hasKeyLength_withLabel hlabel ht)
  | replace => exact rfl
  | inFork _ hother _ _ ih => exact hasKeyLength_forkOn ih hother

/-- A new key is one more entry. -/
theorem entries (h : Inserts v n t key t') (hnew : ∀ e ∈ t.entries, e.1 ≠ key) :
    t'.entries.Perm ((key, v) :: t.entries) := by
  induction h with
  | @parts m t q s' k' b hlabel _ _ =>
    refine (entries_forkOn q (!b) _ _).trans ?_
    rw [Bool.not_not, under_withLabel hlabel]
    exact .refl _
  | @replace key w => exact absurd rfl (hnew (key, w) (List.mem_singleton_self _))
  | @inFork m s k c t t' other _ _ _ _ ih =>
    have hbelow : ∀ e ∈ t.entries, e.1 ≠ k := by
      rintro e he rfl
      have hmem : (s ++ c :: e.1, e.2) ∈ (forkOn s c t other).entries :=
        (entries_forkOn s c t other).mem_iff.2 (List.mem_append_left _ (List.mem_map_of_mem he))
      exact hnew _ hmem rfl
    refine (entries_forkOn s c t' other).trans ?_
    refine (((ih hbelow).map _).append_right _).trans ?_
    exact (entries_forkOn s c t other).symm.cons _

end Inserts

/-- The tree with several keys set, one after the other. -/
def insertAll (t : HmEdge α) (es : List (List Bool × α)) : HmEdge α :=
  es.foldl (fun t e => t.insert e.1 e.2) t

theorem hasKeyLength_insertAll {n : Nat} {t : HmEdge α} (ht : t.HasKeyLength n)
    {es : List (List Bool × α)} (hes : ∀ e ∈ es, e.1.length = n) :
    (t.insertAll es).HasKeyLength n := by
  induction es generalizing t with
  | nil => exact ht
  | cons e es ih =>
    rw [List.forall_mem_cons] at hes
    exact ih (inserts_insert ht hes.1 e.2).hasKeyLength hes.2

theorem entries_insertAll {n : Nat} {t : HmEdge α} (ht : t.HasKeyLength n)
    {es : List (List Bool × α)} (hes : ∀ e ∈ es, e.1.length = n)
    (hnew : (es.map Prod.fst).Nodup) (hdisj : ∀ e ∈ es, ∀ e' ∈ t.entries, e'.1 ≠ e.1) :
    (t.insertAll es).entries.Perm (es ++ t.entries) := by
  induction es generalizing t with
  | nil => exact .refl _
  | cons e es ih =>
    rw [List.forall_mem_cons] at hes hdisj
    rw [List.map_cons, List.nodup_cons] at hnew
    have hfirst := inserts_insert ht hes.1 e.2
    have hentries := hfirst.entries hdisj.1
    refine (ih hfirst.hasKeyLength hes.2 hnew.2 fun x hx y hy => ?_).trans ?_
    · rcases List.mem_cons.1 (hentries.mem_iff.1 hy) with rfl | hy
      · exact fun heq => hnew.1 (heq ▸ List.mem_map_of_mem hx)
      · exact hdisj.2 x hx y hy
    · exact (hentries.append_left es).trans List.perm_middle

/-! ## A tree is its entries -/

theorem label_prefix {t : HmEdge α} : ∀ e ∈ t.entries, t.label <+: e.1 := by
  intro e he
  cases t with
  | leaf s v =>
    obtain rfl := List.mem_singleton.1 he
    exact List.prefix_rfl
  | fork s l r =>
    rcases List.mem_append.1 he with he | he <;>
      · obtain ⟨e', -, rfl⟩ := List.mem_map.1 he
        exact List.prefix_append _ _

theorem under_perm_iff {s : List Bool} {b : Bool} {es es' : List (List Bool × α)} :
    (under s b es).Perm (under s b es') ↔ es.Perm es' := by
  refine List.map_perm_map_iff fun e e' h => ?_
  simpa [Prod.ext_iff] using h

/-- The entries of a fork that go on with a bit. -/
theorem filter_entries_fork (s : List Bool) (l r : HmEdge α) :
    (fork s l r).entries.filter (fun e => !e.1.getD s.length false) = under s false l.entries ∧
      (fork s l r).entries.filter (fun e => e.1.getD s.length false) = under s true r.entries := by
  have hall (b : Bool) (es : List (List Bool × α)) :
      ∀ e ∈ under s b es, e.1.getD s.length false = b := by
    intro e he
    obtain ⟨e', -, rfl⟩ := List.mem_map.1 he
    exact getD_append_cons s b e'.1
  have hentries : (fork s l r).entries = under s false l.entries ++ under s true r.entries := rfl
  rw [hentries, List.filter_append, List.filter_append]
  constructor
  · rw [List.filter_eq_self.2 fun e he => by rw [hall false _ e he]; rfl,
      List.filter_eq_nil_iff.2 fun e he => by rw [hall true _ e he]; decide, List.append_nil]
  · rw [List.filter_eq_nil_iff.2 fun e he => by rw [hall false _ e he]; decide,
      List.filter_eq_self.2 fun e he => hall true _ e he, List.nil_append]

/-- The label of a fork is no shorter than a common start of its keys. -/
theorem prefix_label_fork {s s' : List Bool} {l r : HmEdge α}
    (h : ∀ e ∈ (fork s l r).entries, s' <+: e.1) : s' <+: s := by
  obtain ⟨el, hel⟩ := List.exists_mem_of_ne_nil _ l.entries_ne_nil
  obtain ⟨er, her⟩ := List.exists_mem_of_ne_nil _ r.entries_ne_nil
  have hl : s' <+: s ++ false :: el.1 :=
    h _ (List.mem_append_left _ (List.mem_map_of_mem hel))
  have hr : s' <+: s ++ true :: er.1 :=
    h _ (List.mem_append_right _ (List.mem_map_of_mem her))
  by_cases hlen : s'.length ≤ s.length
  · exact List.prefix_of_prefix_length_le hl (List.prefix_append _ _) hlen
  · -- Longer than the label, it would go on both with 0 and with 1.
    have hgetD {b : Bool} {k : List Bool} (hpre : s' <+: s ++ b :: k) :
        s'.getD s.length false = b := by
      obtain ⟨k', hk'⟩ := hpre
      rw [← getD_append_cons s b k, ← hk', List.getD_append _ _ _ _ (by omega)]
    exact absurd ((hgetD hl).symm.trans (hgetD hr)) (by decide)

/-- Two trees with the same entries are the same. -/
theorem eq_of_perm_entries {t t' : HmEdge α} (h : t.entries.Perm t'.entries) : t = t' := by
  induction t generalizing t' with
  | leaf s v =>
    cases t' with
    | leaf s' v' =>
      obtain ⟨rfl, rfl⟩ := Prod.mk.inj (List.singleton_perm_singleton.1 h)
      rfl
    | fork s' l' r' =>
      have hlen := h.length_eq
      have hl := List.length_pos_iff.2 l'.entries_ne_nil
      have hr := List.length_pos_iff.2 r'.entries_ne_nil
      simp only [entries, List.length_append, List.length_map, List.length_singleton] at hlen
      omega
  | fork s l r ihl ihr =>
    cases t' with
    | leaf s' v' =>
      have hlen := h.length_eq
      have hl := List.length_pos_iff.2 l.entries_ne_nil
      have hr := List.length_pos_iff.2 r.entries_ne_nil
      simp only [entries, List.length_append, List.length_map, List.length_singleton] at hlen
      omega
    | fork s' l' r' =>
      -- both labels are the longest common start of the same keys
      have hle : s' <+: s := prefix_label_fork fun e he => label_prefix e (h.mem_iff.1 he)
      have hge : s <+: s' := prefix_label_fork fun e he => label_prefix e (h.mem_iff.2 he)
      obtain rfl : s = s' := hge.eq_of_length (Nat.le_antisymm hge.length_le hle.length_le)
      obtain ⟨hfalse, htrue⟩ := filter_entries_fork s l r
      obtain ⟨hfalse', htrue'⟩ := filter_entries_fork s l' r'
      -- the entries of a side are those with its bit behind the label
      have hl := h.filter (fun e => !e.1.getD s.length false)
      have hr := h.filter (fun e => e.1.getD s.length false)
      rw [hfalse, hfalse', under_perm_iff] at hl
      rw [htrue, htrue', under_perm_iff] at hr
      rw [ihl hl, ihr hr]

/-! ## The cell of a tree -/

/-- The cell a tree is spelled in with the shortest labels. -/
def cell (enc : α → Slice) : Nat → HmEdge α → Cell
  | n, leaf s v => .mk (HmLabel.shortest n s ++ (enc v).bits) (enc v).refs
  | n, fork s l r =>
    .mk (HmLabel.shortest n s) [l.cell enc (n - s.length - 1), r.cell enc (n - s.length - 1)]

theorem cell_fork {enc : α → Slice} {n m : Nat} {s : List Bool} (h : n = s.length + (m + 1))
    (l r : HmEdge α) :
    (fork s l r).cell enc n = .mk (HmLabel.shortest n s) [l.cell enc m, r.cell enc m] := by
  rw [cell, show n - s.length - 1 = m by omega]

/-- What follows the label in the cell of a tree, `m` key bits being left below a fork. -/
def payload (enc : α → Slice) (m : Nat) : HmEdge α → Slice
  | leaf _ v => enc v
  | fork _ l r => ⟨[], [l.cell enc m, r.cell enc m]⟩

@[simp] theorem payload_withLabel (enc : α → Slice) (m : Nat) (t : HmEdge α) (s : List Bool) :
    (t.withLabel s).payload enc m = t.payload enc m := by
  cases t <;> rfl

@[simp] theorem label_withLabel (t : HmEdge α) (s : List Bool) : (t.withLabel s).label = s := by
  cases t <;> rfl

theorem cell_eq (enc : α → Slice) (n : Nat) (t : HmEdge α) :
    t.cell enc n = .mk (HmLabel.shortest n t.label ++
      (t.payload enc (n - t.label.length - 1)).bits)
      (t.payload enc (n - t.label.length - 1)).refs := by
  cases t with
  | leaf s v => rfl
  | fork s l r => rw [cell, payload, List.append_nil]; rfl

/-- All cells a tree is spelled in have a property, those that values refer to apart. -/
def AllCells (P : Cell → Prop) (enc : α → Slice) : Nat → HmEdge α → Prop
  | n, leaf s v => P ((leaf s v).cell enc n)
  | n, fork s l r => P ((fork s l r).cell enc n) ∧
      l.AllCells P enc (n - s.length - 1) ∧ r.AllCells P enc (n - s.length - 1)

theorem allCells_fork {P : Cell → Prop} {enc : α → Slice} {n m : Nat} {s : List Bool}
    (h : n = s.length + (m + 1)) (l r : HmEdge α) : (fork s l r).AllCells P enc n ↔
      P ((fork s l r).cell enc n) ∧ l.AllCells P enc m ∧ r.AllCells P enc m := by
  rw [AllCells, show n - s.length - 1 = m by omega]

theorem allCells_forkOn {P : Cell → Prop} {enc : α → Slice} {n m : Nat} {s : List Bool}
    (h : n = s.length + (m + 1)) (b : Bool) (t t' : HmEdge α) :
    (forkOn s b t t').AllCells P enc n ↔
      P ((forkOn s b t t').cell enc n) ∧ t.AllCells P enc m ∧ t'.AllCells P enc m := by
  cases b
  · exact allCells_fork h t t'
  · exact (allCells_fork h t' t).trans (and_congr_right fun _ => and_comm)

theorem allCells_withLabel {P : Cell → Prop} {enc : α → Slice} {n m : Nat} {t : HmEdge α}
    {q s' : List Bool} {b : Bool} (hlabel : t.label = q ++ b :: s') (hn : n = q.length + (m + 1))
    (h : t.AllCells P enc n) :
    (t.withLabel s').AllCells P enc m ↔ P ((t.withLabel s').cell enc m) := by
  cases t with
  | leaf s v => exact Iff.rfl
  | fork s l r =>
    obtain rfl : s = q ++ b :: s' := hlabel
    refine and_iff_left ?_
    have hbelow : n - (q ++ b :: s').length - 1 = m - s'.length - 1 := by
      rw [List.length_append, List.length_cons]
      omega
    have hchildren := h.2
    rwa [hbelow] at hchildren

theorem shortHashmap_cell (enc : α → Slice) {X : Slice → α → Prop} (hX : ∀ v, X (enc v) v)
    {n : Nat} {t : HmEdge α} (ht : t.HasKeyLength n) :
    ShortHashmap X n (t.cell enc n).toSlice t := by
  induction t generalizing n with
  | leaf s v => exact .leaf (HmLabel.isShortest_shortest (Nat.le_of_eq ht)) ht (hX v)
  | fork s l r ihl ihr =>
    obtain ⟨m, hn, hl, hr⟩ := ht
    rw [cell_fork hn]
    exact .fork (HmLabel.isShortest_shortest (by omega)) hn (ihl hl) (ihr hr)

end HmEdge
