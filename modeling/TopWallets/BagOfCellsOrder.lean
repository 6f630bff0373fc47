import TopWallets.OrdinaryCells

/- The order that a bag of cells is put in has every cell of the import, once, after the cells that
   it refers to (`reorderCells_importRoots`).

   A cell is allocated when it has been visited, and it is visited when all that it refers to is
   allocated. `Ordered` is the invariant of the three kinds of `revisit`: it says what the status
   of a cell tells about its references, and that the cells that are allocated are those of the
   new list. A cell refers to cells before it, so that `revisit` changes nothing behind the cell
   that it is about, and twice the index of the cell bounds the depth of the recursion. -/
namespace Vm

/-- The cell has been visited. -/
def NewIdx.settled : NewIdx → Bool
  | .visited | .at _ => true
  | .unset | .previsited => false

namespace BagOfCells
open DagTable (RowsOf Reach)

variable {C : Type}

/-! ## Weights -/

section
variable {β : Type} {g : CellInfo C → β} (hg : ∀ info w, g { info with wt := w } = g info)
include hg

theorem limitWeights_map (l : List (CellInfo C)) (i : Nat) :
    (limitWeights l i).map g = l.map g := by
  unfold limitWeights
  cases l[i]? with
  | none => rfl
  | some dci =>
    simp only
    generalize dci.refIdx.zipIdx.foldl _ (maxCellWhs - 1, dci.refIdx.length) = sums
    refine List.foldlRecOn
      (motive := fun state : List (CellInfo C) × Nat => state.1.map g = l.map g) _ _ rfl ?_
    rintro ⟨l', sum⟩ hl' ⟨r, j⟩ -
    simp only
    split
    · exact hl'
    · exact (map_modify_of (fun info => hg info _) _ _).trans hl'

theorem finalWeight_map (l : List (CellInfo C)) (i : Nat) :
    (finalWeight l i).map g = l.map g := by
  unfold finalWeight
  cases l[i]? with
  | none => rfl
  | some dci => exact map_modify_of (fun info => hg info _) _ _

/-- Nothing but the weights changes. -/
theorem weigh_map (l : List (CellInfo C)) : (weigh l).map g = l.map g := by
  have hfold : ∀ (f : List (CellInfo C) → Nat → List (CellInfo C)),
      (∀ l' i, (f l' i).map g = l'.map g) → ∀ (is : List Nat) l',
        (is.foldl f l').map g = l'.map g := by
    intro f hf is l'
    induction is generalizing l' with
    | nil => rfl
    | cons i is ih => exact (ih _).trans (hf l' i)
  exact (hfold _ (finalWeight_map hg) _ _).trans (hfold _ (limitWeights_map hg) _ _)

end

/-! ## The invariant -/

/-- The new index of the cell `i` is `idx`. -/
def NewAt (o : Order C) (i idx : Nat) : Prop :=
  o.cellList[i]?.map CellInfo.newIdx = some (.at idx)

def Settled (o : Order C) (i : Nat) : Prop :=
  ∃ info, o.cellList[i]? = some info ∧ info.newIdx.settled = true

/-- What the reordering leaves as it is. -/
def fixed (info : CellInfo C) : CellInfo C := { info with newIdx := .unset, refIdx := [] }

/-- The references of a cell, of which `refs` were the first ones. -/
def RefsAt (o : Order C) (refs : List Nat) (info : CellInfo C) : Prop :=
  if info.newIdx.settled then List.Forall₂ (NewAt o) refs info.refIdx else info.refIdx = refs

structure Ordered (base : List (CellInfo C)) (o : Order C) : Prop where
  fixed_eq : o.cellList.map fixed = base.map fixed
  refsAt : ∀ (i : Nat) (info info' : CellInfo C), base[i]? = some info →
    o.cellList[i]? = some info' → RefsAt o info.refIdx info'
  tmp_of_newAt : ∀ (i idx : Nat) (info : CellInfo C), o.cellList[i]? = some info →
    info.newIdx = .at idx → o.cellListTmp[idx]? = some info
  newAt_of_tmp : ∀ (idx : Nat) (info : CellInfo C), o.cellListTmp[idx]? = some info →
    info.newIdx = .at idx ∧ (∀ r ∈ info.refIdx, r < idx) ∧ ∃ i : Nat, o.cellList[i]? = some info

/-- What a step keeps: what was visited or allocated before. -/
structure Grows (o o' : Order C) : Prop where
  newAt : ∀ i idx, NewAt o i idx → NewAt o' i idx
  settled : ∀ i, Settled o i → Settled o' i

variable {base : List (CellInfo C)} {o o' o'' : Order C}

theorem Grows.refl (o : Order C) : Grows o o := ⟨fun _ _ h => h, fun _ h => h⟩

theorem Grows.trans (h : Grows o o') (h' : Grows o' o'') : Grows o o'' :=
  ⟨fun i idx hi => h'.newAt i idx (h.newAt i idx hi), fun i hi => h'.settled i (h.settled i hi)⟩

theorem NewAt.settled {i idx : Nat} (h : NewAt o i idx) : Settled o i := by
  obtain ⟨info, hinfo, hat⟩ := Option.map_eq_some_iff.1 h
  refine ⟨info, hinfo, ?_⟩
  rw [hat]
  rfl

theorem RefsAt.grows {refs : List Nat} {info : CellInfo C} (h : RefsAt o refs info)
    (hgrows : Grows o o') : RefsAt o' refs info := by
  unfold RefsAt at h ⊢
  split
  · next hsettled =>
    rw [if_pos hsettled] at h
    exact h.imp fun i idx hi => hgrows.newAt i idx hi
  · next hsettled =>
    rw [if_neg hsettled] at h
    exact h

theorem Ordered.length_eq (h : Ordered base o) : o.cellList.length = base.length := by
  have hlength := congrArg List.length h.fixed_eq
  rwa [List.length_map, List.length_map] at hlength

theorem Ordered.newAt_lt (h : Ordered base o) {i idx : Nat} (hi : NewAt o i idx) :
    idx < o.cellListTmp.length := by
  obtain ⟨info, hinfo, hat⟩ := Option.map_eq_some_iff.1 hi
  exact (List.getElem?_eq_some_iff.1 (h.tmp_of_newAt i idx info hinfo hat)).1

theorem ordered_base (hfresh : ∀ info ∈ base, info.newIdx = .unset) : Ordered base ⟨base, []⟩ where
  fixed_eq := rfl
  refsAt := by
    intro i info info' hinfo hinfo'
    obtain rfl := Option.some.inj (hinfo.symm.trans hinfo')
    rw [RefsAt, hfresh info (List.mem_of_getElem? hinfo)]
    exact (if_neg Bool.false_ne_true).mpr rfl
  tmp_of_newAt := by
    intro i idx info hinfo hat
    rw [hfresh info (List.mem_of_getElem? hinfo)] at hat
    cases hat
  newAt_of_tmp := by
    intro idx info hinfo
    cases hinfo

/-! ## One cell is changed -/

section
variable {i : Nat} {info info' : CellInfo C} {tmp : List (CellInfo C)}

theorem grows_set (hinfo : o.cellList[i]? = some info) (hat : ∀ idx, info.newIdx ≠ .at idx)
    (hsettled : info.newIdx.settled = true → info'.newIdx.settled = true) :
    Grows o ⟨o.cellList.set i info', tmp⟩ := by
  have hi := (List.getElem?_eq_some_iff.1 hinfo).1
  constructor
  · intro j idx hj
    by_cases hij : i = j
    · subst hij
      rw [NewAt, hinfo] at hj
      exact absurd (Option.some.inj hj) (hat idx)
    · rw [NewAt, List.getElem?_set_ne hij]
      exact hj
  · rintro j ⟨infoj, hinfoj, hj⟩
    by_cases hij : i = j
    · subst hij
      obtain rfl := Option.some.inj (hinfo.symm.trans hinfoj)
      exact ⟨info', List.getElem?_set_self hi, hsettled hj⟩
    · exact ⟨infoj, (List.getElem?_set_ne hij).trans hinfoj, hj⟩

/-- The invariant, but for what it says of the new list. -/
theorem Ordered.set (h : Ordered base o) (hinfo : o.cellList[i]? = some info)
    (hat : ∀ idx, info.newIdx ≠ .at idx) (hfixed : fixed info' = fixed info)
    (hgrows : Grows o ⟨o.cellList.set i info', tmp⟩)
    (hrefs : ∀ first, base[i]? = some first → RefsAt o first.refIdx info')
    (hkeep : ∀ (idx : Nat) (infot : CellInfo C), o.cellListTmp[idx]? = some infot →
      tmp[idx]? = some infot)
    (hnew : ∀ idx : Nat, info'.newIdx = .at idx → tmp[idx]? = some info')
    (htmp : ∀ (idx : Nat) (infot : CellInfo C), tmp[idx]? = some infot →
      o.cellListTmp[idx]? = some infot ∨
        infot = info' ∧ info'.newIdx = .at idx ∧ ∀ r ∈ info'.refIdx, r < idx) :
    Ordered base ⟨o.cellList.set i info', tmp⟩ := by
  have hi := (List.getElem?_eq_some_iff.1 hinfo).1
  have hself : (o.cellList.set i info')[i]? = some info' := List.getElem?_set_self hi
  refine ⟨?_, ?_, ?_, ?_⟩
  · rw [← h.fixed_eq]
    apply List.ext_getElem?
    intro j
    rw [List.getElem?_map, List.getElem?_map]
    by_cases hij : i = j
    · subst hij
      rw [hself, hinfo, Option.map_some, Option.map_some, hfixed]
    · rw [List.getElem?_set_ne hij]
  · intro j first infoj hfirst hinfoj
    by_cases hij : i = j
    · subst hij
      obtain rfl := Option.some.inj (hself.symm.trans hinfoj)
      exact (hrefs first hfirst).grows hgrows
    · rw [List.getElem?_set_ne hij] at hinfoj
      exact (h.refsAt j first infoj hfirst hinfoj).grows hgrows
  · intro j idx infoj hinfoj hidx
    by_cases hij : i = j
    · subst hij
      obtain rfl := Option.some.inj (hself.symm.trans hinfoj)
      exact hnew idx hidx
    · rw [List.getElem?_set_ne hij] at hinfoj
      exact hkeep idx infoj (h.tmp_of_newAt j idx infoj hinfoj hidx)
  · intro idx infot hinfot
    rcases htmp idx infot hinfot with hold | ⟨rfl, hidx, hlt⟩
    · obtain ⟨hidx, hlt, j, hj⟩ := h.newAt_of_tmp idx infot hold
      refine ⟨hidx, hlt, j, ?_⟩
      have hij : i ≠ j := by
        rintro rfl
        obtain rfl := Option.some.inj (hinfo.symm.trans hj)
        exact hat idx hidx
      rw [List.getElem?_set_ne hij]
      exact hj
    · exact ⟨hidx, hlt, i, hself⟩

end

theorem modify_eq_set {α : Type*} {l : List α} {i : Nat} {a : α} (h : l[i]? = some a) (f : α → α) :
    l.modify i f = l.set i (f a) := by
  rw [List.modify_eq_set_getElem?, h]
  rfl

/-- What the step for the cells before `n` does. -/
structure Revisits (base : List (CellInfo C)) (n : Nat) (o o' : Order C) : Prop where
  ordered : Ordered base o'
  grows : Grows o o'
  behind : ∀ j, n ≤ j → o'.cellList[j]? = o.cellList[j]?

theorem Revisits.refl (h : Ordered base o) (n : Nat) : Revisits base n o o :=
  ⟨h, .refl o, fun _ _ => rfl⟩

theorem Revisits.trans {n : Nat} (h : Revisits base n o o') (h' : Revisits base n o' o'') :
    Revisits base n o o'' :=
  ⟨h'.ordered, h.grows.trans h'.grows,
    fun j hj => (h'.behind j hj).trans (h.behind j hj)⟩

theorem Revisits.mono {m n : Nat} (h : Revisits base m o o') (hmn : m ≤ n) :
    Revisits base n o o' :=
  ⟨h.ordered, h.grows, fun j hj => h.behind j (hmn.trans hj)⟩

theorem getElem?_set_behind {α : Type*} (l : List α) (i : Nat) (a : α) (j : Nat) (hj : i + 1 ≤ j) :
    (l.set i a)[j]? = l[j]? :=
  List.getElem?_set_ne (by omega)

theorem previsited_spec (h : Ordered base o) {i : Nat} {info : CellInfo C}
    (hinfo : o.cellList[i]? = some info) (hunset : info.newIdx = .unset) :
    Revisits base (i + 1) o (o.setNewIdx i .previsited) ∧
      ¬ Settled (o.setNewIdx i .previsited) i := by
  have hset : o.setNewIdx i .previsited =
      ⟨o.cellList.set i { info with newIdx := .previsited }, o.cellListTmp⟩ := by
    rw [Order.setNewIdx, modify_eq_set hinfo]
  have hat : ∀ idx, info.newIdx ≠ .at idx := by
    intro idx hidx
    rw [hunset] at hidx
    cases hidx
  have hgrows : Grows o ⟨o.cellList.set i { info with newIdx := .previsited }, o.cellListTmp⟩ := by
    refine grows_set hinfo hat fun hsettled => ?_
    rw [hunset] at hsettled
    cases hsettled
  rw [hset]
  refine ⟨⟨h.set hinfo hat rfl hgrows ?_ (fun _ _ ht => ht) ?_ (fun _ _ ht => .inl ht), hgrows,
    getElem?_set_behind _ _ _⟩, ?_⟩
  · intro first hfirst
    have hrefs := h.refsAt i first info hfirst hinfo
    rw [RefsAt, hunset] at hrefs
    exact hrefs
  · intro idx hidx
    cases hidx
  · rintro ⟨info', hinfo', hsettled⟩
    rw [List.getElem?_set_self (List.getElem?_eq_some_iff.1 hinfo).1] at hinfo'
    obtain rfl := Option.some.inj hinfo'
    cases hsettled

theorem visited_spec (h : Ordered base o) {i : Nat} {info first : CellInfo C}
    (hinfo : o.cellList[i]? = some info) (hat : ∀ idx, info.newIdx ≠ .at idx)
    (hfirst : base[i]? = some first) {refs : List Nat}
    (hrefs : List.Forall₂ (NewAt o) first.refIdx refs) :
    Revisits base (i + 1) o ((o.setRefIdx i refs).setNewIdx i .visited) ∧
      Settled ((o.setRefIdx i refs).setNewIdx i .visited) i := by
  have hi := (List.getElem?_eq_some_iff.1 hinfo).1
  have hset : (o.setRefIdx i refs).setNewIdx i .visited =
      ⟨o.cellList.set i { info with refIdx := refs, newIdx := .visited }, o.cellListTmp⟩ := by
    rw [Order.setNewIdx, Order.setRefIdx, modify_eq_set hinfo,
      modify_eq_set (List.getElem?_set_self hi), List.set_set]
  have hgrows : Grows o
      ⟨o.cellList.set i { info with refIdx := refs, newIdx := .visited }, o.cellListTmp⟩ :=
    grows_set hinfo hat fun _ => rfl
  rw [hset]
  refine ⟨⟨h.set hinfo hat rfl hgrows ?_ (fun _ _ ht => ht) ?_ (fun _ _ ht => .inl ht), hgrows,
    getElem?_set_behind _ _ _⟩, _, List.getElem?_set_self hi, rfl⟩
  · intro first' hfirst'
    obtain rfl := Option.some.inj (hfirst.symm.trans hfirst')
    exact hrefs
  · intro idx hidx
    cases hidx

/-- Force 2, of a cell that has been visited. -/
theorem allocate_spec (h : Ordered base o) {i : Nat} (hsettled : Settled o i) :
    Revisits base (i + 1) o (allocate i o).2 ∧ NewAt (allocate i o).2 i (allocate i o).1 := by
  obtain ⟨info, hinfo, hsettled⟩ := hsettled
  have hi := (List.getElem?_eq_some_iff.1 hinfo).1
  unfold allocate
  rw [hinfo]
  simp only
  cases hnewIdx : info.newIdx with
  | unset =>
    rw [hnewIdx] at hsettled
    cases hsettled
  | previsited =>
    rw [hnewIdx] at hsettled
    cases hsettled
  | «at» idx =>
    refine ⟨.refl h _, ?_⟩
    rw [NewAt, hinfo, Option.map_some, hnewIdx]
  | visited =>
    have hat : ∀ idx, info.newIdx ≠ .at idx := by
      intro idx hidx
      rw [hnewIdx] at hidx
      cases hidx
    have hbase : i < base.length := h.length_eq ▸ hi
    have hrefs := h.refsAt i base[i] info (List.getElem?_eq_getElem hbase) hinfo
    rw [RefsAt, hnewIdx] at hrefs
    have hlt : ∀ r ∈ info.refIdx, r < o.cellListTmp.length := by
      intro r hr
      obtain ⟨j, hj, rfl⟩ := List.mem_iff_getElem.1 hr
      exact h.newAt_lt ((List.forall₂_iff_get.1 hrefs).2 j (hrefs.length_eq ▸ hj) hj)
    have hset : o.setNewIdx i (.at o.cellListTmp.length) =
        ⟨o.cellList.set i { info with newIdx := .at o.cellListTmp.length }, o.cellListTmp⟩ := by
      rw [Order.setNewIdx, modify_eq_set hinfo]
    rw [hset]
    have hgrows : Grows o
        ⟨o.cellList.set i { info with newIdx := .at o.cellListTmp.length },
          o.cellListTmp ++ [{ info with newIdx := .at o.cellListTmp.length }]⟩ :=
      grows_set hinfo hat fun _ => rfl
    refine ⟨⟨h.set hinfo hat rfl hgrows ?_ ?_ ?_ ?_, hgrows, getElem?_set_behind _ _ _⟩, ?_⟩
    · intro first hfirst
      obtain rfl := Option.some.inj ((List.getElem?_eq_getElem hbase).symm.trans hfirst)
      exact hrefs
    · intro idx infot ht
      rw [List.getElem?_append_left (List.getElem?_eq_some_iff.1 ht).1]
      exact ht
    · intro idx hidx
      obtain rfl := NewIdx.at.inj hidx
      exact List.getElem?_concat_length
    · intro idx infot ht
      by_cases hidx : idx < o.cellListTmp.length
      · rw [List.getElem?_append_left hidx] at ht
        exact .inl ht
      · have hlast := (List.getElem?_eq_some_iff.1 ht).1
        rw [List.length_append, List.length_singleton] at hlast
        obtain rfl : idx = o.cellListTmp.length := by omega
        rw [List.getElem?_concat_length] at ht
        exact .inr ⟨(Option.some.inj ht).symm, rfl, hlt⟩
    · rw [NewAt, List.getElem?_set_self hi]
      rfl

/-- The references of a cell are allocated, the last one first. -/
theorem allocateRefs_spec (h : Ordered base o) {n : Nat} {refs : List Nat}
    (hlt : ∀ r ∈ refs, r < n) (hsettled : ∀ r ∈ refs, Settled o r) :
    Revisits base n o (allocateRefs refs o).2 ∧
      List.Forall₂ (NewAt (allocateRefs refs o).2) refs (allocateRefs refs o).1 := by
  induction refs with
  | nil => exact ⟨.refl h n, .nil⟩
  | cons r refs ih =>
    obtain ⟨hrevisits, hnew⟩ := ih (fun s hs => hlt s (List.mem_cons_of_mem _ hs))
      (fun s hs => hsettled s (List.mem_cons_of_mem _ hs))
    obtain ⟨hrevisits', hnew'⟩ := allocate_spec hrevisits.ordered
      (hrevisits.grows.settled r (hsettled r List.mem_cons_self))
    refine ⟨hrevisits.trans (hrevisits'.mono (hlt r List.mem_cons_self)), .cons hnew' ?_⟩
    exact hnew.imp fun s idx hs => hrevisits'.grows.newAt s idx hs

/-! ## The recursion -/

/-- A loop over cells before `n`, each of which settles its cell in its way. -/
theorem foldlM_spec {n : Nat} (step : Order C → Nat → Option (Order C))
    {P : Order C → Nat → Prop} (hP : ∀ o o' r, Grows o o' → P o r → P o' r) (refs : List Nat)
    (hstep : ∀ r ∈ refs, ∀ o, Ordered base o →
      ∃ o', step o r = some o' ∧ Revisits base n o o' ∧ P o' r) (h : Ordered base o) :
    ∃ o', refs.foldlM step o = some o' ∧ Revisits base n o o' ∧ ∀ r ∈ refs, P o' r := by
  induction refs generalizing o with
  | nil => exact ⟨o, rfl, .refl h n, fun r hr => by cases hr⟩
  | cons r refs ih =>
    obtain ⟨o₁, hok, hrevisits, hr⟩ := hstep r List.mem_cons_self o h
    obtain ⟨o₂, hok', hrevisits', hrefs⟩ :=
      ih (fun s hs => hstep s (List.mem_cons_of_mem _ hs)) hrevisits.ordered
    refine ⟨o₂, ?_, hrevisits.trans hrevisits', ?_⟩
    · rw [List.foldlM_cons, hok]
      exact hok'
    · intro s hs
      rcases List.mem_cons.1 hs with rfl | hs
      · exact hP o₁ o₂ s hrevisits'.grows hr
      · exact hrefs s hs

/-- Force 0 and force 1 with this fuel. -/
structure Revisit (base : List (CellInfo C)) (fuel : Nat) : Prop where
  previsit : ∀ i < base.length, 2 * i + 1 ≤ fuel → ∀ o, Ordered base o →
    ∃ o', previsit fuel i o = some o' ∧ Revisits base (i + 1) o o' ∧ (Settled o' i → Settled o i)
  visit : ∀ i < base.length, 2 * i + 2 ≤ fuel → ∀ o, Ordered base o →
    ∃ o', visit fuel i o = some o' ∧ Revisits base (i + 1) o o' ∧ Settled o' i

theorem settled_congr {i : Nat} (h : o'.cellList[i]? = o.cellList[i]?) :
    Settled o' i ↔ Settled o i := by
  rw [Settled, Settled, h]

theorem visit_of_not_settled {fuel i : Nat} {dci : CellInfo C} {o₁ o₂ : Order C}
    (hdci : o.cellList[i]? = some dci) (hsettled : ¬ dci.newIdx.settled = true)
    (hok₁ : (if dci.isSpecial then previsit fuel i o else pure o) = some o₁)
    (hok₂ : dci.refIdx.reverse.foldlM (fun o r => visit fuel r o) o₁ = some o₂) :
    visit (fuel + 1) i o = some (((allocateRefs dci.refIdx o₂).2.setRefIdx i
      (allocateRefs dci.refIdx o₂).1).setNewIdx i .visited) := by
  rw [visit, hdci]
  simp only
  cases hnewIdx : dci.newIdx with
  | visited => exact absurd (by rw [hnewIdx]; rfl) hsettled
  | «at» idx => exact absurd (by rw [hnewIdx]; rfl) hsettled
  | unset | previsited =>
    simp only
    split
    · next hspecial =>
      rw [if_pos hspecial] at hok₁
      simp only [hok₁, hok₂, Option.pure_def, Option.bind_eq_bind, Option.bind_some]
    · next hspecial =>
      rw [if_neg hspecial] at hok₁
      obtain rfl := Option.some.inj hok₁
      simp only [hok₂, Option.pure_def, Option.bind_eq_bind, Option.bind_some]

section
variable (hbefore : ∀ (i : Nat) (info : CellInfo C), base[i]? = some info →
  ∀ r ∈ info.refIdx, r < i) {fuel : Nat} (ih : Revisit base fuel)
include hbefore ih

theorem previsit_succ {i : Nat} (hi : i < base.length) (hfuel : 2 * i + 1 ≤ fuel + 1)
    (h : Ordered base o) : ∃ o', previsit (fuel + 1) i o = some o' ∧
      Revisits base (i + 1) o o' ∧ (Settled o' i → Settled o i) := by
  have hio : i < o.cellList.length := h.length_eq ▸ hi
  obtain ⟨dci, hdci⟩ : ∃ dci, o.cellList[i]? = some dci := ⟨_, List.getElem?_eq_getElem hio⟩
  rw [previsit, hdci]
  simp only
  by_cases hunset : dci.newIdx = .unset
  · rw [if_neg (not_not.2 hunset)]
    have hrefs := h.refsAt i base[i] dci (List.getElem?_eq_getElem hi) hdci
    rw [RefsAt, hunset] at hrefs
    have hrefs : dci.refIdx = base[i].refIdx := hrefs
    obtain ⟨o₁, hok, hrevisits, -⟩ := foldlM_spec (n := i) (P := fun _ _ => True)
      (fun o r => if (o.cellList[r]?.map CellInfo.isSpecial).getD false then
        visit fuel r o else previsit fuel r o)
      (fun _ _ _ _ _ => trivial) dci.refIdx.reverse
      (by
        intro r hr o ho
        rw [List.mem_reverse, hrefs] at hr
        have hlt := hbefore i base[i] (List.getElem?_eq_getElem hi) r hr
        split
        · obtain ⟨o', hok, hrevisits, -⟩ := ih.visit r (hlt.trans hi) (by omega) o ho
          exact ⟨o', hok, hrevisits.mono hlt, trivial⟩
        · obtain ⟨o', hok, hrevisits, -⟩ := ih.previsit r (hlt.trans hi) (by omega) o ho
          exact ⟨o', hok, hrevisits.mono hlt, trivial⟩) h
    have hdci₁ : o₁.cellList[i]? = some dci := (hrevisits.behind i le_rfl).trans hdci
    obtain ⟨hrevisits', hsettled⟩ := previsited_spec hrevisits.ordered hdci₁ hunset
    refine ⟨_, ?_, (hrevisits.mono (Nat.le_succ i)).trans hrevisits',
      fun hi => absurd hi hsettled⟩
    rw [hok]
    rfl
  · rw [if_pos hunset]
    exact ⟨o, rfl, .refl h _, id⟩

theorem visit_succ {i : Nat} (hi : i < base.length) (hfuel : 2 * i + 2 ≤ fuel + 1)
    (h : Ordered base o) : ∃ o', visit (fuel + 1) i o = some o' ∧
      Revisits base (i + 1) o o' ∧ Settled o' i := by
  have hio : i < o.cellList.length := h.length_eq ▸ hi
  obtain ⟨dci, hdci⟩ : ∃ dci, o.cellList[i]? = some dci := ⟨_, List.getElem?_eq_getElem hio⟩
  by_cases hsettled : dci.newIdx.settled = true
  · rw [visit, hdci]
    simp only
    cases hnewIdx : dci.newIdx with
    | unset =>
      rw [hnewIdx] at hsettled
      cases hsettled
    | previsited =>
      rw [hnewIdx] at hsettled
      cases hsettled
    | visited => exact ⟨o, rfl, .refl h _, dci, hdci, hsettled⟩
    | «at» idx => exact ⟨o, rfl, .refl h _, dci, hdci, hsettled⟩
  · have hfirst := List.getElem?_eq_getElem hi
    have hrefs := h.refsAt i base[i] dci hfirst hdci
    rw [RefsAt, if_neg hsettled] at hrefs
    have hnot : ¬ Settled o i := by
      rintro ⟨dci', hdci', hsettled'⟩
      obtain rfl := Option.some.inj (hdci.symm.trans hdci')
      exact hsettled hsettled'
    -- A special cell is previsited first, which does not settle it.
    obtain ⟨o₁, hok₁, hrevisits₁, hnot₁⟩ : ∃ o₁,
        (if dci.isSpecial then previsit fuel i o else pure o) = some o₁ ∧
          Revisits base (i + 1) o o₁ ∧ ¬ Settled o₁ i := by
      split
      · obtain ⟨o₁, hok, hrevisits, hback⟩ := ih.previsit i hi (by omega) o h
        exact ⟨o₁, hok, hrevisits, fun hi => hnot (hback hi)⟩
      · exact ⟨o, rfl, .refl h _, hnot⟩
    have hlt : ∀ r ∈ dci.refIdx, r < i := by
      rw [hrefs]
      exact hbefore i base[i] hfirst
    obtain ⟨o₂, hok₂, hrevisits₂, hchildren⟩ := foldlM_spec (n := i) (P := Settled)
      (fun o r => visit fuel r o) (fun o o' r hgrows hr => hgrows.settled r hr)
      dci.refIdx.reverse
      (by
        intro r hr o ho
        have hlt := hlt r (List.mem_reverse.1 hr)
        obtain ⟨o', hok, hrevisits, hr⟩ := ih.visit r (hlt.trans hi) (by omega) o ho
        exact ⟨o', hok, hrevisits.mono hlt, hr⟩) hrevisits₁.ordered
    obtain ⟨hrevisits₃, hnew⟩ := allocateRefs_spec hrevisits₂.ordered hlt
      (fun r hr => hchildren r (List.mem_reverse.2 hr))
    have hsame : (allocateRefs dci.refIdx o₂).2.cellList[i]? = o₁.cellList[i]? :=
      (hrevisits₃.behind i le_rfl).trans (hrevisits₂.behind i le_rfl)
    obtain ⟨info, hinfo⟩ : ∃ info, (allocateRefs dci.refIdx o₂).2.cellList[i]? = some info :=
      ⟨_, List.getElem?_eq_getElem (hrevisits₃.ordered.length_eq ▸ hi)⟩
    have hat : ∀ idx, info.newIdx ≠ .at idx := by
      intro idx hidx
      refine hnot₁ ((settled_congr hsame).1 ⟨info, hinfo, ?_⟩)
      rw [hidx]
      rfl
    have hnewBase : List.Forall₂ (NewAt (allocateRefs dci.refIdx o₂).2) base[i].refIdx
        (allocateRefs dci.refIdx o₂).1 := by
      rw [← hrefs]
      exact hnew
    obtain ⟨hrevisits₄, hsettled₄⟩ := visited_spec hrevisits₃.ordered hinfo hat hfirst hnewBase
    exact ⟨_, visit_of_not_settled hdci hsettled hok₁ hok₂,
      ((hrevisits₁.trans (hrevisits₂.mono (Nat.le_succ i))).trans
        (hrevisits₃.mono (Nat.le_succ i))).trans hrevisits₄, hsettled₄⟩

end

/-- Both recursions at once, by induction on the fuel. -/
theorem revisit_spec (hbefore : ∀ (i : Nat) (info : CellInfo C), base[i]? = some info →
    ∀ r ∈ info.refIdx, r < i) (fuel : Nat) : Revisit base fuel := by
  induction fuel with
  | zero => exact ⟨fun i _ hfuel => by omega, fun i _ hfuel => by omega⟩
  | succ fuel ih =>
    exact ⟨fun i hi hfuel o h => previsit_succ hbefore ih hi hfuel h,
      fun i hi hfuel o h => visit_succ hbefore ih hi hfuel h⟩

/-! ## The new list -/

/-- All that a cell refers to is allocated when it is. -/
theorem Ordered.newAt_ref (h : Ordered base o) {i j idx : Nat} {info : CellInfo C}
    (hi : NewAt o i idx) (hinfo : base[i]? = some info) (hj : j ∈ info.refIdx) :
    ∃ idx', NewAt o j idx' := by
  obtain ⟨info', hinfo', hat⟩ := Option.map_eq_some_iff.1 hi
  have hrefs := h.refsAt i info info' hinfo hinfo'
  rw [RefsAt, hat] at hrefs
  have hrefs : List.Forall₂ (NewAt o) info.refIdx info'.refIdx := hrefs
  obtain ⟨k, hk, rfl⟩ := List.mem_iff_getElem.1 hj
  exact ⟨_, (List.forall₂_iff_get.1 hrefs).2 k hk (hrefs.length_eq ▸ hk)⟩

/-- The cells that are referred to are all allocated when the roots are: by induction from the
last one on. -/
theorem Ordered.newAt_of_visits (h : Ordered base o) {roots : List Nat}
    (hroots : ∀ root ∈ roots, ∃ idx, NewAt o root idx)
    (hbefore : ∀ (i : Nat) (info : CellInfo C), base[i]? = some info → ∀ r ∈ info.refIdx, r < i)
    (hvisits : ∀ i < base.length, 1 ≤ visits base roots i) (n : Nat) :
    ∀ i < base.length, base.length ≤ i + n → ∃ idx, NewAt o i idx := by
  induction n with
  | zero => exact fun i hi hn => by omega
  | succ n ih =>
    intro i hi hn
    have hmem : i ∈ allRefs base ++ roots := List.count_pos_iff.1 (hvisits i hi)
    rcases List.mem_append.1 hmem with hmem | hmem
    · obtain ⟨info, hinfo, hr⟩ := List.mem_flatMap.1 hmem
      obtain ⟨j, hj, rfl⟩ := List.mem_iff_getElem.1 hinfo
      have hjinfo := List.getElem?_eq_getElem hj
      have hlt := hbefore j _ hjinfo i hr
      obtain ⟨idx, hidx⟩ := ih j hj (by omega)
      exact h.newAt_ref hidx hjinfo hr
    · exact hroots i hmem

theorem Ordered.map_eq (h : Ordered base o) {β : Type} {g : CellInfo C → β}
    (hg : ∀ info, g (fixed info) = g info) : o.cellList.map g = base.map g := by
  have hmap := congrArg (List.map g) h.fixed_eq
  rw [List.map_map, List.map_map] at hmap
  have hcomp : g ∘ fixed = g := funext hg
  rwa [hcomp] at hmap

/-- Every cell is allocated. -/
structure Allocated (base : List (CellInfo C)) (o : Order C) : Prop extends Ordered base o where
  nodup : (base.map CellInfo.dc).Nodup
  newAt : ∀ i < base.length, ∃ idx, NewAt o i idx

namespace Allocated
variable (h : Allocated base o)
include h

theorem dc_eq : o.cellList.map CellInfo.dc = base.map CellInfo.dc := h.map_eq fun _ => rfl

theorem newAt_inj {i j idx : Nat} (hi : NewAt o i idx) (hj : NewAt o j idx) : i = j := by
  obtain ⟨info, hinfo, hat⟩ := Option.map_eq_some_iff.1 hi
  obtain ⟨info', hinfo', hat'⟩ := Option.map_eq_some_iff.1 hj
  have heq := (h.tmp_of_newAt i idx info hinfo hat).symm.trans
    (h.tmp_of_newAt j idx info' hinfo' hat')
  have hnodup : o.cellList.Nodup := .of_map CellInfo.dc (h.dc_eq ▸ h.nodup)
  refine (List.getElem?_inj (List.getElem?_eq_some_iff.1 hinfo).1 hnodup).1 ?_
  rw [hinfo, hinfo', Option.some.inj heq]

/-- The new list has the cells of the old one in another order. -/
theorem perm : o.cellListTmp.Perm o.cellList := by
  have hnew : o.cellListTmp.map CellInfo.newIdx = (List.range o.cellListTmp.length).map .at := by
    apply List.ext_getElem (by simp)
    intro idx hidx hidx'
    rw [List.length_map] at hidx
    rw [List.getElem_map, List.getElem_map, List.getElem_range]
    exact (h.newAt_of_tmp idx _ (List.getElem?_eq_getElem hidx)).1
  have hnodupTmp : o.cellListTmp.Nodup := by
    refine .of_map CellInfo.newIdx ?_
    rw [hnew]
    exact List.nodup_range.map fun a b => NewIdx.at.inj
  have hnodup : o.cellList.Nodup := .of_map CellInfo.dc (h.dc_eq ▸ h.nodup)
  refine (List.perm_ext_iff_of_nodup hnodupTmp hnodup).2 fun info =>
    ⟨fun hinfo => ?_, fun hinfo => ?_⟩
  · obtain ⟨idx, hidx, rfl⟩ := List.mem_iff_getElem.1 hinfo
    obtain ⟨-, -, i, hi⟩ := h.newAt_of_tmp idx _ (List.getElem?_eq_getElem hidx)
    exact List.mem_of_getElem? hi
  · obtain ⟨i, hi, rfl⟩ := List.mem_iff_getElem.1 hinfo
    obtain ⟨idx, hidx⟩ := h.newAt i (h.length_eq ▸ hi)
    rw [NewAt, List.getElem?_eq_getElem hi] at hidx
    exact List.mem_of_getElem?
      (h.tmp_of_newAt i idx _ (List.getElem?_eq_getElem hi) (Option.some.inj hidx))

theorem forall₂_newAt : List.Forall₂ (NewAt o) (allRefs base) (allRefs o.cellList) := by
  have hinfo : List.Forall₂ (fun a b => List.Forall₂ (NewAt o) a.refIdx b.refIdx) base
      o.cellList := by
    refine List.forall₂_iff_get.2 ⟨h.length_eq.symm, fun i hi hi' => ?_⟩
    obtain ⟨idx, hidx⟩ := h.newAt i hi
    have hrefs := h.refsAt i base[i] o.cellList[i] (List.getElem?_eq_getElem hi)
      (List.getElem?_eq_getElem hi')
    rw [NewAt, List.getElem?_eq_getElem hi'] at hidx
    rw [RefsAt, Option.some.inj hidx] at hrefs
    exact hrefs
  exact List.rel_flatMap hinfo fun a b hab => hab

/-- A cell is referred to as often as before. -/
theorem visits_eq {roots idxs : List Nat} (hroots : List.Forall₂ (NewAt o) roots idxs) {i idx : Nat}
    (hi : NewAt o i idx) : visits o.cellListTmp idxs idx = visits base roots i := by
  have hcount : ∀ {xs ys : List Nat}, List.Forall₂ (NewAt o) xs ys → ys.count idx = xs.count i := by
    intro xs ys hxs
    induction hxs with
    | nil => rfl
    | @cons j idx' xs ys hj _ ih =>
      have hiff : idx' = idx ↔ j = i := by
        constructor
        · rintro rfl
          exact h.newAt_inj hj hi
        · rintro rfl
          exact NewIdx.at.inj (Option.some.inj (hj.symm.trans hi))
      rw [List.count_cons, List.count_cons, ih]
      simp only [beq_iff_eq, hiff]
  rw [visits, visits, List.count_append, List.count_append, hcount hroots]
  have hperm : (allRefs o.cellListTmp).Perm (allRefs o.cellList) := h.perm.flatMap_right _
  rw [hperm.count_eq, hcount h.forall₂_newAt]

theorem rowsOf {rs idxs : List Nat} {cells : List C} (hrows : RowsOf CellInfo.dc base rs cells)
    (hnew : List.Forall₂ (NewAt o) rs idxs) : RowsOf CellInfo.dc o.cellListTmp idxs cells := by
  induction hrows generalizing idxs with
  | nil =>
    cases hnew
    exact .nil
  | @cons r c rs cells hr _ ih =>
    obtain _ | ⟨hidx, hnew⟩ := hnew
    refine .cons ?_ (ih hnew)
    obtain ⟨info, hinfo, hat⟩ := Option.map_eq_some_iff.1 hidx
    rw [h.tmp_of_newAt r _ info hinfo hat, ← hinfo, ← List.getElem?_map, h.dc_eq,
      List.getElem?_map, hr]

theorem sound {children : C → List C}
    (hsound : DagTable.Sound CellInfo.dc CellInfo.refIdx children base) :
    DagTable.Sound CellInfo.dc CellInfo.refIdx children o.cellListTmp := by
  intro idx info hinfo
  obtain ⟨hat, hlt, i, hi⟩ := h.newAt_of_tmp idx info hinfo
  have hbase : i < base.length := h.length_eq ▸ (List.getElem?_eq_some_iff.1 hi).1
  have hfirst := List.getElem?_eq_getElem hbase
  have hrefs := h.refsAt i base[i] info hfirst hi
  rw [RefsAt, hat] at hrefs
  have hdc : base[i].dc = info.dc := by
    have hmap := congrArg (fun l => l[i]?) h.dc_eq
    simp only [List.getElem?_map, hi, hfirst, Option.map_some] at hmap
    exact (Option.some.inj hmap).symm
  refine ⟨?_, hlt⟩
  rw [← hdc]
  exact h.rowsOf (hsound i base[i] hfirst).1 hrefs

end Allocated

/-- The roots are visited, then allocated. -/
theorem visitRoots_spec (hrevisit : Revisit base (2 * base.length + 2)) {roots : List Nat}
    (hroots : ∀ root ∈ roots, root < base.length) (h : Ordered base o) :
    ∃ o', roots.foldlM (fun o root => do
        visit (2 * base.length + 2) root (← previsit (2 * base.length + 2) root o)) o = some o' ∧
      Revisits base base.length o o' ∧ ∀ root ∈ roots, Settled o' root := by
  refine foldlM_spec _ (P := Settled) (fun o o' r hgrows hr => hgrows.settled r hr) roots ?_ h
  intro root hroot o ho
  have hlt := hroots root hroot
  obtain ⟨o₁, hok, hrevisits, -⟩ := hrevisit.previsit root hlt (by omega) o ho
  obtain ⟨o₂, hok', hrevisits', hsettled⟩ :=
    hrevisit.visit root hlt (by omega) o₁ hrevisits.ordered
  refine ⟨o₂, ?_, (hrevisits.trans hrevisits').mono hlt, hsettled⟩
  rw [hok]
  exact hok'

theorem allocateRoots_spec {roots : List Nat} (hroots : ∀ root ∈ roots, root < base.length)
    (h : Ordered base o) (hsettled : ∀ root ∈ roots, Settled o root) :
    Ordered base (roots.foldl (fun o root => (allocate root o).2) o) ∧
      Grows o (roots.foldl (fun o root => (allocate root o).2) o) ∧
      ∀ root ∈ roots,
        ∃ idx, NewAt (roots.foldl (fun o root => (allocate root o).2) o) root idx := by
  induction roots generalizing o with
  | nil => exact ⟨h, .refl o, fun r hr => by cases hr⟩
  | cons root roots ih =>
    obtain ⟨hrevisits, hnew⟩ := allocate_spec h (hsettled root List.mem_cons_self)
    obtain ⟨hordered, hgrows, hroots⟩ := ih (fun r hr => hroots r (List.mem_cons_of_mem _ hr))
      hrevisits.ordered
      (fun r hr => hrevisits.grows.settled r (hsettled r (List.mem_cons_of_mem _ hr)))
    refine ⟨hordered, hrevisits.grows.trans hgrows, fun r hr => ?_⟩
    rcases List.mem_cons.1 hr with rfl | hr
    · exact ⟨_, hgrows.newAt r _ hnew⟩
    · exact hroots r hr

/-- All cells that are referred to, or that are roots, are in the new list. -/
theorem revisitRoots_spec {roots : List Nat} (hroots : ∀ root ∈ roots, root < base.length)
    (hfresh : ∀ info ∈ base, info.newIdx = .unset)
    (hbefore : ∀ (i : Nat) (info : CellInfo C), base[i]? = some info → ∀ r ∈ info.refIdx, r < i)
    (hvisits : ∀ i < base.length, 1 ≤ visits base roots i)
    (hnodup : (base.map CellInfo.dc).Nodup) :
    ∃ idxs o, revisitRoots roots base = some (idxs, o.cellListTmp) ∧ Allocated base o ∧
      List.Forall₂ (NewAt o) roots idxs := by
  obtain ⟨o₁, hok, hrevisits, hsettled⟩ := visitRoots_spec
    (revisit_spec hbefore (2 * base.length + 2)) hroots (ordered_base hfresh)
  obtain ⟨hordered, -, hnewAt⟩ := allocateRoots_spec hroots hrevisits.ordered hsettled
  let o' := roots.foldl (fun o root => (allocate root o).2) o₁
  refine ⟨roots.map o'.newIdxOf, o', ?_,
    ⟨hordered, hnodup, fun i hi =>
      hordered.newAt_of_visits hnewAt hbefore hvisits base.length i hi (by omega)⟩, ?_⟩
  · rw [revisitRoots]
    simp only [hok]
    rfl
  · rw [List.forall₂_map_right_iff, List.forall₂_same]
    intro root hroot
    obtain ⟨idx, hidx⟩ := hnewAt root hroot
    have hof : o'.newIdxOf root = idx := by
      rw [Order.newIdxOf, hidx]
    rw [hof]
    exact hidx

/-! ## The bag -/

variable {D : DataCells}

theorem weigh_getElem? {l : List (CellInfo C)} {i : Nat} {info : CellInfo C}
    (h : (weigh l)[i]? = some info) : ∃ info', l[i]? = some info' ∧
      info = { info' with wt := info.wt } := by
  have hmap := congrArg (fun l : List (CellInfo C) => l[i]?)
    (weigh_map (g := fun info : CellInfo C => { info with wt := 0 }) (fun _ _ => rfl) l)
  simp only [List.getElem?_map, h, Option.map_some] at hmap
  obtain ⟨info', hinfo', heq⟩ := Option.map_eq_some_iff.1 hmap.symm
  refine ⟨info', hinfo', ?_⟩
  cases info
  cases info'
  simp only [CellInfo.mk.injEq] at heq ⊢
  grind

/-- What the writer may rely on. -/
structure Bag.WellFormed (bag : Bag D.DataCell) (roots : List D.DataCell) : Prop where
  sound : Sound D bag.cellList
  rows : RowsOf CellInfo.dc bag.cellList bag.roots roots
  nodup : (bag.cellList.map CellInfo.dc).Nodup
  mem_iff : ∀ c, c ∈ bag.cellList.map CellInfo.dc ↔ ∃ root ∈ roots, Reach D.refs root c
  hcnt_eq : ∀ info ∈ bag.cellList, info.isRootCell = false ∧
    info.hcnt = LevelMask.hashesCount (D.levelMask info.dc)
  dataBytes_eq : bag.dataBytes =
    (bag.cellList.map fun info => D.serializedSize info.dc false).sum
  intRefs_eq : bag.intRefs = (allRefs bag.cellList).length
  intHashes_eq : bag.intHashes = BagOfCells.intHashes bag.cellList
  topHashes_eq : bag.topHashes = 0
  cached : ∀ (i : Nat) (info : CellInfo D.DataCell), bag.cellList[i]? = some info →
    1 ≤ visits bag.cellList bag.roots i ∧
      info.shouldCache = decide (2 ≤ visits bag.cellList bag.roots i)

/-- The cells of the import, in an order in which what a cell refers to comes first. -/
theorem reorderCells_spec {boc : Import D.DataCell} {idxs : List Nat} {roots : List D.DataCell}
    (h : Imported D boc idxs 0) (hrows : RowsOf CellInfo.dc boc.cellList idxs roots)
    (hmem : ∀ c, c ∈ dcs boc ↔ ∃ root ∈ roots, Reach D.refs root c) :
    ∃ bag, reorderCells idxs boc = some bag ∧ bag.WellFormed roots := by
  have hdc : (weigh boc.cellList).map CellInfo.dc = boc.cellList.map CellInfo.dc :=
    weigh_map (fun _ _ => rfl) _
  have hrefIdx : (weigh boc.cellList).map CellInfo.refIdx = boc.cellList.map CellInfo.refIdx :=
    weigh_map (fun _ _ => rfl) _
  have hlength : (weigh boc.cellList).length = boc.cellList.length := by
    simpa using congrArg List.length hdc
  have hvisits : ∀ i, visits (weigh boc.cellList) idxs i = visits boc.cellList idxs i := by
    intro i
    rw [visits, visits, allRefs_congr hrefIdx]
  have hsound : Sound D (weigh boc.cellList) := h.sound.congr hdc.symm hrefIdx.symm
  have hfresh : ∀ info ∈ weigh boc.cellList, info.newIdx = .unset ∧ info.isRootCell = false ∧
      info.hcnt = LevelMask.hashesCount (D.levelMask info.dc) := by
    intro info hinfo
    obtain ⟨i, hi, rfl⟩ := List.mem_iff_getElem.1 hinfo
    obtain ⟨info', hinfo', heq⟩ := weigh_getElem? (List.getElem?_eq_getElem hi)
    rw [heq]
    exact h.fresh info' (List.mem_of_getElem? hinfo')
  have hcached : ∀ (i : Nat) (info : CellInfo D.DataCell), (weigh boc.cellList)[i]? = some info →
      1 ≤ visits (weigh boc.cellList) idxs i ∧
        info.shouldCache = decide (2 ≤ visits (weigh boc.cellList) idxs i) := by
    intro i info hinfo
    obtain ⟨info', hinfo', heq⟩ := weigh_getElem? hinfo
    rw [hvisits, heq]
    exact h.cached i info' hinfo'
  have hrows' : RowsOf CellInfo.dc (weigh boc.cellList) idxs roots :=
    DagTable.rowsOf_congr (hdc ▸ List.prefix_rfl) hrows
  obtain ⟨idxs', o, hok, hall, hnew⟩ := revisitRoots_spec (DagTable.rowsOf_length hrows')
    (fun info hinfo => (hfresh info hinfo).1) (fun i info hinfo => (hsound i info hinfo).2)
    (fun i hi => (hcached i _ (List.getElem?_eq_getElem hi)).1) (hdc ▸ h.nodup)
  -- What does not depend on the new indices can be read off the old list.
  have hperm : ∀ {β : Type} (g : CellInfo D.DataCell → β), (∀ info, g (fixed info) = g info) →
      (o.cellListTmp.map g).Perm ((weigh boc.cellList).map g) :=
    fun g hg => hall.map_eq hg ▸ hall.perm.map g
  have hpermDc := hperm CellInfo.dc fun _ => rfl
  refine ⟨⟨o.cellListTmp, idxs', boc.intRefs, boc.dataBytes, intHashes (weigh boc.cellList),
    topHashes idxs (weigh boc.cellList)⟩, ?_, ?_⟩
  · rw [reorderCells]
    simp only [hok]
    rfl
  refine ⟨hall.sound hsound, hall.rowsOf hrows' hnew, hpermDc.nodup_iff.2 (hdc ▸ h.nodup), ?_, ?_,
    ?_, ?_, ?_, ?_, ?_⟩
  · intro c
    rw [hpermDc.mem_iff, hdc]
    exact hmem c
  · intro info hinfo
    have hmem' : (info.isRootCell, info.hcnt, info.dc) ∈
        (weigh boc.cellList).map fun i => (i.isRootCell, i.hcnt, i.dc) :=
      (hperm (fun i => (i.isRootCell, i.hcnt, i.dc)) fun _ => rfl).mem_iff.1
        (List.mem_map_of_mem hinfo)
    obtain ⟨info', hinfo', heq⟩ := List.mem_map.1 hmem'
    simp only [Prod.mk.injEq] at heq
    obtain ⟨hroot, hhcnt, hdc'⟩ := heq
    have hfresh' := (hfresh info' hinfo').2
    rwa [hroot, hhcnt, hdc'] at hfresh'
  · have hsum := (hperm (fun info => D.serializedSize info.dc false) fun _ => rfl).sum_eq
    have hmap : (weigh boc.cellList).map (fun info => D.serializedSize info.dc false) =
        boc.cellList.map fun info => D.serializedSize info.dc false :=
      weigh_map (fun _ _ => rfl) _
    rw [hmap] at hsum
    have hdata := h.dataBytes_eq
    rw [List.map_map] at hdata
    exact hdata.trans hsum.symm
  · have hlen : (allRefs o.cellListTmp).Perm (allRefs o.cellList) := hall.perm.flatMap_right _
    change boc.intRefs = (allRefs o.cellListTmp).length
    rw [hlen.length_eq, ← hall.forall₂_newAt.length_eq, allRefs_congr hrefIdx, h.intRefs_eq]
    rfl
  · exact (hperm (fun info => if info.wt = 0 then info.hcnt else 0) fun _ => rfl).sum_eq.symm
  · refine List.sum_eq_zero fun n hn => ?_
    obtain ⟨i, -, rfl⟩ := List.mem_map.1 hn
    cases hi : (weigh boc.cellList)[i]? with
    | none => rfl
    | some info => simp [(hfresh info (List.mem_of_getElem? hi)).2.1]
  · intro idx info hinfo
    obtain ⟨hat, -, i, hi⟩ := hall.newAt_of_tmp idx info hinfo
    have hbase : i < (weigh boc.cellList).length :=
      hall.length_eq ▸ (List.getElem?_eq_some_iff.1 hi).1
    have hnewAt : NewAt o i idx := by
      rw [NewAt, hi, Option.map_some, hat]
    have hcache : info.shouldCache = (weigh boc.cellList)[i].shouldCache := by
      have hmap := congrArg (fun l => l[i]?) (hall.map_eq (g := CellInfo.shouldCache) fun _ => rfl)
      simp only [List.getElem?_map, hi, List.getElem?_eq_getElem hbase, Option.map_some] at hmap
      exact Option.some.inj hmap
    rw [hall.visits_eq hnew hnewAt, hcache]
    exact hcached i _ (List.getElem?_eq_getElem hbase)

/-- What the writer writes: the cells below the roots, each once and after those it refers to. -/
theorem reorderCells_importRoots (hD : D.Lawful) {roots : List D.DataCell}
    (hdistinct : D.Distinct roots) :
    ∃ idxs boc bag, importRoots D roots = .ok (idxs, boc) ∧ reorderCells idxs boc = some bag ∧
      bag.WellFormed roots := by
  obtain ⟨idxs, boc, himport, himported, hrows, hmem⟩ := importRoots_spec hD hdistinct
  obtain ⟨bag, hreorder, h⟩ := reorderCells_spec himported hrows hmem
  exact ⟨idxs, boc, bag, himport, hreorder, h⟩

/-- A root, a cell below it and a leaf that both refer to. -/
theorem reorderCells_importRoots_sample :
    ∃ idxs boc bag, importRoots (ordinaryCells OrdinaryCell.sampleHash)
        [OrdinaryCell.sampleTop] = .ok (idxs, boc) ∧ reorderCells idxs boc = some bag ∧
      bag.WellFormed [OrdinaryCell.sampleTop] :=
  reorderCells_importRoots (ordinaryCells_lawful OrdinaryCell.length_sampleHash)
    OrdinaryCell.distinct_sampleTop

end BagOfCells
end Vm
