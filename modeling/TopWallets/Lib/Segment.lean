import Mathlib.Data.List.Sort
import Mathlib.Data.List.Infix

/- A window of a log that grows at its front: lists in strictly descending order, and
   what becomes of a window when a page of the log is merged into it.

   A page is merged by its entries newer than the window's first (`addNewer`) or older
   than its last (`addOlder`). Both keep the window strictly descending
   (`descending_addNewer`, `descending_addOlder`). The window stays contiguous exactly
   when the page reaches it: from above when no more entries of the log lie above the
   window and not above the page than the page has (`addNewer_infix_iff`), from below
   when no entry below the window is above the page (`addOlder_infix_iff`). -/
namespace Segment

variable {α : Type*} [LinearOrder α]

abbrev Descending (l : List α) : Prop := l.Pairwise (· > ·)

/-- The entries of a page that are newer than the window. -/
def newer (window page : List α) : List α :=
  match window with
  | [] => page
  | first :: _ => page.takeWhile (first < ·)

/-- The entries of a page that are older than the window. -/
def older (window page : List α) : List α :=
  match window.getLast? with
  | none => page
  | some last => page.filter (· < last)

/-! ## Order -/

theorem Descending.nodup {l : List α} (h : Descending l) : l.Nodup :=
  h.imp fun hgt => ne_of_gt hgt

theorem Descending.of_infix {l log : List α} (h : Descending log) (hl : l <:+: log) :
    Descending l := h.sublist hl.sublist

/-- Taking while a test holds is filtering, when no entry that passes comes after one that fails. -/
theorem takeWhile_eq_filter {β : Type*} {p : β → Bool} {l : List β}
    (h : l.Pairwise fun a b => p b → p a) : l.takeWhile p = l.filter p := by
  induction l with
  | nil => rfl
  | cons b l ih =>
    rw [List.pairwise_cons] at h
    by_cases hb : p b
    · rw [List.takeWhile_cons_of_pos hb, List.filter_cons_of_pos hb, ih h.2]
    · have hnil : l.filter p = [] := List.filter_eq_nil_iff.2 fun x hx hpx => hb (h.1 x hx hpx)
      rw [List.takeWhile_cons_of_neg hb, List.filter_cons_of_neg hb, hnil]

theorem Descending.takeWhile_eq_filter {l : List α} (h : Descending l) (a : α) :
    l.takeWhile (a < ·) = l.filter (a < ·) :=
  Segment.takeWhile_eq_filter <| h.imp fun hgt hb => by
    simpa using (of_decide_eq_true hb).trans hgt

theorem mem_newer_cons {first : α} {window page : List α} (hpage : Descending page) {x : α} :
    x ∈ newer (first :: window) page ↔ x ∈ page ∧ first < x := by
  rw [newer, hpage.takeWhile_eq_filter]
  simp

theorem mem_older_concat {last : α} {window page : List α} {x : α} :
    x ∈ older (window ++ [last]) page ↔ x ∈ page ∧ x < last := by
  rw [older, List.getLast?_concat]
  simp

theorem Descending.le_head {first : α} {l : List α} (h : Descending (first :: l)) {x : α}
    (hx : x ∈ first :: l) : x ≤ first := by
  rcases List.mem_cons.1 hx with rfl | hx
  · exact le_rfl
  · exact (List.rel_of_pairwise_cons h hx).le

theorem Descending.last_le {last : α} {l : List α} (h : Descending (l ++ [last])) {x : α}
    (hx : x ∈ l ++ [last]) : last ≤ x := by
  rcases List.mem_append.1 hx with hx | hx
  · exact ((List.pairwise_append.1 h).2.2 x hx last (by simp)).le
  · exact (List.mem_singleton.1 hx).ge

/-- The merge of newer entries keeps the order. -/
theorem descending_addNewer {window page : List α} (hwindow : Descending window)
    (hpage : Descending page) : Descending (newer window page ++ window) := by
  cases window with
  | nil => simpa [newer] using hpage
  | cons first window =>
    refine List.pairwise_append.2 ⟨?_, hwindow, fun x hx y hy => ?_⟩
    · exact hpage.sublist (List.takeWhile_sublist _)
    · exact (hwindow.le_head hy).trans_lt ((mem_newer_cons hpage).1 hx).2

/-- The merge of older entries keeps the order. -/
theorem descending_addOlder {window page : List α} (hwindow : Descending window)
    (hpage : Descending page) : Descending (window ++ older window page) := by
  rcases List.eq_nil_or_concat' window with rfl | ⟨window, last, rfl⟩
  · simpa [older] using hpage
  · refine List.pairwise_append.2 ⟨hwindow, ?_, fun x hx y hy => ?_⟩
    · rw [older, List.getLast?_concat]
      exact hpage.sublist List.filter_sublist
    · exact (mem_older_concat.1 hy).2.trans_le (hwindow.last_le hx)

/-! ## Contiguous windows -/

/-- Nothing of the log between two entries of the window is missing in it. -/
def Convex (log window : List α) : Prop :=
  ∀ x ∈ window, ∀ y ∈ window, ∀ t ∈ log, x ≤ t → t ≤ y → t ∈ window

theorem prefix_of_upper {log l : List α} (hlog : Descending log) (hl : l.Sublist log)
    (hup : ∀ x ∈ l, ∀ t ∈ log, x ≤ t → t ∈ l) : l <+: log := by
  induction log generalizing l with
  | nil => rw [List.sublist_nil.1 hl]
  | cons a log ih =>
    cases l with
    | nil => exact List.nil_prefix
    | cons b l =>
      have hba : b ≤ a := hlog.le_head (hl.mem List.mem_cons_self)
      have ha : a ≤ b :=
        Descending.le_head (hlog.sublist hl) (hup b List.mem_cons_self a List.mem_cons_self hba)
      obtain rfl := le_antisymm ha hba
      have hl' := List.cons_sublist_cons.1 hl
      rw [Descending, List.pairwise_cons] at hlog
      refine List.cons_prefix_cons.2 ⟨rfl, ih hlog.2 hl' fun x hx t ht hxt => ?_⟩
      have hmem := hup x (List.mem_cons_of_mem _ hx) t (List.mem_cons_of_mem _ ht) hxt
      exact (List.mem_cons.1 hmem).resolve_left (ne_of_lt (hlog.1 t ht))

/-- A part of a descending log is contiguous when nothing between its entries is missing. -/
theorem infix_iff_convex {log window : List α} (hlog : Descending log) :
    window <:+: log ↔ window.Sublist log ∧ Convex log window := by
  constructor
  · rintro ⟨above, below, rfl⟩
    refine ⟨List.IsInfix.sublist ⟨above, below, rfl⟩, fun x hx y hy t ht hxt hty => ?_⟩
    obtain ⟨habove, -, hbelow⟩ := List.pairwise_append.1 hlog
    rcases List.mem_append.1 ht with ht | ht
    · -- what is above or below the window does not lie between its entries
      rcases List.mem_append.1 ht with ht | ht
      · have hyt := (List.pairwise_append.1 habove).2.2 t ht y hy
        exact absurd hty (not_le.2 hyt)
      · exact ht
    · have htx := hbelow x (List.mem_append_right _ hx) t ht
      exact absurd hxt (not_le.2 htx)
  · rintro ⟨hsub, hconvex⟩
    induction log with
    | nil => rw [List.sublist_nil.1 hsub]
    | cons a log ih =>
      rw [Descending, List.pairwise_cons] at hlog
      cases hsub with
      | cons _ hsub =>
        have hrest : Convex log window := fun x hx y hy t ht =>
          hconvex x hx y hy t (List.mem_cons_of_mem _ ht)
        exact (ih hlog.2 hsub hrest).trans (List.suffix_cons a log).isInfix
      | cons_cons _ hsub =>
        rename_i l
        refine (List.cons_prefix_cons.2 ⟨rfl, prefix_of_upper hlog.2 hsub ?_⟩).isInfix
        intro x hx t ht hxt
        have hta : t ≤ a := (hlog.1 t ht).le
        have hmem := hconvex x (List.mem_cons_of_mem _ hx) a List.mem_cons_self t
          (List.mem_cons_of_mem _ ht) hxt hta
        exact (List.mem_cons.1 hmem).resolve_left (ne_of_lt (hlog.1 t ht))

/-- Descending lists are sublists by their members. -/
theorem Descending.sublist_of_subset {log l : List α} (hlog : Descending log) (hl : Descending l)
    (h : ∀ x ∈ l, x ∈ log) : l.Sublist log :=
  List.sublist_of_subperm_of_pairwise (r := (· > ·)) (List.subperm_of_subset hl.nodup h) hl hlog

theorem infix_iff {log window : List α} (hlog : Descending log) (hwindow : Descending window) :
    window <:+: log ↔ (∀ x ∈ window, x ∈ log) ∧ Convex log window := by
  rw [infix_iff_convex hlog]
  exact and_congr_left fun _ => ⟨fun h x => h.mem, hlog.sublist_of_subset hwindow⟩

/-- The entries of the log that are newer than the window and not newer than the page. -/
def lead (log window page : List α) : List α :=
  match window with
  | [] => []
  | first :: _ => log.filter (fun x => first < x ∧ ∃ y ∈ page, x ≤ y)

theorem mem_lead_cons {log : List α} {first : α} {window page : List α} {x : α} :
    x ∈ lead log (first :: window) page ↔ x ∈ log ∧ first < x ∧ ∃ y ∈ page, x ≤ y := by
  simp [lead]

/-- A page with as many entries as lie between its newest and the window has all of them. -/
theorem lead_subset_of_length_le {log : List α} {first : α} {window page : List α}
    (hlog : Descending log) (hpage : page <:+: log)
    (hlen : (lead log (first :: window) page).length ≤ page.length) :
    ∀ x ∈ lead log (first :: window) page, x ∈ page := by
  have hpconvex := ((infix_iff hlog (hlog.of_infix hpage)).1 hpage).2
  by_cases hbelow : ∃ z ∈ page, z ≤ first
  · obtain ⟨z, hz, hzf⟩ := hbelow
    intro x hx
    obtain ⟨hxlog, hfx, y, hy, hxy⟩ := mem_lead_cons.1 hx
    exact hpconvex z hz y hy x hxlog (hzf.trans hfx.le) hxy
  · have hsub : page.Subperm (lead log (first :: window) page) := by
      refine List.subperm_of_subset (hlog.of_infix hpage).nodup fun x hx => mem_lead_cons.2 ?_
      have hfx : first < x := not_le.1 fun hle => hbelow ⟨x, hx, hle⟩
      exact ⟨hpage.mem hx, hfx, x, hx, le_rfl⟩
    exact fun x hx => (hsub.perm_of_length_le hlen).mem_iff.2 hx

/-- Merging newer entries leaves no gap exactly when the page reaches down to the window. -/
theorem addNewer_infix_iff {log window page : List α} (hlog : Descending log)
    (hwindow : window <:+: log) (hpage : page <:+: log) :
    (newer window page ++ window) <:+: log ↔ (lead log window page).length ≤ page.length := by
  cases window with
  | nil => simpa [newer, lead] using hpage
  | cons first window =>
    have hdw := hlog.of_infix hwindow
    have hdp := hlog.of_infix hpage
    obtain ⟨hwlog, hwconvex⟩ := (infix_iff hlog hdw).1 hwindow
    rw [infix_iff hlog (descending_addNewer hdw hdp)]
    constructor
    · rintro ⟨-, hconvex⟩
      have hsub : ∀ x ∈ lead log (first :: window) page, x ∈ page := by
        intro x hx
        obtain ⟨hxlog, hfx, y, hy, hxy⟩ := mem_lead_cons.1 hx
        have hynew : y ∈ newer (first :: window) page :=
          (mem_newer_cons hdp).2 ⟨hy, hfx.trans_le hxy⟩
        have hmem := hconvex first (by simp) y (List.mem_append_left _ hynew) x hxlog hfx.le hxy
        rcases List.mem_append.1 hmem with hmem | hmem
        · exact ((mem_newer_cons hdp).1 hmem).1
        · exact absurd (hdw.le_head hmem) (not_le.2 hfx)
      have hnd : (lead log (first :: window) page).Nodup := hlog.nodup.filter _
      exact (List.subperm_of_subset hnd hsub).length_le
    · intro hlen
      have hsub := lead_subset_of_length_le hlog hpage hlen
      refine ⟨fun x hx => ?_, fun x hx y hy t ht hxt hty => ?_⟩
      · rcases List.mem_append.1 hx with hx | hx
        · exact hpage.mem ((mem_newer_cons hdp).1 hx).1
        · exact hwlog x hx
      · rcases lt_or_ge first t with hft | htf
        -- Above the window `t` lies between it and the page.
        · have hyp : y ∈ page := by
            rcases List.mem_append.1 hy with hy | hy
            · exact ((mem_newer_cons hdp).1 hy).1
            · exact absurd ((hdw.le_head hy).trans_lt hft) (not_lt.2 hty)
          have htp := hsub t (mem_lead_cons.2 ⟨ht, hft, y, hyp, hty⟩)
          exact List.mem_append_left _ ((mem_newer_cons hdp).2 ⟨htp, hft⟩)
        · have hxw : x ∈ first :: window := by
            rcases List.mem_append.1 hx with hx | hx
            · exact absurd (hxt.trans htf) (not_le.2 ((mem_newer_cons hdp).1 hx).2)
            · exact hx
          exact List.mem_append_right _ (hwconvex x hxw first List.mem_cons_self t ht hxt htf)

/-- Merging older entries leaves no gap exactly when nothing below the window is above the page. -/
theorem addOlder_infix_iff {log window page : List α} (hlog : Descending log)
    (hwindow : window <:+: log) (hpage : page <:+: log) :
    (window ++ older window page) <:+: log ↔
      page = [] ∨ ∀ last ∈ window.getLast?, ∀ t ∈ log, t < last → ∃ y ∈ page, t ≤ y := by
  rcases List.eq_nil_or_concat' window with rfl | ⟨window, last, rfl⟩
  · simpa [older] using hpage
  have hdw := hlog.of_infix hwindow
  have hdp := hlog.of_infix hpage
  obtain ⟨hwlog, hwconvex⟩ := (infix_iff hlog hdw).1 hwindow
  obtain ⟨hplog, hpconvex⟩ := (infix_iff hlog hdp).1 hpage
  rw [infix_iff hlog (descending_addOlder hdw hdp), List.getLast?_concat]
  simp only [Option.mem_some_iff, forall_eq']
  constructor
  · rintro ⟨-, hconvex⟩
    by_contra! hgap
    obtain ⟨hne, t, ht, htl, hall⟩ := hgap
    obtain ⟨y, hy⟩ := List.exists_mem_of_ne_nil page hne
    -- `t` is between the window and all of the page, and in neither
    have hyt := hall y hy
    have hyold : y ∈ older (window ++ [last]) page := mem_older_concat.2 ⟨hy, hyt.trans htl⟩
    have hmem := hconvex y (List.mem_append_right _ hyold) last (by simp) t ht hyt.le htl.le
    rcases List.mem_append.1 hmem with hmem | hmem
    · exact absurd (hdw.last_le hmem) (not_le.2 htl)
    · exact lt_irrefl t (hall t (mem_older_concat.1 hmem).1)
  · intro hreach
    refine ⟨fun x hx => ?_, fun x hx y hy t ht hxt hty => ?_⟩
    · rcases List.mem_append.1 hx with hx | hx
      · exact hwlog x hx
      · exact hplog x (mem_older_concat.1 hx).1
    · rcases lt_or_ge t last with htl | hlt
      · -- below the window the page has all down to its last entry
        have hxp : x ∈ page := by
          rcases List.mem_append.1 hx with hx | hx
          · exact absurd (hdw.last_le hx) (not_le.2 (hxt.trans_lt htl))
          · exact (mem_older_concat.1 hx).1
        obtain ⟨z, hz, htz⟩ := (hreach.resolve_left (List.ne_nil_of_mem hxp)) t ht htl
        have htp := hpconvex x hxp z hz t ht hxt htz
        exact List.mem_append_right _ (mem_older_concat.2 ⟨htp, htl⟩)
      · have hyw : y ∈ window ++ [last] := by
          rcases List.mem_append.1 hy with hy | hy
          · exact hy
          · exact absurd (hlt.trans hty) (not_le.2 (mem_older_concat.1 hy).2)
        exact List.mem_append_left _ (hwconvex last (by simp) y hyw t ht hlt hty)

/-- A page of the log from an entry on, or from just below it, reaches whatever lies below it. -/
theorem reaches_of_mem {log : List α} (hlog : Descending log) {z : α} (hz : z ∈ log) {j k : Nat}
    (hj : j ≤ 1) (hne : ((log.dropWhile (z < ·)).drop j).take k ≠ []) :
    ∀ t ∈ log, t < z → ∃ y ∈ ((log.dropWhile (z < ·)).drop j).take k, t ≤ y := by
  obtain ⟨above, below, rfl⟩ := List.append_of_mem hz
  have habove : ∀ x ∈ above, decide (z < x) = true := fun x hx =>
    decide_eq_true ((List.pairwise_append.1 hlog).2.2 x hx z List.mem_cons_self)
  rw [List.dropWhile_append_of_pos habove,
    List.dropWhile_cons_of_neg (by simp)] at hne ⊢
  intro t ht htz
  have htbelow : t ∈ below := by
    rcases List.mem_append.1 ht with ht | ht
    · exact absurd (of_decide_eq_true (habove t ht)) (not_lt.2 htz.le)
    · exact (List.mem_cons.1 ht).resolve_left htz.ne
  have hbelow : Descending below :=
    hlog.sublist ((List.sublist_cons_self z below).trans (List.sublist_append_right above _))
  cases k with
  | zero => exact absurd rfl hne
  | succ k =>
    match j, hj with
    | 0, _ => exact ⟨z, List.mem_cons_self, htz.le⟩
    | 1, _ =>
      cases below with
      | nil => cases htbelow
      | cons b below => exact ⟨b, List.mem_cons_self, hbelow.le_head htbelow⟩

end Segment
