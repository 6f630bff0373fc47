import Mathlib.Data.List.Sort
import Mathlib.Data.List.Infix

/- A list under headings: an entry comes under the heading of its key, and a heading is written
   where the key changes.

   `sectionsFrom` writes the headings entry by entry, and goes on where a list goes on
   (`sectionsFrom_append`). For entries whose keys descend it gives one section for every key,
   the key's heading and then its entries (`isSectioned_sections`). -/
namespace Sections

variable {α κ : Type*}

/-- A line of the list. -/
inductive Line (α κ : Type*) where
  | heading (key : κ)
  | entry (a : α)

/-- Every key has one section: its heading and then its entries, in their order. -/
def IsSectioned [LinearOrder κ] (key : α → κ) (lines : List (Line α κ)) (l : List α) : Prop :=
  ∃ keys : List κ, keys.Pairwise (· > ·) ∧ (∀ k, k ∈ keys ↔ ∃ a ∈ l, key a = k) ∧
    lines = keys.flatMap fun k => .heading k :: (l.filter (key · = k)).map .entry

section Lines
variable [DecidableEq κ] (key : α → κ)

/-- The lines of entries that come after one of the key `prev`. -/
def sectionsFrom (prev : Option κ) : List α → List (Line α κ)
  | [] => []
  | a :: l =>
    if prev = some (key a) then .entry a :: sectionsFrom (some (key a)) l
    else .heading (key a) :: .entry a :: sectionsFrom (some (key a)) l

def sections (l : List α) : List (Line α κ) := sectionsFrom key none l

/-- The key of the last entry, or the one before the list. -/
def lastKey (prev : Option κ) : List α → Option κ
  | [] => prev
  | a :: l => lastKey (some (key a)) l

@[simp] theorem sectionsFrom_nil (prev : Option κ) : sectionsFrom key prev [] = [] := rfl

theorem sectionsFrom_cons_same (a : α) (l : List α) : sectionsFrom key (some (key a)) (a :: l) =
    .entry a :: sectionsFrom key (some (key a)) l := by
  rw [sectionsFrom, if_pos rfl]

theorem sectionsFrom_cons_new {prev : Option κ} {a : α} (h : prev ≠ some (key a)) (l : List α) :
    sectionsFrom key prev (a :: l) =
      .heading (key a) :: .entry a :: sectionsFrom key (some (key a)) l := by
  rw [sectionsFrom, if_neg h]

omit [DecidableEq κ] in
theorem lastKey_eq (prev : Option κ) (l : List α) :
    lastKey key prev l = (l.getLast?.map key).or prev := by
  induction l generalizing prev with
  | nil => rfl
  | cons a l ih =>
    rw [lastKey, ih]
    cases l with
    | nil => rfl
    | cons b l => rw [List.getLast?_cons_cons, List.getLast?_eq_some_getLast (by simp)]; rfl

/-- The lines go on where the list goes on. -/
theorem sectionsFrom_append (prev : Option κ) (l l' : List α) :
    sectionsFrom key prev (l ++ l') =
      sectionsFrom key prev l ++ sectionsFrom key (lastKey key prev l) l' := by
  induction l generalizing prev with
  | nil => rfl
  | cons a l ih =>
    rw [List.cons_append, sectionsFrom, sectionsFrom, lastKey, ih]
    by_cases hprev : prev = some (key a)
    · rw [if_pos hprev, if_pos hprev, List.cons_append]
    · rw [if_neg hprev, if_neg hprev, List.cons_append, List.cons_append]

end Lines

/-! ## The sections -/

section Sectioned
variable [LinearOrder κ] (key : α → κ)

theorem isSectioned_nil : IsSectioned key [] ([] : List α) :=
  ⟨[], List.Pairwise.nil, by simp, rfl⟩

/-- The section of a key that no entry has is its heading. -/
theorem flatMap_filter_cons_of_ne {a : α} {keys : List κ} (l : List α) (h : key a ∉ keys) :
    keys.flatMap (fun k => Line.heading k :: ((a :: l).filter (key · = k)).map .entry) =
      keys.flatMap fun k => .heading k :: (l.filter (key · = k)).map .entry := by
  apply List.flatMap_congr
  intro k hk
  have hne : key a ≠ k := fun heq => h (heq ▸ hk)
  rw [List.filter_cons_of_neg (by simpa using hne)]

/-- An entry of a new key, above all others, opens a section. -/
theorem IsSectioned.cons_new {lines : List (Line α κ)} {a : α} {l : List α}
    (h : IsSectioned key lines l) (ha : ∀ b ∈ l, key b < key a) :
    IsSectioned key (.heading (key a) :: .entry a :: lines) (a :: l) := by
  obtain ⟨keys, hdesc, hmem, hlines⟩ := h
  have hbelow : ∀ k ∈ keys, k < key a := by
    intro k hk
    obtain ⟨b, hb, hkey⟩ := (hmem k).1 hk
    exact hkey ▸ ha b hb
  refine ⟨key a :: keys, List.pairwise_cons.2 ⟨hbelow, hdesc⟩, ?_, ?_⟩
  · intro k
    rw [List.mem_cons, hmem, List.exists_mem_cons_iff, eq_comm]
  · have hsection : (a :: l).filter (key · = key a) = [a] := by
      rw [List.filter_cons_of_pos (by simp), List.filter_eq_nil_iff.2]
      intro b hb
      simpa using (ha b hb).ne
    rw [List.flatMap_cons, hsection,
      flatMap_filter_cons_of_ne key l fun hk => lt_irrefl _ (hbelow _ hk), ← hlines]
    rfl

/-- An entry of the first section's key comes under its heading. -/
theorem IsSectioned.cons_same {lines : List (Line α κ)} {a : α} {l : List α}
    (h : IsSectioned key (.heading (key a) :: lines) l) :
    IsSectioned key (.heading (key a) :: .entry a :: lines) (a :: l) := by
  obtain ⟨keys, hdesc, hmem, hlines⟩ := h
  cases keys with
  | nil => cases hlines
  | cons k keys =>
    rw [List.flatMap_cons, List.cons_append] at hlines
    obtain ⟨hk, hrest⟩ := List.cons.inj hlines
    have hka : k = key a := (Line.heading.inj hk).symm
    subst hka
    obtain ⟨hbelow, -⟩ := List.pairwise_cons.1 hdesc
    refine ⟨key a :: keys, hdesc, ?_, ?_⟩
    · intro k
      rw [hmem, List.exists_mem_cons_iff]
      constructor
      · exact Or.inr
      · intro hor
        obtain hhead | htail := hor
        · exact (hmem k).1 (hhead ▸ List.mem_cons_self)
        · exact htail
    · rw [List.flatMap_cons, List.filter_cons_of_pos (by simp),
        flatMap_filter_cons_of_ne key l fun hk => lt_irrefl _ (hbelow _ hk), hrest]
      rfl

/-- Under headings where the key changes, entries with descending keys are one section for
    every key. -/
theorem isSectioned_sections {l : List α} (h : l.Pairwise fun a b => key b ≤ key a) :
    IsSectioned key (sections key l) l := by
  induction l with
  | nil => exact isSectioned_nil key
  | cons a l ih =>
    obtain ⟨hle, hpair⟩ := List.pairwise_cons.1 h
    have hl := ih hpair
    rw [sections, sectionsFrom_cons_new key (by simp)]
    cases l with
    | nil => exact (isSectioned_nil key).cons_new key (by simp)
    | cons b l =>
      rw [sections, sectionsFrom_cons_new key (by simp)] at hl
      by_cases hkey : key b = key a
      · rw [hkey] at hl
        rw [← hkey, sectionsFrom_cons_same, hkey]
        exact hl.cons_same key
      · rw [sectionsFrom_cons_new key fun heq => hkey (Option.some.inj heq).symm]
        refine hl.cons_new key ?_
        intro c hc
        have hba : key b < key a := lt_of_le_of_ne (hle b List.mem_cons_self) hkey
        cases hc with
        | head => exact hba
        | tail _ hc => exact lt_of_le_of_lt (List.rel_of_pairwise_cons hpair hc) hba

end Sectioned

end Sections
