import Mathlib.Order.WithBot
import Mathlib.Data.List.Basic

/- Reading a log page by page with a time for the cursor.

   The log is newest first, and several entries may have one time. A request names a
   cursor and is answered by the newest `count` entries that are not newer than it. The
   reader takes those that are older and wanted; the time of the last one is the next
   cursor. When a page leaves it nothing, it ends. A call may fail, and then nothing
   changes.

   What a page takes is the front of what is left (`page_prefix_rest`). So nothing is read
   twice, and a call loses exactly the wanted entries behind the page that have the last
   one's time, or everything when the page leaves nothing. The reader ends with the
   wanted entries exactly when no call fails or loses one (`ends_complete_iff`). -/
namespace Paging

/-- A log in order, and what a reader wants of it and fails at. -/
structure Source (α τ : Type*) [LinearOrder τ] where
  log : List α
  time : α → τ
  wanted : α → Bool
  fails : α → Bool
  count : Nat
  sorted : log.Pairwise fun a b => time b ≤ time a

structure State (α τ : Type*) where
  cursor : WithTop τ
  visited : List α
  ended : Bool

variable {α τ : Type*} [LinearOrder τ]

namespace Source
variable (P : Source α τ)

/-- The answer to a request. -/
def fetch (cursor : WithTop τ) : List α :=
  (P.log.filter fun a => (P.time a : WithTop τ) ≤ cursor).take P.count

/-- What is older than the cursor. -/
def older (cursor : WithTop τ) (l : List α) : List α :=
  l.filter fun a => (P.time a : WithTop τ) < cursor

/-- What the reader takes of the answer. -/
def page (cursor : WithTop τ) : List α := (P.older cursor (P.fetch cursor)).filter P.wanted

/-- What is left to be read. -/
def rest (cursor : WithTop τ) : List α := (P.older cursor P.log).filter P.wanted

/-- The answer has an entry older than the cursor at which the reader fails. -/
def Fails (cursor : WithTop τ) : Prop := ∃ a ∈ P.older cursor (P.fetch cursor), P.fails a

instance (cursor : WithTop τ) : Decidable (P.Fails cursor) :=
  inferInstanceAs (Decidable (∃ a ∈ _, _))

/-- One call. -/
def next (s : State α τ) : State α τ :=
  if s.ended = true ∨ P.Fails s.cursor then s
  else match (P.page s.cursor).getLast? with
    | none => { s with ended := true }
    | some a => ⟨P.time a, s.visited ++ P.page s.cursor, false⟩

/-- The state after a number of calls. -/
def calls : Nat → State α τ
  | 0 => ⟨⊤, [], false⟩
  | n + 1 => P.next (calls n)

/-- The call does not fail, and loses nothing. -/
structure Complete (cursor : WithTop τ) : Prop where
  answered : ¬ P.Fails cursor
  exhausted : P.page cursor = [] → P.rest cursor = []
  untied : ∀ a ∈ (P.page cursor).getLast?,
    ∀ b ∈ (P.rest cursor).drop (P.page cursor).length, P.time b ≠ P.time a

/-- What was read and what can still be. -/
def total (s : State α τ) : List α := s.visited ++ if s.ended then [] else P.rest s.cursor

/-! ## One page -/

/-- Of a log in order, what is not newer than the cursor are the entries at its time, and then the
older ones. -/
theorem filter_le_eq {log : List α} (hlog : log.Pairwise fun a b => P.time b ≤ P.time a)
    (cursor : WithTop τ) : log.filter (fun a => (P.time a : WithTop τ) ≤ cursor) =
      log.filter (fun a => (P.time a : WithTop τ) = cursor) ++ P.older cursor log := by
  unfold older
  induction log with
  | nil => rfl
  | cons a log ih =>
    rw [List.pairwise_cons] at hlog
    obtain hlt | heq | hgt := lt_trichotomy (P.time a : WithTop τ) cursor
    · -- an older entry comes first, so that none is at the time of the cursor
      have hnone : log.filter (fun b => (P.time b : WithTop τ) = cursor) = [] := by
        refine List.filter_eq_nil_iff.2 fun b hb => ?_
        have hle : (P.time b : WithTop τ) ≤ P.time a := WithTop.coe_le_coe.2 (hlog.1 b hb)
        simpa using (hle.trans_lt hlt).ne
      rw [List.filter_cons_of_pos (by simpa using hlt.le), ih hlog.2, hnone,
        List.filter_cons_of_neg (by simpa using hlt.ne), hnone,
        List.filter_cons_of_pos (by simpa using hlt)]
      rfl
    · rw [List.filter_cons_of_pos (by simpa using heq.le), ih hlog.2,
        List.filter_cons_of_pos (by simpa using heq),
        List.filter_cons_of_neg (by simpa using heq.ge)]
      rfl
    · rw [List.filter_cons_of_neg (by simpa using hgt), ih hlog.2,
        List.filter_cons_of_neg (by simpa using hgt.ne'),
        List.filter_cons_of_neg (by simpa using hgt.le)]

/-- The answer has the front of what is older. -/
theorem older_fetch (cursor : WithTop τ) :
    ∃ n, P.older cursor (P.fetch cursor) = (P.older cursor P.log).take n := by
  have hties : ((P.log.filter fun a => (P.time a : WithTop τ) = cursor).take P.count).filter
      (fun a => (P.time a : WithTop τ) < cursor) = [] := by
    refine List.filter_eq_nil_iff.2 fun a ha => ?_
    have heq := List.of_mem_filter (List.mem_of_mem_take ha)
    simpa using (of_decide_eq_true heq).ge
  refine ⟨P.count - (P.log.filter fun a => (P.time a : WithTop τ) = cursor).length, ?_⟩
  rw [fetch, P.filter_le_eq P.sorted, List.take_append, older, List.filter_append, hties,
    List.nil_append]
  refine List.filter_eq_self.2 fun a ha => ?_
  have hmem : a ∈ P.older cursor P.log := List.mem_of_mem_take ha
  exact (List.mem_filter.1 hmem).2

/-- A page is the front of what is left. -/
theorem page_prefix_rest (cursor : WithTop τ) : P.page cursor <+: P.rest cursor := by
  obtain ⟨n, hn⟩ := P.older_fetch cursor
  rw [page, rest, hn]
  exact (List.take_prefix n _).filter P.wanted

theorem rest_pairwise (cursor : WithTop τ) :
    (P.rest cursor).Pairwise fun a b => P.time b ≤ P.time a :=
  P.sorted.sublist (List.filter_sublist.trans List.filter_sublist)

variable {P}

theorem lt_of_mem_rest {cursor : WithTop τ} {a : α} (ha : a ∈ P.rest cursor) :
    (P.time a : WithTop τ) < cursor := by
  have hmem : a ∈ P.older cursor P.log := List.mem_of_mem_filter ha
  simpa using (List.mem_filter.1 hmem).2

/-- No entry is older than the last one. -/
theorem last_le {l : List α} (hl : l.Pairwise fun a b => P.time b ≤ P.time a) {a : α}
    (ha : a ∈ l.getLast?) {b : α} (hb : b ∈ l) : P.time a ≤ P.time b := by
  obtain ⟨front, rfl⟩ := List.getLast?_eq_some_iff.1 ha
  rw [List.pairwise_append] at hl
  obtain hfront | hlast := List.mem_append.1 hb
  · exact hl.2.2 b hfront a List.mem_cons_self
  · rw [List.mem_singleton.1 hlast]

/-- After a page what is left are the entries behind it without those that have the time of its
last one. -/
theorem rest_last {cursor : WithTop τ} {a : α} (ha : a ∈ (P.page cursor).getLast?) :
    P.rest (P.time a) = ((P.rest cursor).drop (P.page cursor).length).filter
      fun b => P.time b < P.time a := by
  have hbegins := P.page_prefix_rest cursor
  have hlt := lt_of_mem_rest (hbegins.subset (List.mem_of_getLast? ha))
  have hrest : P.rest (P.time a) = (P.rest cursor).filter fun b => P.time b < P.time a := by
    unfold rest older
    rw [List.filter_filter, List.filter_filter, List.filter_filter]
    refine List.filter_congr fun b _ => ?_
    by_cases hb : P.time b < P.time a
    · have hbc : (P.time b : WithTop τ) < cursor := (WithTop.coe_lt_coe.2 hb).trans hlt
      simp [hb, hbc]
    · simp [hb]
  have hpage : (P.page cursor).filter (fun b => P.time b < P.time a) = [] := by
    refine List.filter_eq_nil_iff.2 fun b hb => ?_
    have hle := last_le ((P.rest_pairwise cursor).sublist hbegins.sublist) ha hb
    simpa using hle
  obtain ⟨tail, htail⟩ := hbegins
  rw [hrest, ← htail, List.filter_append, hpage, List.nil_append, List.drop_left]

/-! ## One call -/

theorem next_of_ended {s : State α τ} (hs : s.ended = true) : P.next s = s :=
  if_pos (.inl hs)

theorem next_of_fails {s : State α τ} (hfails : P.Fails s.cursor) : P.next s = s :=
  if_pos (.inr hfails)

theorem next_of_nil {s : State α τ} (hs : s.ended = false) (hanswered : ¬ P.Fails s.cursor)
    (hnil : P.page s.cursor = []) : P.next s = { s with ended := true } := by
  unfold next
  rw [if_neg (by simp [hs, hanswered]), hnil]
  rfl

theorem next_of_last {s : State α τ} (hs : s.ended = false) (hanswered : ¬ P.Fails s.cursor)
    {a : α} (ha : a ∈ (P.page s.cursor).getLast?) :
    P.next s = ⟨P.time a, s.visited ++ P.page s.cursor, false⟩ := by
  unfold next
  rw [if_neg (by simp [hs, hanswered]), Option.mem_def.1 ha]

/-- What a call does: it fails, it finds nothing and ends, or it takes a page. -/
theorem next_cases {s : State α τ} (hs : s.ended = false) :
    (P.Fails s.cursor ∧ P.next s = s) ∨
    (¬ P.Fails s.cursor ∧ P.page s.cursor = [] ∧ P.next s = { s with ended := true }) ∨
    (¬ P.Fails s.cursor ∧ ∃ a ∈ (P.page s.cursor).getLast?,
      P.next s = ⟨P.time a, s.visited ++ P.page s.cursor, false⟩) := by
  by_cases hfails : P.Fails s.cursor
  · exact .inl ⟨hfails, next_of_fails hfails⟩
  · refine .inr ?_
    cases hlast : (P.page s.cursor).getLast? with
    | none =>
      have hnil := List.getLast?_eq_none_iff.1 hlast
      exact .inl ⟨hfails, hnil, next_of_nil hs hfails hnil⟩
    | some a => exact .inr ⟨hfails, a, rfl, next_of_last hs hfails hlast⟩

/-- What is in sight after a page: what was before, without the entries that have the time of the
last one. -/
theorem total_page {s : State α τ} (hs : s.ended = false) {a : α}
    (ha : a ∈ (P.page s.cursor).getLast?) : ∃ tail,
      P.rest s.cursor = P.page s.cursor ++ tail ∧
      P.total s = s.visited ++ (P.page s.cursor ++ tail) ∧
      P.total ⟨P.time a, s.visited ++ P.page s.cursor, false⟩ =
        s.visited ++ (P.page s.cursor ++ tail.filter fun b => P.time b < P.time a) := by
  obtain ⟨tail, htail⟩ := P.page_prefix_rest s.cursor
  have hlast := rest_last ha
  rw [← htail, List.drop_left] at hlast
  refine ⟨tail, htail.symm, ?_, ?_⟩
  · simp [total, hs, htail]
  · simp [total, hlast]

/-- A call never brings anything into sight. -/
theorem total_next_sublist (s : State α τ) : (P.total (P.next s)).Sublist (P.total s) := by
  cases hs : s.ended with
  | true => rw [next_of_ended hs]
  | false =>
    obtain ⟨-, hnext⟩ | ⟨-, -, hnext⟩ | ⟨-, a, ha, hnext⟩ := next_cases (P := P) hs
    · rw [hnext]
    · rw [hnext, total, total, hs]
      exact List.Sublist.append_left (List.nil_sublist _) _
    · obtain ⟨tail, -, hbefore, hafter⟩ := total_page hs ha
      rw [hnext, hbefore, hafter]
      exact (List.filter_sublist.append_left _).append_left _

/-- A complete call keeps everything in sight, and reads something or ends. -/
theorem total_next_of_complete {s : State α τ} (hs : s.ended = false) (h : P.Complete s.cursor) :
    P.total (P.next s) = P.total s ∧
      ((P.next s).ended = true ∨ s.visited.length < (P.next s).visited.length) := by
  obtain ⟨hfails, -⟩ | ⟨-, hnil, hnext⟩ | ⟨-, a, ha, hnext⟩ := next_cases (P := P) hs
  · exact absurd hfails h.answered
  · rw [hnext]
    refine ⟨?_, .inl rfl⟩
    simp [total, hs, h.exhausted hnil]
  · obtain ⟨tail, htail, hbefore, hafter⟩ := total_page hs ha
    have hpos := List.length_pos_of_mem (List.mem_of_getLast? ha)
    have hkeep : tail.filter (fun b => P.time b < P.time a) = tail := by
      have hsorted := P.rest_pairwise s.cursor
      have huntied := h.untied a ha
      rw [htail, List.pairwise_append] at hsorted
      rw [htail, List.drop_left] at huntied
      refine List.filter_eq_self.2 fun b hb => ?_
      have hle := hsorted.2.2 a (List.mem_of_getLast? ha) b hb
      simpa using hle.lt_of_ne (huntied b hb)
    rw [hnext, hbefore, hafter, hkeep, List.length_append]
    exact ⟨rfl, .inr (by omega)⟩

/-- A call that is answered and is not complete loses something. -/
theorem length_total_next_lt {s : State α τ} (hs : s.ended = false)
    (hanswered : ¬ P.Fails s.cursor) (h : ¬ P.Complete s.cursor) :
    (P.total (P.next s)).length < (P.total s).length := by
  obtain ⟨hfails, -⟩ | ⟨-, hnil, hnext⟩ | ⟨-, a, ha, hnext⟩ := next_cases (P := P) hs
  · exact absurd hfails hanswered
  · have hrest : P.rest s.cursor ≠ [] := by
      intro hrest
      refine h ⟨hanswered, fun _ => hrest, ?_⟩
      rw [hnil]
      exact nofun
    have hpos := List.length_pos_iff.2 hrest
    rw [hnext]
    simpa [total, hs] using hpos
  · obtain ⟨tail, htail, hbefore, hafter⟩ := total_page hs ha
    have htied : ∃ b ∈ tail, P.time b = P.time a := by
      by_contra hnone
      refine h ⟨hanswered, ?_, ?_⟩
      · intro hnil
        rw [hnil] at ha
        cases ha
      · intro a' ha' b hb heq
        obtain rfl := Option.mem_unique ha ha'
        rw [htail, List.drop_left] at hb
        exact hnone ⟨b, hb, heq⟩
    have hlost : (tail.filter fun b => P.time b < P.time a).length < tail.length := by
      obtain ⟨b, hb, heq⟩ := htied
      refine List.length_filter_lt_length_iff_exists.2 ⟨b, hb, ?_⟩
      simpa using heq.ge
    rw [hnext, hbefore, hafter]
    simpa using hlost

/-! ## Runs -/

theorem total_init : P.total (P.calls 0) = P.log.filter P.wanted := by
  have hall : P.older ⊤ P.log = P.log :=
    List.filter_eq_self.2 fun a _ => by simp
  simp [calls, total, rest, hall]

theorem total_calls_sublist {k n : Nat} (hkn : k ≤ n) :
    (P.total (P.calls n)).Sublist (P.total (P.calls k)) := by
  induction n, hkn using Nat.le_induction with
  | base => exact .refl _
  | succ n _ ih => exact (total_next_sublist _).trans ih

/-- What was read is wanted, and is in the order of the log. -/
theorem visited_sublist (n : Nat) : (P.calls n).visited.Sublist (P.log.filter P.wanted) := by
  have htotal : (P.total (P.calls n)).Sublist (P.log.filter P.wanted) := by
    rw [← total_init]
    exact total_calls_sublist (Nat.zero_le n)
  exact (List.sublist_append_left _ _).trans htotal

/-- A state that a call leaves as it is lasts. -/
theorem calls_eq_of_fixed {k n : Nat} (hkn : k ≤ n) (hfixed : P.next (P.calls k) = P.calls k) :
    P.calls n = P.calls k := by
  induction n, hkn using Nat.le_induction with
  | base => rfl
  | succ n _ ih => rw [calls, ih, hfixed]

/-- As long as the calls are complete, everything is in sight and each one reads something. -/
theorem total_calls_of_complete
    (hall : ∀ n, (P.calls n).ended = false → P.Complete (P.calls n).cursor) (n : Nat) :
    P.total (P.calls n) = P.log.filter P.wanted ∧
      ((P.calls n).ended = true ∨ n ≤ (P.calls n).visited.length) := by
  induction n with
  | zero => exact ⟨total_init, .inr (Nat.zero_le _)⟩
  | succ n ih =>
    rw [calls]
    cases hs : (P.calls n).ended with
    | true =>
      rw [next_of_ended hs]
      exact ⟨ih.1, .inl hs⟩
    | false =>
      obtain ⟨htotal, hmore⟩ := total_next_of_complete hs (hall n hs)
      refine ⟨htotal.trans ih.1, hmore.imp_right fun hlt => ?_⟩
      have hle := ih.2.resolve_left (by rw [hs]; exact nofun)
      exact hle.trans_lt hlt

variable (P) in
/-- The reader ends with what is wanted exactly when every call before the end is complete. -/
theorem ends_complete_iff :
    (∃ n, (P.calls n).ended = true ∧ (P.calls n).visited = P.log.filter P.wanted) ↔
      ∀ n, (P.calls n).ended = false → P.Complete (P.calls n).cursor := by
  constructor
  · intro h k hk
    obtain ⟨n, hended, hvisited⟩ := h
    have hkn : k < n := by
      by_contra hnk
      rw [calls_eq_of_fixed (Nat.le_of_not_lt hnk) (next_of_ended hended), hended] at hk
      cases hk
    by_contra hnot
    by_cases hfails : P.Fails (P.calls k).cursor
    · -- a call that fails is repeated for ever
      rw [calls_eq_of_fixed hkn.le (if_pos (.inr hfails)), hk] at hended
      cases hended
    · have hlost := length_total_next_lt hk hfails hnot
      have hlater := (total_calls_sublist (P := P) hkn).length_le
      have hstart := (total_calls_sublist (P := P) (Nat.zero_le k)).length_le
      have hend : P.total (P.calls n) = P.log.filter P.wanted := by
        simp [total, hended, hvisited]
      rw [total_init] at hstart
      rw [hend] at hlater
      exact absurd (hlater.trans_lt (hlost.trans_le hstart)) (Nat.lt_irrefl _)
  · intro hall
    obtain ⟨htotal, hmore⟩ := total_calls_of_complete hall ((P.log.filter P.wanted).length + 1)
    have hended : (P.calls ((P.log.filter P.wanted).length + 1)).ended = true := by
      refine hmore.resolve_right fun hle => ?_
      have hlen := (visited_sublist (P := P) ((P.log.filter P.wanted).length + 1)).length_le
      omega
    refine ⟨_, hended, ?_⟩
    simpa [total, hended] using htotal

end Source

end Paging
