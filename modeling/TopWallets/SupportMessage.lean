import TopWallets.Exceptions
import Mathlib.Data.List.Basic

/- The comment of a support transaction: `SupportSendController.Continue` writes a name and a
   message into it, and `TotalPanel.ParseMessage` reads them.

   The message is written in quotes, after the name and a space. The reader takes what is before
   the first quote as the name, the space with it, and where the quote is not closed it ends the
   message before the last character.

   Main result: what is read is what was written exactly when there is no name or no message, or
   the name fills its limit, and of a message that is not closed exactly when there is nothing of it
   or more than its limit (`parseMessage_iff`).

   Correspondence (C# ↔ Lean):
     `IndexOf`, `Substring`            ↔ `indexOf`, `substring`
     `SupportContainer.ParseMessage`   ↔ `parseMessage`
     `SupportSendController.Continue`  ↔ `continueMessage`
   A text is its UTF-16 units. -/
namespace TotalPanel
open Ton (Exception ok_bind)

abbrev Text := List UInt16

def quote : UInt16 := 34

def space : UInt16 := 32

/-- `IndexOf` of a quote. -/
def indexOf (s : Text) (startIndex : Int) : Except Exception Int :=
  if startIndex < 0 ∨ s.length < startIndex then .error .argumentOutOfRange
  else match (s.drop startIndex.toNat).findIdx? (· = quote) with
    | some i => .ok (startIndex + i)
    | none => .ok (-1)

def substring (s : Text) (startIndex length : Int) : Except Exception Text :=
  if startIndex < 0 ∨ length < 0 ∨ s.length < startIndex + length then .error .argumentOutOfRange
  else .ok ((s.drop startIndex.toNat).take length.toNat)

/-- `MainSettings.Current.Remote.Support`. -/
structure SupportSetting where
  maxTops : Nat
  maxDays : Nat
  maxNameLenght : Nat
  maxMessageLenght : Nat

variable (S : SupportSetting)

/-- A text that is too long is cut. -/
def cut (max : Nat) (text : Text) : Except Exception Text :=
  if text.length > max then substring text 0 max else .ok text

/-- What follows the first quote. -/
def parseQuoted (msg : Text) (index : Int) : Except Exception (Option Text) :=
  if index < msg.length - 1 then do
    let endIndex ← indexOf msg (index + 1)
    let endIndex := if endIndex = -1 then (msg.length : Int) - 1 else endIndex
    let message ← substring msg (index + 1) (endIndex - index - 1)
    some <$> cut S.maxMessageLenght message
  else .ok none

/-- A name that is null or empty is left. -/
def cutName (name : Option Text) : Except Exception (Option Text) :=
  match name with
  | none => .ok none
  | some name => if name = [] then .ok (some name) else some <$> cut S.maxNameLenght name

def parseMessage (msg : Option Text) : Except Exception (Option Text × Option Text) :=
  match msg with
  | none => .ok (none, none)
  | some msg =>
    if msg = [] then .ok (none, none)
    else do
      let index ← indexOf msg 0
      if index ≠ -1 then
        let message ← parseQuoted S msg index
        let name ← substring msg 0 index
        let name ← cutName S (some name)
        return (name, message)
      else
        let name ← cutName S (some msg)
        return (name, none)

def unquoted (text : Text) : Text := text.filter (· ≠ quote)

/-- The comment that `Continue` sends, null without a name and a message. -/
def continueMessage (name text : Text) : Option Text :=
  let message := if name ≠ [] then some (unquoted name) else none
  if text ≠ [] then
    some (message.getD [] ++ ((if message ≠ none then [space] else []) ++
      quote :: (unquoted text ++ [quote])))
  else message

/-- The name and the message are read, an empty one as such or as null. -/
def ReadsBack (name text : Text) : Prop :=
  ∃ name' message, parseMessage S (continueMessage name text) = .ok (name', message) ∧
    name'.getD [] = unquoted name ∧ message.getD [] = unquoted text

/-! ## Reading -/

theorem indexOf_append {s : Text} (hs : quote ∉ s) (before rest : Text) :
    indexOf (before ++ (s ++ quote :: rest)) before.length = .ok (before.length + s.length) := by
  have hfind : (s ++ quote :: rest).findIdx? (· = quote) = some s.length := by
    have hnone : s.findIdx? (fun c => decide (c = quote)) = none := by
      rw [List.findIdx?_eq_none_iff]
      intro c hc
      exact decide_eq_false (fun h => hs (h ▸ hc))
    rw [List.findIdx?_append, hnone]
    simp [List.findIdx?_cons]
  have hin : ¬ ((before.length : Int) < 0 ∨
      ((before ++ (s ++ quote :: rest)).length : Int) < before.length) := by
    rw [List.length_append]
    omega
  rw [indexOf, if_neg hin, Int.toNat_natCast, List.drop_left, hfind]

theorem indexOf_none {s : Text} (hs : quote ∉ s) (before : Text) :
    indexOf (before ++ s) before.length = .ok (-1) := by
  have hnone : s.findIdx? (fun c => decide (c = quote)) = none := by
    rw [List.findIdx?_eq_none_iff]
    intro c hc
    exact decide_eq_false (fun h => hs (h ▸ hc))
  have hin : ¬ ((before.length : Int) < 0 ∨ ((before ++ s).length : Int) < before.length) := by
    rw [List.length_append]
    omega
  rw [indexOf, if_neg hin, Int.toNat_natCast, List.drop_left, hnone]

theorem substring_append (before s rest : Text) :
    substring (before ++ (s ++ rest)) before.length s.length = .ok s := by
  have hin : ¬ ((before.length : Int) < 0 ∨ (s.length : Int) < 0 ∨
      ((before ++ (s ++ rest)).length : Int) < before.length + s.length) := by
    rw [List.length_append, List.length_append]
    omega
  rw [substring, if_neg hin, Int.toNat_natCast, Int.toNat_natCast, List.drop_left, List.take_left]

theorem cut_eq (max : Nat) (text : Text) : cut max text = .ok (text.take max) := by
  unfold cut
  split
  · next h =>
    have hin : ¬ ((0 : Int) < 0 ∨ (max : Int) < 0 ∨ (text.length : Int) < 0 + max) := by omega
    rw [substring, if_neg hin]
    rfl
  · next h => rw [List.take_of_length_le (by omega)]

theorem cutName_some (name : Text) :
    cutName S (some name) = .ok (some (name.take S.maxNameLenght)) := by
  rw [cutName]
  by_cases h : name = []
  · simp only [if_pos h]
    rw [h, List.take_nil]
  · simp only [if_neg h, cut_eq]
    rfl

/-- What is read after the first quote. -/
def quoted (r : Text) : Text :=
  if quote ∈ r then r.takeWhile (· ≠ quote) else r.dropLast

theorem exists_quote {r : Text} (h : quote ∈ r) :
    ∃ c, quote ∉ r.takeWhile (· ≠ quote) ∧ r = r.takeWhile (· ≠ quote) ++ quote :: c := by
  induction r with
  | nil => cases h
  | cons u r ih =>
    by_cases hu : u = quote
    · exact ⟨r, by simp [hu], by simp [hu]⟩
    · have hr : quote ∈ r := by
        cases h with
        | head => exact absurd rfl hu
        | tail _ h => exact h
      obtain ⟨c, hnot, hc⟩ := ih hr
      have htake : (u :: r).takeWhile (· ≠ quote) = u :: r.takeWhile (· ≠ quote) :=
        List.takeWhile_cons_of_pos (by simp [hu])
      rw [htake]
      refine ⟨c, ?_, by rw [List.cons_append, ← hc]⟩
      intro hq
      cases hq with
      | head => exact hu rfl
      | tail _ hq => exact hnot hq

theorem parseQuoted_nil (a : Text) :
    parseQuoted S (a ++ [quote]) a.length = .ok none := by
  have hlast : ¬ ((a.length : Int) < (a ++ [quote]).length - 1) := by
    rw [List.length_append]
    simp
  rw [parseQuoted, if_neg hlast]

theorem parseQuoted_cons (a : Text) {r : Text} (hr : r ≠ []) :
    parseQuoted S (a ++ quote :: r) a.length = .ok (some ((quoted r).take S.maxMessageLenght)) := by
  have hpos : 0 < r.length := List.length_pos_iff.mpr hr
  have hbefore : a ++ quote :: r = (a ++ [quote]) ++ r := (List.append_cons a quote r)
  have hlength : ((a ++ [quote]).length : Int) = a.length + 1 := by simp
  have hlt : (a.length : Int) < (a ++ quote :: r).length - 1 := by
    rw [List.length_append, List.length_cons]
    omega
  rw [parseQuoted, if_pos hlt, hbefore, ← hlength]
  unfold quoted
  by_cases hq : quote ∈ r
  · obtain ⟨c, hnot, hc⟩ := exists_quote hq
    rw [if_pos hq]
    generalize r.takeWhile (· ≠ quote) = b at hnot hc ⊢
    have hend : ¬ ((a ++ [quote]).length + (b.length : Int) = -1) := by omega
    have hcount : (a ++ [quote]).length + (b.length : Int) - a.length - 1 = b.length := by omega
    rw [hc, indexOf_append hnot, ok_bind]
    simp only [if_neg hend, hcount]
    rw [substring_append, ok_bind, cut_eq]
    rfl
  · have hcount : (((a ++ [quote]) ++ r).length : Int) - 1 - a.length - 1 = r.dropLast.length := by
      rw [List.length_append, List.length_dropLast]
      omega
    rw [if_neg hq, indexOf_none hq, ok_bind]
    simp only [if_true, hcount]
    have hdrop : r = r.dropLast ++ [r.getLast hr] := (List.dropLast_append_getLast hr).symm
    have hsub : substring ((a ++ [quote]) ++ r) (a ++ [quote]).length r.dropLast.length =
        .ok r.dropLast := by
      calc substring ((a ++ [quote]) ++ r) (a ++ [quote]).length r.dropLast.length
          = substring ((a ++ [quote]) ++ (r.dropLast ++ [r.getLast hr])) (a ++ [quote]).length
              r.dropLast.length := by rw [← hdrop]
        _ = .ok r.dropLast := substring_append _ _ _
    rw [hsub, ok_bind, cut_eq]
    rfl

theorem parseMessage_quote {a : Text} (ha : quote ∉ a) (r : Text) :
    parseMessage S (some (a ++ quote :: r)) = .ok (some (a.take S.maxNameLenght),
      if r = [] then none else some ((quoted r).take S.maxMessageLenght)) := by
  have hne : a ++ quote :: r ≠ [] := by simp
  have hindex : indexOf (a ++ quote :: r) 0 = .ok a.length := by
    have h := indexOf_append ha [] r
    simpa using h
  have hname : substring (a ++ quote :: r) 0 a.length = .ok a := by
    have h := substring_append [] a (quote :: r)
    simpa using h
  have hfound : (a.length : Int) ≠ -1 := by omega
  have hquoted : parseQuoted S (a ++ quote :: r) a.length =
      .ok (if r = [] then none else some ((quoted r).take S.maxMessageLenght)) := by
    by_cases hr : r = []
    · rw [if_pos hr, hr, parseQuoted_nil]
    · rw [if_neg hr, parseQuoted_cons S a hr]
  rw [parseMessage]
  simp only [if_neg hne, hindex, ok_bind, if_pos hfound, hquoted, hname, cutName_some]
  rfl

theorem parseMessage_plain {msg : Text} (hmsg : quote ∉ msg) :
    parseMessage S (some msg) =
      .ok (if msg = [] then none else some (msg.take S.maxNameLenght), none) := by
  rw [parseMessage]
  by_cases hne : msg = []
  · simp only [if_pos hne]
  · have hindex : indexOf msg 0 = .ok (-1) := indexOf_none hmsg []
    have hfound : ¬ ((-1 : Int) ≠ -1) := by omega
    simp only [if_neg hne, hindex, ok_bind, if_neg hfound, cutName_some]
    rfl

theorem parseMessage_ok (msg : Option Text) : ∃ read, parseMessage S msg = .ok read := by
  cases msg with
  | none => exact ⟨(none, none), rfl⟩
  | some msg =>
    by_cases hq : quote ∈ msg
    · obtain ⟨c, hnot, hc⟩ := exists_quote hq
      rw [hc]
      exact ⟨_, parseMessage_quote S hnot c⟩
    · exact ⟨_, parseMessage_plain S hq⟩

/-! ## Reading what was written -/

theorem quote_not_mem_unquoted (text : Text) : quote ∉ unquoted text := by
  simp [unquoted]

theorem length_unquoted_le (text : Text) : (unquoted text).length ≤ text.length :=
  List.length_filter_le _ _

theorem quoted_append {b : Text} (hb : quote ∉ b) : quoted (b ++ [quote]) = b := by
  have hq : quote ∈ b ++ [quote] := by simp
  have hall : ∀ u ∈ b, decide (u ≠ quote) = true := by
    intro u hu
    exact decide_eq_true (fun h => hb (h ▸ hu))
  rw [quoted, if_pos hq, List.takeWhile_append_of_pos hall]
  simp

theorem readsBack_of_parse {name text : Text} {name' message : Option Text}
    (h : parseMessage S (continueMessage name text) = .ok (name', message)) :
    ReadsBack S name text ↔ name'.getD [] = unquoted name ∧ message.getD [] = unquoted text := by
  constructor
  · intro hread
    obtain ⟨name'', message', hparse, heq⟩ := hread
    rw [h] at hparse
    cases hparse
    exact heq
  · intro heq
    exact ⟨name', message, h, heq⟩

/-- Without a message the comment is the name alone. -/
theorem readsBack_nil {name : Text} (hname : name.length ≤ S.maxNameLenght) :
    ReadsBack S name [] := by
  by_cases hne : name = []
  · rw [hne]
    exact ⟨none, none, rfl, rfl, rfl⟩
  · have hcomment : continueMessage name [] = some (unquoted name) := by
      simp [continueMessage, hne]
    have hparse := parseMessage_plain S (quote_not_mem_unquoted name)
    rw [← hcomment] at hparse
    rw [readsBack_of_parse S hparse]
    have hfits : (unquoted name).take S.maxNameLenght = unquoted name :=
      List.take_of_length_le (Nat.le_trans (length_unquoted_le name) hname)
    refine ⟨?_, rfl⟩
    by_cases h : unquoted name = []
    · rw [if_pos h, h]
      rfl
    · rw [if_neg h, hfits]
      rfl

/-- The comment with a message: the name, with the space after it, and the message in quotes. -/
theorem parse_continueMessage (name : Text) {text : Text} (htext : text ≠ [])
    (hlength : text.length ≤ S.maxMessageLenght) :
    parseMessage S (continueMessage name text) =
      .ok (some ((if name = [] then [] else unquoted name ++ [space]).take S.maxNameLenght),
        some (unquoted text)) := by
  have hsign : quote ∉ (if name = [] then [] else unquoted name ++ [space]) := by
    split
    · exact List.not_mem_nil
    · intro h
      cases List.mem_append.mp h with
      | inl h => exact quote_not_mem_unquoted name h
      | inr h => exact absurd (List.mem_singleton.mp h) (by decide)
  have hcomment : continueMessage name text =
      some ((if name = [] then [] else unquoted name ++ [space]) ++
        quote :: (unquoted text ++ [quote])) := by
    by_cases h : name = []
    · simp [continueMessage, htext, h]
    · simp [continueMessage, htext, h]
  have hfits : (unquoted text).take S.maxMessageLenght = unquoted text :=
    List.take_of_length_le (Nat.le_trans (length_unquoted_le text) hlength)
  have hclosed : unquoted text ++ [quote] ≠ [] := by simp
  rw [hcomment, parseMessage_quote S hsign, if_neg hclosed,
    quoted_append (quote_not_mem_unquoted text), hfits]

theorem continueMessage_readsBack {name text : Text} (hname : name.length ≤ S.maxNameLenght)
    (htext : text.length ≤ S.maxMessageLenght) :
    ReadsBack S name text ↔
      name = [] ∨ text = [] ∨ (unquoted name).length = S.maxNameLenght := by
  by_cases hnone : text = []
  · rw [hnone]
    exact iff_of_true (readsBack_nil S hname) (Or.inr (Or.inl rfl))
  rw [readsBack_of_parse S (parse_continueMessage S name hnone htext)]
  by_cases hempty : name = []
  · rw [hempty]
    exact iff_of_true ⟨by simp [unquoted], rfl⟩ (Or.inl rfl)
  have hle := Nat.le_trans (length_unquoted_le name) hname
  simp only [hempty, hnone, if_false, false_or, Option.getD_some, and_true]
  constructor
  · intro h
    -- where there is room for it, the space is read with the name
    have hlength := congrArg List.length h
    rw [List.length_take, List.length_append, List.length_singleton] at hlength
    omega
  · intro h
    rw [List.take_append_of_le_length (by omega), ← h, List.take_length]

/-! ## A message that is not closed -/

/-- The message is the rest of the comment, to its limit. -/
def ReadsRest (a r : Text) : Prop :=
  ∃ name message, parseMessage S (some (a ++ quote :: r)) = .ok (name, message) ∧
    message.getD [] = r.take S.maxMessageLenght

theorem readsRest_iff {a r : Text} (ha : quote ∉ a) (hr : quote ∉ r) :
    ReadsRest S a r ↔ r = [] ∨ S.maxMessageLenght < r.length := by
  have hparse := parseMessage_quote S ha r
  have hread : ReadsRest S a r ↔
      (if r = [] then none else some ((quoted r).take S.maxMessageLenght)).getD [] =
        r.take S.maxMessageLenght := by
    constructor
    · intro h
      obtain ⟨name, message, heq, hrest⟩ := h
      rw [hparse] at heq
      cases heq
      exact hrest
    · intro h
      exact ⟨_, _, hparse, h⟩
  rw [hread]
  by_cases hne : r = []
  · rw [hne]
    exact iff_of_true (by simp) (Or.inl rfl)
  have hpos : 0 < r.length := List.length_pos_iff.mpr hne
  simp only [hne, if_false, false_or, Option.getD_some, quoted, hr]
  constructor
  · intro h
    have hlength := congrArg List.length h
    rw [List.length_take, List.length_take, List.length_dropLast] at hlength
    omega
  · intro h
    rw [List.dropLast_eq_take, List.take_take, Nat.min_eq_left (by omega)]

/-- A name and a message come back exactly where one of them is missing or the name fills its
    limit; the reader does not throw; and a message that is not closed is the rest of the comment
    exactly where there is none of it or it is longer than the limit. -/
theorem parseMessage_iff :
    (∀ name text : Text, name.length ≤ S.maxNameLenght → text.length ≤ S.maxMessageLenght →
      (ReadsBack S name text ↔
        name = [] ∨ text = [] ∨ (unquoted name).length = S.maxNameLenght)) ∧
    (∀ msg, ∃ read, parseMessage S msg = .ok read) ∧
    (∀ a r : Text, quote ∉ a → quote ∉ r →
      (ReadsRest S a r ↔ r = [] ∨ S.maxMessageLenght < r.length)) := by
  refine ⟨?_, parseMessage_ok S, ?_⟩
  · intro name text hname htext
    exact continueMessage_readsBack S hname htext
  · intro a r ha hr
    exact readsRest_iff S ha hr

/-- The name `B` comes back with the space, and of `"hi` only `h` is read. -/
theorem not_readsBack_one :
    ¬ ReadsBack ⟨3, 30, 10, 10⟩ [66] [104, 105] ∧ ¬ ReadsRest ⟨3, 30, 10, 10⟩ [] [104, 105] := by
  constructor
  · intro h
    obtain ⟨name, message, hparse, hname, -⟩ := h
    have hread : parseMessage ⟨3, 30, 10, 10⟩ (continueMessage [66] [104, 105]) =
        .ok (some [66, 32], some [104, 105]) := rfl
    rw [hread] at hparse
    cases hparse
    exact absurd hname (by decide)
  · intro h
    obtain ⟨name, message, hparse, hmessage⟩ := h
    have hread : parseMessage ⟨3, 30, 10, 10⟩ (some ([] ++ quote :: [104, 105])) =
        .ok (some [], some [104]) := rfl
    rw [hread] at hparse
    cases hparse
    exact absurd hmessage (by decide)

end TotalPanel
