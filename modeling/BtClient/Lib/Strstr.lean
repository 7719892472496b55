import BtClient.Lib.CString
import BtClient.Lib.Strtok
import Mathlib.Data.List.Infix

/-!
# Searching for a string in a string

`FirstOccurrence` says what a search returns without saying how: the text in
front of the first place where the pattern stands. A pattern without a border
(no proper part of it is both its beginning and its end) cannot overlap
itself, so behind a text it is found inside that text or where the text ends.

`strstr` is the search of C in memory, and `strncpy` the bounded copy that
does not always write a terminator.
-/

namespace CLib

/-! ## Occurrences -/

section Occurrences

variable {α : Type} {pat text front : List α}

/-- `front` is what stands in `text` before the first occurrence of `pat`. -/
structure FirstOccurrence (pat text front : List α) : Prop where
  occurs : front ++ pat <+: text
  first : ∀ other, other ++ pat <+: text → front.length ≤ other.length

theorem infix_of_occurs (h : front ++ pat <+: text) : pat <:+: text := by
  obtain ⟨after, rfl⟩ := h
  exact ⟨front, after, rfl⟩

theorem FirstOccurrence.unique {other : List α} (h : FirstOccurrence pat text front)
    (hother : FirstOccurrence pat text other) : front = other := by
  have hlen : front.length = other.length :=
    Nat.le_antisymm (h.first other hother.occurs) (hother.first front h.occurs)
  have hfront : front <+: text := (List.prefix_append front pat).trans h.occurs
  have hother : other <+: text := (List.prefix_append other pat).trans hother.occurs
  exact (List.prefix_of_prefix_length_le hfront hother hlen.le).eq_of_length hlen

/-- A pattern that is not empty does not occur in the text before its first
occurrence. -/
theorem FirstOccurrence.not_infix (h : FirstOccurrence pat text front) (hpat : pat ≠ []) :
    ¬ pat <:+: front := by
  rintro ⟨other, after, hsplit⟩
  have hearlier : other ++ pat <+: text := by
    refine List.IsPrefix.trans ⟨after ++ pat, ?_⟩ h.occurs
    rw [← hsplit, ← List.append_assoc]
  have hle := h.first other hearlier
  have hlen := congrArg List.length hsplit
  have hpos := List.length_pos_of_ne_nil hpat
  simp only [List.length_append] at hlen
  omega

theorem firstOccurrence_nil (h : pat <+: text) : FirstOccurrence pat text [] :=
  ⟨h, fun other _ => Nat.zero_le other.length⟩

/-- Where the pattern does not stand in front, the search goes on behind the
first symbol. -/
theorem FirstOccurrence.cons {c : α} (hnot : ¬ pat <+: c :: text)
    (h : FirstOccurrence pat text front) : FirstOccurrence pat (c :: text) (c :: front) := by
  refine ⟨?_, ?_⟩
  · rw [List.cons_append, List.cons_prefix_cons]
    exact ⟨rfl, h.occurs⟩
  · intro other hother
    cases other with
    | nil => exact absurd hother hnot
    | cons d other =>
      rw [List.cons_append, List.cons_prefix_cons] at hother
      exact Nat.succ_le_succ (h.first other hother.2)

/-- What stands behind an occurrence does not matter. -/
theorem FirstOccurrence.append (h : FirstOccurrence pat text front) (behind : List α) :
    FirstOccurrence pat (text ++ behind) front := by
  refine ⟨h.occurs.trans (List.prefix_append text behind), fun other hother => ?_⟩
  by_contra hlt
  have hshort : (other ++ pat).length ≤ text.length := by
    have := h.occurs.length_le
    simp only [List.length_append] at this ⊢
    omega
  exact hlt (h.first other
    (List.prefix_of_prefix_length_le hother (List.prefix_append text behind) hshort))

theorem FirstOccurrence.of_cons {c : α} (h : FirstOccurrence pat text (c :: front)) :
    ∃ tail, text = c :: tail ∧ ¬ pat <+: c :: tail ∧ FirstOccurrence pat tail front := by
  obtain ⟨behind, rfl⟩ := h.occurs
  refine ⟨front ++ pat ++ behind, rfl, fun hhere => ?_, List.prefix_append _ _, ?_⟩
  · exact absurd (h.first [] hhere) (Nat.not_succ_le_zero _)
  · intro other hother
    refine Nat.le_of_succ_le_succ (h.first (c :: other) ?_)
    rw [List.cons_append, List.cons_append, List.cons_append, List.cons_prefix_cons]
    exact ⟨rfl, hother⟩

/-- The text before the first occurrence, or all of it. -/
def before [BEq α] (pat : List α) : List α → List α
  | [] => []
  | c :: text => if pat.isPrefixOf (c :: text) then [] else c :: before pat text

theorem firstOccurrence_before [BEq α] [LawfulBEq α] :
    pat <:+: text → FirstOccurrence pat text (before pat text) := by
  induction text with
  | nil =>
    intro hin
    rw [List.eq_nil_of_infix_nil hin]
    exact firstOccurrence_nil (List.prefix_refl [])
  | cons c text ih =>
    intro hin
    rw [before]
    split
    · rename_i hhere
      exact firstOccurrence_nil (List.isPrefixOf_iff_prefix.mp hhere)
    · rename_i hhere
      rw [List.isPrefixOf_iff_prefix] at hhere
      exact (ih ((List.infix_cons_iff.mp hin).resolve_left hhere)).cons hhere

/-- No proper part of the pattern is both its beginning and its end. -/
def Unbordered (pat : List α) : Prop := ∀ b, b <+: pat → b <:+ pat → b = [] ∨ b = pat

/-- So it is where the first symbol does not come again. -/
theorem unbordered_cons {c : α} {tail : List α} (hc : c ∉ tail) : Unbordered (c :: tail) := by
  rintro b hbegin ⟨other, hend⟩
  cases b with
  | nil => exact .inl rfl
  | cons d b =>
    have hd : d = c := (List.cons_prefix_cons.mp hbegin).1
    cases other with
    | nil => exact .inr hend
    | cons e other =>
      -- the border starts behind the first symbol, with that symbol
      have htail : other ++ d :: b = tail := (List.cons.inj hend).2
      refine absurd ?_ hc
      rw [← htail, hd]
      simp

/-- **No occurrence crosses the end of the text**: in `text ++ pat` an
unbordered pattern stands within the text or behind it. -/
theorem Unbordered.occurs_append (hpat : Unbordered pat) (h : front ++ pat <+: text ++ pat) :
    front ++ pat <+: text ∨ front = text := by
  have hlen : front.length ≤ text.length := by
    have := h.length_le
    simp only [List.length_append] at this
    omega
  have hfront : front <+: text :=
    List.prefix_of_prefix_length_le ((List.prefix_append front pat).trans h)
      (List.prefix_append text pat) hlen
  obtain ⟨gap, rfl⟩ := hfront
  rw [List.append_assoc, List.prefix_append_right_inj] at h
  by_cases hgap : pat.length ≤ gap.length
  · refine .inl ((List.prefix_append_right_inj front).mpr ?_)
    exact List.prefix_of_prefix_length_le h (List.prefix_append gap pat) hgap
  · -- the pattern is longer than the gap: what sticks out is a border
    have hbegin : gap <+: pat :=
      List.prefix_of_prefix_length_le (List.prefix_append gap pat) h (by omega)
    obtain ⟨border, hborder⟩ := hbegin
    have hprefix : border <+: pat := by
      rw [← List.prefix_append_right_inj gap, hborder]
      exact h
    refine .inr ?_
    rcases hpat border hprefix ⟨gap, hborder⟩ with hempty | hall
    · rw [hempty, List.append_nil] at hborder
      rw [hborder] at hgap
      exact absurd (Nat.le_refl _) hgap
    · rw [hall] at hborder
      rw [List.append_left_eq_self.mp hborder, List.append_nil]

/-- Before the first occurrence in `text ++ pat` stands nothing exactly if the
text begins with the pattern. -/
theorem FirstOccurrence.eq_nil_iff (h : FirstOccurrence pat (text ++ pat) front)
    (hpat : Unbordered pat) (htext : text ≠ []) : front = [] ↔ pat <+: text := by
  constructor
  · rintro rfl
    rcases hpat.occurs_append h.occurs with hin | hend
    · exact hin
    · exact absurd hend.symm htext
  · intro hbegin
    exact h.unique (firstOccurrence_nil (hbegin.trans (List.prefix_append text pat)))

/-- It is the whole text exactly if the text does not contain the pattern. -/
theorem FirstOccurrence.eq_text_iff (h : FirstOccurrence pat (text ++ pat) front)
    (hpat : Unbordered pat) (hne : pat ≠ []) : front = text ↔ ¬ pat <:+: text := by
  constructor
  · rintro rfl
    exact h.not_infix hne
  · intro hnot
    rcases hpat.occurs_append h.occurs with hin | hend
    · exact absurd (infix_of_occurs hin) hnot
    · exact hend

end Occurrences

/-! ## `strstr` -/

/-- `strstr(mem, needle)`: where the needle starts; the search ends at the
terminator. -/
def strstr (needle : List UInt8) : List UInt8 → Except Fault (Option Nat)
  | [] => .error .outOfBounds
  | c :: mem =>
    if strncmp needle.length (c :: mem) needle = 0 then .ok (some 0)
    else if c = 0 then .ok none
    else do return (← strstr needle mem).map (· + 1)

theorem prefix_terminated {needle text : List UInt8} (h : 0 ∉ needle) (rest : List UInt8) :
    needle <+: text ++ 0 :: rest ↔ needle <+: text := by
  refine ⟨fun hpre => ?_, fun hpre => hpre.trans (List.prefix_append text _)⟩
  refine List.prefix_of_prefix_length_le hpre (List.prefix_append text _) ?_
  by_contra hlong
  -- a longer needle would cover the terminator
  have hterm : text ++ [0] <+: text ++ 0 :: rest := ⟨rest, by simp⟩
  have hzero : text ++ [0] <+: needle := by
    refine List.prefix_of_prefix_length_le hterm hpre ?_
    rw [List.length_append, List.length_singleton]
    omega
  exact h (hzero.subset (by simp))

section Search

variable {needle : List UInt8} {c : UInt8} {mem : List UInt8}

theorem strstr_here (hneedle : 0 ∉ needle) (h : needle <+: c :: mem) :
    strstr needle (c :: mem) = .ok (some 0) := by
  rw [strstr, if_pos ((strncmp_literal hneedle).mpr h)]

theorem strstr_end (hneedle : 0 ∉ needle) (h : ¬ needle <+: 0 :: mem) :
    strstr needle (0 :: mem) = .ok none := by
  rw [strstr, if_neg (fun hzero => h ((strncmp_literal hneedle).mp hzero)), if_pos rfl]

theorem strstr_behind (hneedle : 0 ∉ needle) (h : ¬ needle <+: c :: mem) (hc : c ≠ 0) :
    strstr needle (c :: mem) = do return (← strstr needle mem).map (· + 1) := by
  rw [strstr, if_neg (fun hzero => h ((strncmp_literal hneedle).mp hzero)), if_neg hc]

end Search

/-- **`strstr` finds the first occurrence** in a text with its terminator. -/
theorem strstr_first {needle : List UInt8} (hneedle : 0 ∉ needle) (rest : List UInt8)
    {front : List UInt8} :
    ∀ {text}, 0 ∉ text → FirstOccurrence needle text front →
      strstr needle (text ++ 0 :: rest) = .ok (some front.length) := by
  induction front with
  | nil =>
    intro text _ hfirst
    have hhere := (prefix_terminated hneedle rest).mpr hfirst.occurs
    cases text with
    | nil => exact strstr_here hneedle hhere
    | cons c text => exact strstr_here hneedle hhere
  | cons c front ih =>
    intro text htext hfirst
    obtain ⟨text, rfl, hhere, hbehind⟩ := hfirst.of_cons
    rw [List.mem_cons, not_or] at htext
    have hhere : ¬ needle <+: c :: (text ++ 0 :: rest) :=
      mt (@prefix_terminated needle (c :: text) hneedle rest).mp hhere
    rw [List.cons_append, strstr_behind hneedle hhere (Ne.symm htext.1), ih htext.2 hbehind]
    rfl

theorem strstr_none {needle : List UInt8} (hneedle : 0 ∉ needle) (rest : List UInt8)
    {text : List UInt8} :
    0 ∉ text → ¬ needle <:+: text → strstr needle (text ++ 0 :: rest) = .ok none := by
  induction text with
  | nil =>
    intro _ hnot
    refine strstr_end hneedle (fun hpre => hnot ?_)
    exact ((@prefix_terminated needle [] hneedle rest).mp hpre).isInfix
  | cons c text ih =>
    intro htext hnot
    rw [List.mem_cons, not_or] at htext
    have hhere : ¬ needle <+: c :: (text ++ 0 :: rest) := fun hpre =>
      hnot ((@prefix_terminated needle (c :: text) hneedle rest).mp hpre).isInfix
    rw [List.cons_append, strstr_behind hneedle hhere (Ne.symm htext.1),
      ih htext.2 fun hin => hnot (List.infix_cons hin)]
    rfl

/-! ## `strncpy` -/

/-- The bytes `strncpy` writes to a buffer of `n` bytes: the text, cut off at
`n`, and zeros behind it. -/
def strncpy (n : Nat) (src : List UInt8) : Except Fault (List UInt8) := do
  let text := (← stringAt src 0).take n
  return text ++ List.replicate (n - text.length) 0

/-- A text that fits is terminated in the buffer. -/
theorem strncpy_fits {n : Nat} {text : List UInt8} (htext : 0 ∉ text) (h : text.length < n)
    (rest : List UInt8) :
    strncpy n (text ++ 0 :: rest) =
      .ok (text ++ 0 :: List.replicate (n - text.length - 1) 0) := by
  have hread : stringAt (text ++ 0 :: rest) 0 = .ok text := stringAt_append htext [] rest
  obtain ⟨k, rfl⟩ : ∃ k, n = text.length + (k + 1) := ⟨n - text.length - 1, by omega⟩
  simp only [strncpy, hread, ok_bind, List.take_of_length_le h.le, Nat.add_sub_cancel_left,
    Nat.add_sub_cancel, List.replicate_succ, pure_is_ok]

end CLib
