import BtClient.Bencode.Lexing

/-!
# Bencode texts as they are written

A `Spelling` is a value with the numerals of its text. It is well formed when the
text is bencode: integers without superfluous zeros, and sizes that are the
length of their string. The lexer checks less (`Spelling.Lexed`): a numeral is
any run of digits and minus signs, and a size is what `strtol` makes of it. A
text has at most one spelling of that kind at its front (`text_unambiguous`).
-/

namespace BtClient

open CLib

inductive Spelling where
  | int (num : List UInt8)
  | str (size s : List UInt8)
  | list (items : List Spelling)
  | dict (entries : List ((List UInt8 × List UInt8) × Spelling))

/-- The text of a string. -/
def sizedText (size s : List UInt8) : List UInt8 := size ++ 58 :: s

mutual

/-- The text. -/
def Spelling.text : Spelling → List UInt8
  | .int num => 105 :: (num ++ [101])
  | .str size s => sizedText size s
  | .list items => 108 :: (textList items ++ [101])
  | .dict entries => 100 :: (textEntries entries ++ [101])

def textList : List Spelling → List UInt8
  | [] => []
  | w :: items => w.text ++ textList items

def textEntries : List ((List UInt8 × List UInt8) × Spelling) → List UInt8
  | [] => []
  | ((size, key), w) :: entries => sizedText size key ++ (w.text ++ textEntries entries)

end

mutual

/-- The value that the text denotes. -/
def Spelling.value : Spelling → Value
  | .int num => .int (signedValue num)
  | .str _ s => .str s
  | .list items => .list (valueList items)
  | .dict entries => .dict (valueEntries entries)

def valueList : List Spelling → List Value
  | [] => []
  | w :: items => w.value :: valueList items

def valueEntries : List ((List UInt8 × List UInt8) × Spelling) → List (List UInt8 × Value)
  | [] => []
  | ((_, key), w) :: entries => (key, w.value) :: valueEntries entries

end

mutual

/-- `p` holds of the spelling and of every spelling inside it. -/
def Spelling.Every (p : Spelling → Prop) : Spelling → Prop
  | .int num => p (.int num)
  | .str size s => p (.str size s)
  | .list items => p (.list items) ∧ EveryItem p items
  | .dict entries => p (.dict entries) ∧ EveryEntry p entries

def EveryItem (p : Spelling → Prop) : List Spelling → Prop
  | [] => True
  | w :: items => w.Every p ∧ EveryItem p items

def EveryEntry (p : Spelling → Prop) : List ((List UInt8 × List UInt8) × Spelling) → Prop
  | [] => True
  | (_, w) :: entries => w.Every p ∧ EveryEntry p entries

end

/-! ## Conditions on spellings -/

/-- Decimal digits, after a minus sign or not, without superfluous zeros. -/
def IntNumeral (num : List UInt8) : Prop := ∃ m, num = decimal m ∨ num = 45 :: decimal m

/-- The size of a string is its length in decimal digits. No buffer has more than
`2^63 - 1` bytes. -/
structure SizeNumeral (size s : List UInt8) : Prop where
  nonempty : size ≠ []
  digits : ∀ c ∈ size, isdigit c = true
  value : leadingDigits 0 size = s.length
  long : s.length < 2 ^ 63

/-- A run of digits and minus signs. -/
def LexedNumeral (num : List UInt8) : Prop := num ≠ [] ∧ ∀ c ∈ num, numeralByte c = true

/-- The string has as many bytes as the lexer copies. -/
def LexedSize (size s : List UInt8) : Prop :=
  LexedNumeral size ∧ s.length = sizeOfLong (numeralValue size)

/-- The numerals are bencode, and the keys of a dictionary are distinct. -/
def wellFormedHere : Spelling → Prop
  | .int num => IntNumeral num
  | .str size s => SizeNumeral size s
  | .list _ => True
  | .dict entries =>
    (∀ e ∈ entries, SizeNumeral e.1.1 e.1.2) ∧ (entries.map fun e => e.1.2).Nodup

/-- An integer is a `long`. -/
def longValueHere : Spelling → Prop
  | .int num => -2 ^ 63 ≤ signedValue num ∧ signedValue num < 2 ^ 63
  | _ => True

/-- The numerals are of the kind the lexer takes. -/
def lexedHere : Spelling → Prop
  | .int num => LexedNumeral num
  | .str size s => LexedSize size s
  | .list _ => True
  | .dict entries => ∀ e ∈ entries, LexedSize e.1.1 e.1.2

/-- The text is bencode. -/
def Spelling.WellFormed (w : Spelling) : Prop := w.Every wellFormedHere

/-- Every integer is a `long`. -/
def Spelling.LongValues (w : Spelling) : Prop := w.Every longValueHere

/-- The lexer takes the text. -/
def Spelling.Lexed (w : Spelling) : Prop := w.Every lexedHere

/-- In the text of the lexer's grammar that `mem` begins with, integers are written
as in bencode and are `long`s, sizes are the lengths of their strings in digits,
and the keys of a dictionary are distinct. -/
def WellSpelled (mem : List UInt8) : Prop :=
  ∀ (w : Spelling) (rest : List UInt8), w.Lexed → mem = w.text ++ rest →
    w.WellFormed ∧ w.LongValues

section Every

variable {p q : Spelling → Prop}

mutual

theorem Spelling.Every.mono (h : ∀ w, p w → q w) : ∀ w : Spelling, w.Every p → w.Every q
  | .int _, hw => h _ hw
  | .str _ _, hw => h _ hw
  | .list items, hw => ⟨h _ hw.1, EveryItem.mono h items hw.2⟩
  | .dict entries, hw => ⟨h _ hw.1, EveryEntry.mono h entries hw.2⟩

theorem EveryItem.mono (h : ∀ w, p w → q w) : ∀ items : List Spelling,
    EveryItem p items → EveryItem q items
  | [], _ => trivial
  | w :: items, hw => ⟨Spelling.Every.mono h w hw.1, EveryItem.mono h items hw.2⟩

theorem EveryEntry.mono (h : ∀ w, p w → q w) :
    ∀ entries : List ((List UInt8 × List UInt8) × Spelling),
      EveryEntry p entries → EveryEntry q entries
  | [], _ => trivial
  | (_, w) :: entries, hw => ⟨Spelling.Every.mono h w hw.1, EveryEntry.mono h entries hw.2⟩

end

end Every

/-! ## Bencode is lexed -/

theorem numeralByte_of_isdigit {c : UInt8} (h : isdigit c = true) : numeralByte c = true := by
  simp [numeralByte, h]

theorem IntNumeral.lexed {num : List UInt8} (h : IntNumeral num) : LexedNumeral num := by
  have hdigits : ∀ m, ∀ c ∈ decimal m, numeralByte c = true := fun m c hc =>
    numeralByte_of_isdigit (isdigit_of_mem_decimal hc)
  obtain ⟨m, rfl | rfl⟩ := h
  · exact ⟨decimal_ne_nil m, hdigits m⟩
  · refine ⟨by simp, fun c hc => ?_⟩
    rcases List.mem_cons.mp hc with rfl | hc
    · rfl
    · exact hdigits m c hc

theorem SizeNumeral.lexed {size s : List UInt8} (h : SizeNumeral size s) : LexedSize size s := by
  obtain ⟨c, cs, rfl⟩ := List.exists_cons_of_ne_nil h.nonempty
  have hc : c ≠ 45 := by
    rintro rfl
    exact absurd (h.digits 45 (by simp)) (by decide)
  have hlong := h.long
  have hvalue : numeralValue (c :: cs) = s.length := by
    rw [numeralValue_of_digit hc, h.value]
    exact clampLong_of_range (by omega) (by omega)
  refine ⟨⟨h.nonempty, fun d hd => numeralByte_of_isdigit (h.digits d hd)⟩, ?_⟩
  rw [hvalue, sizeOfLong]
  omega

theorem Spelling.WellFormed.lexed {w : Spelling} (h : w.WellFormed) : w.Lexed := by
  refine Spelling.Every.mono (fun w hw => ?_) w h
  cases w with
  | int num => exact IntNumeral.lexed hw
  | str size s => exact SizeNumeral.lexed hw
  | list items => trivial
  | dict entries => exact fun e he => (hw.1 e he).lexed

/-! ## Unambiguity -/

/-- Where two numerals are each followed by a byte that belongs to none, they are
the same. -/
theorem numeral_split {stop stop' : UInt8} {rest rest' : List UInt8}
    (hstop : numeralByte stop = false) (hstop' : numeralByte stop' = false) {num num' : List UInt8}
    (hnum : ∀ c ∈ num, numeralByte c = true) (hnum' : ∀ c ∈ num', numeralByte c = true)
    (h : num ++ stop :: rest = num' ++ stop' :: rest') : num = num' ∧ rest = rest' := by
  induction num generalizing num' with
  | nil =>
    cases num' with
    | nil => exact ⟨rfl, (List.cons.inj h).2⟩
    | cons c' num' =>
      have hc := hnum' c' (by simp)
      rw [← (List.cons.inj h).1, hstop] at hc
      cases hc
  | cons c num ih =>
    cases num' with
    | nil =>
      have hc := hnum c (by simp)
      rw [(List.cons.inj h).1, hstop'] at hc
      cases hc
    | cons c' num' =>
      obtain ⟨rfl, htail⟩ := List.cons.inj h
      obtain ⟨hsame, hrest⟩ := ih (fun d hd => hnum d (by simp [hd]))
        (fun d hd => hnum' d (by simp [hd])) htail
      exact ⟨by rw [hsame], hrest⟩

theorem sizedText_split {size size' s s' rest rest' : List UInt8} (h : LexedSize size s)
    (h' : LexedSize size' s')
    (htext : sizedText size s ++ rest = sizedText size' s' ++ rest') :
    size = size' ∧ s = s' ∧ rest = rest' := by
  rw [sizedText, sizedText, List.append_assoc, List.append_assoc] at htext
  obtain ⟨rfl, hbytes⟩ := numeral_split (by decide) (by decide) h.1.2 h'.1.2 htext
  obtain ⟨rfl, hrest⟩ := List.append_inj hbytes (by rw [h.2, h'.2])
  exact ⟨rfl, rfl, hrest⟩

/-- A string starts with a digit or a minus sign. -/
theorem LexedSize.head {size s : List UInt8} (h : LexedSize size s) :
    ∃ c cs, sizedText size s = c :: cs ∧ numeralByte c = true := by
  obtain ⟨c, cs, rfl⟩ := List.exists_cons_of_ne_nil h.1.1
  exact ⟨c, cs ++ 58 :: s, rfl, h.1.2 c (by simp)⟩

/-- The bytes that a spelling of the kind opens with. -/
def Spelling.opens : Spelling → UInt8 → Prop
  | .int _, c => c = 105
  | .str _ _, c => numeralByte c = true
  | .list _, c => c = 108
  | .dict _, c => c = 100

theorem Spelling.Lexed.head {w : Spelling} (h : w.Lexed) :
    ∃ c cs, w.text = c :: cs ∧ w.opens c := by
  cases w with
  | int num => exact ⟨105, num ++ [101], by rw [Spelling.text], rfl⟩
  | str size s =>
    obtain ⟨c, cs, htext, hc⟩ := LexedSize.head h
    exact ⟨c, cs, by rw [Spelling.text, htext], hc⟩
  | list items => exact ⟨108, textList items ++ [101], by rw [Spelling.text], rfl⟩
  | dict entries => exact ⟨100, textEntries entries ++ [101], by rw [Spelling.text], rfl⟩

/-- None opens with the byte that ends a list. -/
theorem Spelling.opens_ne_end {w : Spelling} {c : UInt8} (h : w.opens c) : c ≠ 101 := by
  rintro rfl
  cases w <;> simp [Spelling.opens, numeralByte, isdigit] at h

theorem Spelling.Lexed.same_opening {w w' : Spelling} {rest rest' : List UInt8} (hw : w.Lexed)
    (hw' : w'.Lexed) (h : w.text ++ rest = w'.text ++ rest') : ∃ c, w.opens c ∧ w'.opens c := by
  obtain ⟨c, cs, htext, hc⟩ := hw.head
  obtain ⟨c', cs', htext', hc'⟩ := hw'.head
  rw [htext, htext'] at h
  obtain ⟨rfl, -⟩ := List.cons.inj h
  exact ⟨c, hc, hc'⟩

mutual

/-- **A text begins with at most one spelling** that the lexer takes. -/
theorem text_unambiguous : ∀ {w w' : Spelling} {rest rest' : List UInt8}, w.Lexed → w'.Lexed →
    w.text ++ rest = w'.text ++ rest' → w = w' ∧ rest = rest'
  | .int num, w', rest, rest', hw, hw', h => by
    obtain ⟨c, rfl, hc⟩ := Spelling.Lexed.same_opening hw hw' h
    cases w' with
    | int num' =>
      simp only [Spelling.text, List.cons_append, List.append_assoc, List.cons.injEq, true_and,
        List.nil_append] at h
      obtain ⟨rfl, hrest⟩ := numeral_split (by decide) (by decide) hw.2 hw'.2 h
      exact ⟨rfl, hrest⟩
    | _ => simp [Spelling.opens, numeralByte, isdigit] at hc
  | .str size s, w', rest, rest', hw, hw', h => by
    obtain ⟨c, hc, hc'⟩ := Spelling.Lexed.same_opening hw hw' h
    cases w' with
    | str size' s' =>
      obtain ⟨rfl, rfl, hrest⟩ := sizedText_split hw hw' h
      exact ⟨rfl, hrest⟩
    | _ =>
      subst hc'
      simp [Spelling.opens, numeralByte, isdigit] at hc
  | .list items, w', rest, rest', hw, hw', h => by
    obtain ⟨c, rfl, hc⟩ := Spelling.Lexed.same_opening hw hw' h
    cases w' with
    | list items' =>
      simp only [Spelling.text, List.cons_append, List.append_assoc, List.cons.injEq, true_and,
        List.nil_append] at h
      obtain ⟨rfl, hrest⟩ := textList_unambiguous hw.2 hw'.2 h
      exact ⟨rfl, hrest⟩
    | _ => simp [Spelling.opens, numeralByte, isdigit] at hc
  | .dict entries, w', rest, rest', hw, hw', h => by
    obtain ⟨c, rfl, hc⟩ := Spelling.Lexed.same_opening hw hw' h
    cases w' with
    | dict entries' =>
      simp only [Spelling.text, List.cons_append, List.append_assoc, List.cons.injEq, true_and,
        List.nil_append] at h
      obtain ⟨rfl, hrest⟩ := textEntries_unambiguous hw.1 hw'.1 hw.2 hw'.2 h
      exact ⟨rfl, hrest⟩
    | _ => simp [Spelling.opens, numeralByte, isdigit] at hc

theorem textList_unambiguous : ∀ {items items' : List Spelling} {rest rest' : List UInt8},
    EveryItem lexedHere items → EveryItem lexedHere items' →
    textList items ++ 101 :: rest = textList items' ++ 101 :: rest' → items = items' ∧ rest = rest'
  | [], [], rest, rest', _, _, h => ⟨rfl, (List.cons.inj h).2⟩
  | [], w' :: items', rest, rest', _, hw', h => by
    obtain ⟨c, cs, hhead, hc⟩ := Spelling.Lexed.head hw'.1
    rw [textList, textList, hhead] at h
    exact absurd (List.cons.inj h).1.symm (Spelling.opens_ne_end hc)
  | w :: items, [], rest, rest', hw, _, h => by
    obtain ⟨c, cs, hhead, hc⟩ := Spelling.Lexed.head hw.1
    rw [textList, textList, hhead] at h
    exact absurd (List.cons.inj h).1 (Spelling.opens_ne_end hc)
  | w :: items, w' :: items', rest, rest', hw, hw', h => by
    rw [textList, textList, List.append_assoc, List.append_assoc] at h
    obtain ⟨rfl, htail⟩ := text_unambiguous hw.1 hw'.1 h
    obtain ⟨rfl, hrest⟩ := textList_unambiguous hw.2 hw'.2 htail
    exact ⟨rfl, hrest⟩

theorem textEntries_unambiguous : ∀ {entries entries' : List ((List UInt8 × List UInt8) × Spelling)}
    {rest rest' : List UInt8}, (∀ e ∈ entries, LexedSize e.1.1 e.1.2) →
    (∀ e ∈ entries', LexedSize e.1.1 e.1.2) → EveryEntry lexedHere entries →
    EveryEntry lexedHere entries' →
    textEntries entries ++ 101 :: rest = textEntries entries' ++ 101 :: rest' →
    entries = entries' ∧ rest = rest'
  | [], [], rest, rest', _, _, _, _, h => ⟨rfl, (List.cons.inj h).2⟩
  | [], ((size', key'), w') :: entries', rest, rest', _, hk', _, _, h => by
    obtain ⟨c, cs, hhead, hc⟩ := (hk' ((size', key'), w') (by simp)).head
    rw [textEntries, textEntries, hhead] at h
    exact absurd (List.cons.inj h).1.symm (numeralByte_other hc).2.2.2.2
  | ((size, key), w) :: entries, [], rest, rest', hk, _, _, _, h => by
    obtain ⟨c, cs, hhead, hc⟩ := (hk ((size, key), w) (by simp)).head
    rw [textEntries, textEntries, hhead] at h
    exact absurd (List.cons.inj h).1 (numeralByte_other hc).2.2.2.2
  | ((size, key), w) :: entries, ((size', key'), w') :: entries', rest, rest', hk, hk', hw, hw',
      h => by
    simp only [textEntries, List.append_assoc] at h
    obtain ⟨rfl, rfl, hbehind⟩ := sizedText_split (hk ((size, key), w) (by simp))
      (hk' ((size', key'), w') (by simp)) h
    obtain ⟨rfl, htail⟩ := text_unambiguous hw.1 hw'.1 hbehind
    obtain ⟨rfl, hrest⟩ := textEntries_unambiguous (fun e he => hk e (by simp [he]))
      (fun e he => hk' e (by simp [he])) hw.2 hw'.2 htail
    exact ⟨rfl, hrest⟩

end

/-! ## Canonical encodings -/

mutual

/-- The spelling of the canonical encoding. -/
def canonical : Value → Spelling
  | .int n => .int (decimalInt n)
  | .str s => .str (decimal s.length) s
  | .list vs => .list (canonicalList vs)
  | .dict es => .dict (canonicalEntries es)

def canonicalList : List Value → List Spelling
  | [] => []
  | v :: vs => canonical v :: canonicalList vs

def canonicalEntries : List (List UInt8 × Value) → List ((List UInt8 × List UInt8) × Spelling)
  | [] => []
  | (k, v) :: es => ((decimal k.length, k), canonical v) :: canonicalEntries es

end

mutual

theorem text_canonical : ∀ v : Value, (canonical v).text = encode v
  | .int n => by rw [canonical, Spelling.text, encode]
  | .str s => by rw [canonical, Spelling.text, encode, encodeStr, sizedText]
  | .list vs => by rw [canonical, Spelling.text, encode, textList_canonical vs]
  | .dict es => by rw [canonical, Spelling.text, encode, textEntries_canonical es]

theorem textList_canonical : ∀ vs : List Value, textList (canonicalList vs) = encodeList vs
  | [] => rfl
  | v :: vs => by
    rw [canonicalList, textList, encodeList, text_canonical v, textList_canonical vs]

theorem textEntries_canonical : ∀ es : List (List UInt8 × Value),
    textEntries (canonicalEntries es) = encodeEntries es
  | [] => rfl
  | (k, v) :: es => by
    rw [canonicalEntries, textEntries, encodeEntries, text_canonical v, textEntries_canonical es,
      encodeStr, sizedText]

end

theorem intNumeral_decimalInt (n : Int) : IntNumeral (decimalInt n) := by
  cases n with
  | ofNat n => exact ⟨n, .inl rfl⟩
  | negSucc n => exact ⟨n + 1, .inr rfl⟩

theorem sizeNumeral_decimal {s : List UInt8} (h : s.length < 2 ^ 63) :
    SizeNumeral (decimal s.length) s :=
  ⟨decimal_ne_nil _, fun _ hc => isdigit_of_mem_decimal hc, leadingDigits_decimal _, h⟩

theorem canonicalEntries_keys : ∀ es : List (List UInt8 × Value),
    ((canonicalEntries es).map fun e => e.1.2) = es.map Prod.fst
  | [] => rfl
  | (k, v) :: es => by
    rw [canonicalEntries, List.map_cons, List.map_cons, canonicalEntries_keys es]

mutual

theorem canonical_wellFormed : ∀ v : Value, v.wf = true → (encode v).length < 2 ^ 63 →
    (canonical v).WellFormed
  | .int n, _, _ => intNumeral_decimalInt n
  | .str s, _, hlen => by
    refine sizeNumeral_decimal ?_
    simp only [encode, encodeStr, List.length_append, List.length_cons] at hlen
    omega
  | .list vs, hwf, hlen => by
    refine ⟨trivial, canonicalList_wellFormed vs (every_list.mp hwf).2 ?_⟩
    simp only [encode, List.length_append, List.length_cons] at hlen
    omega
  | .dict es, hwf, hlen => by
    obtain ⟨hhere, hinside⟩ := every_dict.mp hwf
    simp only [wfHere, Bool.and_eq_true, decide_eq_true_eq] at hhere
    simp only [encode, List.length_append, List.length_cons] at hlen
    obtain ⟨hkeys, hentries⟩ := canonicalEntries_wellFormed es hinside (by omega)
    exact ⟨⟨hkeys, by rw [canonicalEntries_keys]; exact hhere.2⟩, hentries⟩

theorem canonicalList_wellFormed : ∀ vs : List Value, everyList wfHere vs = true →
    (encodeList vs).length < 2 ^ 63 → EveryItem wellFormedHere (canonicalList vs)
  | [], _, _ => trivial
  | v :: vs, hwf, hlen => by
    rw [everyList_cons] at hwf
    simp only [encodeList, List.length_append] at hlen
    exact ⟨canonical_wellFormed v hwf.1 (by omega), canonicalList_wellFormed vs hwf.2 (by omega)⟩

theorem canonicalEntries_wellFormed : ∀ es : List (List UInt8 × Value),
    everyEntry wfHere es = true → (encodeEntries es).length < 2 ^ 63 →
    (∀ e ∈ canonicalEntries es, SizeNumeral e.1.1 e.1.2) ∧
      EveryEntry wellFormedHere (canonicalEntries es)
  | [], _, _ => ⟨by simp [canonicalEntries], trivial⟩
  | (k, v) :: es, hwf, hlen => by
    rw [everyEntry_cons] at hwf
    simp only [encodeEntries, encodeStr, List.length_append, List.length_cons] at hlen
    obtain ⟨hkeys, hentries⟩ := canonicalEntries_wellFormed es hwf.2 (by omega)
    refine ⟨fun e he => ?_, canonical_wellFormed v hwf.1 (by omega), hentries⟩
    rcases List.mem_cons.mp he with rfl | he
    · exact sizeNumeral_decimal (by omega)
    · exact hkeys e he

end

mutual

theorem canonical_longValues : ∀ v : Value, v.longInts = true → (canonical v).LongValues
  | .int n, h => by
    simp only [Value.longInts, Value.every, longHere, Bool.and_eq_true, decide_eq_true_eq] at h
    show -2 ^ 63 ≤ signedValue (decimalInt n) ∧ signedValue (decimalInt n) < 2 ^ 63
    rwa [signedValue_decimalInt]
  | .str _, _ => trivial
  | .list vs, h => ⟨trivial, canonicalList_longValues vs (every_list.mp h).2⟩
  | .dict es, h => ⟨trivial, canonicalEntries_longValues es (every_dict.mp h).2⟩

theorem canonicalList_longValues : ∀ vs : List Value, everyList longHere vs = true →
    EveryItem longValueHere (canonicalList vs)
  | [], _ => trivial
  | v :: vs, h => by
    rw [everyList_cons] at h
    exact ⟨canonical_longValues v h.1, canonicalList_longValues vs h.2⟩

theorem canonicalEntries_longValues : ∀ es : List (List UInt8 × Value),
    everyEntry longHere es = true → EveryEntry longValueHere (canonicalEntries es)
  | [], _ => trivial
  | (k, v) :: es, h => by
    rw [everyEntry_cons] at h
    exact ⟨canonical_longValues v h.1, canonicalEntries_longValues es h.2⟩

end

/-- **What begins with the canonical encoding of a value is well spelled.** -/
theorem wellSpelled_encode {v : Value} (hwf : v.wf = true) (hlong : v.longInts = true)
    (hlen : (encode v).length < 2 ^ 63) (rest : List UInt8) : WellSpelled (encode v ++ rest) := by
  intro w rest' hlexed hfront
  have hw := canonical_wellFormed v hwf hlen
  rw [← text_canonical v] at hfront
  obtain ⟨rfl, -⟩ := text_unambiguous hw.lexed hlexed hfront
  exact ⟨hw, canonical_longValues v hlong⟩

end BtClient
