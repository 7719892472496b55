import BtClient.Lib.Fault
import BtClient.Lib.Splice
import Mathlib.Data.List.TakeWhile
import Mathlib.Tactic.Common

/-!
# Strings in memory and their tokens

A string is a stretch of memory up to a zero byte, and a pointer into it an
offset. `strtok_r` skips delimiters, takes the bytes up to the next one,
overwrites that one with zero and remembers where it stands behind it. The
laws give the memory as the text before the pointer, the delimiters skipped,
the token, and whatever follows.
-/

namespace CLib

/-- How many bytes at the front satisfy `p`. The byte that ends them is read. -/
def scan (p : UInt8 → Bool) : List UInt8 → Except Fault Nat
  | [] => .error .outOfBounds
  | c :: mem => if p c then do return (← scan p mem) + 1 else .ok 0

/-- `strlen`. -/
def strlen (mem : List UInt8) : Except Fault Nat := scan (fun c => c != 0) mem

/-- `strspn`; the delimiters are a string, so zero is none of them. -/
def strspn (delims mem : List UInt8) : Except Fault Nat := scan (fun c => delims.contains c) mem

/-- `strcspn`. -/
def strcspn (delims mem : List UInt8) : Except Fault Nat :=
  scan (fun c => c != 0 && !delims.contains c) mem

/-- The string at an offset. -/
def stringAt (mem : List UInt8) (off : Nat) : Except Fault (List UInt8) := do
  return slice mem off (← strlen (mem.drop off))

/-- The bytes of a string literal. -/
def ascii (s : String) : List UInt8 := s.toList.map Char.toUInt8

/-- The memory `strtok_r` leaves, `*save_ptr` and the token it returns. -/
structure Strtok where
  mem : List UInt8
  save : Nat
  token : Option Nat
  deriving DecidableEq, Repr

/-- `strtok_r`, started at an offset: that of a string, or that of `*save_ptr`. -/
def strtokR (delims mem : List UInt8) (start : Nat) : Except Fault Strtok := do
  let token := start + (← strspn delims (mem.drop start))
  if mem[token]? = some 0 then return ⟨mem, token, none⟩
  let stop := token + (← strcspn delims (mem.drop token))
  if mem[stop]? = some 0 then return ⟨mem, stop, some token⟩
  return ⟨mem.set stop 0, stop + 1, some token⟩

/-- The token, where it is used without a test for `NULL`. -/
def Strtok.pointer (t : Strtok) : Except Fault Nat :=
  match t.token with
  | some token => .ok token
  | none => .error .nullDeref

/-! ## Scanning -/

theorem scan_append {p : UInt8 → Bool} {text : List UInt8} (htext : ∀ c ∈ text, p c = true)
    {stop : UInt8} (hstop : p stop = false) (rest : List UInt8) :
    scan p (text ++ stop :: rest) = .ok text.length := by
  induction text with
  | nil => rw [List.nil_append, scan, if_neg (by simp [hstop]), List.length_nil]
  | cons c text ih =>
    rw [List.cons_append, scan, if_pos (htext c (by simp)), ih fun d hd => htext d (by simp [hd])]
    rfl

theorem strlen_append {text : List UInt8} (h : 0 ∉ text) (rest : List UInt8) :
    strlen (text ++ 0 :: rest) = .ok text.length := by
  refine scan_append (fun c hc => ?_) rfl rest
  simp only [bne_iff_ne, ne_eq]
  rintro rfl
  exact h hc

theorem drop_two (pre seps mem : List UInt8) :
    (pre ++ (seps ++ mem)).drop (pre.length + seps.length) = mem := by
  rw [← List.append_assoc, ← List.length_append, List.drop_left]

theorem stringAt_of_drop {mem word more : List UInt8} {off : Nat} (hword : 0 ∉ word)
    (h : mem.drop off = word ++ 0 :: more) : stringAt mem off = .ok word := by
  simp only [stringAt, slice, h, strlen_append hword, ok_bind, List.take_left, pure_is_ok]

theorem stringAt_append {text : List UInt8} (h : 0 ∉ text) (pre rest : List UInt8) :
    stringAt (pre ++ (text ++ 0 :: rest)) pre.length = .ok text := by
  rw [stringAt, List.drop_left, strlen_append h, ok_bind, slice_middle rfl rfl rfl, pure_is_ok]

/-! ## Tokens -/

/-- The bytes a token is made of. -/
def IsWord (delims word : List UInt8) : Prop := word ≠ [] ∧ ∀ c ∈ word, c ≠ 0 ∧ c ∉ delims

/-- The test for a literal. -/
def checkWord (delims word : List UInt8) : Bool :=
  !word.isEmpty && word.all fun c => c != 0 && !delims.contains c

theorem isWord_of_check {delims word : List UInt8} (h : checkWord delims word = true) :
    IsWord delims word := by
  obtain ⟨hne, hall⟩ := Bool.and_eq_true_iff.mp h
  refine ⟨by simpa using hne, fun c hc => ?_⟩
  simpa using List.all_eq_true.mp hall c hc

section Tokens

variable {delims pre seps word rest : List UInt8}

theorem strspn_seps (hseps : seps ⊆ delims) {stop : UInt8} (hstop : stop ∉ delims) :
    strspn delims ((pre ++ (seps ++ stop :: rest)).drop pre.length) = .ok seps.length := by
  rw [List.drop_left]
  exact scan_append (fun c hc => by simpa using hseps hc) (by simpa using hstop) rest

/-- Where nothing but delimiters is left, there is no token. -/
theorem strtokR_none (hzero : 0 ∉ delims) (hseps : seps ⊆ delims) :
    strtokR delims (pre ++ (seps ++ 0 :: rest)) pre.length =
      .ok ⟨pre ++ (seps ++ 0 :: rest), pre.length + seps.length, none⟩ := by
  have hget : (pre ++ (seps ++ 0 :: rest))[pre.length + seps.length]? = some 0 := by simp
  rw [strtokR, strspn_seps hseps hzero, ok_bind, if_pos hget, pure_is_ok]

/-- A token behind delimiters: it ends at a delimiter or at the end of the
string. -/
theorem strtokR_stop (hseps : seps ⊆ delims) (hword : IsWord delims word)
    {stop : UInt8} (hstop : stop = 0 ∨ stop ∈ delims) :
    strtokR delims (pre ++ (seps ++ (word ++ stop :: rest))) pre.length =
      if stop = 0 then
        .ok ⟨pre ++ (seps ++ (word ++ 0 :: rest)), pre.length + seps.length + word.length,
          some (pre.length + seps.length)⟩
      else
        .ok ⟨pre ++ (seps ++ (word ++ 0 :: rest)), pre.length + seps.length + word.length + 1,
          some (pre.length + seps.length)⟩ := by
  obtain ⟨hne, hbytes⟩ := hword
  obtain ⟨first, word, rfl⟩ := List.exists_cons_of_ne_nil hne
  have hfirst := hbytes first (by simp)
  have hstart : (pre ++ (seps ++ (first :: word ++ stop :: rest)))[pre.length + seps.length]? ≠
      some 0 := by
    simpa using hfirst.1
  have hspan : strspn delims ((pre ++ (seps ++ (first :: word ++ stop :: rest))).drop pre.length) =
      .ok seps.length := strspn_seps hseps hfirst.2
  have hcspan : strcspn delims ((pre ++ (seps ++ (first :: word ++ stop :: rest))).drop
      (pre.length + seps.length)) = .ok (first :: word).length := by
    rw [drop_two]
    refine scan_append (fun c hc => ?_) ?_ rest
    · simpa using hbytes c hc
    · simpa using hstop.resolve_left
  have hget : (pre ++ (seps ++ (first :: word ++ stop :: rest)))[pre.length + seps.length +
      (first :: word).length]? = some stop := by
    rw [← List.append_assoc, ← List.append_assoc, ← List.length_append, ← List.length_append,
      List.getElem?_append_right (Nat.le_refl _), Nat.sub_self]
    rfl
  have hset : (pre ++ (seps ++ (first :: word ++ stop :: rest))).set (pre.length + seps.length +
      (first :: word).length) 0 = pre ++ (seps ++ (first :: word ++ 0 :: rest)) := by
    rw [← List.append_assoc, ← List.append_assoc, ← List.length_append, ← List.length_append,
      List.set_append_right _ _ (Nat.le_refl _), Nat.sub_self, List.set_cons_zero,
      List.append_assoc, List.append_assoc]
  simp only [strtokR, hspan, ok_bind, if_neg hstart, hcspan, hget, hset, pure_is_ok]
  by_cases hend : stop = 0
  · rw [if_pos hend, if_pos (by rw [hend]), hend]
  · rw [if_neg hend, if_neg (by simpa using hend)]

/-- A token with a delimiter behind it. -/
theorem strtokR_word (hzero : 0 ∉ delims) (hseps : seps ⊆ delims) (hword : IsWord delims word)
    {stop : UInt8} (hstop : stop ∈ delims) :
    strtokR delims (pre ++ (seps ++ (word ++ stop :: rest))) pre.length =
      .ok ⟨pre ++ (seps ++ (word ++ 0 :: rest)), pre.length + seps.length + word.length + 1,
        some (pre.length + seps.length)⟩ := by
  have hnonzero : stop ≠ 0 := by
    rintro rfl
    exact hzero hstop
  rw [strtokR_stop hseps hword (.inr hstop), if_neg hnonzero]

/-- The last token of a string. -/
theorem strtokR_last (hseps : seps ⊆ delims) (hword : IsWord delims word) :
    strtokR delims (pre ++ (seps ++ (word ++ 0 :: rest))) pre.length =
      .ok ⟨pre ++ (seps ++ (word ++ 0 :: rest)), pre.length + seps.length + word.length,
        some (pre.length + seps.length)⟩ := by
  rw [strtokR_stop hseps hword (.inl rfl), if_pos rfl]

/-- The token as a string. -/
theorem stringAt_word (hword : IsWord delims word) :
    stringAt (pre ++ (seps ++ (word ++ 0 :: rest))) (pre.length + seps.length) = .ok word := by
  rw [← List.append_assoc pre, ← List.length_append]
  exact stringAt_append (fun h => (hword.2 0 h).1 rfl) _ rest

/-- A token, and what is left to the next call: a delimiter behind the token is
used up, the end of the string is not. -/
theorem strtokR_next (hzero : 0 ∉ delims) (hseps : seps ⊆ delims) (hword : IsWord delims word)
    {tail : List UInt8} (htail : ∀ c, tail.head? = some c → c ∈ delims) :
    ∃ pre' more, strtokR delims (pre ++ (seps ++ (word ++ (tail ++ 0 :: rest)))) pre.length =
        .ok ⟨pre' ++ (tail.tail ++ 0 :: rest), pre'.length, some (pre.length + seps.length)⟩ ∧
      (pre' ++ (tail.tail ++ 0 :: rest)).drop (pre.length + seps.length) = word ++ 0 :: more ∧
      pre'.length = pre.length + seps.length + word.length + (tail.take 1).length := by
  cases tail with
  | nil =>
    refine ⟨pre ++ (seps ++ word), rest, ?_, ?_, ?_⟩
    · rw [List.nil_append, strtokR_last hseps hword]
      simp [Nat.add_assoc]
    · rw [List.tail_nil, List.nil_append, List.append_assoc, List.append_assoc, drop_two]
    · simp [Nat.add_assoc]
  | cons stop tail =>
    refine ⟨pre ++ (seps ++ (word ++ [0])), tail ++ 0 :: rest, ?_, ?_, ?_⟩
    · rw [List.cons_append, strtokR_word hzero hseps hword (htail stop rfl)]
      simp [Nat.add_assoc]
    · rw [List.tail_cons, List.append_assoc, List.append_assoc, drop_two, List.append_assoc,
        List.singleton_append]
    · simp [Nat.add_assoc]

/-! ## The first token of any text -/

/-- What `strtok_r` takes from the front of a text. -/
def firstWord (delims text : List UInt8) : List UInt8 :=
  (text.dropWhile fun c => delims.contains c).takeWhile fun c => !delims.contains c

/-- A text is its delimiters at the front, its first token, and the rest, which
starts with a delimiter. -/
theorem firstWord_split (delims text : List UInt8) :
    ∃ seps behind, text = seps ++ (firstWord delims text ++ behind) ∧ seps ⊆ delims ∧
      (∀ c, behind.head? = some c → c ∈ delims) ∧ (firstWord delims text = [] → behind = []) := by
  refine ⟨text.takeWhile fun c => delims.contains c,
    (text.dropWhile fun c => delims.contains c).dropWhile fun c => !delims.contains c, ?_, ?_, ?_,
    ?_⟩
  · rw [firstWord, List.takeWhile_append_dropWhile, List.takeWhile_append_dropWhile]
  · intro c hc
    simpa using List.mem_takeWhile_imp hc
  · intro c hc
    have hfirst := List.head?_dropWhile_not (fun c => !delims.contains c)
      (text.dropWhile fun c => delims.contains c)
    rw [hc] at hfirst
    simpa using hfirst
  · intro hnone
    cases hrest : text.dropWhile fun c => delims.contains c with
    | nil => rfl
    | cons c rest =>
      have hfirst := List.head?_dropWhile_not (fun c => delims.contains c) text
      rw [hrest] at hfirst
      have hc : (!delims.contains c) = true := by simpa using hfirst
      rw [firstWord, hrest, List.takeWhile_cons, if_pos hc] at hnone
      cases hnone

theorem isWord_firstWord {text : List UInt8} (htext : 0 ∉ text) (hne : firstWord delims text ≠ []) :
    IsWord delims (firstWord delims text) := by
  refine ⟨hne, fun c hc => ⟨?_, ?_⟩⟩
  · rintro rfl
    exact htext ((List.dropWhile_sublist _).mem ((List.takeWhile_sublist _).mem hc))
  · simpa using List.mem_takeWhile_imp hc

/-- A text without delimiters is its own first token, and no other is. -/
theorem firstWord_eq_self_iff {text : List UInt8} :
    firstWord delims text = text ↔ ∀ c ∈ text, c ∉ delims := by
  constructor
  · intro heq c hc
    rw [← heq] at hc
    simpa using List.mem_takeWhile_imp hc
  · intro hnone
    have hdrop : (text.dropWhile fun c => delims.contains c) = text := by
      cases text with
      | nil => rfl
      | cons c text => exact List.dropWhile_cons_of_neg (by simpa using hnone c (by simp))
    rw [firstWord, hdrop, List.takeWhile_eq_self_iff]
    intro c hc
    simpa using hnone c hc

theorem firstWord_ne_nil {text : List UInt8} {c : UInt8} (hc : c ∈ text) (hdelim : c ∉ delims) :
    firstWord delims text ≠ [] := by
  intro hnone
  obtain ⟨seps, behind, hsplit, hseps, -, hbehind⟩ := firstWord_split delims text
  rw [hnone, hbehind hnone, List.append_nil, List.append_nil] at hsplit
  exact hdelim (hseps (hsplit ▸ hc))

/-- **`strtok_r` on any text.** A zero byte may come into the text; there is a
token, namely the first word, unless the text is all delimiters. -/
theorem strtokR_text {text : List UInt8} (hzero : 0 ∉ delims) (htext : 0 ∉ text) :
    ∃ i save token,
      strtokR delims (pre ++ (text ++ 0 :: rest)) pre.length =
        .ok ⟨pre ++ (text.set i 0 ++ 0 :: rest), save, token⟩ ∧
      (firstWord delims text = [] → token = none) ∧
      (firstWord delims text ≠ [] → ∃ k, k ≤ text.length ∧ token = some (pre.length + k) ∧
        stringAt (pre ++ (text.set i 0 ++ 0 :: rest)) (pre.length + k) =
          .ok (firstWord delims text)) := by
  obtain ⟨seps, behind, hsplit, hseps, hbehind, hnone⟩ := firstWord_split delims text
  -- setting a byte behind the text changes nothing
  have hset : text.set text.length 0 = text := List.set_eq_of_length_le (Nat.le_refl _)
  by_cases hword : firstWord delims text = []
  · have hall : text = seps := by rw [hsplit, hword, hnone hword]; simp
    refine ⟨text.length, pre.length + seps.length, none, ?_, fun _ => rfl, fun h => absurd hword h⟩
    rw [hset, hall]
    exact strtokR_none hzero hseps
  · have hisword := isWord_firstWord htext hword
    generalize firstWord delims text = word at hsplit hword hisword hnone
    subst hsplit
    have hk : seps.length ≤ (seps ++ (word ++ behind)).length := by simp
    cases behind with
    | nil =>
      refine ⟨(seps ++ (word ++ [])).length, pre.length + seps.length + word.length,
        some (pre.length + seps.length), ?_, fun h => absurd h hword,
        fun _ => ⟨seps.length, hk, rfl, ?_⟩⟩
      · rw [hset]
        simpa using strtokR_last hseps hisword
      · rw [hset]
        simpa using stringAt_word hisword
    | cons stop behind =>
      have hset' : (seps ++ (word ++ stop :: behind)).set (seps.length + word.length) 0 =
          seps ++ (word ++ 0 :: behind) := by
        rw [← List.append_assoc, ← List.length_append, List.set_append_right _ _ (Nat.le_refl _),
          Nat.sub_self, List.set_cons_zero, List.append_assoc]
      refine ⟨seps.length + word.length, pre.length + seps.length + word.length + 1,
        some (pre.length + seps.length), ?_, fun h => absurd h hword,
        fun _ => ⟨seps.length, hk, rfl, ?_⟩⟩
      · rw [hset']
        simpa using strtokR_word hzero hseps hisword (hbehind stop rfl)
      · rw [hset']
        simpa using stringAt_word hisword

end Tokens

end CLib
