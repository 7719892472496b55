import BtClient.Lib.Fault
import Mathlib.Algebra.Order.Ring.Int
import Mathlib.Tactic.Common

/-!
# Decimal numerals

`decimal` and `decimalInt` write a number in ASCII; `strtol` reads one back as
the C function does in base ten, from a memory that must hold the byte that
ends the digits. The law is that a numeral followed by another byte reads as
its number, clamped to the range of `long`.
-/

namespace CLib

/-- `isdigit`. -/
def isdigit (c : UInt8) : Bool := 48 ≤ c && c ≤ 57

/-- `isspace` in the C locale. -/
def isspace (c : UInt8) : Bool := c == 32 || (9 ≤ c && c ≤ 13)

/-- The nearest value of type `long`. -/
def clampLong (n : Int) : Int := max (-2 ^ 63) (min n (2 ^ 63 - 1))

/-- The value of the digits up to the first byte that is none, after `acc`. -/
def digitsFrom : Nat → List UInt8 → Except Fault Nat
  | _, [] => .error .outOfBounds
  | acc, c :: mem =>
    if isdigit c then digitsFrom (10 * acc + (c.toNat - 48)) mem else .ok acc

/-- `strtol(mem, NULL, 10)`. -/
def strtol (mem : List UInt8) : Except Fault Int :=
  match mem.dropWhile isspace with
  | 45 :: mem => do return clampLong (-(← digitsFrom 0 mem))
  | 43 :: mem => do return clampLong (← digitsFrom 0 mem)
  | mem => do return clampLong (← digitsFrom 0 mem)

/-- The decimal numeral of `n`, most significant digit first. -/
def decimal (n : Nat) : List UInt8 := (Nat.toDigits 10 n).map Char.toUInt8

/-- The decimal numeral of an integer. -/
def decimalInt : Int → List UInt8
  | .ofNat n => decimal n
  | .negSucc n => 45 :: decimal (n + 1)

theorem clampLong_of_range {n : Int} (hlo : -2 ^ 63 ≤ n) (hhi : n < 2 ^ 63) : clampLong n = n := by
  unfold clampLong
  omega

/-! ## The digits of a numeral -/

theorem toNat_toUInt8_of_isDigit {c : Char} (h : c.isDigit = true) :
    c.toUInt8.toNat = c.toNat ∧ 48 ≤ c.toNat ∧ c.toNat ≤ 57 := by
  have hb : 48 ≤ c.toNat ∧ c.toNat ≤ 57 := by
    simp only [Char.isDigit, Bool.and_eq_true, decide_eq_true_eq, ge_iff_le, UInt32.le_iff_toNat_le]
      at h
    exact h
  refine ⟨?_, hb⟩
  show c.val.toUInt8.toNat = c.val.toNat
  rw [UInt32.toNat_toUInt8]
  have : c.val.toNat ≤ 57 := hb.2
  omega

theorem isdigit_toUInt8 {c : Char} (h : c.isDigit = true) : isdigit c.toUInt8 = true := by
  obtain ⟨hval, hlo, hhi⟩ := toNat_toUInt8_of_isDigit h
  simp only [isdigit, Bool.and_eq_true, decide_eq_true_eq, UInt8.le_iff_toNat_le, hval]
  exact ⟨hlo, hhi⟩

theorem isdigit_of_mem_decimal {n : Nat} {c : UInt8} (h : c ∈ decimal n) : isdigit c = true := by
  obtain ⟨d, hd, rfl⟩ := List.mem_map.mp h
  exact isdigit_toUInt8 (Nat.isDigit_of_mem_toDigits (by decide) (by decide) hd)

theorem decimal_ne_nil (n : Nat) : decimal n ≠ [] := by
  rw [decimal, Ne, List.map_eq_nil_iff]
  exact Nat.toDigits_ne_nil

theorem length_decimal_le {n : Nat} (h : n < 2 ^ 64) : (decimal n).length ≤ 20 := by
  rw [decimal, List.length_map, Nat.length_toDigits_le_iff (by decide) (by decide)]
  omega

theorem length_decimalInt_le {n : Int} (hlo : -2 ^ 63 ≤ n) (hhi : n < 2 ^ 63) :
    (decimalInt n).length ≤ 21 := by
  cases n with
  | ofNat n =>
    rw [Int.ofNat_eq_natCast] at hhi
    have := length_decimal_le (n := n) (by omega)
    rw [decimalInt]
    omega
  | negSucc n =>
    have := length_decimal_le (n := n + 1) (by omega)
    rw [decimalInt, List.length_cons]
    omega

/-! ## Reading a numeral back -/

/-- The digits of a character list, read byte by byte. -/
theorem digitsFrom_map (digits : List Char) (hdigits : ∀ c ∈ digits, c.isDigit = true)
    {stop : UInt8} (hstop : isdigit stop = false) (rest : List UInt8) : ∀ acc,
      digitsFrom acc (digits.map Char.toUInt8 ++ stop :: rest)
        = .ok (Nat.ofDigitChars 10 digits acc) := by
  induction digits with
  | nil =>
    intro acc
    simp [digitsFrom, hstop, Nat.ofDigitChars_eq_foldl]
  | cons c digits ih =>
    intro acc
    have hc := hdigits c (by simp)
    rw [List.map_cons, List.cons_append, digitsFrom, if_pos (isdigit_toUInt8 hc),
      ih (fun d hd => hdigits d (by simp [hd])), (toNat_toUInt8_of_isDigit hc).1]
    simp only [Nat.ofDigitChars_eq_foldl, List.foldl_cons]
    rfl

theorem digitsFrom_decimal (n : Nat) {stop : UInt8} (hstop : isdigit stop = false)
    (rest : List UInt8) : digitsFrom 0 (decimal n ++ stop :: rest) = .ok n := by
  rw [decimal, digitsFrom_map _ (fun c hc => Nat.isDigit_of_mem_toDigits (by decide) (by decide) hc)
    hstop, Nat.ofDigitChars_ten_toDigits]

/-- What starts with a digit is read as an unsigned numeral. -/
theorem strtol_of_digit {c : UInt8} (hc : isdigit c = true) (mem : List UInt8) :
    strtol (c :: mem) = (do return clampLong (← digitsFrom 0 (c :: mem))) := by
  have hb : 48 ≤ c.toNat ∧ c.toNat ≤ 57 := by
    simpa [isdigit, UInt8.le_iff_toNat_le] using hc
  have hspace : isspace c = false := by
    simp only [isspace, Bool.or_eq_false_iff, beq_eq_false_iff_ne, Bool.and_eq_false_iff,
      decide_eq_false_iff_not, UInt8.le_iff_toNat_le]
    refine ⟨fun h => ?_, .inr ?_⟩
    · rw [h] at hb
      exact absurd hb.1 (by decide)
    · show ¬ c.toNat ≤ 13
      omega
  have hminus : c ≠ 45 := by
    rintro rfl
    exact absurd hb.1 (by decide)
  have hplus : c ≠ 43 := by
    rintro rfl
    exact absurd hb.1 (by decide)
  unfold strtol
  rw [List.dropWhile_cons_of_neg (by simp [hspace])]
  split
  · simp_all
  · simp_all
  · rfl

/-- A run of digits that nothing ends is read past its memory. -/
theorem digitsFrom_unterminated (digits : List UInt8) (h : ∀ c ∈ digits, isdigit c = true) :
    ∀ acc, digitsFrom acc digits = .error .outOfBounds := by
  induction digits with
  | nil => intro acc; rfl
  | cons c digits ih =>
    intro acc
    rw [digitsFrom, if_pos (h c (by simp))]
    exact ih (fun d hd => h d (by simp [hd])) _

/-- **`strtol` undoes `decimalInt`**, up to the range of `long`. -/
theorem strtol_decimalInt (n : Int) {stop : UInt8} (hstop : isdigit stop = false)
    (rest : List UInt8) : strtol (decimalInt n ++ stop :: rest) = .ok (clampLong n) := by
  cases n with
  | ofNat n =>
    obtain ⟨c, cs, hcs⟩ := List.exists_cons_of_ne_nil (decimal_ne_nil n)
    have hc : isdigit c = true := isdigit_of_mem_decimal (n := n) (by simp [hcs])
    have hread := digitsFrom_decimal n hstop rest
    rw [decimalInt, hcs, List.cons_append] at *
    rw [strtol_of_digit hc, hread]
    rfl
  | negSucc n =>
    have hread := digitsFrom_decimal (n + 1) hstop rest
    show (do return clampLong (-(← digitsFrom 0 (decimal (n + 1) ++ stop :: rest)))) = _
    rw [hread]
    rfl

theorem strtol_unterminated (n : Int) : strtol (decimalInt n) = .error .outOfBounds := by
  cases n with
  | ofNat n =>
    obtain ⟨c, cs, hcs⟩ := List.exists_cons_of_ne_nil (decimal_ne_nil n)
    have hc : isdigit c = true := isdigit_of_mem_decimal (n := n) (by simp [hcs])
    have hread := digitsFrom_unterminated (decimal n) (fun c hc => isdigit_of_mem_decimal hc) 0
    rw [decimalInt, hcs] at *
    rw [strtol_of_digit hc, hread]
    rfl
  | negSucc n =>
    have hread :=
      digitsFrom_unterminated (decimal (n + 1)) (fun c hc => isdigit_of_mem_decimal hc) 0
    show (do return clampLong (-(← digitsFrom 0 (decimal (n + 1))))) = _
    rw [hread]
    rfl

/-! ## Reading any digits and signs -/

/-- The value of the digits at the front, after `acc`. -/
def leadingDigits : Nat → List UInt8 → Nat
  | acc, [] => acc
  | acc, c :: cs => if isdigit c then leadingDigits (10 * acc + (c.toNat - 48)) cs else acc

/-- The value of the digits at the front, with a sign before them. -/
def signedValue : List UInt8 → Int
  | 45 :: cs => -(leadingDigits 0 cs)
  | cs => leadingDigits 0 cs

/-- What `strtol` makes of a text of digits and minus signs. -/
def numeralValue (cs : List UInt8) : Int := clampLong (signedValue cs)

theorem digitsFrom_padded (cs : List UInt8) {pad n : Nat} : ∀ {acc : Nat},
    digitsFrom acc (cs ++ List.replicate pad 0) = .ok n → n = leadingDigits acc cs := by
  induction cs with
  | nil =>
    intro acc h
    cases pad with
    | zero => cases h
    | succ pad =>
      rw [List.nil_append, List.replicate_succ, digitsFrom, if_neg (by decide)] at h
      exact (Except.ok.inj h).symm
  | cons c cs ih =>
    intro acc h
    rw [List.cons_append, digitsFrom] at h
    rw [leadingDigits]
    split at h
    · rename_i hc
      rw [if_pos hc]
      exact ih h
    · rename_i hc
      rw [if_neg hc]
      exact (Except.ok.inj h).symm

theorem signedValue_of_digit {c : UInt8} (hc : c ≠ 45) (cs : List UInt8) :
    signedValue (c :: cs) = leadingDigits 0 (c :: cs) := by
  unfold signedValue
  split
  · simp_all
  · rfl

theorem numeralValue_of_digit {c : UInt8} (hc : c ≠ 45) (cs : List UInt8) :
    numeralValue (c :: cs) = clampLong (leadingDigits 0 (c :: cs)) := by
  rw [numeralValue, signedValue_of_digit hc]

theorem strtol_padded {c : UInt8} {cs : List UInt8} (hc : isdigit c = true ∨ c = 45) {pad : Nat}
    {n : Int} (h : strtol (c :: cs ++ List.replicate pad 0) = .ok n) :
    n = numeralValue (c :: cs) := by
  by_cases hminus : c = 45
  · subst hminus
    have hread : (do return clampLong (-(← digitsFrom 0 (cs ++ List.replicate pad 0))) :
        Except Fault Int) = .ok n := h
    rw [seq_returns_iff] at hread
    obtain ⟨m, hm, hret⟩ := hread
    cases hret
    rw [digitsFrom_padded cs hm]
    rfl
  · have hdigit := hc.resolve_right hminus
    rw [List.cons_append, strtol_of_digit hdigit, seq_returns_iff] at h
    obtain ⟨m, hm, hret⟩ := h
    cases hret
    rw [← List.cons_append] at hm
    rw [digitsFrom_padded (c :: cs) hm, numeralValue_of_digit hminus]

theorem leadingDigits_decimal (n : Nat) : leadingDigits 0 (decimal n) = n := by
  have h : digitsFrom 0 (decimal n ++ List.replicate 1 0) = .ok n :=
    digitsFrom_decimal n (by decide) []
  exact (digitsFrom_padded (decimal n) h).symm

theorem signedValue_decimalInt (n : Int) : signedValue (decimalInt n) = n := by
  cases n with
  | ofNat n =>
    obtain ⟨c, cs, hcs⟩ := List.exists_cons_of_ne_nil (decimal_ne_nil n)
    have hc : c ≠ 45 := by
      rintro rfl
      exact absurd (isdigit_of_mem_decimal (n := n) (c := 45) (by simp [hcs])) (by decide)
    rw [decimalInt, hcs, signedValue_of_digit hc, ← hcs, leadingDigits_decimal]
    rfl
  | negSucc n =>
    rw [decimalInt, signedValue, leadingDigits_decimal]
    rfl

/-! ## Digits with superfluous zeros, unsigned -/

/-- The value of the digits as an `unsigned long`. -/
def clampUlong (n : Nat) : Nat := min n (2 ^ 64 - 1)

/-- `strtoul(mem, NULL, 10)`; a minus sign negates in `unsigned long`. -/
def strtoul (mem : List UInt8) : Except Fault Nat :=
  match mem.dropWhile isspace with
  | 45 :: mem => do
    let n ← digitsFrom 0 mem
    return if n < 2 ^ 64 then (2 ^ 64 - n) % 2 ^ 64 else 2 ^ 64 - 1
  | 43 :: mem => do return clampUlong (← digitsFrom 0 mem)
  | mem => do return clampUlong (← digitsFrom 0 mem)

theorem digitsFrom_digits {digits : List UInt8} (hdigits : ∀ c ∈ digits, isdigit c = true)
    {stop : UInt8} (hstop : isdigit stop = false) (rest : List UInt8) : ∀ acc,
      digitsFrom acc (digits ++ stop :: rest) = .ok (leadingDigits acc digits) := by
  induction digits with
  | nil =>
    intro acc
    rw [List.nil_append, digitsFrom, if_neg (by simp [hstop]), leadingDigits]
  | cons c digits ih =>
    intro acc
    have hc := hdigits c (by simp)
    rw [List.cons_append, digitsFrom, if_pos hc, ih fun d hd => hdigits d (by simp [hd]),
      leadingDigits, if_pos hc]

/-- `strtol` on digits, in whatever number. -/
theorem strtol_digits {digits : List UInt8} (hne : digits ≠ [])
    (hdigits : ∀ c ∈ digits, isdigit c = true) {stop : UInt8} (hstop : isdigit stop = false)
    (rest : List UInt8) :
    strtol (digits ++ stop :: rest) = .ok (clampLong (leadingDigits 0 digits)) := by
  have hread := digitsFrom_digits hdigits hstop rest 0
  obtain ⟨c, cs, rfl⟩ := List.exists_cons_of_ne_nil hne
  rw [List.cons_append] at hread ⊢
  rw [strtol_of_digit (hdigits c (by simp)), hread]
  rfl

/-- The zero byte that ends a string ends the digits in it. -/
theorem digitsFrom_string (text rest : List UInt8) : ∀ acc,
    ∃ n, digitsFrom acc (text ++ 0 :: rest) = .ok n := by
  induction text with
  | nil => exact fun acc => ⟨acc, rfl⟩
  | cons c text ih =>
    intro acc
    rw [List.cons_append, digitsFrom]
    split
    · exact ih _
    · exact ⟨acc, rfl⟩

/-- `strtoul` returns on every string. -/
theorem strtoul_string (text rest : List UInt8) : ∃ n, strtoul (text ++ 0 :: rest) = .ok n := by
  obtain ⟨text', htext⟩ : ∃ text', (text ++ 0 :: rest).dropWhile isspace = text' ++ 0 :: rest := by
    refine ⟨text.dropWhile isspace, ?_⟩
    induction text with
    | nil => rfl
    | cons c text ih =>
      rw [List.cons_append, List.dropWhile_cons, List.dropWhile_cons]
      split
      · exact ih
      · rfl
  unfold strtoul
  rw [htext]
  cases text' with
  | nil => exact ⟨0, rfl⟩
  | cons c text' =>
    obtain ⟨n, hn⟩ := digitsFrom_string text' rest 0
    obtain ⟨m, hm⟩ := digitsFrom_string (c :: text') rest 0
    rw [List.cons_append] at hm ⊢
    split
    · rename_i mem hmem
      cases hmem
      rw [hn]
      exact ⟨_, rfl⟩
    · rename_i mem hmem
      cases hmem
      rw [hn]
      exact ⟨_, rfl⟩
    · rw [hm]
      exact ⟨_, rfl⟩

end CLib
