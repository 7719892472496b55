import BtClient.Lib.Decimal

/-!
# Percent-encoding

The unreserved characters stand for themselves, every other byte is written as
`%` and two hexadecimal digits. Decoding takes digits of either case.
-/

namespace CLib

/-- Letters, digits and the four marks that are left as they are. -/
def isUnreserved (c : UInt8) : Bool :=
  isdigit c || (65 ≤ c && c ≤ 90) || (97 ≤ c && c ≤ 122) ||
    c == 45 || c == 46 || c == 95 || c == 126

/-- A hexadecimal digit. -/
def hexDigit (n : Nat) : UInt8 := UInt8.ofNat (if n < 10 then 48 + n else 55 + n)

/-- One byte. -/
def percentByte (c : UInt8) : List UInt8 :=
  if isUnreserved c then [c] else [37, hexDigit (c.toNat / 16), hexDigit (c.toNat % 16)]

/-- A text. -/
def percentEncode (bytes : List UInt8) : List UInt8 := bytes.flatMap percentByte

/-- The value of a hexadecimal digit. -/
def hexValue (c : UInt8) : Option Nat :=
  if isdigit c then some (c.toNat - 48)
  else if 65 ≤ c && c ≤ 70 then some (c.toNat - 55)
  else if 97 ≤ c && c ≤ 102 then some (c.toNat - 87)
  else none

/-- Reading an encoded text. -/
def percentDecode : List UInt8 → Option (List UInt8)
  | [] => some []
  | c :: text =>
    if c = 37 then
      match text with
      | high :: low :: text => do
        let byte := UInt8.ofNat (16 * (← hexValue high) + (← hexValue low))
        return byte :: (← percentDecode text)
      | _ => none
    else do return c :: (← percentDecode text)

theorem hexValue_hexDigit : ∀ n < 16, hexValue (hexDigit n) = some n := by decide

theorem isUnreserved_hexDigit : ∀ n < 16, isUnreserved (hexDigit n) = true := by decide

theorem percentDecode_cons {c : UInt8} (hc : c ≠ 37) (text : List UInt8) :
    percentDecode (c :: text) = (percentDecode text).map (c :: ·) := by
  -- the equations look two characters ahead
  rcases text with _ | ⟨a, _ | ⟨b, text⟩⟩
  · simp [percentDecode, hc]
  · rw [percentDecode.eq_def [c, a]]
    simp only [if_neg hc]
    cases percentDecode [a] <;> rfl
  · rw [percentDecode.eq_def (c :: a :: b :: text)]
    simp only [if_neg hc]
    cases percentDecode (a :: b :: text) <;> rfl

theorem percentDecode_percentByte (c : UInt8) (text : List UInt8) :
    percentDecode (percentByte c ++ text) = (percentDecode text).map (c :: ·) := by
  have hlt := c.toNat_lt
  unfold percentByte
  by_cases hc : isUnreserved c = true
  · have hpercent : c ≠ 37 := by
      rintro rfl
      cases hc
    rw [if_pos hc, List.singleton_append, percentDecode_cons hpercent]
  · have hbyte : UInt8.ofNat (16 * (c.toNat / 16) + c.toNat % 16) = c := by
      rw [Nat.div_add_mod, UInt8.ofNat_toNat]
    simp only [if_neg hc, List.cons_append, List.nil_append, percentDecode, if_pos,
      hexValue_hexDigit _ (show c.toNat / 16 < 16 by omega),
      hexValue_hexDigit _ (show c.toNat % 16 < 16 by omega), Option.bind_eq_bind,
      Option.bind_some, hbyte]
    cases percentDecode text <;> rfl

/-- **Decoding undoes encoding.** -/
theorem percentDecode_percentEncode (bytes : List UInt8) :
    percentDecode (percentEncode bytes) = some bytes := by
  induction bytes with
  | nil => rfl
  | cons c bytes ih =>
    have hcons : percentEncode (c :: bytes) = percentByte c ++ percentEncode bytes := rfl
    rw [hcons, percentDecode_percentByte, ih, Option.map_some]

/-- An encoded text is made of unreserved characters and `%`. -/
theorem mem_percentEncode {bytes : List UInt8} {d : UInt8} (h : d ∈ percentEncode bytes) :
    isUnreserved d = true ∨ d = 37 := by
  obtain ⟨c, -, hd⟩ := List.mem_flatMap.mp h
  have hlt := c.toNat_lt
  unfold percentByte at hd
  by_cases hc : isUnreserved c = true
  · rw [if_pos hc, List.mem_singleton] at hd
    exact .inl (hd ▸ hc)
  · rw [if_neg hc] at hd
    simp only [List.mem_cons, List.not_mem_nil, or_false] at hd
    rcases hd with rfl | rfl | rfl
    · exact .inr rfl
    · exact .inl (isUnreserved_hexDigit _ (by omega))
    · exact .inl (isUnreserved_hexDigit _ (by omega))

theorem length_percentEncode_le (bytes : List UInt8) :
    (percentEncode bytes).length ≤ 3 * bytes.length := by
  induction bytes with
  | nil => exact Nat.le_refl _
  | cons c bytes ih =>
    have hone : (percentByte c).length ≤ 3 := by
      unfold percentByte
      split <;> simp
    have hcons : percentEncode (c :: bytes) = percentByte c ++ percentEncode bytes := rfl
    rw [hcons, List.length_append, List.length_cons]
    omega

end CLib
