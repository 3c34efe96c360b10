import Thuban.Stdio.Lengths

/-!
# Printed numbers read back

What `print_int` and `print_uint` put out is a field of the right length whose numeral reads as the
argument.  The padding is computed in `int`, where a width far below zero wraps.
-/

namespace Thuban.Stdio

open Lib

def digitValue (c : UInt8) : ℕ :=
  if c ≤ chr '9' then (c - chr '0').toNat
  else if c ≤ chr 'F' then (c - chr 'A').toNat + 10
  else (c - chr 'a').toNat + 10

def readDigits (base : ℕ) (text : List UInt8) : ℕ := text.foldl (fun n c => n * base + digitValue c) 0

/-- The number that a text shows, blanks apart. -/
def readNumber (base : ℕ) (text : List UInt8) : ℤ :=
  let number := text.filter (· ≠ chr ' ')
  if number.head? = some (chr '-') then -(readDigits base number.tail : ℤ) else readDigits base number

/-- The digits of a number, without zeros in front of them. -/
def numeral (base : ℕ) (uppercase : Bool) (n : ℕ) : List UInt8 :=
  if n = 0 then [chr '0'] else (Nat.digits base n).reverse.map (digitChar uppercase)

/-- The sign and the larger of the digit count and the precision. -/
def naturalLength (base : ℕ) (precision num : ℤ) : ℕ :=
  (if num < 0 then 1 else 0) + max (digitCount base num.natAbs) precision.toNat

/-- A text shows a number in a field: it has the length, it is a sign, zeros and the digits with spaces
on one side, and it reads as the number. -/
structure ShowsNumber (base : ℕ) (uppercase leftAlign : Bool) (width precision num : ℤ)
    (text : List UInt8) : Prop where
  length : (text.length : ℤ) = max width (naturalLength base precision num)
  parts : ∃ spaces zeros, text =
    (if leftAlign then [] else List.replicate spaces (chr ' ')) ++
      (signChars num ++ (List.replicate zeros (chr '0') ++ numeral base uppercase num.natAbs)) ++
        if leftAlign then List.replicate spaces (chr ' ') else []
  value : readNumber base text = num

variable {base : ℕ} {uppercase : Bool}

theorem digitChar_spec {digit : ℕ} (small : digit < 16) :
    digitValue (digitChar uppercase digit) = digit ∧ digitChar uppercase digit ≠ chr ' ' ∧
      digitChar uppercase digit ≠ chr '-' := by
  revert small uppercase digit
  decide

variable {n : ℕ} {num : ℤ}

theorem numeral_eq (big : 8 ≤ base) (small : n < 2 ^ 64) :
    digitBuffer base uppercase n = numeral base uppercase n := by
  rw [digitBuffer, numeral, pushDigits_eq_digits (by omega)
    (small.trans_le (Nat.pow_le_pow_left (by omega) 64))]

theorem mem_numeral (big : 8 ≤ base) (few : base ≤ 16) {c : UInt8}
    (mem : c ∈ numeral base uppercase n) : ∃ digit < 16, c = digitChar uppercase digit := by
  unfold numeral at mem
  split_ifs at mem
  · exact ⟨0, by decide, List.mem_singleton.mp mem⟩
  · obtain ⟨digit, within, rfl⟩ := List.mem_map.mp mem
    have small := Nat.digits_lt_base (by omega : 1 < base) (List.mem_reverse.mp within)
    exact ⟨digit, by omega, rfl⟩

theorem readDigits_zeros (base zeros : ℕ) (text : List UInt8) :
    readDigits base (List.replicate zeros (chr '0') ++ text) = readDigits base text := by
  rw [readDigits, List.foldl_append]
  congr 1
  induction zeros with
  | zero => rfl
  | succ zeros ih => rw [List.replicate_succ', List.foldl_concat, ih]; simp [digitValue, chr]

theorem readDigits_map {digits : List ℕ} (small : ∀ digit ∈ digits, digit < 16) :
    readDigits base (digits.reverse.map (digitChar uppercase)) = Nat.ofDigits base digits := by
  rw [readDigits, List.map_reverse, List.foldl_reverse, List.foldr_map]
  induction digits with
  | nil => rfl
  | cons digit rest ih =>
    rw [List.forall_mem_cons] at small
    rw [List.foldr_cons, ih small.2, (digitChar_spec small.1).1, Nat.ofDigits_cons, Nat.mul_comm,
      Nat.add_comm]

theorem readDigits_numeral (big : 8 ≤ base) (few : base ≤ 16) (n : ℕ) :
    readDigits base (numeral base uppercase n) = n := by
  unfold numeral
  split_ifs with zero
  · rw [zero]
    exact readDigits_zeros base 1 []
  · rw [readDigits_map fun digit mem =>
      (Nat.digits_lt_base (by omega : 1 < base) mem).trans_le few, Nat.ofDigits_digits]

/-- Blanks on either side do not count, and the sign is not taken for a digit. -/
theorem readNumber_parts {before after number : List UInt8}
    (blanks : ∀ c ∈ before ++ after, c = chr ' ') (solid : ∀ c ∈ number, c ≠ chr ' ' ∧ c ≠ chr '-')
    (value : readDigits base number = num.natAbs) :
    readNumber base (before ++ (signChars num ++ number) ++ after) = num := by
  have none : ∀ l ⊆ before ++ after, l.filter (· ≠ chr ' ') = [] := fun l within =>
    List.filter_eq_nil_iff.mpr fun c mem => by simp [blanks c (within mem)]
  have all : (signChars num ++ number).filter (· ≠ chr ' ') = signChars num ++ number := by
    refine List.filter_eq_self.mpr fun c mem => decide_eq_true ?_
    rcases List.mem_append.mp mem with sign | digit
    · unfold signChars at sign
      split_ifs at sign
      · rw [List.mem_singleton.mp sign]
        decide
      · exact absurd sign List.not_mem_nil
    · exact (solid c digit).1
  rw [readNumber, List.filter_append, List.filter_append, none _ (List.subset_append_left ..),
    none _ (List.subset_append_right ..), all, List.nil_append, List.append_nil, signChars]
  by_cases negative : num < 0
  · rw [if_pos negative, List.singleton_append, if_pos List.head?_cons, List.tail_cons, value]
    omega
  · have unsigned : number.head? ≠ some (chr '-') := fun head =>
      (solid _ (List.mem_of_mem_head? head)).2 rfl
    rw [if_neg negative, List.nil_append, if_neg unsigned, value]
    omega

theorem field_parts (width precision : ℤ) (leftAlign zeroPad : Bool) (sign digits : List UInt8) :
    ∃ spaces zeros, field width precision leftAlign zeroPad sign digits =
      (if leftAlign then [] else List.replicate spaces (chr ' ')) ++
        (sign ++ (List.replicate zeros (chr '0') ++ digits)) ++
          if leftAlign then List.replicate spaces (chr ' ') else [] := by
  rw [field]
  generalize padding width (sign ++ fillZeros precision digits).length = pad
  rw [fillZeros]
  generalize (precision - digits.length).toNat = zeros
  cases leftAlign with
  | true => exact ⟨pad, zeros, by simp⟩
  | false =>
    cases zeroPad with
    | true => exact ⟨0, pad + zeros, by simp [← List.replicate_append_replicate]⟩
    | false => exact ⟨pad, zeros, by simp⟩

theorem length_signed_field (big : 8 ≤ base) (small : num.natAbs < 2 ^ 64) (precision : ℤ) :
    (signChars num ++ fillZeros precision (digitBuffer base uppercase num.natAbs)).length =
      naturalLength base precision num := by
  rw [List.length_append, length_signChars, length_fillZeros_eq_max, length_digitBuffer _ big small]
  rfl

theorem showsNumber_iff {width precision : ℤ} (big : 8 ≤ base) (few : base ≤ 16)
    (small : num.natAbs < 2 ^ 64) (fits : precision ≤ 62) (low : -2 ^ 31 ≤ width)
    (high : width < 2 ^ 31) (leftAlign zeroPad uppercase : Bool) :
    ShowsNumber base uppercase leftAlign width precision num
        (field width precision leftAlign zeroPad (signChars num)
          (digitBuffer base uppercase num.natAbs)) ↔
      -2 ^ 31 ≤ width - naturalLength base precision num := by
  have length := length_field width precision leftAlign zeroPad (signChars num)
    (digitBuffer base uppercase num.natAbs)
  rw [length_signed_field big small, padding, i32, Int.bmod_def] at length
  have short : naturalLength base precision num ≤ 63 := by
    have digits := length_digitBuffer_le big small uppercase
    rw [length_digitBuffer _ big small] at digits
    unfold naturalLength
    split_ifs <;> omega
  constructor
  · intro shows
    have whole := shows.length
    split_ifs at length <;> omega
  · intro inside
    obtain ⟨spaces, zeros, parts⟩ := field_parts width precision leftAlign zeroPad (signChars num)
      (digitBuffer base uppercase num.natAbs)
    rw [numeral_eq big small] at parts
    refine ⟨by split_ifs at length <;> omega, ⟨spaces, zeros, by rw [numeral_eq big small, parts]⟩, ?_⟩
    rw [numeral_eq big small, parts]
    apply readNumber_parts
    · intro c mem
      rcases List.mem_append.mp mem with mem | mem
      all_goals
        split_ifs at mem
        all_goals first | exact absurd mem List.not_mem_nil | exact List.eq_of_mem_replicate mem
    · intro c mem
      rcases List.mem_append.mp mem with zero | digit
      · rw [List.eq_of_mem_replicate zero]
        decide
      · obtain ⟨value, less, rfl⟩ := mem_numeral big few digit
        exact (digitChar_spec less).2
    · rw [readDigits_zeros, readDigits_numeral big few]

/-- For every width, precision up to 62 and flags and every 64-bit number: the buffers are long enough, and
what `print_int` in base 10 and `print_uint` in base 8, 10 and 16 put out shows the number in its field if
and only if the subtraction of the natural length from the width does not leave the range of `int`. -/
theorem printed_reads_iff (width : BitVec 32) (precision : ℤ) (fits : precision ≤ 62)
    (leftAlign zeroPad uppercase : Bool) (num : BitVec 64) :
    ((NumberBuffer.printInt num.toInt 10 precision true uppercase).i ≤ 64 ∧
      (ShowsNumber 10 uppercase leftAlign width.toInt precision num.toInt
          (printInt num.toInt 10 width.toInt precision leftAlign zeroPad true uppercase) ↔
        -2 ^ 31 ≤ width.toInt - naturalLength 10 precision num.toInt)) ∧
    ∀ base ∈ [8, 10, 16],
      (NumberBuffer.printUint num.toNat base precision uppercase).i ≤ 64 ∧
      (ShowsNumber base uppercase leftAlign width.toInt precision num.toNat
          (printUint num.toNat base width.toInt precision leftAlign zeroPad uppercase) ↔
        -2 ^ 31 ≤ width.toInt - naturalLength base precision num.toNat) := by
  have low := width.le_toInt
  have high := width.toInt_lt
  have negative := num.le_toInt
  have positive := num.toInt_lt
  constructor
  · have small : num.toInt.natAbs < 2 ^ 64 := by omega
    rw [printInt_eq _ _ _ _ _ small]
    refine ⟨?_, showsNumber_iff (by decide) (by decide) small fits low high ..⟩
    obtain ⟨n, less, holds⟩ := NumberBuffer.printInt_holds num.toInt 10 precision true uppercase
    have digits := length_digitBuffer_le (by decide : 8 ≤ 10) less uppercase
    rw [holds.i, List.length_append, length_fillZeros_eq_max]
    split_ifs <;> simp only [List.length_singleton, List.length_nil] <;> omega
  · intro base allowed
    have range : 8 ≤ base ∧ base ≤ 16 := by
      simp only [List.mem_cons, List.not_mem_nil, or_false] at allowed
      omega
    have small : (num.toNat : ℤ).natAbs < 2 ^ 64 := num.isLt
    have unsigned : signChars num.toNat = [] := if_neg (by omega)
    rw [printUint_eq]
    have shows := showsNumber_iff range.1 range.2 small fits low high leftAlign zeroPad uppercase
    rw [unsigned] at shows
    refine ⟨?_, shows⟩
    have digits := length_digitBuffer_le range.1 num.isLt uppercase
    rw [NumberBuffer.printUint, (NumberBuffer.digits_holds ..).i, length_fillZeros_eq_max]
    omega

/-- `%6d` with -42. -/
theorem printed_reads_wide : (2 : ℤ) ≤ 62 ∧
    ShowsNumber 10 false false 6 2 (-42) (printInt (-42) 10 6 2 false false true false) :=
  ⟨by decide, ((printed_reads_iff 6 2 (by decide) false false false (-42)).1.2).mpr (by decide)⟩

/-- With the least width the padding of 0 wraps to 2147483647 spaces. -/
theorem printed_overflows :
    ¬ ShowsNumber 10 false false (-2 ^ 31) 0 0 (printInt 0 10 (-2 ^ 31) 0 false false true false) := by
  intro shows
  have length := shows.length
  rw [printInt_eq _ _ _ _ _ (by decide), length_field] at length
  exact absurd length (by decide)

end Thuban.Stdio
