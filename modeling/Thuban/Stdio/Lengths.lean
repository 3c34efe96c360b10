import Thuban.Stdio.Agreement

/-!
# How much is printed

The number buffers of `print_int` and `print_uint` have 64 bytes, and the precision is not bounded: the
loop that fills them with zeros goes on behind their end.

`vprintf` counts one character for each number, and the whole string for `%s`, whatever it prints.  Its
result is the number of characters that it sends to `putchar` if each directive is counted as it is
printed (`Counted`); the number buffers then hold what is printed.
-/

namespace Thuban.Stdio

open Lib

theorem length_fillZeros_eq_max (precision : ℤ) (buffer : List UInt8) :
    (fillZeros precision buffer).length = max buffer.length precision.toNat := by
  rw [length_fillZeros]
  omega

/-! ## Number buffers -/

/-- A number buffer: the index `i`, and the stores made so far, in their order. -/
structure NumberBuffer where
  i : ℕ
  stores : List (ℕ × UInt8)
  deriving DecidableEq

namespace NumberBuffer

/-- `buffer[i++] = c` -/
def push (b : NumberBuffer) (c : UInt8) : NumberBuffer := ⟨b.i + 1, b.stores ++ [(b.i, c)]⟩

def pushNumber (base : ℕ) (uppercase : Bool) : (fuel n : ℕ) → NumberBuffer → NumberBuffer
  | 0, _, b => b
  | fuel + 1, n, b =>
      if n = 0 then b
      else pushNumber base uppercase fuel (n / base) (b.push (digitChar uppercase (n % base)))

/-- The loop over the zeros, with fuel for each round. -/
def pushZeros (precision : ℤ) : (fuel : ℕ) → NumberBuffer → NumberBuffer
  | 0, b => b
  | fuel + 1, b => if (b.i : ℤ) < precision then pushZeros precision fuel (b.push (chr '0')) else b

/-- The digits of a 64-bit number, and the zeros in front of them. -/
def digits (n base : ℕ) (precision : ℤ) (uppercase : Bool) : NumberBuffer :=
  pushZeros precision precision.toNat
    (if n = 0 then (⟨0, []⟩ : NumberBuffer).push (chr '0')
    else pushNumber base uppercase 64 n ⟨0, []⟩)

/-- The buffer of `print_int`. -/
def printInt (num : ℤ) (base : ℕ) (precision : ℤ) (sign uppercase : Bool) : NumberBuffer :=
  let negative := sign && decide (num < 0)
  let b := digits ((if negative then -num else num) % 2 ^ 64).toNat base precision uppercase
  if negative then b.push (chr '-') else b

/-- The buffer of `print_uint`. -/
def printUint (num base : ℕ) (precision : ℤ) (uppercase : Bool) : NumberBuffer :=
  digits num base precision uppercase

/-- The buffer has been filled from its start with the characters of `text`, the last one first. -/
structure Holds (b : NumberBuffer) (text : List UInt8) : Prop where
  i : b.i = text.length
  stores : b.stores = text.reverse.zipIdx.map Prod.swap

variable {b : NumberBuffer} {text : List UInt8}

theorem Holds.push (holds : Holds b text) (c : UInt8) : Holds (b.push c) (c :: text) where
  i := congrArg (· + 1) holds.i
  stores := by
    rw [NumberBuffer.push, holds.stores, holds.i, List.reverse_cons, List.zipIdx_append,
      List.map_append, List.length_reverse, Nat.zero_add]
    rfl

theorem Holds.pushNumber (holds : Holds b text) (base : ℕ) (uppercase : Bool) (fuel n : ℕ) :
    Holds (b.pushNumber base uppercase fuel n) (pushDigits (digitChar uppercase) base fuel n text) := by
  induction fuel generalizing n b text with
  | zero => exact holds
  | succ fuel ih =>
    rw [NumberBuffer.pushNumber, pushDigits]
    split_ifs
    · exact holds
    · exact ih (holds.push _) _

theorem Holds.pushZeros (holds : Holds b text) {precision : ℤ} {fuel : ℕ}
    (enough : (precision - text.length).toNat ≤ fuel) :
    Holds (b.pushZeros precision fuel) (fillZeros precision text) := by
  induction fuel generalizing b text with
  | zero =>
    rw [fillZeros_of_le (by omega)]
    exact holds
  | succ fuel ih =>
    rw [NumberBuffer.pushZeros, holds.i]
    split_ifs with more
    · have zeros : fillZeros precision text = fillZeros precision (chr '0' :: text) := by
        obtain ⟨k, left⟩ : ∃ k, (precision - text.length).toNat = k + 1 :=
          ⟨(precision - text.length).toNat - 1, by omega⟩
        have rest : (precision - (chr '0' :: text).length).toNat = k := by
          rw [List.length_cons]
          omega
        rw [fillZeros, fillZeros, left, rest, List.replicate_succ', List.append_assoc]
        rfl
      rw [zeros]
      exact ih (holds.push _) (by rw [List.length_cons]; omega)
    · rw [fillZeros_of_le (not_lt.mp more)]
      exact holds

theorem digits_holds (n base : ℕ) (precision : ℤ) (uppercase : Bool) :
    Holds (digits n base precision uppercase)
      (fillZeros precision (digitBuffer base uppercase n)) := by
  apply Holds.pushZeros _ (by omega)
  have empty : Holds ⟨0, []⟩ [] := ⟨rfl, rfl⟩
  rw [digitBuffer]
  split_ifs
  · exact empty.push _
  · exact empty.pushNumber base uppercase 64 n

theorem printInt_holds (num : ℤ) (base : ℕ) (precision : ℤ) (sign uppercase : Bool) :
    ∃ n < 2 ^ 64, Holds (printInt num base precision sign uppercase)
      ((if sign && decide (num < 0) then [chr '-'] else []) ++
        fillZeros precision (digitBuffer base uppercase n)) := by
  refine ⟨((if sign && decide (num < 0) then -num else num) % 2 ^ 64).toNat, by omega, ?_⟩
  rw [printInt]
  generalize (sign && decide (num < 0)) = negative
  have holds := digits_holds ((if negative then -num else num) % 2 ^ 64).toNat base precision uppercase
  cases negative with
  | false => exact holds
  | true => exact holds.push _

theorem Holds.inside_iff (holds : Holds b text) (size : ℕ) :
    (∀ store ∈ b.stores, store.1 < size) ↔ text.length ≤ size := by
  have indices : b.stores.map Prod.fst = List.range text.length := by
    rw [holds.stores, List.map_map, ← List.length_reverse, List.range_eq_range']
    exact List.zipIdx_map_snd ..
  have each : (∀ store ∈ b.stores, store.1 < size) ↔ ∀ i ∈ b.stores.map Prod.fst, i < size := by
    rw [List.forall_mem_map]
  rw [each, indices]
  constructor
  · intro inside
    by_contra long
    exact (inside size (List.mem_range.mpr (not_le.mp long))).false
  · exact fun short i mem => (List.mem_range.mp mem).trans_le short

end NumberBuffer

theorem length_digitBuffer_le {base n : ℕ} (big : 8 ≤ base) (small : n < 2 ^ 64) (uppercase : Bool) :
    (digitBuffer base uppercase n).length ≤ 22 := by
  have fits : n < base ^ 22 := small.trans_le ((by decide : 2 ^ 64 ≤ 8 ^ 22).trans
    (Nat.pow_le_pow_left big 22))
  rw [length_digitBuffer uppercase big small, digitCount]
  exact max_le (by decide) ((Nat.digits_length_le_iff (by omega) n).mpr fits)

/-- The stores lie in the buffer of a number. -/
def NumberBuffer.Fits (b : NumberBuffer) : Prop := ∀ store ∈ b.stores, store.1 < 64

section Fits

variable {base : ℕ} (big : 8 ≤ base) (precision : ℤ) (uppercase : Bool)

include big

theorem fits_printInt_iff (num : ℤ) (sign : Bool) :
    (NumberBuffer.printInt num base precision sign uppercase).Fits ↔
      precision + (if sign && decide (num < 0) then 1 else 0) ≤ 64 := by
  obtain ⟨n, small, holds⟩ := NumberBuffer.printInt_holds num base precision sign uppercase
  have short := length_digitBuffer_le big small uppercase
  rw [NumberBuffer.Fits, holds.inside_iff, List.length_append, length_fillZeros_eq_max]
  split_ifs <;> simp only [List.length_singleton, List.length_nil] <;> omega

theorem fits_printUint_iff {num : ℕ} (small : num < 2 ^ 64) :
    (NumberBuffer.printUint num base precision uppercase).Fits ↔ precision ≤ 64 := by
  have short := length_digitBuffer_le big small uppercase
  have holds := NumberBuffer.digits_holds num base precision uppercase
  rw [NumberBuffer.Fits, NumberBuffer.printUint, holds.inside_iff, length_fillZeros_eq_max]
  omega

end Fits

/-- Every index is below 64 if and only if the precision leaves room for the sign of a negative number. -/
theorem number_buffers_iff {base : ℕ} (allowed : base ∈ [8, 10, 16]) (precision : ℤ) (uppercase : Bool) :
    (∀ (num : ℤ) (sign : Bool),
      (∀ store ∈ (NumberBuffer.printInt num base precision sign uppercase).stores, store.1 < 64) ↔
        precision + (if sign && decide (num < 0) then 1 else 0) ≤ 64) ∧
    ∀ num < 2 ^ 64,
      (∀ store ∈ (NumberBuffer.printUint num base precision uppercase).stores, store.1 < 64) ↔
        precision ≤ 64 := by
  have big : 8 ≤ base := by
    simp only [List.mem_cons, List.not_mem_nil, or_false] at allowed
    omega
  exact ⟨fits_printInt_iff big precision uppercase,
    fun _ small => fits_printUint_iff big precision uppercase small⟩

/-- `%.63d` with a negative number fills the buffer. -/
theorem number_buffer_filled : 10 ∈ [8, 10, 16] ∧
    ∀ store ∈ (NumberBuffer.printInt (-5) 10 63 true false).stores, store.1 < 64 :=
  ⟨by decide, ((number_buffers_iff (by decide) 63 false).1 (-5) true).mpr (by decide)⟩

/-- `%.65d` with 1 stores behind the buffer. -/
theorem number_buffer_overrun :
    pieces (['%', '.', '6', '5', 'd'].map chr) =
      some [.directive ⟨false, false, .given 0, .given 65, false, false⟩ (chr 'd') 0] ∧
    (64, chr '0') ∈ (NumberBuffer.printInt 1 10 65 true false).stores := by
  decide

/-! ## The result of `vprintf` -/

def fieldLength (width : ℤ) (len : ℕ) : ℕ := padding width len + len

/-- The number of characters that `vprintf` prints for a piece. -/
def pieceLength (args : Args) : Piece → ℕ
  | .char _ => 1
  | .directive spec conversion k =>
      let width := args.count spec.width
      let precision := args.count spec.precision
      if conversion = chr 's' then fieldLength width (shownLength precision (args.str k))
      else if conversion = chr 'd' ∨ conversion = chr 'i' then
        let digits := digitCount 10 (args.signed spec k).natAbs
        fieldLength width ((if args.signed spec k < 0 then 1 else 0) + max digits precision.toNat)
      else if conversion ∈ [chr 'u', chr 'x', chr 'X', chr 'o'] then
        let digits := digitCount (baseOf conversion) (args.unsigned spec k)
        fieldLength width (max digits precision.toNat)
      else if conversion = chr 'p' then 18
      else 1

/-- A piece that is counted as it is printed.  A string fills its field, or it is cut at its precision in
a field of its own length; a number has one digit and no sign, leading zeros or padding. -/
def Counted (args : Args) : Piece → Prop
  | .char _ => True
  | .directive spec conversion k =>
      let width := args.count spec.width
      let precision := args.count spec.precision
      if conversion = chr 's' then
        if 0 ≤ precision ∧ precision < (args.str k).length then i32 width = (args.str k).length
        else Filled width (args.str k).length
      else if conversion = chr 'd' ∨ conversion = chr 'i' then
        (0 ≤ args.signed spec k ∧ args.signed spec k < 10) ∧ precision ≤ 1 ∧ Filled width 1
      else if conversion ∈ [chr 'u', chr 'x', chr 'X', chr 'o'] then
        args.unsigned spec k < baseOf conversion ∧ precision ≤ 1 ∧ Filled width 1
      else conversion ≠ chr 'p'

/-- The number buffer of a piece, which is empty for a piece that is no number. -/
def pieceBuffer (args : Args) : Piece → NumberBuffer
  | .char _ => ⟨0, []⟩
  | .directive spec conversion k =>
      let precision := args.count spec.precision
      if conversion = chr 'd' ∨ conversion = chr 'i' then
        .printInt (args.signed spec k) 10 precision true false
      else if conversion ∈ [chr 'u', chr 'x', chr 'X', chr 'o'] then
        .printUint (args.unsigned spec k) (baseOf conversion) precision (conversion = chr 'X')
      else if conversion = chr 'p' then .printUint (args.slots k).toNat 16 (-1) false
      else ⟨0, []⟩

theorem Args.str_length_lt (args : Args) (k : ℕ) : (args.str k).length < 2 ^ 31 := by
  rw [Args.str]
  split_ifs
  · decide
  · exact args.short _

theorem length_signChars (num : ℤ) : (signChars num).length = if num < 0 then 1 else 0 := by
  rw [signChars]
  split_ifs <;> rfl

section Directive

variable (args : Args) (spec : Spec) (k : ℕ)

theorem length_printPiece (piece : Piece) :
    (printPiece args piece).1.length = pieceLength args piece := by
  match piece with
  | .char c => rfl
  | .directive spec conversion k =>
    by_cases string : conversion = chr 's'
    · subst string
      rw [printPiece, if_neg (by decide), if_pos rfl, pieceLength, if_pos rfl]
      exact length_printString _ _ _ _
    by_cases signed : conversion = chr 'd' ∨ conversion = chr 'i'
    · have small := natAbs_signed_lt args spec k
      rw [(directive_signed args spec k signed).2, printInt_eq _ _ _ _ _ small, length_field,
        List.length_append,
        length_fillZeros_eq_max, length_digitBuffer _ (by decide) small, length_signChars, pieceLength,
        if_neg string, if_pos signed]
      rfl
    by_cases unsigned : conversion ∈ [chr 'u', chr 'x', chr 'X', chr 'o']
    · obtain ⟨-, printed, big⟩ := directive_unsigned args spec k unsigned
      rw [printed, printUint_eq, length_field, List.nil_append, length_fillZeros_eq_max,
        length_digitBuffer _ big (unsigned_lt args spec k), pieceLength, if_neg string, if_neg signed,
        if_pos unsigned]
      rfl
    rw [pieceLength, if_neg string, if_neg signed, if_neg unsigned]
    by_cases pointer : conversion = chr 'p'
    · subst pointer
      rw [if_pos rfl, printPiece]
      simp +decide [printPtr_eq (args.slots k).isLt, pointerBuffer]
    · simp only [List.mem_cons, List.not_mem_nil, or_false, not_or] at unsigned
      simp [printPiece, string, signed, unsigned, pointer]
      split_ifs <;> rfl

theorem digitCount_eq_one {base : ℕ} (big : 2 ≤ base) (n : ℕ) : digitCount base n = 1 ↔ n < base := by
  have digits := Nat.digits_length_le_iff (k := 1) (by omega : 1 < base) n
  rw [pow_one] at digits
  rw [digitCount, ← digits]
  omega

theorem fieldLength_eq_one {width : ℤ} {len : ℕ} (some : 1 ≤ len) :
    fieldLength width len = 1 ↔ len = 1 ∧ Filled width 1 := by
  rw [← padding_eq_zero, fieldLength]
  constructor
  · intro one
    obtain rfl : len = 1 := by omega
    exact ⟨rfl, by omega⟩
  · rintro ⟨rfl, filled⟩
    rw [filled]

theorem numberLength_eq_one {base : ℕ} (big : 2 ≤ base) {width precision : ℤ} {sign n : ℕ} :
    fieldLength width (sign + max (digitCount base n) precision.toNat) = 1 ↔
      (sign = 0 ∧ n < base) ∧ precision ≤ 1 ∧ Filled width 1 := by
  have some : 1 ≤ digitCount base n := le_max_left _ _
  rw [fieldLength_eq_one (by omega), ← digitCount_eq_one big]
  constructor
  · rintro ⟨one, filled⟩
    exact ⟨by omega, by omega, filled⟩
  · rintro ⟨one, precise, filled⟩
    exact ⟨by omega, filled⟩

theorem fieldLength_eq_length (args : Args) (width precision : ℤ) (k : ℕ) :
    fieldLength width (shownLength precision (args.str k)) = (args.str k).length ↔
      if 0 ≤ precision ∧ precision < (args.str k).length then i32 width = (args.str k).length
      else Filled width (args.str k).length := by
  have short := args.str_length_lt k
  rw [fieldLength, shownLength]
  split_ifs with negative cut cut
  · omega
  · rw [← padding_eq_zero]
    omega
  · rw [min_eq_right (by omega), padding, i32, i32, Int.bmod_def, Int.bmod_def]
    split_ifs <;> omega
  · rw [min_eq_left (by omega), ← padding_eq_zero]
    omega

/-- A piece adds to the count what it prints if and only if it is counted as it is printed. -/
theorem counted_iff (piece : Piece) :
    (printPiece args piece).2 = (printPiece args piece).1.length ↔ Counted args piece := by
  rw [length_printPiece]
  cases piece with
  | char c => simp [printPiece, pieceLength, Counted]
  | directive spec conversion k =>
    by_cases string : conversion = chr 's'
    · subst string
      rw [printPiece, if_neg (by decide), if_pos rfl, pieceLength, if_pos rfl, Counted, if_pos rfl,
        eq_comm]
      exact fieldLength_eq_length args _ _ k
    have counted : (printPiece args (.directive spec conversion k)).2 = 1 := by
      rw [printPiece, if_neg string]
      split_ifs <;> rfl
    rw [counted, eq_comm, pieceLength, Counted, if_neg string, if_neg string]
    dsimp only
    by_cases signed : conversion = chr 'd' ∨ conversion = chr 'i'
    · rw [if_pos signed, if_pos signed, numberLength_eq_one (by decide)]
      refine and_congr_left fun _ => ?_
      generalize args.signed spec k = num
      split_ifs with negative
      · exact iff_of_false (fun one => one.1) (by omega)
      · rw [and_iff_right rfl]
        omega
    rw [if_neg signed, if_neg signed]
    by_cases unsigned : conversion ∈ [chr 'u', chr 'x', chr 'X', chr 'o']
    · have big := (directive_unsigned args spec k unsigned).2.2
      rw [if_pos unsigned, if_pos unsigned, ← Nat.zero_add (max _ _), numberLength_eq_one (by omega),
        and_iff_right rfl]
    rw [if_neg unsigned, if_neg unsigned]
    split_ifs with pointer
    · simp [pointer]
    · simp [pointer]

theorem Counted.fits {piece : Piece} (counted : Counted args piece) : (pieceBuffer args piece).Fits := by
  cases piece with
  | char c => exact List.forall_mem_nil _
  | directive spec conversion k =>
    rw [pieceBuffer]
    rw [Counted] at counted
    by_cases signed : conversion = chr 'd' ∨ conversion = chr 'i'
    · rw [if_neg (by rcases signed with rfl | rfl <;> decide), if_pos signed] at counted
      rw [if_pos signed, fits_printInt_iff (by decide)]
      have := counted.2.1
      split_ifs <;> omega
    rw [if_neg signed] at counted ⊢
    by_cases unsigned : conversion ∈ [chr 'u', chr 'x', chr 'X', chr 'o']
    · have big := (directive_unsigned args spec k unsigned).2.2
      have other : conversion ≠ chr 's' := by
        rintro rfl
        exact absurd unsigned (by decide)
      rw [if_neg other, if_pos unsigned] at counted
      rw [if_pos unsigned, fits_printUint_iff big _ _ (unsigned_lt args spec k)]
      have := counted.2.1
      omega
    rw [if_neg unsigned]
    split_ifs
    · rw [fits_printUint_iff (by decide) _ _ (args.slots k).isLt]
      decide
    · exact List.forall_mem_nil _

end Directive

/-- For a format whose directives are complete: each piece adds to the count what it prints if and only
if it is counted as it is printed; and if all are, the number buffers hold what is printed, and `vprintf`
returns its length as far as an `int` can count it. -/
theorem vprintf_counts_iff {format : CString} {ps : List Piece} (args : Args)
    (complete : pieces format = some ps) :
    (∀ piece ∈ ps,
      (printPiece args piece).2 = (printPiece args piece).1.length ↔ Counted args piece) ∧
    ∃ text count, vprintf format args = some (text, count) ∧
      ((∀ piece ∈ ps, Counted args piece) →
        (∀ piece ∈ ps, (pieceBuffer args piece).Fits) ∧
          (text.length < 2 ^ 31 → i32 count = text.length)) := by
  refine ⟨fun piece _ => counted_iff args piece, _, _, by rw [vprintf, complete, Option.map_some],
    fun counted => ⟨fun piece mem => (counted piece mem).fits, fun small => ?_⟩⟩
  have total : (ps.map fun piece => (printPiece args piece).2).sum =
      (ps.flatMap fun piece => (printPiece args piece).1).length := by
    rw [List.length_flatMap]
    exact congrArg List.sum (List.map_congr_left fun piece mem =>
      (counted_iff args piece).mpr (counted piece mem))
  rw [total, i32, Int.bmod_eq_of_le (by omega) (by omega)]

/-- The directive `%d`. -/
def plainNumber : Piece := .directive ⟨false, false, .given 0, .given (-1), false, false⟩ (chr 'd') 0

/-- `%d` with a number of one digit. -/
theorem vprintf_counts_oneDigit : ∃ text count,
    vprintf (['%', 'd'].map chr) (oneNumber 7) = some (text, count) ∧ i32 count = text.length := by
  obtain ⟨-, text, count, printed, counts⟩ := vprintf_counts_iff (oneNumber 7)
    (by decide : pieces (['%', 'd'].map chr) = some [plainNumber])
  have evaluated : vprintf (['%', 'd'].map chr) (oneNumber 7) = some ([chr '7'], 1) := by decide
  refine ⟨text, count, printed, (counts ?_).2 ?_⟩
  · intro piece mem
    rw [List.mem_singleton.mp mem, plainNumber, Counted, if_neg (by decide), if_pos (by decide)]
    decide
  · rw [(Prod.mk.inj (Option.some.inj (printed.symm.trans evaluated))).1]
    decide

/-- `%d` with 42 prints two characters and returns 1. -/
theorem vprintf_miscounts :
    vprintf (['%', 'd'].map chr) (oneNumber 42) = some (['4', '2'].map chr, 1) := by
  decide

end Thuban.Stdio
