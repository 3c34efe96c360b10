import Thuban.Stdio.Format

/-!
# Where `printf` and `sprintf` agree

`vprintf_internal` reads flags, widths and the precision of numbers, and uses none of them.  What it
stores for a piece is never longer than what `vprintf` prints, and it is the same text exactly if the
directive asks for no padding and for no leading zeros (`Plain`).
-/

namespace Thuban.Stdio

open Lib

/-! ## What a directive asks for -/

def digitCount (base n : ℕ) : ℕ := max 1 (Nat.digits base n).length

/-- The number of characters of a string that a precision lets through. -/
def shownLength (precision : ℤ) (s : CString) : ℕ :=
  if precision < 0 then s.length else min s.length precision.toNat

/-- A field with no padding for `len` characters. -/
def Filled (width : ℤ) (len : ℕ) : Prop := i32 (width - len) ≤ 0

instance (width : ℤ) (len : ℕ) : Decidable (Filled width len) :=
  inferInstanceAs (Decidable (_ ≤ _))

/-- A piece that asks neither for padding nor for more digits than its number has. -/
def Plain (args : Args) : Piece → Prop
  | .char _ => True
  | .directive spec conversion k =>
      let width := args.count spec.width
      let precision := args.count spec.precision
      if conversion = chr 's' then Filled width (shownLength precision (args.str k))
      else if conversion = chr 'd' ∨ conversion = chr 'i' then
        let digits := digitCount 10 (args.signed spec k).natAbs
        precision ≤ digits ∧ Filled width (digits + if args.signed spec k < 0 then 1 else 0)
      else if conversion ∈ [chr 'u', chr 'x', chr 'X', chr 'o'] then
        let digits := digitCount (baseOf conversion) (args.unsigned spec k)
        precision ≤ digits ∧ Filled width digits
      else True

/-- `long` is no shorter than `short`, and the two are equal exactly under a condition. -/
structure Decorates {α : Type*} (short long : List α) (plain : Prop) : Prop where
  length_le : short.length ≤ long.length
  eq_iff : short = long ↔ plain

theorem Decorates.of_eq {α : Type*} {short long : List α} (same : short = long) :
    Decorates short long True :=
  ⟨same ▸ le_rfl, by simpa using same⟩

theorem Decorates.flatMap {α β : Type*} {short long : α → List β} {plain : α → Prop} {l : List α}
    (each : ∀ x ∈ l, Decorates (short x) (long x) (plain x)) :
    Decorates (l.flatMap short) (l.flatMap long) (∀ x ∈ l, plain x) := by
  induction l with
  | nil => exact ⟨le_rfl, by simp⟩
  | cons x l ih =>
    have head := each x List.mem_cons_self
    have tail := ih fun y hy => each y (List.mem_cons_of_mem x hy)
    have shorter := head.length_le
    constructor
    · rw [List.flatMap_cons, List.flatMap_cons, List.length_append, List.length_append]
      exact Nat.add_le_add head.length_le tail.length_le
    · rw [List.flatMap_cons, List.flatMap_cons, List.forall_mem_cons, ← head.eq_iff, ← tail.eq_iff]
      constructor
      · intro same
        have lengths := congrArg List.length same
        have rest := tail.length_le
        rw [List.length_append, List.length_append] at lengths
        exact List.append_inj same (by omega)
      · rintro ⟨first, others⟩
        rw [first, others]

/-! ## Strings -/

theorem padding_eq_zero {width : ℤ} {len : ℕ} : padding width len = 0 ↔ Filled width len :=
  Int.toNat_eq_zero

theorem printedLength_eq (precision : ℤ) (s : CString) (len : ℕ)
    (low : 0 ≤ precision → len ≤ precision) :
    printedLength precision s len =
      if precision < 0 then len + s.length else min (len + s.length) precision.toNat := by
  induction s generalizing len with
  | nil =>
    rw [printedLength]
    split_ifs with negative
    · rfl
    · have := low (by omega)
      simp
      omega
  | cons c s ih =>
    rw [printedLength, List.length_cons]
    split_ifs with more negative negative
    · rw [ih _ (by omega), if_pos negative]
      omega
    · rw [ih _ (by omega), if_neg negative]
      congr 1
      omega
    · omega
    · have := low (by omega)
      omega

theorem printedLength_eq_shownLength (precision : ℤ) (s : CString) :
    printedLength precision s 0 = shownLength precision s := by
  rw [printedLength_eq _ _ _ (by simp), Nat.zero_add, shownLength]

theorem shownLength_le (precision : ℤ) (s : CString) : shownLength precision s ≤ s.length := by
  rw [shownLength]
  split_ifs
  · exact le_rfl
  · exact min_le_left _ _

theorem length_printString (s : CString) (width precision : ℤ) (leftAlign : Bool) :
    (printString s width precision leftAlign).length =
      padding width (shownLength precision s) + shownLength precision s := by
  have short := shownLength_le precision s
  rw [← printedLength_eq_shownLength] at short ⊢
  cases leftAlign <;> simp [printString, Nat.add_comm, short]

theorem printString_decorates (s : CString) (width precision : ℤ) (leftAlign : Bool) :
    Decorates (s.take (printedLength precision s 0)) (printString s width precision leftAlign)
      (Filled width (shownLength precision s)) := by
  have len := length_printString s width precision leftAlign
  have shown : (s.take (printedLength precision s 0)).length = shownLength precision s := by
    rw [printedLength_eq_shownLength, List.length_take, min_eq_left (shownLength_le precision s)]
  rw [← padding_eq_zero]
  refine ⟨by omega, fun same => ?_, fun full => ?_⟩
  · have := congrArg List.length same
    omega
  · rw [← printedLength_eq_shownLength] at full
    simp [printString, full]

/-! ## Numbers -/

theorem length_digitBuffer {base : ℕ} (uppercase : Bool) {n : ℕ} (big : 8 ≤ base)
    (small : n < 2 ^ 64) :
    (digitBuffer base uppercase n).length = digitCount base n := by
  have fits : n < base ^ 64 :=
    small.trans_le (Nat.pow_le_pow_left (by omega) 64)
  rw [digitBuffer, digitCount]
  split_ifs with zero
  · simp [zero]
  · have pos : 0 < (Nat.digits base n).length :=
      List.length_pos_of_ne_nil (Nat.digits_ne_nil_iff_ne_zero.mpr zero)
    rw [pushDigits_eq_digits (by omega) fits, List.length_map, List.length_reverse]
    omega

theorem decimalBuffer_eq (n : ℕ) : decimalBuffer n = digitBuffer 10 false n := by
  rw [decimalBuffer, digitBuffer]
  congr 1
  refine pushDigits_congr (by decide) (fun digit small => ?_) _ _ _
  rw [digitChar, if_pos small]

theorem length_fillZeros (precision : ℤ) (buffer : List UInt8) :
    (fillZeros precision buffer).length = (precision - buffer.length).toNat + buffer.length := by
  rw [fillZeros, List.length_append, List.length_replicate]

theorem fillZeros_of_le {precision : ℤ} {buffer : List UInt8} (enough : precision ≤ buffer.length) :
    fillZeros precision buffer = buffer := by
  rw [fillZeros, Int.toNat_eq_zero.mpr (by omega)]
  rfl

def field (width precision : ℤ) (leftAlign zeroPad : Bool) (sign digits : List UInt8) : List UInt8 :=
  let digits := fillZeros precision digits
  let pad := padding width (sign ++ digits).length
  (if !leftAlign && !zeroPad then List.replicate pad (chr ' ') else []) ++ sign ++
    (if !leftAlign && zeroPad then List.replicate pad (chr '0') else []) ++ digits ++
      (if leftAlign then List.replicate pad (chr ' ') else [])

theorem length_field (width precision : ℤ) (leftAlign zeroPad : Bool) (sign digits : List UInt8) :
    (field width precision leftAlign zeroPad sign digits).length =
      padding width (sign ++ fillZeros precision digits).length +
        (sign ++ fillZeros precision digits).length := by
  cases leftAlign <;> cases zeroPad <;> simp [field] <;> omega

theorem field_decorates (width precision : ℤ) (leftAlign zeroPad : Bool) (sign digits : List UInt8) :
    Decorates (sign ++ digits) (field width precision leftAlign zeroPad sign digits)
      (precision ≤ digits.length ∧ Filled width (sign ++ digits).length) := by
  rw [← padding_eq_zero]
  have len := length_field width precision leftAlign zeroPad sign digits
  have filled := length_fillZeros precision digits
  have parts : (sign ++ digits).length = sign.length + digits.length := List.length_append
  rw [List.length_append] at len
  refine ⟨by omega, fun same => ?_, fun ⟨enough, full⟩ => ?_⟩
  · have lengths := congrArg List.length same
    have enough : precision ≤ digits.length := by omega
    rw [fillZeros_of_le enough, ← parts] at len
    exact ⟨enough, by omega⟩
  · rw [field, fillZeros_of_le enough, full]
    cases leftAlign <;> cases zeroPad <;> simp

theorem printUint_eq (num base : ℕ) (width precision : ℤ) (leftAlign zeroPad uppercase : Bool) :
    printUint num base width precision leftAlign zeroPad uppercase =
      field width precision leftAlign zeroPad [] (digitBuffer base uppercase num) := by
  rw [printUint, field, List.append_nil]
  rfl

def signChars (num : ℤ) : List UInt8 := if num < 0 then [chr '-'] else []

/-- What `vprintf_internal` stores for a signed number. -/
def signedBuffer (num : ℤ) : List UInt8 := signChars num ++ digitBuffer 10 false num.natAbs

theorem printInt_eq {num : ℤ} (width precision : ℤ) (leftAlign zeroPad uppercase : Bool)
    (small : num.natAbs < 2 ^ 64) :
    printInt num 10 width precision leftAlign zeroPad true uppercase =
      field width precision leftAlign zeroPad (signChars num) (digitBuffer 10 uppercase num.natAbs) := by
  by_cases negative : num < 0
  · have magnitude : ((if true then -num else num) % 2 ^ 64).toNat = num.natAbs := by
      rw [if_pos rfl]
      omega
    rw [field, signChars, if_pos negative, printInt, decide_eq_true negative, Bool.and_true, magnitude]
    cases zeroPad <;> simp
  · have magnitude : ((if false then -num else num) % 2 ^ 64).toNat = num.natAbs := by
      rw [if_neg Bool.false_ne_true]
      omega
    rw [field, signChars, if_neg negative, printInt, decide_eq_false negative, Bool.and_false, magnitude]
    simp

theorem pointerBuffer_eq (ptr : ℕ) : pointerBuffer ptr =
    (List.range 16).map fun j => digitChar false (ptr / 16 ^ (16 - 1 - j) % 16) := by
  refine List.map_congr_left fun j hj => ?_
  have nibble : 2 ^ (60 - j * 4) = 16 ^ (16 - 1 - j) := by
    rw [show 16 = 2 ^ 4 by decide, ← pow_mul]
    congr 1
    omega
  rw [Nat.shiftRight_eq_div_pow, Nat.and_two_pow_sub_one_eq_mod _ 4, nibble]

theorem printPtr_eq {ptr : ℕ} (small : ptr < 2 ^ 64) :
    printPtr ptr = chr '0' :: chr 'x' :: pointerBuffer ptr := by
  by_cases zero : ptr = 0
  · subst zero
    decide
  · obtain ⟨short, digits⟩ : _ ∧ List.replicate _ (digitChar false 0) ++ _ = _ :=
      padded_pushDigits (by decide : 0 < 16) (small : ptr < 16 ^ 16) (by decide : 16 ≤ 64)
    have buffer : digitBuffer 16 false ptr = pushDigits (digitChar false) 16 64 ptr [] := if_neg zero
    have pad : padding 16 (digitBuffer 16 false ptr).length =
        16 - (pushDigits (digitChar false) 16 64 ptr []).length := by
      rw [← buffer] at short ⊢
      rw [padding, i32, Int.bmod_eq_of_le (by omega) (by omega)]
      omega
    rw [pointerBuffer_eq, ← digits, printPtr, printUint, fillZeros_of_le (by omega), pad, buffer]
    simp [digitChar]

/-! ## Formats -/

theorem natAbs_signed_lt (args : Args) (spec : Spec) (k : ℕ) :
    (args.signed spec k).natAbs < 2 ^ 64 := by
  rw [Args.signed]
  split_ifs
  · have := (args.slots k).isLt
    rw [BitVec.toInt_eq_toNat_cond]
    split_ifs <;> omega
  · have := ((args.slots k).setWidth 32).isLt
    rw [Args.int, BitVec.toInt_eq_toNat_cond]
    split_ifs <;> omega

theorem unsigned_lt (args : Args) (spec : Spec) (k : ℕ) : args.unsigned spec k < 2 ^ 64 := by
  rw [Args.unsigned]
  split_ifs
  · exact (args.slots k).isLt
  · exact ((args.slots k).setWidth 32).isLt.trans (by decide)

section Directive

variable (args : Args) (spec : Spec) (k : ℕ)

theorem directive_signed {conversion : UInt8}
    (signed : conversion = chr 'd' ∨ conversion = chr 'i') :
    storePiece args (.directive spec conversion k) = signedBuffer (args.signed spec k) ∧
      (printPiece args (.directive spec conversion k)).1 =
        printInt (args.signed spec k) 10 (args.count spec.width) (args.count spec.precision)
          spec.leftAlign spec.zeroPad true false := by
  have small := natAbs_signed_lt args spec k
  have stored : storePiece args (.directive spec conversion k) =
      if args.signed spec k < 0 then chr '-' :: decimalBuffer (-args.signed spec k % 2 ^ 64).toNat
      else decimalBuffer (args.signed spec k % 2 ^ 64).toNat := by
    rcases signed with rfl | rfl <;> rfl
  refine ⟨?_, by rcases signed with rfl | rfl <;> rfl⟩
  rw [stored, signedBuffer, signChars, decimalBuffer_eq, decimalBuffer_eq]
  generalize args.signed spec k = num at small
  split_ifs with negative
  · have magnitude : (-num % 2 ^ 64).toNat = num.natAbs := by omega
    rw [magnitude]
    rfl
  · have magnitude : (num % 2 ^ 64).toNat = num.natAbs := by omega
    rw [magnitude]
    rfl

theorem directive_unsigned {conversion : UInt8}
    (unsigned : conversion ∈ [chr 'u', chr 'x', chr 'X', chr 'o']) :
    storePiece args (.directive spec conversion k) =
        digitBuffer (baseOf conversion) (conversion = chr 'X') (args.unsigned spec k) ∧
      (printPiece args (.directive spec conversion k)).1 =
        printUint (args.unsigned spec k) (baseOf conversion) (args.count spec.width)
          (args.count spec.precision) spec.leftAlign spec.zeroPad (conversion = chr 'X') ∧
      8 ≤ baseOf conversion := by
  simp only [List.mem_cons, List.not_mem_nil, or_false] at unsigned
  rcases unsigned with rfl | rfl | rfl | rfl <;>
    refine ⟨?_, ?_, by decide⟩ <;>
    simp +decide only [storePiece, printPiece, baseOf, if_true, if_false, decide_true, decide_false]

theorem storePiece_decorates (piece : Piece) :
    Decorates (storePiece args piece) (printPiece args piece).1 (Plain args piece) := by
  match piece with
  | .char c => exact .of_eq rfl
  | .directive spec conversion k =>
    by_cases string : conversion = chr 's'
    · subst string
      rw [storePiece, printPiece, Plain, if_neg (by decide), if_pos rfl, if_neg (by decide),
        if_pos rfl, if_pos rfl]
      exact printString_decorates _ _ _ _
    by_cases signed : conversion = chr 'd' ∨ conversion = chr 'i'
    · have small := natAbs_signed_lt args spec k
      obtain ⟨stored, printed⟩ := directive_signed args spec k signed
      have sign : (signedBuffer (args.signed spec k)).length =
          (digitBuffer 10 false (args.signed spec k).natAbs).length +
            if args.signed spec k < 0 then 1 else 0 := by
        rw [signedBuffer, signChars]
        split_ifs <;> simp
      rw [stored, printed, Plain, if_neg string, if_pos signed, printInt_eq _ _ _ _ _ small,
        ← length_digitBuffer false (by decide) small]
      dsimp only
      rw [← sign]
      exact field_decorates ..
    by_cases unsigned : conversion ∈ [chr 'u', chr 'x', chr 'X', chr 'o']
    · obtain ⟨stored, printed, big⟩ := directive_unsigned args spec k unsigned
      rw [stored, printed, Plain, if_neg string, if_neg signed, if_pos unsigned, printUint_eq,
        ← length_digitBuffer _ big (unsigned_lt args spec k)]
      exact field_decorates _ _ _ _ [] _
    rw [Plain, if_neg string, if_neg signed, if_neg unsigned]
    apply Decorates.of_eq
    by_cases pointer : conversion = chr 'p'
    · subst pointer
      exact (printPtr_eq (args.slots k).isLt).symm
    · simp only [List.mem_cons, List.not_mem_nil, or_false, not_or] at unsigned
      simp [storePiece, printPiece, string, signed, unsigned, pointer]
      split_ifs <;> rfl

end Directive

/-- For a format whose directives are complete, and a buffer with room for the text, `vsprintf`
stores what `vprintf` prints exactly if every directive is plain. -/
theorem vsprintf_eq_vprintf_iff {format : CString} {ps : List Piece} (args : Args)
    (complete : pieces format = some ps)
    (room : (ps.flatMap (storePiece args)).length + 1 < 2 ^ 64) :
    ∃ text printed stored count,
      vprintf format args = some (text, printed) ∧ vsprintf format args = some (stored, count) ∧
        (stored = text ↔ ∀ piece ∈ ps, Plain args piece) := by
  have whole : Stdio.stored (2 ^ 64 - 1) (ps.flatMap (storePiece args)) =
      ps.flatMap (storePiece args) := List.take_of_length_le (by omega)
  refine ⟨_, _, ps.flatMap (storePiece args), (ps.flatMap (storePiece args)).length,
    by rw [vprintf, complete, Option.map_some], ?_,
    (Decorates.flatMap fun piece _ => storePiece_decorates args piece).eq_iff⟩
  rw [vsprintf, vprintfInternal, complete, Option.map_some, Option.map_some]
  exact congrArg (fun out => some (out, _)) whole

/-- An argument list of one number. -/
def oneNumber (n : BitVec 64) : Args where
  slots := fun _ => n
  string := fun _ => []
  short := fun _ => by decide

/-- The directive `%2d`. -/
def twoWide : Piece := .directive ⟨false, false, .given 2, .given (-1), false, false⟩ (chr 'd') 0

/-- `%2d` with 42 fills its field. -/
theorem vsprintf_eq_vprintf_filled :
    ∃ text printed stored count,
      vprintf (['%', '2', 'd'].map chr) (oneNumber 42) = some (text, printed) ∧
        vsprintf (['%', '2', 'd'].map chr) (oneNumber 42) = some (stored, count) ∧
          (stored = text ↔ ∀ piece ∈ [twoWide], Plain (oneNumber 42) piece) :=
  vsprintf_eq_vprintf_iff (oneNumber 42) (by decide) (by decide)

/-- `%5d` with 42: three spaces are printed that are not stored. -/
theorem vsprintf_drops_padding :
    vprintf (['%', '5', 'd'].map chr) (oneNumber 42) = some ([' ', ' ', ' ', '4', '2'].map chr, 1) ∧
      vsprintf (['%', '5', 'd'].map chr) (oneNumber 42) = some (['4', '2'].map chr, 2) := by
  decide

end Thuban.Stdio
