import Thuban.Kernel.Strings
import Thuban.Lib.Numeral

/-!
# Formatted output

The two interpreters of format strings in `lib/stdio.c`: `vprintf`, which sends characters to
`putchar`, and `vprintf_internal`, which `vsprintf` and `vsnprintf` call.  Both read the format in
the same way, into text and directives (`pieces`), and differ in what they do with a directive.

A number buffer is the list of its characters in the order in which they are printed, the last one
stored first; whether its 64 bytes hold them is said by `NumberBuffer.Fits`.  Numbers of type `int`
wrap at 32 bits.  The result is the list of the characters put out together with the count that the
function returns; there is none for a format that ends inside a directive, since the loop then goes on
behind its NUL.
-/

namespace Thuban.Stdio

open Lib

def chr (c : Char) : UInt8 := UInt8.ofNat c.toNat

/-- Arithmetic in `int`. -/
def i32 (x : ℤ) : ℤ := x.bmod (2 ^ 32)

/-! ## Reading the format -/

/-- A width or precision: a number, or `*` with the slot of the argument list it is taken from. -/
inductive Count
  | given (n : ℤ)
  | slot (k : ℕ)
  deriving DecidableEq, Repr

/-- A directive without its conversion character. -/
structure Spec where
  leftAlign : Bool
  zeroPad : Bool
  width : Count
  precision : Count
  longFlag : Bool
  longLongFlag : Bool
  deriving DecidableEq, Repr

/-- A piece of a format: a character of its text, or a directive with its conversion character and
the slot of its argument. -/
inductive Piece
  | char (c : UInt8)
  | directive (spec : Spec) (conversion : UInt8) (arg : ℕ)
  deriving DecidableEq, Repr

def parseFlags : CString → (leftAlign zeroPad : Bool) → Bool × Bool × CString
  | [], leftAlign, zeroPad => (leftAlign, zeroPad, [])
  | c :: rest, leftAlign, zeroPad =>
      if c = chr '-' then parseFlags rest true zeroPad
      else if c = chr '0' then parseFlags rest leftAlign true
      else (leftAlign, zeroPad, c :: rest)

def isDigit (c : UInt8) : Bool := chr '0' ≤ c ∧ c ≤ chr '9'

/-- The loop over the digits of a width or precision. -/
def parseNumber : CString → ℤ → ℤ × CString
  | [], n => (n, [])
  | c :: rest, n =>
      if isDigit c then parseNumber rest (i32 (n * 10 + ((c - chr '0').toNat : ℤ)))
      else (n, c :: rest)

/-- A width, or a precision behind its dot; `next` is the next slot of the argument list. -/
def parseCount (format : CString) (next : ℕ) : Count × CString × ℕ :=
  match format with
  | [] => (.given 0, [], next)
  | c :: rest =>
      if isDigit c then
        match parseNumber (c :: rest) 0 with
        | (n, rest) => (.given n, rest, next)
      else if c = chr '*' then (.slot next, rest, next + 1)
      else (.given 0, c :: rest, next)

def parsePrecision (format : CString) (next : ℕ) : Count × CString × ℕ :=
  match format with
  | [] => (.given (-1), [], next)
  | c :: rest => if c = chr '.' then parseCount rest next else (.given (-1), c :: rest, next)

/-- The length modifier: `long_flag`, `long_long_flag` and the rest. -/
def parseLength (format : CString) : Bool × Bool × CString :=
  match format with
  | [] => (false, false, [])
  | c :: rest =>
      if c = chr 'l' then
        if rest.head? = some (chr 'l') then (true, true, rest.tail) else (true, false, rest)
      else if c = chr 'h' then
        if rest.head? = some (chr 'h') then (false, false, rest.tail) else (false, false, rest)
      else if c = chr 'z' ∨ c = chr 't' then (true, false, rest)
      else (false, false, c :: rest)

/-- A directive up to its conversion character. -/
def parseSpec (format : CString) (next : ℕ) : Spec × CString × ℕ :=
  match parseFlags format false false with
  | (leftAlign, zeroPad, format) =>
      match parseCount format next with
      | (width, format, next) =>
          match parsePrecision format next with
          | (precision, format, next) =>
              match parseLength format with
              | (longFlag, longLongFlag, format) =>
                  ({ leftAlign, zeroPad, width, precision, longFlag, longLongFlag }, format, next)

def takesArgument (conversion : UInt8) : Bool :=
  conversion ∈ [chr 'c', chr 's', chr 'd', chr 'i', chr 'u', chr 'x', chr 'X', chr 'o', chr 'p']

/-- The `while` loop over the format, with fuel for each round. -/
def piecesFrom : (fuel : ℕ) → CString → (next : ℕ) → Option (List Piece)
  | _, [], _ => some []
  | 0, _ :: _, _ => none
  | fuel + 1, c :: rest, next =>
      if c ≠ chr '%' then (piecesFrom fuel rest next).map (.char c :: ·)
      else
        match parseSpec rest next with
        -- the `switch` sees the NUL here, and `format++` then passes it
        | (_, [], _) => none
        | (spec, conversion :: rest, next) =>
            (piecesFrom fuel rest (if takesArgument conversion then next + 1 else next)).map
              (.directive spec conversion next :: ·)

/-- The pieces of a format, if every directive is completed by a conversion character. -/
def pieces (format : CString) : Option (List Piece) := piecesFrom format.length format 0

section

variable (format : CString)

include format

theorem parseFlags_length_le (leftAlign zeroPad : Bool) :
    (parseFlags format leftAlign zeroPad).2.2.length ≤ format.length := by
  fun_induction parseFlags format leftAlign zeroPad <;> simp_all <;> omega

theorem parseNumber_length_le (n : ℤ) : (parseNumber format n).2.length ≤ format.length := by
  fun_induction parseNumber format n with
  | case1 => rfl
  | case2 c rest n digit ih => exact ih.trans (Nat.le_succ _)
  | case3 => rfl

theorem parseCount_length_le (next : ℕ) : (parseCount format next).2.1.length ≤ format.length := by
  cases format with
  | nil => rfl
  | cons c rest =>
    have := parseNumber_length_le (c :: rest) 0
    rw [parseCount]
    split_ifs <;> simp_all

theorem parsePrecision_length_le (next : ℕ) :
    (parsePrecision format next).2.1.length ≤ format.length := by
  cases format with
  | nil => rfl
  | cons c rest =>
    rw [parsePrecision]
    split_ifs
    · exact (parseCount_length_le rest next).trans (Nat.le_succ _)
    · rfl

theorem parseLength_length_le : (parseLength format).2.2.length ≤ format.length := by
  cases format with
  | nil => rfl
  | cons c rest =>
    rw [parseLength]
    split_ifs <;> simp <;> omega

theorem parseSpec_length_le (next : ℕ) : (parseSpec format next).2.1.length ≤ format.length := by
  have flags := parseFlags_length_le format false false
  have width := parseCount_length_le (parseFlags format false false).2.2 next
  have precision := parsePrecision_length_le
    (parseCount (parseFlags format false false).2.2 next).2.1
    (parseCount (parseFlags format false false).2.2 next).2.2
  refine (parseLength_length_le _).trans (precision.trans (width.trans flags))

end

theorem piecesFrom_fuel {fuel : ℕ} {format : CString} (enough : format.length ≤ fuel) (next : ℕ) :
    piecesFrom fuel format next = piecesFrom format.length format next := by
  induction fuel using Nat.strong_induction_on generalizing format next with
  | _ fuel ih =>
  cases format with
  | nil => simp [piecesFrom]
  | cons c rest =>
    obtain ⟨fuel, rfl⟩ : ∃ m, fuel = m + 1 := ⟨fuel - 1, by simp at enough; omega⟩
    have short : rest.length ≤ fuel := by simpa using enough
    rw [List.length_cons, piecesFrom, piecesFrom]
    split_ifs with text
    · rw [ih fuel (Nat.lt_succ_self fuel) short]
    · have shorter := parseSpec_length_le rest next
      generalize parseSpec rest next = parsed at shorter
      match parsed with
      | (_, [], _) => rfl
      | (spec, conversion :: behind, next) =>
        change (conversion :: behind).length ≤ rest.length at shorter
        rw [List.length_cons] at shorter
        show Option.map _ _ = Option.map _ _
        rw [ih fuel (Nat.lt_succ_self fuel) (by omega),
          ih rest.length (by omega) (by omega)]

/-! ## Arguments -/

/-- A variable argument list: the slots of eight bytes that `va_arg` reads one after another, and the
strings in memory by their addresses.  An `int` counts the characters of a string. -/
structure Args where
  slots : ℕ → BitVec 64
  string : BitVec 64 → CString
  short : ∀ address, (string address).length < 2 ^ 31

namespace Args

variable (args : Args)

/-- `va_arg(args, int)` -/
def int (k : ℕ) : ℤ := ((args.slots k).setWidth 32).toInt

def count : Count → ℤ
  | .given n => n
  | .slot k => args.int k

/-- The argument of `%d`. -/
def signed (spec : Spec) (k : ℕ) : ℤ :=
  if spec.longLongFlag ∨ spec.longFlag then (args.slots k).toInt else args.int k

/-- The argument of `%u`, `%x`, `%X` and `%o`. -/
def unsigned (spec : Spec) (k : ℕ) : ℕ :=
  if spec.longLongFlag ∨ spec.longFlag then (args.slots k).toNat
  else ((args.slots k).setWidth 32).toNat

/-- The argument of `%s`. -/
def str (k : ℕ) : CString :=
  if args.slots k = 0 then ['(', 'n', 'u', 'l', 'l', ')'].map chr else args.string (args.slots k)

end Args

/-! ## `vprintf` -/

/-- The length of a string up to the precision, with `len` characters counted. -/
def printedLength (precision : ℤ) : CString → (len : ℕ) → ℕ
  | [], len => len
  | _ :: rest, len =>
      if precision < 0 ∨ (len : ℤ) < precision then printedLength precision rest (len + 1) else len

/-- The number of padding characters for `len` characters in a field. -/
def padding (width : ℤ) (len : ℕ) : ℕ := (i32 (width - len)).toNat

/-- `print_string` -/
def printString (s : CString) (width precision : ℤ) (leftAlign : Bool) : List UInt8 :=
  let len := printedLength precision s 0
  let spaces := List.replicate (padding width len) (chr ' ')
  (if leftAlign then [] else spaces) ++ s.take len ++ (if leftAlign then spaces else [])

def digitChar (uppercase : Bool) (digit : ℕ) : UInt8 :=
  if digit < 10 then chr '0' + UInt8.ofNat digit
  else chr (if uppercase then 'A' else 'a') + UInt8.ofNat (digit - 10)

/-- The digits of a 64-bit number in a number buffer. -/
def digitBuffer (base : ℕ) (uppercase : Bool) (n : ℕ) : List UInt8 :=
  if n = 0 then [chr '0'] else pushDigits (digitChar uppercase) base 64 n []

def fillZeros (precision : ℤ) (buffer : List UInt8) : List UInt8 :=
  List.replicate (precision - buffer.length).toNat (chr '0') ++ buffer

/-- `print_int` -/
def printInt (num : ℤ) (base : ℕ) (width precision : ℤ) (leftAlign zeroPad sign uppercase : Bool) :
    List UInt8 :=
  let negative := sign && decide (num < 0)
  let digits := fillZeros precision
    (digitBuffer base uppercase ((if negative then -num else num) % 2 ^ 64).toNat)
  let buffer := if negative then chr '-' :: digits else digits
  let pad := padding width buffer.length
  (if !leftAlign && !zeroPad then List.replicate pad (chr ' ') else []) ++
    (if negative && zeroPad then [chr '-'] else []) ++
    (if !leftAlign && zeroPad then List.replicate pad (chr '0') else []) ++
    (if negative && zeroPad then digits else buffer) ++
    (if leftAlign then List.replicate pad (chr ' ') else [])

/-- `print_uint` -/
def printUint (num base : ℕ) (width precision : ℤ) (leftAlign zeroPad uppercase : Bool) :
    List UInt8 :=
  let buffer := fillZeros precision (digitBuffer base uppercase num)
  let pad := padding width buffer.length
  (if !leftAlign && !zeroPad then List.replicate pad (chr ' ') else []) ++
    (if !leftAlign && zeroPad then List.replicate pad (chr '0') else []) ++ buffer ++
    (if leftAlign then List.replicate pad (chr ' ') else [])

/-- `print_ptr` -/
def printPtr (ptr : ℕ) : List UInt8 :=
  chr '0' :: chr 'x' :: printUint ptr 16 16 (-1) false true false

/-- What `vprintf` sends to `putchar` for a piece, and what it adds to its count. -/
def printPiece (args : Args) : Piece → List UInt8 × ℕ
  | .char c => ([c], 1)
  | .directive spec conversion k =>
      let width := args.count spec.width
      let precision := args.count spec.precision
      let number := fun base uppercase =>
        (printUint (args.unsigned spec k) base width precision spec.leftAlign spec.zeroPad
          uppercase, 1)
      if conversion = chr 'c' then ([UInt8.ofNat (args.slots k).toNat], 1)
      else if conversion = chr 's' then
        (printString (args.str k) width precision spec.leftAlign, (args.str k).length)
      else if conversion = chr 'd' ∨ conversion = chr 'i' then
        (printInt (args.signed spec k) 10 width precision spec.leftAlign spec.zeroPad true false, 1)
      else if conversion = chr 'u' then number 10 false
      else if conversion = chr 'x' then number 16 false
      else if conversion = chr 'X' then number 16 true
      else if conversion = chr 'o' then number 8 false
      else if conversion = chr 'p' then (printPtr (args.slots k).toNat, 1)
      else ([conversion], 1)

/-- `vprintf`: the characters sent to `putchar`, and the result. -/
def vprintf (format : CString) (args : Args) : Option (List UInt8 × ℕ) :=
  (pieces format).map fun pieces =>
    (pieces.flatMap fun piece => (printPiece args piece).1,
      (pieces.map fun piece => (printPiece args piece).2).sum)

/-! ## `vsprintf` -/

/-- The decimal digits of a 64-bit number, in the words of `vprintf_internal`. -/
def decimalBuffer (n : ℕ) : List UInt8 :=
  if n = 0 then [chr '0'] else pushDigits (fun digit => chr '0' + UInt8.ofNat digit) 10 64 n []

def baseOf (conversion : UInt8) : ℕ :=
  if conversion = chr 'o' then 8
  else if conversion = chr 'x' ∨ conversion = chr 'X' then 16 else 10

def pointerBuffer (ptr : ℕ) : List UInt8 :=
  (List.range 16).map fun j => digitChar false ((ptr >>> (60 - j * 4)) &&& 0xF)

/-- What `vprintf_internal` passes to its output function for a piece; it counts each character. -/
def storePiece (args : Args) : Piece → List UInt8
  | .char c => [c]
  | .directive spec conversion k =>
      if conversion = chr 'c' then [UInt8.ofNat (args.slots k).toNat]
      else if conversion = chr 's' then
        (args.str k).take (printedLength (args.count spec.precision) (args.str k) 0)
      else if conversion = chr 'd' ∨ conversion = chr 'i' then
        let num := args.signed spec k
        if num < 0 then chr '-' :: decimalBuffer (-num % 2 ^ 64).toNat
        else decimalBuffer (num % 2 ^ 64).toNat
      else if conversion ∈ [chr 'u', chr 'x', chr 'X', chr 'o'] then
        digitBuffer (baseOf conversion) (conversion = chr 'X') (args.unsigned spec k)
      else if conversion = chr 'p' then
        chr '0' :: chr 'x' :: pointerBuffer (args.slots k).toNat
      else [conversion]

/-- `vprintf_internal`: the characters passed on, and the result. -/
def vprintfInternal (format : CString) (args : Args) : Option (List UInt8 × ℕ) :=
  (pieces format).map fun pieces =>
    (pieces.flatMap (storePiece args), (pieces.flatMap (storePiece args)).length)

/-- What `sprintf_putchar` stores of the characters passed to it, in a buffer of `size` bytes. -/
def stored (size : ℕ) (out : List UInt8) : List UInt8 := out.take (size - 1)

/-- `vsprintf` into a buffer: the characters stored before the NUL, and the result. -/
def vsprintf (format : CString) (args : Args) : Option (List UInt8 × ℕ) :=
  (vprintfInternal format args).map fun (out, count) => (stored (2 ^ 64 - 1) out, count)

/-- `vsnprintf` into a buffer: the characters stored before the NUL (none for size 0), and the
result. -/
def vsnprintf (size : ℕ) (format : CString) (args : Args) : Option (List UInt8 × ℕ) :=
  if size = 0 then some ([], 0)
  else (vprintfInternal format args).map fun (out, count) => (stored size out, count)

end Thuban.Stdio
