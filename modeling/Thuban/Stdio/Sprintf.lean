import Thuban.Stdio.Agreement
import Thuban.Lib.Bytes

/-!
# Storing formatted output

`vprintf_internal` character by character: it passes each character to an output function and keeps its
count beside it, in its own way for each conversion.  `vsprintf` and `vsnprintf` hand it `sprintf_putchar`,
which stores into a buffer as long as the character and a NUL behind it have room there.  The stores are
recorded in their order, each with its index.
-/

namespace Thuban.Stdio

open Lib

section Output

variable {σ : Type*} (putchar : UInt8 → σ → σ)

/-- The loop over a number buffer: each character is put out and counted. -/
def putEach : List UInt8 → (count : ℤ) → σ → ℤ × σ
  | [], count, s => (count, s)
  | c :: rest, count, s => putEach rest (i32 (count + 1)) (putchar c s)

/-- The loop of `%s`: `len` counts the characters put out. -/
def putString (precision : ℤ) : CString → (len : ℕ) → σ → ℕ × σ
  | [], len, s => (len, s)
  | c :: rest, len, s =>
      if precision < 0 ∨ (len : ℤ) < precision then
        putString precision rest (len + 1) (putchar c s)
      else (len, s)

/-- A round of the loop of `vprintf_internal`. -/
def putPiece (args : Args) : Piece → (count : ℤ) → σ → ℤ × σ
  | .char c, count, s => (i32 (count + 1), putchar c s)
  | .directive spec conversion k, count, s =>
      if conversion = chr 'c' then
        (i32 (count + 1), putchar (UInt8.ofNat (args.slots k).toNat) s)
      else if conversion = chr 's' then
        match putString putchar (args.count spec.precision) (args.str k) 0 s with
        | (len, s) => (i32 (count + len), s)
      else if conversion = chr 'd' ∨ conversion = chr 'i' then
        let num := args.signed spec k
        putEach putchar
          (if num < 0 then chr '-' :: decimalBuffer (-num % 2 ^ 64).toNat
          else decimalBuffer (num % 2 ^ 64).toNat) count s
      else if conversion ∈ [chr 'u', chr 'x', chr 'X', chr 'o'] then
        putEach putchar
          (digitBuffer (baseOf conversion) (conversion = chr 'X') (args.unsigned spec k)) count s
      else if conversion = chr 'p' then
        putEach putchar (pointerBuffer (args.slots k).toNat) (i32 (count + 2))
          (putchar (chr 'x') (putchar (chr '0') s))
      else (i32 (count + 1), putchar conversion s)

/-- `vprintf_internal`: the result, and the state of the output. -/
def vprintfWith (format : CString) (args : Args) (s : σ) : Option (ℤ × σ) :=
  (pieces format).map fun pieces =>
    pieces.foldl (fun (count, s) piece => putPiece putchar args piece count s) (0, s)

/-- The output of some characters, one after another. -/
def putAll (out : List UInt8) (s : σ) : σ := out.foldl (fun s c => putchar c s) s

theorem i32_add (n m : ℤ) : i32 (i32 n + m) = i32 (n + m) := Int.bmod_add_bmod

theorem putEach_eq (out : List UInt8) (n : ℤ) (s : σ) :
    putEach putchar out (i32 n) s = (i32 (n + out.length), putAll putchar out s) := by
  induction out generalizing n s with
  | nil => simp [putEach, putAll]
  | cons c out ih =>
    rw [putEach, i32_add, ih, putAll, putAll, List.foldl_cons, List.length_cons]
    congr 2
    push_cast
    ring

theorem le_printedLength (precision : ℤ) (s : CString) (len : ℕ) :
    len ≤ printedLength precision s len := by
  fun_induction printedLength precision s len with
  | case1 => exact le_rfl
  | case2 _ _ _ _ ih => omega
  | case3 => exact le_rfl

theorem putString_eq (precision : ℤ) (str : CString) (len : ℕ) (s : σ) :
    putString putchar precision str len s =
      (printedLength precision str len,
        putAll putchar (str.take (printedLength precision str len - len)) s) := by
  induction str generalizing len s with
  | nil => simp [putString, printedLength, putAll]
  | cons c str ih =>
    rw [putString, printedLength]
    split_ifs with more
    · have longer := le_printedLength precision str (len + 1)
      obtain ⟨k, shown⟩ : ∃ k, printedLength precision str (len + 1) - len = k + 1 :=
        ⟨printedLength precision str (len + 1) - (len + 1), by omega⟩
      have rest : printedLength precision str (len + 1) - (len + 1) = k := by omega
      rw [ih, shown, rest, List.take_succ_cons, putAll, putAll, List.foldl_cons]
    · rw [Nat.sub_self]
      rfl

theorem putPiece_eq (args : Args) (piece : Piece) (n : ℤ) (s : σ) :
    putPiece putchar args piece (i32 n) s =
      (i32 (n + (storePiece args piece).length), putAll putchar (storePiece args piece) s) := by
  have one : ∀ c, (i32 (i32 n + 1), putchar c s) =
      (i32 (n + [c].length), putAll putchar [c] s) := by
    intro c
    rw [i32_add]
    rfl
  cases piece with
  | char c => exact one c
  | directive spec conversion k =>
    rw [putPiece, storePiece]
    split_ifs with char string signed unsigned pointer
    · exact one _
    · have short : printedLength (args.count spec.precision) (args.str k) 0 ≤ (args.str k).length := by
        rw [printedLength_eq_shownLength]
        exact shownLength_le _ _
      rw [putString_eq, Nat.sub_zero, List.length_take, min_eq_left short]
      exact congrArg (·, _) (i32_add n _)
    · exact putEach_eq putchar _ n s
    · exact putEach_eq putchar _ n s
    · have two : (pointerBuffer (args.slots k).toNat).length + (n + 2) =
          n + (chr '0' :: chr 'x' :: pointerBuffer (args.slots k).toNat).length := by
        rw [List.length_cons, List.length_cons]
        push_cast
        ring
      rw [i32_add, putEach_eq, ← two, add_comm]
      rfl
    · exact one _

theorem vprintfWith_eq (format : CString) (args : Args) (s : σ) :
    vprintfWith putchar format args s = (vprintfInternal format args).map fun (out, count) =>
      (i32 count, putAll putchar out s) := by
  have all : ∀ (ps : List Piece) (n : ℤ) (s : σ),
      ps.foldl (fun (count, s) piece => putPiece putchar args piece count s) (i32 n, s) =
        (i32 (n + (ps.flatMap (storePiece args)).length),
          putAll putchar (ps.flatMap (storePiece args)) s) := by
    intro ps
    induction ps with
    | nil => simp [putAll]
    | cons piece ps ih =>
      intro n s
      rw [List.foldl_cons]
      dsimp only
      rw [putPiece_eq, ih, List.flatMap_cons, List.length_append, Nat.cast_add, add_assoc]
      simp [putAll]
  rw [vprintfWith, vprintfInternal, Option.map_map]
  refine congrArg (Option.map · _) (funext fun ps => ?_)
  have start := all ps 0 s
  rwa [zero_add] at start

end Output

/-! ## The buffer -/

/-- The static variables of `sprintf`: whether the buffer is NULL, its size and the position in it; and
the stores made so far. -/
structure Sink where
  null : Bool
  size : ℕ
  pos : ℕ
  stores : List (ℕ × UInt8)

/-- `sprintf_putchar` -/
def sprintfPutchar (c : UInt8) (s : Sink) : Sink :=
  if !s.null ∧ s.pos < s.size - 1 then
    { s with pos := s.pos + 1, stores := s.stores ++ [(s.pos, c)] }
  else s

namespace Sink

/-- `vsprintf`: the result, and the stores into the buffer. -/
def vsprintf (null : Bool) (format : CString) (args : Args) : Option (ℤ × List (ℕ × UInt8)) :=
  (vprintfWith sprintfPutchar format args ⟨null, 2 ^ 64 - 1, 0, []⟩).map fun (result, s) =>
    (result, if null then s.stores else s.stores ++ [(s.pos, 0)])

/-- `vsnprintf`: the result, and the stores into the buffer. -/
def vsnprintf (null : Bool) (size : ℕ) (format : CString) (args : Args) :
    Option (ℤ × List (ℕ × UInt8)) :=
  if size = 0 then some (0, [])
  else
    (vprintfWith sprintfPutchar format args ⟨null, size, 0, []⟩).map fun (result, s) =>
      (result,
        if !null ∧ 0 < size then s.stores ++ [(if s.pos < size then s.pos else size - 1, 0)]
        else s.stores)

end Sink

/-- The stores of a text and of the NUL behind it, in their order. -/
def terminated (text : List UInt8) : List (ℕ × UInt8) :=
  (text ++ [0]).zipIdx.map Prod.swap

def storeAll (buf : Bytes) (stores : List (ℕ × UInt8)) : Bytes :=
  stores.foldl (fun buf store => buf.put store.1 store.2) buf

theorem storeAll_terminated (buf : Bytes) (text : List UInt8) (i : ℕ) :
    storeAll buf (terminated text) i = ((text ++ [0])[i]?).getD (buf i) := by
  have shifted : ∀ (l : List UInt8) (buf : Bytes) (k i : ℕ),
      storeAll buf ((l.zipIdx k).map Prod.swap) i =
        if i < k then buf i else (l[i - k]?).getD (buf i) := by
    intro l
    induction l with
    | nil => simp [storeAll]
    | cons c l ih =>
      intro buf k i
      rw [List.zipIdx_cons, List.map_cons, storeAll, List.foldl_cons]
      refine (ih _ _ i).trans ?_
      dsimp only [Prod.swap]
      rcases lt_trichotomy i k with below | rfl | above
      · rw [if_pos (by omega), if_pos below, Bytes.put, if_neg (by omega)]
      · rw [if_pos (by omega), if_neg (by omega), Bytes.put, if_pos rfl, Nat.sub_self]
        rfl
      · obtain ⟨j, rfl⟩ : ∃ j, i = k + 1 + j := ⟨i - (k + 1), by omega⟩
        rw [if_neg (by omega), if_neg (by omega), Bytes.put, if_neg (by omega), Nat.add_sub_cancel_left,
          Nat.add_assoc, Nat.add_sub_cancel_left, Nat.add_comm 1, List.getElem?_cons_succ]
  simpa [terminated] using shifted (text ++ [0]) buf 0 i

theorem putAll_sprintfPutchar (size : ℕ) (out : List UInt8) {pos : ℕ} (low : pos ≤ size - 1)
    (stores : List (ℕ × UInt8)) :
    putAll sprintfPutchar out ⟨false, size, pos, stores⟩ =
      ⟨false, size, pos + (out.take (size - 1 - pos)).length,
        stores ++ ((out.take (size - 1 - pos)).zipIdx pos).map Prod.swap⟩ := by
  induction out generalizing pos stores with
  | nil => simp [putAll]
  | cons c out ih =>
    rw [putAll, List.foldl_cons, ← putAll, sprintfPutchar]
    by_cases room : pos < size - 1
    · obtain ⟨k, left⟩ : ∃ k, size - 1 - pos = k + 1 := ⟨size - 1 - (pos + 1), by omega⟩
      have rest : size - 1 - (pos + 1) = k := by omega
      rw [if_pos ⟨rfl, room⟩]
      rw [ih (Nat.lt_iff_add_one_le.mp room), rest, left, List.take_succ_cons, List.length_cons,
        List.zipIdx_cons, List.map_cons, List.append_assoc, Nat.add_right_comm, ← Nat.add_assoc]
      rfl
    · have full : size - 1 - pos = 0 := by omega
      rw [if_neg fun both => room both.2, ih low, full]
      rfl

variable {format : CString} {ps : List Piece}

theorem vsnprintf_stores (args : Args) (complete : pieces format = some ps) {size : ℕ}
    (positive : 1 ≤ size) :
    Sink.vsnprintf false size format args =
      some (i32 (ps.flatMap (storePiece args)).length,
        terminated ((ps.flatMap (storePiece args)).take (size - 1))) := by
  have room := List.length_take_le (size - 1) (ps.flatMap (storePiece args))
  rw [Sink.vsnprintf, if_neg (by omega), vprintfWith_eq, vprintfInternal, complete]
  simp only [Option.map_some]
  rw [putAll_sprintfPutchar size _ (Nat.zero_le _)]
  simp only [Nat.sub_zero, Nat.zero_add, List.nil_append]
  rw [if_pos ⟨rfl, by omega⟩, if_pos (by omega)]
  simp [terminated, List.zipIdx_append]

theorem vsprintf_stores (args : Args) (complete : pieces format = some ps) :
    Sink.vsprintf false format args =
      some (i32 (ps.flatMap (storePiece args)).length,
        terminated ((ps.flatMap (storePiece args)).take (2 ^ 64 - 2))) := by
  rw [Sink.vsprintf, vprintfWith_eq, vprintfInternal, complete]
  simp only [Option.map_some]
  rw [putAll_sprintfPutchar _ _ (Nat.zero_le _)]
  simp [terminated, List.zipIdx_append]

/-- If `vsprintf` stores the text `w` and a NUL, `vsnprintf` stores the characters of `w` that have room
before the last byte, and a NUL; it stores nothing behind the buffer and returns the length of `w`. -/
theorem vsnprintf_truncates {format : CString} {ps : List Piece} (args : Args)
    (complete : pieces format = some ps) :
    ∃ w result, Sink.vsprintf false format args = some (result, terminated w) ∧
      ∀ size, 1 ≤ size → size < 2 ^ 64 → ∃ result',
        Sink.vsnprintf false size format args =
          some (result', terminated (w.take (min (size - 1) w.length))) ∧
        (∀ store ∈ terminated (w.take (min (size - 1) w.length)), store.1 < size) ∧
        (∀ (buf : Bytes) (i : ℕ),
          storeAll buf (terminated (w.take (min (size - 1) w.length))) i =
            if i < min (size - 1) w.length then w.getD i 0
            else if i = min (size - 1) w.length then 0 else buf i) ∧
        (w.length < 2 ^ 31 → result' = w.length) := by
  refine ⟨_, _, vsprintf_stores args complete, fun size positive small => ?_⟩
  set out := ps.flatMap (storePiece args)
  set w := out.take (2 ^ 64 - 2) with stored
  have kept : out.take (size - 1) = w.take (min (size - 1) w.length) := by
    rw [← List.take_eq_take_min, stored, List.take_take, min_eq_left (by omega)]
  have length : (w.take (min (size - 1) w.length)).length = min (size - 1) w.length := by simp
  refine ⟨_, kept ▸ vsnprintf_stores args complete positive, fun store mem => ?_, fun buf i => ?_,
    fun short => ?_⟩
  · obtain ⟨⟨c, i⟩, numbered, rfl⟩ := List.mem_map.mp mem
    have inside := List.snd_lt_of_mem_zipIdx numbered
    rw [List.length_append, length, List.length_singleton] at inside
    exact lt_of_lt_of_le inside (by omega)
  · rw [storeAll_terminated]
    split_ifs with inside last
    · rw [List.getElem?_append_left (by omega), List.getElem?_take_of_lt inside]
      simp [List.getD_eq_getElem?_getD, show i < w.length by omega]
    · rw [List.getElem?_append_right (by omega), length, last, Nat.sub_self]
      rfl
    · rw [List.getElem?_eq_none (by rw [List.length_append, length, List.length_singleton]; omega)]
      rfl
  · have all : out.length = w.length := by
      rw [stored, List.length_take] at short ⊢
      omega
    rw [all, i32, Int.bmod_eq_of_le (by omega) (by omega)]

/-- `%2d` with 42 in a buffer of two bytes. -/
theorem vsnprintf_truncates_twoBytes : ∃ w result,
    Sink.vsprintf false (['%', '2', 'd'].map chr) (oneNumber 42) = some (result, terminated w) ∧
      ∃ result', Sink.vsnprintf false 2 (['%', '2', 'd'].map chr) (oneNumber 42) =
        some (result', terminated (w.take (min 1 w.length))) := by
  obtain ⟨w, result, whole, cut⟩ := vsnprintf_truncates (oneNumber 42)
    (by decide : pieces (['%', '2', 'd'].map chr) = some [twoWide])
  obtain ⟨result', stored, -⟩ := cut 2 (by decide) (by decide)
  exact ⟨w, result, whole, result', stored⟩

end Thuban.Stdio
