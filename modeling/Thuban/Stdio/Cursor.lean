import Thuban.Stdio.Format

/-!
# The cursor in the format

`vprintf` and `vprintf_internal` read the format with the same code: at each step the character under the
cursor decides what comes next and whether the cursor moves on.  Every read is one of the character under
the cursor, so the question is where the cursor goes.  It stays in the string up to its NUL if every
directive is completed; a conversion that finds the NUL passes it.
-/

namespace Thuban.Stdio

/-- Where an interpreter is in its loop. -/
inductive Stage
  | text
  | flags
  | width
  | widthDigits
  | precision
  | precisionCount
  | precisionDigits
  | length
  | long
  | half
  | conversion
  | done
  deriving DecidableEq, Repr

/-- What comes after a read of the character `c`, and by how much the cursor moves on. -/
def Stage.next (c : UInt8) : Stage → Stage × ℕ
  | text => if c = 0 then (done, 0) else if c ≠ chr '%' then (text, 1) else (flags, 1)
  | flags => if c = chr '-' ∨ c = chr '0' then (flags, 1) else (width, 0)
  | width =>
      if isDigit c then (widthDigits, 0)
      else if c = chr '*' then (precision, 1) else (precision, 0)
  | widthDigits => if isDigit c then (widthDigits, 1) else (precision, 0)
  | precision => if c = chr '.' then (precisionCount, 1) else (length, 0)
  | precisionCount =>
      if isDigit c then (precisionDigits, 0)
      else if c = chr '*' then (length, 1) else (length, 0)
  | precisionDigits => if isDigit c then (precisionDigits, 1) else (length, 0)
  | length =>
      if c = chr 'l' then (long, 1)
      else if c = chr 'h' then (half, 1)
      else if c = chr 'z' ∨ c = chr 't' then (conversion, 1) else (conversion, 0)
  | long => if c = chr 'l' then (conversion, 1) else (conversion, 0)
  | half => if c = chr 'h' then (conversion, 1) else (conversion, 0)
  | conversion => (text, 1)
  | done => (done, 0)

/-- A step of the loop on the memory from the start of the format. -/
def stepCursor (format : ℕ → UInt8) : Stage × ℕ → Stage × ℕ
  | (stage, i) => ((stage.next (format i)).1, i + (stage.next (format i)).2)

/-- The state of the loop after `k` steps. -/
def cursor (format : ℕ → UInt8) (k : ℕ) : Stage × ℕ := (stepCursor format)^[k] (.text, 0)

/-- The memory holds a string at `i`, with its NUL. -/
def Lies (format : ℕ → UInt8) : (i : ℕ) → CString → Prop
  | i, [] => format i = 0
  | i, c :: rest => format i = c ∧ c ≠ 0 ∧ Lies format (i + 1) rest

/-- The rest of a format at its conversion character. -/
def atConversion : Stage → CString → CString
  | .flags, l => (parseSpec l 0).2.1
  | .width, l => (parseLength (parsePrecision (parseCount l 0).2.1 0).2.1).2.2
  | .widthDigits, l => (parseLength (parsePrecision (parseNumber l 0).2 0).2.1).2.2
  | .precision, l => (parseLength (parsePrecision l 0).2.1).2.2
  | .precisionCount, l => (parseLength (parseCount l 0).2.1).2.2
  | .precisionDigits, l => (parseLength (parseNumber l 0).2).2.2
  | .length, l => (parseLength l).2.2
  | .long, l => if l.head? = some (chr 'l') then l.tail else l
  | .half, l => if l.head? = some (chr 'h') then l.tail else l
  | _, l => l

/-- All directives are complete, the one that the loop is in included. -/
def Completes (stage : Stage) (l : CString) : Prop :=
  match stage with
  | .text => (pieces l).isSome
  | .done => True
  | stage => ∃ c rest, atConversion stage l = c :: rest ∧ (pieces rest).isSome

/-! ## The rest of the format -/

theorem parseFlags_rest (l : CString) (leftAlign zeroPad : Bool) :
    (parseFlags l leftAlign zeroPad).2.2 = l.dropWhile fun c => c = chr '-' ∨ c = chr '0' := by
  fun_induction parseFlags l leftAlign zeroPad with
  | case1 => rfl
  | case2 => simp_all
  | case3 => simp_all
  | case4 => simp_all

theorem parseNumber_rest (l : CString) (n : ℤ) : (parseNumber l n).2 = l.dropWhile isDigit := by
  fun_induction parseNumber l n with
  | case1 => rfl
  | case2 => simp_all
  | case3 => simp_all

theorem parseCount_rest (l : CString) (next next' : ℕ) :
    (parseCount l next).2.1 = (parseCount l next').2.1 := by
  cases l with
  | nil => rfl
  | cons c l =>
    rw [parseCount, parseCount]
    split_ifs <;> rfl

theorem parsePrecision_rest (l : CString) (next next' : ℕ) :
    (parsePrecision l next).2.1 = (parsePrecision l next').2.1 := by
  cases l with
  | nil => rfl
  | cons c l =>
    rw [parsePrecision, parsePrecision]
    split_ifs
    · exact parseCount_rest l next next'
    · rfl

theorem parseSpec_rest (l : CString) (next : ℕ) :
    (parseSpec l next).2.1 = atConversion .width (l.dropWhile fun c => c = chr '-' ∨ c = chr '0') := by
  rw [← parseFlags_rest l false false, atConversion]
  show (parseLength (parsePrecision (parseCount (parseFlags l false false).2.2 next).2.1 _).2.1).2.2 = _
  rw [parseCount_rest _ next 0, parsePrecision_rest _ _ 0]

theorem atConversion_next {stage : Stage} (inside : stage ∉ [.text, .conversion, .done]) (l : CString) :
    atConversion stage l = atConversion (stage.next (l.headD 0)).1 (l.drop (stage.next (l.headD 0)).2) := by
  cases l with
  | nil => cases stage <;> rfl
  | cons c l =>
    cases stage with
    | text => exact absurd (by decide) inside
    | flags =>
      by_cases flag : c = chr '-' ∨ c = chr '0' <;>
        simp [Stage.next, flag, atConversion, parseSpec_rest]
    | width =>
      by_cases digit : isDigit c <;> by_cases star : c = chr '*' <;>
        simp_all [Stage.next, atConversion, parseCount]
    | widthDigits => by_cases digit : isDigit c <;> simp [Stage.next, digit, atConversion, parseNumber_rest]
    | precision => by_cases dot : c = chr '.' <;> simp [Stage.next, dot, atConversion, parsePrecision]
    | precisionCount =>
      by_cases digit : isDigit c <;> by_cases star : c = chr '*' <;>
        simp_all [Stage.next, atConversion, parseCount]
    | precisionDigits =>
      by_cases digit : isDigit c <;> simp [Stage.next, digit, atConversion, parseNumber_rest]
    | length =>
      by_cases long : c = chr 'l'
      · simp [Stage.next, long, atConversion, parseLength]
        split_ifs <;> rfl
      by_cases half : c = chr 'h'
      · subst half
        simp +decide [Stage.next, atConversion, parseLength]
        split_ifs <;> rfl
      by_cases size : c = chr 'z' ∨ c = chr 't' <;>
        simp [Stage.next, long, half, size, atConversion, parseLength]
    | long => by_cases again : c = chr 'l' <;> simp [Stage.next, again, atConversion]
    | half => by_cases again : c = chr 'h' <;> simp [Stage.next, again, atConversion]
    | conversion => exact absurd (by decide) inside
    | done => exact absurd (by decide) inside

theorem isSome_piecesFrom (fuel : ℕ) (l : CString) (next : ℕ) :
    (piecesFrom fuel l next).isSome = (piecesFrom fuel l 0).isSome := by
  induction fuel generalizing l next with
  | zero => cases l <;> rfl
  | succ fuel ih =>
    cases l with
    | nil => rfl
    | cons c l =>
      rw [piecesFrom, piecesFrom]
      split_ifs
      · rw [Option.isSome_map, Option.isSome_map, ih]
      · have same : (parseSpec l next).2.1 = (parseSpec l 0).2.1 := by
          rw [parseSpec_rest, parseSpec_rest]
        generalize parseSpec l next = parsed at same
        generalize parseSpec l 0 = parsed' at same
        obtain ⟨spec, rest, next₁⟩ := parsed
        obtain ⟨spec', rest', next₂⟩ := parsed'
        obtain rfl : rest = rest' := same
        cases rest with
        | nil => rfl
        | cons conversion rest =>
          simp only [Option.isSome_map]
          exact (ih rest _).trans (ih rest _).symm

theorem pieces_char {c : UInt8} (text : c ≠ chr '%') (l : CString) :
    (pieces (c :: l)).isSome ↔ (pieces l).isSome := by
  rw [pieces, List.length_cons, piecesFrom, if_pos text, Option.isSome_map]
  rfl

theorem pieces_directive (l : CString) :
    (pieces (chr '%' :: l)).isSome ↔ Completes .flags l := by
  have shorter := parseSpec_length_le l 0
  rw [pieces, List.length_cons, piecesFrom, if_neg (not_not.mpr rfl), Completes, atConversion]
  · generalize parseSpec l 0 = parsed at shorter
    rcases parsed with ⟨spec, _ | ⟨conversion, rest⟩, next⟩
    · simp
    · have short : rest.length ≤ l.length := (Nat.le_succ _).trans shorter
      simp only [Option.isSome_map]
      rw [isSome_piecesFrom, piecesFrom_fuel short]
      simp [pieces]
  · simp
  · simp

theorem completes_iff {stage : Stage} (inside : stage ∉ [.text, .done]) (l : CString) :
    Completes stage l ↔ ∃ c rest, atConversion stage l = c :: rest ∧ (pieces rest).isSome := by
  cases stage <;> first | rfl | exact absurd (by decide) inside

theorem next_inside {stage : Stage} (inside : stage ∉ [.text, .conversion, .done]) (c : UInt8) :
    (stage.next c).1 ∉ [Stage.text, .done] := by
  cases stage <;> first | exact absurd (by decide) inside | (rw [Stage.next]; split_ifs <;> decide)

theorem completes_next {stage : Stage} {l : CString} (nonzero : 0 ∉ l)
    (more : stage = .conversion → l ≠ []) :
    Completes stage l ↔
      Completes (stage.next (l.headD 0)).1 (l.drop (stage.next (l.headD 0)).2) := by
  by_cases inside : stage ∉ [.text, .conversion, .done]
  · rw [completes_iff (fun mem => inside (by simp_all)), completes_iff (next_inside inside _),
      atConversion_next inside]
  cases stage with
  | text =>
    cases l with
    | nil => exact iff_of_true rfl trivial
    | cons c l =>
      have zero : c ≠ 0 := fun same => nonzero (same ▸ List.mem_cons_self)
      by_cases percent : c = chr '%'
      · subst percent
        exact pieces_directive l
      · have read : Stage.text.next ((c :: l).headD 0) = (.text, 1) := by
          simp [Stage.next, zero, percent]
        rw [read]
        exact pieces_char percent l
  | conversion =>
    cases l with
    | nil => exact absurd rfl (more rfl)
    | cons c l => simp [Completes, atConversion, Stage.next]
  | done => rfl
  | _ => exact absurd (by decide) inside

/-! ## Runs -/

variable {format : ℕ → UInt8} {i : ℕ} {l : CString} {stage : Stage}

theorem Lies.read (lies : Lies format i l) : format i = l.headD 0 := by
  cases l with
  | nil => exact lies
  | cons c l => exact lies.1

theorem Lies.nonzero (lies : Lies format i l) : 0 ∉ l := by
  induction l generalizing i with
  | nil => exact List.not_mem_nil
  | cons c l ih =>
    rw [List.mem_cons, not_or]
    exact ⟨lies.2.1.symm, ih lies.2.2⟩

theorem next_nul (inside : stage ≠ .conversion) : (stage.next 0).2 = 0 := by
  cases stage <;> first | exact absurd rfl inside | decide

theorem next_le (c : UInt8) : (stage.next c).2 ≤ 1 := by
  cases stage <;> rw [Stage.next] <;> (try split_ifs) <;> decide

theorem Lies.step (lies : Lies format i l) (more : stage = .conversion → l ≠ []) :
    Lies format (i + (stage.next (format i)).2) (l.drop (stage.next (l.headD 0)).2) ∧
      i + (stage.next (format i)).2 + (l.drop (stage.next (l.headD 0)).2).length = i + l.length := by
  rw [lies.read]
  cases l with
  | nil =>
    rw [List.headD_nil, next_nul fun conversion => more conversion rfl]
    exact ⟨lies, rfl⟩
  | cons c l =>
    obtain stays | moves := Nat.le_one_iff_eq_zero_or_eq_one.mp (@next_le stage ((c :: l).headD 0))
    · rw [stays]
      exact ⟨lies, rfl⟩
    · rw [moves]
      exact ⟨lies.2.2, by simp; omega⟩

theorem cursor_inside (lies : Lies format 0 l) (complete : (pieces l).isSome) (k : ℕ) :
    ∃ rest, Lies format (cursor format k).2 rest ∧ (cursor format k).2 + rest.length = l.length ∧
      Completes (cursor format k).1 rest := by
  induction k with
  | zero => exact ⟨l, lies, Nat.zero_add _, complete⟩
  | succ k ih =>
    rw [cursor, Function.iterate_succ_apply', ← cursor]
    generalize cursor format k = state at ih
    obtain ⟨stage, i⟩ := state
    obtain ⟨rest, here, place, complete⟩ := ih
    have more : stage = .conversion → rest ≠ [] := by
      rintro rfl rfl
      obtain ⟨c, l, none, -⟩ := complete
      cases none
    obtain ⟨there, same⟩ := here.step more
    rw [completes_next here.nonzero more, ← here.read] at complete
    rw [← here.read] at there same
    exact ⟨_, there, same.trans place, complete⟩

def Stage.rank : Stage → ℕ
  | done => 0
  | text => 1
  | conversion => 2
  | long | half => 3
  | length => 4
  | precisionDigits => 5
  | precisionCount => 6
  | precision => 7
  | widthDigits => 8
  | width => 9
  | flags => 10

theorem rank_next (c : UInt8) (more : stage ≠ .done) :
    (stage.next c).1.rank < stage.rank + 12 * (stage.next c).2 := by
  cases stage <;> first | exact absurd rfl more | (rw [Stage.next]; (try split_ifs) <;> decide)

theorem cursor_escapes (lies : Lies format i l) (incomplete : ¬ Completes stage l) :
    ∃ k, (stepCursor format)^[k] (stage, i) = (.text, i + l.length + 1) := by
  induction measure : stage.rank + 12 * l.length using Nat.strong_induction_on
    generalizing stage i l with
  | _ m ih =>
  by_cases ends : stage = .conversion ∧ l = []
  · obtain ⟨rfl, rfl⟩ := ends
    exact ⟨1, rfl⟩
  have more : stage = .conversion → l ≠ [] := fun conversion empty => ends ⟨conversion, empty⟩
  have running : stage ≠ .done := by
    rintro rfl
    exact incomplete trivial
  obtain ⟨there, same⟩ := lies.step more
  have down := @rank_next stage (format i) running
  rw [completes_next lies.nonzero more, ← lies.read] at incomplete
  rw [← lies.read] at there same
  obtain ⟨k, run⟩ := ih _ (by omega) there incomplete rfl
  refine ⟨k + 1, ?_⟩
  rw [Function.iterate_succ_apply, stepCursor, run, same]

/-- For every format in memory and whatever lies behind it, no read is behind the NUL if and only if every
directive is completed by a conversion character. -/
theorem format_read_iff (lies : Lies format 0 l) :
    (∀ k, (cursor format k).1 ≠ .done → (cursor format k).2 ≤ l.length) ↔ (pieces l).isSome := by
  constructor
  · intro inside
    by_contra incomplete
    obtain ⟨k, escaped⟩ := @cursor_escapes format 0 l .text lies incomplete
    have bound := inside k
    rw [cursor, escaped] at bound
    exact absurd (bound nofun) (by omega)
  · intro complete k _
    obtain ⟨rest, -, place, -⟩ := cursor_inside lies complete k
    omega

/-- The format `%d`. -/
theorem format_read_number :
    Lies (fun i => ((['%', 'd'].map chr).getD i 0)) 0 (['%', 'd'].map chr) ∧
      ∀ k, (cursor (fun i => ((['%', 'd'].map chr).getD i 0)) k).1 ≠ .done →
        (cursor (fun i => ((['%', 'd'].map chr).getD i 0)) k).2 ≤ 2 := by
  have lies : Lies (fun i => ((['%', 'd'].map chr).getD i 0)) 0 (['%', 'd'].map chr) := by
    simp +decide [Lies]
  exact ⟨lies, (format_read_iff lies).mpr (by decide)⟩

/-- The format `%`, whose NUL is at index 1: the sixth step leads to a read at index 2. -/
theorem format_passed :
    Lies (fun i => if i = 0 then chr '%' else 0) 0 [chr '%'] ∧
      cursor (fun i => if i = 0 then chr '%' else 0) 6 = (.text, 2) := by
  simp +decide [Lies]

end Thuban.Stdio
