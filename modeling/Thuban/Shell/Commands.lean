import Thuban.Lib.Bytes
import Thuban.Lib.Fuel
import Thuban.Stdio.Cursor

/-!
# Command lines

`parse_command` of `kernel/interface/shell.c`, which cuts a command line in place and stores where its
words begin.
-/

namespace Thuban.Shell

open Lib
open Stdio (Lies)

/-- `MAX_ARGS`. -/
def maxArgs : ℕ := 16

def isBlank (c : UInt8) : Bool := c = 0x20 ∨ c = 0x09

def inWord (c : UInt8) : Bool := c ≠ 0 ∧ isBlank c = false

/-- A loop that moves `token` on. -/
def scanWhile (p : UInt8 → Bool) (mem : Bytes) : (fuel token : ℕ) → Option ℕ
  | 0, _ => none
  | fuel + 1, token => if p (mem token) then scanWhile p mem fuel (token + 1) else some token

/-- What `parse_command` leaves: its result, the pointers and the memory. -/
structure Parsed where
  argc : ℕ
  args : ℕ → ℕ
  mem : Bytes

/-- The loop of `parse_command`. -/
def parseLoop : (fuel token : ℕ) → Parsed → Option Parsed
  | 0, _, _ => none
  | fuel + 1, token, s =>
      if s.mem token ≠ 0 ∧ s.argc < maxArgs then
        (scanWhile isBlank s.mem fuel token).bind fun token =>
          if s.mem token = 0 then some s
          else
            let s := { s with argc := s.argc + 1, args := Function.update s.args s.argc token }
            (scanWhile inWord s.mem fuel token).bind fun token =>
              if s.mem token ≠ 0 then parseLoop fuel (token + 1) { s with mem := s.mem.put token 0 }
              else parseLoop fuel token s
      else some s

def parseCommand (fuel cmd : ℕ) (args : ℕ → ℕ) (mem : Bytes) : Option Parsed :=
  parseLoop fuel cmd ⟨0, args, mem⟩

/-! ## The words of a line -/

/-- The pieces that are not empty, with their addresses; between two pieces is one character. -/
def runsFrom : ℕ → List CString → List (ℕ × CString)
  | _, [] => []
  | token, piece :: rest =>
      if piece = [] then runsFrom (token + 1) rest
      else (token, piece) :: runsFrom (token + piece.length + 1) rest

/-- The maximal runs of characters other than blanks in a line, with their addresses. -/
def runs (token : ℕ) (line : CString) : List (ℕ × CString) := runsFrom token (line.splitOnP isBlank)

variable {mem mem' : Bytes} {token : ℕ} {line word rest : CString}

theorem runs_blanks (token : ℕ) (line : CString) :
    runs token line = runs (token + (line.takeWhile isBlank).length) (line.dropWhile isBlank) := by
  induction line generalizing token with
  | nil => rfl
  | cons c line ih =>
    by_cases blank : isBlank c = true
    · have none : ∀ d ∈ ([] : CString), isBlank d = false := nofun
      have split : (c :: line).splitOnP isBlank = [] :: line.splitOnP isBlank :=
        List.splitOnP_append_cons_of_forall_mem none c blank line
      rw [runs, split, runsFrom, if_pos rfl, List.takeWhile_cons_of_pos blank,
        List.dropWhile_cons_of_pos blank, List.length_cons, ← Nat.add_assoc, Nat.add_right_comm]
      exact ih (token + 1)
    · rw [List.takeWhile_cons_of_neg blank, List.dropWhile_cons_of_neg blank]
      rfl

theorem runs_nil (token : ℕ) : runs token [] = [] := rfl

theorem runs_word (some : word ≠ []) (solid : ∀ c ∈ word, isBlank c = false) (token : ℕ) :
    runs token word = [(token, word)] := by
  rw [runs, List.splitOnP_eq_singleton solid, runsFrom, if_neg some, runsFrom]

theorem runs_word_blank (some : word ≠ []) (solid : ∀ c ∈ word, isBlank c = false) {c : UInt8}
    (blank : isBlank c = true) (token : ℕ) :
    runs token (word ++ c :: rest) = (token, word) :: runs (token + word.length + 1) rest := by
  rw [runs, List.splitOnP_append_cons_of_forall_mem solid c blank, runsFrom, if_neg some, runs]

/-! ## Strings in memory -/

theorem lies_congr (lies : Lies mem token line)
    (same : ∀ k, token ≤ k → k ≤ token + line.length → mem' k = mem k) : Lies mem' token line := by
  induction line generalizing token with
  | nil => exact (same token le_rfl le_rfl).trans lies
  | cons c line ih =>
    rw [List.length_cons] at same
    refine ⟨(same token le_rfl (by omega)).trans lies.1, lies.2.1, ih lies.2.2 fun k low high => ?_⟩
    exact same k (by omega) (by omega)

theorem lies_drop (lies : Lies mem token (word ++ rest)) : Lies mem (token + word.length) rest := by
  induction word generalizing token with
  | nil => exact lies
  | cons c word ih =>
    rw [List.length_cons, ← Nat.add_assoc, Nat.add_right_comm]
    exact ih lies.2.2

theorem lies_cut (lies : Lies mem token (word ++ rest)) (nul : mem' (token + word.length) = 0)
    (same : ∀ k, token ≤ k → k < token + word.length → mem' k = mem k) : Lies mem' token word := by
  induction word generalizing token with
  | nil => exact nul
  | cons c word ih =>
    rw [List.length_cons] at nul same
    refine ⟨(same token le_rfl (by omega)).trans lies.1, lies.2.1, ih lies.2.2 ?_ fun k low high => ?_⟩
    · rwa [Nat.add_right_comm]
    · exact same k (by omega) (by omega)

theorem scanWhile_lies {p : UInt8 → Bool} (nul : p 0 = false) (lies : Lies mem token line) :
    Converges (scanWhile p mem · token) (token + (line.takeWhile p).length) := by
  induction line generalizing token with
  | nil => exact .step (fun _ => by rw [scanWhile, lies, nul]; rfl) (.const fun _ => rfl)
  | cons c line ih =>
    by_cases goesOn : p c = true
    · rw [List.takeWhile_cons_of_pos goesOn, List.length_cons, ← Nat.add_assoc, Nat.add_right_comm]
      exact .step (fun _ => by rw [scanWhile, lies.1, if_pos goesOn]) (ih lies.2.2)
    · rw [List.takeWhile_cons_of_neg goesOn]
      exact .step (fun _ => by rw [scanWhile, lies.1, if_neg goesOn]; rfl) (.const fun _ => rfl)

/-! ## The loop -/

/-- What the loop does from `token` on, where the line has these words that it still takes. -/
structure Splits (token : ℕ) (s : Parsed) (words : List (ℕ × CString)) (s' : Parsed) : Prop where
  argc : s'.argc = s.argc + words.length
  word : ∀ i run, words[i]? = some run → s'.args (s.argc + i) = run.1 ∧ Lies s'.mem run.1 run.2
  args : ∀ k, k < s.argc ∨ s'.argc ≤ k → s'.args k = s.args k
  mem : ∀ k < token, s'.mem k = s.mem k

theorem Splits.nil (token : ℕ) (s : Parsed) : Splits token s [] s :=
  ⟨rfl, nofun, fun _ _ => rfl, fun _ _ => rfl⟩

/-- The word at `start`, which the memory now holds as a string, and what the loop does behind it. -/
theorem Splits.cons {start : ℕ} {s s' : Parsed} {words : List (ℕ × CString)} (before : token ≤ start)
    (lies : Lies mem start word) (same : ∀ k < start + word.length, mem k = s.mem k)
    (later : Splits (start + word.length + 1)
      ⟨s.argc + 1, Function.update s.args s.argc start, mem⟩ words s') :
    Splits token s ((start, word) :: words) s' := by
  have argc : s'.argc = s.argc + 1 + words.length := later.argc
  refine ⟨by rw [argc, List.length_cons]; omega, fun i run here => ?_, fun k outside => ?_,
    fun k low => ?_⟩
  · cases i with
    | zero =>
      obtain rfl : (start, word) = run := Option.some.inj here
      refine ⟨(later.args s.argc (.inl (Nat.lt_succ_self _))).trans (Function.update_self ..), ?_⟩
      exact lies_congr lies fun k _ high => later.mem k (Nat.lt_succ_of_le high)
    | succ i =>
      have found := later.word i run here
      rwa [Nat.add_assoc, Nat.add_comm 1 i] at found
  · refine (later.args k ?_).trans (Function.update_of_ne (by omega) ..)
    exact outside.imp_left fun low => Nat.lt_succ_of_lt low
  · exact (later.mem k (by omega)).trans (same k (by omega))

theorem parseLoop_end {s : Parsed} (ends : ¬ (s.mem token ≠ 0 ∧ s.argc < maxArgs)) :
    Converges (parseLoop · token s) s :=
  .step (g := fun _ => some s) (fun _ => by rw [parseLoop, if_neg ends]) (.const fun _ => rfl)

theorem parseLoop_round {s s' : Parsed} {start stop : ℕ} (more : s.mem token ≠ 0 ∧ s.argc < maxArgs)
    (skipped : Converges (scanWhile isBlank s.mem · token) start)
    (found : s.mem start ≠ 0)
    (scanned : Converges (scanWhile inWord s.mem · start) stop)
    (later : Converges (fun fuel =>
      let s := { s with argc := s.argc + 1, args := Function.update s.args s.argc start }
      if s.mem stop ≠ 0 then parseLoop fuel (stop + 1) { s with mem := s.mem.put stop 0 }
      else parseLoop fuel stop s) s') : Converges (parseLoop · token s) s' := by
  refine .step (fun fuel => by rw [parseLoop, if_pos more]) (skipped.bind ?_)
  simp only [if_neg found]
  exact scanned.bind later

theorem inWord_nul : inWord 0 = false := by decide

theorem word_of_solid {c : UInt8} {tail : CString} (nonzero : 0 ∉ c :: tail)
    (solid : isBlank c = false) :
    (c :: tail).takeWhile inWord ≠ [] ∧ (∀ d ∈ (c :: tail).takeWhile inWord, isBlank d = false) ∧
      ((c :: tail).dropWhile inWord = [] ∨
        ∃ b rest, (c :: tail).dropWhile inWord = b :: rest ∧ isBlank b = true) := by
  have first : inWord c = true := by
    simp [inWord, solid, (List.ne_of_not_mem_cons nonzero).symm]
  refine ⟨?_, fun d mem => ?_, ?_⟩
  · rw [List.takeWhile_cons_of_pos first]
    exact List.cons_ne_nil _ _
  · have := List.mem_takeWhile_imp mem
    simp only [inWord, decide_eq_true_eq] at this
    exact this.2
  · cases rest : (c :: tail).dropWhile inWord with
    | nil => exact .inl rfl
    | cons b rest' =>
      have stops := List.head_dropWhile_not inWord (l := c :: tail) (by rw [rest]; exact List.cons_ne_nil _ _)
      have mem : b ∈ c :: tail := (List.dropWhile_suffix inWord).mem (rest ▸ List.mem_cons_self ..)
      have used : b ≠ 0 := fun same => nonzero (same ▸ mem)
      simp only [rest, List.head_cons, inWord] at stops
      simp [used] at stops
      exact .inr ⟨b, rest', rfl, stops⟩

/-- For every line in memory the loop takes its words, as many as there is room for. -/
theorem parseLoop_splits (s : Parsed) (lies : Lies s.mem token line) :
    ∃ s', Converges (parseLoop · token s) s' ∧
      Splits token s ((runs token line).take (maxArgs - s.argc)) s' := by
  induction size : line.length using Nat.strong_induction_on generalizing token s line with
  | _ n ih =>
  by_cases full : s.argc < maxArgs
  swap
  · refine ⟨s, parseLoop_end fun more => full more.2, ?_⟩
    rw [Nat.sub_eq_zero_of_le (not_lt.mp full)]
    exact .nil token s
  have room : maxArgs - s.argc = maxArgs - (s.argc + 1) + 1 := by omega
  by_cases nonempty : s.mem token ≠ 0
  swap
  · refine ⟨s, parseLoop_end fun more => nonempty more.1, ?_⟩
    cases line with
    | nil =>
      rw [runs_nil, List.take_nil]
      exact .nil token s
    | cons c line => exact absurd (lies.1 ▸ lies.2.1) nonempty
  generalize start : token + (line.takeWhile isBlank).length = token₁
  have skipped : Converges (scanWhile isBlank s.mem · token) token₁ :=
    start ▸ scanWhile_lies (by decide) lies
  have lies₁ : Lies s.mem token₁ (line.dropWhile isBlank) := by
    rw [← start]
    apply lies_drop
    rwa [List.takeWhile_append_dropWhile]
  rw [runs_blanks, start]
  have shorter := (List.dropWhile_suffix isBlank (l := line)).length_le
  cases isLine : line.dropWhile isBlank with
  | nil =>
    rw [isLine] at lies₁
    refine ⟨s, .step (fun fuel => by rw [parseLoop, if_pos ⟨nonempty, full⟩]) (skipped.bind ?_), ?_⟩
    · exact .const fun fuel => if_pos lies₁
    · rw [runs_nil, List.take_nil]
      exact .nil token s
  | cons c tail =>
  have solid : isBlank c = false := by
    have head := List.head_dropWhile_not isBlank (l := line) (by rw [isLine]; exact List.cons_ne_nil _ _)
    simpa only [isLine, List.head_cons] using head
  rw [isLine] at lies₁ shorter
  have found : s.mem token₁ ≠ 0 := lies₁.1 ▸ lies₁.2.1
  have scanned := scanWhile_lies inWord_nul lies₁
  obtain ⟨some, unbroken, behind⟩ := word_of_solid lies₁.nonzero solid
  have parts := List.takeWhile_append_dropWhile (p := inWord) (l := c :: tail)
  generalize (c :: tail).takeWhile inWord = word at some unbroken scanned parts
  generalize (c :: tail).dropWhile inWord = rest at behind parts
  rw [← parts] at lies₁ shorter ⊢
  have lies₂ := lies_drop lies₁
  rw [List.length_append] at shorter
  have before : token ≤ token₁ := start ▸ Nat.le_add_right ..
  rcases behind with rfl | ⟨b, after, rfl, blank⟩
  · have ends : s.mem (token₁ + word.length) = 0 := lies₂
    rw [List.append_nil] at lies₁
    rw [List.append_nil, runs_word some unbroken, room, List.take_succ_cons, List.take_nil]
    refine ⟨_, parseLoop_round ⟨nonempty, full⟩ skipped found scanned ?_,
      .cons before lies₁ (fun _ _ => rfl) (.nil ..)⟩
    simp only [ends, ne_eq, not_true_eq_false, if_false]
    exact parseLoop_end fun more => more.1 ends
  · have cut : s.mem (token₁ + word.length) ≠ 0 := lies₂.1 ▸ lies₂.2.1
    have lies₃ : Lies (s.mem.put (token₁ + word.length) 0) (token₁ + word.length + 1) after :=
      lies_congr lies₂.2.2 fun k low _ => Bytes.put_ne _ _ (by omega)
    have lies₄ : Lies (s.mem.put (token₁ + word.length) 0) token₁ word :=
      lies_cut lies₁ (Bytes.put_self ..) fun k _ high => Bytes.put_ne _ _ (by omega)
    rw [List.length_cons] at shorter
    obtain ⟨s', ends, later⟩ := ih after.length (by omega)
      ⟨s.argc + 1, Function.update s.args s.argc token₁, s.mem.put (token₁ + word.length) 0⟩ lies₃ rfl
    rw [runs_word_blank some unbroken blank, room, List.take_succ_cons]
    refine ⟨s', parseLoop_round ⟨nonempty, full⟩ skipped found scanned ?_,
      .cons before lies₄ (fun k low => Bytes.put_ne _ _ (by omega)) later⟩
    simp only [ne_eq, cut, not_false_eq_true, if_true]
    exact ends

/-- For every command line in memory: `parse_command` returns the number of its words, but at most 16;
its pointers lead to the first words, which are strings now, and none from index 16 on is written. -/
theorem parseCommand_exact (mem : Bytes) (cmd : ℕ) (args : ℕ → ℕ) (line : CString)
    (lies : Lies mem cmd line) :
    ∃ s, Converges (fun fuel => parseCommand fuel cmd args mem) s ∧
      s.argc = min 16 (runs cmd line).length ∧
      (∀ i < s.argc, ∃ run, (runs cmd line)[i]? = some run ∧ s.args i = run.1 ∧
        Lies s.mem run.1 run.2) ∧
      ∀ k, 16 ≤ k → s.args k = args k := by
  obtain ⟨s, ends, splits⟩ := parseLoop_splits ⟨0, args, mem⟩ lies
  have argc : s.argc = min 16 (runs cmd line).length := by
    rw [splits.argc, List.length_take, Nat.zero_add]
    rfl
  refine ⟨s, ends, argc, fun i low => ?_, fun k high => splits.args k (.inr (by omega))⟩
  have inside : i < (runs cmd line).length := by omega
  refine ⟨(runs cmd line)[i], List.getElem?_eq_getElem inside, ?_⟩
  have word := splits.word i (runs cmd line)[i] (by
    rw [List.getElem?_take_of_lt (by show i < 16; omega), List.getElem?_eq_getElem inside])
  rwa [Nat.zero_add] at word

/-- The line `ls -l`. -/
theorem parseCommand_ls :
    Lies (fun k => [0x6C, 0x73, 0x20, 0x2D, 0x6C].getD k 0) 0 [0x6C, 0x73, 0x20, 0x2D, 0x6C] ∧
      ∃ s, Converges (fun fuel => parseCommand fuel 0 (fun _ => 0) fun k =>
        [0x6C, 0x73, 0x20, 0x2D, 0x6C].getD k 0) s ∧ s.argc = 2 := by
  have lies : Lies (fun k => [0x6C, 0x73, 0x20, 0x2D, 0x6C].getD k 0) 0
      [0x6C, 0x73, 0x20, 0x2D, 0x6C] := by
    simp [Lies]
  obtain ⟨s, ends, argc, -⟩ := parseCommand_exact _ 0 (fun _ => 0) _ lies
  exact ⟨lies, s, ends, argc⟩

end Thuban.Shell
