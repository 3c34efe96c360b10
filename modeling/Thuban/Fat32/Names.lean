import Thuban.Kernel.Strings

/-!
# Directory names of `fs/fat32/fat32.c`

A directory entry stores an upper-case name of eight and three characters.  `nameTo83` encodes a
file name into it, with truncation and upper-casing, and `name83ToName` decodes it, in lower case.
The two agree exactly on the names `IsShort` describes (`name83ToName_nameTo83_iff`).
-/

namespace Thuban.Fat32

def space : UInt8 := 0x20

def dot : UInt8 := 0x2E

def toUpper (c : UInt8) : UInt8 := if 0x61 ≤ c ∧ c ≤ 0x7A then c - 0x61 + 0x41 else c

def toLower (c : UInt8) : UInt8 := if 0x41 ≤ c ∧ c ≤ 0x5A then c - 0x41 + 0x61 else c

/-- One of the two loops of `fat32_name_to_83` over a field filled with spaces. -/
def encodeField (width : ℕ) (s : CString) : List UInt8 :=
  (s.take width).map toUpper ++ List.replicate (width - s.length) space

/-- `fat32_name_to_83`: the eleven bytes of the entry name. -/
def nameTo83 (name : CString) : List UInt8 :=
  match strrchr name dot with
  | none => encodeField 8 name ++ encodeField 3 []
  | some i => encodeField 8 (name.take i) ++ encodeField 3 (name.drop (i + 1))

/-- One of the two loops of `fat32_83_to_name`: stop at a space or NUL, drop what is not printable. -/
def decodeField : List UInt8 → CString
  | [] => []
  | c :: rest =>
      if c = space ∨ c = 0 then []
      else if c < 0x21 ∨ 0x7E < c then decodeField rest
      else toLower c :: decodeField rest

/-- `fat32_83_to_name`. -/
def name83ToName (name83 : List UInt8) : CString :=
  let base := decodeField (name83.take 8)
  let ext := decodeField ((name83.drop 8).take 3)
  if ext = [] then base else base ++ dot :: ext

/-- The characters of `"\\/:*?\"<>|"`. -/
def invalidChars : CString := [0x5C, 0x2F, 0x3A, 0x2A, 0x3F, 0x22, 0x3C, 0x3E, 0x7C]

/-- `fat32_is_valid_name`. -/
def isValidName (name : CString) : Bool :=
  if name.length = 0 ∨ 255 < name.length then false
  else name.all fun c => (strchr invalidChars c).isNone

/-- A character that survives upper-casing and decoding. -/
def Plain (c : UInt8) : Prop := 0x21 ≤ c ∧ c ≤ 0x7E ∧ ¬ (0x41 ≤ c ∧ c ≤ 0x5A)

instance (c : UInt8) : Decidable (Plain c) := inferInstanceAs (Decidable (_ ∧ _ ∧ ¬ _))

/-- The part of a name that goes into the first eight bytes. -/
def baseOf (name : CString) : CString :=
  match strrchr name dot with
  | none => name
  | some i => name.take i

/-- The part of a name behind its last dot. -/
def extOf (name : CString) : Option CString :=
  (strrchr name dot).map fun i => name.drop (i + 1)

/-- The names an entry can represent: printable, no upper-case letter, at most eight characters
before the last dot and, if there is a dot, one to three after it. -/
def IsShort (name : CString) : Prop :=
  ((baseOf name).length ≤ 8 ∧ ∀ c ∈ baseOf name, Plain c) ∧
    ∀ ext ∈ extOf name, (1 ≤ ext.length ∧ ext.length ≤ 3) ∧ ∀ c ∈ ext, Plain c

instance (name : CString) : Decidable (IsShort name) :=
  inferInstanceAs (Decidable ((_ ∧ _) ∧ ∀ ext ∈ extOf name, (_ ∧ _) ∧ _))

/-! ## The two fields -/

variable {c b : UInt8} {width : ℕ} {name base ext : CString}

theorem plain_toLower (low : ¬ c < 0x21) (high : ¬ 0x7E < c) : Plain (toLower c) := by
  unfold Plain toLower
  grind

theorem toLower_toUpper (plain : Plain c) : toLower (toUpper c) = c := by
  unfold Plain at plain
  unfold toLower toUpper
  grind

theorem toUpper_printable (plain : Plain c) :
    ¬ (toUpper c = space ∨ toUpper c = 0) ∧ ¬ (toUpper c < 0x21 ∨ 0x7E < toUpper c) := by
  unfold Plain at plain
  unfold toUpper space
  grind

@[simp] theorem length_encodeField (width : ℕ) (s : CString) :
    (encodeField width s).length = width := by
  unfold encodeField
  rw [List.length_append, List.length_map, List.length_take, List.length_replicate]
  omega

theorem decodeField_replicate (n : ℕ) : decodeField (List.replicate n space) = [] := by
  cases n with
  | zero => rfl
  | succ n => simp [List.replicate_succ, decodeField]

theorem decodeField_map_toUpper {s : CString} (plain : ∀ c ∈ s, Plain c) (n : ℕ) :
    decodeField (s.map toUpper ++ List.replicate n space) = s := by
  induction s with
  | nil => exact decodeField_replicate n
  | cons c s ih =>
    have hc : Plain c := plain c List.mem_cons_self
    obtain ⟨goesOn, kept⟩ := toUpper_printable hc
    rw [List.map_cons, List.cons_append, decodeField, if_neg goesOn, if_neg kept,
      toLower_toUpper hc, ih fun d hd => plain d (List.mem_cons_of_mem _ hd)]

theorem decodeField_encodeField {s : CString} (fits : s.length ≤ width) (plain : ∀ c ∈ s, Plain c) :
    decodeField (encodeField width s) = s := by
  rw [encodeField, List.take_of_length_le fits]
  exact decodeField_map_toUpper plain _

theorem plain_of_mem_decodeField {l : List UInt8} (mem : c ∈ decodeField l) : Plain c := by
  induction l with
  | nil => exact absurd mem List.not_mem_nil
  | cons d l ih =>
    rw [decodeField] at mem
    split at mem
    · exact absurd mem List.not_mem_nil
    · split at mem
      · exact ih mem
      · rename_i printable
        rw [not_or] at printable
        rcases List.mem_cons.mp mem with rfl | mem
        · exact plain_toLower printable.1 printable.2
        · exact ih mem

theorem length_decodeField_le (l : List UInt8) (n : ℕ) :
    (decodeField (l ++ List.replicate n space)).length ≤ l.length := by
  induction l with
  | nil => rw [List.nil_append, decodeField_replicate]
  | cons c l ih =>
    rw [List.cons_append, decodeField, List.length_cons]
    split
    · exact Nat.zero_le _
    · split
      · exact Nat.le_succ_of_le ih
      · exact Nat.succ_le_succ ih

theorem length_decode_encodeField_le (width : ℕ) (s : CString) :
    (decodeField (encodeField width s)).length ≤ min width s.length := by
  refine (length_decodeField_le _ _).trans ?_
  rw [List.length_map, List.length_take]

/-! ## Whole names -/

theorem length_name83ToName_le (name83 : List UInt8) : (name83ToName name83).length ≤ 12 := by
  have field : ∀ l : List UInt8, (decodeField l).length ≤ l.length := fun l => by
    simpa using length_decodeField_le l 0
  have base := field (name83.take 8)
  have extension := field ((name83.drop 8).take 3)
  rw [List.length_take] at base extension
  unfold name83ToName
  dsimp only
  split_ifs
  · omega
  · rw [List.length_append, List.length_cons]
    omega

theorem nameTo83_of_not_mem (absent : dot ∉ name) :
    nameTo83 name = encodeField 8 name ++ encodeField 3 [] := by
  rw [nameTo83, strrchr_eq_none absent]

theorem nameTo83_append (absent : dot ∉ ext) :
    nameTo83 (base ++ dot :: ext) = encodeField 8 base ++ encodeField 3 ext := by
  rw [nameTo83, strrchr_append absent]
  simp

theorem isShort_of_not_mem (absent : dot ∉ name) :
    IsShort name ↔ name.length ≤ 8 ∧ ∀ c ∈ name, Plain c := by
  simp [IsShort, baseOf, extOf, strrchr_eq_none absent]

theorem isShort_append (absent : dot ∉ ext) :
    IsShort (base ++ dot :: ext) ↔
      (base.length ≤ 8 ∧ ∀ c ∈ base, Plain c) ∧
        (1 ≤ ext.length ∧ ext.length ≤ 3) ∧ ∀ c ∈ ext, Plain c := by
  simp [IsShort, baseOf, extOf, strrchr_append absent]

theorem length_nameTo83 (name : CString) : (nameTo83 name).length = 11 := by
  unfold nameTo83
  split <;> rw [List.length_append, length_encodeField, length_encodeField]

theorem name83ToName_append {l₁ l₂ : List UInt8} (h₁ : l₁.length = 8) (h₂ : l₂.length = 3) :
    name83ToName (l₁ ++ l₂) =
      if decodeField l₂ = [] then decodeField l₁ else decodeField l₁ ++ dot :: decodeField l₂ := by
  have take : (l₁ ++ l₂).take 8 = l₁ := by rw [← h₁, List.take_left]
  have drop : ((l₁ ++ l₂).drop 8).take 3 = l₂ := by rw [← h₁, List.drop_left, ← h₂, List.take_length]
  rw [name83ToName, take, drop]

theorem name83ToName_nameTo83_of_not_mem (absent : dot ∉ name) :
    name83ToName (nameTo83 name) = decodeField (encodeField 8 name) := by
  have empty : decodeField (encodeField 3 []) = [] := decodeField_replicate 3
  rw [nameTo83_of_not_mem absent, name83ToName_append (by simp) (by simp), if_pos empty]

/-- Encoding and decoding give a name back exactly when an entry can represent it. -/
theorem name83ToName_nameTo83_iff (name : CString) :
    name83ToName (nameTo83 name) = name ↔ IsShort name := by
  by_cases mem : dot ∈ name
  · obtain ⟨base, ext, rfl, absent⟩ := exists_split_last mem
    rw [nameTo83_append absent, name83ToName_append (by simp) (by simp), isShort_append absent]
    constructor
    · intro same
      have hb := length_decode_encodeField_le 8 base
      have he := length_decode_encodeField_le 3 ext
      split at same
      · have := congrArg List.length same
        rw [List.length_append, List.length_cons] at this
        omega
      · rename_i nonempty
        -- The two lengths can only shrink, so none of them does.
        have lengths := congrArg List.length same
        simp only [List.length_append, List.length_cons] at lengths
        obtain ⟨sameBase, sameExt⟩ := List.append_inj same (by omega)
        have sameExt := (List.cons_eq_cons.mp sameExt).2
        have extPos := List.length_pos_iff.mpr nonempty
        rw [sameBase] at hb
        rw [sameExt] at he extPos
        refine ⟨⟨by omega, ?_⟩, ⟨by omega, by omega⟩, ?_⟩
        · rw [← sameBase]
          exact fun c => plain_of_mem_decodeField
        · rw [← sameExt]
          exact fun c => plain_of_mem_decodeField
    · rintro ⟨⟨baseFits, basePlain⟩, ⟨extPos, extFits⟩, extPlain⟩
      rw [decodeField_encodeField baseFits basePlain, decodeField_encodeField extFits extPlain,
        if_neg (List.length_pos_iff.mp extPos)]
  · rw [name83ToName_nameTo83_of_not_mem mem, isShort_of_not_mem mem]
    constructor
    · intro same
      have hn := length_decode_encodeField_le 8 name
      rw [same] at hn
      refine ⟨by omega, ?_⟩
      rw [← same]
      exact fun c => plain_of_mem_decodeField
    · rintro ⟨fits, plain⟩
      exact decodeField_encodeField fits plain

/-! ## Entries -/

/-- A character of an entry name: printable, no dot and no lower-case letter. -/
def EntryChar (c : UInt8) : Prop := 0x21 ≤ c ∧ c ≤ 0x7E ∧ c ≠ dot ∧ ¬ (0x61 ≤ c ∧ c ≤ 0x7A)

theorem EntryChar.goesOn (entry : EntryChar c) :
    ¬ (c = space ∨ c = 0) ∧ ¬ (c < 0x21 ∨ 0x7E < c) := by
  unfold EntryChar at entry
  unfold space
  grind

theorem EntryChar.toUpper_toLower (entry : EntryChar c) : toUpper (toLower c) = c := by
  unfold EntryChar at entry
  unfold toUpper toLower
  grind

theorem EntryChar.toLower_ne_dot (entry : EntryChar c) : dot ≠ toLower c := by
  unfold EntryChar at entry
  unfold toLower
  unfold dot at *
  grind

variable {s : List UInt8}

theorem decodeField_padded (entry : ∀ c ∈ s, EntryChar c) (n : ℕ) :
    decodeField (s ++ List.replicate n space) = s.map toLower := by
  induction s with
  | nil => exact decodeField_replicate n
  | cons c s ih =>
    obtain ⟨goesOn, kept⟩ := (entry c List.mem_cons_self).goesOn
    rw [List.cons_append, decodeField, if_neg goesOn, if_neg kept, List.map_cons,
      ih fun d hd => entry d (List.mem_cons_of_mem _ hd)]

theorem encodeField_map_toLower (fits : s.length ≤ width) (entry : ∀ c ∈ s, EntryChar c) :
    encodeField width (s.map toLower) = s ++ List.replicate (width - s.length) space := by
  have same : (s.map toLower).map toUpper = s := by
    rw [List.map_map]
    exact (List.map_congr_left fun c hc => (entry c hc).toUpper_toLower).trans (List.map_id s)
  rw [encodeField, List.take_of_length_le (by rwa [List.length_map]), same, List.length_map]

theorem dot_notMem_map_toLower (entry : ∀ c ∈ s, EntryChar c) : dot ∉ s.map toLower := by
  intro mem
  obtain ⟨c, hc, same⟩ := List.mem_map.mp mem
  exact (entry c hc).toLower_ne_dot same.symm

theorem nameTo83_name83ToName {base ext : List UInt8} (baseFits : base.length ≤ 8)
    (extFits : ext.length ≤ 3) (baseEntry : ∀ c ∈ base, EntryChar c) (extEntry : ∀ c ∈ ext, EntryChar c) :
    nameTo83 (name83ToName ((base ++ List.replicate (8 - base.length) space) ++
      (ext ++ List.replicate (3 - ext.length) space))) =
    (base ++ List.replicate (8 - base.length) space) ++
      (ext ++ List.replicate (3 - ext.length) space) := by
  rw [name83ToName_append (by simp; omega) (by simp; omega), decodeField_padded baseEntry,
    decodeField_padded extEntry]
  split_ifs with empty
  · obtain rfl := List.map_eq_nil_iff.mp empty
    rw [nameTo83_of_not_mem (dot_notMem_map_toLower baseEntry),
      encodeField_map_toLower baseFits baseEntry]
    rfl
  · rw [nameTo83_append (dot_notMem_map_toLower extEntry), encodeField_map_toLower baseFits baseEntry,
      encodeField_map_toLower extFits extEntry]

/-- The conversions of names are inverse to each other, on the names with a base and an optional extension
and on the padded entry names. -/
theorem names_convert_both_ways :
    (∀ (base : CString) (ext : Option CString), 1 ≤ base.length → base.length ≤ 8 →
      (∀ c ∈ base, Plain c ∧ c ≠ dot) →
      (∀ e ∈ ext, (1 ≤ e.length ∧ e.length ≤ 3) ∧ ∀ c ∈ e, Plain c ∧ c ≠ dot) →
      name83ToName (nameTo83 (base ++ ext.elim [] (dot :: ·))) = base ++ ext.elim [] (dot :: ·)) ∧
    ∀ base ext : List UInt8, 1 ≤ base.length → base.length ≤ 8 → ext.length ≤ 3 →
      (∀ c ∈ base, EntryChar c) → (∀ c ∈ ext, EntryChar c) →
      nameTo83 (name83ToName ((base ++ List.replicate (8 - base.length) space) ++
        (ext ++ List.replicate (3 - ext.length) space))) =
      (base ++ List.replicate (8 - base.length) space) ++
        (ext ++ List.replicate (3 - ext.length) space) := by
  refine ⟨fun base ext _ baseFits basePlain extPlain => ?_, fun base ext _ => nameTo83_name83ToName⟩
  rw [name83ToName_nameTo83_iff]
  cases ext with
  | none =>
    have absent : dot ∉ base := fun mem => (basePlain dot mem).2 rfl
    rw [Option.elim_none, List.append_nil, isShort_of_not_mem absent]
    exact ⟨baseFits, fun c hc => (basePlain c hc).1⟩
  | some ext =>
    obtain ⟨fits, plain⟩ := extPlain ext rfl
    have absent : dot ∉ ext := fun mem => (plain dot mem).2 rfl
    rw [Option.elim_some, isShort_append absent]
    exact ⟨⟨baseFits, fun c hc => (basePlain c hc).1⟩, fits, fun c hc => (plain c hc).1⟩

/-- The name `a.b` and the entry name `A       B  `. -/
theorem names_convert_oneLetter :
    name83ToName (nameTo83 [0x61, dot, 0x62]) = [0x61, dot, 0x62] ∧
      nameTo83 (name83ToName ([0x41] ++ List.replicate 7 space ++ ([0x42] ++ List.replicate 2 space))) =
        [0x41] ++ List.replicate 7 space ++ ([0x42] ++ List.replicate 2 space) :=
  ⟨names_convert_both_ways.1 [0x61] (some [0x62]) (by decide) (by decide)
      (List.forall_mem_singleton.mpr (by decide))
      (by rintro e ⟨⟩; exact ⟨by decide, List.forall_mem_singleton.mpr (by decide)⟩),
    names_convert_both_ways.2 [0x41] [0x42] (by decide) (by decide) (by decide)
      (by simp +decide [EntryChar]) (by simp +decide [EntryChar])⟩

/-! ## The bytes of an encoded name -/

theorem mem_encodeField {s : CString} (mem : b ∈ encodeField width s) :
    b = space ∨ ∃ c ∈ s, b = toUpper c := by
  rcases List.mem_append.mp mem with mem | mem
  · obtain ⟨c, hc, rfl⟩ := List.mem_map.mp mem
    exact .inr ⟨c, List.mem_of_mem_take hc, rfl⟩
  · exact .inl (List.eq_of_mem_replicate mem)

theorem mem_nameTo83 (mem : b ∈ nameTo83 name) : b = space ∨ ∃ c ∈ name, b = toUpper c := by
  unfold nameTo83 at mem
  split at mem
  · rcases List.mem_append.mp mem with mem | mem
    · exact mem_encodeField mem
    · exact .inl ((mem_encodeField mem).resolve_right (by simp))
  · rcases List.mem_append.mp mem with mem | mem
    · exact (mem_encodeField mem).imp_right fun ⟨c, hc, same⟩ => ⟨c, List.mem_of_mem_take hc, same⟩
    · exact (mem_encodeField mem).imp_right fun ⟨c, hc, same⟩ => ⟨c, List.mem_of_mem_drop hc, same⟩

theorem ne_zero_of_mem_nameTo83 (valid : isValidName name = true) (mem : b ∈ nameTo83 name) :
    b ≠ 0 := by
  rcases mem_nameTo83 mem with rfl | ⟨c, hc, rfl⟩
  · decide
  · have nonzero : c ≠ 0 := by
      rintro rfl
      unfold isValidName at valid
      split at valid
      · exact absurd valid (by decide)
      · have found := List.all_eq_true.mp valid 0 hc
        exact absurd found (by decide)
    unfold toUpper
    grind

theorem IsShort.plain (short : IsShort name) (mem : c ∈ name) : Plain c := by
  rw [← (name83ToName_nameTo83_iff name).mpr short, name83ToName] at mem
  split at mem
  · exact plain_of_mem_decodeField mem
  · rcases List.mem_append.mp mem with mem | mem
    · exact plain_of_mem_decodeField mem
    · rcases List.mem_cons.mp mem with rfl | mem
      · decide
      · exact plain_of_mem_decodeField mem

theorem IsShort.ne_deleted (short : IsShort name) (mem : b ∈ nameTo83 name) : b ≠ 0xE5 := by
  rcases mem_nameTo83 mem with rfl | ⟨c, hc, rfl⟩
  · decide
  · have plain := short.plain hc
    unfold Plain at plain
    unfold toUpper
    grind

end Thuban.Fat32
