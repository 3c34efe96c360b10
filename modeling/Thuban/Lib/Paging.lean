import Mathlib

/-!
# Four-level paging

The address translation of x86-64 in long mode.  Memory is a map from word numbers to 64-bit words;
a table is a page of 512 words, named by its page number.  Access rights are not part of the
translation: a supervisor access that finds a page may use it.
-/

namespace Thuban.Lib.Paging

/-- The index into the table of a level: level 3 is the root, level 0 holds the pages. -/
def index (level v : ℕ) : ℕ := v / 2 ^ (12 + 9 * level) % 512

/-- Bits 47 to 63 are equal. -/
def Canonical (v : ℕ) : Prop := v / 2 ^ 47 = 0 ∨ v / 2 ^ 47 = 2 ^ 17 - 1

instance (v : ℕ) : Decidable (Canonical v) := inferInstanceAs (Decidable (_ ∨ _))

def present (e : ℕ) : Bool := e % 2 = 1

/-- The page-size bit. -/
def huge (e : ℕ) : Bool := e / 128 % 2 = 1

/-- The page number in an entry, bits 12 to 51. -/
def frame (e : ℕ) : ℕ := e % 2 ^ 52 / 4096

/-- A large page of `2 ^ bits` bytes: the bits of the entry above, those of the address below. -/
def large (bits e v : ℕ) : ℕ := e % 2 ^ 52 / 2 ^ bits * 2 ^ bits + v % 2 ^ bits

/-- The physical address of a virtual one; `none` is a page fault. -/
def translate (mem : ℕ → ℕ) (root v : ℕ) : Option ℕ :=
  if ¬ Canonical v then none
  else
    let e₃ := mem (root * 512 + index 3 v)
    if ¬ present e₃ then none
    else
      let e₂ := mem (frame e₃ * 512 + index 2 v)
      if ¬ present e₂ then none
      else if huge e₂ then some (large 30 e₂ v)
      else
        let e₁ := mem (frame e₂ * 512 + index 1 v)
        if ¬ present e₁ then none
        else if huge e₁ then some (large 21 e₁ v)
        else
          let e₀ := mem (frame e₁ * 512 + index 0 v)
          if ¬ present e₀ then none else some (large 12 e₀ v)

inductive IsTable (mem : ℕ → ℕ) (root : ℕ) : (level t : ℕ) → Prop
  | root : IsTable mem root 3 root
  | next {level t i : ℕ} (above : IsTable mem root (level + 1) t) (hi : i < 512)
      (up : present (mem (t * 512 + i)) = true) (small : huge (mem (t * 512 + i)) = false) :
      IsTable mem root level (frame (mem (t * 512 + i)))

theorem index_lt (level v : ℕ) : index level v < 512 := Nat.mod_lt _ (by decide)

variable {mem : ℕ → ℕ} {root v t₂ t₁ : ℕ}

theorem present_link (t : ℕ) : present (t * 4096 + 3) = true := decide_eq_true (by omega)

theorem huge_link (t : ℕ) : huge (t * 4096 + 3) = false := decide_eq_false (by omega)

theorem frame_link {t : ℕ} (small : t < 2 ^ 40) : frame (t * 4096 + 3) = t := by
  unfold frame
  omega

section

variable (canonical : Canonical v) (first : mem (root * 512 + index 3 v) = t₂ * 4096 + 3)
  (small₂ : t₂ < 2 ^ 40) (second : mem (t₂ * 512 + index 2 v) = t₁ * 4096 + 3)
  (small₁ : t₁ < 2 ^ 40)

include canonical first small₂ second small₁

theorem translate_huge {page : ℕ} (third : mem (t₁ * 512 + index 1 v) = page * 2 ^ 21 + 0x83)
    (small : page < 2 ^ 31) : translate mem root v = some (page * 2 ^ 21 + v % 2 ^ 21) := by
  have up₀ : present (page * 2 ^ 21 + 0x83) = true := decide_eq_true (by omega)
  have huge₀ : huge (page * 2 ^ 21 + 0x83) = true := decide_eq_true (by omega)
  have address : large 21 (page * 2 ^ 21 + 0x83) v = page * 2 ^ 21 + v % 2 ^ 21 := by
    unfold large
    omega
  unfold translate
  simp only [first, frame_link small₂, second, frame_link small₁, third, present_link, huge_link, up₀,
    huge₀, address, canonical, not_true_eq_false, if_false, Bool.false_eq_true, if_true]

theorem translate_page {t₀ : ℕ} (third : mem (t₁ * 512 + index 1 v) = t₀ * 4096 + 3)
    (small₀ : t₀ < 2 ^ 40) :
    translate mem root v =
      if present (mem (t₀ * 512 + index 0 v)) then some (large 12 (mem (t₀ * 512 + index 0 v)) v)
      else none := by
  unfold translate
  simp only [first, frame_link small₂, second, frame_link small₁, third, frame_link small₀,
    present_link, huge_link, canonical, not_true_eq_false, if_false, Bool.false_eq_true]
  cases present (mem (t₀ * 512 + index 0 v)) <;> rfl

end

/-! A translation ends where an entry is not present. -/

theorem translate_absent_third (absent : present (mem (root * 512 + index 3 v)) = false) :
    translate mem root v = none := by
  unfold translate
  simp [absent]

theorem translate_absent_second (first : mem (root * 512 + index 3 v) = t₂ * 4096 + 3)
    (small₂ : t₂ < 2 ^ 40) (absent : present (mem (t₂ * 512 + index 2 v)) = false) :
    translate mem root v = none := by
  unfold translate
  simp [first, frame_link small₂, absent]

theorem translate_absent_first (first : mem (root * 512 + index 3 v) = t₂ * 4096 + 3)
    (small₂ : t₂ < 2 ^ 40) (second : mem (t₂ * 512 + index 2 v) = t₁ * 4096 + 3)
    (small₁ : t₁ < 2 ^ 40) (absent : present (mem (t₁ * 512 + index 1 v)) = false) :
    translate mem root v = none := by
  unfold translate
  simp [first, frame_link small₂, second, frame_link small₁, huge_link, absent]

end Thuban.Lib.Paging
