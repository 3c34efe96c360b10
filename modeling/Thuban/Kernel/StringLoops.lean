import Thuban.Kernel.Strings
import Thuban.Lib.Bytes
import Thuban.Lib.Fuel

/-!
# The loops of the string library

`memcpy`, `memmove`, `strncmp`, `strcmp` and `strstr` of `lib/string.c`.  The pointers of a copy are
64-bit words; the counter of `strncmp` wraps below zero.  The functions on strings run on a memory
in which bytes may be missing and a read of a missing byte is a fault: an answer on every memory
that holds certain bytes says that no other byte was read.
-/

open Thuban.Lib

namespace Thuban.StringLoops

/-! ## Copying -/

/-- `while (n--) *d++ = *s++`. -/
def copyUp : ℕ → ℕ → ℕ → Bytes → Bytes
  | 0, _, _, m => m
  | n + 1, d, s, m => copyUp n ((d + 1) % 2 ^ 64) ((s + 1) % 2 ^ 64) (m.put d (m s))

/-- `while (n--) *--d = *--s`. -/
def copyDown : ℕ → ℕ → ℕ → Bytes → Bytes
  | 0, _, _, m => m
  | n + 1, d, s, m =>
      let d := (d + (2 ^ 64 - 1)) % 2 ^ 64
      let s := (s + (2 ^ 64 - 1)) % 2 ^ 64
      copyDown n d s (m.put d (m s))

/-- `memcpy`: the pointer it returns and the memory it leaves. -/
def memcpy (d s n : ℕ) (m : Bytes) : ℕ × Bytes := (d, copyUp n d s m)

/-- `memmove`. -/
def memmove (d s n : ℕ) (m : Bytes) : ℕ × Bytes :=
  if d < s then (d, copyUp n d s m)
  else (d, copyDown n ((d + n) % 2 ^ 64) ((s + n) % 2 ^ 64) m)

variable {d s n : ℕ}

section

variable (dest : d + n ≤ 2 ^ 64) (source : s + n ≤ 2 ^ 64)

include dest source

theorem copyUp_eq_copy (m : Bytes) : copyUp n d s m = m.copy d s n := by
  induction n generalizing d s m with
  | zero => rfl
  | succ n ih =>
    rw [copyUp, Bytes.copy_succ]
    -- the pointers can only wrap after the last byte
    rcases n.eq_zero_or_pos with rfl | more
    · rfl
    · rw [Nat.mod_eq_of_lt (by omega), Nat.mod_eq_of_lt (by omega), ih (by omega) (by omega)]

theorem copyDown_eq_blit (above : s ≤ d) (m : Bytes) :
    copyDown n ((d + n) % 2 ^ 64) ((s + n) % 2 ^ 64) m = m.blit d m s n := by
  induction n generalizing m with
  | zero => exact (Bytes.blit_zero m d m s).symm
  | succ n ih =>
    have lastDest : ((d + (n + 1)) % 2 ^ 64 + (2 ^ 64 - 1)) % 2 ^ 64 = d + n := by omega
    have lastSource : ((s + (n + 1)) % 2 ^ 64 + (2 ^ 64 - 1)) % 2 ^ 64 = s + n := by omega
    have rest := ih (by omega) (by omega) (m.put (d + n) (m (s + n)))
    rw [Nat.mod_eq_of_lt (by omega), Nat.mod_eq_of_lt (by omega)] at rest
    simp only [copyDown, lastDest, lastSource]
    rw [rest, Bytes.blit_succ]
    funext k
    by_cases last : k = d + n
    · rw [last, Bytes.put_self, Bytes.blit_outside _ _ _ _ _ _ (by omega), Bytes.put_self]
    · rw [Bytes.put_ne _ _ last]
      by_cases inside : d ≤ k ∧ k < d + n
      · rw [Bytes.blit_inside _ _ _ _ _ _ inside.1 inside.2, Bytes.put_ne _ _ (by omega),
          Bytes.blit_inside _ _ _ _ _ _ inside.1 inside.2]
      · rw [Bytes.blit_outside _ _ _ _ _ _ inside, Bytes.put_ne _ _ last,
          Bytes.blit_outside _ _ _ _ _ _ inside]

theorem memcpy_eq_blit (safe : s + n ≤ d ∨ d ≤ s) (m : Bytes) :
    (memcpy d s n m).2 = m.blit d m s n :=
  (copyUp_eq_copy dest source m).trans (m.copy_eq_blit safe)

theorem memmove_eq_blit (m : Bytes) : (memmove d s n m).2 = m.blit d m s n := by
  unfold memmove
  split
  · exact memcpy_eq_blit dest source (.inr (by omega)) m
  · exact copyDown_eq_blit dest source (by omega) m

end

theorem memmove_moves (dest : d + n ≤ 2 ^ 64) (source : s + n ≤ 2 ^ 64) (m : Bytes) :
    (∀ i < n, (memmove d s n m).2 (d + i) = m (s + i)) ∧
      (∀ k, ¬ (d ≤ k ∧ k < d + n) → (memmove d s n m).2 k = m k) ∧
      (d ≤ s ∨ d + n ≤ s ∨ s + n ≤ d → (memcpy d s n m).2 = (memmove d s n m).2) := by
  rw [memmove_eq_blit dest source m]
  refine ⟨fun i hi => ?_, m.blit_outside d m s n, fun safe => ?_⟩
  · rw [Bytes.blit_inside _ _ _ _ _ _ (by omega) (by omega), Nat.add_sub_cancel_left]
  · exact memcpy_eq_blit dest source (by omega) m

/-- The top of the address space, moved up by one byte. -/
theorem memmove_moves_top :
    (memmove (2 ^ 64 - 3) (2 ^ 64 - 4) 3 (fun k => UInt8.ofNat k)).2 (2 ^ 64 - 3 + 2) = 254 :=
  (memmove_moves (by decide) (by decide) _).1 2 (by decide)

/-! ## Comparing -/

/-- A memory in which bytes may be missing. -/
abbrev Mapping := ℕ → Option UInt8

/-- The string lies at `p`, as far as its first `n` bytes, the terminator included, go. -/
def Held (mem : Mapping) : ℕ → ℕ → CString → Prop
  | 0, _, _ => True
  | _ + 1, p, [] => mem p = some 0
  | n + 1, p, c :: rest => c ≠ 0 ∧ mem p = some c ∧ Held mem n (p + 1) rest

/-- `*(unsigned char *)s1 - *(unsigned char *)s2`. -/
def difference (mem : Mapping) (p q : ℕ) : Option ℤ := do
  let c ← mem p
  let d ← mem q
  return (c.toNat : ℤ) - d.toNat

/-- The loop of `strncmp`, with the counter and the pointers it ends with. -/
def strncmpLoop (mem : Mapping) : ℕ → ℕ → ℕ → Option (ℕ × ℕ × ℕ)
  | 0, p, q => some (2 ^ 64 - 1, p, q)
  | n + 1, p, q => do
      let c ← mem p
      if c = 0 then return (n, p, q) else do
        let d ← mem q
        if c = d then strncmpLoop mem n (p + 1) (q + 1) else return (n, p, q)

/-- `strncmp`; `none` is a fault. -/
def strncmp (mem : Mapping) (p q n : ℕ) : Option ℤ :=
  if n = 0 then some 0 else do
    let (n, p, q) ← strncmpLoop mem n p q
    if n = 2 ^ 64 - 1 then return 0 else difference mem p q

/-- Go on with what was read; a fault ends the call. -/
def reading {α β : Type} (x : Option α) (next : α → Option (Option β)) : Option (Option β) :=
  match x with
  | none => some none
  | some a => next a

@[simp] theorem reading_some {α β : Type} (a : α) (next : α → Option (Option β)) :
    reading (some a) next = next a := rfl

/-- `strcmp`; the answer `some none` is a fault. -/
def strcmp (mem : Mapping) : ℕ → ℕ → ℕ → Option (Option ℤ)
  | 0, _, _ => none
  | fuel + 1, p, q =>
      reading (mem p) fun c =>
        if c = 0 then some (difference mem p q) else
          reading (mem q) fun d =>
            if c = d then strcmp mem fuel (p + 1) (q + 1) else some (difference mem p q)

/-- `strcmp(s1, s2) <= 0`. -/
def NotAfter (mem : Mapping) (p q : ℕ) : Prop :=
  ∃ r ≤ 0, Converges (fun fuel => strcmp mem fuel p q) (some r)

variable {mem : Mapping} {a b : CString} {p q o : ℕ}

theorem Held.of_length (held : Held mem (a.length + 1) p a) (n : ℕ) : Held mem n p a := by
  induction a generalizing n p with
  | nil =>
    cases n with
    | zero => trivial
    | succ n => exact held
  | cons c a ih =>
    cases n with
    | zero => trivial
    | succ n => exact ⟨held.1, held.2.1, ih held.2.2 n⟩

theorem compare_sub (c d : UInt8) : compare ((c.toNat : ℤ) - d.toNat) 0 = compare c d := by
  rw [UInt8.compare_eq_toNat_compare_toNat]
  rcases lt_trichotomy c.toNat d.toNat with less | same | more
  · rw [Int.compare_eq_lt.mpr (by omega), Nat.compare_eq_lt.mpr less]
  · rw [Int.compare_eq_eq.mpr (by omega), Nat.compare_eq_eq.mpr same]
  · rw [Int.compare_eq_gt.mpr (by omega), Nat.compare_eq_gt.mpr more]

/-- One round of a comparison: it ends with the sign of the rest, or both strings go on with one
byte. -/
theorem round (ha : Held mem (n + 1) p a) (hb : Held mem (n + 1) q b) :
    ∃ c d, mem p = some c ∧ mem q = some d ∧
      ((c = 0 ∨ c ≠ d) ∧
          compare ((c.toNat : ℤ) - d.toNat) 0 = compare (a.take (n + 1)) (b.take (n + 1)) ∨
        c ≠ 0 ∧ c = d ∧ ∃ a' b', a = c :: a' ∧ b = c :: b' ∧ Held mem n (p + 1) a' ∧
          Held mem n (q + 1) b') := by
  cases a with
  | nil =>
    cases b with
    | nil => exact ⟨0, 0, ha, hb, .inl ⟨.inl rfl, rfl⟩⟩
    | cons d b =>
      refine ⟨0, d, ha, hb.2.1, .inl ⟨.inl rfl, ?_⟩⟩
      rw [compare_sub]
      exact Std.compare_eq_lt.mpr (UInt8.pos_iff_ne_zero.mpr hb.1)
  | cons c a =>
    cases b with
    | nil =>
      refine ⟨c, 0, ha.2.1, hb, .inl ⟨.inr ha.1, ?_⟩⟩
      rw [compare_sub]
      exact Std.compare_eq_gt.mpr (UInt8.pos_iff_ne_zero.mpr ha.1)
    | cons d b =>
      refine ⟨c, d, ha.2.1, hb.2.1, ?_⟩
      by_cases same : c = d
      · exact .inr ⟨ha.1, same, a, b, rfl, by rw [same], ha.2.2, hb.2.2⟩
      · refine .inl ⟨.inr same, ?_⟩
        rw [compare_sub, List.take_succ_cons, List.take_succ_cons, List.compare_cons_cons]
        cases order : compare c d with
        | eq => exact absurd (Std.compare_eq_iff_eq.mp order) same
        | lt => rfl
        | gt => rfl

theorem strncmpLoop_spec (bound : n < 2 ^ 64) (ha : Held mem n p a) (hb : Held mem n q b) :
    ∃ left p' q' r, strncmpLoop mem n p q = some (left, p', q') ∧
      (if left = 2 ^ 64 - 1 then some 0 else difference mem p' q') = some r ∧
      compare r 0 = compare (a.take n) (b.take n) := by
  induction n generalizing p q a b with
  | zero => exact ⟨_, _, _, 0, rfl, if_pos rfl, rfl⟩
  | succ n ih =>
    obtain ⟨c, d, atP, atQ, ⟨ends, sign⟩ | ⟨nonzero, rfl, a, b, rfl, rfl, ha, hb⟩⟩ := round ha hb
    · refine ⟨n, p, q, _, ?_, (if_neg (by omega)).trans ?_, sign⟩
      · rcases ends with rfl | different
        · simp [strncmpLoop, atP]
        · simp [strncmpLoop, atP, atQ, different]
      · simp [difference, atP, atQ]
    · simpa [strncmpLoop, atP, atQ, nonzero, List.compare_cons_cons] using ih (by omega) ha hb

theorem strncmp_sign (bound : n < 2 ^ 64) (ha : Held mem n p a) (hb : Held mem n q b) :
    ∃ r, strncmp mem p q n = some r ∧ compare r 0 = compare (a.take n) (b.take n) := by
  unfold strncmp
  split_ifs with none
  · rw [none]
    exact ⟨0, rfl, rfl⟩
  · obtain ⟨left, p', q', r, looped, answer, sign⟩ := strncmpLoop_spec bound ha hb
    refine ⟨r, ?_, sign⟩
    rw [looped]
    exact answer

theorem strcmp_sign (ha : Held mem n p a) (hb : Held mem n q b) (shortA : a.length < n)
    (shortB : b.length < n) :
    ∃ r, Converges (strcmp mem · p q) (some r) ∧ compare r 0 = compare a b := by
  induction n generalizing p q a b with
  | zero => omega
  | succ n ih =>
    obtain ⟨c, d, atP, atQ, ⟨ends, sign⟩ | ⟨nonzero, rfl, a, b, rfl, rfl, ha, hb⟩⟩ := round ha hb
    · rw [List.take_of_length_le (by omega), List.take_of_length_le (by omega)] at sign
      refine ⟨_, .step (fun fuel => ?_) (.const fun _ => rfl), sign⟩
      rcases ends with rfl | different
      · simp [strcmp, difference, atP, atQ]
      · simp [strcmp, difference, atP, atQ, different]
    · rw [List.length_cons] at shortA shortB
      obtain ⟨r, ended, sign⟩ := ih ha hb (by omega) (by omega)
      refine ⟨r, .step (fun fuel => ?_) ended, by simpa [List.compare_cons_cons] using sign⟩
      simp [strcmp, atP, atQ, nonzero]

theorem strcmp_compare (ha : Held mem (a.length + 1) p a) (hb : Held mem (b.length + 1) q b) :
    ∃ r, Converges (strcmp mem · p q) (some r) ∧ compare r 0 = compare a b :=
  strcmp_sign (ha.of_length (a.length + b.length + 1)) (hb.of_length _) (by omega) (by omega)

theorem notAfter_iff (ha : Held mem (a.length + 1) p a) (hb : Held mem (b.length + 1) q b) :
    NotAfter mem p q ↔ (compare a b).isLE := by
  obtain ⟨r, ended, sign⟩ := strcmp_compare ha hb
  rw [← sign, Std.isLE_compare]
  constructor
  · rintro ⟨r', low, ended'⟩
    rwa [Option.some.inj (ended.unique ended')]
  · intro low
    exact ⟨r, low, ended⟩

theorem strings_compare_lexicographically {c : CString} :
    (∀ n < 2 ^ 64, Held mem n p a → Held mem n q b → ∃ r, strncmp mem p q n = some r ∧
        compare r 0 = compare (a.take n) (b.take n)) ∧
      (Held mem (a.length + 1) p a → Held mem (b.length + 1) q b →
        (∃ r, Converges (fun fuel => strcmp mem fuel p q) (some r) ∧ (r = 0 ↔ a = b) ∧
          ∀ m < 2 ^ 64, a.length < m → b.length < m →
            ∃ r', strncmp mem p q m = some r' ∧ compare r 0 = compare r' 0) ∧
        (NotAfter mem p q ∨ NotAfter mem q p) ∧
        (NotAfter mem p q → NotAfter mem q p → a = b) ∧
        (Held mem (c.length + 1) o c → NotAfter mem p q → NotAfter mem q o →
          NotAfter mem p o)) := by
  refine ⟨fun n bound ha hb => strncmp_sign bound ha hb, fun ha hb => ⟨?_, ?_, ?_, ?_⟩⟩
  · obtain ⟨r, ended, sign⟩ := strcmp_compare ha hb
    refine ⟨r, ended, ?_, fun m bound longA longB => ?_⟩
    · rw [← Std.compare_eq_iff_eq (a := a), ← sign, Std.compare_eq_iff_eq]
    · obtain ⟨r', ended', sign'⟩ := strncmp_sign bound (ha.of_length m) (hb.of_length m)
      rw [List.take_of_length_le (by omega), List.take_of_length_le (by omega)] at sign'
      exact ⟨r', ended', sign.trans sign'.symm⟩
  · rw [notAfter_iff ha hb, notAfter_iff hb ha]
    by_cases first : (compare a b).isLE
    · exact .inl first
    · exact .inr (by rw [Std.OrientedCmp.lt_of_not_isLE first]; rfl)
  · rw [notAfter_iff ha hb, notAfter_iff hb ha]
    intro first second
    exact Std.compare_eq_iff_eq.mp (Std.OrientedCmp.isLE_antisymm first second)
  · intro hc
    rw [notAfter_iff ha hb, notAfter_iff hb hc, notAfter_iff ha hc]
    exact Std.TransCmp.isLE_trans

/-- Two strings, one after the other. -/
def twoWords : Mapping := fun k => [97, 98, 0, 97, 200, 0][k]?

theorem strings_compare_lexicographically_twoWords :
    ∃ r, strncmp twoWords 0 3 (2 ^ 64 - 1) = some r ∧ compare r 0 = .lt := by
  have first : Held twoWords 3 0 [97, 98] := ⟨by decide, rfl, by decide, rfl, rfl⟩
  have second : Held twoWords 3 3 [97, 200] := ⟨by decide, rfl, by decide, rfl, rfl⟩
  exact (strings_compare_lexicographically (o := 0) (c := [])).1 (2 ^ 64 - 1) (by decide)
    (Held.of_length (a := [97, 98]) first _) (Held.of_length (a := [97, 200]) second _)

/-! ## Searching -/

/-- `while (*h && *n && (*h == *n))`: where it leaves `n`. -/
def matchFrom (mem : Mapping) : ℕ → ℕ → ℕ → Option (Option ℕ)
  | 0, _, _ => none
  | fuel + 1, h, n =>
      reading (mem h) fun c =>
        if c = 0 then some (some n) else
          reading (mem n) fun d =>
            if d ≠ 0 ∧ c = d then matchFrom mem fuel (h + 1) (n + 1) else some (some n)

/-- The `for` loop of `strstr`; the pointer `none` is `NULL`. -/
def strstrLoop (mem : Mapping) (needle : ℕ) : ℕ → ℕ → Option (Option (Option ℕ))
  | 0, _ => none
  | fuel + 1, haystack =>
      reading (mem haystack) fun c =>
        if c = 0 then some (some none) else
          (matchFrom mem fuel haystack needle).bind fun stop =>
            reading stop fun n => reading (mem n) fun d =>
              if d = 0 then some (some (some haystack))
              else strstrLoop mem needle fuel (haystack + 1)

/-- `strstr`. -/
def strstr (mem : Mapping) (fuel haystack needle : ℕ) : Option (Option (Option ℕ)) :=
  reading (mem needle) fun c =>
    if c = 0 then some (some (some haystack)) else strstrLoop mem needle fuel haystack

variable {haystack needle : CString}

/-- The scan at one position stops at the needle's terminator where the needle begins there. -/
theorem matchFrom_spec (hay : Held mem (haystack.length + 1) p haystack)
    (pin : Held mem (needle.length + 1) q needle) :
    ∃ n d, Converges (matchFrom mem · p q) (some n) ∧ mem n = some d ∧
      (d = 0 ↔ needle <+: haystack) := by
  induction needle generalizing haystack p q with
  | nil =>
    refine ⟨q, 0, .step (fun fuel => ?_) (.const fun _ => rfl), pin, by simp⟩
    cases haystack with
    | nil => simp [matchFrom, show mem p = some 0 from hay]
    | cons c haystack => simp [matchFrom, hay.2.1, show mem q = some 0 from pin]
  | cons d needle ih =>
    obtain ⟨nonzero, atQ, pin⟩ := pin
    cases haystack with
    | nil =>
      refine ⟨q, d, .step (fun fuel => ?_) (.const fun _ => rfl), atQ, by simp [nonzero]⟩
      simp [matchFrom, show mem p = some 0 from hay]
    | cons c haystack =>
      obtain ⟨-, atP, hay⟩ := hay
      by_cases same : c = d
      · subst same
        obtain ⟨n, e, ended, atN, found⟩ := ih hay pin
        refine ⟨n, e, .step (fun fuel => ?_) ended, atN, found.trans (by simp)⟩
        simp [matchFrom, atP, atQ, nonzero]
      · refine ⟨q, d, .step (fun fuel => ?_) (.const fun _ => rfl), atQ, ?_⟩
        · simp [matchFrom, atP, atQ, same]
        · simp [nonzero, Ne.symm same]

theorem strstrLoop_spec (nonempty : needle ≠ [])
    (hay : Held mem (haystack.length + 1) p haystack)
    (pin : Held mem (needle.length + 1) q needle) :
    ∃ r, Converges (strstrLoop mem q · p) (some r) ∧
      ((r = none ∧ ∀ i, ¬ needle <+: haystack.drop i) ∨
        ∃ i, r = some (p + i) ∧ needle <+: haystack.drop i ∧
          ∀ j < i, ¬ needle <+: haystack.drop j) := by
  induction haystack generalizing p with
  | nil =>
    refine ⟨none, .step (fun fuel => ?_) (.const fun _ => rfl), .inl ⟨rfl, by simpa⟩⟩
    simp [strstrLoop, show mem p = some 0 from hay]
  | cons c haystack ih =>
    obtain ⟨n, d, scanned, atN, found⟩ := matchFrom_spec hay pin
    obtain ⟨nonzero, atP, hay⟩ := hay
    have round : ∀ fuel, strstrLoop mem q (fuel + 1) p =
        (matchFrom mem fuel p q).bind fun stop => reading stop fun n => reading (mem n) fun e =>
          if e = 0 then some (some (some p)) else strstrLoop mem q fuel (p + 1) := by
      intro fuel
      rw [strstrLoop, atP, reading_some, if_neg nonzero]
    by_cases begins : needle <+: c :: haystack
    · refine ⟨some p, .step round (scanned.bind (.const fun fuel => ?_)),
        .inr ⟨0, rfl, begins, by simp⟩⟩
      simp [atN, found.mpr begins]
    · obtain ⟨r, ended, rest⟩ := ih hay
      refine ⟨r, .step round (scanned.bind (ended.imp fun fuel looped => ?_)), ?_⟩
      · simp [atN, mt found.mp begins, looped]
      · rcases rest with ⟨rfl, absent⟩ | ⟨i, rfl, here, first⟩
        · refine .inl ⟨rfl, fun i => ?_⟩
          cases i with
          | zero => exact begins
          | succ i => exact absent i
        · refine .inr ⟨i + 1, by rw [Nat.add_right_comm, Nat.add_assoc], here, fun j hj => ?_⟩
          cases j with
          | zero => exact begins
          | succ j => exact first j (by omega)

theorem strstr_leftmost (hay : Held mem (haystack.length + 1) p haystack)
    (pin : Held mem (needle.length + 1) q needle) :
    ∃ r, Converges (fun fuel => strstr mem fuel p q) (some r) ∧
      (r = none ↔ ¬ needle <:+: haystack) ∧ (needle = [] → r = some p) ∧
      ∀ k, r = some k → ∃ i, k = p + i ∧ needle <+: haystack.drop i ∧
        ∀ j < i, ¬ needle <+: haystack.drop j := by
  cases needle with
  | nil =>
    refine ⟨some p, .const fun fuel => ?_, by simp, by simp, fun k start => ⟨0, ?_, by simp⟩⟩
    · simp [strstr, show mem q = some 0 from pin]
    · exact (Option.some.inj start).symm
  | cons d needle =>
    obtain ⟨r, ended, answer⟩ := strstrLoop_spec (List.cons_ne_nil d needle) hay pin
    refine ⟨r, ended.imp fun fuel looped => ?_, ?_, by simp, ?_⟩
    · rw [strstr, pin.2.1, reading_some, if_neg pin.1, looped]
    · rcases answer with ⟨rfl, absent⟩ | ⟨i, rfl, here, first⟩
      · refine iff_of_true rfl fun inside => ?_
        obtain ⟨rest, begins, suffix⟩ := List.infix_iff_prefix_suffix.mp inside
        rw [List.suffix_iff_eq_drop.mp suffix] at begins
        exact absent _ begins
      · refine iff_of_false (by simp) fun outside => ?_
        exact outside (here.isInfix.trans (List.drop_suffix i _).isInfix)
    · rintro k rfl
      rcases answer with ⟨isNone, -⟩ | ⟨i, same, leftmost⟩
      · cases isNone
      · exact ⟨i, Option.some.inj same, leftmost⟩

theorem strstr_leftmost_twoWords :
    ∃ r, Converges (fun fuel => strstr twoWords fuel 3 4) (some r) ∧
      (r = none ↔ ¬ ([200] : CString) <:+: [97, 200]) := by
  obtain ⟨r, ended, missing, -⟩ := @strstr_leftmost twoWords 3 4 [97, 200] [200]
    ⟨by decide, rfl, by decide, rfl, rfl⟩ ⟨by decide, rfl, rfl⟩
  exact ⟨r, ended, missing⟩

end Thuban.StringLoops
