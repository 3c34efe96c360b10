import Thuban.Fat32.Driver

/-!
# Timestamps

The fields of an encoded date are taken from the days since 1970: the year is counted from 1980 as if that
were the epoch, in years of 365 days, and a month has 31 days on one way and 30 on the other.  The hours,
minutes and seconds survive; the day never does.
-/

namespace Thuban.Fat32

/-- The sum that `fat32_decode_datetime` makes. -/
def datetimeSum (date time : ℕ) : ℤ :=
  let year := ((date >>> 9) &&& 0x7F) + 1980
  let month := (date >>> 5) &&& 0x0F
  let day := date &&& 0x1F
  let hour := (time >>> 11) &&& 0x1F
  let min := (time >>> 5) &&& 0x3F
  let sec := (time &&& 0x1F) * 2
  ((year : ℤ) - 1970) * 365 * 86400 + month * 30 * 86400 + day * 86400 + hour * 3600 + min * 60 + sec

/-- `fat32_decode_datetime`: the arithmetic is that of `int`. -/
def decodeDatetime (date time : ℕ) : ℤ := (datetimeSum date time).bmod (2 ^ 32)

theorem packed_eq {low mid high : ℕ} {m n : ℕ} (hlow : low < 2 ^ m) (hmid : mid < 2 ^ n) :
    low ||| mid <<< m ||| high <<< (m + n) = low + 2 ^ m * (mid + 2 ^ n * high) := by
  have first : low ||| mid <<< m = mid <<< m + low := by
    rw [Nat.shiftLeft_add_eq_or_of_lt hlow, Nat.or_comm]
  have small : mid <<< m + low < 2 ^ (m + n) := by
    rw [Nat.shiftLeft_eq, pow_add]
    nlinarith
  rw [first, Nat.or_comm, ← Nat.shiftLeft_add_eq_or_of_lt small, Nat.shiftLeft_eq, Nat.shiftLeft_eq]
  ring

theorem encodeTime_eq (t : ℕ) :
    encodeTime t = t % 60 / 2 + 32 * (t / 60 % 60 + 64 * (t / 3600 % 24)) := by
  have packed := @packed_eq (t % 60 / 2) (t / 60 % 60) (t / 3600 % 24) 5 6 (by omega) (by omega)
  rw [encodeTime, packed]
  omega

theorem encodeDate_eq (t : ℕ) :
    encodeDate t = t / 86400 % 32 +
      32 * (t / 86400 / 31 % 12 + 1 + 16 * ((t / 86400 / 365 + 1980) % 128)) := by
  have packed := @packed_eq (t / 86400 % 32) (t / 86400 / 31 % 12 + 1) (t / 86400 / 365 + 1980) 5 4
    (by omega) (by omega)
  rw [encodeDate, packed]
  omega

theorem field_eq (x m n : ℕ) : (x >>> m) &&& (2 ^ n - 1) = x / 2 ^ m % 2 ^ n := by
  rw [Nat.shiftRight_eq_div_pow, Nat.and_two_pow_sub_one_eq_mod]

theorem datetimeSum_eq (date time : ℕ) :
    datetimeSum date time =
      ((date / 512 % 128 + 10) * 365 + date / 32 % 16 * 30 + date % 32 : ℕ) * 86400 +
        (time / 2048 % 32 * 3600 + time / 32 % 64 * 60 + time % 32 * 2 : ℕ) := by
  have year : (date >>> 9) &&& 0x7F = date / 512 % 128 := field_eq date 9 7
  have month : (date >>> 5) &&& 0x0F = date / 32 % 16 := field_eq date 5 4
  have day : date &&& 0x1F = date % 32 := Nat.and_two_pow_sub_one_eq_mod _ 5
  have hour : (time >>> 11) &&& 0x1F = time / 2048 % 32 := field_eq time 11 5
  have min : (time >>> 5) &&& 0x3F = time / 32 % 64 := field_eq time 5 6
  have sec : time &&& 0x1F = time % 32 := Nat.and_two_pow_sub_one_eq_mod _ 5
  unfold datetimeSum
  rw [year, month, day, hour, min, sec]
  push_cast
  ring

/-- The seconds of a time from 1980-01-01 to 2107-12-31. -/
def Representable (t : ℕ) : Prop := 315532800 ≤ t ∧ t < 4354819200

/-- The day that `fat32_decode_datetime` finds in the encoding of a day. -/
def decodedDay (d : ℕ) : ℕ :=
  ((d / 365 + 1980) % 128 + 10) * 365 + (d / 31 % 12 + 1) * 30 + d % 32

theorem datetimeSum_encode (t : ℕ) :
    datetimeSum (encodeDate t) (encodeTime t) =
      decodedDay (t / 86400) * 86400 + (t % 86400 / 2 * 2 : ℕ) := by
  have fields : ∀ {day month year : ℕ}, day < 32 → month < 16 → year < 128 →
      (day + 32 * (month + 16 * year)) / 512 % 128 = year ∧
        (day + 32 * (month + 16 * year)) / 32 % 16 = month ∧
          (day + 32 * (month + 16 * year)) % 32 = day := by
    intro day month year _ _ _
    omega
  have time : encodeTime t / 2048 % 32 * 3600 + encodeTime t / 32 % 64 * 60 + encodeTime t % 32 * 2 =
      t % 86400 / 2 * 2 := by
    rw [encodeTime_eq]
    omega
  obtain ⟨year, month, day⟩ := @fields (t / 86400 % 32) (t / 86400 / 31 % 12 + 1)
    ((t / 86400 / 365 + 1980) % 128) (by omega) (by omega) (by omega)
  rw [datetimeSum_eq, time, encodeDate_eq, year, month, day, decodedDay]

theorem decodedDay_ne {d : ℕ} (small : d < 50403) : decodedDay d ≠ d := by
  have months : (d / 31 % 12 + 1) * 30 + d % 32 < 392 := by omega
  have years : (d / 365 + 1980) % 128 = d / 365 + 60 ∨ (d / 365 + 1980) % 128 + 68 = d / 365 := by omega
  rw [decodedDay, Nat.add_assoc]
  generalize (d / 31 % 12 + 1) * 30 + d % 32 = month at months
  generalize (d / 365 + 1980) % 128 = year at years
  omega

theorem day_eq_of_bmod {day d seconds : ℕ} (bounded : day < 60000) (before : d < 60000)
    (same : (day * 86400 + seconds : ℤ).bmod (2 ^ 32) = d * 86400 + seconds) : day = d := by
  have congruent : (day * 86400 + seconds : ℤ) ≡ d * 86400 + seconds [ZMOD 4294967296] := by
    rw [← same]
    exact Int.bmod_emod.symm
  have scaled : (33554432 : ℤ) * 128 ∣ (day - d) * 675 * 128 := by
    have gap := congruent.symm.dvd
    rw [add_sub_add_right_eq_sub, ← sub_mul] at gap
    rw [mul_assoc]
    exact gap
  have far : (33554432 : ℤ) ∣ day - d :=
    IsCoprime.dvd_of_dvd_mul_right (by norm_num) ((mul_dvd_mul_iff_right (by decide)).mp scaled)
  have near : |(day : ℤ) - d| < 33554432 := by
    rw [abs_lt]
    constructor <;> linarith only [bounded, before]
  exact Int.natCast_inj.mp (sub_eq_zero.mp (Int.eq_zero_of_abs_lt_dvd far near))

/-- No time that FAT can represent survives its encoding. -/
theorem timestamp_never_survives {t : ℕ} (representable : Representable t) :
    decodeDatetime (encodeDate t) (encodeTime t) ≠ (t / 2 * 2 : ℕ) := by
  have before : t / 86400 < 50403 := Nat.div_lt_of_lt_mul representable.2
  have bounded : decodedDay (t / 86400) < 60000 := by
    rw [decodedDay]
    omega
  have halves : t / 2 * 2 = t / 86400 * 86400 + t % 86400 / 2 * 2 := by omega
  rw [decodeDatetime, datetimeSum_encode, halves]
  intro same
  exact decodedDay_ne before (day_eq_of_bmod bounded (before.trans (by decide)) (mod_cast same))

/-- The last even second of 2107. -/
theorem timestamp_lost_2107 :
    decodeDatetime (encodeDate 4354819198) (encodeTime 4354819198) ≠ (4354819198 / 2 * 2 : ℕ) :=
  timestamp_never_survives ⟨by decide, by decide⟩

/-- 1980-01-01 is decoded as a time before 1970. -/
theorem timestamp_of_1980 :
    decodeDatetime (encodeDate 315532800) (encodeTime 315532800) = -1745821696 := by
  rw [decodeDatetime, datetimeSum_encode]
  norm_num [decodedDay, Int.bmod_def]

end Thuban.Fat32
