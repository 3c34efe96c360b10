import Thuban.Kernel.World

/-!
# Failing driver calls

The outcomes of the coming driver calls are a list, read from the front, and the calls succeed once it
is empty.
-/

namespace Thuban

open Lib

/-- The first `n` outcomes are successes. -/
def Silent (outcomes : List Bool) (n : ℕ) : Prop := true ∉ outcomes.take n

instance (outcomes : List Bool) (n : ℕ) : Decidable (Silent outcomes n) :=
  inferInstanceAs (Decidable (¬ _))

theorem Silent.zero (outcomes : List Bool) : Silent outcomes 0 := by simp [Silent]

theorem silent_nil (n : ℕ) : Silent [] n := by simp [Silent]

theorem silent_or_failing (outcomes : List Bool) :
    Silent outcomes 1 ∨ ∃ later, outcomes = true :: later := by
  rcases outcomes with _ | ⟨_ | _, later⟩
  · exact .inl (silent_nil 1)
  · exact .inl (by simp [Silent])
  · exact .inr ⟨later, rfl⟩

theorem not_silent_failing (later : List Bool) (n : ℕ) : ¬ Silent (true :: later) (n + 1) := by
  simp [Silent]

variable {outcomes : List Bool} {m n : ℕ}

theorem silent_add : Silent outcomes (m + n) ↔ Silent outcomes m ∧ Silent (outcomes.drop m) n := by
  rw [Silent, Silent, Silent, List.take_add, List.mem_append, not_or]

theorem Silent.of_add (silent : Silent outcomes (m + n)) : Silent outcomes m :=
  (silent_add.mp silent).1

theorem silent_replicate (n : ℕ) (later : List Bool) :
    Silent (List.replicate n false ++ later) n := by
  rw [Silent, List.take_left' (List.length_replicate ..)]
  simp

/-- Of `n` driver calls in a row, given up at the first failure, `done` succeed, and `later` are the
outcomes left. -/
def Answered (outcomes : List Bool) (n done : ℕ) (later : List Bool) : Prop :=
  (done = n ∧ Silent outcomes n ∧ later = outcomes.drop n) ∨
    (done < n ∧ Silent outcomes done ∧ outcomes.drop done = true :: later)

namespace Answered

variable {outcomes later : List Bool} {n done : ℕ}

theorem zero (outcomes : List Bool) : Answered outcomes 0 0 outcomes :=
  .inl ⟨rfl, .zero _, rfl⟩

theorem failed (later : List Bool) (n : ℕ) : Answered (true :: later) (n + 1) 0 later :=
  .inr ⟨n.succ_pos, .zero _, rfl⟩

theorem succ (first : Silent outcomes 1) (rest : Answered (outcomes.drop 1) n done later) :
    Answered outcomes (n + 1) (done + 1) later := by
  rcases rest with ⟨rfl, silent, rfl⟩ | ⟨fewer, silent, stop⟩
  · refine .inl ⟨rfl, ?_, ?_⟩
    · rw [Nat.add_comm, silent_add]
      exact ⟨first, silent⟩
    · rw [List.drop_drop, Nat.add_comm]
  · refine .inr ⟨by omega, ?_, ?_⟩
    · rw [Nat.add_comm, silent_add]
      exact ⟨first, silent⟩
    · rwa [List.drop_drop, Nat.add_comm] at stop

theorem all (answered : Answered outcomes n done later) (silent : Silent outcomes n) :
    done = n ∧ later = outcomes.drop n := by
  rcases answered with ⟨rfl, -, rest⟩ | ⟨fewer, -, stop⟩
  · exact ⟨rfl, rest⟩
  · exfalso
    obtain ⟨more, rfl⟩ : ∃ more, n = done + (more + 1) := ⟨n - done - 1, by omega⟩
    rw [silent_add, stop] at silent
    exact not_silent_failing later more silent.2

theorem silent (answered : Answered outcomes n n later) :
    Silent outcomes n ∧ later = outcomes.drop n := by
  rcases answered with ⟨-, silent, rest⟩ | ⟨fewer, -⟩
  · exact ⟨silent, rest⟩
  · exact absurd fewer (lt_irrefl n)

theorem none (answered : Answered (true :: outcomes) (n + 1) done later) :
    done = 0 ∧ later = outcomes := by
  rcases answered with ⟨rfl, silent, -⟩ | ⟨-, silent, stop⟩
  · exact absurd silent (not_silent_failing outcomes n)
  · rcases done with _ | done
    · exact ⟨rfl, by simpa using stop.symm⟩
    · exact absurd silent (not_silent_failing outcomes done)

end Answered

namespace World

/-- The world with other outcomes of the coming calls of a driver. -/
def withFaults (w : World) (dev : ℕ) (outcomes : List Bool) : World :=
  w.setDev dev { w.devs dev with faults := outcomes }

variable {w w' : World} {dev : ℕ} {outcomes : List Bool}

@[simp] theorem withFaults_heap : (w.withFaults dev outcomes).heap = w.heap := rfl

@[simp] theorem withFaults_devs :
    (w.withFaults dev outcomes).devs dev = { w.devs dev with faults := outcomes } :=
  setDev_devs ..

theorem withFaults_self (w : World) (dev : ℕ) : w.withFaults dev (w.devs dev).faults = w :=
  setDev_self w dev

theorem withFaults_withFaults (later : List Bool) :
    (w.withFaults dev outcomes).withFaults dev later = w.withFaults dev later := by
  simp [withFaults, setDev_setDev]

theorem withFaults_nil (reliable : (w.devs dev).faults = []) : w.withFaults dev [] = w := by
  rw [← reliable, withFaults_self]

theorem setDev_withFaults (d : BlockDevice) :
    (w.withFaults dev outcomes).setDev dev d = w.setDev dev d :=
  setDev_setDev ..

theorem malloc_withFaults (size : ℕ) :
    (w.withFaults dev outcomes).malloc size =
      ((w.malloc size).1, (w.malloc size).2.withFaults dev outcomes) := by
  unfold malloc
  rw [withFaults_heap]
  split_ifs
  · rfl
  · split <;> rfl

theorem free_withFaults (p : ℕ) :
    (w.withFaults dev outcomes).free p = (w.free p).withFaults dev outcomes := by
  unfold free
  rw [withFaults_heap]
  split_ifs <;> rfl

theorem respond_silent (d : BlockDevice) (silent : Silent outcomes 1) :
    { d with faults := outcomes }.respond = (true, { d with faults := outcomes.drop 1 }) := by
  rcases outcomes with _ | ⟨_ | _, later⟩
  · rfl
  · rfl
  · exact absurd silent (not_silent_failing later 0)

/-- From `w` to `w'` some driver calls have been answered, and nothing else has happened. -/
def Polled (w w' : World) (dev : ℕ) : Prop :=
  ∃ n, w' = w.withFaults dev ((w.devs dev).faults.drop n)

theorem Polled.refl (w : World) (dev : ℕ) : Polled w w dev :=
  ⟨0, (withFaults_self w dev).symm⟩

theorem Polled.trans {w₁ : World} (first : Polled w w₁ dev) (second : Polled w₁ w' dev) :
    Polled w w' dev := by
  obtain ⟨m, rfl⟩ := first
  obtain ⟨n, rfl⟩ := second
  refine ⟨m + n, ?_⟩
  rw [withFaults_withFaults, withFaults_devs, List.drop_drop]

theorem Polled.eq (polled : Polled w w' dev) (reliable : (w.devs dev).faults = []) : w' = w := by
  obtain ⟨n, rfl⟩ := polled
  rw [reliable, List.drop_nil, withFaults_nil reliable]

theorem blkdevRead_polled {sector count pos : ℕ} {buf : Bytes} {answer : Option Bytes}
    (done : w.blkdevRead dev sector count buf pos = (answer, w')) : Polled w w' dev := by
  have same := Polled.refl w dev
  rw [blkdevRead] at done
  split_ifs at done
  · rwa [← (Prod.mk.inj done).2]
  · rwa [← (Prod.mk.inj done).2]
  · rwa [← (Prod.mk.inj done).2]
  all_goals
    unfold BlockDevice.respond at done
    rcases faults : (w.devs dev).faults with _ | ⟨_ | _, later⟩
    all_goals
      simp only [faults] at done
      rw [← (Prod.mk.inj done).2]
    · rwa [setDev_self]
    · exact ⟨1, by rw [faults]; rfl⟩
    · exact ⟨1, by rw [faults]; rfl⟩

section Drives

variable {sectors sector : ℕ} (working : Working (w.devs dev) sectors) (inside : sector < sectors)
  (buf : Bytes) (pos : ℕ)

include working inside

theorem blkdevRead_withFaults :
    (w.withFaults dev outcomes).blkdevRead dev sector 1 buf pos =
      match { w.devs dev with faults := outcomes }.respond with
      | (false, d) => (none, w.setDev dev d)
      | (true, d) => (some (buf.blit pos d.bytes (sector * sectorSize) sectorSize),
          w.setDev dev d) := by
  have large := working.large
  unfold blkdevRead
  simp only [withFaults_devs, one_ne_zero, if_false]
  rw [if_neg (by simp [working.present]), if_neg (by omega), if_neg (by omega), Nat.one_mul]
  rcases BlockDevice.respond _ with ⟨_ | _, d⟩
  · simp only [setDev_withFaults]
  · simp only [setDev_withFaults]

theorem blkdevRead_silent (silent : Silent outcomes 1) :
    (w.withFaults dev outcomes).blkdevRead dev sector 1 buf pos =
      (some (buf.blit pos (w.devs dev).bytes (sector * sectorSize) sectorSize),
        w.withFaults dev (outcomes.drop 1)) := by
  rw [blkdevRead_withFaults working inside, respond_silent _ silent]
  rfl

theorem blkdevRead_failing (later : List Bool) :
    (w.withFaults dev (true :: later)).blkdevRead dev sector 1 buf pos =
      (none, w.withFaults dev later) := by
  rw [blkdevRead_withFaults working inside]
  rfl

theorem blkdevWrite_withFaults :
    (w.withFaults dev outcomes).blkdevWrite dev sector 1 buf pos =
      match { w.devs dev with faults := outcomes, log := sector :: (w.devs dev).log }.respond with
      | (false, d) => (false, w.setDev dev d)
      | (true, d) => (true, w.setDev dev
          { d with bytes := d.bytes.blit (sector * sectorSize) buf pos sectorSize }) := by
  have large := working.large
  unfold blkdevWrite
  simp only [withFaults_devs, one_ne_zero, if_false]
  rw [if_neg (by simp [working.present]), if_neg (by simp [working.writable]), if_neg (by omega),
    if_neg (by omega), Nat.one_mul]
  rcases BlockDevice.respond _ with ⟨_ | _, d⟩
  · simp only [setDev_withFaults]
  · simp only [setDev_withFaults]

theorem blkdevWrite_silent (silent : Silent outcomes 1) :
    (w.withFaults dev outcomes).blkdevWrite dev sector 1 buf pos =
      (true, (w.setDev dev
        { w.devs dev with
          bytes := (w.devs dev).bytes.blit (sector * sectorSize) buf pos sectorSize
          log := sector :: (w.devs dev).log }).withFaults dev (outcomes.drop 1)) := by
  have answer := respond_silent { w.devs dev with log := sector :: (w.devs dev).log } silent
  rw [blkdevWrite_withFaults working inside, answer]
  simp [withFaults, setDev_setDev]

theorem blkdevWrite_failing (later : List Bool) :
    (w.withFaults dev (true :: later)).blkdevWrite dev sector 1 buf pos =
      (false, (w.setDev dev
        { w.devs dev with log := sector :: (w.devs dev).log }).withFaults dev later) := by
  rw [blkdevWrite_withFaults working inside]
  simp [BlockDevice.respond, withFaults, setDev_setDev]

end Drives

end World

end Thuban
