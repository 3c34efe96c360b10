import Mathlib
import Thuban.Drivers.Ata

/-!
# Sectors on the wire

Which sector of the medium a write reaches.  The sector number is a `uint64_t` in the block layer,
a `uint32_t` in `ata_write_lba28`, and 28 bits of it end up in the registers of the drive; the
capacity that bounds it is the 64-bit number of `IDENTIFY`.
-/

namespace Thuban.Ata

open Lib Port

/-! ## The address registers -/

/-- What neither waiting nor moving data changes: the address in the registers and the commands. -/
structure Untouched (p p' : Port) : Prop where
  lba : p'.drive.lba = p.drive.lba
  commands : p'.drive.commands = p.drive.commands

theorem Untouched.refl (p : Port) : Untouched p p := ⟨rfl, rfl⟩

variable {p : Port} {lba left count : ℕ}

theorem Untouched.trans {q r : Port} (first : Untouched p q) (second : Untouched q r) :
    Untouched p r :=
  ⟨second.lba.trans first.lba, second.commands.trans first.commands⟩

theorem ataWaitReady_untouched (timeoutMs : ℕ) (p : Port) :
    Untouched p (p.ataWaitReady timeoutMs).2 := by
  obtain ⟨clock, equal⟩ := ataWaitReady_clock timeoutMs p
  rw [equal]
  exact ⟨rfl, rfl⟩

theorem ataWaitDrq_untouched (timeoutMs : ℕ) (p : Port) :
    Untouched p (p.ataWaitDrq timeoutMs).2 := by
  obtain ⟨clock, equal⟩ := ataWaitDrq_clock timeoutMs p
  rw [equal]
  exact ⟨rfl, rfl⟩

theorem dataIn_lba (value : UInt16) (d : Drive) : (d.dataIn value).lba = d.lba := by
  unfold Drive.dataIn
  split <;> rfl

theorem dataIn_commands (value : UInt16) (d : Drive) :
    (d.dataIn value).commands = d.commands := by
  unfold Drive.dataIn
  split <;> rfl

theorem ataWriteBuffer_untouched (buffer count : ℕ) (p : Port) :
    Untouched p (p.ataWriteBuffer buffer count) := by
  induction count with
  | zero => exact .refl p
  | succ count ih => exact ih.trans ⟨dataIn_lba _ _, dataIn_commands _ _⟩

theorem sectorLoop_untouched (count buffer : ℕ) (p : Port) :
    Untouched p (sectorLoop ataWriteBuffer count buffer p).2 := by
  induction count generalizing buffer p with
  | zero => exact .refl p
  | succ count ih =>
    have waited : Untouched p (p.ataWaitDrq 1000).2 := ataWaitDrq_untouched _ p
    unfold sectorLoop
    dsimp only
    split_ifs
    · exact (waited.trans (ataWriteBuffer_untouched _ _ _)).trans (ih _ _)
    · exact waited

theorem driveBits_nibble (slot nibble : ℕ) (small : nibble < 16) :
    (((if slot = 0 then 0xE0 else 0xF0 : UInt8) ||| UInt8.ofNat nibble).toNat) % 16 = nibble := by
  have table : ∀ n : Fin 16, ((0xE0 : UInt8) ||| UInt8.ofNat n).toNat % 16 = n ∧
      ((0xF0 : UInt8) ||| UInt8.ofNat n).toNat % 16 = n := by decide
  split_ifs
  · exact (table ⟨nibble, small⟩).1
  · exact (table ⟨nibble, small⟩).2

theorem program_write_lba (dev : AtaDevice) (lba count : ℕ) (p : Port) :
    (p.program dev lba count cmdWritePio).drive.lba = lba % 2 ^ 28 := by
  have nibble : lba >>> 24 &&& 0x0F = lba / 2 ^ 24 % 16 := by
    rw [Nat.shiftRight_eq_div_pow]
    exact Nat.and_two_pow_sub_one_eq_mod (lba / 2 ^ 24) 4
  have high := driveBits_nibble dev.drive (lba / 2 ^ 24 % 16) (by omega)
  show (UInt8.ofNat lba).toNat + 2 ^ 8 * (UInt8.ofNat (lba >>> 8)).toNat +
    2 ^ 16 * (UInt8.ofNat (lba >>> 16)).toNat + 2 ^ 24 *
      (((if dev.drive = 0 then 0xE0 else 0xF0 : UInt8) |||
        UInt8.ofNat (lba >>> 24 &&& 0x0F)).toNat % 16) = lba % 2 ^ 28
  rw [nibble, high, Nat.shiftRight_eq_div_pow, Nat.shiftRight_eq_div_pow]
  simp only [UInt8.toNat_ofNat']
  omega

theorem program_write_commands (dev : AtaDevice) (lba count : ℕ) (p : Port) :
    (p.program dev lba count cmdWritePio).drive.commands =
      p.drive.commands ++ [⟨cmdWritePio, lba % 2 ^ 28⟩] := by
  rw [← program_write_lba dev lba count p]
  rfl

theorem program_write_transfer (dev : AtaDevice) (lba count : ℕ) (p : Port) :
    ∃ left, (p.program dev lba count cmdWritePio).drive.transfer =
        .writing (lba % 2 ^ 28) left 0 ∧ (count < 256 → count ≤ left) := by
  rw [← program_write_lba dev lba count p]
  refine ⟨_, rfl, fun small => ?_⟩
  show count ≤ if UInt8.ofNat count = 0 then 256 else (UInt8.ofNat count).toNat
  split_ifs
  · exact small.le
  · rw [UInt8.toNat_ofNat', Nat.mod_eq_of_lt small]

/-! ## The commands of a write -/

theorem flush_commands (p : Port) :
    ((p.outb .command cmdCacheFlush).ataWaitReady 1000).2.drive.commands =
      p.drive.commands ++ [⟨cmdCacheFlush, p.drive.lba⟩] :=
  (ataWaitReady_untouched 1000 (p.outb .command cmdCacheFlush)).commands

theorem ataWriteLba28_commands (dev : AtaDevice) (lba count buffer : ℕ) (p : Port) :
    ∃ new, (ataWriteLba28 dev lba count buffer p).2.drive.commands = p.drive.commands ++ new ∧
      (∀ c ∈ new, c.lba = lba % 2 ^ 28) ∧ (Obliging p.drive.status → new ≠ []) := by
  set noted : Port := { p with calls := p.calls ++ [Call.mk lba count buffer] } with hnoted
  have waited := ataWaitReady_untouched 1000 noted
  unfold ataWriteLba28 ataLba28
  dsimp only
  rw [← hnoted]
  by_cases ready : (noted.ataWaitReady 1000).1 = true
  · rw [if_pos ready]
    set started := (noted.ataWaitReady 1000).2.program dev lba count cmdWritePio
    have commands : started.drive.commands =
        p.drive.commands ++ [⟨cmdWritePio, lba % 2 ^ 28⟩] :=
      (program_write_commands dev lba count _).trans (congrArg (· ++ _) waited.commands)
    have address : started.drive.lba = lba % 2 ^ 28 := program_write_lba dev lba count _
    have moved := sectorLoop_untouched count buffer started
    split_ifs
    · refine ⟨[⟨cmdWritePio, lba % 2 ^ 28⟩, ⟨cmdCacheFlush, lba % 2 ^ 28⟩], ?_, by simp, by simp⟩
      rw [flush_commands, moved.commands, moved.lba, commands, address, List.append_assoc,
        List.singleton_append]
    · exact ⟨_, moved.commands.trans commands, by simp, by simp⟩
  · rw [if_neg ready]
    refine ⟨[], ?_, by simp, fun obliging => ?_⟩
    · rw [List.append_nil]
      exact waited.commands
    · exact absurd (ataWaitReady_succeeds (p := noted) obliging) ready

/-! ## The medium -/

theorem dataIn_writing {d : Drive} {word : ℕ} (writing : d.transfer = .writing lba left word)
    (value : UInt16) :
    d.dataIn value = { d with
      medium := Function.update d.medium lba (Function.update (d.medium lba) word value)
      transfer := Drive.advance .writing lba left word } := by
  simp only [Drive.dataIn, writing]

/-- The beginning of a sector that is being written; the last word moves on to the next one. -/
theorem ataWriteBuffer_words (writing : p.drive.transfer = .writing lba left 0) (buffer n : ℕ)
    (inside : n ≤ 256) :
    ((p.ataWriteBuffer buffer n).drive.transfer =
        if n < 256 then .writing lba left n else Drive.advance .writing lba left 255) ∧
      (p.ataWriteBuffer buffer n).mem = p.mem ∧
      (p.ataWriteBuffer buffer n).drive.medium = Function.update p.drive.medium lba fun j =>
        if j < n then UInt16.ofNat (p.mem.le16 (buffer + 2 * j)) else p.drive.medium lba j := by
  induction n with
  | zero =>
    refine ⟨writing, rfl, ?_⟩
    simp [ataWriteBuffer]
  | succ n ih =>
    obtain ⟨transfer, mem, medium⟩ := ih (by omega)
    rw [if_pos (by omega)] at transfer
    unfold ataWriteBuffer
    dsimp only
    rw [dataIn_writing transfer]
    refine ⟨?_, mem, ?_⟩
    · dsimp only [Drive.advance]
      split_ifs with more
      · rfl
      all_goals first | rfl | omega
    · dsimp only
      rw [mem, medium, Function.update_idem, Function.update_self]
      congr 1
      funext j
      by_cases last : j = n
      · subst last
        rw [Function.update_self, if_pos (by omega)]
      · rw [Function.update_of_ne last]
        have same : j < n ↔ j < n + 1 := by omega
        simp only [same]

/-- The sectors of one write: the medium changes only where the transfer goes, and a transfer that
succeeds leaves the buffer there. -/
theorem sectorLoop_medium (writing : p.drive.transfer = .writing lba left 0) (buffer : ℕ)
    (inside : count ≤ left) :
    (∀ t, t < lba ∨ lba + count ≤ t →
        (sectorLoop ataWriteBuffer count buffer p).2.drive.medium t = p.drive.medium t) ∧
      ((sectorLoop ataWriteBuffer count buffer p).1 = true → ∀ i < count, ∀ j < 256,
        (sectorLoop ataWriteBuffer count buffer p).2.drive.medium (lba + i) j =
          UInt16.ofNat (p.mem.le16 (buffer + 512 * i + 2 * j))) := by
  induction count generalizing p lba left buffer with
  | zero => exact ⟨fun _ _ => rfl, fun _ i hi => absurd hi (Nat.not_lt_zero i)⟩
  | succ count ih =>
    obtain ⟨clock, waited⟩ := ataWaitDrq_clock 1000 p
    unfold sectorLoop
    dsimp only
    rw [waited]
    set asked : Port := { p with drive := { p.drive with clock := clock } }
    obtain ⟨transfer, mem, medium⟩ :=
      ataWriteBuffer_words (p := asked) writing buffer 256 le_rfl
    split_ifs with drq
    · set sent := asked.ataWriteBuffer buffer 256
      have there : ∀ j < 256, sent.drive.medium lba j =
          UInt16.ofNat (p.mem.le16 (buffer + 2 * j)) := by
        intro j hj
        rw [medium, Function.update_self, if_pos hj]
      have elsewhere : ∀ t ≠ lba, sent.drive.medium t = p.drive.medium t := by
        intro t ht
        rw [medium, Function.update_of_ne ht]
      clear_value sent
      by_cases last : count = 0
      · subst last
        have done : sectorLoop ataWriteBuffer 0 (buffer + 512) sent = (true, sent) := rfl
        rw [done]
        refine ⟨fun t ht => elsewhere t (by omega), fun _ i hi j hj => ?_⟩
        obtain rfl : i = 0 := by omega
        rw [Nat.add_zero lba, Nat.mul_zero 512, Nat.add_zero buffer]
        exact there j hj
      · have next : sent.drive.transfer = .writing (lba + 1) (left - 1) 0 := by
          rw [transfer, if_neg (by omega), Drive.advance, if_neg (by omega), if_neg (by omega)]
        obtain ⟨outside, stored⟩ := ih next (buffer + 512) (by omega)
        refine ⟨fun t ht => ?_, fun complete i hi j hj => ?_⟩
        · rw [outside t (by omega), elsewhere t (by omega)]
        · cases i with
          | zero =>
            rw [Nat.add_zero lba, Nat.mul_zero 512, Nat.add_zero buffer, outside lba (by omega)]
            exact there j hj
          | succ i =>
            have later := stored complete i (by omega) j hj
            rw [mem] at later
            rw [show lba + (i + 1) = lba + 1 + i by omega,
              show buffer + 512 * (i + 1) = buffer + 512 + 512 * i by omega]
            exact later
    · exact ⟨fun _ _ => rfl, fun complete => absurd complete (by simp)⟩

theorem program_write_mem (dev : AtaDevice) (lba count : ℕ) (p : Port) :
    (p.program dev lba count cmdWritePio).mem = p.mem := rfl

theorem program_write_medium (dev : AtaDevice) (lba count : ℕ) (p : Port) :
    (p.program dev lba count cmdWritePio).drive.medium = p.drive.medium := rfl

theorem flush_medium (p : Port) :
    ((p.outb .command cmdCacheFlush).ataWaitReady 1000).2.drive.medium = p.drive.medium := by
  obtain ⟨clock, equal⟩ := ataWaitReady_clock 1000 (p.outb .command cmdCacheFlush)
  rw [equal]
  rfl

theorem ataWriteLba28_medium (dev : AtaDevice) (lba buffer : ℕ) (small : count < 256) (p : Port) :
    (∀ t, t < lba % 2 ^ 28 ∨ lba % 2 ^ 28 + count ≤ t →
        (ataWriteLba28 dev lba count buffer p).2.drive.medium t = p.drive.medium t) ∧
      ((ataWriteLba28 dev lba count buffer p).1 = 0 → ∀ i < count, ∀ j < 256,
        (ataWriteLba28 dev lba count buffer p).2.drive.medium (lba % 2 ^ 28 + i) j =
          UInt16.ofNat (p.mem.le16 (buffer + 512 * i + 2 * j))) := by
  set noted : Port := { p with calls := p.calls ++ [Call.mk lba count buffer] } with hnoted
  obtain ⟨clock, waited⟩ := ataWaitReady_clock 1000 noted
  have failed : (-1 : ℤ) ≠ 0 := by decide
  unfold ataWriteLba28 ataLba28
  dsimp only
  rw [← hnoted, waited]
  by_cases ready : (noted.ataWaitReady 1000).1 = true
  · rw [if_pos ready]
    obtain ⟨left, writing, inside⟩ := program_write_transfer dev lba count
      { noted with drive := { noted.drive with clock := clock } }
    obtain ⟨outside, stored⟩ := sectorLoop_medium writing buffer (inside small)
    rw [program_write_medium] at outside
    rw [program_write_mem] at stored
    split_ifs with complete
    · simp only [flush_medium]
      exact ⟨outside, fun _ => stored complete⟩
    · exact ⟨outside, fun success => absurd success failed⟩
  · rw [if_neg ready]
    exact ⟨fun _ _ => rfl, fun success => absurd success failed⟩

/-! ## Writing one sector -/

theorem blkdevWrite_one (dev : AtaDevice) {s : ℕ} (below : s < dev.sectors) (buffer : ℕ)
    (p : Port) :
    Converges (blkdevWrite (registered dev) s 1 buffer p)
      (if (ataWriteLba28 dev (s % 2 ^ 32) 1 buffer p).1 ≠ 0 then -1 else 0,
        (ataWriteLba28 dev (s % 2 ^ 32) 1 buffer p).2) := by
  have passed : ∀ fuel, blkdevWrite (registered dev) s 1 buffer p fuel =
      ataBlkdevWrite dev s 1 buffer p fuel := by
    intro fuel
    have inside : ¬ (registered dev).totalSectors ≤ s := not_le.mpr below
    have fits : ¬ (registered dev).totalSectors < (s + 1) % 2 ^ 64 := by
      show ¬ dev.sectors < _
      omega
    unfold blkdevWrite
    rw [if_neg one_ne_zero, if_neg (by simp [registered]), if_neg (by simp [registered]),
      if_neg inside, if_neg fits]
    rfl
  refine ⟨2, fun fuel enough => ?_⟩
  obtain ⟨n, rfl⟩ : ∃ n, fuel = n + 2 := ⟨fuel - 2, by omega⟩
  rw [passed]
  simp only [ataBlkdevWrite, ataBlkdev]
  norm_num
  split_ifs <;> rfl

/-- A write reaches the sector it names, and no other, exactly when the sector number has at most
28 bits.  The drive is any that `ata_pio_init` accepts, in any state it may be in later. -/
theorem write_addresses_sector_iff (dev : AtaDevice) (probe : Port) (blk : BlockDevice)
    (accepted : (ataPioInit dev probe).1 = some blk) (s : ℕ) (below : s < blk.totalSectors) :
    (∀ p : Port, p.drive.identity = probe.drive.identity → ∀ buffer,
      (∀ count, ∃ new,
        (ataWriteLba28 blk.device (s % 2 ^ 32) count buffer p).2.drive.commands =
            p.drive.commands ++ new ∧ ∀ c ∈ new, c.lba = s) ∧
      ∃ result p', Converges (blkdevWrite blk s 1 buffer p) (result, p') ∧
        ∀ t ≠ s, p'.drive.medium t = p.drive.medium t) ↔
    s < 2 ^ 28 := by
  obtain ⟨found, rfl⟩ : ∃ found, registered found = blk := by
    unfold ataPioInit at accepted
    dsimp only at accepted
    split_ifs at accepted
    exact ⟨_, Option.some.inj accepted⟩
  have address : s % 2 ^ 32 % 2 ^ 28 = s % 2 ^ 28 := Nat.mod_mod_of_dvd s (by norm_num)
  constructor
  · intro property
    obtain ⟨commands, -⟩ := property (blankDisk probe.drive.identity) rfl 0
    obtain ⟨new, new_eq, named⟩ := commands 1
    obtain ⟨new', new_eq', programmed, issued⟩ :=
      ataWriteLba28_commands found (s % 2 ^ 32) 1 0 (blankDisk probe.drive.identity)
    obtain rfl : new = new' := List.append_cancel_left (new_eq.symm.trans new_eq')
    obtain ⟨c, hc⟩ := List.exists_mem_of_ne_nil _ (issued readyStatus_obliging)
    have equal : s = s % 2 ^ 28 := (named c hc).symm.trans ((programmed c hc).trans address)
    omega
  · intro small p _ buffer
    have same : s % 2 ^ 32 % 2 ^ 28 = s := by omega
    constructor
    · intro count
      obtain ⟨new, new_eq, programmed, -⟩ :=
        ataWriteLba28_commands found (s % 2 ^ 32) count buffer p
      exact ⟨new, new_eq, fun c hc => (programmed c hc).trans same⟩
    · refine ⟨_, _, blkdevWrite_one found below buffer p, fun t other => ?_⟩
      have frame := (ataWriteLba28_medium found (s % 2 ^ 32) buffer (by omega : 1 < 256) p).1 t
      rw [same] at frame
      exact frame (by omega)

/-- `IDENTIFY` of a disk with one sector more than 28 bits can count. -/
def hugeIdentity : ℕ → UInt16 := fun word =>
  if word = 100 then 1 else if word = 101 then 4096 else 0

def hugeDevice : BlockDevice := registered ⟨0, 2 ^ 28 + 1, true⟩

theorem hugeDevice_accepted :
    (ataPioInit master (blankDisk hugeIdentity)).1 = some hugeDevice := by decide +kernel

theorem last_addressable_sector :
    (ataPioInit master (blankDisk hugeIdentity)).1 = some hugeDevice ∧
      2 ^ 28 - 1 < hugeDevice.totalSectors ∧
      ∃ result p',
        Converges (blkdevWrite hugeDevice (2 ^ 28 - 1) 1 0 (blankDisk hugeIdentity)) (result, p') ∧
          ∀ t ≠ 2 ^ 28 - 1, p'.drive.medium t = (blankDisk hugeIdentity).drive.medium t := by
  refine ⟨hugeDevice_accepted, by decide, ?_⟩
  have property := (write_addresses_sector_iff master (blankDisk hugeIdentity) hugeDevice
    hugeDevice_accepted (2 ^ 28 - 1) (by decide)).mpr (by norm_num)
  exact (property (blankDisk hugeIdentity) rfl 0).2

/-- A disk with the same sectors and a buffer of ones in memory. -/
def hugeDisk : Port := { blankDisk hugeIdentity with mem := fun _ => 0xFF }

/-- Writing sector 2^28 of an accepted disk succeeds and overwrites sector 0. -/
theorem write_wraps_to_sector_zero :
    (ataPioInit master (blankDisk hugeIdentity)).1 = some hugeDevice ∧
      2 ^ 28 < hugeDevice.totalSectors ∧
      ∃ p', Converges (blkdevWrite hugeDevice (2 ^ 28) 1 0 hugeDisk) (0, p') ∧
        hugeDisk.drive.medium 0 0 = 0 ∧ p'.drive.medium 0 0 = 0xFFFF := by
  refine ⟨hugeDevice_accepted, by decide, ?_⟩
  have success := (ataWriteLba28_serves hugeDevice.device (2 ^ 28 % 2 ^ 32) 1 0 hugeDisk
    readyStatus_obliging).1
  have ends := blkdevWrite_one hugeDevice.device (by decide : 2 ^ 28 < hugeDevice.totalSectors) 0
    hugeDisk
  rw [success] at ends
  refine ⟨_, ends, rfl, ?_⟩
  have stored := (ataWriteLba28_medium hugeDevice.device (2 ^ 28 % 2 ^ 32) 0 (by omega : 1 < 256)
    hugeDisk).2 success 0 (by omega) 0 (by omega)
  have ones : UInt16.ofNat (hugeDisk.mem.le16 (0 + 512 * 0 + 2 * 0)) = 0xFFFF := by decide
  rw [ones, show 2 ^ 28 % 2 ^ 32 % 2 ^ 28 + 0 = 0 from rfl] at stored
  exact stored

end Thuban.Ata
