import Mathlib
import Thuban.Lib.Bytes
import Thuban.Lib.Fuel

/-!
# The ATA driver

`drivers/storage/ata_pio.c` with the drive it talks to, and the part of `kernel/disk/blkdev.c` that
calls it.  A drive is its task-file registers, the transfer in progress and the medium; a command
starts a transfer at the 28-bit address that the registers hold.  What the drive answers when its
status is polled is input (`status`), so a drive may be slow, fail or never answer.

`ata_read_lba28` and `ata_write_lba28` share one body, `ataLba28`, and so do the loops above them.
Every call of the two is noted in `calls`, every command the drive receives in `commands`.
-/

namespace Thuban.Ata

open Lib

def statusErr : UInt8 := 0x01
def statusDrq : UInt8 := 0x08
def statusBsy : UInt8 := 0x80

def cmdReadPio : UInt8 := 0x20
def cmdWritePio : UInt8 := 0x30
def cmdCacheFlush : UInt8 := 0xE7
def cmdIdentify : UInt8 := 0xEC

/-! ## The drive -/

inductive Reg
  | seccount | lbalo | lbamid | lbahi | drive | command
  deriving DecidableEq

/-- The data transfer in progress.  A sector transfer knows its sector, the number of sectors left
and the next word of the sector. -/
inductive Transfer
  | idle
  | identify (word : ℕ)
  | reading (lba left word : ℕ)
  | writing (lba left word : ℕ)
  deriving DecidableEq

/-- A command with the address the registers held when it arrived. -/
structure Command where
  code : UInt8
  lba : ℕ
  deriving DecidableEq

structure Drive where
  seccount : UInt8
  lbalo : UInt8
  lbamid : UInt8
  lbahi : UInt8
  drive : UInt8
  transfer : Transfer
  /-- The words that `IDENTIFY` returns. -/
  identity : ℕ → UInt16
  /-- What `IDENTIFY` leaves in the middle and high address registers; 0 for an ATA disk. -/
  signature : UInt8 × UInt8
  /-- The words of each sector. -/
  medium : ℕ → ℕ → UInt16
  /-- The status register at each time it is read. -/
  status : ℕ → UInt8
  clock : ℕ
  commands : List Command

namespace Drive

/-- The 28-bit address in the registers. -/
def lba (d : Drive) : ℕ :=
  d.lbalo.toNat + 2 ^ 8 * d.lbamid.toNat + 2 ^ 16 * d.lbahi.toNat + 2 ^ 24 * (d.drive.toNat % 16)

/-- The length of a transfer; 0 stands for 256 sectors. -/
def sectorCount (d : Drive) : ℕ := if d.seccount = 0 then 256 else d.seccount.toNat

def execute (code : UInt8) (d : Drive) : Drive :=
  let d := { d with commands := d.commands ++ [Command.mk code d.lba] }
  if code = cmdReadPio then { d with transfer := .reading d.lba d.sectorCount 0 }
  else if code = cmdWritePio then { d with transfer := .writing d.lba d.sectorCount 0 }
  else if code = cmdIdentify then
    { d with lbamid := d.signature.1, lbahi := d.signature.2, transfer := .identify 0 }
  else { d with transfer := .idle }

/-- The position after one more word of a sector transfer. -/
def advance (resume : ℕ → ℕ → ℕ → Transfer) (lba left word : ℕ) : Transfer :=
  if word + 1 < 256 then resume lba left (word + 1)
  else if left ≤ 1 then .idle
  else resume (lba + 1) (left - 1) 0

/-- A word read from the data register; reading without a transfer yields nothing of meaning. -/
def dataOut (d : Drive) : UInt16 × Drive :=
  match d.transfer with
  | .identify word =>
      (d.identity word,
        { d with transfer := if word + 1 < 256 then .identify (word + 1) else .idle })
  | .reading lba left word =>
      (d.medium lba word, { d with transfer := advance .reading lba left word })
  | .idle => (0, d)
  | .writing _ _ _ => (0, d)

def dataIn (value : UInt16) (d : Drive) : Drive :=
  match d.transfer with
  | .writing lba left word =>
      { d with
        medium := Function.update d.medium lba (Function.update (d.medium lba) word value)
        transfer := advance .writing lba left word }
  | .idle => d
  | .identify _ => d
  | .reading _ _ _ => d

end Drive

/-! ## The driver -/

/-- A call of `ata_read_lba28` or `ata_write_lba28`. -/
structure Call where
  lba : ℕ
  count : ℕ
  buffer : ℕ
  deriving DecidableEq

/-- What the driver works on: the drive, the memory of the kernel, and the calls so far. -/
structure Port where
  drive : Drive
  mem : Bytes
  calls : List Call

/-- `struct ata_device`: which of the two drives of its bus it is, and its capacity. -/
structure AtaDevice where
  drive : ℕ
  sectors : ℕ
  lba48 : Bool
  deriving DecidableEq

namespace Port

def outb (r : Reg) (v : UInt8) (p : Port) : Port :=
  match r with
  | .seccount => { p with drive := { p.drive with seccount := v } }
  | .lbalo => { p with drive := { p.drive with lbalo := v } }
  | .lbamid => { p with drive := { p.drive with lbamid := v } }
  | .lbahi => { p with drive := { p.drive with lbahi := v } }
  | .drive => { p with drive := { p.drive with drive := v } }
  | .command => { p with drive := p.drive.execute v }

/-- The status register, and time passes. -/
def inbStatus (p : Port) : UInt8 × Port :=
  (p.drive.status p.drive.clock, { p with drive := { p.drive with clock := p.drive.clock + 1 } })

/-- Four reads of the alternate status register. -/
def ataDelay400ns (p : Port) : Port :=
  { p with drive := { p.drive with clock := p.drive.clock + 4 } }

/-- `ata_wait_ready` with `timeout` polls left; `true` when the drive is ready. -/
def waitReady : ℕ → Port → Bool × Port
  | 0, p => (false, p)
  | timeout + 1, p =>
      if p.inbStatus.1 &&& statusBsy = 0 then (true, p.inbStatus.2)
      else waitReady timeout p.inbStatus.2

/-- `ata_wait_drq` with `timeout` polls left; `true` when the drive asks for data. -/
def waitDrq : ℕ → Port → Bool × Port
  | 0, p => (false, p)
  | timeout + 1, p =>
      if p.inbStatus.1 &&& statusDrq ≠ 0 then (true, p.inbStatus.2)
      else if p.inbStatus.1 &&& statusErr ≠ 0 then (false, p.inbStatus.2)
      else waitDrq timeout p.inbStatus.2

def ataWaitReady (timeoutMs : ℕ) (p : Port) : Bool × Port := waitReady (timeoutMs * 1000) p

def ataWaitDrq (timeoutMs : ℕ) (p : Port) : Bool × Port := waitDrq (timeoutMs * 1000) p

/-- `count` words from the data register into memory. -/
def ataReadBuffer (buffer : ℕ) : ℕ → Port → Port
  | 0, p => p
  | count + 1, p =>
      let p := ataReadBuffer buffer count p
      let word := p.drive.dataOut
      { p with drive := word.2, mem := p.mem.put16 (buffer + 2 * count) word.1.toNat }

/-- `count` words from memory to the data register. -/
def ataWriteBuffer (buffer : ℕ) : ℕ → Port → Port
  | 0, p => p
  | count + 1, p =>
      let p := ataWriteBuffer buffer count p
      { p with drive := p.drive.dataIn (UInt16.ofNat (p.mem.le16 (buffer + 2 * count))) }

/-- The words of `IDENTIFY`, read off the data register. -/
def identifyWords : ℕ → Port → List UInt16 × Port
  | 0, p => ([], p)
  | count + 1, p =>
      let r := identifyWords count p
      let word := r.2.drive.dataOut
      (r.1 ++ [word.1], { r.2 with drive := word.2 })

def program (dev : AtaDevice) (lba count : ℕ) (command : UInt8) (p : Port) : Port :=
  let driveBits : UInt8 := if dev.drive = 0 then 0xE0 else 0xF0
  let p := p.outb .drive (driveBits ||| UInt8.ofNat (lba >>> 24 &&& 0x0F))
  let p := p.outb .seccount (UInt8.ofNat count)
  let p := p.outb .lbalo (UInt8.ofNat lba)
  let p := p.outb .lbamid (UInt8.ofNat (lba >>> 8))
  let p := p.outb .lbahi (UInt8.ofNat (lba >>> 16))
  (p.outb .command command).ataDelay400ns

/-- The loop over the sectors of one command; `true` when the drive asked for every sector. -/
def sectorLoop (transfer : ℕ → ℕ → Port → Port) : ℕ → ℕ → Port → Bool × Port
  | 0, _, p => (true, p)
  | count + 1, buffer, p =>
      let drq := p.ataWaitDrq 1000
      if drq.1 then sectorLoop transfer count (buffer + 512) (transfer buffer 256 drq.2)
      else (false, drq.2)

end Port

open Port

/-- The common body of `ata_read_lba28` and `ata_write_lba28`: they differ in the command, the
direction of the data and in what follows a complete transfer. -/
def ataLba28 (command : UInt8) (transfer : ℕ → ℕ → Port → Port) (finish : Port → Port)
    (dev : AtaDevice) (lba count buffer : ℕ) (p : Port) : ℤ × Port :=
  let p := { p with calls := p.calls ++ [Call.mk lba count buffer] }
  let ready := p.ataWaitReady 1000
  if ready.1 then
    let sectors := sectorLoop transfer count buffer (ready.2.program dev lba count command)
    if sectors.1 then (0, finish sectors.2) else (-1, sectors.2)
  else (-1, ready.2)

def ataReadLba28 : AtaDevice → ℕ → ℕ → ℕ → Port → ℤ × Port :=
  ataLba28 cmdReadPio ataReadBuffer id

/-- A complete write is followed by a flush of the drive's cache. -/
def ataWriteLba28 : AtaDevice → ℕ → ℕ → ℕ → Port → ℤ × Port :=
  ataLba28 cmdWritePio ataWriteBuffer fun p => ((p.outb .command cmdCacheFlush).ataWaitReady 1000).2

/-- The common body of `ata_blkdev_read` and `ata_blkdev_write`.  The chunk is a `uint8_t`, the
sector a `uint64_t` that `ata_read_lba28` and `ata_write_lba28` take as a `uint32_t`. -/
def ataBlkdev (lba28 : ℕ → ℕ → ℕ → Port → ℤ × Port) :
    ℕ → ℕ → ℕ → ℕ → Port → Option (ℤ × Port)
  | 0, _, _, _, _ => none
  | fuel + 1, sector, count, buffer, p =>
      if count = 0 then some (0, p)
      else
        let chunk := (if 256 < count then 255 else count) % 2 ^ 8
        let r := lba28 (sector % 2 ^ 32) chunk buffer p
        if r.1 ≠ 0 then some (-1, r.2)
        else ataBlkdev lba28 fuel ((sector + chunk) % 2 ^ 64) (count - chunk)
          (buffer + chunk * 512) r.2

def ataBlkdevRead (dev : AtaDevice) (sector count buffer : ℕ) (p : Port) (fuel : ℕ) :
    Option (ℤ × Port) :=
  ataBlkdev (ataReadLba28 dev) fuel sector count buffer p

def ataBlkdevWrite (dev : AtaDevice) (sector count buffer : ℕ) (p : Port) (fuel : ℕ) :
    Option (ℤ × Port) :=
  ataBlkdev (ataWriteLba28 dev) fuel sector count buffer p

/-! ## Identification and the block layer -/

/-- `lba28_sectors`, words 60 and 61. -/
def lba28Sectors (words : List UInt16) : ℕ :=
  (words.getD 60 0).toNat + 2 ^ 16 * (words.getD 61 0).toNat

/-- `lba48_sectors`, words 100 to 103. -/
def lba48Sectors (words : List UInt16) : ℕ :=
  (words.getD 100 0).toNat + 2 ^ 16 * (words.getD 101 0).toNat +
    2 ^ 32 * (words.getD 102 0).toNat + 2 ^ 48 * (words.getD 103 0).toNat

/-- `ata_identify`: 0 and the device with its capacity, or -1. -/
def ataIdentify (dev : AtaDevice) (p : Port) : ℤ × AtaDevice × Port :=
  let p := (p.outb .drive (if dev.drive = 0 then 0xA0 else 0xB0)).ataDelay400ns
  let p := p.outb .seccount 0
  let p := p.outb .lbalo 0
  let p := p.outb .lbamid 0
  let p := p.outb .lbahi 0
  let p := (p.outb .command cmdIdentify).ataDelay400ns
  let status := p.inbStatus
  if status.1 = 0 then (-1, dev, status.2)
  else if status.1 = 0xFF then (-1, dev, status.2)
  else
    let ready := status.2.ataWaitReady 1000
    if !ready.1 then (-1, dev, ready.2)
    else if ready.2.drive.lbamid ≠ 0 ∨ ready.2.drive.lbahi ≠ 0 then (-1, dev, ready.2)
    else
      let drq := ready.2.ataWaitDrq 1000
      if !drq.1 then (-1, dev, drq.2)
      else
        let words := drq.2.identifyWords 256
        if 0 < lba48Sectors words.1 then
          (0, { dev with sectors := lba48Sectors words.1, lba48 := true }, words.2)
        else (0, { dev with sectors := lba28Sectors words.1, lba48 := false }, words.2)

/-- What `ata_pio_init` passes to `blkdev_register`, and the flags the block layer keeps. -/
structure BlockDevice where
  totalSectors : ℕ
  present : Bool
  readonly : Bool
  device : AtaDevice
  deriving DecidableEq

def registered (dev : AtaDevice) : BlockDevice := ⟨dev.sectors, true, false, dev⟩

/-- The round of `ata_pio_init` for one drive: the block device it registers, if any. -/
def ataPioInit (dev : AtaDevice) (p : Port) : Option BlockDevice × Port :=
  let r := ataIdentify dev p
  if r.1 = 0 then (some (registered r.2.1), r.2.2) else (none, r.2.2)

/-- `blkdev_write` of a buffer that is not NULL. -/
def blkdevWrite (dev : BlockDevice) (sector count buffer : ℕ) (p : Port) (fuel : ℕ) :
    Option (ℤ × Port) :=
  if count = 0 then some (-1, p)
  else if !dev.present then some (-1, p)
  else if dev.readonly then some (-1, p)
  else if dev.totalSectors ≤ sector then some (-1, p)
  else
    let count := if dev.totalSectors < (sector + count) % 2 ^ 64 then
      (dev.totalSectors - sector) % 2 ^ 32 else count
    ataBlkdevWrite dev.device sector count buffer p fuel

/-! ## What the driver leaves alone -/

/-- The parts of a port that no access to the drive changes. -/
structure Frame (p p' : Port) : Prop where
  status : p'.drive.status = p.drive.status
  calls : p'.calls = p.calls

theorem Frame.refl (p : Port) : Frame p p := ⟨rfl, rfl⟩

variable {p : Port} {timeout : ℕ}

theorem Frame.trans {q r : Port} (first : Frame p q) (second : Frame q r) : Frame p r :=
  ⟨second.status.trans first.status, second.calls.trans first.calls⟩

theorem execute_status (code : UInt8) (d : Drive) : (d.execute code).status = d.status := by
  unfold Drive.execute
  split_ifs <;> rfl

theorem outb_frame (r : Reg) (v : UInt8) (p : Port) : Frame p (p.outb r v) := by
  cases r with
  | command => exact ⟨execute_status _ _, rfl⟩
  | _ => exact ⟨rfl, rfl⟩

theorem dataOut_status (d : Drive) : d.dataOut.2.status = d.status := by
  unfold Drive.dataOut
  split <;> rfl

theorem dataIn_status (value : UInt16) (d : Drive) : (d.dataIn value).status = d.status := by
  unfold Drive.dataIn
  split <;> rfl

theorem waitReady_clock (timeout : ℕ) (p : Port) :
    ∃ clock, (p.waitReady timeout).2 = { p with drive := { p.drive with clock := clock } } := by
  induction timeout generalizing p with
  | zero => exact ⟨p.drive.clock, rfl⟩
  | succ timeout ih =>
    unfold waitReady
    split
    · exact ⟨_, rfl⟩
    · exact ih p.inbStatus.2

theorem waitDrq_clock (timeout : ℕ) (p : Port) :
    ∃ clock, (p.waitDrq timeout).2 = { p with drive := { p.drive with clock := clock } } := by
  induction timeout generalizing p with
  | zero => exact ⟨p.drive.clock, rfl⟩
  | succ timeout ih =>
    unfold waitDrq
    split_ifs
    · exact ⟨_, rfl⟩
    · exact ⟨_, rfl⟩
    · exact ih p.inbStatus.2

theorem ataWaitReady_clock (timeoutMs : ℕ) (p : Port) :
    ∃ clock, (p.ataWaitReady timeoutMs).2 = { p with drive := { p.drive with clock := clock } } :=
  waitReady_clock (timeoutMs * 1000) p

theorem ataWaitDrq_clock (timeoutMs : ℕ) (p : Port) :
    ∃ clock, (p.ataWaitDrq timeoutMs).2 = { p with drive := { p.drive with clock := clock } } :=
  waitDrq_clock (timeoutMs * 1000) p

theorem ataWaitReady_frame (timeoutMs : ℕ) (p : Port) : Frame p (p.ataWaitReady timeoutMs).2 := by
  obtain ⟨clock, equal⟩ := ataWaitReady_clock timeoutMs p
  rw [equal]
  exact ⟨rfl, rfl⟩

theorem ataWaitDrq_frame (timeoutMs : ℕ) (p : Port) : Frame p (p.ataWaitDrq timeoutMs).2 := by
  obtain ⟨clock, equal⟩ := ataWaitDrq_clock timeoutMs p
  rw [equal]
  exact ⟨rfl, rfl⟩

theorem ataReadBuffer_frame (buffer count : ℕ) (p : Port) :
    Frame p (p.ataReadBuffer buffer count) := by
  induction count with
  | zero => exact .refl p
  | succ count ih => exact ih.trans ⟨dataOut_status _, rfl⟩

theorem ataWriteBuffer_frame (buffer count : ℕ) (p : Port) :
    Frame p (p.ataWriteBuffer buffer count) := by
  induction count with
  | zero => exact .refl p
  | succ count ih => exact ih.trans ⟨dataIn_status _ _, rfl⟩

theorem program_frame (dev : AtaDevice) (lba count : ℕ) (command : UInt8) (p : Port) :
    Frame p (p.program dev lba count command) := by
  refine Frame.trans (Frame.trans ?_ (outb_frame .command command _)) ⟨rfl, rfl⟩
  exact ⟨rfl, rfl⟩

/-! ## Drives that always answer -/

/-- A drive that accepts every command and never reports an error or times out: whenever it is
polled, within the million polls the driver makes its busy bit clears, and its data-request bit
is set before an error bit. -/
structure Obliging (status : ℕ → UInt8) : Prop where
  ready : ∀ time, ∃ j < 1000000, status (time + j) &&& statusBsy = 0
  requests : ∀ time, ∃ j < 1000000, status (time + j) &&& statusDrq ≠ 0 ∧
    ∀ i < j, status (time + i) &&& statusErr = 0

theorem waitReady_succeeds
    (ready : ∃ j < timeout, p.drive.status (p.drive.clock + j) &&& statusBsy = 0) :
    (p.waitReady timeout).1 = true := by
  induction timeout generalizing p with
  | zero =>
    obtain ⟨j, impossible, -⟩ := ready
    exact absurd impossible (Nat.not_lt_zero j)
  | succ timeout ih =>
    unfold waitReady
    by_cases now : p.inbStatus.1 &&& statusBsy = 0
    · rw [if_pos now]
    · rw [if_neg now]
      apply ih
      obtain ⟨j, hj, clear⟩ := ready
      obtain ⟨k, rfl⟩ : ∃ k, j = k + 1 := by
        refine Nat.exists_eq_succ_of_ne_zero ?_
        rintro rfl
        exact now clear
      refine ⟨k, by omega, ?_⟩
      rw [Nat.add_comm k, ← Nat.add_assoc] at clear
      exact clear

theorem waitDrq_succeeds
    (requests : ∃ j < timeout, p.drive.status (p.drive.clock + j) &&& statusDrq ≠ 0 ∧
      ∀ i < j, p.drive.status (p.drive.clock + i) &&& statusErr = 0) :
    (p.waitDrq timeout).1 = true := by
  induction timeout generalizing p with
  | zero =>
    obtain ⟨j, impossible, -⟩ := requests
    exact absurd impossible (Nat.not_lt_zero j)
  | succ timeout ih =>
    unfold waitDrq
    by_cases now : p.inbStatus.1 &&& statusDrq ≠ 0
    · rw [if_pos now]
    · obtain ⟨j, hj, set, clean⟩ := requests
      obtain ⟨k, rfl⟩ : ∃ k, j = k + 1 := by
        refine Nat.exists_eq_succ_of_ne_zero ?_
        rintro rfl
        exact now set
      have error : ¬ p.inbStatus.1 &&& statusErr ≠ 0 := not_not.mpr (clean 0 (by omega))
      rw [if_neg now, if_neg error]
      apply ih
      refine ⟨k, by omega, ?_, fun i hi => ?_⟩
      · rw [Nat.add_comm k, ← Nat.add_assoc] at set
        exact set
      · have := clean (i + 1) (by omega)
        rw [Nat.add_comm i, ← Nat.add_assoc] at this
        exact this

theorem ataWaitReady_succeeds (obliging : Obliging p.drive.status) :
    (p.ataWaitReady 1000).1 = true :=
  waitReady_succeeds (obliging.ready _)

theorem ataWaitDrq_succeeds (obliging : Obliging p.drive.status) : (p.ataWaitDrq 1000).1 = true :=
  waitDrq_succeeds (obliging.requests _)

section Calls

variable {command : UInt8} {transfer : ℕ → ℕ → Port → Port} {finish : Port → Port}

section

variable (quiet : ∀ buffer n p, Frame p (transfer buffer n p))

include quiet

theorem sectorLoop_frame (count : ℕ) (buffer : ℕ) (p : Port) :
    Frame p (sectorLoop transfer count buffer p).2 := by
  induction count generalizing buffer p with
  | zero => exact .refl p
  | succ count ih =>
    have waited : Frame p (p.ataWaitDrq 1000).2 := ataWaitDrq_frame _ p
    unfold sectorLoop
    dsimp only
    split_ifs
    · exact (waited.trans (quiet _ _ _)).trans (ih _ _)
    · exact waited

theorem sectorLoop_succeeds {p : Port} (obliging : Obliging p.drive.status) (count buffer : ℕ) :
    (sectorLoop transfer count buffer p).1 = true := by
  induction count generalizing buffer p with
  | zero => rfl
  | succ count ih =>
    have drq : (p.ataWaitDrq 1000).1 = true := ataWaitDrq_succeeds obliging
    have next := (ataWaitDrq_frame 1000 p).trans (quiet buffer 256 (p.ataWaitDrq 1000).2)
    unfold sectorLoop
    rw [if_pos drq]
    apply ih
    rw [next.status]
    exact obliging

theorem ataLba28_succeeds (still : ∀ p, Frame p (finish p)) (dev : AtaDevice) (lba count buffer : ℕ)
    {p : Port} (obliging : Obliging p.drive.status) :
    (ataLba28 command transfer finish dev lba count buffer p).1 = 0 ∧
      (ataLba28 command transfer finish dev lba count buffer p).2.drive.status = p.drive.status ∧
      (ataLba28 command transfer finish dev lba count buffer p).2.calls =
        p.calls ++ [⟨lba, count, buffer⟩] := by
  set noted : Port := { p with calls := p.calls ++ [Call.mk lba count buffer] } with hnoted
  have ready : (noted.ataWaitReady 1000).1 = true := ataWaitReady_succeeds obliging
  set started := (noted.ataWaitReady 1000).2.program dev lba count command with hstarted
  have start : Frame noted started := (ataWaitReady_frame 1000 noted).trans
    (program_frame dev lba count command _)
  have complete : (sectorLoop transfer count buffer started).1 = true := by
    apply sectorLoop_succeeds quiet
    rw [start.status]
    exact obliging
  have whole : Frame noted (finish (sectorLoop transfer count buffer started).2) :=
    (start.trans (sectorLoop_frame quiet count buffer started)).trans (still _)
  have result : ataLba28 command transfer finish dev lba count buffer p =
      (0, finish (sectorLoop transfer count buffer started).2) := by
    unfold ataLba28
    rw [← hnoted, if_pos ready, ← hstarted, if_pos complete]
  rw [result]
  exact ⟨rfl, whole.status, whole.calls⟩

end

end Calls

/-- What the loops need of the calls they make on an obliging drive. -/
def Serves (lba28 : ℕ → ℕ → ℕ → Port → ℤ × Port) : Prop :=
  ∀ lba count buffer p, Obliging p.drive.status →
    (lba28 lba count buffer p).1 = 0 ∧
      (lba28 lba count buffer p).2.drive.status = p.drive.status ∧
      (lba28 lba count buffer p).2.calls = p.calls ++ [⟨lba, count, buffer⟩]

theorem ataReadLba28_serves (dev : AtaDevice) : Serves (ataReadLba28 dev) :=
  fun lba count buffer _ obliging =>
    ataLba28_succeeds ataReadBuffer_frame Frame.refl dev lba count buffer obliging

theorem ataWriteLba28_serves (dev : AtaDevice) : Serves (ataWriteLba28 dev) :=
  fun lba count buffer _ obliging =>
    ataLba28_succeeds ataWriteBuffer_frame
      (fun p => (outb_frame .command cmdCacheFlush p).trans (ataWaitReady_frame _ _))
      dev lba count buffer obliging

/-! ## Coverage of a request -/

/-- The sectors a call transfers, with the buffer slots it transfers them from or to. -/
def Call.slots (c : Call) : List (ℕ × ℕ) :=
  (List.range c.count).map fun i => (c.lba + i, c.buffer + 512 * i)

/-- The calls transfer `count` sectors from `sector` on, each once and in order, and the slots of
the buffer follow one another. -/
def Covers (sector count buffer : ℕ) (calls : List Call) : Prop :=
  calls.flatMap Call.slots = (List.range count).map fun i => (sector + i, buffer + 512 * i)

/-- The loop comes to a remaining count of 256, whose `uint8_t` is 0. -/
def Stalls (count : ℕ) : Prop := 256 ≤ count ∧ count % 255 = 1

instance (count : ℕ) : Decidable (Stalls count) := inferInstanceAs (Decidable (_ ∧ _))

/-- The first sector of the last chunk is a 32-bit number. -/
def Reaches (sector count : ℕ) : Prop := count = 0 ∨ sector + 255 * ((count - 1) / 255) < 2 ^ 32

instance (sector count : ℕ) : Decidable (Reaches sector count) :=
  inferInstanceAs (Decidable (_ ∨ _))

section Coverage

variable {lba28 : ℕ → ℕ → ℕ → Port → ℤ × Port}

variable {p : Port} {count chunk : ℕ}

theorem ataBlkdev_round (serves : Serves lba28) (obliging : Obliging p.drive.status)
    (more : count ≠ 0) (fuel sector buffer : ℕ)
    (chunk_eq : (if 256 < count then 255 else count) % 2 ^ 8 = chunk) :
    ataBlkdev lba28 (fuel + 1) sector count buffer p =
      ataBlkdev lba28 fuel ((sector + chunk) % 2 ^ 64) (count - chunk) (buffer + chunk * 512)
        (lba28 (sector % 2 ^ 32) chunk buffer p).2 := by
  have served := (serves (sector % 2 ^ 32) chunk buffer p obliging).1
  simp only [ataBlkdev, if_neg more, chunk_eq, served, ne_eq, not_true_eq_false, if_false]

theorem ataBlkdev_stalls (serves : Serves lba28) (obliging : Obliging p.drive.status)
    (stalls : Stalls count) (fuel sector buffer : ℕ) :
    ataBlkdev lba28 fuel sector count buffer p = none := by
  induction fuel generalizing p count sector buffer with
  | zero => rfl
  | succ fuel ih =>
    have large : 256 ≤ count := stalls.1
    have residue : count % 255 = 1 := stalls.2
    -- the chunk is 0 when 256 sectors are left and 255 before
    by_cases last : count = 256
    · have chunk : (if 256 < count then 255 else count) % 2 ^ 8 = 0 := by
        rw [if_neg (by omega), last]
        rfl
      rw [ataBlkdev_round serves obliging (by omega) fuel sector buffer chunk]
      apply ih
      · rw [(serves _ _ _ p obliging).2.1]
        exact obliging
      · exact stalls
    · have chunk : (if 256 < count then 255 else count) % 2 ^ 8 = 255 := by
        rw [if_pos (by omega)]
        rfl
      rw [ataBlkdev_round serves obliging (by omega) fuel sector buffer chunk]
      apply ih
      · rw [(serves _ _ _ p obliging).2.1]
        exact obliging
      · exact ⟨by omega, by omega⟩

/-- The first call covers the beginning of the request exactly if its address is the right one. -/
theorem covers_cons_iff {sector buffer lba : ℕ} (positive : 0 < chunk) (inside : chunk ≤ count)
    (rest : List Call) :
    Covers sector count buffer (⟨lba, chunk, buffer⟩ :: rest) ↔
      lba = sector ∧ Covers (sector + chunk) (count - chunk) (buffer + chunk * 512) rest := by
  have split : (List.range count).map (fun i => (sector + i, buffer + 512 * i)) =
      (List.range chunk).map (fun i => (sector + i, buffer + 512 * i)) ++
        (List.range (count - chunk)).map
          (fun i => (sector + chunk + i, buffer + chunk * 512 + 512 * i)) := by
    obtain ⟨left, rfl⟩ := Nat.exists_eq_add_of_le inside
    rw [Nat.add_sub_cancel_left, List.range_add, List.map_append, List.map_map]
    congr 1
    apply List.map_congr_left
    intro i _
    simp only [Function.comp_apply, Prod.mk.injEq]
    omega
  unfold Covers
  rw [List.flatMap_cons, split]
  constructor
  · intro equal
    have lengths : (Call.slots ⟨lba, chunk, buffer⟩).length =
        ((List.range chunk).map fun i => (sector + i, buffer + 512 * i)).length := by
      simp [Call.slots]
    obtain ⟨first, others⟩ := List.append_inj equal lengths
    refine ⟨?_, others⟩
    have head := congrArg (fun l : List (ℕ × ℕ) => (l.head?).map Prod.fst) first
    obtain ⟨n, rfl⟩ : ∃ n, chunk = n + 1 := ⟨chunk - 1, by omega⟩
    simpa [Call.slots, List.range_succ_eq_map] using head
  · rintro ⟨rfl, others⟩
    rw [others]
    rfl

/-- A request that does not stall ends, and its calls cover it exactly if every address they pass
fits into 32 bits. -/
theorem ataBlkdev_ends (serves : Serves lba28) (obliging : Obliging p.drive.status)
    (flows : ¬ Stalls count) (sector buffer : ℕ) :
    ∃ p' calls, Converges (ataBlkdev lba28 · sector count buffer p) (0, p') ∧
      p'.calls = p.calls ++ calls ∧ (Covers sector count buffer calls ↔ Reaches sector count) := by
  induction count using Nat.strongRecOn generalizing p sector buffer with
  | _ count ih =>
    by_cases empty : count = 0
    · subst empty
      refine ⟨p, [], .step (fun _ => rfl) (.const fun _ => rfl), by simp, ?_⟩
      simp [Covers, Reaches]
    · -- the chunk of this round, which is not 0
      obtain ⟨chunk, chunk_eq, positive, inside, rounds⟩ : ∃ chunk,
          (if 256 < count then 255 else count) % 2 ^ 8 = chunk ∧ 0 < chunk ∧ chunk ≤ count ∧
            (chunk = count ∧ count ≤ 255 ∨ chunk = 255 ∧ 256 < count) := by
        unfold Stalls at flows
        by_cases large : 256 < count
        · exact ⟨255, by simp [large], by omega, by omega, .inr ⟨rfl, large⟩⟩
        · refine ⟨count, ?_, by omega, le_rfl, .inl ⟨rfl, ?_⟩⟩
          · rw [if_neg large]
            omega
          · omega
      obtain ⟨-, status, noted⟩ := serves (sector % 2 ^ 32) chunk buffer p obliging
      have flows' : ¬ Stalls (count - chunk) := by
        unfold Stalls at flows ⊢
        omega
      rw [← status] at obliging
      obtain ⟨p', calls, ends, calls_eq, covered⟩ := ih (count - chunk) (by omega) obliging flows'
        ((sector + chunk) % 2 ^ 64) (buffer + chunk * 512)
      refine ⟨p', ⟨sector % 2 ^ 32, chunk, buffer⟩ :: calls, ?_, ?_, ?_⟩
      · rw [status] at obliging
        exact ends.step fun fuel =>
          ataBlkdev_round serves obliging empty fuel sector buffer chunk_eq
      · rw [calls_eq, noted, List.append_assoc, List.singleton_append]
      · rw [covers_cons_iff positive inside]
        unfold Reaches at covered ⊢
        constructor
        · rintro ⟨address, others⟩
          rw [Nat.mod_eq_of_lt (by omega)] at covered
          have := covered.mp others
          omega
        · intro reaches
          have small : sector < 2 ^ 32 := by omega
          refine ⟨Nat.mod_eq_of_lt small, ?_⟩
          rw [Nat.mod_eq_of_lt (by omega)] at covered
          apply covered.mpr
          omega

theorem ataBlkdev_covers_iff (serves : Serves lba28) (obliging : Obliging p.drive.status)
    (sector count buffer : ℕ) :
    (∃ p' calls, Converges (ataBlkdev lba28 · sector count buffer p) (0, p') ∧
        p'.calls = p.calls ++ calls ∧ Covers sector count buffer calls) ↔
      ¬ Stalls count ∧ Reaches sector count := by
  constructor
  · rintro ⟨p', calls, ends, calls_eq, covers⟩
    have flows : ¬ Stalls count := by
      intro stalls
      obtain ⟨bound, answer⟩ := ends
      have none_some := (ataBlkdev_stalls serves obliging stalls bound sector buffer).symm.trans
        (answer bound le_rfl)
      exact absurd none_some (by simp)
    obtain ⟨p'', calls', ends', calls_eq', covered⟩ :=
      ataBlkdev_ends serves obliging flows sector buffer
    have same : p' = p'' := congrArg Prod.snd (ends.unique ends')
    rw [same, calls_eq'] at calls_eq
    obtain rfl : calls' = calls := List.append_cancel_left calls_eq
    exact ⟨flows, covered.mp covers⟩
  · rintro ⟨flows, reaches⟩
    obtain ⟨p', calls, ends, calls_eq, covered⟩ :=
      ataBlkdev_ends serves obliging flows sector buffer
    exact ⟨p', calls, ends, calls_eq, covered.mpr reaches⟩

end Coverage

/-- On a drive that never fails, `ata_blkdev_read` and `ata_blkdev_write` end and transfer exactly
the sectors asked for, exactly when the loop never comes to 256 remaining sectors and the sector
numbers it passes on fit into 32 bits. -/
theorem ata_requests_covered_iff (dev : AtaDevice) (p : Port) (obliging : Obliging p.drive.status)
    (sector count buffer : ℕ) :
    ((∃ p' calls, Converges (ataBlkdevRead dev sector count buffer p) (0, p') ∧
        p'.calls = p.calls ++ calls ∧ Covers sector count buffer calls) ∧
      ∃ p' calls, Converges (ataBlkdevWrite dev sector count buffer p) (0, p') ∧
        p'.calls = p.calls ++ calls ∧ Covers sector count buffer calls) ↔
    ¬ Stalls count ∧ Reaches sector count := by
  have read := ataBlkdev_covers_iff (ataReadLba28_serves dev) obliging sector count buffer
  have write := ataBlkdev_covers_iff (ataWriteLba28_serves dev) obliging sector count buffer
  exact ⟨fun both => read.mp both.1, fun fits => ⟨read.mpr fits, write.mpr fits⟩⟩

/-- A drive that is ready and asks for data at every poll. -/
def readyStatus : ℕ → UInt8 := fun _ => 0x48

theorem readyStatus_obliging : Obliging readyStatus := by
  have idle : (0x48 : UInt8) &&& statusBsy = 0 := by decide
  have requesting : (0x48 : UInt8) &&& statusDrq ≠ 0 := by decide
  exact ⟨fun _ => ⟨0, by omega, idle⟩, fun _ => ⟨0, by omega, requesting, by omega⟩⟩

/-- A blank disk that reports the capacity `words`. -/
def blankDisk (words : ℕ → UInt16) : Port where
  drive :=
    { seccount := 0, lbalo := 0, lbamid := 0, lbahi := 0, drive := 0, transfer := .idle,
      identity := words, signature := (0, 0), medium := fun _ _ => 0, status := readyStatus,
      clock := 0, commands := [] }
  mem := fun _ => 0
  calls := []

def master : AtaDevice := ⟨0, 0, false⟩

theorem ata_cluster_covered :
    ¬ Stalls 8 ∧ Reaches 2048 8 ∧
      ∃ p' calls, Converges (ataBlkdevWrite master 2048 8 0 (blankDisk fun _ => 0)) (0, p') ∧
        p'.calls = calls ∧ Covers 2048 8 0 calls := by
  refine ⟨by decide, by decide, ?_⟩
  have covered := (ata_requests_covered_iff master (blankDisk fun _ => 0) readyStatus_obliging
    2048 8 0).mpr ⟨by decide, by decide⟩
  exact covered.2

/-- Reading 256 sectors never ends, although the drive answers every poll. -/
theorem ata_read_256_never_ends :
    Obliging (blankDisk fun _ => 0).drive.status ∧
      ∀ fuel, ataBlkdevRead master 0 256 0 (blankDisk fun _ => 0) fuel = none :=
  ⟨readyStatus_obliging, fun fuel =>
    ataBlkdev_stalls (ataReadLba28_serves master) readyStatus_obliging (by decide) fuel 0 0⟩

end Thuban.Ata
