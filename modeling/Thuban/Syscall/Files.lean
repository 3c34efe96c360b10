import Thuban.Lib.Run
import Thuban.Vfs.Ancestors
import Thuban.Vfs.Descriptors
import Thuban.Drivers.Keyboard
import Thuban.Stdio.Terminal

/-!
# The file system calls

`sys_open`, `sys_close`, `sys_read` and `sys_write` of `kernel/user/syscall.c`.  Descriptors come from the
table of the virtual file system, and three numbers are taken for the keyboard and the console.  A
pointer is `none` when it is NULL.
-/

namespace Thuban.Syscall

open Lib (Bytes Run)
open Ps2 (Keyboard charToInt)
open Vfs (Entry Takes)

/-- What the calls work on.  `scancodes` are the codes that the keyboard will send while a call waits
for a key. -/
structure Kernel where
  vfs : Vfs
  terminal : Terminal
  keyboard : Keyboard
  scancodes : List UInt8

/-- `(int)fd`. -/
def toInt (fd : ℕ) : ℤ := (BitVec.ofNat 32 fd).toInt

/-- `getchar`: it halts until a key is there, so that it does not return when no key comes. -/
def getchar : (scancodes : List UInt8) → Keyboard → Option (ℤ × Keyboard × List UInt8)
  | scancodes, kb =>
    if Ps2.keyboardAvailable kb.kbBuffer ≠ 0 then
      match Ps2.keyboardGetchar kb.kbBuffer with
      | (c, buffer) => some (c, { kb with kbBuffer := buffer }, scancodes)
    else
      match scancodes with
      | [] => none
      | code :: later => getchar later (Ps2.step (.irq code) kb).2

/-- The loop of `sys_read_impl` over the keyboard, with `n` bytes to go behind `read` bytes. -/
def readKeys : (n read : ℕ) → Bytes → Kernel → Option (ℤ × Bytes × Kernel)
  | 0, read, dst, k => some (read, dst, k)
  | n + 1, read, dst, k =>
      (getchar k.scancodes k.keyboard).bind fun
        | (c, keyboard, scancodes) =>
            let k := { k with keyboard, scancodes }
            if c = -1 then some (read, dst, k)
            else
              let dst := Bytes.put dst read (UInt8.ofNat (c % 256).toNat)
              if c = 0x0A then some (read + 1, dst, k) else readKeys n (read + 1) dst k

/-- `sys_write_impl`. -/
def sysWriteImpl (fd : ℕ) (buf : Option Bytes) (count : ℕ) (fuel : ℕ) (k : Kernel) :
    Option (ℤ × Kernel) :=
  match buf with
  | none => some (-1, k)
  | some src =>
      if fd = 1 ∨ fd = 2 then
        let terminal := (List.range count).foldl
          (fun t i => (t.putchar (charToInt (src i))).2) k.terminal
        some ((BitVec.ofNat 64 count).toInt, { k with terminal })
      else (k.vfs.vfsWrite (toInt fd) src count fuel).map fun (n, vfs) => (n, { k with vfs })

/-- `sys_read_impl`. -/
def sysReadImpl (fd : ℕ) (buf : Option Bytes) (count : ℕ) (fuel : ℕ) (k : Kernel) :
    Option (ℤ × Option Bytes × Kernel) :=
  match buf with
  | none => some (-1, none, k)
  | some dst =>
      if count = 0 then some (-1, some dst, k)
      else if fd = 0 then
        (readKeys count 0 dst k).map fun (n, dst, k) => (n, some dst, k)
      else
        (k.vfs.vfsRead (toInt fd) dst count fuel).map fun (n, dst, vfs) =>
          (n, some dst, { k with vfs })

/-- `sys_open_impl`; `flags` and `mode` are cut to 32 bits. -/
def sysOpenImpl (path : Option CString) (flags mode : ℕ) (fuel : ℕ) (k : Kernel) :
    Option (ℤ × Kernel) :=
  match path with
  | none => some (-1, k)
  | some path =>
      (k.vfs.vfsOpen path (flags % 2 ^ 32) (mode % 2 ^ 32) fuel).map fun (fd, vfs) =>
        (fd, { k with vfs })

/-- `sys_close_impl`. -/
def sysCloseImpl (fd : ℕ) (k : Kernel) : ℤ × Kernel :=
  match k.vfs.vfsClose (toInt fd) with
  | (r, vfs) => (r, { k with vfs })

/-! ## Runs of system calls -/

inductive Call
  | openFile (path : CString) (flags mode : ℕ)
  | close (fd : ℕ)
  | read (fd : ℕ) (buf : Option Bytes) (count : ℕ)
  | write (fd : ℕ) (buf : Option Bytes) (count : ℕ)
  /-- Keys are pressed between two calls. -/
  | keys (keyboard : Keyboard) (scancodes : List UInt8)

/-- The descriptors 0, 1 and 2 are in use. -/
def streamsInUse (k : Kernel) : Prop := ∀ fd < 3, (k.vfs.fdTable fd).isSome

/-- What is known of a descriptor that is open: the node of the file that was opened, and whether the
descriptors 0, 1 and 2 were in use when it was. -/
structure Opened where
  node : ℕ
  streams : Prop

/-- A call and the record of the descriptors that `sys_open` has returned and that have not been closed
since. -/
inductive Step : Kernel × (ℕ → Option Opened) → Call → Kernel × (ℕ → Option Opened) → Prop
  | opens {k k' : Kernel} {st₁ : Vfs} {opened : ℕ → Option Opened} {path : CString}
      {flags mode fuel fd node : ℕ}
      (done : sysOpenImpl (some path) flags mode fuel k = some ((fd : ℤ), k'))
      (target : k.vfs.openTarget path (flags % 2 ^ 32) (mode % 2 ^ 32) fuel = some (.ok node, st₁)) :
      Step (k, opened) (.openFile path flags mode)
        (k', Function.update opened fd (some ⟨node, streamsInUse k⟩))
  | fails {k k' : Kernel} {opened : ℕ → Option Opened} {path : CString} {flags mode fuel : ℕ} {r : ℤ}
      (done : sysOpenImpl (some path) flags mode fuel k = some (r, k')) (error : r < 0) :
      Step (k, opened) (.openFile path flags mode) (k', opened)
  | close {k k' : Kernel} {opened opened' : ℕ → Option Opened} {fd : ℕ} {r : ℤ}
      (done : sysCloseImpl fd k = (r, k'))
      (closed : ∀ i : ℕ, i = toInt fd → opened' i = none)
      (others : ∀ i : ℕ, i ≠ toInt fd → opened' i = opened i) :
      Step (k, opened) (.close fd) (k', opened')
  | read {k k' : Kernel} {opened : ℕ → Option Opened} {fd count fuel : ℕ} {buf buf' : Option Bytes}
      {r : ℤ} (done : sysReadImpl fd buf count fuel k = some (r, buf', k')) :
      Step (k, opened) (.read fd buf count) (k', opened)
  | write {k k' : Kernel} {opened : ℕ → Option Opened} {fd count fuel : ℕ} {buf : Option Bytes}
      {r : ℤ} (done : sysWriteImpl fd buf count fuel k = some (r, k')) :
      Step (k, opened) (.write fd buf count) (k', opened)
  | keys (k : Kernel) (opened : ℕ → Option Opened) (keyboard : Keyboard) (scancodes : List UInt8) :
      Step (k, opened) (.keys keyboard scancodes) ({ k with keyboard, scancodes }, opened)

/-- The calls on a descriptor operate on the file with the node at `a`, through `vfs_read` and
`vfs_write`, and on nothing else; whatever keys are there. -/
structure DenotesFile (k : Kernel) (fd a : ℕ) : Prop where
  file : ∃ file, k.vfs.getFile fd = some file ∧ file.node = a
  write : ∀ src count fuel, sysWriteImpl fd (some src) count fuel k =
    (k.vfs.vfsWrite fd src count fuel).map fun (n, vfs) => (n, { k with vfs })
  read : ∀ dst count fuel keyboard scancodes, 0 < count →
    sysReadImpl fd (some dst) count fuel { k with keyboard, scancodes } =
      (k.vfs.vfsRead fd dst count fuel).map fun (n, dst, vfs) =>
        (n, some dst, { k with vfs, keyboard, scancodes })

/-- What a record says of the table. -/
def Recorded (k : Kernel) (opened : ℕ → Option Opened) : Prop :=
  ∀ fd file, opened fd = some file → Entry k.vfs.fdTable fd file.node ∧ (file.streams ↔ 3 ≤ fd)

variable {k k' : Kernel} {fd : ℕ} {r : ℤ} {opened opened' : ℕ → Option Opened}

theorem streamsInUse_iff {after : ℕ → Option VfsFile} {file : VfsFile}
    (takes : Takes k.vfs.fdTable after fd file) : streamsInUse k ↔ 3 ≤ fd := by
  constructor
  · intro inUse
    by_contra small
    have taken := inUse fd (by omega)
    rw [takes.free] at taken
    cases taken
  · intro past i small
    exact takes.taken i (by omega)

theorem readKeys_vfs {n read : ℕ} {dst dst' : Bytes}
    (done : readKeys n read dst k = some (r, dst', k')) : k'.vfs = k.vfs := by
  induction n generalizing read dst k with
  | zero =>
    cases done
    rfl
  | succ n ih =>
    obtain ⟨⟨c, keyboard, scancodes⟩, -, rest⟩ := Option.bind_eq_some_iff.mp done
    by_cases none : c = -1
    · simp only [if_pos none] at rest
      cases rest
      rfl
    simp only [if_neg none] at rest
    by_cases newline : c = 0x0A
    · simp only [if_pos newline] at rest
      cases rest
      rfl
    · simp only [if_neg newline] at rest
      have kept := ih rest
      exact kept

theorem Recorded.mono (recorded : Recorded k opened)
    (keeps : ∀ fd a, Entry k.vfs.fdTable fd a → Entry k'.vfs.fdTable fd a) :
    Recorded k' opened := by
  intro fd file known
  obtain ⟨entry, streams⟩ := recorded fd file known
  exact ⟨keeps fd file.node entry, streams⟩

theorem Recorded.close (recorded : Recorded k opened) (done : sysCloseImpl fd k = (r, k'))
    (closed : ∀ i : ℕ, i = toInt fd → opened' i = none)
    (others : ∀ i : ℕ, i ≠ toInt fd → opened' i = opened i) : Recorded k' opened' := by
  intro i file known
  have other : (i : ℤ) ≠ toInt fd := by
    intro same
    rw [closed i same] at known
    cases known
  rw [others i other] at known
  obtain ⟨entry, streams⟩ := recorded i file known
  have kept := entry.vfsClose other
  unfold sysCloseImpl at done
  rcases closes : k.vfs.vfsClose (toInt fd) with ⟨_, vfs⟩
  rw [closes] at done kept
  obtain ⟨-, rfl⟩ := Prod.mk.inj done
  exact ⟨kept, streams⟩

theorem recorded_step {call : Call} (recorded : Recorded k opened)
    (step : Step (k, opened) call (k', opened')) : Recorded k' opened' := by
  cases step with
  | @opens _ _ st₁ _ path flags mode fuel fd node done target =>
    obtain ⟨⟨_, vfs⟩, opens, same⟩ := Option.map_eq_some_iff.mp done
    cases same
    rcases Vfs.vfsOpen_takes opens with ⟨negative, -⟩ | ⟨fd', file, _, here, target', -, -, takes⟩
    · omega
    obtain rfl : fd = fd' := by omega
    rw [target] at target'
    have node : node = file.node := by
      cases target'
      rfl
    intro i old known
    by_cases new : i = fd
    · subst new
      rw [Function.update_self] at known
      cases known
      refine ⟨⟨takes.bound, file, ?_, node.symm⟩, streamsInUse_iff takes⟩
      rw [takes.table, Function.update_self]
    · rw [Function.update_of_ne new] at known
      obtain ⟨entry, streams⟩ := recorded i old known
      exact ⟨entry.takes takes, streams⟩
  | fails done error =>
    obtain ⟨⟨_, vfs⟩, opens, same⟩ := Option.map_eq_some_iff.mp done
    cases same
    rcases Vfs.vfsOpen_takes opens with ⟨-, table⟩ | ⟨fd', _, _, here, -⟩
    · exact recorded.mono fun i a entry => table.symm ▸ entry
    · omega
  | close done closed others => exact recorded.close done closed others
  | @read _ _ _ fd count fuel buf buf' r done =>
    cases buf with
    | none =>
      cases done
      exact recorded
    | some dst =>
      simp only [sysReadImpl] at done
      split_ifs at done
      · cases done
        exact recorded
      · obtain ⟨⟨_, _, k₁⟩, reads, same⟩ := Option.map_eq_some_iff.mp done
        cases same
        exact recorded.mono fun i a entry => (readKeys_vfs reads).symm ▸ entry
      · obtain ⟨⟨_, _, vfs⟩, reads, same⟩ := Option.map_eq_some_iff.mp done
        cases same
        exact recorded.mono fun i a entry => entry.vfsRead reads
  | @write _ _ _ fd count fuel buf r done =>
    cases buf with
    | none =>
      cases done
      exact recorded
    | some src =>
      simp only [sysWriteImpl] at done
      split_ifs at done
      · obtain ⟨-, rfl⟩ := Prod.mk.inj (Option.some.inj done)
        exact recorded
      · obtain ⟨⟨_, vfs⟩, writes, same⟩ := Option.map_eq_some_iff.mp done
        cases same
        exact recorded.mono fun i a entry => entry.vfsWrite writes
  | keys => exact recorded

theorem toInt_of_lt (small : fd < Vfs.vfsMaxOpenFiles) : toInt fd = fd := by
  have bound : fd < 256 := small
  rw [toInt, BitVec.toInt_ofNat']
  exact Int.bmod_eq_of_le (by omega) (by omega)

theorem putchar_moves (t : Terminal) : (t.putchar 0x41).2.termX ≠ t.termX := by
  show (t.putCell 0x41).termX ≠ t.termX
  simp only [Terminal.putCell, Terminal.termAdvance]
  by_cases wraps : Vga.vgaWidth ≤ t.termX + 1
  · have start : ∀ t : Terminal, t.termNewline.termX = 0 := by
      intro t
      simp only [Terminal.termNewline]
      split_ifs <;> rfl
    have width : Vga.vgaWidth = 80 := rfl
    rw [if_pos wraps, start]
    omega
  · rw [if_neg wraps]
    exact Nat.succ_ne_self t.termX

theorem denotesFile_iff {a : ℕ} (entry : Entry k.vfs.fdTable fd a) :
    DenotesFile k fd a ↔ 3 ≤ fd := by
  have int := toInt_of_lt entry.1
  constructor
  · intro denotes
    by_contra small
    by_cases stdin : fd = 0
    · -- A key is waiting, and `sys_read` takes it.
      have waiting := denotes.read (fun _ => 0) 1 0 ⟨k.keyboard.modifiers, fun _ => 0x61, 0, 1⟩ []
        (by decide)
      rw [stdin] at waiting
      obtain ⟨⟨n, dst, vfs⟩, -, same⟩ := Option.map_eq_some_iff.mp waiting.symm
      have start : 0 = 1 := congrArg (·.2.2.keyboard.kbBuffer.start) same
      exact absurd start (by decide)
    · have written := denotes.write (fun _ => 0x41) 1 0
      simp only [sysWriteImpl] at written
      rw [if_pos (by omega)] at written
      obtain ⟨⟨n, vfs⟩, -, same⟩ := Option.map_eq_some_iff.mp written.symm
      exact putchar_moves k.terminal (congrArg (·.2.terminal.termX) same).symm
  · intro past
    refine ⟨entry.getFile, fun src count fuel => ?_, fun dst count fuel keyboard scancodes pos => ?_⟩
    · simp only [sysWriteImpl, int]
      rw [if_neg (by omega)]
    · simp only [sysReadImpl, int]
      rw [if_neg (by omega), if_neg (by omega)]

/-- In every run of system calls, a descriptor that is open denotes the file that was opened if and only
if the descriptors 0, 1 and 2 were in use when it was. -/
theorem descriptor_denotes_file {k₀ k : Kernel} {calls : List Call} {opened : ℕ → Option Opened}
    (run : Run Step (k₀, fun _ => none) calls (k, opened)) {fd : ℕ} {file : Opened}
    (known : opened fd = some file) : DenotesFile k fd file.node ↔ file.streams := by
  have recorded : Recorded k opened :=
    run.invariant (P := fun s : Kernel × (ℕ → Option Opened) => Recorded s.1 s.2)
      (fun _ _ _ before step => recorded_step before step) (by intro fd file known; cases known)
  obtain ⟨entry, streams⟩ := recorded fd file known
  rw [streams]
  exact denotesFile_iff entry

/-- The blank volume is mounted, and nothing is open. -/
def quiet : Kernel where
  vfs := Vfs.mounted
  terminal := ⟨0, 0, ⟨fun _ => 0, 0, 0, 0, 0, fun _ => 0⟩⟩
  keyboard := ⟨⟨false, false, false, false, false⟩, ⟨fun _ => 0, 0, 0⟩⟩
  scancodes := []

/-- The root directory is open under the descriptors 0, 1 and 2. -/
def busy : Kernel :=
  let fdTable := fun fd => if fd < 3 then some ⟨9, 1, 0, 0, 0, 1⟩ else none
  { quiet with vfs := { quiet.vfs with fdTable } }

/-- Open `/a` for reading and writing; it is made if it is missing. -/
def openA : Kernel → Option (ℤ × Kernel) :=
  sysOpenImpl (some Vfs.pathA) (Vfs.oCreat ||| Vfs.oRdwr) 0o644 9

def openedA (k : Kernel) : Kernel := ((openA k).map Prod.snd).getD k

theorem step_openA (opened : ℕ → Option Opened) (evaluated : (openA k).map Prod.fst = some (fd : ℤ)) :
    ∃ node, Step (k, opened) (.openFile Vfs.pathA (Vfs.oCreat ||| Vfs.oRdwr) 0o644)
      (openedA k, Function.update opened fd (some ⟨node, streamsInUse k⟩)) := by
  obtain ⟨⟨_, k'⟩, done, rfl⟩ := Option.map_eq_some_iff.mp evaluated
  have after : openedA k = k' := by
    unfold openedA
    rw [done]
    rfl
  obtain ⟨⟨_, vfs⟩, opens, same⟩ := Option.map_eq_some_iff.mp done
  cases same
  rcases Vfs.vfsOpen_takes opens with ⟨negative, -⟩ | ⟨fd', file, st₁, here, target, -⟩
  · omega
  · rw [after]
    exact ⟨file.node, .opens done target⟩

theorem descriptor_denotes_file_busy : ∃ opened file,
    Run Step (busy, fun _ => none) [.openFile Vfs.pathA (Vfs.oCreat ||| Vfs.oRdwr) 0o644]
      (openedA busy, opened) ∧
    opened 3 = some file ∧ DenotesFile (openedA busy) 3 file.node := by
  have evaluated : (openA busy).map Prod.fst = some ((3 : ℕ) : ℤ) := by decide +kernel
  obtain ⟨node, step⟩ := step_openA (fun _ => none) evaluated
  refine ⟨_, _, .cons step (.nil _), Function.update_self .., ?_⟩
  refine (descriptor_denotes_file (.cons step (.nil _)) (Function.update_self ..)).mpr ?_
  intro fd small
  simp [busy, small]

/-- The second file that is opened gets the descriptor 1.  What is written to it appears on the console,
and the file stays empty. -/
theorem written_to_console :
    (∃ opened file, Run Step (quiet, fun _ => none)
      [.openFile Vfs.pathA (Vfs.oCreat ||| Vfs.oRdwr) 0o644,
        .openFile Vfs.pathA (Vfs.oCreat ||| Vfs.oRdwr) 0o644] (openedA (openedA quiet), opened) ∧
      opened 1 = some file) ∧
    (openedA (openedA quiet)).terminal.termX = 0 ∧
    (sysWriteImpl 1 (some fun _ => 0x41) 1 9 (openedA (openedA quiet))).map (fun r =>
      (r.1, r.2.terminal.termX, (r.2.vfs.vfsStat Vfs.pathA 9).map fun answer =>
        answer.2.1.map Vfs.Stat.size)) = some (1, 1, some (some 0)) := by
  refine ⟨?_, by decide +kernel, by decide +kernel⟩
  have first : (openA quiet).map Prod.fst = some ((0 : ℕ) : ℤ) := by decide +kernel
  have second : (openA (openedA quiet)).map Prod.fst = some ((1 : ℕ) : ℤ) := by decide +kernel
  obtain ⟨node₁, step₁⟩ := step_openA (fun _ => none) first
  obtain ⟨node₂, step₂⟩ := step_openA (Function.update (fun _ => none) 0 (some ⟨node₁, _⟩)) second
  exact ⟨_, _, .cons step₁ (.cons step₂ (.nil _)), Function.update_self ..⟩

end Thuban.Syscall
