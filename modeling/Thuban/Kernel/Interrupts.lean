import Thuban.Syscall.Entry

/-!
# Interrupt stubs

`arch/x86_64/idt.s`, from the delivery of a vector by the CPU to `iretq`.  The stub of a vector pushes
the number, with an error code of 0 where the CPU pushes none, so that the same `struct registers` lies
on the stack for every vector; `deliver` and `iretq` are what the CPU does before and after.
-/

namespace Thuban.Interrupts

open Lib.X64

/-- What an interrupt suspends. -/
@[ext] structure Context where
  reg : Reg → Word
  rip : Word
  cs : Word
  rflags : Word
  ss : Word

/-- The vectors of `ISR_ERRCODE`. -/
def errorVectors : List ℕ := [8, 10, 11, 12, 13, 14, 17, 30]

/-- The CPU takes an interrupt on `stack`, the interrupted one or `tss.rsp0`: it aligns the stack and
pushes SS, RSP, RFLAGS, CS, RIP and, for some exceptions, an error code. -/
def deliver (c : Context) (stack : Word) (mem : Word → Word) (code : Option Word) : Machine :=
  let m : Machine := ⟨fun r => if r = .rsp then stack &&& ~~~ 0xF else c.reg r, mem⟩
  let m := ((((m.push c.ss).push (c.reg .rsp)).push c.rflags).push c.cs).push c.rip
  code.elim m m.push

/-- `ISR_NOERRCODE`, `ISR_ERRCODE` and `IRQ`, up to the jump. -/
def entryStub (v : ℕ) : List Instr :=
  if v ∈ errorVectors then [.pushImm (BitVec.ofNat 64 v)]
  else [.pushImm 0, .pushImm (BitVec.ofNat 64 v)]

/-- `isr_common_stub` and `irq_common_stub`, which save the registers that the system-call stub saves. -/
def commonStub (returnAddress : Word) : List Instr :=
  Syscall.savedRegs.map .push ++ [.mov .rdi .rsp, .call returnAddress] ++
    Syscall.savedRegs.reverse.map .pop ++ [.addImm .rsp 16]

def iretq (m : Machine) : Context where
  reg := fun r => if r = .rsp then m.mem (slot (m.reg .rsp) 3) else m.reg r
  rip := m.mem (slot (m.reg .rsp) 0)
  cs := m.mem (slot (m.reg .rsp) 1)
  rflags := m.mem (slot (m.reg .rsp) 2)
  ss := m.mem (slot (m.reg .rsp) 4)

/-- `struct registers`, from the lowest address. -/
def registers (c : Context) (v : ℕ) (code : Option Word) : List Word :=
  (Syscall.savedRegs.map c.reg).reverse ++
    [BitVec.ofNat 64 v, code.getD 0, c.rip, c.cs, c.rflags, c.reg .rsp, c.ss]

/-- A C function that returns and leaves the `struct registers` above its return address alone. -/
structure Handler where
  effect : Machine → Machine
  rsp : ∀ m, (effect m).reg .rsp = m.reg .rsp
  frame : ∀ (m : Machine) (i : ℕ), i ≤ 22 →
    (effect m).mem (slot (m.reg .rsp) i) = m.mem (slot (m.reg .rsp) i)

section

variable (h : Handler) (c : Context) (stack returnAddress : Word) (mem : Word → Word) (v : ℕ)
  (code : Option Word)

def entered : Machine := run h.effect (entryStub v) (deliver c stack mem code)

/-- The machine whose next instruction is the call. -/
def atCall : Machine :=
  run h.effect (Syscall.savedRegs.map .push ++ [.mov .rdi .rsp]) (entered h c stack mem v code)

/-- The machine whose next instruction is `iretq`. -/
def atIretq : Machine :=
  run h.effect (entryStub v ++ commonStub returnAddress) (deliver c stack mem code)

variable {h c stack mem v code} (coded : code.isSome ↔ v ∈ errorVectors)

include coded

theorem entered_eq : entered h c stack mem v code =
    ((deliver c stack mem none).push (code.getD 0)).push (BitVec.ofNat 64 v) := by
  unfold entered entryStub
  cases code with
  | none =>
    rw [if_neg (fun listed => Bool.noConfusion (coded.mpr listed))]
    rfl
  | some e =>
    rw [if_pos (coded.mp rfl)]
    rfl

theorem entered_holds :
    Holds (entered h c stack mem v code) ((entered h c stack mem v code).reg .rsp)
      [BitVec.ofNat 64 v, code.getD 0, c.rip, c.cs, c.rflags, c.reg .rsp, c.ss] := by
  rw [entered_eq coded]
  have empty := Holds.nil ⟨fun r => if r = .rsp then stack &&& ~~~ 0xF else c.reg r, mem⟩
    (stack &&& ~~~ 0xF)
  exact ((((((empty.push c.ss (by simp)).push (c.reg .rsp) (by simp)).push c.rflags (by simp)).push c.cs
    (by simp)).push c.rip (by simp)).push (code.getD 0) (by simp)).push _ (by simp)

theorem entered_reg {r : Reg} (other : r ≠ .rsp) :
    (entered h c stack mem v code).reg r = c.reg r := by
  rw [entered_eq coded]
  simp [deliver, Machine.push, other]

theorem atCall_holds : Holds (atCall h c stack mem v code) ((atCall h c stack mem v code).reg .rsp)
    (registers c v code) := by
  have pushed := @run_push_holds h.effect Syscall.savedRegs (entered h c stack mem v code) _
    (entered_holds coded) (by decide) (by simp [Syscall.savedRegs])
  have values : Syscall.savedRegs.map (entered h c stack mem v code).reg =
      Syscall.savedRegs.map c.reg := by
    apply List.map_congr_left
    intro r hr
    exact entered_reg coded fun same => absurd hr (by rw [same]; decide)
  rw [values] at pushed
  rw [atCall, run_append]
  exact pushed

theorem atCall_aligned : ((atCall h c stack mem v code).reg .rsp).toNat % 16 = 0 := by
  have top : (stack &&& ~~~ 0xF).toNat % 16 = 0 := by
    have low : stack &&& ~~~ 0xF &&& 0xF = 0 := by
      rw [BitVec.and_assoc]
      simp
    have bits := congrArg BitVec.toNat low
    rwa [BitVec.toNat_and, show (0xF : Word).toNat = 2 ^ 4 - 1 from rfl,
      Nat.and_two_pow_sub_one_eq_mod] at bits
  have pointer : (atCall h c stack mem v code).reg .rsp =
      (entered h c stack mem v code).reg .rsp - BitVec.ofNat 64 120 := by
    show (run h.effect (Syscall.savedRegs.map .push) (entered h c stack mem v code)).reg .rsp = _
    rw [run_push_rsp]
    rfl
  rw [pointer, entered_eq coded]
  simp only [deliver, Option.elim_none, Machine.push, Machine.reg_setMem, Machine.reg_setReg, if_true,
    BitVec.toNat_sub, BitVec.toNat_ofNat, toNat_eight]
  omega

omit coded in
theorem called_holds {m : Machine} {ws : List Word} (holds : Holds m (m.reg .rsp) ws)
    (short : ws.length ≤ 22) :
    Holds (exec h.effect m (.call returnAddress)) ((exec h.effect m (.call returnAddress)).reg .rsp)
      ws := by
  have pointer : (exec h.effect m (.call returnAddress)).reg .rsp = m.reg .rsp := by
    simp [exec, h.rsp, Machine.push]
  rw [pointer]
  apply holds.of_mem_eq
  intro i hi
  have kept := h.frame (m.push returnAddress) (i + 1) (by omega)
  have above : slot ((m.push returnAddress).reg .rsp) (i + 1) = slot (m.reg .rsp) i :=
    slot_sub_succ _ i
  have apart := slot_ne (m.reg .rsp - 8) (i := i + 1) (j := 0) (by omega) (by omega) (by omega)
  rw [slot_zero, slot_sub_succ] at apart
  rw [above, Machine.push, Machine.mem_setMem, if_neg apart] at kept
  exact kept

/-- An interrupt is transparent.  For every vector whose error code, if any, the stub expects, the C
handler is called on an aligned stack with the suspended context in its `struct registers`, and if it
returns, `iretq` resumes exactly that context. -/
theorem interrupt_transparent :
    Holds (atCall h c stack mem v code) ((atCall h c stack mem v code).reg .rdi)
        (registers c v code) ∧
      ((atCall h c stack mem v code).reg .rsp).toNat % 16 = 0 ∧
      iretq (atIretq h c stack returnAddress mem v code) = c := by
  have held : Holds (atCall h c stack mem v code) ((atCall h c stack mem v code).reg .rsp)
      (registers c v code) := atCall_holds coded
  have argument : (atCall h c stack mem v code).reg .rdi = (atCall h c stack mem v code).reg .rsp := by
    rw [atCall, run_append]
    simp [exec]
  refine ⟨argument ▸ held, atCall_aligned coded, ?_⟩
  have back := called_holds (h := h) returnAddress held (by simp [registers, Syscall.savedRegs])
  have program : atIretq h c stack returnAddress mem v code =
      exec h.effect (run h.effect (Syscall.savedRegs.reverse.map .pop)
        (exec h.effect (atCall h c stack mem v code) (.call returnAddress))) (.addImm .rsp 16) := by
    simp only [atIretq, commonStub, atCall, entered, run_append, run_cons, run_nil]
  generalize exec h.effect (atCall h c stack mem v code) (.call returnAddress) = m at back program
  have words (j : ℕ) : (atIretq h c stack returnAddress mem v code).mem
      (slot ((atIretq h c stack returnAddress mem v code).reg .rsp) j) =
        m.mem (slot (m.reg .rsp) (17 + j)) := by
    have place : m.reg .rsp + BitVec.ofNat 64 (8 * Syscall.savedRegs.reverse.length) + 16 +
        BitVec.ofNat 64 (8 * j) = slot (m.reg .rsp) (17 + j) := by
      apply BitVec.eq_of_toNat_eq
      simp only [slot, BitVec.toNat_add, BitVec.toNat_ofNat, show (16 : Word).toNat = 16 from rfl,
        show Syscall.savedRegs.reverse.length = 15 from rfl]
      omega
    rw [program, exec, Machine.mem_setReg, run_pop_mem, Machine.reg_setReg, if_pos rfl, ← place,
      slot, run_pop_rsp _ _ (by decide)]
  have value (r : Reg) (other : r ≠ .rsp) :
      (atIretq h c stack returnAddress mem v code).reg r = c.reg r := by
    rw [program, exec, Machine.reg_setReg, if_neg other]
    apply run_pop_value _ m _ back (by decide) (by decide)
    cases r <;> simp [Syscall.savedRegs, registers] at other ⊢
  apply Context.ext
  · funext r
    by_cases pointer : r = .rsp
    · subst pointer
      exact (words 3).trans (back 20 _ rfl)
    · simp only [iretq, if_neg pointer, value r pointer]
  · exact (words 0).trans (back 17 _ rfl)
  · exact (words 1).trans (back 18 _ rfl)
  · exact (words 2).trans (back 19 _ rfl)
  · exact (words 4).trans (back 21 _ rfl)

end

/-- A keyboard interrupt in the middle of user code, on a kernel stack that is not aligned. -/
theorem interrupt_transparent_keyboard :
    iretq (atIretq ⟨id, fun _ => rfl, fun _ _ _ => rfl⟩ ⟨fun _ => 7, 0x401000, 0x1b, 0x202, 0x23⟩ 0x9008
      0x2000 (fun _ => 0) 33 none) = ⟨fun _ => 7, 0x401000, 0x1b, 0x202, 0x23⟩ :=
  (interrupt_transparent _ (by decide)).2.2

end Thuban.Interrupts
