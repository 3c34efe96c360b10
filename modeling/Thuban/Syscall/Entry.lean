import Thuban.Lib.X64

/-!
# The system-call entry stub

`syscallEntry` is the instruction sequence of `arch/x86_64/syscall.s`, from the first instruction
after `SYSCALL` up to `SYSRET`.  It switches to a static kernel stack, builds a fake interrupt
frame, saves the registers, calls `syscall_handler` and restores.  `atCall` is the machine that
enters the C handler and `atSysret` the machine that executes `SYSRET`.
-/

namespace Thuban.Syscall

open Lib.X64

/-- Where the linker placed the stub's symbols.  The stack is 8 KB, aligned to 16 bytes. -/
structure Layout where
  /-- `kernel_syscall_stack_top` -/
  stackTop : Word
  /-- The address after the call instruction. -/
  returnAddress : Word
  aligned : stackTop.toNat % 16 = 0
  room : 8192 ≤ stackTop.toNat

/-- `user_rsp` is the quadword reserved directly above the stack. -/
def Layout.userRsp (L : Layout) : Word := L.stackTop

/-- The registers in the order in which they are pushed. -/
def savedRegs : List Reg :=
  [.rax, .rbx, .rcx, .rdx, .rsi, .rdi, .rbp, .r8, .r9, .r10, .r11, .r12, .r13, .r14, .r15]

/-- Switch stacks and push SS, RSP, RFLAGS, CS and RIP. -/
def buildFrame (L : Layout) : List Instr :=
  [.store L.userRsp .rsp, .movImm .rsp L.stackTop, .pushImm 0x23, .pushMem L.userRsp,
    .push .r11, .pushImm 0x1b, .push .rcx]

/-- The moves that are to put the handler's six arguments in place. -/
def loadArguments : List Instr :=
  [.mov .rdi .rax, .mov .rsi .rdi, .mov .rdx .rsi, .mov .rcx .rdx, .mov .r8 .r10, .mov .r9 .r8]

/-- Remember the frame in `rbp` and align the stack for the call. -/
def alignStack : List Instr := [.mov .rbp .rsp, .andImm .rsp (~~~ 0xF)]

/-- Back on the saved frame, store the handler's result. -/
def storeResult : List Instr := [.mov .rsp .rbp, .storeAt .rsp .rax]

/-- Skip RIP and CS, reload RFLAGS and the user stack, skip SS. -/
def dropFrame : List Instr :=
  [.addImm .rsp 8, .addImm .rsp 8, .pop .r11, .pop .rsp, .addImm .rsp 8]

def beforeCall (L : Layout) : List Instr :=
  buildFrame L ++ savedRegs.map .push ++ loadArguments ++ alignStack

def afterCall : List Instr := storeResult ++ savedRegs.reverse.map .pop ++ dropFrame

/-- The whole stub. -/
def syscallEntry (L : Layout) : List Instr := beforeCall L ++ .call L.returnAddress :: afterCall

/-- The user's registers at the `SYSCALL` instruction; `rip` is the address after it. -/
structure User where
  reg : Reg → Word
  rip : Word
  rflags : Word

/-- What the CPU documents for `SYSCALL`: RIP goes to RCX and RFLAGS to R11. -/
def syscallInstruction (u : User) (mem : Word → Word) : Machine where
  reg := fun r => if r = .rcx then u.rip else if r = .r11 then u.rflags else u.reg r
  mem := mem

/-- A C function as its caller sees it under the System V ABI: callee-saved registers and the
stack pointer come back, and the caller's part of the stack is left alone. -/
structure Handler (L : Layout) where
  effect : Machine → Machine
  calleeSaved : ∀ m, ∀ r ∈ [Reg.rbx, .rbp, .rsp, .r12, .r13, .r14, .r15],
    (effect m).reg r = m.reg r
  frame : ∀ (m : Machine) (a : Word), (m.reg .rsp).toNat ≤ a.toNat → a.toNat < L.stackTop.toNat →
    (effect m).mem a = m.mem a

section Stub

variable (L : Layout) (h : Handler L) (u : User) (mem : Word → Word)

def atCall : Machine := run h.effect (beforeCall L) (syscallInstruction u mem)

def atHandler : Machine := (atCall L h u mem).push L.returnAddress

def returned : Word := (h.effect (atHandler L h u mem)).reg .rax

/-- The machine that executes `SYSRET`. -/
def atSysret : Machine := run h.effect (syscallEntry L) (syscallInstruction u mem)

/-- The first six integer argument registers of the System V ABI. -/
def argumentRegs : List Reg := [.rdi, .rsi, .rdx, .rcx, .r8, .r9]

/-- The user registers that carry the system-call number and its arguments. -/
def userArgumentRegs : List Reg := [.rax, .rdi, .rsi, .rdx, .r10, .r8]

/-! ## The stack frame -/

/-- The five quadwords of the fake interrupt frame, from the lowest address. -/
def interruptFrame : List Word := [u.rip, 0x1b, u.rflags, u.reg .rsp, 0x23]

/-- The machine after the fake interrupt frame is built. -/
def framed : Machine := run h.effect (buildFrame L) (syscallInstruction u mem)

def saved : Machine := run h.effect (savedRegs.map .push) (framed L h u mem)

theorem framed_reg (r : Reg) (other : r ≠ .rsp) :
    (framed L h u mem).reg r = (syscallInstruction u mem).reg r := by
  simp [framed, buildFrame, exec, Machine.push, other]

theorem framed_rsp : (framed L h u mem).reg .rsp = L.stackTop - 8 - 8 - 8 - 8 - 8 := by
  simp [framed, buildFrame, exec, Machine.push]

theorem sub_eight_ne (a : Word) : a ≠ a - 8 := by
  intro equal
  have := congrArg BitVec.toNat equal
  rw [BitVec.toNat_sub, toNat_eight] at this
  omega

theorem framed_holds :
    Holds (framed L h u mem) ((framed L h u mem).reg .rsp) (interruptFrame u) := by
  let m₀ := ((syscallInstruction u mem).setMem L.userRsp (u.reg .rsp)).setReg .rsp L.stackTop
  have empty : Holds m₀ (m₀.reg .rsp) [] := .nil _ _
  have stored : (m₀.push 0x23).mem L.userRsp = u.reg .rsp := by
    have apart := sub_eight_ne L.stackTop
    simp only [m₀, Machine.push, Layout.userRsp, Machine.mem_setMem, Machine.mem_setReg,
      Machine.reg_setReg, if_true, if_neg apart]
  have built := ((((empty.push 0x23 (by decide)).push ((m₀.push 0x23).mem L.userRsp)
    (by simp)).push u.rflags (by simp)).push 0x1b (by simp)).push u.rip (by simp)
  rw [stored] at built
  have program : framed L h u mem =
      ((((m₀.push 0x23).push (u.reg .rsp)).push u.rflags).push 0x1b).push u.rip := by
    rw [← stored]
    simp [framed, buildFrame, exec, m₀, Machine.push, syscallInstruction]
  rw [program]
  exact built

/-- The saved frame: the registers in reverse push order, then the interrupt frame. -/
def savedFrame : List Word :=
  (savedRegs.map (syscallInstruction u mem).reg).reverse ++ interruptFrame u

theorem saved_holds :
    Holds (saved L h u mem) ((saved L h u mem).reg .rsp) (savedFrame u mem) := by
  have pushed := @run_push_holds h.effect savedRegs (framed L h u mem) _
    (framed_holds L h u mem) (by decide) (by simp [savedRegs, interruptFrame])
  have values : savedRegs.map (framed L h u mem).reg =
      savedRegs.map (syscallInstruction u mem).reg := by
    apply List.map_congr_left
    intro r hr
    exact framed_reg L h u mem r (fun e => absurd hr (by rw [e]; decide))
  rw [values] at pushed
  exact pushed

theorem saved_reg (r : Reg) (other : r ≠ .rsp) :
    (saved L h u mem).reg r = (syscallInstruction u mem).reg r := by
  rw [saved, run_push_reg _ _ _ other, framed_reg L h u mem r other]

theorem saved_rsp_toNat : ((saved L h u mem).reg .rsp).toNat = L.stackTop.toNat - 160 := by
  have room := L.room
  rw [saved, run_push_rsp, framed_rsp]
  simp only [savedRegs, List.length_cons, List.length_nil, BitVec.toNat_sub, BitVec.toNat_ofNat,
    toNat_eight]
  omega

/-! ## The call -/

theorem beforeCall_parts :
    atCall L h u mem = run h.effect (loadArguments ++ alignStack) (saved L h u mem) := by
  simp only [atCall, beforeCall, saved, framed, run_append]

theorem aligned_rsp (w : Word) (aligned : w.toNat % 16 = 0) : w &&& ~~~ 0xF = w := by
  have low : w &&& 0xF = 0 := by
    apply BitVec.eq_of_toNat_eq
    rw [BitVec.toNat_and, show (0xF : Word).toNat = 2 ^ 4 - 1 from rfl,
      Nat.and_two_pow_sub_one_eq_mod]
    exact aligned
  calc w &&& ~~~ 0xF = (w &&& ~~~ 0xF) ||| (w &&& 0xF) := by rw [low]; exact BitVec.or_zero.symm
    _ = w := by
      ext i hi
      simp only [BitVec.getElem_or, BitVec.getElem_and, BitVec.getElem_not]
      cases w[i] <;> cases (0xF : Word)[i] <;> rfl

theorem atCall_rsp : (atCall L h u mem).reg .rsp = (saved L h u mem).reg .rsp := by
  have aligned := L.aligned
  have position := saved_rsp_toNat L h u mem
  rw [beforeCall_parts]
  simp only [loadArguments, alignStack, List.cons_append, List.nil_append, run_cons, run_nil, exec,
    Machine.reg_setReg, reduceCtorEq, if_false, if_true]
  exact aligned_rsp _ (by omega)

theorem atCall_rbp : (atCall L h u mem).reg .rbp = (saved L h u mem).reg .rsp := by
  rw [beforeCall_parts]
  simp [loadArguments, alignStack, exec]

theorem atCall_mem : (atCall L h u mem).mem = (saved L h u mem).mem := by
  rw [beforeCall_parts]
  simp [loadArguments, alignStack, exec]

theorem atCall_arguments :
    argumentRegs.map (atCall L h u mem).reg = [.rax, .rax, .rax, .rax, .r10, .r10].map u.reg := by
  rw [beforeCall_parts]
  simp [argumentRegs, loadArguments, alignStack, exec, saved_reg, syscallInstruction]

/-- The handler receives the user's number and arguments exactly when the user's `rdi`, `rsi`
and `rdx` equal `rax` and `r8` equals `r10`. -/
theorem syscall_arguments_iff :
    argumentRegs.map (atCall L h u mem).reg = userArgumentRegs.map u.reg ↔
      u.reg .rdi = u.reg .rax ∧ u.reg .rsi = u.reg .rax ∧ u.reg .rdx = u.reg .rax ∧
        u.reg .r8 = u.reg .r10 := by
  rw [atCall_arguments]
  simp only [userArgumentRegs, List.map_cons, List.map_nil, List.cons.injEq, and_true, true_and]
  constructor
  · rintro ⟨h₁, h₂, h₃, h₄⟩
    exact ⟨h₁.symm, h₂.symm, h₃.symm, h₄.symm⟩
  · rintro ⟨h₁, h₂, h₃, h₄⟩
    exact ⟨h₁.symm, h₂.symm, h₃.symm, h₄.symm⟩

end Stub

/-! ### A `write` call -/

/-- A layout the linker can choose. -/
def sampleLayout : Layout where
  stackTop := 0x10000
  returnAddress := 0x2000
  aligned := by decide
  room := by decide

def sampleHandler (value : Word) : Handler sampleLayout where
  effect := fun m => m.setReg .rax value
  calleeSaved := by
    intro m r hr
    have other : r ≠ .rax := fun e => absurd hr (by rw [e]; decide)
    simp [other]
  frame := fun _ _ _ _ => rfl

/-- `write(1, 0x400000, 5)`: number 1 in `rax`, the arguments in `rdi`, `rsi` and `rdx`. -/
def writeCall : User where
  reg := fun
    | .rax => 1
    | .rdi => 1
    | .rsi => 0x400000
    | .rdx => 5
    | .rsp => 0x7fff0000
    | _ => 0
  rip := 0x401000
  rflags := 0x202

/-- The handler of this `write` sees the number 1 in place of the buffer and of the length. -/
theorem writeCall_arguments_lost :
    argumentRegs.map (atCall sampleLayout (sampleHandler 5) writeCall fun _ => 0).reg ≠
      userArgumentRegs.map writeCall.reg := by
  rw [atCall_arguments]
  decide

/-! ## The way back -/

section Return

variable (L : Layout) (h : Handler L) (u : User) (mem : Word → Word)

/-- The machine after the handler has returned. -/
def resumed : Machine := exec h.effect (atCall L h u mem) (.call L.returnAddress)

/-- The machine whose frame carries the handler's result. -/
def resulted : Machine := run h.effect storeResult (resumed L h u mem)

theorem resumed_rbp : (resumed L h u mem).reg .rbp = (saved L h u mem).reg .rsp := by
  rw [← atCall_rbp]
  simp [resumed, exec, h.calleeSaved _ .rbp (by decide), Machine.push]

theorem resumed_holds :
    Holds (resumed L h u mem) ((saved L h u mem).reg .rsp) (savedFrame u mem) := by
  apply (saved_holds L h u mem).of_mem_eq
  intro i hi
  have room := L.room
  have position := saved_rsp_toNat L h u mem
  have small : i < 20 := hi
  have address : (slot ((saved L h u mem).reg .rsp) i).toNat = L.stackTop.toNat - 160 + 8 * i := by
    simp only [slot, BitVec.toNat_add, BitVec.toNat_ofNat, position]
    omega
  have pointer : ((atHandler L h u mem).reg .rsp).toNat = L.stackTop.toNat - 168 := by
    have entered : (atHandler L h u mem).reg .rsp = (saved L h u mem).reg .rsp - 8 := by
      rw [← atCall_rsp]
      simp [atHandler, Machine.push]
    rw [entered, BitVec.toNat_sub, toNat_eight, position]
    omega
  calc (resumed L h u mem).mem (slot ((saved L h u mem).reg .rsp) i)
      = (h.effect (atHandler L h u mem)).mem (slot ((saved L h u mem).reg .rsp) i) := rfl
    _ = (atHandler L h u mem).mem (slot ((saved L h u mem).reg .rsp) i) := by
      apply h.frame
      · rw [pointer, address]; omega
      · rw [address]; omega
    _ = (saved L h u mem).mem (slot ((saved L h u mem).reg .rsp) i) := by
      have apart : slot ((saved L h u mem).reg .rsp) i ≠ (atCall L h u mem).reg .rsp - 8 := by
        intro equal
        have := congrArg BitVec.toNat equal
        rw [address, atCall_rsp, BitVec.toNat_sub, toNat_eight, position] at this
        omega
      simp only [atHandler, Machine.push, Machine.mem_setMem, if_neg apart, Machine.mem_setReg,
        atCall_mem]

theorem resulted_holds :
    Holds (resulted L h u mem) ((resulted L h u mem).reg .rsp)
      (returned L h u mem :: (savedFrame u mem).tail) := by
  have value : (resumed L h u mem).reg .rax = returned L h u mem := by
    simp [resumed, exec, returned, atHandler]
  have pointer : (resulted L h u mem).reg .rsp = (saved L h u mem).reg .rsp := by
    rw [← resumed_rbp]
    simp [resulted, storeResult, exec]
  have split : savedFrame u mem =
      (syscallInstruction u mem).reg .r15 :: (savedFrame u mem).tail := rfl
  have before := resumed_holds L h u mem
  rw [split] at before
  have after := before.setHead (returned L h u mem)
    (by simp [savedFrame, savedRegs, interruptFrame])
  rw [pointer]
  apply after.of_mem_eq
  intro i _
  simp only [resulted, storeResult, run_cons, run_nil, exec, Machine.reg_setReg, if_true,
    reduceCtorEq, if_false, value, resumed_rbp]
  rfl

def restored : Machine := run h.effect (savedRegs.reverse.map .pop) (resulted L h u mem)

theorem atSysret_parts : atSysret L h u mem = run h.effect dropFrame (restored L h u mem) := by
  simp [atSysret, syscallEntry, afterCall, run_append, restored, resulted, resumed, atCall]

theorem restored_rsp : (restored L h u mem).reg .rsp = (resulted L h u mem).reg .rsp + 120 := by
  rw [restored, run_pop_rsp _ _ (by decide)]
  rfl

theorem restored_reg (r : Reg) (w : Word)
    (paired : (r, w) ∈ savedRegs.reverse.zip (returned L h u mem :: (savedFrame u mem).tail)) :
    (restored L h u mem).reg r = w :=
  run_pop_value savedRegs.reverse _ _ (resulted_holds L h u mem) (by decide) (by decide) r w paired

theorem restored_frame (i : ℕ) (w : Word) (entry : (interruptFrame u)[i]? = some w) :
    (restored L h u mem).mem (slot ((resulted L h u mem).reg .rsp) (15 + i)) = w := by
  rw [restored, run_pop_mem]
  apply resulted_holds L h u mem
  have position : 15 + i = (14 + i) + 1 := by omega
  rw [position, List.getElem?_cons_succ, List.getElem?_tail, savedFrame, List.getElem?_append_right
    (by simp [savedRegs])]
  simpa [savedRegs] using entry

theorem atSysret_reg (r : Reg) :
    (atSysret L h u mem).reg r =
      if r = .rsp then u.reg .rsp + 8 else if r = .rcx then u.rip
        else if r = .r11 then u.rflags else if r = .r15 then returned L h u mem
          else u.reg r := by
  have flags : (restored L h u mem).mem ((restored L h u mem).reg .rsp + 8 + 8) = u.rflags := by
    rw [← restored_frame L h u mem 2 u.rflags rfl, restored_rsp, slot, BitVec.add_assoc,
      BitVec.add_assoc]
    rfl
  have stack : (restored L h u mem).mem ((restored L h u mem).reg .rsp + 8 + 8 + 8) =
      u.reg .rsp := by
    rw [← restored_frame L h u mem 3 (u.reg .rsp) rfl, restored_rsp, slot, BitVec.add_assoc,
      BitVec.add_assoc, BitVec.add_assoc]
    rfl
  have value := restored_reg L h u mem r
  rw [atSysret_parts]
  simp only [dropFrame, run_cons, run_nil, exec, Machine.reg_setReg, Machine.mem_setReg, if_true,
    reduceCtorEq, if_false, flags, stack]
  cases r <;> simp only [reduceCtorEq, if_false, if_true] <;>
    exact value _ (by simp [savedRegs, savedFrame, syscallInstruction])

/-- What a system call promises its caller: the result in `rax`, the user's stack pointer, RIP and
RFLAGS where `SYSRET` expects them, and every other register as it was. -/
structure ContextPreserved (m : Machine) (result : Word) : Prop where
  rax : m.reg .rax = result
  rsp : m.reg .rsp = u.reg .rsp
  rcx : m.reg .rcx = u.rip
  r11 : m.reg .r11 = u.rflags
  others : ∀ r ∈ [Reg.rbx, .rdx, .rsi, .rdi, .rbp, .r8, .r9, .r10, .r12, .r13, .r14, .r15],
    m.reg r = u.reg r

/-- No system call keeps the promise: the stack pointer always comes back eight bytes too high,
because SS is skipped after the user's stack has already been loaded. -/
theorem context_never_preserved :
    ¬ ContextPreserved u (atSysret L h u mem) (returned L h u mem) := by
  intro preserved
  have high := preserved.rsp
  rw [atSysret_reg, if_pos rfl] at high
  have := congrArg BitVec.toNat high
  rw [BitVec.toNat_add, toNat_eight] at this
  omega

end Return

/-- After the `write` above, `rax` holds the call's number, `r15` its result and `rsp` is off. -/
theorem writeCall_context_lost :
    ¬ ContextPreserved writeCall (atSysret sampleLayout (sampleHandler 5) writeCall fun _ => 0)
      (returned sampleLayout (sampleHandler 5) writeCall fun _ => 0) := by
  intro preserved
  have high := preserved.rsp
  rw [atSysret_reg, if_pos rfl] at high
  exact absurd high (by decide)

end Thuban.Syscall
