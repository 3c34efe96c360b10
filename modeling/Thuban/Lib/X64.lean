import Mathlib

/-!
# A fragment of the x86-64 instruction set

Sixteen general-purpose registers, a memory of aligned quadwords, and the straight-line
instructions an entry stub uses: moves, stack operations, immediate arithmetic and a call.
The status flags are not part of the machine; no instruction of the fragment reads them.

`Holds m base ws` says that the quadwords `ws` lie in memory from `base` upwards.  A sequence of
pushes builds such a region and a sequence of pops consumes it (`run_push_holds`,
`run_pop_value`).
-/

namespace Thuban.Lib.X64

inductive Reg
  | rax | rbx | rcx | rdx | rsi | rdi | rbp | rsp
  | r8 | r9 | r10 | r11 | r12 | r13 | r14 | r15
  deriving DecidableEq, Repr

abbrev Word := BitVec 64

/-- Registers and memory; memory is addressed by the byte address of each aligned quadword. -/
structure Machine where
  reg : Reg → Word
  mem : Word → Word

namespace Machine

def setReg (m : Machine) (r : Reg) (v : Word) : Machine :=
  { m with reg := fun x => if x = r then v else m.reg x }

def setMem (m : Machine) (a v : Word) : Machine :=
  { m with mem := fun x => if x = a then v else m.mem x }

@[simp] theorem reg_setReg (m : Machine) (r x : Reg) (v : Word) :
    (m.setReg r v).reg x = if x = r then v else m.reg x := rfl

@[simp] theorem mem_setReg (m : Machine) (r : Reg) (v : Word) : (m.setReg r v).mem = m.mem := rfl

@[simp] theorem reg_setMem (m : Machine) (a v : Word) : (m.setMem a v).reg = m.reg := rfl

@[simp] theorem mem_setMem (m : Machine) (a x v : Word) :
    (m.setMem a v).mem x = if x = a then v else m.mem x := rfl

/-- Decrement the stack pointer, then store. -/
def push (m : Machine) (v : Word) : Machine :=
  (m.setReg .rsp (m.reg .rsp - 8)).setMem (m.reg .rsp - 8) v

end Machine

inductive Instr
  /-- `mov dst, src` -/
  | mov (dst src : Reg)
  /-- `mov dst, imm` -/
  | movImm (dst : Reg) (imm : Word)
  /-- `mov [addr], src` -/
  | store (addr : Word) (src : Reg)
  /-- `mov [base], src` -/
  | storeAt (base src : Reg)
  | push (src : Reg)
  | pushImm (imm : Word)
  /-- `push qword [addr]` -/
  | pushMem (addr : Word)
  | pop (dst : Reg)
  | addImm (dst : Reg) (imm : Word)
  | andImm (dst : Reg) (imm : Word)
  /-- A near call; `ret` is the address of the following instruction. -/
  | call (ret : Word)
  deriving DecidableEq

/-- One instruction.  `callee` maps the machine at the callee's first instruction to the machine
at its return instruction; returning pops the return address.  A pop into `rsp` leaves the value
read, since the increment happens first. -/
def exec (callee : Machine → Machine) (m : Machine) : Instr → Machine
  | .mov dst src => m.setReg dst (m.reg src)
  | .movImm dst imm => m.setReg dst imm
  | .store addr src => m.setMem addr (m.reg src)
  | .storeAt base src => m.setMem (m.reg base) (m.reg src)
  | .push src => m.push (m.reg src)
  | .pushImm imm => m.push imm
  | .pushMem addr => m.push (m.mem addr)
  | .pop dst => (m.setReg .rsp (m.reg .rsp + 8)).setReg dst (m.mem (m.reg .rsp))
  | .addImm dst imm => m.setReg dst (m.reg dst + imm)
  | .andImm dst imm => m.setReg dst (m.reg dst &&& imm)
  | .call ret =>
      let back := callee (m.push ret)
      back.setReg .rsp (back.reg .rsp + 8)

def run (callee : Machine → Machine) (code : List Instr) (m : Machine) : Machine :=
  code.foldl (exec callee) m

variable {callee : Machine → Machine}

@[simp] theorem run_nil (m : Machine) : run callee [] m = m := rfl

@[simp] theorem run_cons (i : Instr) (code : List Instr) (m : Machine) :
    run callee (i :: code) m = run callee code (exec callee m i) := rfl

theorem run_append (first second : List Instr) (m : Machine) :
    run callee (first ++ second) m = run callee second (run callee first m) := by
  simp [run, List.foldl_append]

/-! ## Stack regions -/

/-- The byte address of the `i`-th quadword above `base`. -/
def slot (base : Word) (i : ℕ) : Word := base + BitVec.ofNat 64 (8 * i)

theorem toNat_eight : (8 : Word).toNat = 8 := rfl

@[simp] theorem slot_zero (base : Word) : slot base 0 = base := by simp [slot]

theorem slot_ne (base : Word) {i j : ℕ} (different : i ≠ j) (hi : i < 2 ^ 32) (hj : j < 2 ^ 32) :
    slot base i ≠ slot base j := by
  intro equal
  have h := congrArg BitVec.toNat equal
  simp only [slot, BitVec.toNat_add, BitVec.toNat_ofNat] at h
  omega

theorem slot_sub_succ (base : Word) (i : ℕ) : slot (base - 8) (i + 1) = slot base i := by
  apply BitVec.eq_of_toNat_eq
  simp only [slot, BitVec.toNat_add, BitVec.toNat_sub, BitVec.toNat_ofNat, toNat_eight]
  omega

theorem slot_add_eight (base : Word) (i : ℕ) : slot (base + 8) i = slot base (i + 1) := by
  apply BitVec.eq_of_toNat_eq
  simp only [slot, BitVec.toNat_add, BitVec.toNat_ofNat, toNat_eight]
  omega

/-- The quadwords `ws` lie in memory from `base` upwards. -/
def Holds (m : Machine) (base : Word) (ws : List Word) : Prop :=
  ∀ i w, ws[i]? = some w → m.mem (slot base i) = w

theorem Holds.nil (m : Machine) (base : Word) : Holds m base [] := by
  intro i w h
  simp at h

variable {m : Machine} {base w : Word} {ws : List Word}

theorem Holds.head (h : Holds m base (w :: ws)) : m.mem base = w := by
  simpa using h 0 w rfl

theorem Holds.tail (h : Holds m base (w :: ws)) : Holds m (base + 8) ws := by
  intro i v hv
  rw [slot_add_eight]
  exact h (i + 1) v (by simpa using hv)

theorem Holds.of_mem_eq {m' : Machine} (h : Holds m base ws)
    (same : ∀ i, i < ws.length → m'.mem (slot base i) = m.mem (slot base i)) :
    Holds m' base ws := by
  intro i w hw
  have bound : i < ws.length := (List.getElem?_eq_some_iff.mp hw).1
  rw [same i bound]
  exact h i w hw

theorem Holds.push (h : Holds m (m.reg .rsp) ws) (v : Word) (short : ws.length + 1 < 2 ^ 32) :
    Holds (m.push v) ((m.push v).reg .rsp) (v :: ws) := by
  have pointer : (m.push v).reg .rsp = m.reg .rsp - 8 := rfl
  rw [pointer]
  intro i w hw
  cases i with
  | zero =>
    simp only [List.getElem?_cons_zero, Option.some.injEq] at hw
    simp [Machine.push, hw]
  | succ i =>
    have bound : i < ws.length := (List.getElem?_eq_some_iff.mp (by simpa using hw)).1
    have apart := slot_ne (m.reg .rsp - 8) (i := i + 1) (j := 0) (by omega) (by omega) (by omega)
    rw [slot_zero] at apart
    rw [Machine.push, Machine.mem_setMem, if_neg apart, Machine.mem_setReg, slot_sub_succ]
    exact h i w (by simpa using hw)

theorem Holds.setHead (h : Holds m base (w :: ws)) (v : Word) (short : ws.length + 1 < 2 ^ 32) :
    Holds (m.setMem base v) base (v :: ws) := by
  intro i u hu
  cases i with
  | zero =>
    simp only [List.getElem?_cons_zero, Option.some.injEq] at hu
    simp [hu]
  | succ i =>
    have bound : i < ws.length := (List.getElem?_eq_some_iff.mp (by simpa using hu)).1
    have apart := slot_ne base (i := i + 1) (j := 0) (by omega) (by omega) (by omega)
    rw [slot_zero] at apart
    rw [Machine.mem_setMem, if_neg apart]
    exact h (i + 1) u (by simpa using hu)

/-! ## Sequences of pushes and pops -/

theorem run_push_reg (rs : List Reg) (m : Machine) (r : Reg) (other : r ≠ .rsp) :
    (run callee (rs.map .push) m).reg r = m.reg r := by
  induction rs generalizing m with
  | nil => rfl
  | cons p rs ih =>
    rw [List.map_cons, run_cons, ih]
    simp [exec, Machine.push, other]

theorem run_push_rsp (rs : List Reg) (m : Machine) :
    (run callee (rs.map .push) m).reg .rsp = m.reg .rsp - BitVec.ofNat 64 (8 * rs.length) := by
  induction rs generalizing m with
  | nil => simp
  | cons p rs ih =>
    rw [List.map_cons, run_cons, ih]
    apply BitVec.eq_of_toNat_eq
    simp only [exec, Machine.push, Machine.reg_setMem, Machine.reg_setReg, if_true,
      List.length_cons, BitVec.toNat_sub, BitVec.toNat_ofNat, toNat_eight]
    omega

theorem run_push_holds (rs : List Reg) (m : Machine) (ws : List Word)
    (h : Holds m (m.reg .rsp) ws) (others : .rsp ∉ rs)
    (short : rs.length + ws.length < 2 ^ 32) :
    Holds (run callee (rs.map .push) m) ((run callee (rs.map .push) m).reg .rsp)
      ((rs.map m.reg).reverse ++ ws) := by
  induction rs generalizing m ws with
  | nil => simpa using h
  | cons p rs ih =>
    rw [List.mem_cons, not_or] at others
    rw [List.length_cons] at short
    have pushed := h.push (m.reg p) (by omega)
    have rest := ih (m.push (m.reg p)) (m.reg p :: ws) pushed others.2 (by rw [List.length_cons]; omega)
    have kept : rs.map (m.push (m.reg p)).reg = rs.map m.reg := by
      apply List.map_congr_left
      intro r hr
      have ne : r ≠ .rsp := fun e => others.2 (e ▸ hr)
      simp [Machine.push, ne]
    rw [kept] at rest
    simpa [exec] using rest

theorem run_pop_mem (rs : List Reg) (m : Machine) : (run callee (rs.map .pop) m).mem = m.mem := by
  induction rs generalizing m with
  | nil => rfl
  | cons p rs ih =>
    rw [List.map_cons, run_cons, ih]
    rfl

theorem run_pop_reg (rs : List Reg) (m : Machine) (r : Reg) (other : r ≠ .rsp) (absent : r ∉ rs) :
    (run callee (rs.map .pop) m).reg r = m.reg r := by
  induction rs generalizing m with
  | nil => rfl
  | cons p rs ih =>
    rw [List.mem_cons, not_or] at absent
    rw [List.map_cons, run_cons, ih _ absent.2]
    simp [exec, other, absent.1]

theorem run_pop_rsp (rs : List Reg) (m : Machine) (others : .rsp ∉ rs) :
    (run callee (rs.map .pop) m).reg .rsp = m.reg .rsp + BitVec.ofNat 64 (8 * rs.length) := by
  induction rs generalizing m with
  | nil => simp
  | cons p rs ih =>
    rw [List.mem_cons, not_or] at others
    rw [List.map_cons, run_cons, ih _ others.2]
    apply BitVec.eq_of_toNat_eq
    simp only [exec, Machine.reg_setReg, if_neg others.1, if_true, List.length_cons,
      BitVec.toNat_add, BitVec.toNat_ofNat, toNat_eight]
    omega

theorem run_pop_value (rs : List Reg) (m : Machine) (ws : List Word)
    (h : Holds m (m.reg .rsp) ws) (others : .rsp ∉ rs) (distinct : rs.Nodup) (r : Reg) (w : Word)
    (paired : (r, w) ∈ rs.zip ws) : (run callee (rs.map .pop) m).reg r = w := by
  induction rs generalizing m ws with
  | nil => simp at paired
  | cons p rs ih =>
    rw [List.mem_cons, not_or] at others
    rw [List.nodup_cons] at distinct
    cases ws with
    | nil => simp at paired
    | cons v ws =>
      rw [List.map_cons, run_cons]
      have pointer : (exec callee m (.pop p)).reg .rsp = m.reg .rsp + 8 := by
        simp [exec, others.1]
      have below : Holds (exec callee m (.pop p)) ((exec callee m (.pop p)).reg .rsp) ws := by
        rw [pointer]
        exact h.tail
      rw [List.zip_cons_cons, List.mem_cons] at paired
      rcases paired with first | later
      · cases first
        rw [run_pop_reg rs _ r (others.1 ·.symm) distinct.1]
        simp [exec, h.head]
      · exact ih _ ws below others.2 distinct.2 later

end Thuban.Lib.X64
