import Thuban.Drivers.Keyboard
import Thuban.Kernel.Spinlock

/-!
# Critical sections and interrupts

A function that takes a lock, instruction by instruction, with interrupts wherever RFLAGS lets them;
the handler takes the same lock.  Between `pushfq` and `cli` the saved flags are in a register, and
then no interrupt arrives until `popfq`.  Hence calls and interrupts act one after the other
(`guarded_atomic`), and the keyboard buffer is a queue for its readers (`keyboard_linearizable`).
-/

namespace Thuban.Kernel

open Lib

/-- RFLAGS, the register that saves it, the lock, the local variables and the data that the lock
protects. -/
structure Frame (ρ σ : Type) where
  rflags : Rflags
  flags : Rflags
  lock : Spinlock
  vars : ρ
  data : σ

inductive Code (ρ σ : Type)
  /-- `pushfq; pop flags` -/
  | pushfq
  | cli
  /-- `lock->flags = flags` -/
  | saveFlags
  /-- `lock->locked = value` -/
  | mark (value : ℤ)
  | body (step : ρ × σ → ρ × σ)
  /-- `flags = lock->flags` -/
  | loadFlags
  /-- `push flags; popfq` -/
  | popfq

variable {ρ σ ε : Type}

def Code.exec (x : Frame ρ σ) : Code ρ σ → Frame ρ σ
  | .pushfq => { x with flags := x.rflags }
  | .cli => { x with rflags := Kernel.cli x.rflags }
  | .saveFlags => { x with lock := { x.lock with flags := x.flags } }
  | .mark value => { x with lock := { x.lock with locked := value } }
  | .body step => { x with vars := (step (x.vars, x.data)).1, data := (step (x.vars, x.data)).2 }
  | .loadFlags => { x with flags := x.lock.flags }
  | .popfq => { x with rflags := x.flags }

/-- What a function executes between `cli` in `spin_lock` and `popfq` in `spin_unlock`. -/
def inside (body : List (ρ × σ → ρ × σ)) : List (Code ρ σ) :=
  [.saveFlags, .mark 1] ++ body.map .body ++ [.mark 0, .loadFlags]

/-- A function whose body runs between `spin_lock` and `spin_unlock`. -/
def guarded (body : List (ρ × σ → ρ × σ)) : List (Code ρ σ) :=
  .pushfq :: .cli :: (inside body ++ [.popfq])

/-- An interrupt whose handler changes the data by `irq e` under the same lock.  The gate clears the
interrupt flag, and `iretq` restores the registers and RFLAGS. -/
def interrupted (irq : ε → σ → σ) (e : ε) (x : Frame ρ σ) : Frame ρ σ :=
  { x with
    lock := (spinUnlock () (spinLock () ⟨cli x.rflags, fun _ => x.lock⟩)).lock ()
    data := irq e x.data }

/-- The instructions are executed, and the interrupts `es` arrive in between. -/
inductive Exec (irq : ε → σ → σ) : List (Code ρ σ) → Frame ρ σ → List ε → Frame ρ σ → Prop
  | done (x : Frame ρ σ) : Exec irq [] x [] x
  | instr {i : Code ρ σ} {code : List (Code ρ σ)} {x y : Frame ρ σ} {es : List ε}
      (rest : Exec irq code (i.exec x) es y) : Exec irq (i :: code) x es y
  | interrupt {e : ε} {code : List (Code ρ σ)} {x y : Frame ρ σ} {es : List ε}
      (on : interruptFlag x.rflags = true) (rest : Exec irq code (interrupted irq e x) es y) :
      Exec irq code x (e :: es) y

/-- The data after some interrupts. -/
def after (irq : ε → σ → σ) (es : List ε) (s : σ) : σ := es.foldl (fun s e => irq e s) s

variable {irq : ε → σ → σ} {i : Code ρ σ} {code : List (Code ρ σ)} {x y : Frame ρ σ} {es : List ε}

/-- Up to the next instruction interrupts change the lock and the data only, and none arrives while
they are off. -/
theorem Exec.next (run : Exec irq (i :: code) x es y) : ∃ now later x',
    es = now ++ later ∧ x'.rflags = x.rflags ∧ x'.flags = x.flags ∧ x'.vars = x.vars ∧
      x'.data = after irq now x.data ∧ (interruptFlag x.rflags = false → now = [] ∧ x' = x) ∧
      Exec irq code (i.exec x') later y := by
  generalize whole : i :: code = all at run
  induction run with
  | done => cases whole
  | @instr _ _ x _ _ rest =>
    cases whole
    exact ⟨[], _, x, rfl, rfl, rfl, rfl, rfl, fun _ => ⟨rfl, rfl⟩, rest⟩
  | @interrupt e _ x _ _ on _ ih =>
    obtain ⟨now, later, x', rfl, rflags, flags, vars, data, -, rest⟩ := ih whole
    exact ⟨e :: now, later, x', rfl, rflags, flags, vars, data, fun off => absurd on (by simp [off]),
      rest⟩

theorem Exec.masked (run : Exec irq (i :: code) x es y) (off : interruptFlag x.rflags = false) :
    Exec irq code (i.exec x) es y := by
  obtain ⟨now, later, x', rfl, -, -, -, -, still, rest⟩ := run.next
  obtain ⟨rfl, rfl⟩ := still off
  exact rest

theorem Exec.last (run : Exec irq [] x es y) :
    y.rflags = x.rflags ∧ y.vars = x.vars ∧ y.data = after irq es x.data := by
  generalize whole : ([] : List (Code ρ σ)) = all at run
  induction run with
  | done => exact ⟨rfl, rfl, rfl⟩
  | instr => cases whole
  | interrupt _ _ ih => exact ih whole

theorem Exec.quiet {is : List (Code ρ σ)} (off : interruptFlag x.rflags = false)
    (quiet : ∀ j ∈ is, ∀ z, (j.exec z).rflags = z.rflags)
    (run : Exec irq (is ++ i :: code) x es y) : Exec irq code (i.exec (is.foldl Code.exec x)) es y := by
  induction is generalizing x with
  | nil => exact run.masked off
  | cons j is ih =>
    refine ih ?_ (fun k hk => quiet k (List.mem_cons_of_mem _ hk)) (run.masked off)
    rw [quiet j (by simp)]
    exact off

/-- The local variables and the data after the body. -/
def through (body : List (ρ × σ → ρ × σ)) (vars : ρ) (data : σ) : ρ × σ :=
  body.foldl (fun p step => step p) (vars, data)

theorem bodies_exec (body : List (ρ × σ → ρ × σ)) (x : Frame ρ σ) :
    (body.map .body).foldl Code.exec x =
      { x with vars := (through body x.vars x.data).1, data := (through body x.vars x.data).2 } := by
  induction body generalizing x with
  | nil => rfl
  | cons step body ih => exact ih (Code.exec x (.body step))

theorem inside_exec (body : List (ρ × σ → ρ × σ)) (x : Frame ρ σ) :
    (inside body).foldl Code.exec x = ⟨x.rflags, x.flags, ⟨x.flags, 0⟩,
      (through body x.vars x.data).1, (through body x.vars x.data).2⟩ := by
  rw [inside, List.foldl_append, List.foldl_append, bodies_exec]
  rfl

theorem inside_quiet {body : List (ρ × σ → ρ × σ)} {j : Code ρ σ} (hj : j ∈ inside body)
    (z : Frame ρ σ) : (j.exec z).rflags = z.rflags := by
  simp only [inside, List.mem_append, List.mem_cons, List.mem_map, List.not_mem_nil, or_false] at hj
  rcases hj with ((rfl | rfl) | ⟨step, -, rfl⟩) | rfl | rfl <;> rfl

/-- A function under the lock is atomic: some of the interrupts come before its body and the others
after it, and RFLAGS is restored. -/
theorem guarded_atomic {body : List (ρ × σ → ρ × σ)} (run : Exec irq (guarded body) x es y) :
    ∃ before later, es = before ++ later ∧ y.rflags = x.rflags ∧
      y.vars = (through body x.vars (after irq before x.data)).1 ∧
      y.data = after irq later (through body x.vars (after irq before x.data)).2 := by
  obtain ⟨first, rest, x₁, rfl, rflags₁, -, vars₁, data₁, -, run⟩ := run.next
  obtain ⟨second, later, x₂, rfl, -, flags₂, vars₂, data₂, -, run⟩ := run.next
  have off : interruptFlag (Code.exec x₂ .cli).rflags = false := interruptFlag_cli _
  have run := run.quiet off fun j hj z => inside_quiet hj z
  rw [inside_exec] at run
  obtain ⟨flags, vars, data⟩ := run.last
  have same : x₂.data = after irq (first ++ second) x.data := by
    rw [data₂, after, after, List.foldl_append]
    exact congrArg (List.foldl _ · second) data₁
  refine ⟨first ++ second, later, (List.append_assoc ..).symm, ?_, ?_, ?_⟩
  · exact flags.trans (flags₂.trans rflags₁)
  · rw [← same, ← vars₁]
    exact vars.trans (congrArg (fun v => (through body v x₂.data).1) vars₂)
  · rw [← same, ← vars₁]
    exact data.trans (congrArg (fun v => after irq later (through body v x₂.data).2) vars₂)

end Thuban.Kernel

/-! ## The keyboard -/

namespace Thuban.Ps2

open Kernel Lib

/-- The local variables of the readers. -/
structure Locals where
  empty : Bool
  c : UInt8

inductive Call
  | getchar | available | flush

def Call.event : Call → Event
  | .getchar => .getchar
  | .available => .available
  | .flush => .flush

/-- The comparison of the indices, which `keyboard_getchar` and `keyboard_available` begin with. -/
def compareIndices (p : Locals × Keyboard) : Locals × Keyboard :=
  ({ p.1 with empty := p.2.kbBuffer.start = p.2.kbBuffer.stop }, p.2)

/-- The accesses under `kb_lock`, one by one. -/
def Call.body : Call → List (Locals × Keyboard → Locals × Keyboard)
  | .getchar => [compareIndices,
      fun p => if p.1.empty then p
        else ({ p.1 with c := p.2.kbBuffer.cells p.2.kbBuffer.start }, p.2),
      fun p => if p.1.empty then p
        else (p.1, { p.2 with
          kbBuffer := { p.2.kbBuffer with start := (p.2.kbBuffer.start + 1) % kbBufferSize } })]
  | .available => [compareIndices]
  | .flush => [fun p => (p.1, { p.2 with kbBuffer := { p.2.kbBuffer with start := 0 } }),
      fun p => (p.1, { p.2 with kbBuffer := { p.2.kbBuffer with stop := 0 } })]

def Call.result (l : Locals) : Call → Option ℤ
  | .getchar => some (if l.empty then -1 else charToInt l.c)
  | .available => some (if l.empty then 0 else 1)
  | .flush => none

/-- What `keyboard_irq_handler` does to the buffer. -/
def irq (scancode : UInt8) (kb : Keyboard) : Keyboard := (step (.irq scancode) kb).2

theorem body_step (call : Call) (l : Locals) (kb : Keyboard) :
    step call.event kb =
      (call.result (through call.body l kb).1, (through call.body l kb).2) := by
  cases call with
  | getchar =>
    by_cases empty : kb.kbBuffer.start = kb.kbBuffer.stop <;>
      simp [Call.event, step, keyboardGetchar, Call.result, through, Call.body, compareIndices, empty]
  | available =>
    by_cases empty : kb.kbBuffer.start = kb.kbBuffer.stop <;>
      simp [Call.event, step, keyboardAvailable, Call.result, through, Call.body, compareIndices, empty]
  | flush => rfl

/-- The calls one after the other, with their results and with the scancodes that arrive during each
of them. -/
inductive Calls : List (Call × Option ℤ) → List (List UInt8) →
    Frame Locals Keyboard → Frame Locals Keyboard → Prop
  | nil (x : Frame Locals Keyboard) : Calls [] [] x x
  | cons {call : Call} {r : Option ℤ} {calls : List (Call × Option ℤ)} {codes : List UInt8}
      {rest : List (List UInt8)} {x y z : Frame Locals Keyboard}
      (run : Exec irq (guarded call.body) x codes y) (returned : r = call.result y.vars)
      (later : Calls calls rest y z) : Calls ((call, r) :: calls) (codes :: rest) x z

/-- The calls and the interrupts in one order: each call stands among the interrupts that arrived
during it. -/
inductive Serial : List (Call × Option ℤ) → List (List UInt8) → List (Event × Option ℤ) → Prop
  | nil : Serial [] [] []
  | cons {call : Call} {r : Option ℤ} {calls : List (Call × Option ℤ)} {before after : List UInt8}
      {rest : List (List UInt8)} {history : List (Event × Option ℤ)}
      (later : Serial calls rest history) :
      Serial ((call, r) :: calls) ((before ++ after) :: rest)
        (before.map (Event.irq · , none) ++ (call.event, r) :: after.map (Event.irq ·, none) ++ history)

def QueueStep (q : Queue) (e : Event × Option ℤ) (q' : Queue) : Prop := q.step e.1 = (e.2, q')

variable {kb : Keyboard} {q : Queue}

theorem irqs_queue (h : Represents kb q) (codes : List UInt8) :
    ∃ q', Run QueueStep q (codes.map (Event.irq ·, none)) q' ∧ Represents (after irq codes kb) q' := by
  induction codes generalizing kb q with
  | nil => exact ⟨q, .nil q, h⟩
  | cons code codes ih =>
    obtain ⟨-, next⟩ := step_represents h (.irq code)
    obtain ⟨q', run, last⟩ := ih next
    exact ⟨q', .cons rfl run, last⟩

/-- The keyboard buffer is linearizable.  However the interrupts arrive between the instructions of
the calls, the results are those of a queue of 255 characters that takes calls and interrupts in one
order, each call among the interrupts that arrived during it. -/
theorem keyboard_linearizable {calls : List (Call × Option ℤ)} {codes : List (List UInt8)}
    {x y : Frame Locals Keyboard} (h : Represents x.data q) (run : Calls calls codes x y) :
    ∃ history q', Serial calls codes history ∧ Run QueueStep q history q' ∧
      Represents y.data q' ∧ y.rflags = x.rflags := by
  induction run generalizing q with
  | nil => exact ⟨[], q, .nil, .nil q, h, rfl⟩
  | @cons call r calls codes rest x y z run returned _ ih =>
    obtain ⟨before, later, rfl, flags, vars, data⟩ := guarded_atomic run
    obtain ⟨q₁, earlier, h₁⟩ := irqs_queue h before
    obtain ⟨result, h₂⟩ := step_represents h₁ call.event
    rw [body_step call x.vars, ← vars, ← returned] at result
    rw [body_step call x.vars] at h₂
    obtain ⟨q₃, afterwards, h₃⟩ := irqs_queue h₂ later
    rw [← data] at h₃
    obtain ⟨history, q', serial, rest, last, same⟩ := ih h₃
    refine ⟨_, q', .cons serial, ?_, last, same.trans flags⟩
    have now : QueueStep q₁ (call.event, r) (q₁.step call.event).2 := Prod.ext result.symm rfl
    exact (earlier.append (.cons now afterwards)).append rest

/-- A reader with interrupts on and nothing typed yet. -/
def idleReader : Frame Locals Keyboard :=
  ⟨0x202#64, 0, ⟨0, 0⟩, ⟨true, 0⟩, ⟨⟨false, false, false, false, false⟩, ⟨fun _ => 0, 0, 0⟩⟩⟩

/-- The key `a` is pressed after `keyboard_available` has read RFLAGS and before it clears the
interrupt flag; the call sees the character. -/
theorem keyboard_linearizable_late_key :
    ∃ history q', Serial [(.available, some 1)] [[0x1E]] history ∧
      Run QueueStep ⟨idleReader.data.modifiers, []⟩ history q' := by
  have run : Exec irq (guarded Call.available.body) idleReader [0x1E] _ :=
    .instr <| .interrupt rfl <| .instr <| .instr <| .instr <| .instr <| .instr <| .instr <|
      .instr <| .done _
  obtain ⟨history, q', serial, queue, -, -⟩ := keyboard_linearizable (represents_init _ _)
    (.cons run (show some 1 = _ by decide +kernel) (.nil _))
  exact ⟨history, q', serial, queue⟩

end Thuban.Ps2
