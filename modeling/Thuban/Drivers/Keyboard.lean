import Thuban.Lib.RingBuffer

/-!
# The PS/2 keyboard

The interrupt handler of `drivers/input/keyboard/ps2.c` and the ring buffer between it and its readers.
Every function holds `kb_lock`, which disables interrupts, so that the calls do not overlap.  Seen from
outside the buffer is a queue of 255 characters.
-/

namespace Thuban.Ps2

open Lib (RingBuffer)

/-- The state of the modifier keys and of the prefix 0xE0. -/
structure Modifiers where
  shiftPressed : Bool
  ctrlPressed : Bool
  altPressed : Bool
  capslockActive : Bool
  extendedKey : Bool
  deriving DecidableEq, Repr

structure Keyboard where
  modifiers : Modifiers
  kbBuffer : RingBuffer UInt8

def kbBufferSize : ℕ := 256

theorem kbBufferSize_pos : 0 < kbBufferSize := by decide

/-! ## The buffer -/

/-- `kb_buffer_add`. -/
def kbBufferAdd (c : UInt8) (buffer : RingBuffer UInt8) : RingBuffer UInt8 :=
  let next := (buffer.stop + 1) % kbBufferSize
  if next ≠ buffer.start then
    { buffer with cells := Function.update buffer.cells buffer.stop c, stop := next }
  else buffer

/-- The value of a `char` as an `int`; a `char` is signed. -/
def charToInt (c : UInt8) : ℤ := c.toInt8.toInt

def keyboardGetchar (buffer : RingBuffer UInt8) : ℤ × RingBuffer UInt8 :=
  if buffer.start = buffer.stop then (-1, buffer)
  else
    (charToInt (buffer.cells buffer.start),
      { buffer with start := (buffer.start + 1) % kbBufferSize })

def keyboardAvailable (buffer : RingBuffer UInt8) : ℤ := if buffer.start ≠ buffer.stop then 1 else 0

def keyboardFlush (buffer : RingBuffer UInt8) : RingBuffer UInt8 := { buffer with start := 0, stop := 0 }

/-! ## The interrupt handler -/

def keyEsc : UInt8 := 0x01

def keyLctrl : UInt8 := 0x1D

def keyLshift : UInt8 := 0x2A

def keyRshift : UInt8 := 0x36

def keyLalt : UInt8 := 0x38

def keyCapslock : UInt8 := 0x3A

/-- `KEY_F1` to `KEY_F10`, `KEY_NUMLOCK`, `KEY_SCROLLLOCK`, `KEY_F11` and `KEY_F12`. -/
def functionKeys : List UInt8 :=
  [0x3B, 0x3C, 0x3D, 0x3E, 0x3F, 0x40, 0x41, 0x42, 0x43, 0x44, 0x45, 0x46, 0x57, 0x58]

def keyLeft : UInt8 := 0x4B

def keyRight : UInt8 := 0x4D

def scancodeToAscii : List UInt8 :=
  [0, 0, 0x31, 0x32, 0x33, 0x34, 0x35, 0x36, 0x37, 0x38, 0x39, 0x30, 0x2D, 0x3D, 0x08,
    0x09, 0x71, 0x77, 0x65, 0x72, 0x74, 0x79, 0x75, 0x69, 0x6F, 0x70, 0x5B, 0x5D, 0x0A,
    0, 0x61, 0x73, 0x64, 0x66, 0x67, 0x68, 0x6A, 0x6B, 0x6C, 0x3B, 0x27, 0x60,
    0, 0x5C, 0x7A, 0x78, 0x63, 0x76, 0x62, 0x6E, 0x6D, 0x2C, 0x2E, 0x2F, 0,
    0x2A, 0, 0x20]

def scancodeToAsciiShift : List UInt8 :=
  [0, 0, 0x21, 0x40, 0x23, 0x24, 0x25, 0x5E, 0x26, 0x2A, 0x28, 0x29, 0x5F, 0x2B, 0x08,
    0x09, 0x51, 0x57, 0x45, 0x52, 0x54, 0x59, 0x55, 0x49, 0x4F, 0x50, 0x7B, 0x7D, 0x0A,
    0, 0x41, 0x53, 0x44, 0x46, 0x47, 0x48, 0x4A, 0x4B, 0x4C, 0x3A, 0x22, 0x7E,
    0, 0x7C, 0x5A, 0x58, 0x43, 0x56, 0x42, 0x4E, 0x4D, 0x3C, 0x3E, 0x3F, 0,
    0x2A, 0, 0x20]

/-- `handle_extended_key`: the characters that it adds. -/
def handleExtendedKey (scancode : UInt8) : List UInt8 :=
  if scancode = keyLeft then [0x1B, 0x5B, 0x44]
  else if scancode = keyRight then [0x1B, 0x5B, 0x43]
  else []

/-- Whether a character is in `'a'` to `'z'`. -/
def isLower (c : UInt8) : Bool := 0x61 ≤ c ∧ c ≤ 0x7A

def keyChar (scancode : UInt8) (m : Modifiers) : UInt8 :=
  let c :=
    if m.shiftPressed then scancodeToAsciiShift.getD scancode.toNat 0
    else
      let c := scancodeToAscii.getD scancode.toNat 0
      if m.capslockActive ∧ isLower c then c - 0x61 + 0x41 else c
  if m.ctrlPressed ∧ isLower c then c - 0x61 + 1 else c

def keyReleased (scancode : UInt8) (m : Modifiers) : Modifiers :=
  let m :=
    if scancode = keyLshift ∨ scancode = keyRshift then { m with shiftPressed := false }
    else if scancode = keyLctrl then { m with ctrlPressed := false }
    else if scancode = keyLalt then { m with altPressed := false }
    else m
  { m with extendedKey := false }

/-- `keyboard_irq_handler`: the characters that it passes to `kb_buffer_add`, one after the other, and
the modifiers. -/
def keyboardIrqHandler (scancode : UInt8) (m : Modifiers) : List UInt8 × Modifiers :=
  if scancode = 0xE0 then ([], { m with extendedKey := true })
  else if scancode &&& 0x80 ≠ 0 then ([], keyReleased (scancode &&& 0x7F) m)
  else if m.extendedKey then (handleExtendedKey scancode, { m with extendedKey := false })
  else if scancode = keyLshift ∨ scancode = keyRshift then ([], { m with shiftPressed := true })
  else if scancode = keyLctrl then ([], { m with ctrlPressed := true })
  else if scancode = keyLalt then ([], { m with altPressed := true })
  else if scancode = keyCapslock then ([], { m with capslockActive := !m.capslockActive })
  else if scancode = keyEsc ∨ scancode ∈ functionKeys then ([], m)
  else if scancode.toNat < scancodeToAscii.length then
    if keyChar scancode m ≠ 0 then ([keyChar scancode m], m) else ([], m)
  else ([], m)

/-- The calls that reach the buffer. -/
inductive Event
  | irq (scancode : UInt8)
  | getchar
  | available
  | flush
  deriving DecidableEq, Repr

/-- The value that a call returns, if any, and the keyboard behind it. -/
def step : Event → Keyboard → Option ℤ × Keyboard
  | .irq scancode, kb =>
      match keyboardIrqHandler scancode kb.modifiers with
      | (chars, modifiers) =>
          (none, ⟨modifiers, chars.foldl (fun buffer c => kbBufferAdd c buffer) kb.kbBuffer⟩)
  | .getchar, kb =>
      match keyboardGetchar kb.kbBuffer with
      | (c, buffer) => (some c, { kb with kbBuffer := buffer })
  | .available, kb => (some (keyboardAvailable kb.kbBuffer), kb)
  | .flush, kb => (none, { kb with kbBuffer := keyboardFlush kb.kbBuffer })

/-- The results of a sequence of calls and the state behind it. -/
def outputs {σ : Type*} (step : Event → σ → Option ℤ × σ) : List Event → σ → List (Option ℤ) × σ
  | [], s => ([], s)
  | e :: es, s => ((step e s).1 :: (outputs step es (step e s).2).1, (outputs step es (step e s).2).2)

/-! ## The queue -/

/-- A keyboard with a queue in the place of the buffer. -/
structure Queue where
  modifiers : Modifiers
  pending : List UInt8

/-- A character is dropped only if as many as fit are pending. -/
def enqueue (pending : List UInt8) (c : UInt8) : List UInt8 :=
  if pending.length = kbBufferSize - 1 then pending else pending ++ [c]

def Queue.step : Event → Queue → Option ℤ × Queue
  | .irq scancode, q =>
      match keyboardIrqHandler scancode q.modifiers with
      | (chars, modifiers) => (none, ⟨modifiers, chars.foldl enqueue q.pending⟩)
  | .getchar, q =>
      match q.pending with
      | [] => (some (-1), q)
      | c :: rest => (some (charToInt c), { q with pending := rest })
  | .available, q => (some (if q.pending ≠ [] then 1 else 0), q)
  | .flush, q => (none, { q with pending := [] })

/-- The buffer holds the characters that are pending; all of them are ASCII. -/
structure Represents (kb : Keyboard) (q : Queue) : Prop where
  modifiers : kb.modifiers = q.modifiers
  within : kb.kbBuffer.Within kbBufferSize
  contents : kb.kbBuffer.contents kbBufferSize = q.pending
  ascii : ∀ c ∈ q.pending, c < 0x80

variable {buffer : RingBuffer UInt8} {c : UInt8} {kb : Keyboard} {q : Queue}

theorem kbBufferAdd_represents (within : buffer.Within kbBufferSize) (c : UInt8) :
    (kbBufferAdd c buffer).Within kbBufferSize ∧
      (kbBufferAdd c buffer).contents kbBufferSize = enqueue (buffer.contents kbBufferSize) c := by
  have full := within.full_iff
  unfold kbBufferAdd enqueue
  rw [RingBuffer.length_contents]
  by_cases room : (buffer.stop + 1) % kbBufferSize = buffer.start
  · rw [if_neg (not_not.mpr room), if_pos (by omega)]
    exact ⟨within, rfl⟩
  · have count : ¬ buffer.count kbBufferSize = kbBufferSize - 1 := fun same =>
      room (full.mpr (by rw [same]; rfl))
    rw [if_pos room, if_neg count]
    exact ⟨within.push c, within.contents_push c room⟩

theorem addAll_represents (chars : List UInt8) (within : buffer.Within kbBufferSize) :
    (chars.foldl (fun buffer c => kbBufferAdd c buffer) buffer).Within kbBufferSize ∧
      (chars.foldl (fun buffer c => kbBufferAdd c buffer) buffer).contents kbBufferSize =
        chars.foldl enqueue (buffer.contents kbBufferSize) := by
  induction chars generalizing buffer with
  | nil => exact ⟨within, rfl⟩
  | cons c rest ih =>
    obtain ⟨within', contents'⟩ := kbBufferAdd_represents within c
    rw [List.foldl_cons, List.foldl_cons, ← contents']
    exact ih within'

theorem mem_enqueueAll {chars pending : List UInt8} (mem : c ∈ chars.foldl enqueue pending) :
    c ∈ pending ∨ c ∈ chars := by
  induction chars generalizing pending with
  | nil => exact .inl mem
  | cons first rest ih =>
    rcases ih mem with old | new
    · unfold enqueue at old
      split_ifs at old
      · exact .inl old
      · rcases List.mem_append.mp old with old | here
        · exact .inl old
        · exact .inr (List.mem_singleton.mp here ▸ List.mem_cons_self ..)
    · exact .inr (List.mem_cons_of_mem _ new)

/-! ## The characters of the keys -/

theorem getD_lt {table : List UInt8} (ascii : table.all (· < 0x80) = true) (i : ℕ) :
    table.getD i 0 < 0x80 := by
  rw [List.getD_eq_getElem?_getD]
  cases here : table[i]? with
  | none => decide
  | some c => exact of_decide_eq_true (List.all_eq_true.mp ascii c (List.mem_of_getElem? here))

theorem lower_shifted_lt (lower : isLower c = true) (target : UInt8) (low : target ≤ 0x41) :
    c - 0x61 + target < 0x80 := by
  obtain ⟨first, last⟩ : 0x61 ≤ c ∧ c ≤ 0x7A := by simpa [isLower] using lower
  rw [UInt8.le_iff_toNat_le, show (0x61 : UInt8).toNat = 0x61 from rfl] at first
  rw [UInt8.le_iff_toNat_le, show (0x7A : UInt8).toNat = 0x7A from rfl] at last
  rw [UInt8.le_iff_toNat_le, show (0x41 : UInt8).toNat = 0x41 from rfl] at low
  rw [UInt8.lt_iff_toNat_lt, UInt8.toNat_add, UInt8.toNat_sub,
    show (0x61 : UInt8).toNat = 0x61 from rfl, show (0x80 : UInt8).toNat = 0x80 from rfl]
  omega

theorem keyChar_lt (scancode : UInt8) (m : Modifiers) : keyChar scancode m < 0x80 := by
  have plain : scancodeToAscii.getD scancode.toNat 0 < 0x80 := getD_lt (by decide +kernel) _
  have shifted : scancodeToAsciiShift.getD scancode.toNat 0 < 0x80 := getD_lt (by decide +kernel) _
  unfold keyChar
  dsimp only
  generalize scancodeToAscii.getD scancode.toNat 0 = c at plain ⊢
  generalize scancodeToAsciiShift.getD scancode.toNat 0 = c' at shifted ⊢
  have base : (if m.shiftPressed = true then c'
      else if m.capslockActive = true ∧ isLower c = true then c - 0x61 + 0x41 else c) < 0x80 := by
    split_ifs with shift caps
    · exact shifted
    · exact lower_shifted_lt caps.2 _ (by decide)
    · exact plain
  generalize (if m.shiftPressed = true then c'
    else if m.capslockActive = true ∧ isLower c = true then c - 0x61 + 0x41 else c) = d at base ⊢
  split_ifs with ctrl
  · exact lower_shifted_lt ctrl.2 _ (by decide)
  · exact base

theorem keyboardIrqHandler_chars (scancode : UInt8) (m : Modifiers) :
    (keyboardIrqHandler scancode m).1 = [] ∨
      (keyboardIrqHandler scancode m).1 = handleExtendedKey scancode ∨
      (keyboardIrqHandler scancode m).1 = [keyChar scancode m] := by
  unfold keyboardIrqHandler
  repeat' split
  all_goals simp only [true_or, or_true]

theorem keyboardIrqHandler_ascii {scancode c : UInt8} {m : Modifiers}
    (mem : c ∈ (keyboardIrqHandler scancode m).1) : c < 0x80 := by
  rcases keyboardIrqHandler_chars scancode m with none | extended | key
  · rw [none] at mem
    exact absurd mem List.not_mem_nil
  · rw [extended, handleExtendedKey] at mem
    split_ifs at mem
    · revert c
      decide +kernel
    · revert c
      decide +kernel
    · exact absurd mem List.not_mem_nil
  · rw [key] at mem
    exact List.mem_singleton.mp mem ▸ keyChar_lt scancode m

theorem charToInt_ne (ascii : c < 0x80) : charToInt c ≠ -1 := by
  intro same
  have back : c.toInt8 = -1 := Int8.toInt_inj.mp same
  have eq : c = (-1 : Int8).toUInt8 := by rw [← back, UInt8.toUInt8_toInt8]
  rw [eq] at ascii
  exact absurd ascii (by decide)

/-! ## The buffer is a queue -/

theorem step_represents (h : Represents kb q) (e : Event) :
    (step e kb).1 = (q.step e).1 ∧ Represents (step e kb).2 (q.step e).2 := by
  obtain ⟨modifiers, within, contents, ascii⟩ := h
  cases e with
  | irq scancode =>
    simp only [step, Queue.step, modifiers]
    have handled := fun c => @keyboardIrqHandler_ascii scancode c q.modifiers
    generalize keyboardIrqHandler scancode q.modifiers = answer at handled ⊢
    obtain ⟨chars, modifiers'⟩ := answer
    obtain ⟨within', contents'⟩ := addAll_represents chars within
    refine ⟨trivial, rfl, within', contents'.trans (by rw [contents]), fun c mem => ?_⟩
    exact (mem_enqueueAll mem).elim (ascii c) (handled c)
  | getchar =>
    have empty := within.contents_eq_nil
    rw [contents] at empty
    simp only [step, Queue.step, keyboardGetchar]
    cases pending : q.pending with
    | nil =>
      rw [if_pos (empty.mp pending)]
      exact ⟨rfl, modifiers, within, contents, ascii⟩
    | cons c rest =>
      have more : kb.kbBuffer.start ≠ kb.kbBuffer.stop := fun same => by
        rw [empty.mpr same] at pending
        cases pending
      have split := within.contents_pop more
      rw [contents, pending] at split
      obtain ⟨here, later⟩ := List.cons.inj split
      rw [if_neg more, ← here]
      refine ⟨rfl, modifiers, within.pop, later.symm, fun d mem => ?_⟩
      exact ascii d (pending ▸ List.mem_cons_of_mem _ mem)
  | available =>
    have empty := within.contents_eq_nil
    rw [contents] at empty
    refine ⟨?_, modifiers, within, contents, ascii⟩
    simp [step, Queue.step, keyboardAvailable, empty]
  | flush =>
    have within' : (keyboardFlush kb.kbBuffer).Within kbBufferSize :=
      ⟨kbBufferSize_pos, kbBufferSize_pos⟩
    exact ⟨rfl, modifiers, within', within'.contents_eq_nil.mpr rfl, nofun⟩

theorem outputs_represents (h : Represents kb q) (es : List Event) :
    (outputs step es kb).1 = (outputs (fun e q => q.step e) es q).1 ∧
      Represents (outputs step es kb).2 (outputs (fun e q => q.step e) es q).2 := by
  induction es generalizing kb q with
  | nil => exact ⟨rfl, h⟩
  | cons e es ih =>
    obtain ⟨same, next⟩ := step_represents h e
    obtain ⟨later, last⟩ := ih next
    exact ⟨by rw [outputs, outputs, same, later], last⟩

theorem represents_init (modifiers : Modifiers) (cells : ℕ → UInt8) :
    Represents ⟨modifiers, ⟨cells, 0, 0⟩⟩ ⟨modifiers, []⟩ := by
  have empty : (⟨cells, 0, 0⟩ : RingBuffer UInt8).Within kbBufferSize :=
    ⟨kbBufferSize_pos, kbBufferSize_pos⟩
  exact ⟨rfl, empty, empty.contents_eq_nil.mpr rfl, nofun⟩

/-- Behind `keyboard_init`, for every sequence of interrupts and calls: the results are those of a queue
of 255 characters, the buffer holds what is pending in it, its indices are within the array, and
`keyboard_getchar` returns -1 if and only if nothing is pending. -/
theorem keyboard_fifo (modifiers : Modifiers) (cells : ℕ → UInt8) (es : List Event) :
    let kb := outputs step es ⟨modifiers, ⟨cells, 0, 0⟩⟩
    let queue := outputs (fun e q => Queue.step e q) es ⟨modifiers, []⟩
    kb.1 = queue.1 ∧ kb.2.kbBuffer.contents kbBufferSize = queue.2.pending ∧
      queue.2.pending.length ≤ kbBufferSize - 1 ∧
      kb.2.kbBuffer.start < kbBufferSize ∧ kb.2.kbBuffer.stop < kbBufferSize ∧
      ((keyboardGetchar kb.2.kbBuffer).1 = -1 ↔ queue.2.pending = []) := by
  intro kb queue
  obtain ⟨same, last⟩ := outputs_represents (represents_init modifiers cells) es
  have within := last.within
  have short : queue.2.pending.length < kbBufferSize := by
    rw [← last.contents, RingBuffer.length_contents]
    exact within.count_lt
  refine ⟨same, last.contents, by omega, within.start, within.stop, ?_⟩
  rw [← last.contents, within.contents_eq_nil, keyboardGetchar]
  split_ifs with equal
  · exact iff_of_true rfl equal
  · refine iff_of_false (charToInt_ne (last.ascii _ ?_)) equal
    rw [← last.contents, within.contents_pop equal]
    exact List.mem_cons_self ..

end Thuban.Ps2
