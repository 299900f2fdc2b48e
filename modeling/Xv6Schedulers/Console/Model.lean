import Xv6Schedulers.Lib.Fifo
import Xv6Schedulers.Lib.Machine

/-!
# Model — console input

`consoleintr` and `consoleread` of `console.c` on the ring `cons.buf`, whose indices are 32-bit and
wrap, and beside them a line editor without a ring.

* `Cons` is the input part of `cons`; `consoleintr` is one critical section and one step.
* A reader holds `cons.lock` from one `sleep` to the next; one step is a round of its loop.
* `Editor` says what the console is for: keys make a line, a line is committed as a whole, readers
  take committed bytes.  `ignored` are the keys that do nothing.
-/

namespace Xv6Schedulers.Console

open Lib Function

def INPUT_BUF_SIZE : Nat := 128

instance : NeZero INPUT_BUF_SIZE := ⟨by decide⟩

theorem bufsize_dvd : INPUT_BUF_SIZE ∣ 2 ^ 32 := by decide

/-- `C('D')`, end-of-file. -/
def ctrlD : UInt8 := 4
/-- `C('H')`, backspace. -/
def ctrlH : UInt8 := 8
/-- `C('P')`, print the process list. -/
def ctrlP : UInt8 := 16
/-- `C('U')`, kill the line. -/
def ctrlU : UInt8 := 21
/-- The delete key. -/
def delete : UInt8 := 0x7f
def newline : UInt8 := 10
def carriageReturn : UInt8 := 13

/-! ## The code -/

/-- The input part of `cons`. -/
structure Cons where
  buf : Fin INPUT_BUF_SIZE → UInt8
  r : UInt32
  w : UInt32
  e : UInt32

namespace Cons

/-- The loop of `C('U')`, which turns at most `e - w` times. -/
def killLine (s : Cons) : Nat → UInt32 → UInt32
  | 0, e => e
  | k + 1, e =>
      if e ≠ s.w ∧ s.buf (Fifo.slot INPUT_BUF_SIZE (e - 1)) ≠ newline then
        s.killLine k (e - 1)
      else
        e

/-- `cons.buf[cons.e++ % INPUT_BUF_SIZE] = c`. -/
def store (s : Cons) (c : UInt8) : Cons :=
  { s with
    buf := update s.buf (Fifo.slot INPUT_BUF_SIZE s.e) c
    e := s.e + 1 }

def consoleintr (s : Cons) (c : UInt8) : Cons :=
  if c = ctrlP then
    s
  else if c = ctrlU then
    { s with e := s.killLine (s.e - s.w).toNat s.e }
  else if c = ctrlH ∨ c = delete then
    if s.e ≠ s.w then { s with e := s.e - 1 } else s
  else if c ≠ 0 ∧ s.e - s.r < UInt32.ofNat INPUT_BUF_SIZE then
    let c := if c = carriageReturn then newline else c
    let s := s.store c
    if c = newline ∨ c = ctrlD ∨ s.e - s.r = UInt32.ofNat INPUT_BUF_SIZE then
      { s with w := s.e }
    else
      s
  else
    s

end Cons

/-- Where a reader is; `n` of the `target` bytes are still to come. -/
inductive Pc
  | user
  /-- before `acquire(&cons.lock)`, at the start or in `sleep` -/
  | wait (target n : Int)
  /-- at `while(n > 0)` -/
  | loop (target n : Int)
  deriving DecidableEq, Repr

/-- Why `consoleread` returns. -/
inductive Why
  /-- `n` bytes were read -/
  | done
  /-- the line is over -/
  | line
  /-- a control-D is next -/
  | eof
  /-- `either_copyout` failed -/
  | fault
  | killed
  deriving DecidableEq, Repr

/-- What is done to the input. -/
inductive Event
  | key (c : UInt8)
  | take
  deriving DecidableEq, Repr

/-- The console and its readers; the last three fields record history. -/
structure State (n : Nat) where
  cons : Cons
  lock : Option (Fin n)
  pc : Fin n → Pc
  /-- keys and bytes taken, in order -/
  events : List Event
  /-- the bytes taken out of the ring -/
  taken : List UInt8
  /-- why reads have returned, and with what -/
  returns : List (Why × Int)

inductive Act (n : Nat)
  /-- `consoleintr(c)` -/
  | intr (c : UInt8)
  /-- reader `p` calls `consoleread` -/
  | read (p : Fin n) (m : Int)
  /-- reader `p` goes on; it may have been killed, and `either_copyout` may fail -/
  | run (p : Fin n) (killed fault : Bool)
  deriving DecidableEq, Repr

namespace State

variable {n : Nat}

/-- `release(&cons.lock)` and return. -/
def ret (s : State n) (p : Fin n) (why : Why) (v : Int) : State n :=
  { s with
    lock := none
    pc := update s.pc p .user
    returns := s.returns ++ [(why, v)] }

/-- `cons.buf[cons.r++ % INPUT_BUF_SIZE]`. -/
def take (s : State n) (c : UInt8) : State n :=
  { s with
    cons := { s.cons with r := s.cons.r + 1 }
    events := s.events ++ [.take]
    taken := s.taken ++ [c] }

/-- One round of the loop of `consoleread`. -/
def round (s : State n) (p : Fin n) (target m : Int) (killed fault : Bool) : State n :=
  if m ≤ 0 then
    s.ret p .done (target - m)
  else if s.cons.r = s.cons.w then
    if killed then
      s.ret p .killed (-1)
    else
      { s with lock := none, pc := update s.pc p (.wait target m) }
  else
    let c := s.cons.buf (Fifo.slot INPUT_BUF_SIZE s.cons.r)
    if c = ctrlD then
      if m < target then
        -- `cons.r++` and `cons.r--`
        s.ret p .eof (target - m)
      else
        (s.take c).ret p .eof (target - m)
    else if fault then
      (s.take c).ret p .fault (target - m)
    else if c = newline then
      (s.take c).ret p .line (target - (m - 1))
    else
      let s := s.take c
      { s with pc := update s.pc p (.loop target (m - 1)) }

def step (s : State n) : Act n → Option (State n)
  | .intr c =>
      if s.lock = none then
        some { s with cons := s.cons.consoleintr c, events := s.events ++ [.key c] }
      else
        none
  | .read p m =>
      if s.pc p = .user then
        some { s with pc := update s.pc p (.wait m m) }
      else
        none
  | .run p killed fault =>
      match s.pc p with
      | .user => none
      | .wait target m =>
          if s.lock = none then
            some { s with lock := some p, pc := update s.pc p (.loop target m) }
          else
            none
      | .loop target m => some (s.round p target m killed fault)

/-- After `consoleinit`. -/
def boot (n : Nat) (buf : Fin INPUT_BUF_SIZE → UInt8) : State n where
  cons := { buf := buf, r := 0, w := 0, e := 0 }
  lock := none
  pc := fun _ => .user
  events := []
  taken := []
  returns := []

/-- The bytes that the readers have taken, and those committed in `buf[r..w)`. -/
def committed (s : State n) : List UInt8 :=
  s.taken ++ Fifo.ring s.cons.buf s.cons.r (s.cons.w - s.cons.r).toNat

end State

def machine (n : Nat) : Machine (State n) (Act n) where
  step := State.step

/-! ## The line editor -/

/-- The bytes committed so far, the line being edited, and how many bytes readers have taken. -/
structure Editor where
  out : List UInt8
  line : List UInt8
  taken : Nat

namespace Editor

/-- The bytes that have room in the buffer: those not taken, and the line. -/
def size (ed : Editor) : Nat := ed.out.length - ed.taken + ed.line.length

/-- A byte is added to the line; the end of a line, end-of-file and a full buffer commit it. -/
def insert (ed : Editor) (c : UInt8) : Editor :=
  let ed := { ed with line := ed.line ++ [c] }
  if c = newline ∨ c = ctrlD ∨ ed.size = INPUT_BUF_SIZE then
    { ed with out := ed.out ++ ed.line, line := [] }
  else
    ed

def key (ignored : UInt8 → Bool) (ed : Editor) (c : UInt8) : Editor :=
  if ignored c then
    ed
  else if c = ctrlU then
    { ed with line := [] }
  else if c = ctrlH ∨ c = delete then
    { ed with line := ed.line.dropLast }
  else if ed.size < INPUT_BUF_SIZE then
    ed.insert (if c = carriageReturn then newline else c)
  else
    ed

def step (ignored : UInt8 → Bool) (ed : Editor) : Event → Editor
  | .key c => ed.key ignored c
  | .take => { ed with taken := ed.taken + 1 }

def init : Editor where
  out := []
  line := []
  taken := 0

def run (ignored : UInt8 → Bool) (events : List Event) : Editor := events.foldl (step ignored) init

end Editor

end Xv6Schedulers.Console
