import Nyx.Process.Signals

/-! The waits a signal can interrupt: reads of the keyboard and sleeps (`syscall.c`).

Each is a loop. A pass is given what it polls, the next character or key (0 when there is
none) and the tick counter, and says how it ends: another pass follows at once, after an
interrupt, or once the task that `signal_check_stop` parked goes on. -/
namespace Nyx.Process

/-- How a pass ends. -/
inductive Turn where
  | again
  | halted
  | stopped
  | done (result : BitVec 32)
deriving DecidableEq, Repr

namespace Kernel

def eintr : BitVec 32 := 4#32

/-- `signal_pending`. -/
def signalPending (t : Proc) : Bool := t.sigPending &&& ~~~t.sigMask != 0#32

variable (k : Kernel)

/-- `signal_check_stop`, up to the point where it parks: whether it does. -/
def signalCheckStop (p : Nat) : Kernel × Bool :=
  let stops := (k.procs p).sigPending &&& (sigBit sigtstp ||| sigBit sigstop)
  if p = 0 ∨ stops = 0#32 then (k, false)
  else
    let sig := if stops &&& sigBit sigtstp ≠ 0#32 then sigtstp else sigstop
    ((k.modify p (clearPending sig)).stop p sig, true)

/-- What every loop does about signals when it has nothing else to do: it parks for a stop,
gives up for another signal, and else goes on. -/
def interrupted (self : Nat) : Kernel × Option Turn :=
  if signalPending (k.procs self) then
    match k.signalCheckStop self with
    | (k, true) => (k, some .stopped)
    | (k, false) => (k, some (.done (-eintr)))
  else (k, none)

/-! ### Keyboard input -/

/-- The characters read so far, and those echoed. -/
structure Line where
  text : List (BitVec 8)
  echo : List (BitVec 8)
deriving DecidableEq, Repr

def Line.result (l : Line) : BitVec 32 := BitVec.ofNat 32 l.text.length

def newline : BitVec 8 := 10#8
def carriageReturn : BitVec 8 := 13#8
def backspace : BitVec 8 := 8#8
def delete : BitVec 8 := 0x7F#8

/-- A pass of `stdin_read_line`. -/
def stdinReadLine (self : Nat) (max : Int) (l : Line) (c : BitVec 8) : Kernel × Line × Turn :=
  if c = 0#8 then
    if self = 0 then (k, l, .done l.result)
    else
      match k.interrupted self with
      | (k, some turn) => (k, l, turn)
      | (k, none) => (k, l, .halted)
  else
    let c := if c = carriageReturn then newline else c
    if c = backspace ∨ c = delete then
      let l := if l.text = [] then l
        else ⟨l.text.dropLast, l.echo ++ [backspace, 0x20#8, backspace]⟩
      (k, l, .again)
    else
      let l : Line := ⟨if (l.text.length : Int) < max then l.text ++ [c] else l.text, l.echo ++ [c]⟩
      (k, l, if c = newline then .done l.result else .again)

/-- The last character of the escape sequence for an extended key, if it has one. -/
def escapeOf (key : BitVec 32) : Option (BitVec 8) :=
  if key = 0x80#32 then some 0x41#8       -- up
  else if key = 0x81#32 then some 0x42#8  -- down
  else if key = 0x83#32 then some 0x43#8  -- right
  else if key = 0x82#32 then some 0x44#8  -- left
  else if key = 0x84#32 then some 0x48#8  -- home
  else if key = 0x85#32 then some 0x46#8  -- end
  else none

/-- A pass of `stdin_read_raw`, which echoes nothing. -/
def stdinReadRaw (self : Nat) (max : Int) (l : Line) (key : BitVec 32) : Kernel × Line × Turn :=
  if key = 0#32 then
    if l.text ≠ [] ∨ self = 0 then (k, l, .done l.result)
    else
      match k.interrupted self with
      | (k, some turn) => (k, l, turn)
      | (k, none) => (k, l, .halted)
  else if (0x80#32).sle key then
    match escapeOf key with
    | none => (k, l, .again)
    | some x =>
      if max < (l.text.length : Int) + 3 then (k, l, .done l.result)
      else (k, {l with text := l.text ++ [0x1B#8, 0x5B#8, x]}, .again)
  else
    let c := if key.setWidth 8 = carriageReturn then newline else key.setWidth 8
    let l := if (l.text.length : Int) < max then {l with text := l.text ++ [c]} else l
    (k, l, if max ≤ (l.text.length : Int) then .done l.result else .again)

def due (tick deadline : BitVec 32) : Bool := (0#32).sle (tick - deadline)

/-- A pass of `stdin_readkey`; a timeout of 0 waits for ever. -/
def stdinReadkey (self : Nat) (timeout deadline tick key : BitVec 32) : Kernel × Turn :=
  if key ≠ 0#32 then (k, .done key)
  else
    match if self = 0 then (k, none) else k.interrupted self with
    | (k, some turn) => (k, turn)
    | (k, none) => (k, if timeout ≠ 0#32 ∧ due tick deadline then .done 0 else .halted)

/-! ### Sleeping -/

/-- A pass of `do_sleep_ms`, up to the `hlt`. The tick that wakes it is `slept`. -/
def doSleepMs (self : Nat) (deadline tick : BitVec 32) : Kernel × Turn :=
  if due tick deadline then (k, .done 0)
  else if self = 0 then (k, .halted)
  else
    match k.interrupted self with
    | (k, some turn) => (k, turn)
    | (k, none) => (k.modify self fun t => {t with state := .blocked}, .halted)

/-- The rest of the pass, and `irq_scheduler_tick` at the deadline. -/
def slept (self : Nat) : Kernel :=
  if (k.procs self).state = .blocked then k.modify self fun t => {t with state := .run} else k

end Kernel
end Nyx.Process
