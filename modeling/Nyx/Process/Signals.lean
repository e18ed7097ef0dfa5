import Nyx.Process.Lifecycle

/-! Signals (`signal.c`, `isr.c`).

Delivery rewrites the context a task returns to ring 3 with. Whether the trampoline address can
be written to the user stack (`copy_to_user`) is the argument `writable`. Other tasks run while
a stopped one waits in `signal_dispatch`; what it does when it goes on is `resumed`. -/
namespace Nyx.Process
namespace Kernel

def sigDfl : BitVec 64 := 0#64
def sigIgn : BitVec 64 := 1#64

def sigkill : Fin nsig := 9
def sigchld : Fin nsig := 17
def sigcont : Fin nsig := 18
def sigstop : Fin nsig := 19
def sigtstp : Fin nsig := 20

def uncatchable (sig : Fin nsig) : Bool := sig == sigkill || sig == sigstop

def defaultIsIgnore (sig : Fin nsig) : Bool := sig == sigchld || sig == sigcont

/-- A signal number, 1 … 31, out of an `int` argument. -/
def signo (sig : BitVec 32) : Option (Fin nsig) :=
  if h : sig.toNat < nsig then if sig = 0#32 then none else some ⟨sig.toNat, h⟩ else none

def sigBit (sig : Fin nsig) : BitVec 32 := 1#32 <<< sig.val

variable (k : Kernel)

def signalRaise (p : Nat) (sig : BitVec 32) : Kernel :=
  match signo sig with
  | none => k
  | some s =>
    let k := if s = sigcont ∧ (k.procs p).state = .stopped then
        k.modify p fun t => {t with stopSig := 0, state := .run}
      else k
    let k := k.modify p fun t => {t with sigPending := t.sigPending ||| sigBit s}
    if (k.procs p).state = .blocked then
      k.modify p fun t => {t with waitingFor := 0, state := .run}
    else k

/-- `do_kill`; signal 0 only asks whether the process exists. -/
def doKill (pid sig : BitVec 32) : Kernel × BitVec 32 :=
  if nsig ≤ sig.toNat then (k, failed)
  else
    match k.findProcess pid with
    | none => (k, failed)
    | some target => (k.signalRaise target sig, 0)

/-- The disposition of `s` set, and the trampoline recorded. -/
def install (t : Proc) (s : Fin nsig) (handler trampoline : BitVec 64) : Proc :=
  { t with
    sigHandlers := Function.update t.sigHandlers s handler
    sigTrampoline := if trampoline ≠ 0#64 then trampoline else t.sigTrampoline
    sigPending := if handler = sigIgn then t.sigPending &&& ~~~sigBit s else t.sigPending }

/-- `do_signal`: returns the previous disposition. -/
def doSignal (self : Nat) (sig : BitVec 32) (handler trampoline : BitVec 64) : Kernel × BitVec 64 :=
  match signo sig with
  | none => (k, BitVec.allOnes 64)
  | some s =>
    if uncatchable s then (k, BitVec.allOnes 64)
    else (k.modify self (install · s handler trampoline), (k.procs self).sigHandlers s)

def handlerStack (rsp : BitVec 64) : BitVec 64 := ((rsp - 128#64) &&& ~~~15#64) - 8#64

/-- The context diverted into the handler of `s`, which is blocked until it returns. -/
def divert (t : Proc) (s : Fin nsig) (disp : BitVec 64) : Proc :=
  { t with
    frame :=
      { t.frame with
        gpr := Function.update t.frame.gpr 9 (BitVec.ofNat 64 s.val)
        rip := disp
        rsp := handlerStack t.frame.rsp }
    sigSaved := t.frame
    sigActive := t.sigActive ||| sigBit s
    sigMask := t.sigMask ||| sigBit s }

/-- The lowest-numbered signal that is pending and not blocked. -/
def deliverable (t : Proc) : Option (Fin nsig) :=
  (List.finRange nsig).find? fun s =>
    s != 0 && (t.sigPending &&& ~~~t.sigMask) &&& sigBit s != 0#32

def clearPending (s : Fin nsig) (t : Proc) : Proc :=
  {t with sigPending := t.sigPending &&& ~~~sigBit s}

/-- 128 + the signal number, the exit code of a task a signal ended. -/
def signalCode (s : Fin nsig) : BitVec 32 := 128#32 + BitVec.ofNat 32 s.val

/-- A stop: the parent's `waitpid` reports it. -/
def stop (self : Nat) (s : Fin nsig) : Kernel :=
  let stopped := fun t : Proc =>
    {t with stopSig := BitVec.ofNat 32 s.val, stoppedReported := false, state := .stopped}
  (k.modify self stopped).wakeWaiters self

/-- `signal_dispatch`, for the disposition `disp` of the signal `s` it picked. -/
def deliver (self : Nat) (s : Fin nsig) (disp : BitVec 64) (writable : Bool) : Kernel :=
  if disp = sigIgn then k.modify self (clearPending s)
  else if disp = sigDfl then
    let k := k.modify self (clearPending s)
    if defaultIsIgnore s then k
    else if s = sigtstp ∨ s = sigstop then k.stop self s
    else k.exit self (signalCode s) false
  else if (k.procs self).sigActive ≠ 0#32 then k
  else
    let k := k.modify self (clearPending s)
    if writable then (k.modify self (divert · s disp)).build disp
    else
      let k := k.modify self fun t => {t with sigSaved := t.frame}
      k.exit self (signalCode s) false

def signalDispatch (self : Nat) (writable : Bool) : Kernel :=
  let t := k.procs self
  if t.pageDirectory = 0 then k
  else
    match deliverable t with
    | none => k
    | some s =>
      let disp := if uncatchable s then sigDfl else t.sigHandlers s
      k.deliver self s disp writable

/-- A stopped task goes on: the `SIGCONT` that resumed it is consumed. -/
def resumed (self : Nat) : Kernel := k.modify self (clearPending sigcont)

/-- `signal_deliver_fault`: whether the task was diverted into a handler. -/
def signalDeliverFault (self : Nat) (sig : BitVec 32) (writable : Bool) : Kernel × Bool :=
  let t := k.procs self
  if t.pageDirectory = 0 then (k, false)
  else
    match signo sig with
    | none => (k, false)
    | some s =>
      let disp := t.sigHandlers s
      if uncatchable s ∨ disp = sigDfl ∨ disp = sigIgn ∨ t.sigActive ≠ 0#32 then (k, false)
      else if t.sigTrampoline = 0#64 ∨ writable = false then
        (k.modify self fun t => {t with sigSaved := t.frame}, false)
      else ((k.modify self (divert · s disp)).build disp, true)

/-- The end of `isr_handler` for a fault from ring 3 that no paging code resolved: into the
handler, or dead with the signal's exit code. -/
def userFault (self : Nat) (sig : BitVec 32) (writable : Bool) : Kernel :=
  match k.signalDeliverFault self sig writable with
  | (k, true) => k
  | (k, false) => k.exit self (128#32 + sig) true

/-- `do_sigreturn`: back to the interrupted context. -/
def doSigreturn (self : Nat) : Kernel :=
  if (k.procs self).sigActive = 0#32 then k
  else
    let restore := fun t : Proc =>
      {t with frame := t.sigSaved, sigMask := t.sigMask &&& ~~~t.sigActive, sigActive := 0}
    k.modify self restore

/-- The new mask: `SIG_BLOCK`, `SIG_UNBLOCK` or `SIG_SETMASK`, never blocking the signals
that cannot be caught. -/
def maskAfter (how old set : BitVec 32) : BitVec 32 :=
  let nm := if how = 0#32 then old ||| set else if how = 1#32 then old &&& ~~~set
    else if how = 2#32 then set else old
  nm &&& ~~~(sigBit sigkill ||| sigBit sigstop)

/-- `do_sigprocmask`; `writable` is false when the old mask cannot be stored. -/
def doSigprocmask (self : Nat) (how set : BitVec 32) (writable : Bool) : Kernel × BitVec 32 :=
  if writable then
    let remask := fun t : Proc =>
      let nm := maskAfter how t.sigMask set
      {t with sigMask := nm, sigActive := t.sigActive &&& nm}
    (k.modify self remask, 0)
  else (k, failed)

end Kernel
end Nyx.Process
