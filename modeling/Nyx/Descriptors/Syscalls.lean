import Nyx.Descriptors.Pipes
import Nyx.Descriptors.Sockets
import Nyx.Process.Reaping

/-! The system calls on descriptors (`syscall.c`) and what they ask of the layers below.

A slot of a descriptor table holds one integer, tagged as a pipe end, a socket or a VFS
node. `Io` is the process layer with the tables of pipes and sockets; every call into the
VFS, the pipe code or the socket code is recorded with its handle (`calls`), and a new socket
with the task it was made for (`makers`). No operation reads these records. -/
namespace Nyx.Descriptors
open Nyx.Process Nyx.Process.Kernel

/-! ### Handles -/

def ufdPipeMake (id : Fin maxPipes) (isWrite : Bool) : BitVec 32 :=
  ufdPipeFlag ||| BitVec.ofNat 32 id.val <<< 1 ||| if isWrite then 1#32 else 0#32

def ufdSockMake (id : Fin maxSockets) : BitVec 32 :=
  ufdSockFlag ||| BitVec.ofNat 32 id.val &&& 0xFFFF#32

def isPipe (h : BitVec 32) : Bool := h &&& ufdPipeFlag != 0#32

def isSock (h : BitVec 32) : Bool := h &&& ufdSockFlag != 0#32

/-- What `vfs_open` returns: the address of a node of its pool, which is part of the kernel
image at the bottom of memory. -/
structure Node where
  handle : BitVec 32
  low : handle.toNat < 0x20000000

inductive Vfs where
  | open
  | close
  | pread
  | pwrite
  | fsize
  | fstat
  | dup
  | fdata
  | readdir
deriving DecidableEq, Repr

inductive PipeCall where
  | make
  | incref
  | closeEnd
  | read
  | write
  | readable
deriving DecidableEq, Repr

inductive NsockCall where
  | make
  | control
  | accept
  | send
  | recv
  | readable
  | close
deriving DecidableEq, Repr

inductive Call where
  | vfs (fn : Vfs) (handle : BitVec 32)
  | pipe (fn : PipeCall) (handle : BitVec 32)
  | nsock (fn : NsockCall) (handle : BitVec 32)
deriving DecidableEq, Repr

structure Io where
  kernel : Kernel
  pipes : Pipes
  nsocks : Nsocks
  calls : List Call
  makers : Fin maxSockets → Nat

namespace Io
variable (s : Io)

def log (c : Call) : Io := {s with calls := s.calls ++ [c]}

/-- A task is made runnable, if there is one. -/
def wake (p : Nat) : Io :=
  if p = 0 then s else {s with kernel := s.kernel.modify p fun t => {t with state := .run}}

/-! ### The layers, by handle -/

def pipeCloseEnd (h : BitVec 32) : Io :=
  let (pipes, woken) := s.pipes.pipeCloseEnd (ufdPipeId h) (ufdPipeIsWrite h)
  ({s with pipes := pipes}.wake woken).log (.pipe .closeEnd h)

def pipeIncref (h : BitVec 32) : Io :=
  {s with pipes := s.pipes.pipeIncref (ufdPipeId h) (ufdPipeIsWrite h)}.log (.pipe .incref h)

def nsockClose (h : BitVec 32) : Io :=
  {s with nsocks := s.nsocks.nsockClose (ufdSockId h)}.log (.nsock .close h)

def closeHandle (h : BitVec 32) : Io :=
  if isPipe h then s.pipeCloseEnd h
  else if isSock h then s.nsockClose h
  else s.log (.vfs .close h)

/-! ### The descriptor table of a thread group -/

def ufdBase : Nat := 3

def fdOwner (self : Nat) : Nat := s.kernel.tgLeader self

def slotOf (fd : BitVec 32) : Option (Fin procMaxFds) :=
  if h : fd.toNat < procMaxFds then some ⟨fd.toNat, h⟩ else none

def setSlot (p : Nat) (i : Fin procMaxFds) (inuse : Bool) (handle offset : BitVec 32) : Io :=
  let set := fun t : Proc =>
    { t with
      ufdInuse := Function.update t.ufdInuse i inuse
      ufdHandle := Function.update t.ufdHandle i handle
      ufdOffset := Function.update t.ufdOffset i offset }
  {s with kernel := s.kernel.modify p set}

def setOffset (p : Nat) (i : Fin procMaxFds) (offset : BitVec 32) : Io :=
  {s with kernel := s.kernel.modify p fun t =>
    {t with ufdOffset := Function.update t.ufdOffset i offset}}

/-- `ufd_release`, and every other place that clears `ufd_inuse`. -/
def clearSlot (p : Nat) (i : Fin procMaxFds) : Io :=
  {s with kernel := s.kernel.modify p fun t =>
    {t with ufdInuse := Function.update t.ufdInuse i false}}

/-- The lowest free descriptor from `UFD_BASE` on. -/
def freeFd (p : Nat) : Option (Fin procMaxFds) :=
  (List.finRange procMaxFds).find? fun i => ufdBase ≤ i.val && !(s.kernel.procs p).ufdInuse i

def ufdAlloc (self : Nat) (handle : BitVec 32) : Io × Option (Fin procMaxFds) :=
  match s.freeFd (s.fdOwner self) with
  | none => (s, none)
  | some i => (s.setSlot (s.fdOwner self) i true handle 0, some i)

def ufdLookup (self : Nat) (fd : BitVec 32) : Option (Fin procMaxFds × BitVec 32) :=
  match slotOf fd with
  | none => none
  | some i =>
    if (s.kernel.procs (s.fdOwner self)).ufdInuse i then
      some (i, (s.kernel.procs (s.fdOwner self)).ufdHandle i)
    else none

def offsetOf (self : Nat) (i : Fin procMaxFds) : BitVec 32 :=
  (s.kernel.procs (s.fdOwner self)).ufdOffset i

end Io

def fdResult (i : Fin procMaxFds) : BitVec 32 := BitVec.ofNat 32 i.val

/-- What a call meets outside this layer: memory for its buffer, whether the copy from or
to the user's memory succeeds, and the number the layer below answers. -/
structure Env where
  heap : Bool
  copied : Bool
  answer : BitVec 32

/-- Everything outside this layer works. -/
def Env.good : Env := ⟨true, true, 0⟩

namespace Io
variable (s : Io) (self : Nat)

/-! ### Files and data -/

/-- `SYS_OPEN`, given what `vfs_open` returns. -/
def sysOpen (node : Option Node) (append : Bool) (env : Env) : Io × BitVec 32 :=
  match node with
  | none => (s, failed)
  | some n =>
    match (s.log (.vfs .open n.handle)).ufdAlloc self n.handle with
    | (s, none) => (s.log (.vfs .close n.handle), failed)
    | (s, some i) =>
      if append then
        let size := if (0#32).slt env.answer then env.answer else 0
        ((s.log (.vfs .fsize n.handle)).setOffset (s.fdOwner self) i size, fdResult i)
      else (s, fdResult i)

/-- The offset of a descriptor after `n` bytes, if that many were moved. -/
def advance (i : Fin procMaxFds) (n : BitVec 32) : Io :=
  if (0#32).slt n then s.setOffset (s.fdOwner self) i (s.offsetOf self i + n) else s

/-- A pass of `SYS_READ` for up to `count` bytes. An empty slot 0 reads the keyboard, which
is outside this layer. -/
def sysRead (fd : BitVec 32) (count : Nat) (env : Env) : Io × BitVec 32 :=
  match s.ufdLookup self fd with
  | none => (s, failed)
  | some (i, h) =>
    if isPipe h then
      if ufdPipeIsWrite h ∨ env.heap = false then (s, failed)
      else
        let s' := s.log (.pipe .read h)
        match s.pipes.pipeRead (ufdPipeId h) count self with
        | (pipes, .failed) => ({s' with pipes := pipes}, failed)
        | (pipes, .bytes data) =>
          ({s' with pipes := pipes},
            if data = [] ∨ env.copied then BitVec.ofNat 32 data.length else failed)
        | (pipes, .parked) =>
          let parked := s.kernel.modify self fun t => {t with state := .blocked}
          ({s' with pipes := pipes, kernel := parked}, 0)
    else if env.heap = false then (s, failed)
    else if isSock h then
      let result := if (0#32).slt env.answer ∧ env.copied = false then failed else env.answer
      (s.log (.nsock .recv h), result)
    else
      let n := if (0#32).slt env.answer ∧ env.copied = false then failed else env.answer
      ((s.log (.vfs .pread h)).advance self i n, n)

/-- `SYS_WRITE` of these bytes. An empty slot 1 or 2 writes to the console, which is outside
this layer. -/
def sysWrite (fd : BitVec 32) (src : List (BitVec 8)) (env : Env) : Io × BitVec 32 :=
  match s.ufdLookup self fd with
  | none => (s, failed)
  | some (i, h) =>
    if isPipe h ∧ ufdPipeIsWrite h = false ∨ env.heap = false ∨ env.copied = false then (s, failed)
    else if isPipe h then
      let (pipes, woken, n) := s.pipes.pipeWrite (ufdPipeId h) src
      (({s with pipes := pipes}.wake woken).log (.pipe .write h),
        match n with
        | none => failed
        | some n => BitVec.ofNat 32 n)
    else if isSock h then (s.log (.nsock .send h), env.answer)
    else ((s.log (.vfs .pwrite h)).advance self i env.answer, env.answer)

def sysClose (fd : BitVec 32) : Io × BitVec 32 :=
  match s.ufdLookup self fd with
  | none => (s, failed)
  | some (i, h) => ((s.clearSlot (s.fdOwner self) i).closeHandle h, 0)

def sysFsize (fd : BitVec 32) (env : Env) : Io × BitVec 32 :=
  match s.ufdLookup self fd with
  | none => (s, failed)
  | some (_, h) => (s.log (.vfs .fsize h), env.answer)

def sysFstat (fd : BitVec 32) (env : Env) : Io × BitVec 32 :=
  match s.ufdLookup self fd with
  | none => (s, failed)
  | some (_, h) =>
    if isPipe h || isSock h then (s, if env.copied then 0 else failed)
    else (s.log (.vfs .fstat h), if env.answer = 0 ∧ env.copied then 0 else failed)

/-- `SYS_LSEEK`: the new offset is computed with 64 bits and stored with 32. -/
def sysLseek (fd : BitVec 32) (offset : BitVec 64) (whence : BitVec 32) (env : Env) :
    Io × BitVec 32 :=
  match s.ufdLookup self fd with
  | none => (s, failed)
  | some (i, h) =>
    if isPipe h || isSock h then (s, failed)
    else if whence = 0#32 ∨ whence = 1#32 ∨ whence = 2#32 then
      let size := if (0#32).slt env.answer then env.answer else 0
      let base := if whence = 0#32 then 0#64
        else if whence = 1#32 then (s.offsetOf self i).setWidth 64 else size.setWidth 64
      let s := if whence = 2#32 then s.log (.vfs .fsize h) else s
      if (base + offset).slt 0 then (s, failed)
      else
        let noff := (base + offset).setWidth 32
        (s.setOffset (s.fdOwner self) i noff, noff)
    else (s, failed)

/-! ### Copies of descriptors -/

/-- `SYS_DUP2`. A pipe end is duplicated, anything else moves. -/
def sysDup2 (oldfd newfd : BitVec 32) : Io × BitVec 32 :=
  match s.ufdLookup self oldfd, slotOf newfd with
  | some (i, h), some j =>
    if newfd = oldfd then (s, newfd)
    else
      let p := s.fdOwner self
      let offset := s.offsetOf self i
      let old := (s.kernel.procs p).ufdHandle j
      -- The slot that is replaced is closed as a pipe end or as a VFS node.
      let s := if (s.kernel.procs p).ufdInuse j then
          (if isPipe old then s.pipeCloseEnd old else s.log (.vfs .close old)).clearSlot p j
        else s
      if isPipe h then ((s.pipeIncref h).setSlot p j true h 0, newfd)
      else ((s.setSlot p j true h offset).clearSlot p i, newfd)
  | _, _ => (s, failed)

/-- `SYS_DUP`. -/
def sysDup (oldfd : BitVec 32) : Io × BitVec 32 :=
  match s.ufdLookup self oldfd with
  | none => (s, failed)
  | some (i, h) =>
    match s.ufdAlloc self h with
    | (s, none) => (s, failed)
    | (s, some j) =>
      let s := if isPipe h then s.pipeIncref h
        else if isSock h then s
        else s.log (.vfs .dup h)
      (s.setOffset (s.fdOwner self) j (s.offsetOf self i), fdResult j)

/-! ### Pipes and sockets -/

/-- `SYS_PIPE`; with no slots for its ends, or no memory to return them in, the pipe is
closed again. -/
def sysPipe (env : Env) : Io × BitVec 32 :=
  match s.pipes.pipeNew with
  | (_, none) => (s, failed)
  | (pipes, some id) =>
    let s := ({s with pipes := pipes}.log (.pipe .make (ufdPipeMake id false))).log
      (.pipe .make (ufdPipeMake id true))
    let (s, rfd) := s.ufdAlloc self (ufdPipeMake id false)
    let (s, wfd) := s.ufdAlloc self (ufdPipeMake id true)
    if rfd.isSome ∧ wfd.isSome ∧ env.copied then (s, 0)
    else
      let release := fun (s : Io) (fd : Option (Fin procMaxFds)) =>
        match fd with
        | none => s
        | some i => s.clearSlot (s.fdOwner self) i
      let s := release (release s rfd) wfd
      ((s.pipeCloseEnd (ufdPipeMake id false)).pipeCloseEnd (ufdPipeMake id true), failed)

/-- A slot of the socket table that was just taken, in a descriptor of its own. -/
def installSocket (id : Fin maxSockets) : Io × BitVec 32 :=
  let s := {s with makers := Function.update s.makers id (s.fdOwner self)}.log
    (.nsock .make (ufdSockMake id))
  match s.ufdAlloc self (ufdSockMake id) with
  | (s, none) => (s.nsockClose (ufdSockMake id), failed)
  | (s, some i) => (s, fdResult i)

/-- `SYS_SOCKET`. -/
def sysSocket (type : BitVec 32) (env : Env) : Io × BitVec 32 :=
  match s.nsocks.nsockCreate type env.heap with
  | (nsocks, none) => ({s with nsocks := nsocks}, failed)
  | (nsocks, some id) => {s with nsocks := nsocks}.installSocket self id

/-- `SYS_ACCEPT`. -/
def sysAccept (fd : BitVec 32) (child : Option Nat) : Io × BitVec 32 :=
  match s.ufdLookup self fd with
  | none => (s, failed)
  | some (_, h) =>
    if isSock h = false then (s, failed)
    else
      let s := s.log (.nsock .accept h)
      match s.nsocks.nsockAccept (ufdSockId h) child with
      | (_, none) => (s, failed)
      | (nsocks, some id) => {s with nsocks := nsocks}.installSocket self id

/-- What the calls on a socket share, `ready` being false when a buffer is missing. -/
def onSocket (fd : BitVec 32) (op : SockOp) (ready : Bool) (result : BitVec 32) : Io × BitVec 32 :=
  match s.ufdLookup self fd with
  | none => (s, failed)
  | some (_, h) =>
    if isSock h = false ∨ ready = false then (s, failed)
    else
      ({s with nsocks := s.nsocks.nsockApply (ufdSockId h) op}.log (.nsock .control h), result)

def sysConnect (fd : BitVec 32) (conn : Option Nat) (env : Env) : Io × BitVec 32 :=
  s.onSocket self fd (.connect conn) true env.answer

def sysBind (fd : BitVec 32) (port : BitVec 16) (env : Env) : Io × BitVec 32 :=
  s.onSocket self fd (.bind port) true env.answer

def sysListen (fd : BitVec 32) (conn : Option Nat) (env : Env) : Io × BitVec 32 :=
  s.onSocket self fd (.listen conn) true env.answer

def sysSendto (fd : BitVec 32) (ephemeral : BitVec 16) (env : Env) : Io × BitVec 32 :=
  s.onSocket self fd (.sendto ephemeral) (env.heap && env.copied) env.answer

def sysRecvfrom (fd : BitVec 32) (env : Env) : Io × BitVec 32 :=
  let result := if (0#32).slt env.answer ∧ env.copied = false then failed else env.answer
  s.onSocket self fd .recvfrom env.heap result

/-- A pass of `SYS_POLL` over these descriptors, each with whether `POLLIN` is asked for. -/
def sysPoll : List (BitVec 32 × Bool) → Io → Io
  | [], s => s
  | (fd, pollin) :: rest, s =>
    let s := match s.ufdLookup self fd with
      | none => s
      | some (_, h) =>
        if isPipe h then
          if pollin && !ufdPipeIsWrite h then s.log (.pipe .readable h) else s
        else if isSock h && pollin then s.log (.nsock .readable h)
        else s
    sysPoll rest s

/-! ### Files read by the kernel -/

/-- `SYS_EXEC`, `SYS_EXECVE` and the spawning of programs read the file and close it before
they load it. -/
def readFile : Option Node → Io
  | none => s
  | some n =>
    (((s.log (.vfs .open n.handle)).log (.vfs .fsize n.handle)).log (.vfs .fdata n.handle)).log
      (.vfs .close n.handle)

/-- `SYS_GETDENTS`, with the number of entries it asks for. -/
def sysGetdents (node : Option Node) (turns : Nat) : Io :=
  match node with
  | none => s
  | some n =>
    {s with calls := s.calls ++ .vfs .open n.handle ::
      List.replicate turns (.vfs .readdir n.handle) ++ [.vfs .close n.handle]}

/-- Does `do_mmap` come to reading the file? -/
def mmapReads (length : BitVec 64) (file : FileArg) (block : Nat) : Bool :=
  let t := s.kernel.procs (s.kernel.tgLeader self)
  let stop := mmapStart t + roundUp length
  length != 0#64 && (freeSlot t).isSome && !(mmapMax.ult stop || stop.ult (mmapStart t)) &&
    file.backed && (s.kernel.kmalloc block).2 != 0

/-- `SYS_MMAP`: of the descriptor's file, or anonymous without one. -/
def sysMmap (length : BitVec 64) (prot : BitVec 32) (fd : Option (BitVec 32))
    (off : BitVec 32) (block : Nat) (readable : Bool) (env : Env) : Io × BitVec 64 :=
  match fd with
  | none =>
    let (k, a) := s.kernel.doMmap self length prot ⟨0, 0, off⟩ block readable
    ({s with kernel := k}, a)
  | some fd =>
    match s.ufdLookup self fd with
    | none => (s, mapFailed)
    | some (_, h) =>
      if isPipe h then (s, mapFailed)
      else
        let file : FileArg := ⟨h, env.answer, off⟩
        let asked := s.log (.vfs .fsize h)
        let asked := if s.mmapReads self length file block then asked.log (.vfs .pread h) else asked
        let (k, a) := s.kernel.doMmap self length prot file block readable
        ({asked with kernel := k}, a)

end Io
end Nyx.Descriptors
