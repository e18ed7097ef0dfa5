import Mathlib

/-! The process table and what its operations touch (`kernel.h`, `process.c`).

A `process_t` is a kernel-heap block named by its address; `process_table` is the list of the
addresses below `process_count`. The address 0 is `NULL`. Calls that leave this layer are
recorded, with the table they were made with: page directories given back (`teardowns`), heap
blocks freed (`kfrees`), descriptor handles opened and closed (`fdCalls`), and the instruction
pointers stored in return contexts (`built`). No operation reads these records. -/
namespace Nyx.Process

def maxProcesses : Nat := 512
def procMaxVmas : Nat := 16
def procMaxFds : Nat := 32
abbrev nsig : Nat := 32

instance : NeZero nsig := ⟨by decide⟩
instance neZero_gprs : NeZero 15 := ⟨by decide⟩

def userSpaceMin : BitVec 64 := 0x1000#64
def userSpaceEnd : BitVec 64 := 0x0000800000000000#64

/-- `PROC_PARKED` … `PROC_STOPPED`. -/
inductive PState where
  | parked
  | run
  | zombie
  | blocked
  | stopped
deriving DecidableEq, Repr

/-- A region of the mmap table. `fileBuf` is the private snapshot of a file-backed region. -/
structure Vma where
  start : BitVec 64
  stop : BitVec 64
  prot : BitVec 32
  used : Bool
  fileBuf : Nat
  fileSize : BitVec 32
deriving DecidableEq, Repr

def Vma.zero : Vma := ⟨0, 0, 0, false, 0, 0⟩

/-- A ring-3 context: `r15 … rax`, then what `iretq` (or the syscall return) loads. -/
structure Frame where
  gpr : Fin 15 → BitVec 64
  rflags : BitVec 64
  rip : BitVec 64
  rsp : BitVec 64

def Frame.zero : Frame := ⟨fun _ => 0, 0, 0, 0⟩

/-- A task. `frame` is the context it returns to ring 3 with: the one its kernel stack was
built with, or the one it trapped with. -/
structure Proc where
  pid : BitVec 32
  ppid : BitVec 32
  tgid : BitVec 32
  state : PState
  pageDirectory : Nat
  kernelStack : Nat
  frame : Frame
  heapStart : BitVec 64
  programBreak : BitVec 64
  schedManaged : Bool
  waitingFor : BitVec 32
  stopSig : BitVec 32
  stoppedReported : Bool
  exitCode : BitVec 32
  ufdInuse : Fin procMaxFds → Bool
  ufdHandle : Fin procMaxFds → BitVec 32
  ufdOffset : Fin procMaxFds → BitVec 32
  sigPending : BitVec 32
  sigMask : BitVec 32
  sigActive : BitVec 32
  sigHandlers : Fin nsig → BitVec 64
  sigTrampoline : BitVec 64
  sigSaved : Frame
  mmapVmas : Fin procMaxVmas → Vma
  mmapNext : BitVec 64

/-- `memset_asm(p, 0, sizeof(process_t))`. -/
def Proc.zero : Proc where
  pid := 0
  ppid := 0
  tgid := 0
  state := .parked
  pageDirectory := 0
  kernelStack := 0
  frame := .zero
  heapStart := 0
  programBreak := 0
  schedManaged := false
  waitingFor := 0
  stopSig := 0
  stoppedReported := false
  exitCode := 0
  ufdInuse := fun _ => false
  ufdHandle := fun _ => 0
  ufdOffset := fun _ => 0
  sigPending := 0
  sigMask := 0
  sigActive := 0
  sigHandlers := fun _ => 0
  sigTrampoline := 0
  sigSaved := .zero
  mmapVmas := fun _ => .zero
  mmapNext := 0

/-- A call of `free_page_directory`: on what, whether it was allocated, and which other
tasks of the table pointed at it. -/
structure Teardown where
  dir : Nat
  live : Bool
  sharers : List Nat
deriving DecidableEq, Repr

/-- A call of `kfree`, and whether the block was allocated. -/
structure Kfree where
  block : Nat
  live : Bool
deriving DecidableEq, Repr

inductive FdCall where
  | pipeIncref (id : BitVec 32) (isWrite : Bool)
  | pipeCloseEnd (id : BitVec 32) (isWrite : Bool)
  | nsockClose (id : BitVec 32)
  | vfsClose (handle : BitVec 32)
deriving DecidableEq, Repr

structure Kernel where
  procs : Nat → Proc
  table : List Nat
  nextPid : BitVec 64
  currentIdx : Nat
  /-- Allocated kernel-heap blocks. -/
  heap : Nat → Bool
  /-- Allocated page directories. -/
  dirs : Nat → Bool
  teardowns : List Teardown
  kfrees : List Kfree
  fdCalls : List FdCall
  built : List (BitVec 64)

namespace Kernel

/-- An assignment through a `process_t*`. -/
def modify (k : Kernel) (p : Nat) (f : Proc → Proc) : Kernel :=
  {k with procs := Function.update k.procs p (f (k.procs p))}

section Modify
variable (k : Kernel) (p : Nat) (f : Proc → Proc)

@[simp] theorem modify_table : (k.modify p f).table = k.table := rfl

@[simp] theorem modify_procs_self : (k.modify p f).procs p = f (k.procs p) :=
  Function.update_self ..

theorem modify_procs_ne {q : Nat} (h : q ≠ p) : (k.modify p f).procs q = k.procs q :=
  Function.update_of_ne h ..

/-- A field that the assignment leaves alone is unchanged in every task. -/
theorem modify_field {α : Type} (g : Proc → α) (h : ∀ t, g (f t) = g t) (q : Nat) :
    g ((k.modify p f).procs q) = g (k.procs q) := by
  rcases eq_or_ne q p with rfl | hq
  · rw [modify_procs_self, h]
  · rw [modify_procs_ne k p f hq]

end Modify

variable (k : Kernel) (choice : Nat) (dir owner : Nat)

/-- `kmalloc`. Which block the heap picks is `choice`; it has none to give, and returns
`NULL`, when that is 0 or allocated. -/
def kmalloc (choice : Nat) : Kernel × Nat :=
  if choice = 0 ∨ k.heap choice = true then (k, 0)
  else ({k with heap := Function.update k.heap choice true}, choice)

/-- `kfree`; freeing `NULL` does nothing. -/
def kfree (block : Nat) : Kernel :=
  if block = 0 then k
  else
    { k with
      heap := Function.update k.heap block false
      kfrees := k.kfrees ++ [⟨block, k.heap block⟩] }

/-- `alloc_page_directory`, with the frame the page allocator picks as `choice`. -/
def allocPageDirectory (choice : Nat) : Kernel × Nat :=
  if choice = 0 ∨ k.dirs choice = true then (k, 0)
  else ({k with dirs := Function.update k.dirs choice true}, choice)

/-- `free_page_directory(dir)`, called on behalf of `owner`. -/
def freePageDirectory (dir owner : Nat) : Kernel :=
  if dir = 0 then k
  else
    { k with
      dirs := Function.update k.dirs dir false
      teardowns := k.teardowns ++ [⟨dir, k.dirs dir,
          k.table.filter fun p => p != owner && (k.procs p).pageDirectory == dir⟩] }

/-- Storing an instruction pointer in a context that will return to ring 3. -/
def build (rip : BitVec 64) : Kernel := {k with built := k.built ++ [rip]}

/-- `process_table[process_count++] = p`. -/
def append (p : Nat) : Kernel := {k with table := k.table ++ [p]}

@[simp] theorem kmalloc_table : (k.kmalloc choice).1.table = k.table := by
  unfold kmalloc
  split <;> rfl

@[simp] theorem kmalloc_procs : (k.kmalloc choice).1.procs = k.procs := by
  unfold kmalloc
  split <;> rfl

@[simp] theorem kfree_table (block : Nat) : (k.kfree block).table = k.table := by
  unfold kfree
  split <;> rfl

@[simp] theorem kfree_procs (block : Nat) : (k.kfree block).procs = k.procs := by
  unfold kfree
  split <;> rfl

@[simp] theorem freePageDirectory_procs : (k.freePageDirectory dir owner).procs = k.procs := by
  unfold freePageDirectory
  split <;> rfl

@[simp] theorem freePageDirectory_table : (k.freePageDirectory dir owner).table = k.table := by
  unfold freePageDirectory
  split <;> rfl

@[simp] theorem allocPageDirectory_procs : (k.allocPageDirectory choice).1.procs = k.procs := by
  unfold allocPageDirectory
  split <;> rfl

@[simp] theorem allocPageDirectory_table : (k.allocPageDirectory choice).1.table = k.table := by
  unfold allocPageDirectory
  split <;> rfl

/-! ### Looking tasks up -/

def findProcess (pid : BitVec 32) : Option Nat :=
  k.table.find? fun p => p != 0 && (k.procs p).pid == pid

/-- The task owning the thread group's shared state; a task whose leader is gone stands
for itself. -/
def tgLeader (p : Nat) : Nat :=
  if p = 0 ∨ (k.procs p).tgid = 0 ∨ (k.procs p).tgid = (k.procs p).pid then p
  else (k.findProcess (k.procs p).tgid).getD p

theorem findProcess_mem {k : Kernel} {pid : BitVec 32} {p : Nat}
    (h : k.findProcess pid = some p) : p ∈ k.table := List.mem_of_find?_eq_some h

theorem tgLeader_mem {k : Kernel} {p : Nat} (h : p ∈ k.table) : k.tgLeader p ∈ k.table := by
  unfold tgLeader
  split
  · exact h
  cases hf : k.findProcess (k.procs p).tgid with
  | none => exact h
  | some q => exact findProcess_mem hf

/-- Does an entry other than `except` point at this page directory? -/
def addrSpaceShared (dir except : Nat) : Bool :=
  dir != 0 && k.table.any fun p => p != 0 && p != except && (k.procs p).pageDirectory == dir

end Kernel

/-- The kernel before `init_process`. -/
def Kernel.empty : Kernel where
  procs := fun _ => .zero
  table := []
  nextPid := 1
  currentIdx := 0
  heap := fun _ => false
  dirs := fun _ => false
  teardowns := []
  kfrees := []
  fdCalls := []
  built := []

end Nyx.Process
