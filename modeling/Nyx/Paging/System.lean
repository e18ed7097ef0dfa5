import Nyx.Lib.Run
import Nyx.Paging.Elf

/-! User memory as one machine: the address spaces, the libraries they share and every call
that changes either. A process is named by its page directory; threads of one group are
the same process here, and their last exit is the one that counts. -/
namespace Nyx.Paging

structure System where
  machine : Machine
  spaces : Ptr → Option Space
  /-- The segments of the shared libc, once `libc_ready`. -/
  libc : Option (List Libseg)
  /-- The libraries `do_dlopen` has registered, by path. -/
  dynlibs : List (List (BitVec 8) × List Libseg)

abbrev Text := List (BitVec 8)

/-- A call into the kernel, or an access to memory, by the process `pd`. The choices of the
environment are parameters: the file that is found, and whether the kernel heap has room. -/
inductive Op where
  /-- `elf_load_args`, then a place in the process table. -/
  | spawn (file : ElfFile) (argv : List Text) (room : Bool)
  | execve (pd : Ptr) (file : ElfFile) (argv envp : List Text)
  | fork (pd : Ptr) (room : Bool)
  /-- The last task of `pd` is reaped. -/
  | exit (pd : Ptr)
  | touch (pd : Ptr) (virt : BitVec 64) (a : Access)
  | sbrk (pd : Ptr) (inc : BitVec 64)
  | mmap (pd : Ptr) (length : BitVec 64) (prot : BitVec 32) (snapshot : Option (List (BitVec 8)))
  | munmap (pd : Ptr) (addr length : BitVec 64)
  | mprotect (pd : Ptr) (addr length : BitVec 64) (prot : BitVec 32)
  | dlopen (pd : Ptr) (path : Text) (file : Option ElfFile) (room : Bool)
  /-- A system call returns data to a buffer of its caller. -/
  | copyOut (pd : Ptr) (udst : BitVec 64) (src : List (BitVec 8))

namespace System

variable (s : System) (pd : Ptr)

def setSpace (sp : Option Space) : System := {s with spaces := Function.update s.spaces pd sp}

def setMachine (m : Machine) : System := {s with machine := m}

variable (sp : Space) (file : ElfFile)

/-- `elf_load_args`. -/
def spawn (argv : List Text) (room : Bool) : System :=
  match s.machine.elfLoadImage s.libc file with
  | (m, none) => s.setMachine m
  | (m, some img) =>
    let (m, _) := m.buildArgvStack img.pd img.stackTop argv
    if room then (s.setMachine m).setSpace img.pd (some (.image img.brk))
    else s.setMachine (m.freePageDirectory img.pd)

/-- The space of a process after `do_execve`: the regions are dropped, the rest of the
table is left as it was. -/
def reimaged (brk : BitVec 64) : Space :=
  ⟨brk, brk, fun i => {sp.vmas i with used := false, file := []}, 0⟩

/-- `do_execve`: the old address space is released before the new stack is built. -/
def execve (argv envp : List Text) : System :=
  match s.machine.elfLoadImage s.libc file with
  | (m, none) => s.setMachine m
  | (m, some img) =>
    let m := m.freePageDirectory pd
    let (m, _) := m.entryFrame img.pd img.stackTop (Machine.execArgs argv) (Machine.execEnv envp)
    ((s.setMachine m).setSpace pd none).setSpace img.pd (some (reimaged sp img.brk))

/-- `do_fork`. -/
def fork (room : Bool) : System :=
  let (m, child) := s.machine.clonePageDirectoryCow pd
  if child = 0#64 then s.setMachine m
  else if room then (s.setMachine m).setSpace child (some sp)
  else s.setMachine (m.freePageDirectory child)

/-- `free_page_directory` for the last task of an address space. -/
def exit : System := (s.setMachine (s.machine.freePageDirectory pd)).setSpace pd none

def registered (path : Text) : Text := path.take 63

/-- `do_dlopen`. -/
def dlopen (s : System) (pd : Ptr) (path : Text) (file : Option ElfFile) (room : Bool) : System :=
  match s.dynlibs.find? (·.1 == path) with
  | some lib => s.setMachine (s.machine.libsegMap pd lib.2)
  | none =>
    if s.dynlibs.length ≥ maxDynlibs then s
    else
      match file with
      | none => s
      | some f =>
        match s.machine.libsegLoad f with
        | (m, none) => s.setMachine m
        | (m, some segs) =>
          if room then
            {s with machine := m.libsegMap pd segs, dynlibs := s.dynlibs ++ [(registered path, segs)]}
          else
            s.setMachine {m with events := m.events.orphan (segs.map (·.frames.length)).sum}

/-- A call by a process, or by the kernel's shell. -/
def step : Op → System
  | .spawn file argv room => s.spawn file argv room
  | .execve pd file argv envp =>
    match s.spaces pd with
    | none => s
    | some sp => s.execve pd sp file argv envp
  | .fork pd room =>
    match s.spaces pd with
    | none => s
    | some sp => s.fork pd sp room
  | .exit pd =>
    match s.spaces pd with
    | none => s
    | some _ => s.exit pd
  | .touch pd virt a =>
    match s.spaces pd with
    | none => s
    | some sp => s.setMachine (s.machine.touch pd sp virt a).1
  | .sbrk pd inc =>
    match s.spaces pd with
    | none => s
    | some sp => s.setSpace pd (some (sp.sbrk inc))
  | .mmap pd length prot snapshot =>
    match s.spaces pd with
    | none => s
    | some sp => s.setSpace pd (some (sp.doMmap length prot snapshot))
  | .munmap pd addr length =>
    match s.spaces pd with
    | none => s
    | some sp =>
      let (m, sp) := doMunmap s.machine pd sp addr length
      (s.setMachine m).setSpace pd (some sp)
  | .mprotect pd addr length prot =>
    match s.spaces pd with
    | none => s
    | some sp =>
      let (m, sp) := doMprotect s.machine pd sp addr length prot
      (s.setMachine m).setSpace pd (some sp)
  | .dlopen pd path file room =>
    match s.spaces pd with
    | none => s
    | some _ => s.dlopen pd path file room
  | .copyOut pd udst src =>
    match s.spaces pd with
    | none => s
    | some _ => s.setMachine (s.machine.copyToUser pd udst src).1

end System

end Nyx.Paging
