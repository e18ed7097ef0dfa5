import Nyx.Process.Signals

/-! Where a task's context lies in memory (`isr_stubs.asm`, `signal.c`).

A system call and an exception leave the registers of ring 3 on the kernel stack in two
layouts, and `sig_saved` holds them in a third. Saving a context and restoring it are
written out here on the arrays. -/
namespace Nyx.Process
open Function Kernel

/-- `r15 … rax`, which every layout starts with. -/
def gprs {n : Nat} (h : 15 ≤ n) (a : Fin n → BitVec 64) : Fin 15 → BitVec 64 :=
  fun i => a (i.castLE h)

/-- What `syscall_entry` pushes: the registers, RFLAGS and RIP. The user RSP stays in the
per-CPU block. -/
structure SyscallFrame where
  slots : Fin 17 → BitVec 64
  userRsp : BitVec 64

/-- What the CPU and `isr_common` push: the registers, the vector, the error code, RIP, CS,
RFLAGS, RSP and SS. -/
structure ExceptionFrame where
  slots : Fin 22 → BitVec 64

/-- `sig_saved`: the registers, RFLAGS, RIP and the user RSP. -/
structure SavedArea where
  slots : Fin 18 → BitVec 64

def SyscallFrame.context (f : SyscallFrame) : Frame :=
  ⟨gprs (by decide) f.slots, f.slots 15, f.slots 16, f.userRsp⟩

def ExceptionFrame.context (f : ExceptionFrame) : Frame :=
  ⟨gprs (by decide) f.slots, f.slots 19, f.slots 17, f.slots 20⟩

namespace SavedArea

def context (a : SavedArea) : Frame :=
  ⟨gprs (by decide) a.slots, a.slots 15, a.slots 16, a.slots 17⟩

/-- The assignments to `sig_saved`: the registers, in a loop, and the three words after. -/
def store (gpr : Fin 15 → BitVec 64) (rflags rip rsp : BitVec 64) : SavedArea where
  slots i := if h : i.val < 15 then gpr ⟨i, h⟩
    else if i = 15 then rflags else if i = 16 then rip else rsp

theorem context_store (gpr : Fin 15 → BitVec 64) (rflags rip rsp : BitVec 64) :
    (store gpr rflags rip rsp).context = ⟨gpr, rflags, rip, rsp⟩ := by
  simp only [context, store]
  congr 1
  funext i
  exact dif_pos i.isLt

end SavedArea

namespace SyscallFrame
variable (f : SyscallFrame)

/-- `signal_dispatch` saves the frame of the call it returns from. -/
def save : SavedArea := .store (gprs (by decide) f.slots) (f.slots 15) (f.slots 16) f.userRsp

/-- `do_sigreturn`, into the frame of the `sigreturn` call itself. -/
def restore (a : SavedArea) : SyscallFrame where
  slots i := a.slots (i.castLE (by decide))
  userRsp := a.slots 17

theorem context_save : f.save.context = f.context := SavedArea.context_store ..

theorem context_restore (a : SavedArea) : (restore a).context = a.context := rfl

end SyscallFrame

namespace ExceptionFrame
variable (f : ExceptionFrame)

/-- `signal_deliver_fault` saves the context that faulted. -/
def save : SavedArea := .store (gprs (by decide) f.slots) (f.slots 19) (f.slots 17) (f.slots 20)

theorem context_save : f.save.context = f.context := SavedArea.context_store ..

end ExceptionFrame

/-! ### Back to ring 3 -/

/-- The registers that the exit of `syscall_entry` loads from a frame: it pops RFLAGS into
R11 and RIP into RCX for `iretq`, over what `RESTORE_REGS` put there. -/
def SyscallFrame.exit (f : SyscallFrame) : Frame :=
  { f.context with
    gpr := Function.update (Function.update f.context.gpr 4 f.context.rflags) 12 f.context.rip }

/-- A signal taken on the way out of a system call changes nothing that the call returns to. -/
theorem SyscallFrame.exit_saved (f : SyscallFrame) : (restore f.save).exit = f.exit := by
  rw [exit, exit, context_restore, context_save]

variable (f : ExceptionFrame)

/-- The registers that `isr_common` loads. -/
def ExceptionFrame.exit : Frame := f.context

/-- A context that a fault interrupted comes back from its handler through a system call,
unchanged only if RCX and R11 held RIP and RFLAGS, as they do after `syscall`. -/
theorem ExceptionFrame.exit_restore : (SyscallFrame.restore f.save).exit = f.exit ↔
      f.context.gpr 4 = f.context.rflags ∧ f.context.gpr 12 = f.context.rip := by
  have hback : (SyscallFrame.restore f.save).context = f.context :=
    (SyscallFrame.context_restore _).trans f.context_save
  simp only [SyscallFrame.exit, exit, hback]
  generalize f.context = c
  constructor
  · intro h
    have hgpr := congrArg Frame.gpr h
    exact ⟨(congrFun hgpr 4).symm, (congrFun hgpr 12).symm⟩
  · rintro ⟨h4, h12⟩
    rw [← h4, update_eq_self, ← h12, update_eq_self, h4, h12]

end Nyx.Process
