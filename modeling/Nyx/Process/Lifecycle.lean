import Nyx.Lib.Loop
import Nyx.Lib.SwapRemove
import Nyx.Process.State

/-! Tasks from creation to reaping (`process.c`, `elf.c`, `syscall.c`).

Every function takes the choices its environment makes as arguments: the blocks `kmalloc`
picks, the frame of a new page directory, whether an ELF image loads and a program's
entry point. The calling task `self` is what `get_current_process` returned. -/
namespace Nyx.Process
namespace Kernel
open Nyx.Lib

def ufdPipeFlag : BitVec 32 := 0x40000000#32
def ufdSockFlag : BitVec 32 := 0x20000000#32
def ufdPipeId (h : BitVec 32) : BitVec 32 := (h &&& 0x3FFFFFFF#32) >>> 1
def ufdPipeIsWrite (h : BitVec 32) : Bool := h &&& 1#32 != 0#32
def ufdSockId (h : BitVec 32) : BitVec 32 := h &&& 0xFFFF#32

/-- `-1` as an `int`. -/
def failed : BitVec 32 := BitVec.allOnes 32

/-! ### Creating tasks -/

variable (k : Kernel) (p : Nat)

/-- A task record: allocated, and filled in for `pid = next_pid++`, the counter being wider
than the field. -/
def newTask (block : Nat) (fill : BitVec 32 → Proc) : Kernel × Nat :=
  let (k, p) := k.kmalloc block
  if p = 0 then (k, 0)
  else
    let pid := k.nextPid.setWidth 32
    ({k with nextPid := k.nextPid + 1}.modify p fun _ => fill pid, p)

/-- `init_task_stack` and its variants for user tasks, forked ones and threads: a kernel
stack from which the task resumes with this context. -/
def initTaskStack (p stack : Nat) (frame : Frame) : Kernel × Bool :=
  let (k, stk) := k.kmalloc stack
  if stk = 0 then (k, false)
  else (k.modify p fun t => {t with kernelStack := stk, frame := frame}, true)

def kernelProc (pid : BitVec 32) : Proc := {Proc.zero with pid := pid, state := .run}

/-- `init_process`: the kernel's own task, which has no page directory and no stack. -/
def initProcess (block : Nat) : Kernel :=
  let (k, p) := k.newTask block kernelProc
  if p = 0 then k else k.append p

/-- `create_process`: a kernel thread; without an entry point it gets no stack. -/
def createProcess (entry : Bool) (block stack : Nat) : Kernel × Nat :=
  if k.table.length ≥ maxProcesses then (k, 0)
  else
    let (k, p) := k.newTask block kernelProc
    if p = 0 then (k, 0)
    else if entry then
      let (k, ok) := k.initTaskStack p stack .zero
      if ok then (k.append p, p) else (k.kfree p, 0)
    else (k.append p, p)

def userProc (dir : Nat) (pid : BitVec 32) : Proc :=
  {Proc.zero with pid := pid, state := .run, pageDirectory := dir}

/-- `init_user_task_stack`: ring 3 starts at `entry` on the given stack. -/
def userFrame (entry rsp : BitVec 64) : Frame := ⟨fun _ => 0, 0x202#64, entry, rsp⟩

/-- `create_user_process`, with the user stack already built. -/
def createUserProcess (entry rsp : BitVec 64) (dir block stack : Nat) : Kernel × Nat :=
  if k.table.length ≥ maxProcesses then (k, 0)
  else
    let (k, p) := k.newTask block (userProc dir)
    if p = 0 then (k, 0)
    else
      let (k, ok) := k.initTaskStack p stack (userFrame entry rsp)
      if ok then ((k.build entry).append p, p) else (k.kfree p, 0)

/-- What `elf_load_image` meets: a file refused before anything is allocated, a load given
up after the page directory was allocated, or an image that loads. -/
inductive Load where
  | refused
  | abandoned (dir : Nat)
  | loaded (dir : Nat) (entry brk : BitVec 64)

/-- `elf_load_image`, as far as this layer sees it: the page directory, the entry point
with its range check and the program break. -/
def elfLoadImage : Load → Kernel × Option (Nat × BitVec 64 × BitVec 64)
  | .refused => (k, none)
  | .abandoned choice =>
    let (k, dir) := k.allocPageDirectory choice
    (k.freePageDirectory dir 0, none)
  | .loaded choice entry brk =>
    let (k, dir) := k.allocPageDirectory choice
    if dir = 0 then (k, none)
    else if entry < userSpaceMin ∨ userSpaceEnd ≤ entry then (k.freePageDirectory dir 0, none)
    else (k, some (dir, entry, brk))

/-- `elf_load_args`: `rsp` is where the argument frame was built. -/
def elfLoadArgs (load : Load) (rsp : BitVec 64) (block stack : Nat) : Kernel × Nat :=
  match k.elfLoadImage load with
  | (k, none) => (k, 0)
  | (k, some (dir, entry, brk)) =>
    match k.createUserProcess entry rsp dir block stack with
    | (k, 0) => (k.freePageDirectory dir 0, 0)
    | (k, p + 1) =>
      (k.modify (p + 1) fun t => {t with heapStart := brk, programBreak := brk}, p + 1)

/-- `spawn_user_path_args`, called by `parent`, or by no task at all. -/
def spawnUserPathArgs (parent : Option Nat) (load : Load) (rsp : BitVec 64) (block stack : Nat) :
    Kernel × BitVec 32 :=
  let (k, p) := k.elfLoadArgs load rsp block stack
  if p = 0 then (k, -5#32)
  else
    let ppid := (parent.map fun q => (k.procs q).pid).getD 0
    let k := k.modify p fun t => {t with schedManaged := true, ppid := ppid}
    (k, (k.procs p).pid)

/-! ### fork, clone and execve -/

/-- The descriptors a child inherits: pipe ends only, at offset 0. -/
def inheritsFd (parent : Proc) (i : Fin procMaxFds) : Bool :=
  parent.ufdInuse i && parent.ufdHandle i &&& ufdPipeFlag != 0#32

/-- `init_forked_task_stack`: the parent's context, returning 0. -/
def forkedFrame (f : Frame) : Frame :=
  {f with gpr := Function.update f.gpr 14 0, rflags := f.rflags ||| 0x202#64}

/-- The child as `do_fork` fills it in, its region table still the parent's. -/
def forkedProc (parent : Proc) (dir : Nat) (pid : BitVec 32) : Proc :=
  { Proc.zero with
    pid := pid
    ppid := parent.pid
    state := .run
    pageDirectory := dir
    heapStart := parent.heapStart
    programBreak := parent.programBreak
    sigHandlers := parent.sigHandlers
    sigMask := parent.sigMask
    sigTrampoline := parent.sigTrampoline
    mmapVmas := parent.mmapVmas
    mmapNext := parent.mmapNext
    ufdInuse := inheritsFd parent
    ufdHandle := fun i => if inheritsFd parent i then parent.ufdHandle i else 0 }

def setVma (t : Proc) (i : Fin procMaxVmas) (v : Vma) : Proc :=
  {t with mmapVmas := Function.update t.mmapVmas i v}

theorem setVma_mmapVmas (t : Proc) (i j : Fin procMaxVmas) (v : Vma) :
    (setVma t i v).mmapVmas j = if j = i then v else t.mmapVmas j := Function.update_apply ..

/-- One turn of the loop that gives the child its own snapshot buffers; a region whose
copy cannot be allocated degrades to zero-fill. -/
def dupBuf (child : Nat) (bufs : Fin procMaxVmas → Nat) (k : Kernel) (i : Fin procMaxVmas) :
    Kernel :=
  let v := (k.procs child).mmapVmas i
  if v.used && v.fileBuf != 0 then
    let (k, nb) := k.kmalloc (bufs i)
    if nb = 0 then k.modify child (setVma · i {v with fileBuf := 0, fileSize := 0})
    else k.modify child (setVma · i {v with fileBuf := nb})
  else k

def dupBufs (child : Nat) (bufs : Fin procMaxVmas → Nat) : Kernel :=
  (List.finRange procMaxVmas).foldl (dupBuf child bufs) k

/-- The pipe ends the child shares get one more reference each. -/
def increfPipes (parent : Proc) : Kernel :=
  let ends := (List.finRange procMaxFds).filter (inheritsFd parent)
  let incref := fun i =>
    FdCall.pipeIncref (ufdPipeId (parent.ufdHandle i)) (ufdPipeIsWrite (parent.ufdHandle i))
  {k with fdCalls := k.fdCalls ++ ends.map incref}

/-- `do_fork`. `dirChoice` is what `clone_page_directory_cow` allocates for the child. -/
def doFork (self dirChoice block stack : Nat) (bufs : Fin procMaxVmas → Nat) : Kernel × BitVec 32 :=
  let parent := k.procs self
  if parent.pageDirectory = 0 ∨ k.table.length ≥ maxProcesses then (k, failed)
  else
    let (k, dir) := k.allocPageDirectory dirChoice
    if dir = 0 then (k, failed)
    else
      let (k, child) := k.newTask block (forkedProc parent dir)
      if child = 0 then (k.freePageDirectory dir 0, failed)
      else
        let k := (k.dupBufs child bufs).increfPipes parent
        let (k, ok) := k.initTaskStack child stack (forkedFrame parent.frame)
        if ok then
          let k := k.modify self fun t => {t with schedManaged := true}
          let k := k.modify child fun t => {t with schedManaged := true}
          (k.append child, (k.procs child).pid)
        else ((k.freePageDirectory dir 0).kfree child, failed)

def cloneVm : BitVec 64 := 0x100#64

/-- `init_thread_task_stack`: ring 3 starts in `fn(arg)`. -/
def threadFrame (fn stack arg : BitVec 64) : Frame :=
  ⟨Function.update (fun _ => 0) 9 arg, 0x202#64, fn, stack⟩

/-- A region copied without the ownership of its snapshot. -/
def disown (v : Vma) : Vma := {v with fileBuf := 0, fileSize := 0}

def clonedProc (self : Proc) (tgid pid : BitVec 32) : Proc :=
  { Proc.zero with
    pid := pid
    ppid := self.pid
    tgid := tgid
    state := .run
    pageDirectory := self.pageDirectory
    heapStart := self.heapStart
    programBreak := self.programBreak
    sigHandlers := self.sigHandlers
    sigMask := self.sigMask
    sigTrampoline := self.sigTrampoline
    mmapVmas := fun i => disown (self.mmapVmas i)
    mmapNext := self.mmapNext }

/-- `do_clone`. -/
def doClone (self : Nat) (fn stack arg flags : BitVec 64) (block kstack : Nat) :
    Kernel × BitVec 32 :=
  let caller := k.procs self
  if caller.pageDirectory = 0 ∨ flags &&& cloneVm = 0#64 ∨ fn = 0#64 ∨ stack = 0#64 ∨
      k.table.length ≥ maxProcesses then (k, failed)
  else
    let tgid := (k.procs (k.tgLeader self)).pid
    let (k, t) := k.newTask block (clonedProc caller tgid)
    if t = 0 then (k, failed)
    else
      let (k, ok) := k.initTaskStack t kstack (threadFrame fn stack arg)
      if ok then
        let k := k.build fn
        let k := k.modify self fun u => {u with schedManaged := true}
        let k := k.modify t fun u => {u with schedManaged := true}
        (k.append t, (k.procs t).pid)
      else (k.kfree t, failed)

/-- One turn of the loop that drops the old image's regions. -/
def dropVma (self : Nat) (k : Kernel) (i : Fin procMaxVmas) : Kernel :=
  let v := (k.procs self).mmapVmas i
  if v.fileBuf = 0 then k.modify self (setVma · i {v with used := false})
  else (k.kfree v.fileBuf).modify self (setVma · i {v with fileBuf := 0, used := false})

def execFrame (argc entry sp : BitVec 64) : Frame :=
  ⟨Function.update (Function.update (fun _ => 0) 9 argc) 10 (sp + 8), 0x202#64, entry, sp⟩

/-- The caller's record in the new image, before its regions are dropped. -/
def reimagedProc (t : Proc) (dir : Nat) (brk : BitVec 64) : Proc :=
  { t with
    pageDirectory := dir
    heapStart := brk
    programBreak := brk
    sigHandlers := fun _ => 0
    sigPending := 0
    sigActive := 0
    sigMask := 0
    sigTrampoline := 0 }

/-- `do_execve`: `argc` and `sp` are the argument count and the stack pointer of the frame
built on the new stack. -/
def doExecve (self : Nat) (load : Load) (argc sp : BitVec 64) : Kernel × BitVec 32 :=
  let oldDir := (k.procs self).pageDirectory
  if oldDir = 0 then (k, failed)
  else
    match k.elfLoadImage load with
    | (k, none) => (k, failed)
    | (k, some (dir, entry, brk)) =>
      let k := k.modify self (reimagedProc · dir brk)
      let k := (List.finRange procMaxVmas).foldl (dropVma self) k
      let k := k.modify self fun t => {t with mmapNext := 0}
      let k := if k.addrSpaceShared oldDir self then k else k.freePageDirectory oldDir self
      (((k.modify self fun t => {t with frame := execFrame argc entry sp}).build entry), 0)

/-! ### Exit and reaping -/

def wakeWaiters (child : Nat) : Kernel :=
  let c := k.procs child
  if c.ppid = 0 then k
  else
    match k.findProcess c.ppid with
    | none => k
    | some parent =>
      let t := k.procs parent
      if t.state = .blocked ∧ (t.waitingFor = c.pid ∨ t.waitingFor = 0) then
        k.modify parent fun t => {t with waitingFor := 0, state := .run}
      else k

def closeCall (h : BitVec 32) : FdCall :=
  if h &&& ufdPipeFlag ≠ 0#32 then .pipeCloseEnd (ufdPipeId h) (ufdPipeIsWrite h)
  else if h &&& ufdSockFlag ≠ 0#32 then .nsockClose (ufdSockId h)
  else .vfsClose h

def closeProcFds (p : Nat) : Kernel :=
  let t := k.procs p
  let used := (List.finRange procMaxFds).filter t.ufdInuse
  { k.modify p fun t => {t with ufdInuse := fun _ => false} with
    fdCalls := k.fdCalls ++ used.map fun i => closeCall (t.ufdHandle i) }

/-- `SYS_EXIT`, and the end of a task killed by a fault or by a signal with no handler:
those close nothing when `close` is false. -/
def exit (self : Nat) (code : BitVec 32) (close : Bool) : Kernel :=
  let k := k.modify self fun t => {t with exitCode := code}
  let k := if close then k.closeProcFds self else k
  (k.modify self fun t => {t with state := .zombie}).wakeWaiters self

/-- What the heir of a thread group takes over from its leader `d`. -/
def inherit (d t : Proc) : Proc :=
  { t with
    heapStart := d.heapStart
    programBreak := d.programBreak
    mmapVmas := d.mmapVmas
    mmapNext := d.mmapNext
    ufdInuse := d.ufdInuse
    ufdHandle := d.ufdHandle
    ufdOffset := d.ufdOffset }

/-- What the leader is left with. -/
def relinquish (t : Proc) : Proc :=
  {t with mmapVmas := fun i => disown (t.mmapVmas i), ufdInuse := fun _ => false}

/-- An entry of the table whose leader is `dying`. -/
def inGroup (dying p : Nat) : Bool :=
  p != 0 && p != dying && (k.procs p).tgid == (k.procs dying).pid

/-- The members of the group of `dying` follow the task with this pid. -/
def repoint (dying : Nat) (pid : BitVec 32) : Kernel :=
  {k with procs := fun p =>
    if p ∈ k.table ∧ k.inGroup dying p then {k.procs p with tgid := pid} else k.procs p}

/-- `tg_reassign_leader`: the first member of the group `dying` leads takes over the heap,
the regions with their buffers and the descriptors, and the others follow it. -/
def tgReassignLeader (dying : Nat) : Kernel :=
  match k.table.find? (k.inGroup dying) with
  | none => k
  | some heir =>
    let handed := (k.modify heir (inherit (k.procs dying))).modify dying relinquish
    (handed.repoint dying (k.procs heir).pid).modify heir fun t => {t with tgid := 0}

/-- One turn of `mmap_free_bufs`. -/
def freeBuf (p : Nat) (k : Kernel) (i : Fin procMaxVmas) : Kernel :=
  let v := (k.procs p).mmapVmas i
  if v.fileBuf = 0 then k else (k.kfree v.fileBuf).modify p (setVma · i (disown v))

def mmapFreeBufs (p : Nat) : Kernel := (List.finRange procMaxVmas).foldl (freeBuf p) k

/-- The page directory of a dying task, unless another entry still uses it, and then its
kernel stack. -/
def releaseSpace (p : Nat) : Kernel :=
  let t := k.procs p
  let k := if t.pageDirectory ≠ 0 ∧ k.addrSpaceShared t.pageDirectory p = false then
      k.freePageDirectory t.pageDirectory p
    else k
  k.kfree t.kernelStack

/-- `process_table[i] = process_table[--process_count]`. -/
def removeEntry (i : Nat) : Kernel := {k with table := swapRemove k.table i}

/-- The scheduler's index follows the last entry to the place `i` it is moved to. -/
def patchIndex (i : Nat) : Kernel :=
  {k with currentIdx := if k.currentIdx = k.table.length - 1 then i else k.currentIdx}

/-- What a dying task gives back besides its record: to its heir, to the heap and to the
page allocator. -/
def tearDown (p : Nat) : Kernel := ((k.tgReassignLeader p).mmapFreeBufs p).releaseSpace p

/-- `reap_user_process`: out of the table first. -/
def reapUserProcess (p : Nat) : Kernel :=
  let k := k.closeProcFds p
  let k := if p ∈ k.table then k.removeEntry (k.table.idxOf p) else k
  (k.tearDown p).kfree p

/-- What `reap_zombies` and `do_waitpid` do with the entry `i`: out of the table last. -/
def reapEntry (p i : Nat) : Kernel :=
  ((((k.closeProcFds p).tearDown p).patchIndex i).removeEntry i).kfree p

def destroyProcess (pid : BitVec 64) : Kernel :=
  match k.table.find? fun p => p != 0 && (k.procs p).pid.setWidth 64 == pid with
  | none => k
  | some p =>
    if (k.procs p).schedManaged = true ∧ (k.procs p).state ≠ .zombie then
      (k.modify p fun t => {t with exitCode := failed, state := .zombie}).wakeWaiters p
    else k.reapUserProcess p

/-- Does `reap_zombies` free the entry `i`? A zombie whose parent is a live user process is
left for that parent. -/
def reapable (p i : Nat) : Bool :=
  p != 0 && (k.procs p).state == .zombie && i != k.currentIdx &&
    match k.findProcess (k.procs p).ppid with
    | none => true
    | some par => (k.procs par).pageDirectory == 0 || (k.procs par).state == .zombie

/-- The scan of `reap_zombies` from the entry `i` on. A freed entry is re-examined, the
table being one shorter, so `table.length` turns are enough from 0. -/
def reapFrom (k : Kernel) : (turns i : Nat) → Kernel
  | 0, _ => k
  | turns + 1, i =>
    match k.table[i]? with
    | none => k
    | some p => if k.reapable p i then (k.reapEntry p i).reapFrom turns i
      else k.reapFrom turns (i + 1)

def reapZombies : Kernel := k.reapFrom k.table.length 0

/-! ### Waiting -/

def wnohang : BitVec 32 := 1#32
def wuntraced : BitVec 32 := 2#32
def wstopped : BitVec 32 := 0x10000#32

/-- What a pass of the waiting loop ends in: `done` returns a pid and a status, `parked`
sleeps until a child's exit and then makes another pass. -/
inductive Waited where
  | noChild
  | done (pid status : BitVec 32)
  | notYet
  | parked
deriving DecidableEq, Repr

/-- A child the caller asked about: that pid, or any when `wpid` is not positive. -/
def awaited (self : Nat) (wpid : BitVec 32) (p : Nat) : Bool :=
  p != 0 && (k.procs p).ppid == (k.procs self).pid && (!(0#32).slt wpid || (k.procs p).pid == wpid)

def stoppedChild (self : Nat) (wpid options : BitVec 32) : Option Nat :=
  k.table.reverse.find? fun p => k.awaited self wpid p && options &&& wuntraced != 0#32 &&
    (k.procs p).state == .stopped && !(k.procs p).stoppedReported

/-- A pass of `do_waitpid`. An exit takes priority over a stop. -/
def doWaitpid (self : Nat) (wpid options : BitVec 32) : Kernel × Waited :=
  if k.table.any (k.awaited self wpid) = false then (k, .noChild)
  else
    match k.table.findIdx? fun p => k.awaited self wpid p && (k.procs p).state == .zombie with
    | some zi =>
      let child := k.table.getD zi 0
      (k.reapEntry child zi, .done (k.procs child).pid (k.procs child).exitCode)
    | none =>
      match k.stoppedChild self wpid options with
      | some p =>
        (k.modify p fun t => {t with stoppedReported := true},
          .done (k.procs p).pid (wstopped ||| (k.procs p).stopSig))
      | none =>
        if options &&& wnohang ≠ 0#32 then (k, .notYet)
        else
          (k.modify self fun t =>
            {t with state := .blocked, waitingFor := if (0#32).slt wpid then wpid else 0},
            .parked)

/-- A pass of `kwait`, which leaves the zombie for `reap_zombies`. -/
def kwait (self : Nat) (pid : BitVec 32) : Kernel × Waited :=
  match k.findProcess pid with
  | none => (k, .noChild)
  | some child =>
    if (k.procs child).state = .zombie then (k, .done pid (k.procs child).exitCode)
    else (k.modify self fun t => {t with state := .blocked, waitingFor := pid}, .parked)

/-! ### The table during an operation -/

@[simp] theorem newTask_table (block : Nat) (fill : BitVec 32 → Proc) :
    (k.newTask block fill).1.table = k.table := by
  unfold newTask
  dsimp only
  split
  · rw [kmalloc_table]
  · rw [modify_table, kmalloc_table]

theorem elfLoadImage_same (load : Load) :
    (k.elfLoadImage load).1.table = k.table ∧ (k.elfLoadImage load).1.procs = k.procs := by
  cases load with
  | refused => exact ⟨rfl, rfl⟩
  | abandoned choice => simp [elfLoadImage]
  | loaded choice entry brk =>
    unfold elfLoadImage
    dsimp only
    split
    · simp
    · split <;> simp

theorem tgReassignLeader_table : (k.tgReassignLeader p).table = k.table := by
  unfold tgReassignLeader
  split <;> rfl

/-- What `view` shows depends on neither the heap nor the mmap tables. -/
structure Blind {γ : Type} (view : Kernel → γ) : Prop where
  kmalloc (k : Kernel) (choice : Nat) : view (k.kmalloc choice).1 = view k
  kfree (k : Kernel) (block : Nat) : view (k.kfree block) = view k
  modify (k : Kernel) (p : Nat) (f : Proc → Proc)
    (hf : ∀ t, f t = {t with mmapVmas := (f t).mmapVmas, mmapNext := (f t).mmapNext}) :
    view (k.modify p f) = view k

section
variable {γ : Type} {view : Kernel → γ} (h : Blind view)
include h

theorem Blind.setVma (i : Fin procMaxVmas) (v : Vma) :
    view (k.modify p (Kernel.setVma · i v)) = view k := h.modify k p _ fun _ => rfl

theorem Blind.mmapFreeBufs : view (k.mmapFreeBufs p) = view k := by
  refine foldl_view view (fun k i => ?_) k _
  unfold freeBuf
  dsimp only
  split
  · rfl
  · rw [h.setVma, h.kfree]

theorem Blind.dupBufs (bufs : Fin procMaxVmas → Nat) : view (k.dupBufs p bufs) = view k := by
  refine foldl_view view (fun k i => ?_) k _
  unfold dupBuf
  dsimp only
  split
  · split <;> rw [h.setVma, h.kmalloc]
  · rfl

theorem Blind.foldl_dropVma (l : List (Fin procMaxVmas)) :
    view (l.foldl (dropVma p) k) = view k := by
  refine foldl_view view (fun k i => ?_) k l
  unfold dropVma
  dsimp only
  split
  · exact h.setVma ..
  · rw [h.setVma, h.kfree]

end

theorem blind_table : Blind table := ⟨kmalloc_table, kfree_table, fun _ _ _ _ => rfl⟩

theorem mmapFreeBufs_table : (k.mmapFreeBufs p).table = k.table := blind_table.mmapFreeBufs k p

theorem dupBufs_table (child : Nat) (bufs : Fin procMaxVmas → Nat) :
    (k.dupBufs child bufs).table = k.table := blind_table.dupBufs k child bufs

theorem foldl_dropVma_table (self : Nat) (l : List (Fin procMaxVmas)) :
    (l.foldl (dropVma self) k).table = k.table := blind_table.foldl_dropVma k self l

theorem releaseSpace_table : (k.releaseSpace p).table = k.table := by
  unfold releaseSpace
  dsimp only
  split
  · rw [kfree_table, freePageDirectory_table]
  · rw [kfree_table]

@[simp] theorem tearDown_table : (k.tearDown p).table = k.table := by
  unfold tearDown
  rw [releaseSpace_table, mmapFreeBufs_table, tgReassignLeader_table]

@[simp] theorem closeProcFds_table : (k.closeProcFds p).table = k.table := rfl

@[simp] theorem removeEntry_table (i : Nat) : (k.removeEntry i).table = swapRemove k.table i := rfl

@[simp] theorem patchIndex_table (i : Nat) : (k.patchIndex i).table = k.table := rfl

theorem reapEntry_table (p i : Nat) : (k.reapEntry p i).table = swapRemove k.table i := by
  unfold reapEntry
  rw [kfree_table, removeEntry_table, patchIndex_table, tearDown_table, closeProcFds_table]

theorem reapUserProcess_eq {k : Kernel} {p : Nat} (h : p ∈ k.table) : k.reapUserProcess p =
    (((k.closeProcFds p).removeEntry (k.table.idxOf p)).tearDown p).kfree p := by
  unfold reapUserProcess
  dsimp only
  rw [closeProcFds_table, if_pos h]

end Kernel
end Nyx.Process
