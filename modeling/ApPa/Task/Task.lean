import ApPa.Task.Sched

/-! # Creating, ending and reaping tasks

`task.c`. A creation returns the control block it filled in, or nothing; the outer
`Option` is `none` when a walk of the ready queue does not return.
-/
namespace ApPa.Tasks
open ByteMem Klibc Memory Word32

/-- Addresses the linker gives to the functions whose addresses the code stores or maps;
all of the kernel image lies below 4 MB. -/
structure Image where
  taskWrapper : ℕ
  enterUsermode : ℕ
  sysExit : ℕ
  sysWrite : ℕ
  sysRead : ℕ
  sysYield : ℕ
  sysGetpid : ℕ
  sysSleep : ℕ
  below : ∀ a ∈ [taskWrapper, enterUsermode, sysExit, sysWrite, sysRead, sysYield, sysGetpid, sysSleep],
    a < 0x400000

def gdtUserCodeSeg : ℕ := 0x1B
def gdtUserDataSeg : ℕ := 0x23

def slotFree (k : Kernel) (i : Fin 64) : Prop :=
  (k.tasks (.slot i)).id = 0 ∧ (k.tasks (.slot i)).kernelStack = 0
instance (k : Kernel) (i : Fin 64) : Decidable (slotFree k i) := inferInstanceAs (Decidable (_ ∧ _))

def allocTcb (k : Kernel) : Option (Fin 64) := (List.finRange 64).find? (slotFree k ·)

/-- Push words on a stack, the first one highest. -/
def push (m : Mem) (sp : ℕ) : List ℕ → Mem × ℕ
  | [] => (m, sp)
  | v :: vs => push (write32 m (sp - 4) v) (sp - 4) vs

theorem push_snd (m : Mem) (sp : ℕ) (vs : List ℕ) : (push m sp vs).2 = sp - 4 * vs.length := by
  induction vs generalizing m sp with
  | nil => rfl
  | cons v vs ih =>
    rw [push, ih, List.length_cons]
    omega

theorem push_apply {m : Mem} {sp x : ℕ} {vs : List ℕ} (hsp : 4 * vs.length ≤ sp)
    (hx : x < sp - 4 * vs.length ∨ sp ≤ x) : (push m sp vs).1 x = m x := by
  induction vs generalizing m sp with
  | nil => rfl
  | cons v vs ih =>
    rw [List.length_cons] at hsp hx
    rw [push, ih (by omega) (by omega)]
    exact write32_apply (by omega)

theorem read32_push {m : Mem} {sp : ℕ} {vs : List ℕ} (hsp : 4 * vs.length ≤ sp) {j : ℕ} (hj : j < vs.length) :
    read32 (push m sp vs).1 (sp - 4 * (j + 1)) = vs[j] % 2 ^ 32 := by
  induction vs generalizing m sp j with
  | nil => cases hj
  | cons v vs ih =>
    rw [List.length_cons] at hsp hj
    rw [push]
    cases j with
    | zero =>
      rw [List.getElem_cons_zero, ← read32_write32_self m (sp - 4) v]
      exact read32_congr fun x h1 h2 => push_apply (by omega) (by omega)
    | succ j =>
      rw [List.getElem_cons_succ, ← ih (m := write32 m (sp - 4) v) (show 4 * vs.length ≤ sp - 4 by omega) (by omega)]
      congr 1
      omega

/-- A fresh id and the name, `strncpy`-ed and terminated. -/
def assignIdentity (k : Kernel) (i : Fin 64) (name : List UInt8) (isUser : Bool) : Kernel :=
  let id := k.nextTaskId + 1
  let t := k.tasks (.slot i)
  { k.setTask (.slot i) { t with
      id
      name := (strncpy t.name name (taskNameMax - 1)).set (taskNameMax - 1) 0
      isUser := if isUser then true else t.isUser } with
    nextTaskId := id }

/-- `memset(t, 0, sizeof(task_t))` on a failed creation. -/
def dropTcb (k : Kernel) (i : Fin 64) : Kernel := k.setTask (.slot i) Task.zero

def setStack (k : Kernel) (i : Fin 64) (stack : ℕ) : Kernel :=
  k.setTask (.slot i) { k.tasks (.slot i) with kernelStack := stack, esp0 := stack + taskKernelStackSize }

/-- Build the first stack frame, mark the task ready and queue it. -/
def launch (k : Kernel) (i : Fin 64) (frame : List ℕ) : Option Kernel :=
  let t := k.tasks (.slot i)
  let (mem, sp) := push k.phys.mem t.esp0 frame
  let k := { k with phys := { k.phys with mem } }
  schedAddTask (k.setTask (.slot i) { t with esp := sp, state := .ready, next := none }) (.slot i)

def kernelFrame (img : Image) (entry : ℕ) : List ℕ := [entry, 0, img.taskWrapper, 0, 0, 0, 0]

/-- The `iret` frame below the frame that `task_switch` pops. -/
def userFrame (img : Image) (esp entry : ℕ) : List ℕ :=
  [gdtUserDataSeg, esp, 0x202, gdtUserCodeSeg, entry, img.enterUsermode, 0, 0, 0, 0]

def taskCreate (img : Image) (k : Kernel) (entry : ℕ) (name : List UInt8) :
    Option (Option (Fin 64) × Kernel) :=
  match allocTcb k with
  | none => some (none, k)
  | some i =>
    let k := assignIdentity k i name false
    let (stackPhys, phys) := k.phys.allocPage
    let k := { k with phys }
    if stackPhys = 0 then some (none, dropTcb k i)
    else (launch (setStack k i stackPhys) i (kernelFrame img entry)).map (some i, ·)

def mapUserPage (dir : ℕ) (p : Phys) (addr : ℕ) : Phys :=
  let pg := addr &&& pageFrameMask
  pagingMapPageIn p dir pg pg (pagePresent ||| pageWritable ||| pageUser)

/-- Code a Ring 3 task linked into the kernel has to reach. -/
def userCode (img : Image) (entry : ℕ) : List ℕ :=
  [entry, add32 entry 0x1000, img.sysExit, img.sysWrite, img.sysRead, img.sysYield, img.sysGetpid, img.sysSleep]

def taskCreateUser (img : Image) (k : Kernel) (entry : ℕ) (name : List UInt8) :
    Option (Option (Fin 64) × Kernel) :=
  match allocTcb k with
  | none => some (none, k)
  | some i =>
    let k := assignIdentity k i name true
    let (kstackPhys, phys) := k.phys.allocPage
    let k := { k with phys }
    if kstackPhys = 0 then some (none, dropTcb k i)
    else
      let k := setStack k i kstackPhys
      let (dir, phys) := pagingCloneDirectory k.paging k.phys
      if dir = 0 then some (none, dropTcb { k with phys := phys.freePage kstackPhys } i)
      else
        let k := { k with phys }.setTask (.slot i) { k.tasks (.slot i) with pageDir := dir, cr3 := dir }
        let phys := (userCode img entry).foldl (mapUserPage dir) k.phys
        let (ustackPhys, phys) := phys.allocPage
        if ustackPhys = 0 then
          some (none, dropTcb { k with phys := (pagingFreeDirectory phys dir).freePage kstackPhys } i)
        else
          let phys := phys.clearPage ustackPhys
          let k := k.setTask (.slot i)
            { k.tasks (.slot i) with userStack := ustackPhys, userStackTop := userStackTop }
          let phys := pagingMapPageIn phys dir userStackVirt ustackPhys (pagePresent ||| pageWritable ||| pageUser)
          (launch { k with phys } i (userFrame img userStackTop entry)).map (some i, ·)

def taskCreateUserMapped (img : Image) (k : Kernel) (entryVaddr : ℕ) (name : List UInt8)
    (dir dirPhys userEsp : ℕ) : Option (Option (Fin 64) × Kernel) :=
  match allocTcb k with
  | none => some (none, k)
  | some i =>
    let k := assignIdentity k i name true
    let (kstackPhys, phys) := k.phys.allocPage
    let k := { k with phys }
    if kstackPhys = 0 then some (none, dropTcb k i)
    else
      let k := setStack k i kstackPhys
      let k := k.setTask (.slot i) { k.tasks (.slot i) with
        pageDir := dir, cr3 := dirPhys, userStack := 0, userStackTop := userEsp }
      (launch k i (userFrame img userEsp entryVaddr)).map (some i, ·)

/-- The first half of `task_exit`; the second half is `sched_yield`. -/
def markDead (k : Kernel) : Kernel := k.setState k.current .dead

def taskExit (k : Kernel) : Option Kernel := schedYield (markDead k)

/-- Frames of a dead task, given back before its slot is cleared. -/
def releaseTask (k : Kernel) (t : Task) : Phys :=
  let phys := k.phys.freePage t.kernelStack
  if t.pageDir ≠ 0 then pagingFreeDirectory phys t.pageDir
  else if t.userStack ≠ 0 then (pagingUnmapPage k.paging phys t.userStack).freePage t.userStack
  else phys

def reapSlot (k : Kernel) (i : Fin 64) : Option Kernel :=
  let t := k.tasks (.slot i)
  if t.state = .dead ∧ t.kernelStack ≠ 0 then
    (schedRemoveTask k (.slot i)).map fun k => dropTcb { k with phys := releaseTask k t } i
  else some k

def taskReap (k : Kernel) : Option Kernel := (List.finRange 64).foldlM reapSlot k

end ApPa.Tasks
