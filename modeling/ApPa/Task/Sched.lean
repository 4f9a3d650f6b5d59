import ApPa.Klibc.CString
import ApPa.Lib.Ring
import ApPa.Memory.Paging
import Mathlib.Data.List.FinRange

/-! # Task control blocks and the round-robin scheduler

`sched.c` and the data of `task.h`. The ready queue is threaded through the control
blocks, so every walk follows pointers; it is run on fuel one above the number of
control blocks, and a walk through `NULL` does not return.
-/
namespace ApPa.Tasks
open ByteMem Loop Memory

def taskMaxTasks : ℕ := 64
def taskNameMax : ℕ := 32
def taskKernelStackSize : ℕ := 4096
def schedTimeSlice : ℕ := 10

inductive TaskState where
  | ready
  | running
  | blocked
  | dead
  deriving DecidableEq, Repr

/-- A pointer to a control block: `boot_task` or an element of `task_pool`. -/
inductive TaskRef where
  | boot
  | slot (i : Fin 64)
  deriving DecidableEq, Repr

structure Task where
  id : UInt32
  name : List UInt8
  state : TaskState
  esp : ℕ
  esp0 : ℕ
  kernelStack : ℕ
  userStack : ℕ
  userStackTop : ℕ
  isUser : Bool
  cr3 : ℕ
  pageDir : ℕ
  next : Option TaskRef

/-- `memset(t, 0, sizeof(task_t))`; the state with value 0 is `TASK_READY`. -/
def Task.zero : Task :=
  { id := 0, name := List.replicate 32 0, state := .ready, esp := 0, esp0 := 0, kernelStack := 0,
    userStack := 0, userStackTop := 0, isUser := false, cr3 := 0, pageDir := 0, next := none }

/-- The registers the scheduler sets. -/
structure Cpu where
  esp : ℕ
  cr3 : ℕ
  tssEsp0 : ℕ

structure Kernel where
  phys : Phys
  paging : Paging
  tasks : TaskRef → Task
  nextTaskId : UInt32
  current : TaskRef
  readyHead : Option TaskRef
  schedulerOn : Bool
  sliceRemaining : ℕ
  cpu : Cpu

namespace Kernel

def setTask (k : Kernel) (r : TaskRef) (t : Task) : Kernel := { k with tasks := Function.update k.tasks r t }
def setNext (k : Kernel) (r : TaskRef) (n : Option TaskRef) : Kernel := k.setTask r { k.tasks r with next := n }
def setState (k : Kernel) (r : TaskRef) (s : TaskState) : Kernel := k.setTask r { k.tasks r with state := s }

def next (k : Kernel) (r : TaskRef) : Option TaskRef := (k.tasks r).next

end Kernel

def ringFuel : ℕ := taskMaxTasks + 2

def insertAfter (k : Kernel) (after task : TaskRef) : Kernel :=
  (k.setNext task (k.next after)).setNext after (some task)

def readyStep (k : Kernel) (start t : TaskRef) : TaskRef ⊕ Option TaskRef :=
  if (k.tasks t).state = .ready ∨ (k.tasks t).state = .running then .inr (some t)
  else
    match k.next t with
    | none => .inr none
    | some n => if n = start then .inr (some k.current) else .inl n

/-- The task found, `none` when the walk does not come back. -/
def pickNextReady (k : Kernel) : Option TaskRef :=
  match k.next k.current with
  | none => none
  | some start => (loop (readyStep k start) ringFuel start).join

def switchTo (k : Kernel) (next : TaskRef) : Kernel :=
  if next = k.current then k
  else
    let prev := k.current
    let k := if (k.tasks prev).state = .running then k.setState prev .ready else k
    let k := k.setState next .running
    let nextCr3 := if (k.tasks next).cr3 ≠ 0 then (k.tasks next).cr3 else k.paging.pdPhysicalAddress
    let prevCr3 := if (k.tasks prev).cr3 ≠ 0 then (k.tasks prev).cr3 else k.paging.pdPhysicalAddress
    let cr3 := if nextCr3 ≠ prevCr3 then nextCr3 else k.cpu.cr3
    let k := { k with
      current := next
      sliceRemaining := schedTimeSlice
      cpu := { k.cpu with tssEsp0 := (k.tasks next).esp0, cr3 } }
    let saved := k.setTask prev { k.tasks prev with esp := k.cpu.esp }
    { saved with cpu := { saved.cpu with esp := (k.tasks next).esp } }

def schedInit (k : Kernel) : Kernel :=
  { k.setTask .boot { Task.zero with
      name := Klibc.strncpy Task.zero.name [0x69, 0x64, 0x6C, 0x65] taskNameMax
      state := .running
      next := some .boot } with
    current := .boot
    readyHead := some .boot
    sliceRemaining := schedTimeSlice
    schedulerOn := false }

def schedEnable (k : Kernel) : Kernel := { k with schedulerOn := true }
def schedDisable (k : Kernel) : Kernel := { k with schedulerOn := false }

def tailStep (k : Kernel) (head t : TaskRef) : TaskRef ⊕ Option TaskRef :=
  match k.next t with
  | none => .inr none
  | some n => if n = head then .inr (some t) else .inl n

def schedAddTask (k : Kernel) (task : TaskRef) : Option Kernel :=
  match k.readyHead with
  | none => some { k.setNext task (some task) with readyHead := some task }
  | some head => ((loop (tailStep k head) ringFuel head).join).map (insertAfter k · task)

def schedYield (k : Kernel) : Option Kernel := (pickNextReady k).map (switchTo k)

def schedule (k : Kernel) : Option Kernel :=
  if !k.schedulerOn then some k
  else
    let k := { k with sliceRemaining := k.sliceRemaining - 1 }
    if 0 < k.sliceRemaining then some k else schedYield k

/-- Search for the predecessor of `task`; `some none` when it is not in the queue. -/
def predStep (k : Kernel) (start task prev : TaskRef) : TaskRef ⊕ Option (Option TaskRef) :=
  if k.next prev = some task then .inr (some (some prev))
  else
    match k.next prev with
    | none => .inr none
    | some n => if n = start then .inr (some none) else .inl n

def unlinkAfter (k : Kernel) (prev task head : TaskRef) : Kernel :=
  let k := k.setNext prev (k.next task)
  let k := if head = task then { k with readyHead := k.next task } else k
  k.setNext task none

def schedRemoveTask (k : Kernel) (task : TaskRef) : Option Kernel :=
  match k.readyHead with
  | none => some k
  | some head =>
    if task = .boot then some k
    else if k.next task = some task then some ({ k with readyHead := none }.setNext task none)
    else
      match (loop (predStep k head task) ringFuel head).join with
      | none => none
      | some none => some k
      | some (some prev) => some (unlinkAfter k prev task head)

end ApPa.Tasks
