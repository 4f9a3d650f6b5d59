import ApPa.Lib.Loop
import ApPa.Memory.Access
import ApPa.Task.Task

/-! # System calls

`syscall.c`, entered with INT 0x80. The kernel runs on the directory of the calling task,
so it reads user memory through that directory, and an absent page faults in kernel mode.
The environment says what the timer shows and what the other tasks do between a
`sched_yield` and the moment the caller runs again.
-/
namespace ApPa.Arch
open ByteMem Loop Memory Tasks

/-- The part of `registers_t` that the handlers read or write. -/
structure Registers where
  ebx : UInt32
  ecx : UInt32
  eax : UInt32
  intNo : UInt32
  errCode : UInt32
  cs : UInt32

/-- How the kernel leaves a trap: back to the task with what was printed, after a
`task_exit`, in front of a `hlt`, or not at all. -/
inductive Outcome where
  | returned (k : Kernel) (regs : Registers) (out : List UInt8)
  | killed (k : Kernel)
  | halted (message : String)
  | hung

structure Env where
  /-- The `n`-th reading of the tick counter, before it wraps. -/
  ticks : ℕ → ℕ
  /-- The kernel when `r` runs again after its `n`-th `sched_yield`. -/
  resume : ℕ → TaskRef → Kernel → Kernel

def userSpaceStart : UInt32 := 0x00001000
def userSpaceEnd : UInt32 := 0xC0000000
def maxSyscalls : UInt32 := 16

def validateUserPtr (ptr len : UInt32) : ℤ :=
  let start := ptr
  let stop := start + len
  if stop < start then -1
  else if start < userSpaceStart ∨ userSpaceEnd < stop then -1
  else 0

/-- A byte at a virtual address; `none` is a page fault. -/
def readVirt (m : Mem) (dir : ℕ) (v : UInt32) : Option UInt8 := (Memory.translate m dir v.toNat).map m

/-- `memcpy` from user memory; it stops at the first address that faults. -/
def copyIn (m : Mem) (dir : ℕ) (src : UInt32) : ℕ → Except UInt32 (List UInt8)
  | 0 => .ok []
  | n + 1 =>
    match readVirt m dir src with
    | none => .error src
    | some b => (copyIn m dir (src + 1) n).map (b :: ·)

def chunkSize (len written : UInt32) : UInt32 := if 128 < len - written then 128 else len - written

/-- One chunk; the state is `written` and the output so far. -/
def writeStep (m : Mem) (dir : ℕ) (buf len : UInt32) (s : UInt32 × List UInt8) :
    (UInt32 × List UInt8) ⊕ Except UInt32 (UInt32 × List UInt8) :=
  if s.1 < len then
    let chunk := chunkSize len s.1
    match copyIn m dir (buf + s.1) chunk.toNat with
    | .error v => .inr (.error v)
    | .ok kbuf => .inl (s.1 + chunk, Klibc.kprintText s.2 kbuf)
  else .inr (.ok s)

/-- The bytes written and the output, or the address that faults. -/
def writeLoop (m : Mem) (dir : ℕ) (buf len : UInt32) : Option (Except UInt32 (UInt32 × List UInt8)) :=
  loop (writeStep m dir buf len) (len.toNat + 1) (0, [])

def exitTask (k : Kernel) : Outcome :=
  match taskExit k with
  | some k' => .killed k'
  | none => .hung

/-- ISR 14. A fault with the user bit clear is the kernel's own. -/
def pageFaultHandler (k : Kernel) (errCode : UInt32) : Outcome :=
  if errCode &&& 0x4 ≠ 0 then exitTask k else .halted "PAGE FAULT"

/-- A handler returns a value and what it printed, or leaves the trap in another way. -/
abbrev Handler := Env → ℕ → Kernel → Registers → Except Outcome (Kernel × UInt32 × List UInt8)

def sysExitHandler : Handler := fun _ _ k _ => .error (exitTask k)

def sysWriteHandler : Handler := fun _ _ k regs =>
  let buf := regs.ebx
  let len := regs.ecx
  if len = 0 then .ok (k, 0, [])
  else if validateUserPtr buf len ≠ 0 then .ok (k, -1, [])
  else
    match writeLoop k.phys.mem k.cpu.cr3 buf len with
    | some (.ok (written, out)) => .ok (k, written, out)
    -- a supervisor read of a page that is not present
    | some (.error _) => .error (pageFaultHandler k 0)
    | none => .error .hung

def sysReadHandler : Handler := fun _ _ k regs =>
  if regs.ecx = 0 then .ok (k, 0, [])
  else if validateUserPtr regs.ebx regs.ecx ≠ 0 then .ok (k, -1, [])
  else .ok (k, 0, [])

/-- A `sched_yield` as its caller sees it: it returns when the caller runs again. -/
def yieldCall (env : Env) (n : ℕ) (k : Kernel) : Option Kernel :=
  (schedYield k).map fun k' => if k'.current = k.current then k' else env.resume n k.current k'

def sysYieldHandler : Handler := fun env _ k _ =>
  match yieldCall env 0 k with
  | some k' => .ok (k', 0, [])
  | none => .error .hung

def sysGetpidHandler : Handler := fun _ _ k _ => .ok (k, (k.tasks k.current).id, [])

/-- One turn of the waiting loop; the state is the number of yields and the kernel. -/
def sleepStep (env : Env) (start ticksToWait : UInt32) (s : ℕ × Kernel) : (ℕ × Kernel) ⊕ Option Kernel :=
  if UInt32.ofNat (env.ticks (s.1 + 1)) - start < ticksToWait then
    match yieldCall env s.1 s.2 with
    | some k => .inl (s.1 + 1, k)
    | none => .inr none
  else .inr (some s.2)

/-- The loop ends when the clock says so; it is run on the fuel it is given. -/
def sysSleepHandler : Handler := fun env fuel k regs =>
  if regs.ebx = 0 then .ok (k, 0, [])
  else
    let ticksToWait := if regs.ebx / 10 = 0 then 1 else regs.ebx / 10
    match (loop (sleepStep env (UInt32.ofNat (env.ticks 0)) ticksToWait) fuel (0, k)).join with
    | some k' => .ok (k', 0, [])
    | none => .error .hung

def syscallTable : List Handler :=
  [sysExitHandler, sysWriteHandler, sysReadHandler, sysYieldHandler, sysGetpidHandler, sysSleepHandler]

def syscallDispatcher (env : Env) (fuel : ℕ) (k : Kernel) (regs : Registers) : Outcome :=
  if maxSyscalls ≤ regs.eax then .returned k { regs with eax := -1 } []
  else
    match syscallTable[regs.eax.toNat]? with
    | none => .returned k { regs with eax := -1 } []
    | some handler =>
      match handler env fuel k regs with
      | .ok (k', ret, out) => .returned k' { regs with eax := ret } out
      | .error o => o

/-! ## What is read and written -/

theorem validateUserPtr_eq_zero {ptr len : UInt32} : validateUserPtr ptr len = 0 ↔
    ptr.toNat + len.toNat < 2 ^ 32 ∧ 0x1000 ≤ ptr.toNat ∧ ptr.toNat + len.toNat ≤ 0xC0000000 := by
  have hp := ptr.toNat_lt
  have hl := len.toNat_lt
  simp only [validateUserPtr, UInt32.lt_iff_toNat_lt, UInt32.toNat_add, userSpaceStart, userSpaceEnd]
  rw [show (UInt32.toNat 0x00001000) = 0x1000 from rfl, show (UInt32.toNat 0xC0000000) = 0xC0000000 from rfl]
  split
  · constructor
    · intro h
      cases h
    · intro h
      omega
  · split
    · constructor
      · intro h
        cases h
      · intro h
        omega
    · constructor
      · intro _
        omega
      · intro _
        rfl

section
variable {m m' : Mem} {dir : ℕ} {buf len : UInt32}

theorem add_ofNat_succ (a : UInt32) (i : ℕ) : a + UInt32.ofNat (i + 1) = a + 1 + UInt32.ofNat i := by
  rw [UInt32.ofNat_add, UInt32.add_comm (UInt32.ofNat i), UInt32.add_assoc]
  rfl

theorem add_ofNat_add (a b : UInt32) (i : ℕ) : a + b + UInt32.ofNat i = a + UInt32.ofNat (b.toNat + i) := by
  rw [UInt32.ofNat_add, UInt32.ofNat_toNat, UInt32.add_assoc]

theorem toNat_add_ofNat {ptr : UInt32} (h : ptr.toNat + len.toNat < 2 ^ 32) {i : ℕ} (hi : i < len.toNat) :
    (ptr + UInt32.ofNat i).toNat = ptr.toNat + i := by
  rw [UInt32.toNat_add, UInt32.toNat_ofNat', Nat.mod_eq_of_lt (by omega : i < 2 ^ 32), Nat.mod_eq_of_lt (by omega)]

theorem copyIn_congr {src : UInt32} {n : ℕ}
    (h : ∀ i < n, readVirt m' dir (src + UInt32.ofNat i) = readVirt m dir (src + UInt32.ofNat i)) :
    copyIn m' dir src n = copyIn m dir src n := by
  induction n generalizing src with
  | zero => rfl
  | succ n ih =>
    have hfirst := h 0 (Nat.succ_pos n)
    rw [show src + UInt32.ofNat 0 = src from UInt32.add_zero src] at hfirst
    have hrest : copyIn m' dir (src + 1) n = copyIn m dir (src + 1) n := by
      refine ih fun i hi => ?_
      rw [← add_ofNat_succ]
      exact h (i + 1) (Nat.succ_lt_succ hi)
    rw [copyIn, copyIn, hfirst, hrest]

theorem copyIn_ok {src : UInt32} {n : ℕ} (h : ∀ i < n, readVirt m dir (src + UInt32.ofNat i) ≠ none) :
    ∃ kbuf, copyIn m dir src n = .ok kbuf := by
  induction n generalizing src with
  | zero => exact ⟨[],rfl⟩
  | succ n ih =>
    have hfirst := h 0 (Nat.succ_pos n)
    rw [show src + UInt32.ofNat 0 = src from UInt32.add_zero src] at hfirst
    obtain ⟨b,hb⟩ := Option.ne_none_iff_exists'.mp hfirst
    obtain ⟨kbuf,hk⟩ : ∃ kbuf, copyIn m dir (src + 1) n = .ok kbuf := by
      refine ih fun i hi => ?_
      rw [← add_ofNat_succ]
      exact h (i + 1) (Nat.succ_lt_succ hi)
    exact ⟨b :: kbuf,by rw [copyIn, hb, hk]; rfl⟩

theorem copyIn_error {src : UInt32} {n i : ℕ} (hi : i < n) (h : readVirt m dir (src + UInt32.ofNat i) = none) :
    ∃ v, copyIn m dir src n = .error v := by
  induction n generalizing src i with
  | zero => exact absurd hi (Nat.not_lt_zero i)
  | succ n ih =>
    rw [copyIn]
    cases hr : readVirt m dir src with
    | none => exact ⟨src,rfl⟩
    | some b =>
      cases i with
      | zero =>
        rw [show src + UInt32.ofNat 0 = src from UInt32.add_zero src, hr] at h
        cases h
      | succ i =>
        rw [add_ofNat_succ] at h
        obtain ⟨v,hv⟩ := ih (Nat.lt_of_succ_lt_succ hi) h
        dsimp only
        exact ⟨v,by rw [hv]; rfl⟩

theorem chunkSize_le {written : UInt32} (h : written < len) :
    0 < (chunkSize len written).toNat ∧ written.toNat + (chunkSize len written).toNat ≤ len.toNat := by
  rw [UInt32.lt_iff_toNat_lt] at h
  have hsub : (len - written).toNat = len.toNat - written.toNat :=
    UInt32.toNat_sub_of_le _ _ (UInt32.le_iff_toNat_le.mpr (Nat.le_of_lt h))
  unfold chunkSize
  split
  · rename_i hc
    rw [UInt32.lt_iff_toNat_lt, hsub] at hc
    rw [show (UInt32.toNat 128) = 128 from rfl] at hc ⊢
    omega
  · rw [hsub]
    omega

theorem toNat_add_chunkSize {written : UInt32} (h : written < len) :
    (written + chunkSize len written).toNat = written.toNat + (chunkSize len written).toNat :=
  (UInt32.toNat_add _ _).trans (Nat.mod_eq_of_lt (Nat.lt_of_le_of_lt (chunkSize_le h).2 len.toNat_lt))

theorem writeLoop_congr (h : ∀ i < len.toNat, readVirt m' dir (buf + UInt32.ofNat i) = readVirt m dir (buf + UInt32.ofNat i)) :
    writeLoop m' dir buf len = writeLoop m dir buf len := by
  have hstep : writeStep m' dir buf len = writeStep m dir buf len := by
    funext s
    unfold writeStep
    by_cases hs : s.1 < len
    · have hle := (chunkSize_le hs).2
      have hcopy : copyIn m' dir (buf + s.1) (chunkSize len s.1).toNat = copyIn m dir (buf + s.1) (chunkSize len s.1).toNat := by
        refine copyIn_congr fun i hi => ?_
        rw [add_ofNat_add]
        exact h _ (by omega)
      rw [if_pos hs, if_pos hs]
      dsimp only
      rw [hcopy]
    · rw [if_neg hs, if_neg hs]
  rw [writeLoop, writeLoop, hstep]

theorem writeStep_ok (h : ∀ i < len.toNat, readVirt m dir (buf + UInt32.ofNat i) ≠ none) (s : UInt32 × List UInt8) :
    (∃ s', writeStep m dir buf len s = .inl s' ∧ True ∧ len.toNat - s'.1.toNat < len.toNat - s.1.toNat) ∨
      ∃ r, writeStep m dir buf len s = .inr r ∧ ∃ r', r = .ok r' := by
  unfold writeStep
  by_cases hlt : s.1 < len
  · obtain ⟨hpos,hle⟩ := chunkSize_le hlt
    have hread : ∀ i < (chunkSize len s.1).toNat, readVirt m dir (buf + s.1 + UInt32.ofNat i) ≠ none := by
      intro i hi
      rw [add_ofNat_add]
      exact h _ (by omega)
    obtain ⟨kbuf,hk⟩ := copyIn_ok hread
    rw [if_pos hlt]
    dsimp only
    rw [hk]
    refine Or.inl ⟨_,rfl,trivial,?_⟩
    dsimp only
    rw [toNat_add_chunkSize hlt]
    omega
  · rw [if_neg hlt]
    exact Or.inr ⟨_,rfl,s,rfl⟩

theorem writeLoop_spec (Inv : UInt32 × List UInt8 → Prop) (Post : Except UInt32 (UInt32 × List UInt8) → Prop)
    (hinit : Inv (0, [])) (hstep : ∀ s, Inv s →
      (∃ s', writeStep m dir buf len s = .inl s' ∧ Inv s' ∧ len.toNat - s'.1.toNat < len.toNat - s.1.toNat) ∨
        ∃ r, writeStep m dir buf len s = .inr r ∧ Post r) : ∃ r, writeLoop m dir buf len = some r ∧ Post r :=
  loop_spec Inv Post (fun s => len.toNat - s.1.toNat) hstep hinit (Nat.lt_succ_of_le (Nat.sub_le _ _))

/-- When every byte of the buffer can be read, the call gets through. -/
theorem writeLoop_ok (h : ∀ i < len.toNat, readVirt m dir (buf + UInt32.ofNat i) ≠ none) :
    ∃ r, writeLoop m dir buf len = some (.ok r) := by
  obtain ⟨r,hr,r',rfl⟩ := writeLoop_spec (fun _ => True) (fun r => ∃ r', r = .ok r') trivial fun s _ => writeStep_ok h s
  exact ⟨r',hr⟩

theorem writeStep_error {i : ℕ} (hi : i < len.toNat) (h : readVirt m dir (buf + UInt32.ofNat i) = none)
    {s : UInt32 × List UInt8} (hs : s.1.toNat ≤ i) :
    (∃ s', writeStep m dir buf len s = .inl s' ∧ s'.1.toNat ≤ i ∧ len.toNat - s'.1.toNat < len.toNat - s.1.toNat) ∨
      ∃ r, writeStep m dir buf len s = .inr r ∧ ∃ v, r = .error v := by
  have hlt : s.1 < len := UInt32.lt_iff_toNat_lt.mpr (Nat.lt_of_le_of_lt hs hi)
  obtain ⟨hpos,hle⟩ := chunkSize_le hlt
  have hsum := toNat_add_chunkSize hlt
  unfold writeStep
  rw [if_pos hlt]
  dsimp only
  cases hk : copyIn m dir (buf + s.1) (chunkSize len s.1).toNat with
  | error v => exact Or.inr ⟨_,rfl,v,rfl⟩
  | ok kbuf =>
    -- the byte that faults lies behind this chunk
    have hbehind : s.1.toNat + (chunkSize len s.1).toNat ≤ i := by
      by_contra hin
      have hfault : readVirt m dir (buf + s.1 + UInt32.ofNat (i - s.1.toNat)) = none := by
        rw [add_ofNat_add, Nat.add_sub_cancel' hs]
        exact h
      obtain ⟨v,hv⟩ := copyIn_error (by omega : i - s.1.toNat < (chunkSize len s.1).toNat) hfault
      rw [hk] at hv
      cases hv
    refine Or.inl ⟨_,rfl,?_,?_⟩
    · dsimp only
      omega
    · dsimp only
      omega

theorem writeLoop_error {i : ℕ} (hi : i < len.toNat) (h : readVirt m dir (buf + UInt32.ofNat i) = none) :
    ∃ v, writeLoop m dir buf len = some (.error v) := by
  obtain ⟨r,hr,v,rfl⟩ := writeLoop_spec (fun s => s.1.toNat ≤ i) (fun r => ∃ v, r = .error v) (Nat.zero_le i)
    fun s hs => writeStep_error hi h hs
  exact ⟨v,hr⟩

theorem copyIn_get {src : UInt32} {n : ℕ} {kbuf : List UInt8} (h : copyIn m dir src n = .ok kbuf) :
    kbuf.length = n ∧ ∀ i < n, readVirt m dir (src + UInt32.ofNat i) = kbuf[i]? := by
  induction n generalizing src kbuf with
  | zero =>
    cases h
    exact ⟨rfl,fun i hi => absurd hi (Nat.not_lt_zero i)⟩
  | succ n ih =>
    rw [copyIn] at h
    cases hr : readVirt m dir src with
    | none =>
      rw [hr] at h
      cases h
    | some b =>
      rw [hr] at h
      dsimp only at h
      cases hk : copyIn m dir (src + 1) n with
      | error v =>
        rw [hk] at h
        cases h
      | ok rest =>
        rw [hk] at h
        cases h
        obtain ⟨hlen,hget⟩ := ih hk
        refine ⟨congrArg (· + 1) hlen,fun i hi => ?_⟩
        cases i with
        | zero => exact (congrArg _ (UInt32.add_zero src)).trans hr
        | succ i =>
          rw [add_ofNat_succ, hget i (Nat.lt_of_succ_lt_succ hi)]
          rfl

theorem copyIn_mem {src : UInt32} {n : ℕ} {kbuf : List UInt8} (h : copyIn m dir src n = .ok kbuf) {b : UInt8} (hb : b ∈ kbuf) :
    ∃ i < n, readVirt m dir (src + UInt32.ofNat i) = some b := by
  obtain ⟨hlen,hget⟩ := copyIn_get h
  obtain ⟨i,hi,rfl⟩ := List.getElem_of_mem hb
  exact ⟨i,hlen ▸ hi,(hget i (hlen ▸ hi)).trans (List.getElem?_eq_getElem hi)⟩

/-- Everything printed is a byte of the buffer. -/
theorem writeLoop_mem {written : UInt32} {out : List UInt8} (h : writeLoop m dir buf len = some (.ok (written, out)))
    {b : UInt8} (hb : b ∈ out) : ∃ i < len.toNat, readVirt m dir (buf + UInt32.ofNat i) = some b := by
  let FromBuffer : List UInt8 → Prop := fun out => ∀ b ∈ out, ∃ i < len.toNat, readVirt m dir (buf + UInt32.ofNat i) = some b
  have hstep : ∀ s : UInt32 × List UInt8, FromBuffer s.2 →
      (∃ s', writeStep m dir buf len s = .inl s' ∧ FromBuffer s'.2 ∧ len.toNat - s'.1.toNat < len.toNat - s.1.toNat) ∨
        ∃ r, writeStep m dir buf len s = .inr r ∧ ∀ s', r = .ok s' → FromBuffer s'.2 := by
    intro s hs
    unfold writeStep
    by_cases hlt : s.1 < len
    · obtain ⟨hpos,hle⟩ := chunkSize_le hlt
      rw [if_pos hlt]
      dsimp only
      cases hk : copyIn m dir (buf + s.1) (chunkSize len s.1).toNat with
      | error v =>
        refine Or.inr ⟨_,rfl,fun s' hs' => ?_⟩
        cases hs'
      | ok kbuf =>
        refine Or.inl ⟨_,rfl,fun b hb => ?_,?_⟩
        · rcases List.mem_append.mp hb with hb | hb
          · exact hs b hb
          · obtain ⟨i,hi,hread⟩ := copyIn_mem hk (List.takeWhile_subset _ hb)
            rw [add_ofNat_add] at hread
            exact ⟨_,by omega,hread⟩
        · dsimp only
          rw [toNat_add_chunkSize hlt]
          omega
    · rw [if_neg hlt]
      refine Or.inr ⟨_,rfl,fun s' hs' => ?_⟩
      cases hs'
      exact hs
  obtain ⟨r,hr,hpost⟩ := writeLoop_spec (fun s => FromBuffer s.2) (fun r => ∀ s', r = .ok s' → FromBuffer s'.2)
    (fun b hb => by cases hb) hstep
  have hsame : some r = some (.ok (written, out)) := hr.symm.trans h
  exact hpost _ (Option.some.inj hsame) b hb

end

end ApPa.Arch
