import Mathlib.Data.List.Nodup
import Mathlib.Logic.Function.Basic

/-! # Stack instructions of a 32-bit processor

Code without jumps is a list of instructions. Memory is behind a bus, which loads and stores
words; what a store does beyond that is up to the bus.
-/
namespace ApPa.Ia32

inductive Reg where
  | eax
  | ebx
  | esi
  | edi
  | ebp
  deriving DecidableEq, Repr

structure Regs where
  gpr : Reg → UInt32
  esp : UInt32
  eip : UInt32

/-- `push r`, `pop r`, `mov r, [esp + off]`, `mov [r], esp`, `mov esp, [esp + off]`, `ret`. -/
inductive Instr where
  | push (r : Reg)
  | pop (r : Reg)
  | load (r : Reg) (off : UInt32)
  | saveEsp (r : Reg)
  | loadEsp (off : UInt32)
  | ret
  deriving DecidableEq, Repr

structure Bus (σ : Type*) where
  load : σ → UInt32 → UInt32
  store : σ → UInt32 → UInt32 → σ

structure Machine (σ : Type*) where
  regs : Regs
  mem : σ

section
variable {σ : Type*} (b : Bus σ)

def pushWord (m : Machine σ) (v : UInt32) : Machine σ :=
  ⟨{ m.regs with esp := m.regs.esp - 4 },b.store m.mem (m.regs.esp - 4) v⟩

def exec (m : Machine σ) : Instr → Machine σ
  | .push r => pushWord b m (m.regs.gpr r)
  | .pop r => ⟨{ m.regs with gpr := Function.update m.regs.gpr r (b.load m.mem m.regs.esp), esp := m.regs.esp + 4 },m.mem⟩
  | .load r off => ⟨{ m.regs with gpr := Function.update m.regs.gpr r (b.load m.mem (m.regs.esp + off)) },m.mem⟩
  | .saveEsp r => ⟨m.regs,b.store m.mem (m.regs.gpr r) m.regs.esp⟩
  | .loadEsp off => ⟨{ m.regs with esp := b.load m.mem (m.regs.esp + off) },m.mem⟩
  | .ret => ⟨{ m.regs with esp := m.regs.esp + 4, eip := b.load m.mem m.regs.esp },m.mem⟩

def run (code : List Instr) (m : Machine σ) : Machine σ := code.foldl (exec b) m

def pushWords (vs : List UInt32) (m : Machine σ) : Machine σ := vs.foldl (pushWord b) m

@[simp] theorem run_nil (m : Machine σ) : run b [] m = m := rfl

@[simp] theorem run_cons (i : Instr) (code : List Instr) (m : Machine σ) :
    run b (i :: code) m = run b code (exec b m i) := rfl

theorem run_append (c d : List Instr) (m : Machine σ) : run b (c ++ d) m = run b d (run b c m) := List.foldl_append

theorem pushWords_append (vs ws : List UInt32) (m : Machine σ) :
    pushWords b (vs ++ ws) m = pushWords b ws (pushWords b vs m) := List.foldl_append

@[simp] theorem pushWords_gpr (vs : List UInt32) (m : Machine σ) : (pushWords b vs m).regs.gpr = m.regs.gpr := by
  induction vs generalizing m with
  | nil => rfl
  | cons v vs ih => exact ih (pushWord b m v)

theorem run_push (rs : List Reg) (m : Machine σ) :
    run b (rs.map .push) m = pushWords b (rs.map m.regs.gpr) m := by
  induction rs generalizing m with
  | nil => rfl
  | cons r rs ih => exact ih (exec b m (.push r))

/-- The state after registers have been popped and the return address with them. -/
structure Popped (rs : List Reg) (m m' : Machine σ) : Prop where
  mem : m'.mem = m.mem
  esp : m'.regs.esp = m.regs.esp + UInt32.ofNat (4 * (rs.length + 1))
  eip : m'.regs.eip = b.load m.mem (m.regs.esp + UInt32.ofNat (4 * rs.length))
  popped : ∀ j, ∀ h : j < rs.length, m'.regs.gpr rs[j] = b.load m.mem (m.regs.esp + UInt32.ofNat (4 * j))
  kept : ∀ r ∉ rs, m'.regs.gpr r = m.regs.gpr r

theorem run_pop {rs : List Reg} (hrs : rs.Nodup) (m : Machine σ) : Popped b rs m (run b (rs.map .pop ++ [.ret]) m) := by
  induction rs generalizing m with
  | nil =>
    refine ⟨rfl,rfl,?_,fun j h => absurd h (Nat.not_lt_zero j),fun _ _ => rfl⟩
    exact congrArg (b.load m.mem) (UInt32.add_zero _).symm
  | cons r rs ih =>
    obtain ⟨hr,hrs⟩ := List.nodup_cons.mp hrs
    obtain ⟨hmem,hesp,heip,hpop,hkept⟩ := ih hrs (exec b m (.pop r))
    have hnext : ∀ n, m.regs.esp + 4 + UInt32.ofNat (4 * n) = m.regs.esp + UInt32.ofNat (4 * (n + 1)) := by
      intro n
      rw [UInt32.add_assoc, Nat.mul_add, Nat.add_comm (4 * n), UInt32.ofNat_add]
      rfl
    refine ⟨hmem,hesp.trans (hnext _),heip.trans (congrArg (b.load m.mem) (hnext _)),fun j h => ?_,fun r' hr' => ?_⟩
    · cases j with
      | zero =>
        refine (hkept r hr).trans ((Function.update_self ..).trans ?_)
        exact congrArg (b.load m.mem) (UInt32.add_zero _).symm
      | succ j => exact (hpop j (Nat.lt_of_succ_lt_succ h)).trans (congrArg (b.load m.mem) (hnext _))
    · rw [List.mem_cons, not_or] at hr'
      exact (hkept r' hr'.2).trans (Function.update_of_ne hr'.1 ..)

end

end ApPa.Ia32
