import Mathlib.Data.List.Basic

/-! # The interrupt flag along a piece of code

What code does is a list of steps. `cli`, `sti`, the entry of an interrupt gate and `iret` change
the flag of the processor. A processor that is switched away comes back when some other task
gives it up, which every task does with its interrupts disabled.
-/
namespace ApPa.Masking

/-- Steps of one task; `iret` restores a saved flag. -/
inductive Prim (υ : Type*) where
  | cli
  | sti
  | gate
  | iret (saved : Bool)
  | update (u : υ)

/-- How a task has disabled interrupts before it gives up the processor. -/
inductive Mask where
  | cli
  | gate

/-- What a task does from being switched to until it switches away. -/
structure Burst (υ : Type*) where
  before : List (Prim υ)
  mask : Mask

/-- A step of the code under study: one of its own, or other tasks run for a while. -/
inductive Step (υ : Type*) where
  | prim (p : Prim υ)
  | switch (others : List (Burst υ))

section
variable {υ : Type*}

namespace Prim

def flag (b : Bool) : Prim υ → Bool
  | cli => false
  | sti => true
  | gate => false
  | iret saved => saved
  | update _ => b

end Prim

def Mask.prim : Mask → Prim υ
  | cli => .cli
  | gate => .gate

namespace Burst

def flag (b : Bool) (t : Burst υ) : Bool := (t.before ++ [t.mask.prim]).foldl Prim.flag b

theorem flag_eq (b : Bool) (t : Burst υ) : t.flag b = false := by
  rw [flag, List.foldl_append]
  cases t.mask with
  | cli => rfl
  | gate => rfl

end Burst

def Step.flag (b : Bool) : Step υ → Bool
  | prim p => p.flag b
  | switch others => others.foldl Burst.flag b

/-- A task that gives up the processor with interrupts disabled finds them disabled again. -/
theorem Step.flag_switch (others : List (Burst υ)) : (Step.switch others).flag false = false := by
  rw [flag]
  induction others with
  | nil => rfl
  | cons t others ih =>
    rw [List.foldl_cons, t.flag_eq]
    exact ih

def flag (b : Bool) (steps : List (Step υ)) : Bool := steps.foldl Step.flag b

/-- The updates that code makes, each with the flag it is made under. -/
def updates (b : Bool) : List (Step υ) → List (υ × Bool)
  | [] => []
  | .prim (.update u) :: steps => (u, b) :: updates b steps
  | s :: steps => updates (s.flag b) steps

/-- Behind an interrupt gate the flag stays clear, whatever it was before. -/
def Quiet (steps : List (Step υ)) : Prop := ∀ b p, p <+: steps → flag b (.prim .gate :: p) = false

theorem flag_append (b : Bool) (s t : List (Step υ)) : flag b (s ++ t) = flag (flag b s) t := List.foldl_append

theorem updates_append (b : Bool) (s t : List (Step υ)) : updates b (s ++ t) = updates b s ++ updates (flag b s) t := by
  induction s generalizing b with
  | nil => rfl
  | cons x s ih =>
    cases x with
    | prim p => cases p with
      | update u => exact congrArg _ (ih b)
      | cli => exact ih false
      | sti => exact ih true
      | gate => exact ih false
      | iret saved => exact ih saved
    | switch others => exact ih _

theorem quiet_iff {steps : List (Step υ)} : Quiet steps ↔ ∀ s ∈ steps, s.flag false = false := by
  have hstart : ∀ (b : Bool) (p : List (Step υ)), flag b (.prim .gate :: p) = flag false p := fun _ _ => rfl
  constructor
  · intro h s hs
    obtain ⟨pre,post,rfl⟩ := List.append_of_mem hs
    have hpre := h false pre (List.prefix_append pre _)
    have hmore := h false (pre ++ [s]) ⟨post,by rw [List.append_assoc]; rfl⟩
    rw [hstart] at hpre hmore
    rwa [flag_append, hpre] at hmore
  · intro h b p hp
    rw [hstart]
    have hall : ∀ s ∈ p, s.flag false = false := fun s hs => h s (hp.subset hs)
    clear hp
    induction p with
    | nil => rfl
    | cons s p ih =>
      rw [flag, List.foldl_cons, hall s List.mem_cons_self]
      exact ih fun s' hs' => hall s' (List.mem_cons_of_mem s hs')

theorem quiet_nil : Quiet ([] : List (Step υ)) := quiet_iff.mpr fun _ hs => by cases hs

theorem not_quiet_of_sti {steps : List (Step υ)} (h : .prim .sti ∈ steps) : ¬Quiet steps := by
  intro hq
  cases quiet_iff.mp hq _ h

end

end ApPa.Masking
