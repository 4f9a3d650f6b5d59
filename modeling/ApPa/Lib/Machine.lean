import Mathlib.Init

/-! # Runs of a machine that answers calls

A machine takes one call at a time and answers it with a reply and its next state. An
invariant of single calls is an invariant of runs, and a simulation of single calls
by a specification carries over to whole sequences of calls and replies.
-/
namespace ApPa.Machine
variable {Op Reply S A : Type*}

/-- The replies to a sequence of calls and the state it ends in. -/
def run (exec : Op → S → Reply × S) : List Op → S → List Reply × S
  | [], s => ([], s)
  | op :: ops, s =>
    let rest := run exec ops (exec op s).2
    ((exec op s).1 :: rest.1, rest.2)

/-- Sequences of calls and replies that a specification of single calls allows. -/
inductive Allowed (spec : A → Op → Reply → A → Prop) : A → List Op → List Reply → A → Prop
  | nil (a : A) : Allowed spec a [] [] a
  | cons {a b c : A} {op : Op} {reply : Reply} {ops : List Op} {replies : List Reply} :
      spec a op reply b → Allowed spec b ops replies c →
      Allowed spec a (op :: ops) (reply :: replies) c

theorem Allowed.append {spec : A → Op → Reply → A → Prop} {a b c : A} {ops ops' : List Op} {replies replies' : List Reply}
    (h : Allowed spec a ops replies b) (h' : Allowed spec b ops' replies' c) :
    Allowed spec a (ops ++ ops') (replies ++ replies') c := by
  induction h with
  | nil a => exact h'
  | cons hstep _ ih => exact .cons hstep (ih h')

/-- A simulation of single calls from invariant states, carried over to sequences. -/
theorem Allowed.refines {C : Type*} {spec : A → Op → Reply → A → Prop} {spec' : C → Op → Reply → C → Prop} {Inv : A → Prop}
    {abs : A → C} (hstep : ∀ a op reply b, Inv a → spec a op reply b → Inv b ∧ spec' (abs a) op reply (abs b)) {a b : A}
    {ops : List Op} {replies : List Reply} (h : Allowed spec a ops replies b) (ha : Inv a) :
    Inv b ∧ Allowed spec' (abs a) ops replies (abs b) := by
  induction h with
  | nil a => exact ⟨ha,.nil _⟩
  | cons hspec _ ih =>
    obtain ⟨hb,hspec'⟩ := hstep _ _ _ _ ha hspec
    obtain ⟨hc,hrest⟩ := ih hb
    exact ⟨hc,.cons hspec' hrest⟩

variable {exec : Op → S → Reply × S}

theorem run_invariant_mem (Inv : S → Prop) (ops : List Op) (hstep : ∀ op ∈ ops, ∀ s, Inv s → Inv (exec op s).2)
    {s : S} (h : Inv s) : Inv (run exec ops s).2 := by
  induction ops generalizing s with
  | nil => exact h
  | cons op ops ih =>
    exact ih (fun op' hop => hstep op' (List.mem_cons_of_mem op hop)) (hstep op List.mem_cons_self s h)

theorem run_invariant (Inv : S → Prop) (hstep : ∀ op s, Inv s → Inv (exec op s).2)
    (ops : List Op) {s : S} (h : Inv s) : Inv (run exec ops s).2 :=
  run_invariant_mem Inv ops (fun op _ => hstep op) h

/-- Simulation of every call from an invariant state gives simulation of every run. -/
theorem run_refines (Inv : S → Prop) {spec : A → Op → Reply → A → Prop} (abs : S → A)
    (hinv : ∀ op s, Inv s → Inv (exec op s).2)
    (hsim : ∀ op s, Inv s → spec (abs s) op (exec op s).1 (abs (exec op s).2))
    (ops : List Op) {s : S} (h : Inv s) :
    Allowed spec (abs s) ops (run exec ops s).1 (abs (run exec ops s).2) := by
  induction ops generalizing s with
  | nil => exact Allowed.nil _
  | cons op ops ih => exact Allowed.cons (hsim op s h) (ih (hinv op s h))

end ApPa.Machine
