import Mathlib.Data.List.FinRange
import Mathlib.Data.UInt

/-! # Two cascaded interrupt controllers

A controller of the kind 8259 latches the requests of eight lines and presents the one with the lowest number, unless it is
masked or one of at least its priority is in service. It is in service from the acknowledgement on until a command ends it.
The output of the slave is one of the lines of the master. An acknowledgement takes two cycles, and a request that is gone by
then leaves the controller with the vector of its last line and nothing in service.
-/
namespace ApPa.Pic8259

/-- The initialization words that are still to come. -/
inductive Stage where
  | icw2
  | icw3
  | icw4
  | ready
  deriving DecidableEq, Repr

structure Pic where
  irr : Fin 8 → Bool
  isr : Fin 8 → Bool
  imr : UInt8
  base : UInt8
  cascade : UInt8
  mode : UInt8
  stage : Stage

def first (lines : Fin 8 → Bool) : Option (Fin 8) := (List.finRange 8).find? lines

/-- An end of interrupt that names no line ends the one of highest priority. -/
def eoi (isr : Fin 8 → Bool) : Fin 8 → Bool :=
  match first isr with
  | some i => Function.update isr i false
  | none => isr

namespace Pic

def masked (p : Pic) (i : Fin 8) : Bool := p.imr.toNat.testBit i

/-- A write to the command port. Of the operation words only the end of interrupt does anything here. -/
def command (p : Pic) (word : UInt8) : Pic :=
  if word &&& 0x10 ≠ 0 then { p with irr := fun _ => false, isr := fun _ => false, imr := 0, stage := .icw2 }
  else if word &&& 0xF8 = 0x20 then { p with isr := eoi p.isr }
  else p

def data (p : Pic) (word : UInt8) : Pic :=
  match p.stage with
  | .icw2 => { p with base := word, stage := .icw3 }
  | .icw3 => { p with cascade := word, stage := .icw4 }
  | .icw4 => { p with mode := word, stage := .ready }
  | .ready => { p with imr := word }

/-- The line that is presented to the processor, if it is the turn of one of the `requests`. -/
def next (p : Pic) (requests : Fin 8 → Bool) : Option (Fin 8) :=
  match first fun i => requests i && !p.masked i with
  | none => none
  | some i =>
    match first p.isr with
    | none => some i
    | some j => if i < j then some i else none

/-- A line goes into service, unless the mode ends it at once. -/
def ack (p : Pic) (i : Fin 8) : Pic :=
  { p with irr := Function.update p.irr i false,
           isr := if p.mode &&& 2 ≠ 0 then p.isr else Function.update p.isr i true }

end Pic

structure Pair where
  master : Pic
  slave : Pic

namespace Pair

/-- The lines of the master, one of which is the output of the slave. -/
def requests (c : Pair) : Fin 8 → Bool := fun i =>
  if c.master.cascade.toNat.testBit i then (c.slave.next c.slave.irr).isSome else c.master.irr i

def intr (c : Pair) : Bool := (c.master.next c.requests).isSome

/-- The first cycle of an acknowledgement: the master's line, if it has one. -/
def inta1 (c : Pair) : Option (Fin 8) × Pair :=
  match c.master.next c.requests with
  | none => (none, c)
  | some i => (some i, { c with master := c.master.ack i })

/-- The second cycle: the vector, and whether there was no request behind it. -/
def inta2 (c : Pair) : Option (Fin 8) → (UInt8 × Bool) × Pair
  | none => ((c.master.base + 7, true), c)
  | some i =>
    if c.master.cascade.toNat.testBit i then
      match c.slave.next c.slave.irr with
      | none => ((c.slave.base + 7, true), c)
      | some j => ((c.slave.base + UInt8.ofNat j, false), { c with slave := c.slave.ack j })
    else ((c.master.base + UInt8.ofNat i, false), c)

end Pair

/-! ## Priorities -/

section
variable {lines : Fin 8 → Bool}

theorem first_eq_none : first lines = none ↔ ∀ i, lines i = false := by
  rw [first, List.find?_eq_none]
  exact ⟨fun h i => Bool.eq_false_of_not_eq_true (h i (List.mem_finRange i)),fun h i _ => by rw [h i]; exact Bool.false_ne_true⟩

theorem of_first {i : Fin 8} (h : first lines = some i) : lines i = true := List.find?_some h

theorem first_isSome : (first lines).isSome ↔ ∃ i, lines i = true := by
  rw [← not_iff_not, Option.not_isSome_iff_eq_none, first_eq_none, not_exists]
  exact forall_congr' fun i => (Bool.not_eq_true _).symm ▸ Iff.rfl

/-- At most one line was in service, and then none is. -/
theorem eoi_of_subset {i : Fin 8} (h : ∀ j, lines j = true → j = i) : eoi lines = fun _ => false := by
  unfold eoi
  split
  · rename_i k hk
    funext j
    by_cases hj : j = k
    · rw [hj, Function.update_self]
    · rw [Function.update_of_ne hj]
      refine Bool.eq_false_of_not_eq_true fun hset => hj ?_
      rw [h j hset, h k (of_first hk)]
  · rename_i hnone
    exact funext (first_eq_none.mp hnone)

end

namespace Pic
variable {p : Pic} {requests : Fin 8 → Bool}

theorem data_ready (h : p.stage = .ready) (word : UInt8) : p.data word = { p with imr := word } := by
  rw [data, h]

/-- With nothing in service any request that is not masked gets through. -/
theorem next_of_idle (h : ∀ i, p.isr i = false) : p.next requests = first fun i => requests i && !p.masked i := by
  have hnone : first p.isr = none := first_eq_none.mpr h
  unfold next
  rw [hnone]
  cases first fun i => requests i && !p.masked i with
  | none => rfl
  | some i => rfl

theorem of_next {i : Fin 8} (h : p.next requests = some i) : requests i = true ∧ p.masked i = false := by
  unfold next at h
  split at h
  · cases h
  · rename_i k hk
    have hset := of_first hk
    rw [Bool.and_eq_true, Bool.not_eq_true'] at hset
    split at h
    · cases h
      exact hset
    · split at h
      · cases h
        exact hset
      · cases h

end Pic

end ApPa.Pic8259
