import ApPa.Klibc.CString
import ApPa.Klibc.Number
import ApPa.Lib.Varargs

/-! # Formatted output of the kernel

`kprintf` prints piece by piece through `kprint`. What is printed is the list of the
characters handed to the screen.
-/
namespace ApPa.Klibc
open Varargs

/-- `switch (format[i])`: the screen and the arguments behind it. -/
def kprintfConv (c : UInt8) (args : List VaArg) (screen : List UInt8) : Except Fault (List UInt8 × List VaArg) :=
  if c = 'd'.toUInt8 ∨ c = 'i'.toUInt8 then do
    let val ← vaWord args
    return (kprintText screen (itoa val.1 10),val.2)
  else if c = 'u'.toUInt8 then do
    let val ← vaWord args
    return (kprintText screen (utoa val.1 10),val.2)
  else if c = 'x'.toUInt8 then do
    let val ← vaWord args
    return (kprintText screen (utoa val.1 16),val.2)
  else if c = 'X'.toUInt8 then do
    let val ← vaWord args
    return (kprintText screen ((utoa val.1 16).map upper),val.2)
  else if c = 'c'.toUInt8 then do
    let val ← vaWord args
    return (kprintText screen [UInt8.ofNat val.1.toNat, 0],val.2)
  else if c = 's'.toUInt8 then do
    let str ← vaStr args
    return (kprintText screen (str.1.elim (ascii "(null)") Str.bytes),str.2)
  else if c = 'p'.toUInt8 then do
    let ptr ← vaWord args
    return (kprintText (kprintText screen (ascii "0x")) (utoa ptr.1 16),ptr.2)
  else if c = '%'.toUInt8 then return (kprintText screen ['%'.toUInt8, 0],args)
  else return (kprintText screen ['%'.toUInt8, c, 0],args)

/-- The loop over the format. A '%' at the end of the format stands for itself. -/
def kprintfLoop : ℕ → List UInt8 → List VaArg → List UInt8 → Except Fault (List UInt8)
  | 0, _, _, _ => .error .overread
  | fuel + 1, format, args, screen => do
    let c ← next format
    if c.1 = 0 then return screen
    else if c.1 ≠ '%'.toUInt8 then kprintfLoop fuel c.2 args (kprintText screen [c.1, 0])
    else
      let d ← next c.2
      if d.1 = 0 then kprintfLoop fuel c.2 args (kprintText screen [c.1, 0])
      else
        let r ← kprintfConv d.1 args screen
        kprintfLoop fuel d.2 r.2 r.1

def kprintf (format : List UInt8) (args : List VaArg) : Except Fault (List UInt8) :=
  kprintfLoop (format.length + 1) format args []

theorem kprintfLoop_lits {s : List UInt8} (h : ∀ c ∈ s, c ≠ 0 ∧ c ≠ '%'.toUInt8) (fuel : ℕ) (format : List UInt8)
    (args : List VaArg) (screen : List UInt8) :
    kprintfLoop (s.length + fuel) (s ++ format) args screen = kprintfLoop fuel format args (screen ++ s) := by
  induction s generalizing screen with
  | nil => rw [List.length_nil, Nat.zero_add, List.nil_append, List.append_nil]
  | cons c s ih =>
    obtain ⟨hc0,hcp⟩ := h c List.mem_cons_self
    have hprint : kprintText screen [c, 0] = screen ++ [c] := by simp [kprintText, cstr_cons, hc0]
    rw [List.length_cons, Nat.add_right_comm, List.cons_append, kprintfLoop]
    simp only [next, bind, Except.bind, hc0, if_false, hcp, ne_eq, not_false_eq_true, if_true, hprint]
    rw [ih (fun d hd => h d (List.mem_cons_of_mem c hd)), List.append_assoc, List.singleton_append]

theorem kprintf_lits {s : List UInt8} (h : ∀ c ∈ s, c ≠ 0 ∧ c ≠ '%'.toUInt8) (args : List VaArg) :
    kprintf (s ++ [0]) args = .ok s := by
  rw [kprintf, List.length_append, Nat.add_assoc, kprintfLoop_lits h, List.nil_append]
  rfl

theorem kprintf_unsigned {s t : List UInt8} (hs : ∀ c ∈ s, c ≠ 0 ∧ c ≠ '%'.toUInt8)
    (ht : ∀ c ∈ t, c ≠ 0 ∧ c ≠ '%'.toUInt8) (v : UInt32) :
    kprintf (s ++ '%'.toUInt8 :: 'u'.toUInt8 :: (t ++ [0])) [.word v] = .ok (s ++ (utoa v 10 ++ t)) := by
  have hfuel : (s ++ '%'.toUInt8 :: 'u'.toUInt8 :: (t ++ [0])).length + 1 = s.length + (t.length + 3 + 1) := by
    rw [List.length_append, List.length_cons, List.length_cons, List.length_append, List.length_singleton]
    omega
  have hprint : kprintText s (utoa v 10) = s ++ utoa v 10 := by
    rw [kprintText, cstr_of_notMem (utoa_text (by decide) (by decide) v).1]
  have hconv : kprintfLoop (t.length + 3 + 1) ('%'.toUInt8 :: 'u'.toUInt8 :: (t ++ [0])) [.word v] s =
      kprintfLoop (t.length + 3) (t ++ [0]) [] (kprintText s (utoa v 10)) := by
    have hpercent : ('%'.toUInt8 : UInt8) ≠ 0 := by decide
    rw [kprintfLoop]
    simp only [next, bind, Except.bind, if_neg hpercent, ne_eq, not_true_eq_false, if_false]
    rfl
  rw [kprintf, hfuel, kprintfLoop_lits hs, List.nil_append, hconv, kprintfLoop_lits ht, hprint, List.append_assoc]
  rfl

end ApPa.Klibc
