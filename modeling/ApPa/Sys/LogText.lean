import ApPa.Klibc.Number
import ApPa.Sys.Klog

/-! # What a format of the log stands for

The loop of `klog` reads its format piece by piece, and each directive stands for a text. A directive that
`klog` knows stores as much of its text as the buffer has room for.
-/
namespace ApPa.Sys
open Klibc Varargs

/-- A character that stands for itself, or a character behind a '%'. -/
inductive LogPiece
  | lit (c : UInt8)
  | dir (c : UInt8)

/-- How the loop reads a format; a '%' at its end stands for itself. -/
def logPieces : List UInt8 → List LogPiece
  | [] => []
  | [c] => [.lit c]
  | c :: d :: s => if c = '%'.toUInt8 then .dir d :: logPieces s else .lit c :: logPieces (d :: s)

/-- The directives of the `switch`. -/
def Known (c : UInt8) : Prop := c ∈ ['d', 'i', 'u', 'x', 's', 'c', '%'].map Char.toUInt8

instance (c : UInt8) : Decidable (Known c) := inferInstanceAs (Decidable (_ ∈ _))

/-- What a directive stands for, with the arguments behind it. -/
def meaning (c : UInt8) (args : List VaArg) : Except Fault (List UInt8 × List VaArg) :=
  if c = 'd'.toUInt8 ∨ c = 'i'.toUInt8 then (vaWord args).map fun v => (itoa v.1 10,v.2)
  else if c = 'u'.toUInt8 then (vaWord args).map fun v => (utoa v.1 10,v.2)
  else if c = 'x'.toUInt8 then (vaWord args).map fun v => (utoa v.1 16,v.2)
  else if c = 's'.toUInt8 then (vaStr args).map fun s => (s.1.elim [] fun s => cstr s.bytes,s.2)
  else if c = 'c'.toUInt8 then (vaWord args).map fun v => ([UInt8.ofNat v.1.toNat],v.2)
  else if c = '%'.toUInt8 then .ok (['%'.toUInt8],args)
  else .ok (['%'.toUInt8, c],args)

/-- What a format stands for when there is no limit. -/
def expand : List LogPiece → List VaArg → Except Fault (List UInt8 × List VaArg)
  | [], args => .ok ([],args)
  | .lit c :: ps, args => (expand ps args).map fun r => (c :: r.1,r.2)
  | .dir c :: ps, args => do
    let t ← meaning c args
    let r ← expand ps t.2
    return (t.1 ++ r.1,r.2)

theorem expand_lit {c : UInt8} {ps : List LogPiece} {args : List VaArg} {r : List UInt8 × List VaArg} :
    expand (.lit c :: ps) args = .ok r ↔ ∃ q, expand ps args = .ok q ∧ (c :: q.1,q.2) = r := by
  rw [expand]
  cases expand ps args <;> simp [Except.map]

theorem expand_dir {c : UInt8} {ps : List LogPiece} {args : List VaArg} {r : List UInt8 × List VaArg} :
    expand (.dir c :: ps) args = .ok r ↔
      ∃ t q, meaning c args = .ok t ∧ expand ps t.2 = .ok q ∧ (t.1 ++ q.1,q.2) = r := by
  rw [expand]
  constructor
  · intro h
    cases ht : meaning c args with
    | error e =>
      rw [ht] at h
      cases h
    | ok t =>
      cases hq : expand ps t.2 with
      | error e =>
        simp only [ht, bind, Except.bind, hq] at h
        cases h
      | ok q =>
        simp only [ht, bind, Except.bind, hq] at h
        exact ⟨t,q,rfl,hq,Except.ok.inj h⟩
  · rintro ⟨t,q,ht,hq,rfl⟩
    simp only [ht, bind, Except.bind, hq]
    rfl

/-- The loop, one piece at a time. -/
def runPieces : List LogPiece → List VaArg → List UInt8 → Except Fault (List UInt8)
  | [], _, temp => .ok temp
  | p :: ps, args, temp =>
    if klogMsgMaxLen - 1 ≤ temp.length then .ok temp
    else
      match p with
      | .lit c => runPieces ps args (temp ++ [c])
      | .dir c => do
        let r ← klogConv c args temp
        runPieces ps r.2 r.1

/-- Outside a directive the character is put out, also a '%' before the NUL. -/
theorem klogLoop_lit {c d : UInt8} (hc : c ≠ 0) (h : c ≠ '%'.toUInt8 ∨ d = 0) (fuel : ℕ) (fmt : List UInt8)
    (args : List VaArg) (temp : List UInt8) :
    klogLoop (fuel + 1) (c :: d :: fmt) args temp =
      if klogMsgMaxLen - 1 ≤ temp.length then .ok temp else klogLoop fuel (d :: fmt) args (temp ++ [c]) := by
  rw [klogLoop]
  simp only [next, bind, Except.bind, hc, false_or]
  split
  · rfl
  · rcases h with h | h
    · rw [if_pos h]
    · rw [if_pos h]
      exact ite_self _

theorem klogLoop_dir {d : UInt8} (hd : d ≠ 0) (fuel : ℕ) (fmt : List UInt8) (args : List VaArg) (temp : List UInt8) :
    klogLoop (fuel + 1) ('%'.toUInt8 :: d :: fmt) args temp =
      if klogMsgMaxLen - 1 ≤ temp.length then .ok temp
      else (klogConv d args temp).bind fun r => klogLoop fuel fmt r.2 r.1 := by
  rw [klogLoop]
  simp only [next, bind, Except.bind, show '%'.toUInt8 ≠ 0 by decide, false_or, ne_eq, not_true_eq_false, if_false, hd]
  rfl

theorem klogLoop_eq {s : List UInt8} (h0 : 0 ∉ s) (rest : List UInt8) (args : List VaArg) (temp : List UInt8)
    {fuel : ℕ} (hfuel : s.length < fuel) :
    klogLoop fuel (s ++ 0 :: rest) args temp = runPieces (logPieces s) args temp := by
  induction s using logPieces.induct generalizing args temp fuel with
  | case1 =>
    obtain ⟨fuel,rfl⟩ := Nat.exists_eq_add_one_of_ne_zero (Nat.ne_of_gt hfuel)
    rfl
  | case2 c =>
    obtain ⟨fuel,rfl⟩ : ∃ n, fuel = n + 1 + 1 := ⟨fuel - 2,by simp at hfuel; omega⟩
    have hc : c ≠ 0 := fun hc => h0 (hc ▸ List.mem_cons_self)
    exact klogLoop_lit hc (.inr rfl) (fuel + 1) rest args temp
  | case3 d s ih =>
    obtain ⟨fuel,rfl⟩ : ∃ n, fuel = n + 1 := ⟨fuel - 1,by simp at hfuel; omega⟩
    rw [List.mem_cons, List.mem_cons, not_or, not_or] at h0
    have hstep := klogLoop_dir (Ne.symm h0.2.1) fuel (s ++ 0 :: rest) args temp
    rw [logPieces, if_pos rfl, runPieces]
    refine hstep.trans ?_
    split
    · rfl
    · cases klogConv d args temp with
      | error e => rfl
      | ok r => exact ih h0.2.2 r.2 r.1 (by rw [List.length_cons, List.length_cons] at hfuel; omega)
  | case4 c d s hc ih =>
    obtain ⟨fuel,rfl⟩ : ∃ n, fuel = n + 1 := ⟨fuel - 1,by simp at hfuel; omega⟩
    have hc0 : c ≠ 0 := fun hc => h0 (hc ▸ List.mem_cons_self)
    rw [logPieces, if_neg hc, runPieces]
    refine (klogLoop_lit hc0 (.inl hc) fuel (s ++ 0 :: rest) args temp).trans ?_
    split
    · rfl
    · exact ih (fun h => h0 (List.mem_cons_of_mem c h)) args _ (Nat.lt_of_succ_lt_succ hfuel)

/-! ## The directives -/

theorem zero_notMem_itoa (v : UInt32) : 0 ∉ itoa v 10 := by
  rw [itoa_eq, List.mem_append, not_or]
  refine ⟨?_,zero_notMem_numeral (by decide) (by decide) _⟩
  split <;> decide

theorem map_take {α : Type} (a : Except Fault (α × List VaArg)) {temp : List UInt8} {n : ℕ} {f g : α → List UInt8}
    (h : ∀ x, f x = temp ++ (g x).take n) :
    (a.map fun v => (f v.1,v.2)) = (a.map fun v => (g v.1,v.2)).map fun t => (temp ++ t.1.take n,t.2) := by
  cases a with
  | error e => rfl
  | ok v => exact congrArg (fun text => Except.ok (text,v.2)) (h v.1)

theorem copyBounded_of_notMem {text : List UInt8} (h : 0 ∉ text) (temp : List UInt8) :
    copyBounded temp text = temp ++ text.take (klogMsgMaxLen - 1 - temp.length) := by
  rw [copyBounded, cstr_of_notMem h]

theorem klogConv_known {temp : List UInt8} (hroom : temp.length < klogMsgMaxLen - 1) {c : UInt8} (hc : Known c)
    (args : List VaArg) : klogConv c args temp =
      (meaning c args).map fun t => (temp ++ t.1.take (klogMsgMaxLen - 1 - temp.length),t.2) := by
  have hone : ∀ b : UInt8, temp ++ [b] = temp ++ [b].take (klogMsgMaxLen - 1 - temp.length) := fun b => by
    rw [List.take_of_length_le (Nat.sub_pos_of_lt hroom)]
  have hutoa : ∀ base, 1 < base → base ≤ 36 → ∀ v : UInt32,
      copyBounded temp (utoa v base) = temp ++ (utoa v base).take (klogMsgMaxLen - 1 - temp.length) :=
    fun base h1 h36 v => copyBounded_of_notMem (utoa_text h1 h36 v).1 temp
  simp only [Known, List.map_cons, List.map_nil, List.mem_cons, List.not_mem_nil, or_false] at hc
  rcases hc with rfl | rfl | rfl | rfl | rfl | rfl | rfl
  · exact map_take (vaWord args) fun v => copyBounded_of_notMem (zero_notMem_itoa v) temp
  · exact map_take (vaWord args) fun v => copyBounded_of_notMem (zero_notMem_itoa v) temp
  · exact map_take (vaWord args) (hutoa 10 (by decide) (by decide))
  · exact map_take (vaWord args) (hutoa 16 (by decide) (by decide))
  · refine map_take (vaStr args) (f := fun s => s.elim temp fun s => copyBounded temp s.bytes)
      (g := fun s => s.elim [] fun s => cstr s.bytes) fun s => ?_
    cases s with
    | none => exact ((congrArg (temp ++ ·) List.take_nil).trans (List.append_nil temp)).symm
    | some s => rfl
  · exact map_take (vaWord args) (f := fun v => temp ++ [UInt8.ofNat v.toNat]) fun v => hone _
  · exact congrArg (fun text => Except.ok (text,args)) (hone _)

theorem klogConv_unknown {c : UInt8} (hc : ¬Known c) (args : List VaArg) (temp : List UInt8) :
    meaning c args = .ok (['%'.toUInt8, c],args) ∧ klogConv c args temp = .ok (temp ++ ['%'.toUInt8, c],args) := by
  simp only [Known, List.map_cons, List.map_nil, List.mem_cons, List.not_mem_nil, or_false, not_or] at hc
  simp only [meaning, klogConv, hc, or_self, if_false]
  exact ⟨trivial,rfl⟩

/-! ## Known directives only -/

theorem runPieces_full {temp : List UInt8} (h : klogMsgMaxLen - 1 ≤ temp.length) (ps : List LogPiece) (args : List VaArg) :
    runPieces ps args temp = .ok temp := by
  cases ps with
  | nil => rfl
  | cons p ps => cases p <;> rw [runPieces, if_pos h]

/-- A text that is cut off at the end of the buffer leaves no room for what follows. -/
theorem take_copy {n : ℕ} {temp : List UInt8} (text out : List UInt8) (h : temp.length ≤ n) :
    ((temp ++ text.take (n - temp.length)) ++ out).take n = (temp ++ (text ++ out)).take n := by
  simp only [List.take_append, List.append_assoc, List.length_take, List.take_take, Nat.min_self]
  congr 3
  omega

theorem take_full {n : ℕ} {temp : List UInt8} (out : List UInt8) (h : temp.length ≤ n) (hfull : n ≤ temp.length) :
    (temp ++ out).take n = temp := by
  rw [Nat.le_antisymm hfull h, List.take_left]

/-- Without an unknown directive the buffer takes the front of the text. -/
theorem runPieces_known {ps : List LogPiece} {args : List VaArg} {r : List UInt8 × List VaArg} {temp : List UInt8}
    (hknown : ∀ c, .dir c ∈ ps → Known c) (h : expand ps args = .ok r) (hroom : temp.length ≤ klogMsgMaxLen - 1) :
    runPieces ps args temp = .ok ((temp ++ r.1).take (klogMsgMaxLen - 1)) := by
  induction ps generalizing args temp r with
  | nil =>
    cases h
    rw [List.append_nil, List.take_of_length_le hroom]
    rfl
  | cons p ps ih =>
    have hrest : ∀ c, .dir c ∈ ps → Known c := fun c hc => hknown c (List.mem_cons_of_mem _ hc)
    by_cases hfull : klogMsgMaxLen - 1 ≤ temp.length
    · rw [runPieces_full hfull, take_full _ hroom hfull]
    cases p with
    | lit c =>
      obtain ⟨q,hq,rfl⟩ := expand_lit.mp h
      have hlen : (temp ++ [c]).length ≤ klogMsgMaxLen - 1 := by
        rw [List.length_append, List.length_singleton]
        omega
      rw [runPieces, if_neg hfull]
      dsimp only
      rw [ih hrest hq hlen, List.append_assoc, List.singleton_append]
    | dir c =>
      obtain ⟨t,q,ht,hq,rfl⟩ := expand_dir.mp h
      have hlen : (temp ++ t.1.take (klogMsgMaxLen - 1 - temp.length)).length ≤ klogMsgMaxLen - 1 := by
        rw [List.length_append, List.length_take]
        omega
      rw [runPieces, if_neg hfull]
      dsimp only
      rw [klogConv_known (Nat.lt_of_not_le hfull) (hknown c List.mem_cons_self), ht]
      exact (ih hrest hq hlen).trans (congrArg Except.ok (take_copy t.1 q.1 hroom))

end ApPa.Sys
