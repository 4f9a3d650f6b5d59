import ApPa.Lib.ByteMem

/-! # A stack of words in memory

Words are pushed below an address and read again above it. What lies outside the words stays as it is.
-/
namespace ApPa.WordStack
open ByteMem LittleEndian

/-- The words from an address on. -/
def Holds (m : Mem) : ℕ → List UInt32 → Prop
  | _, [] => True
  | a, v :: vs => read32 m a = v.toNat ∧ Holds m (a + 4) vs

/-- Push words below an address, the first one first. -/
def pushes (m : Mem) (a : ℕ) : List UInt32 → Mem
  | [] => m
  | v :: vs => pushes (write32 m (a - 4) v.toNat) (a - 4) vs

variable {m m' : Mem} {a : ℕ} {vs : List UInt32}

theorem Holds.congr (h : Holds m a vs) (hm : ∀ x, a ≤ x → x < a + 4 * vs.length → m' x = m x) : Holds m' a vs := by
  induction vs generalizing a with
  | nil => trivial
  | cons v vs ih =>
    simp only [List.length_cons] at hm
    refine ⟨?_,ih h.2 fun x hlo hhi => hm x (by omega) (by omega)⟩
    rw [← h.1]
    exact read32_congr fun x hlo hhi => hm x hlo (by omega)

theorem holds_of_read (h : ∀ k v, vs[k]? = some v → read32 m (a + 4 * k) = v.toNat) : Holds m a vs := by
  induction vs generalizing a with
  | nil => trivial
  | cons v vs ih =>
    refine ⟨h 0 v rfl,ih fun k w hw => ?_⟩
    rw [Nat.add_assoc, Nat.add_comm 4, ← Nat.mul_succ]
    exact h (k + 1) w hw

theorem Holds.append {ws : List UInt32} (h : Holds m a (vs ++ ws)) : Holds m a vs ∧ Holds m (a + 4 * vs.length) ws := by
  induction vs generalizing a with
  | nil => exact ⟨trivial,h⟩
  | cons v vs ih =>
    obtain ⟨hvs,hws⟩ := ih h.2
    refine ⟨⟨h.1,hvs⟩,?_⟩
    simpa [Nat.mul_add, Nat.add_assoc, Nat.add_comm] using hws

theorem Holds.read (h : Holds m a vs) {k : ℕ} {v : UInt32} (hk : vs[k]? = some v) : read32 m (a + 4 * k) = v.toNat := by
  induction vs generalizing a k with
  | nil => simp at hk
  | cons w vs ih =>
    cases k with
    | zero =>
      simp only [List.getElem?_cons_zero, Option.some.injEq] at hk
      rw [← hk]
      exact h.1
    | succ k =>
      rw [List.getElem?_cons_succ] at hk
      have hread := ih h.2 hk
      rwa [show a + 4 + 4 * k = a + 4 * (k + 1) by omega] at hread

theorem pushes_append (ws : List UInt32) : pushes m a (vs ++ ws) = pushes (pushes m a vs) (a - 4 * vs.length) ws := by
  induction vs generalizing m a with
  | nil => rfl
  | cons v vs ih =>
    simp only [List.cons_append, pushes, List.length_cons]
    rw [ih]
    congr 1
    omega

theorem pushes_apply {x : ℕ} (ha : 4 * vs.length ≤ a) (hx : x < a - 4 * vs.length ∨ a ≤ x) : pushes m a vs x = m x := by
  induction vs generalizing m a with
  | nil => rfl
  | cons v vs ih =>
    simp only [List.length_cons] at ha hx
    rw [pushes, ih (by omega) (by omega)]
    exact write32_apply (by omega)

theorem write32_ofNat (m : Mem) (a v : ℕ) : write32 m a (UInt32.ofNat v).toNat = write32 m a v := by
  have hbyte : ∀ i < 4, leByte (v % 2 ^ 32) i = leByte v i := by
    intro i hi
    apply UInt8.toNat_inj.mp
    rw [leByte_toNat, leByte_toNat]
    obtain rfl | rfl | rfl | rfl : i = 0 ∨ i = 1 ∨ i = 2 ∨ i = 3 := by omega
    all_goals omega
  rw [UInt32.toNat_ofNat', write32, write32, le32, le32, hbyte 0 (by decide), hbyte 1 (by decide), hbyte 2 (by decide),
    hbyte 3 (by decide)]

/-- The last word that was pushed is the first one from below. -/
theorem holds_pushes (ha : 4 * vs.length ≤ a) {ws : List UInt32} (h : Holds m a ws) :
    Holds (pushes m a vs) (a - 4 * vs.length) (vs.reverse ++ ws) := by
  induction vs generalizing m a ws with
  | nil => exact h
  | cons v vs ih =>
    simp only [List.length_cons] at ha
    have hpushed : Holds (write32 m (a - 4) v.toNat) (a - 4) (v :: ws) := by
      refine ⟨?_,?_⟩
      · rw [read32_write32_self, Nat.mod_eq_of_lt v.toNat_lt]
      · rw [show a - 4 + 4 = a by omega]
        exact h.congr fun x hlo _ => write32_apply (by omega)
    have hrest := ih (by omega) hpushed
    simp only [List.length_cons, List.reverse_cons, List.append_assoc, List.cons_append, List.nil_append, pushes]
    rwa [show a - 4 * (vs.length + 1) = a - 4 - 4 * vs.length by omega]

end ApPa.WordStack
