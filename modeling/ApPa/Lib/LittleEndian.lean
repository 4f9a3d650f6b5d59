import Mathlib.Tactic.Common
import Mathlib.Tactic.Ring

/-! # Little-endian byte encodings

Numbers are stored least significant byte first. Encoders reduce modulo the
width of the field, so the decoder recovers a number exactly up to that width.
-/
namespace ApPa.LittleEndian

def leByte (v k : ℕ) : UInt8 := UInt8.ofNat (v / 256 ^ k)

def le16 (v : ℕ) : List UInt8 := [leByte v 0, leByte v 1]
def le32 (v : ℕ) : List UInt8 := [leByte v 0, leByte v 1, leByte v 2, leByte v 3]

def leNat : List UInt8 → ℕ
  | [] => 0
  | b :: bs => b.toNat + 256 * leNat bs

@[simp] theorem leByte_toNat (v k : ℕ) : (leByte v k).toNat = v / 256 ^ k % 256 := by
  simp [leByte]

@[simp] theorem le16_length (v : ℕ) : (le16 v).length = 2 := rfl
@[simp] theorem le32_length (v : ℕ) : (le32 v).length = 4 := rfl

@[simp] theorem leNat_le16 (v : ℕ) : leNat (le16 v) = v % 2 ^ 16 := by
  simp only [le16, leNat, leByte_toNat, pow_zero, Nat.div_one, pow_one]
  omega

@[simp] theorem leNat_le32 (v : ℕ) : leNat (le32 v) = v % 2 ^ 32 := by
  simp only [le32, leNat, leByte_toNat]
  norm_num
  omega

theorem leNat_lt (bs : List UInt8) : leNat bs < 256 ^ bs.length := by
  induction bs with
  | nil => simp [leNat]
  | cons b bs ih =>
    have hb := b.toNat_lt
    simp only [leNat, List.length_cons, pow_succ]
    omega

end ApPa.LittleEndian
