import Mathlib.Data.List.GetD
import Mathlib.Data.UInt

/-! # Disks behind a data port

Two drives share one set of registers. A command opens a transfer of blocks of 256 words, one for each
sector from the address in the registers on, and every access to the data port moves one word of it.
What the drive shows in its status register is up to the drive, but a data request is shown only while a
transfer is open.
-/
namespace ApPa.PioDisk

def sectorWords : ℕ := 256

@[ext] structure Sector where
  words : List UInt16
  length_eq : words.length = sectorWords
  deriving DecidableEq

inductive Drive where
  | master
  | slave
  deriving DecidableEq, Repr

inductive Direction where
  | read
  | write
  deriving DecidableEq, Repr

/-- The blocks that are left, the first of them for `sector`, and the words of it that have been moved. -/
structure Transfer where
  dir : Direction
  drive : Drive
  sector : ℕ
  left : ℕ
  moved : List UInt16
  deriving DecidableEq

abbrev Disks := Drive → ℕ → Sector

/-- `clock` counts the readings of the status register. -/
structure Bus where
  driveHead : UInt8
  seccount : UInt8
  lbaLo : UInt8
  lbaMid : UInt8
  lbaHi : UInt8
  disk : Disks
  transfer : Option Transfer
  clock : ℕ

def request (dir : Direction) (drive : Drive) (sector left : ℕ) : Option Transfer :=
  if left = 0 then none else some ⟨dir,drive,sector,left,[]⟩

def blocks (count : UInt8) : ℕ := if count = 0 then 256 else count.toNat

def store (disk : Disks) (drive : Drive) (sector : ℕ) (s : Sector) : Disks :=
  Function.update disk drive (Function.update (disk drive) sector s)

namespace Bus

def drive (b : Bus) : Drive := if b.driveHead &&& 0x10 = 0 then .master else .slave

def lba (b : Bus) : ℕ :=
  b.lbaLo.toNat + b.lbaMid.toNat * 2 ^ 8 + b.lbaHi.toNat * 2 ^ 16 + (b.driveHead &&& 0x0F).toNat * 2 ^ 24

/-- A command to read or to write sectors, which counts only with the bit of the LBA mode set. -/
def start (b : Bus) (dir : Direction) : Bus :=
  if b.driveHead &&& 0x40 = 0 then b else { b with transfer := request dir b.drive b.lba (blocks b.seccount) }

/-- A reading of the status register, in which `drq` is the bit of the data request. -/
def status (lines : ℕ → UInt8) (drq : UInt8) (b : Bus) : UInt8 × Bus :=
  (if b.transfer.isSome then lines b.clock else lines b.clock &&& ~~~drq, { b with clock := b.clock + 1 })

def advance (b : Bus) (t : Transfer) (w : UInt16) : Bus :=
  if h : (t.moved ++ [w]).length = sectorWords then
    { b with
      disk := match t.dir with
        | .read => b.disk
        | .write => store b.disk t.drive t.sector ⟨t.moved ++ [w],h⟩
      transfer := request t.dir t.drive (t.sector + 1) (t.left - 1) }
  else { b with transfer := some { t with moved := t.moved ++ [w] } }

def wordIn (b : Bus) : UInt16 × Bus :=
  match b.transfer with
  | none => (0xFFFF, b)
  | some t =>
    match t.dir with
    | .read =>
      let w := (b.disk t.drive t.sector).words.getD t.moved.length 0
      (w, b.advance t w)
    | .write => (0xFFFF, b)

def wordOut (b : Bus) (w : UInt16) : Bus :=
  match b.transfer with
  | none => b
  | some t =>
    match t.dir with
    | .read => b
    | .write => b.advance t w

def wordsIn : ℕ → Bus → List UInt16 × Bus
  | 0, b => ([], b)
  | n + 1, b =>
    let (w, b) := b.wordIn
    let (ws, b) := wordsIn n b
    (w :: ws, b)

def wordsOut (b : Bus) (ws : List UInt16) : Bus := ws.foldl wordOut b

end Bus

section
variable {b : Bus} {drive : Drive} {sector left : ℕ}

theorem request_isSome {dir : Direction} : (request dir drive sector left).isSome ↔ 0 < left := by
  unfold request
  split
  · rename_i h
    exact iff_of_false Bool.false_ne_true (by omega)
  · rename_i h
    exact iff_of_true rfl (Nat.pos_of_ne_zero h)

theorem request_eq_none {dir : Direction} : request dir drive sector left = none ↔ left = 0 := by
  rw [← Option.not_isSome_iff_eq_none, request_isSome, Nat.pos_iff_ne_zero, not_not]

def text (disk : ℕ → Sector) (a n : ℕ) : List UInt16 := (List.range n).flatMap fun i => (disk (a + i)).words

theorem text_succ (disk : ℕ → Sector) (a n : ℕ) : text disk a (n + 1) = text disk a n ++ (disk (a + n)).words := by
  rw [text, List.range_succ, List.flatMap_append, List.flatMap_singleton, text]

theorem length_text (disk : ℕ → Sector) (a n : ℕ) : (text disk a n).length = n * sectorWords := by
  induction n with
  | zero => rw [Nat.zero_mul]; rfl
  | succ n ih => rw [text_succ, List.length_append, ih, (disk (a + n)).length_eq, Nat.succ_mul]

def stored (disk : Disks) (drive : Drive) (a n : ℕ) (new : ℕ → Sector) : Disks := fun d x =>
  if d = drive ∧ a ≤ x ∧ x < a + n then new (x - a) else disk d x

theorem stored_zero (disk : Disks) (a : ℕ) (new : ℕ → Sector) : stored disk drive a 0 new = disk := by
  funext d x
  exact if_neg fun h => by omega

theorem store_stored (disk : Disks) (a n : ℕ) (new : ℕ → Sector) :
    store (stored disk drive a n new) drive (a + n) (new n) = stored disk drive a (n + 1) new := by
  funext d x
  unfold store
  by_cases hd : d = drive
  · subst hd
    rw [Function.update_self]
    by_cases hx : x = a + n
    · subst hx
      rw [Function.update_self, stored, if_pos ⟨rfl,by omega,by omega⟩, Nat.add_sub_cancel_left]
    · have hiff : a ≤ x ∧ x < a + n ↔ a ≤ x ∧ x < a + (n + 1) := by omega
      rw [Function.update_of_ne hx]
      simp only [stored, hiff]
  · rw [Function.update_of_ne hd]
    simp only [stored, hd, false_and]

theorem wordsIn_rest {l l' : List UInt16} (hne : l' ≠ []) (ht : b.transfer = some ⟨.read,drive,sector,left,l⟩)
    (hwords : (b.disk drive sector).words = l ++ l') :
    b.wordsIn l'.length = (l', { b with transfer := request .read drive (sector + 1) (left - 1) }) := by
  have hlen := (b.disk drive sector).length_eq
  induction l' generalizing b l with
  | nil => exact absurd rfl hne
  | cons w l' ih =>
    rw [hwords, List.length_append, List.length_cons] at hlen
    have hin : b.wordIn = (w, b.advance ⟨.read,drive,sector,left,l⟩ w) := by
      simp only [Bus.wordIn, ht, hwords, List.getD_append_right _ _ _ _ (Nat.le_refl _), Nat.sub_self, List.getD_cons_zero]
    rw [List.length_cons, Bus.wordsIn, hin]
    cases l' with
    | nil =>
      have hfull : (l ++ [w]).length = sectorWords := by
        rw [List.length_append]
        exact hlen
      simp only [Bus.advance, dif_pos hfull]
      rfl
    | cons w' l' =>
      have hmore : (l ++ [w]).length ≠ sectorWords := by
        rw [List.length_append, List.length_singleton]
        rw [List.length_cons] at hlen
        omega
      simp only [Bus.advance, dif_neg hmore]
      rw [ih (b := { b with transfer := some ⟨.read,drive,sector,left,l ++ [w]⟩ }) (l := l ++ [w]) (List.cons_ne_nil _ _) rfl
        (by rw [hwords, List.append_assoc]; rfl) (b.disk drive sector).length_eq]

theorem wordsIn_request (h : b.transfer = request .read drive sector (left + 1)) :
    b.wordsIn sectorWords = ((b.disk drive sector).words, { b with transfer := request .read drive (sector + 1) left }) := by
  have hlen := (b.disk drive sector).length_eq
  have hne : (b.disk drive sector).words ≠ [] := fun hnil => by
    rw [hnil] at hlen
    exact absurd hlen (by decide)
  rw [← hlen]
  exact wordsIn_rest hne h rfl

theorem wordsOut_rest {l l' : List UInt16} (hne : l' ≠ []) (ht : b.transfer = some ⟨.write,drive,sector,left,l⟩)
    (hlen : (l ++ l').length = sectorWords) :
    b.wordsOut l' = { b with disk := store b.disk drive sector ⟨l ++ l',hlen⟩,
                             transfer := request .write drive (sector + 1) (left - 1) } := by
  induction l' generalizing b l with
  | nil => exact absurd rfl hne
  | cons w l' ih =>
    have hout : b.wordOut w = b.advance ⟨.write,drive,sector,left,l⟩ w := by
      simp only [Bus.wordOut, ht]
    rw [Bus.wordsOut, List.foldl_cons, hout, ← Bus.wordsOut]
    cases l' with
    | nil =>
      simp only [Bus.advance, dif_pos hlen]
      rfl
    | cons w' l' =>
      have hmore : (l ++ [w]).length ≠ sectorWords := by
        rw [List.length_append, List.length_cons, List.length_cons] at hlen
        rw [List.length_append, List.length_singleton]
        omega
      have hsplit : (l ++ [w]) ++ w' :: l' = l ++ w :: w' :: l' := List.append_assoc l [w] (w' :: l')
      simp only [Bus.advance, dif_neg hmore]
      rw [ih (b := { b with transfer := some ⟨.write,drive,sector,left,l ++ [w]⟩ }) (l := l ++ [w]) (List.cons_ne_nil _ _) rfl
        (hsplit ▸ hlen)]
      simp only [hsplit]

theorem wordsOut_request (h : b.transfer = request .write drive sector (left + 1)) (s : Sector) :
    b.wordsOut s.words = { b with disk := store b.disk drive sector s,
                                  transfer := request .write drive (sector + 1) left } := by
  have hne : s.words ≠ [] := fun hnil => by
    have hlen := s.length_eq
    rw [hnil] at hlen
    exact absurd hlen (by decide)
  exact wordsOut_rest hne h s.length_eq

end

end ApPa.PioDisk
