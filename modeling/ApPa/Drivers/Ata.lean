import ApPa.Lib.Loop
import ApPa.Lib.PioDisk
import ApPa.Lib.PortIo
import Mathlib.Data.List.Range

/-! # The ATA driver

`ata.c` polls the status register before every block and moves it through the data port. The number of
blocks it moves is taken from the count it was called with, the one the drive presents from the register
that the count was written to, and for a count of 0 these are 255 and 256.
-/
namespace ApPa.Drivers
open Loop PioDisk PortIo

def ataPrimaryData : UInt16 := 0x1F0
def ataPrimarySeccount : UInt16 := 0x1F2
def ataPrimaryLbaLo : UInt16 := 0x1F3
def ataPrimaryLbaMid : UInt16 := 0x1F4
def ataPrimaryLbaHi : UInt16 := 0x1F5
def ataPrimaryDriveHead : UInt16 := 0x1F6
def ataPrimaryStatus : UInt16 := 0x1F7
def ataPrimaryAltStatus : UInt16 := 0x3F6

def ataCmdReadSectors : UInt8 := 0x20
def ataCmdWriteSectors : UInt8 := 0x30
def ataCmdCacheFlush : UInt8 := 0xE7

def ataSrBsy : UInt8 := 0x80
def ataSrDf : UInt8 := 0x20
def ataSrDrq : UInt8 := 0x08
def ataSrErr : UInt8 := 0x01

def ataDriveMaster : UInt8 := 0xE0
def ataDriveSlave : UInt8 := 0xF0

/-! ## The ports -/

/-- A byte on one of the registers of the channel. -/
def registerOut (b : Bus) (port : UInt16) (data : UInt8) : Bus :=
  if port = ataPrimaryDriveHead then { b with driveHead := data }
  else if port = ataPrimarySeccount then { b with seccount := data }
  else if port = ataPrimaryLbaLo then { b with lbaLo := data }
  else if port = ataPrimaryLbaMid then { b with lbaMid := data }
  else if port = ataPrimaryLbaHi then { b with lbaHi := data }
  else if port = ataPrimaryStatus then
    if data = ataCmdReadSectors then b.start .read
    else if data = ataCmdWriteSectors then b.start .write
    else b -- the commands without data
  else b

/-- Only the status can be read; `lines` are its bits as the drive shows them over time. -/
def registerIn (lines : ℕ → UInt8) (b : Bus) (port : UInt16) : UInt8 × Bus :=
  if port = ataPrimaryStatus ∨ port = ataPrimaryAltStatus then b.status lines ataSrDrq else (0xFF, b)

instance : Device Bus (ℕ → UInt8) := ⟨registerOut,registerIn⟩

def portWordsIn (b : Bus) (port : UInt16) (count : ℕ) : List UInt16 × Bus :=
  if port = ataPrimaryData then b.wordsIn count else (List.replicate count 0xFFFF, b)

def portWordsOut (b : Bus) (port : UInt16) (buf : List UInt16) : Bus :=
  if port = ataPrimaryData then b.wordsOut buf else b

section
variable (lines : ℕ → UInt8)

/-! ## Polling -/

def ata400nsDelay (b : Bus) : Bus :=
  let b := (portByteIn lines b ataPrimaryAltStatus).2
  let b := (portByteIn lines b ataPrimaryAltStatus).2
  let b := (portByteIn lines b ataPrimaryAltStatus).2
  (portByteIn lines b ataPrimaryAltStatus).2

def ataWaitReady (fuel : ℕ) (b : Bus) : Option Bus :=
  loop (fun b =>
    let (status, b) := portByteIn lines b ataPrimaryStatus
    if status &&& ataSrBsy ≠ 0 then .inl b else .inr b) fuel b

/-- 0 once the drive requests data, and -1 on an error. -/
def ataPoll (fuel : ℕ) (b : Bus) : Option (ℤ × Bus) := do
  let b ← ataWaitReady lines fuel (ata400nsDelay lines b)
  let (status, b) := portByteIn lines b ataPrimaryStatus
  if status &&& ataSrErr ≠ 0 then some (-1, b)
  else if status &&& ataSrDf ≠ 0 then some (-1, b)
  else if status &&& ataSrDrq = 0 then
    loop (fun b =>
      let (status, b) := portByteIn lines b ataPrimaryStatus
      if status &&& ataSrErr ≠ 0 then .inr (-1, b)
      else if status &&& ataSrDf ≠ 0 then .inr (-1, b)
      else if status &&& ataSrDrq ≠ 0 then .inr (0, b)
      else .inl b) fuel b
  else some (0, b)

/-! ## Transfers -/

/-- The registers and the command, as both transfers write them. -/
def ataCommand (b : Bus) (driveSelect : UInt8) (lba : UInt32) (count cmd : UInt8) : Bus :=
  let b := portByteOut b ataPrimaryDriveHead (driveSelect.toUInt32 ||| ((lba >>> 24) &&& 0x0F)).toUInt8
  let b := portByteOut b ataPrimarySeccount count
  let b := portByteOut b ataPrimaryLbaLo (lba &&& 0xFF).toUInt8
  let b := portByteOut b ataPrimaryLbaMid ((lba >>> 8) &&& 0xFF).toUInt8
  let b := portByteOut b ataPrimaryLbaHi ((lba >>> 16) &&& 0xFF).toUInt8
  portByteOut b ataPrimaryStatus cmd

/-- `ata_drive_info_t`, as far as the transfers read it. -/
structure AtaDriveInfo where
  present : UInt8

def sectors (count : UInt8) : UInt8 := if count = 0 then 255 else count

/-- The loop of a transfer with `n` turns to go: a poll, and then what `turn` does with one sector. -/
def transferLoop {α : Type} (turn : α → Bus → α × Bus) (fuel : ℕ) : ℕ → α → Bus → Option (ℤ × α × Bus)
  | 0, acc, b => some (0, acc, b)
  | n + 1, acc, b => do
    let (ret, b) ← ataPoll lines fuel b
    if ret ≠ 0 then some (-1, acc, b)
    else
      let (acc, b) := turn acc b
      transferLoop turn fuel n acc b

/-- A turn of a read, when `words` has been stored in the buffer. -/
def readTurn (words : List UInt16) (b : Bus) : List UInt16 × Bus :=
  let (block, b) := portWordsIn b ataPrimaryData 256
  (words ++ block, b)

/-- The result, the words that are stored in the buffer and the bus. -/
def ataReadSectorsInternal (fuel : ℕ) (driveSelect : UInt8) (info : AtaDriveInfo) (lba : UInt32) (count : UInt8) (b : Bus) :
    Option (ℤ × List UInt16 × Bus) :=
  if info.present = 0 then some (-1, [], b)
  else do
    let b ← ataWaitReady lines fuel b
    transferLoop lines readTurn fuel (sectors count).toNat [] (ataCommand b driveSelect lba count ataCmdReadSectors)

/-- A turn of a write, when `wbuf` has come to word `off` of the buffer. -/
def writeTurn (buf : ℕ → UInt16) (off : ℕ) (b : Bus) : ℕ × Bus :=
  (off + 256, portWordsOut b ataPrimaryData ((List.range 256).map fun j => buf (off + j)))

def ataWriteSectorsInternal (fuel : ℕ) (driveSelect : UInt8) (info : AtaDriveInfo) (lba : UInt32) (count : UInt8)
    (buf : ℕ → UInt16) (b : Bus) : Option (ℤ × Bus) :=
  if info.present = 0 then some (-1, b)
  else do
    let b ← ataWaitReady lines fuel b
    let (ret, _, b) ← transferLoop lines (writeTurn buf) fuel (sectors count).toNat 0
      (ataCommand b driveSelect lba count ataCmdWriteSectors)
    if ret ≠ 0 then some (ret, b)
    else
      let b ← ataWaitReady lines fuel (portByteOut b ataPrimaryStatus ataCmdCacheFlush)
      some (0, b)

/-- `drive_info` and `slave_info`. -/
structure AtaInfo where
  driveInfo : AtaDriveInfo
  slaveInfo : AtaDriveInfo

def AtaInfo.of (info : AtaInfo) : Drive → AtaDriveInfo
  | .master => info.driveInfo
  | .slave => info.slaveInfo

def ataReadSectors (fuel : ℕ) (info : AtaInfo) := ataReadSectorsInternal lines fuel ataDriveMaster info.driveInfo
def ataWriteSectors (fuel : ℕ) (info : AtaInfo) := ataWriteSectorsInternal lines fuel ataDriveMaster info.driveInfo
def ataSlaveReadSectors (fuel : ℕ) (info : AtaInfo) := ataReadSectorsInternal lines fuel ataDriveSlave info.slaveInfo
def ataSlaveWriteSectors (fuel : ℕ) (info : AtaInfo) := ataWriteSectorsInternal lines fuel ataDriveSlave info.slaveInfo

def readCall : Drive → ℕ → AtaInfo → UInt32 → UInt8 → Bus → Option (ℤ × List UInt16 × Bus)
  | .master => ataReadSectors lines
  | .slave => ataSlaveReadSectors lines

def writeCall : Drive → ℕ → AtaInfo → UInt32 → UInt8 → (ℕ → UInt16) → Bus → Option (ℤ × Bus)
  | .master => ataWriteSectors lines
  | .slave => ataSlaveWriteSectors lines

end

/-! ## What the polls find -/

/-- Nothing but time has passed. -/
def Later (b b' : Bus) : Prop := ∃ c, b' = { b with clock := c }

theorem Later.refl (b : Bus) : Later b b := ⟨b.clock,rfl⟩

theorem Later.trans {b b' b'' : Bus} (h : Later b b') (h' : Later b' b'') : Later b b'' := by
  obtain ⟨_,rfl⟩ := h
  obtain ⟨c,rfl⟩ := h'
  exact ⟨c,rfl⟩

theorem Later.transfer {b b' : Bus} (h : Later b b') : b'.transfer = b.transfer := by
  obtain ⟨_,rfl⟩ := h
  rfl

theorem Later.disk {b b' : Bus} (h : Later b b') : b'.disk = b.disk := by
  obtain ⟨_,rfl⟩ := h
  rfl

section
variable {lines : ℕ → UInt8} {fuel : ℕ} {b b' : Bus}

theorem later_portByteIn (lines : ℕ → UInt8) (b : Bus) (port : UInt16) : Later b (portByteIn lines b port).2 := by
  change Later b (registerIn lines b port).2
  unfold registerIn
  split
  · exact ⟨b.clock + 1,rfl⟩
  · exact .refl b

theorem later_delay (b : Bus) : Later b (ata400nsDelay lines b) :=
  (((later_portByteIn lines b _).trans (later_portByteIn lines _ _)).trans (later_portByteIn lines _ _)).trans
    (later_portByteIn lines _ _)

theorem transfer_of_drq (h : (portByteIn lines b ataPrimaryStatus).1 &&& ataSrDrq ≠ 0) : b.transfer.isSome := by
  by_contra hnone
  refine h ?_
  have hmask : ~~~ataSrDrq &&& ataSrDrq = 0 := by decide
  simp only [portByteIn, Device.read, registerIn, true_or, if_true, Bus.status, if_neg hnone, UInt8.and_assoc, hmask, UInt8.and_zero]

theorem later_ataWaitReady (h : ataWaitReady lines fuel b = some b') : Later b b' := by
  refine loop_post (Later b) (Later b) (fun s hs => ?_) (.refl b) h
  have hnext := hs.trans (later_portByteIn lines s ataPrimaryStatus)
  dsimp only
  split
  · exact .inl ⟨_,rfl,hnext⟩
  · exact .inr ⟨_,rfl,hnext⟩

/-- A poll only waits, and it succeeds only with a transfer open. -/
theorem ataPoll_later {ret : ℤ} (h : ataPoll lines fuel b = some (ret, b')) :
    Later b b' ∧ (ret = 0 → b.transfer.isSome) := by
  obtain ⟨b₁,hwait,h⟩ := Option.bind_eq_some_iff.mp h
  have hb₁ := (later_delay b).trans (later_ataWaitReady hwait)
  have hb₂ := hb₁.trans (later_portByteIn lines b₁ ataPrimaryStatus)
  have hopen : ∀ s, Later b s → (portByteIn lines s ataPrimaryStatus).1 &&& ataSrDrq ≠ 0 → b.transfer.isSome :=
    fun s hs hdrq => hs.transfer ▸ transfer_of_drq hdrq
  have hfail : (-1 : ℤ) ≠ 0 := by decide
  dsimp only at h
  split at h
  · cases h
    exact ⟨hb₂,fun h => absurd h hfail⟩
  split at h
  · cases h
    exact ⟨hb₂,fun h => absurd h hfail⟩
  split at h
  · refine loop_post (Later b) (fun r : ℤ × Bus => Later b r.2 ∧ (r.1 = 0 → b.transfer.isSome)) (fun s hs => ?_) hb₂ h
    have hnext := hs.trans (later_portByteIn lines s ataPrimaryStatus)
    split
    · exact .inr ⟨_,rfl,hnext,fun h => absurd h hfail⟩
    split
    · exact .inr ⟨_,rfl,hnext,fun h => absurd h hfail⟩
    split
    · rename_i hdrq
      exact .inr ⟨_,rfl,hnext,fun _ => hopen s hs hdrq⟩
    · exact .inl ⟨_,rfl,hnext⟩
  · rename_i hdrq
    cases h
    exact ⟨hb₂,fun _ => hopen b₁ hb₁ hdrq⟩

end

/-! ## The registers -/

def driveSelect : Drive → UInt8
  | .master => ataDriveMaster
  | .slave => ataDriveSlave

/-- The drive-select bits and the highest four bits of the address share a register. -/
theorem driveHead_bits (drive : Drive) : ∀ k < 16,
    (if (driveSelect drive ||| UInt8.ofNat k) &&& 0x10 = 0 then Drive.master else .slave) = drive ∧
      (driveSelect drive ||| UInt8.ofNat k) &&& 0x40 ≠ 0 ∧
      (driveSelect drive ||| UInt8.ofNat k) &&& 0x0F = UInt8.ofNat k := by
  cases drive <;> decide

theorem toNat_lbaByte (lba k : UInt32) : ((lba >>> k) &&& 0xFF).toUInt8.toNat = lba.toNat / 2 ^ (k.toNat % 32) % 2 ^ 8 := by
  rw [UInt32.toNat_toUInt8, UInt32.toNat_and, UInt32.toNat_shiftRight, show UInt32.toNat 0xFF = 2 ^ 8 - 1 from rfl,
    Nat.and_two_pow_sub_one_eq_mod, Nat.mod_mod, Nat.shiftRight_eq_div_pow]

theorem driveHead_eq (select : UInt8) (lba : UInt32) :
    (select.toUInt32 ||| ((lba >>> 24) &&& 0x0F)).toUInt8 = select ||| UInt8.ofNat (lba.toNat / 2 ^ 24 % 2 ^ 4) := by
  have hhigh : ((lba >>> 24) &&& 0x0F).toUInt8 = UInt8.ofNat (lba.toNat / 2 ^ 24 % 2 ^ 4) := by
    rw [← UInt8.toNat_inj, UInt32.toNat_toUInt8, UInt32.toNat_and, UInt32.toNat_shiftRight,
      show UInt32.toNat 0x0F = 2 ^ 4 - 1 from rfl, Nat.and_two_pow_sub_one_eq_mod, Nat.shiftRight_eq_div_pow,
      UInt8.toNat_ofNat']
    rfl
  rw [UInt32.toUInt8_or, UInt8.toUInt8_toUInt32, hhigh]

def command : Direction → UInt8
  | .read => ataCmdReadSectors
  | .write => ataCmdWriteSectors

/-- The drive is commanded to do what was asked for, at the address that the registers have room for. -/
theorem ataCommand_eq (b : Bus) (drive : Drive) (lba : UInt32) (count : UInt8) (dir : Direction) :
    (ataCommand b (driveSelect drive) lba count (command dir)).transfer =
        request dir drive (lba.toNat % 2 ^ 28) (blocks count) ∧
      (ataCommand b (driveSelect drive) lba count (command dir)).disk = b.disk := by
  let r : Bus :=
    { b with
      driveHead := (driveSelect drive).toUInt32 ||| ((lba >>> 24) &&& 0x0F) |>.toUInt8
      seccount := count
      lbaLo := (lba &&& 0xFF).toUInt8
      lbaMid := ((lba >>> 8) &&& 0xFF).toUInt8
      lbaHi := ((lba >>> 16) &&& 0xFF).toUInt8 }
  have hstart : ataCommand b (driveSelect drive) lba count (command dir) = r.start dir := by cases dir <;> rfl
  have hhead : r.driveHead = driveSelect drive ||| UInt8.ofNat (lba.toNat / 2 ^ 24 % 2 ^ 4) := driveHead_eq _ lba
  obtain ⟨hdrive,hmode,hhigh⟩ := driveHead_bits drive (lba.toNat / 2 ^ 24 % 2 ^ 4) (Nat.mod_lt _ (by decide))
  rw [← hhead] at hdrive hmode hhigh
  have hlow : (lba &&& 0xFF).toUInt8.toNat = lba.toNat / 2 ^ 0 % 2 ^ 8 := toNat_lbaByte lba 0
  have haddress : r.lba = lba.toNat % 2 ^ 28 := by
    have hmid : r.lbaMid.toNat = lba.toNat / 2 ^ 8 % 2 ^ 8 := toNat_lbaByte lba 8
    have hhi : r.lbaHi.toNat = lba.toNat / 2 ^ 16 % 2 ^ 8 := toNat_lbaByte lba 16
    rw [Bus.lba, hhigh, hmid, hhi, show r.lbaLo.toNat = _ from hlow, UInt8.toNat_ofNat']
    omega
  rw [hstart, Bus.start, if_neg hmode, show r.drive = drive from hdrive, haddress]
  exact ⟨rfl,rfl⟩

/-! ## The loops -/

def sectorOf (buf : ℕ → UInt16) (off : ℕ) : Sector :=
  ⟨(List.range 256).map fun j => buf (off + j),by rw [List.length_map, List.length_range]; rfl⟩

section
variable {lines : ℕ → UInt8} {fuel : ℕ} {b b' : Bus} {drive : Drive} {a left : ℕ}

theorem ataPoll_request {dir : Direction} {sector : ℕ} (ht : b.transfer = request dir drive sector left)
    (h : ataPoll lines fuel b = some (0, b')) :
    ∃ m, left = m + 1 ∧ b'.transfer = request dir drive sector (m + 1) ∧ b'.disk = b.disk := by
  obtain ⟨hlater,hopen⟩ := ataPoll_later h
  have hsome := hopen rfl
  rw [ht, request_isSome] at hsome
  obtain ⟨m,rfl⟩ := Nat.exists_eq_succ_of_ne_zero hsome.ne'
  exact ⟨m,rfl,hlater.transfer.trans ht,hlater.disk⟩

theorem readTurn_request (ht : b.transfer = request .read drive a (left + 1)) (words : List UInt16) :
    readTurn words b =
      (words ++ (b.disk drive a).words, { b with transfer := request .read drive (a + 1) left }) := by
  rw [readTurn, portWordsIn, if_pos rfl, show (256 : ℕ) = sectorWords from rfl, wordsIn_request ht]

theorem writeTurn_request (ht : b.transfer = request .write drive a (left + 1)) (buf : ℕ → UInt16) (off : ℕ) :
    writeTurn buf off b = (off + 256, { b with disk := store b.disk drive a (sectorOf buf off),
                                               transfer := request .write drive (a + 1) left }) := by
  have hblock := wordsOut_request ht (sectorOf buf off)
  rw [writeTurn, portWordsOut, if_pos rfl, ← hblock]
  rfl

section
variable {α : Type} {turn : α → Bus → α × Bus} {acc acc' : α} {ret : ℤ}

/-- What holds after `i` sectors, when a poll keeps it and a turn passes it on to `i + 1`. -/
theorem transferLoop_rule {P : ℕ → α → Bus → Prop} (hlater : ∀ i acc b b', P i acc b → Later b b' → P i acc b')
    (hturn : ∀ i acc b b', P i acc b → ataPoll lines fuel b = some (0, b') → P (i + 1) (turn acc b').1 (turn acc b').2)
    {n i : ℕ} (h : P i acc b) (hloop : transferLoop lines turn fuel n acc b = some (ret, acc', b')) :
    ∃ j, P (i + j) acc' b' ∧ (ret = 0 ∧ j = n ∨ ret = -1 ∧ j < n) := by
  induction n generalizing i acc b with
  | zero =>
    cases hloop
    exact ⟨0,h,.inl ⟨rfl,rfl⟩⟩
  | succ n ih =>
    obtain ⟨⟨ret₁,b₁⟩,hpoll,hloop⟩ := Option.bind_eq_some_iff.mp hloop
    dsimp only at hloop
    split at hloop
    · cases hloop
      exact ⟨0,hlater i _ _ _ h (ataPoll_later hpoll).1,.inr ⟨rfl,Nat.succ_pos n⟩⟩
    · rename_i hret
      obtain rfl := not_not.mp hret
      obtain ⟨j,hj,hend⟩ := ih (hturn i _ _ _ h hpoll) hloop
      exact ⟨j + 1,by rwa [← Nat.succ_add_eq_add_succ i j],hend.imp (And.imp_right (congrArg _)) (And.imp_right Nat.succ_lt_succ)⟩

end

end

/-! ## The calls -/

section
variable {lines : ℕ → UInt8} {fuel : ℕ} {info : AtaInfo} {drive : Drive} {lba : UInt32} {count : UInt8} {b b' : Bus} {ret : ℤ}

theorem readCall_internal (lines : ℕ → UInt8) (drive : Drive) (fuel : ℕ) (info : AtaInfo) :
    readCall lines drive fuel info = ataReadSectorsInternal lines fuel (driveSelect drive) (info.of drive) := by
  cases drive <;> rfl

theorem writeCall_internal (lines : ℕ → UInt8) (drive : Drive) (fuel : ℕ) (info : AtaInfo) :
    writeCall lines drive fuel info = ataWriteSectorsInternal lines fuel (driveSelect drive) (info.of drive) := by
  cases drive <;> rfl

theorem sectors_pos (count : UInt8) : 0 < (sectors count).toNat := by
  unfold sectors
  split
  · decide
  · rename_i h
    exact Nat.pos_of_ne_zero fun hzero => h (UInt8.toNat_inj.mp hzero)

/-- A read changes neither drive, and one that succeeds has stored the sectors, for any count. -/
theorem readCall_cases {words : List UInt16} (h : readCall lines drive fuel info lba count b = some (ret, words, b')) :
    b'.disk = b.disk ∧ (ret = -1 ∨ ret = 0 ∧ words = text (b.disk drive) (lba.toNat % 2 ^ 28) (sectors count).toNat ∧
      b'.transfer = request .read drive (lba.toNat % 2 ^ 28 + (sectors count).toNat)
        (blocks count - (sectors count).toNat)) := by
  rw [readCall_internal, ataReadSectorsInternal] at h
  split at h
  · cases h
    exact ⟨rfl,.inl rfl⟩
  obtain ⟨b₁,hwait,h⟩ := Option.bind_eq_some_iff.mp h
  obtain ⟨htransfer,hdisk⟩ := ataCommand_eq b₁ drive lba count .read
  have hloop := transferLoop_rule (P := fun i words s => s.disk = b.disk ∧
      words = text (b.disk drive) (lba.toNat % 2 ^ 28) i ∧
      s.transfer = request .read drive (lba.toNat % 2 ^ 28 + i) (blocks count - i))
    (fun i _ _ _ hs hlater => ⟨hlater.disk.trans hs.1,hs.2.1,hlater.transfer.trans hs.2.2⟩) (fun i words s s' hs hpoll => ?_)
    (i := 0) ⟨hdisk.trans (later_ataWaitReady hwait).disk,rfl,htransfer⟩ h
  · obtain ⟨j,⟨hdisk,hwords,htransfer⟩,⟨rfl,rfl⟩ | ⟨rfl,-⟩⟩ := hloop
    · rw [Nat.zero_add] at hwords htransfer
      exact ⟨hdisk,.inr ⟨rfl,hwords,htransfer⟩⟩
    · exact ⟨hdisk,.inl rfl⟩
  · obtain ⟨hdisk,rfl,ht⟩ := hs
    obtain ⟨m,hm,ht',hdisk'⟩ := ataPoll_request ht hpoll
    rw [readTurn_request ht', hdisk', hdisk, ← text_succ]
    exact ⟨rfl,rfl,by rw [Nat.sub_add_eq, hm]; rfl⟩

/-- A write stores the sectors one after the other, and all of them if it succeeds, for any count. -/
theorem writeCall_cases {buf : ℕ → UInt16} (h : writeCall lines drive fuel info lba count buf b = some (ret, b')) :
    ∃ j, b'.disk = stored b.disk drive (lba.toNat % 2 ^ 28) j (fun k => sectorOf buf (256 * k)) ∧
      (ret = 0 ∧ j = (sectors count).toNat ∨ ret = -1 ∧ j < (sectors count).toNat) := by
  rw [writeCall_internal, ataWriteSectorsInternal] at h
  split at h
  · cases h
    exact ⟨0,(stored_zero b.disk _ _).symm,.inr ⟨rfl,sectors_pos count⟩⟩
  obtain ⟨b₁,hwait,h⟩ := Option.bind_eq_some_iff.mp h
  obtain ⟨htransfer,hdisk⟩ := ataCommand_eq b₁ drive lba count .write
  obtain ⟨⟨ret₁,off,b₂⟩,hrun,h⟩ := Option.bind_eq_some_iff.mp h
  have hloop := transferLoop_rule (P := fun i off s => off = 256 * i ∧
      s.disk = stored b.disk drive (lba.toNat % 2 ^ 28) i (fun k => sectorOf buf (256 * k)) ∧
      s.transfer = request .write drive (lba.toNat % 2 ^ 28 + i) (blocks count - i))
    (fun i _ _ _ hs hlater => ⟨hs.1,hlater.disk.trans hs.2.1,hlater.transfer.trans hs.2.2⟩) (fun i off s s' hs hpoll => ?_)
    (i := 0) ⟨rfl,(hdisk.trans (later_ataWaitReady hwait).disk).trans (stored_zero b.disk _ _).symm,htransfer⟩ hrun
  · obtain ⟨j,⟨-,hstored,-⟩,hend⟩ := hloop
    rw [Nat.zero_add] at hstored
    dsimp only at h
    split at h
    · rename_i hret
      cases h
      exact ⟨j,hstored,hend⟩
    · rename_i hret
      obtain rfl := not_not.mp hret
      obtain ⟨b₃,hflush,h⟩ := Option.bind_eq_some_iff.mp h
      cases h
      exact ⟨j,(later_ataWaitReady hflush).disk.trans hstored,hend⟩
  · obtain ⟨rfl,hdisk,ht⟩ := hs
    obtain ⟨m,hm,ht',hdisk'⟩ := ataPoll_request ht hpoll
    rw [writeTurn_request ht', hdisk', hdisk, store_stored _ _ i fun k => sectorOf buf (256 * k)]
    exact ⟨rfl,rfl,by rw [Nat.sub_add_eq, hm]; rfl⟩

end

theorem flatMap_sectorOf (buf : ℕ → UInt16) (n : ℕ) :
    ((List.range n).flatMap fun i => (sectorOf buf (256 * i)).words) = (List.range (n * 256)).map buf := by
  induction n with
  | zero => rfl
  | succ n ih =>
    rw [List.range_succ, List.flatMap_append, List.flatMap_singleton, ih, Nat.add_mul n 1, List.range_add, List.map_append,
      List.map_map, Nat.mul_comm 256 n]
    rfl

theorem sectors_eq_blocks {count : UInt8} (h : count ≠ 0) : (sectors count).toNat = blocks count := by
  rw [sectors, blocks, if_neg h, if_neg h]

theorem sectors_le_blocks (count : UInt8) : (sectors count).toNat ≤ blocks count := by
  rcases eq_or_ne count 0 with rfl | h
  · decide
  · rw [sectors_eq_blocks h]

/-! ## A drive that answers -/

/-- No reading of the status shows an error, and a drive that is waited for answers within `fuel` readings. -/
structure Responsive (lines : ℕ → UInt8) (fuel : ℕ) : Prop where
  err : ∀ c, lines c &&& ataSrErr = 0
  df : ∀ c, lines c &&& ataSrDf = 0
  idle : ∀ c, ∃ j < fuel, lines (c + j) &&& ataSrBsy = 0
  asks : ∀ c, ∃ j < fuel, lines (c + j) &&& ataSrDrq ≠ 0

section
variable {lines : ℕ → UInt8} {fuel : ℕ}

theorem portByteIn_and (b : Bus) {mask : UInt8} (hmask : ~~~ataSrDrq &&& mask = mask) :
    (portByteIn lines b ataPrimaryStatus).1 &&& mask = lines b.clock &&& mask := by
  simp only [portByteIn, Device.read, registerIn, true_or, if_true, Bus.status]
  split
  · rfl
  · rw [UInt8.and_assoc, hmask]

theorem Responsive.ataWaitReady (h : Responsive lines fuel) (b : Bus) : ∃ b', ataWaitReady lines fuel b = some b' := by
  obtain ⟨j,hj,hidle⟩ := h.idle b.clock
  unfold Drivers.ataWaitReady
  refine (loop_within (fun b : Bus => b.clock) (fun c => lines c &&& ataSrBsy = 0) (fun _ => True) (fun _ => True)
    (fun s _ => ?_) trivial hidle hj).imp fun _ h => h.1
  dsimp only
  split
  · rename_i hbusy
    refine .inl ⟨_,rfl,trivial,rfl,?_⟩
    rwa [portByteIn_and s (by decide)] at hbusy
  · exact .inr ⟨_,rfl,trivial⟩

theorem Responsive.ataPoll (h : Responsive lines fuel) {b : Bus} (hopen : b.transfer.isSome) :
    ∃ b', ataPoll lines fuel b = some (0, b') := by
  obtain ⟨b₁,hwait⟩ := h.ataWaitReady (ata400nsDelay lines b)
  have hdelay : Later b (ata400nsDelay lines b) := later_delay b
  have hlater := hdelay.trans (later_ataWaitReady hwait)
  have herr : ∀ s : Bus, ¬(portByteIn lines s ataPrimaryStatus).1 &&& ataSrErr ≠ 0 := fun s => by
    rw [portByteIn_and s (by decide), h.err, not_not]
  have hdf : ∀ s : Bus, ¬(portByteIn lines s ataPrimaryStatus).1 &&& ataSrDf ≠ 0 := fun s => by
    rw [portByteIn_and s (by decide), h.df, not_not]
  rw [Drivers.ataPoll, hwait]
  dsimp only [bind, Option.bind_some]
  rw [if_neg (herr b₁), if_neg (hdf b₁)]
  split
  · obtain ⟨j,hj,hasks⟩ := h.asks (portByteIn lines b₁ ataPrimaryStatus).2.clock
    suffices hloop : ∃ r : ℤ × Bus, loop _ fuel (portByteIn lines b₁ ataPrimaryStatus).2 = some r ∧ r.1 = 0 by
      obtain ⟨⟨ret,b'⟩,hb',rfl⟩ := hloop
      exact ⟨b',hb'⟩
    refine loop_within (fun b : Bus => b.clock) (fun c => lines c &&& ataSrDrq ≠ 0)
      (fun s => s.transfer.isSome) (fun r : ℤ × Bus => r.1 = 0) (fun s hs => ?_)
      (show (portByteIn lines b₁ ataPrimaryStatus).2.transfer.isSome from hlater.transfer.symm ▸ hopen) hasks hj
    have hshown : (portByteIn lines s ataPrimaryStatus).1 = lines s.clock := by
      simp only [portByteIn, Device.read, registerIn, true_or, if_true, Bus.status, if_pos hs]
    rw [if_neg (herr s), if_neg (hdf s)]
    split
    · exact .inr ⟨_,rfl,rfl⟩
    · rename_i hnone
      rw [hshown] at hnone
      exact .inl ⟨_,rfl,hs,rfl,hnone⟩
  · exact ⟨_,rfl⟩

variable {drive : Drive} {a left : ℕ} {b : Bus}

theorem Responsive.transferLoop {α : Type} {turn : α → Bus → α × Bus} {dir : Direction} (h : Responsive lines fuel)
    (hturn : ∀ acc b a m, b.transfer = request dir drive a (m + 1) → (turn acc b).2.transfer = request dir drive (a + 1) m)
    {n : ℕ} (hn : n ≤ left) (ht : b.transfer = request dir drive a left) (acc : α) :
    ∃ acc' b', transferLoop lines turn fuel n acc b = some (0, acc', b') := by
  induction n generalizing a left b acc with
  | zero => exact ⟨acc,b,rfl⟩
  | succ n ih =>
    obtain ⟨b₁,hpoll⟩ := h.ataPoll (ht ▸ request_isSome.mpr (Nat.lt_of_lt_of_le (Nat.succ_pos n) hn))
    obtain ⟨m,rfl,ht₁,-⟩ := ataPoll_request ht hpoll
    rw [Drivers.transferLoop, hpoll]
    exact ih (Nat.le_of_succ_le_succ hn) (hturn acc b₁ a m ht₁) _

theorem Responsive.readCall (h : Responsive lines fuel) {info : AtaInfo} (hpresent : (info.of drive).present ≠ 0)
    (lba : UInt32) (count : UInt8) (b : Bus) : ∃ words b', readCall lines drive fuel info lba count b = some (0, words, b') := by
  obtain ⟨b₁,hwait⟩ := h.ataWaitReady b
  rw [readCall_internal, ataReadSectorsInternal, if_neg hpresent, hwait]
  refine h.transferLoop (fun words b a m ht => ?_) (sectors_le_blocks count) (ataCommand_eq b₁ drive lba count .read).1 []
  rw [readTurn_request ht]

theorem Responsive.writeCall (h : Responsive lines fuel) {info : AtaInfo} (hpresent : (info.of drive).present ≠ 0)
    (lba : UInt32) (count : UInt8) (buf : ℕ → UInt16) (b : Bus) :
    ∃ b', writeCall lines drive fuel info lba count buf b = some (0, b') := by
  obtain ⟨b₁,hwait⟩ := h.ataWaitReady b
  obtain ⟨off,b₂,hloop⟩ : ∃ off b₂, Drivers.transferLoop lines (writeTurn buf) fuel (sectors count).toNat 0
      (ataCommand b₁ (driveSelect drive) lba count (command .write)) = some (0, off, b₂) :=
    h.transferLoop (fun off b a m ht => by rw [writeTurn_request ht]) (sectors_le_blocks count)
      (ataCommand_eq b₁ drive lba count .write).1 0
  obtain ⟨b₃,hflush⟩ := h.ataWaitReady (portByteOut b₂ ataPrimaryStatus ataCmdCacheFlush)
  refine ⟨b₃,?_⟩
  rw [writeCall_internal, ataWriteSectorsInternal, if_neg hpresent, hwait]
  change (Drivers.transferLoop _ _ _ _ _ _).bind _ = _
  rw [show ataCmdWriteSectors = command .write from rfl, hloop]
  change (Drivers.ataWaitReady lines fuel _).bind _ = _
  rw [hflush]
  rfl

end

/-- `DRDY` and, with a transfer open, `DRQ`. -/
def readyLines : ℕ → UInt8 := fun _ => 0x48

theorem readyLines_responsive : Responsive readyLines 1 where
  err _ := show 0x48 &&& ataSrErr = 0 by decide
  df _ := show 0x48 &&& ataSrDf = 0 by decide
  idle _ := ⟨0,by decide,show 0x48 &&& ataSrBsy = 0 by decide⟩
  asks _ := ⟨0,by decide,show 0x48 &&& ataSrDrq ≠ 0 by decide⟩

section
variable {lines : ℕ → UInt8} {fuel : ℕ} {info : AtaInfo} {drive : Drive} {lba : UInt32} {count : UInt8} {b b' : Bus}

theorem readCall_eq (hlba : lba.toNat < 2 ^ 28) {words : List UInt16}
    (h : readCall lines drive fuel info lba count b = some (0, words, b')) :
    words = text (b.disk drive) lba.toNat (sectors count).toNat ∧ b'.disk = b.disk ∧
      b'.transfer = request .read drive (lba.toNat + (sectors count).toNat) (blocks count - (sectors count).toNat) := by
  obtain ⟨hdisk,hret | ⟨-,hwords,htransfer⟩⟩ := readCall_cases h
  · exact absurd hret (by decide)
  · rw [Nat.mod_eq_of_lt hlba] at hwords htransfer
    exact ⟨hwords,hdisk,htransfer⟩

theorem writeCall_eq (hlba : lba.toNat < 2 ^ 28) {buf : ℕ → UInt16}
    (h : writeCall lines drive fuel info lba count buf b = some (0, b')) :
    b'.disk = stored b.disk drive lba.toNat (sectors count).toNat fun k => sectorOf buf (256 * k) := by
  obtain ⟨j,hdisk,⟨-,rfl⟩ | ⟨hret,-⟩⟩ := writeCall_cases h
  · rwa [Nat.mod_eq_of_lt hlba] at hdisk
  · exact absurd hret (by decide)

end

def blankBus : Bus := ⟨0,0,0,0,0,fun _ _ => ⟨List.replicate 256 0,List.length_replicate⟩,none,0⟩

/-- For every count but 0 the transfers move what they command: a read returns the sectors that the count stands for and
leaves no data request, and after a write it returns the buffer, with all other sectors of both drives unchanged. For the
count 0 they do not. -/
theorem ata_transfers_iff (lines : ℕ → UInt8) (info : AtaInfo) (drive : Drive) {lba : UInt32} (hlba : lba.toNat < 2 ^ 28)
    (count : UInt8) :
    (∀ fuel b words b', readCall lines drive fuel info lba count b = some (0, words, b') →
      (words = text (b.disk drive) lba.toNat (blocks count) ∧ b'.transfer = none ↔ count ≠ 0)) ∧
    ∀ fuel fuel' b buf b₁ words b₂, writeCall lines drive fuel info lba count buf b = some (0, b₁) →
      readCall lines drive fuel' info lba count b₁ = some (0, words, b₂) →
      (words = (List.range (blocks count * 256)).map buf ∧
        (∀ d x, ¬(d = drive ∧ lba.toNat ≤ x ∧ x < lba.toNat + blocks count) → b₂.disk d x = b.disk d x) ↔ count ≠ 0) := by
  refine ⟨fun fuel b words b' hr => ?_,fun fuel fuel' b buf b₁ words b₂ hw hr => ?_⟩
  · obtain ⟨hwords,-,htransfer⟩ := readCall_eq hlba hr
    constructor
    · rintro ⟨-,hnone⟩ rfl
      rw [htransfer, request_eq_none] at hnone
      exact absurd hnone (by decide)
    · intro hne
      rw [hwords, htransfer, sectors_eq_blocks hne]
      exact ⟨rfl,request_eq_none.mpr (Nat.sub_self _)⟩
  · have hstored := writeCall_eq hlba hw
    obtain ⟨hwords,hdisk,-⟩ := readCall_eq hlba hr
    constructor
    · rintro ⟨hbuf,-⟩ rfl
      have hlen := congrArg List.length (hwords.symm.trans hbuf)
      rw [length_text, List.length_map, List.length_range] at hlen
      exact absurd hlen (by decide)
    · intro hne
      rw [sectors_eq_blocks hne] at hwords hstored
      refine ⟨?_,fun d x hout => ?_⟩
      · rw [hwords, hstored, text, ← flatMap_sectorOf]
        refine List.flatMap_congr fun i hi => ?_
        have hlt := List.mem_range.mp hi
        rw [stored, if_pos ⟨rfl,by omega,by omega⟩, Nat.add_sub_cancel_left]
      · rw [hdisk, hstored, stored, if_neg hout]

theorem ata_transfers_one : ∃ b₁ words b₂,
    ataSlaveWriteSectors readyLines 1 ⟨⟨1⟩,⟨1⟩⟩ 5 1 UInt16.ofNat blankBus = some (0, b₁) ∧
      ataSlaveReadSectors readyLines 1 ⟨⟨1⟩,⟨1⟩⟩ 5 1 b₁ = some (0, words, b₂) ∧ b₂.transfer = none ∧
      words = (List.range 256).map UInt16.ofNat ∧ b₂.disk .master 5 = blankBus.disk .master 5 := by
  have hlba : (5 : UInt32).toNat < 2 ^ 28 := by decide
  have hpresent : (AtaInfo.of ⟨⟨1⟩,⟨1⟩⟩ .slave).present ≠ 0 := by decide
  obtain ⟨b₁,hwrite⟩ := readyLines_responsive.writeCall hpresent 5 1 UInt16.ofNat blankBus
  obtain ⟨words,b₂,hread⟩ := readyLines_responsive.readCall hpresent 5 1 b₁
  obtain ⟨hreads,hwrites⟩ := ata_transfers_iff readyLines ⟨⟨1⟩,⟨1⟩⟩ .slave hlba 1
  obtain ⟨-,hnone⟩ := (hreads 1 b₁ words b₂ hread).mpr (by decide)
  obtain ⟨hwords,hothers⟩ := (hwrites 1 1 blankBus UInt16.ofNat b₁ words b₂ hwrite hread).mpr (by decide)
  exact ⟨b₁,words,b₂,hwrite,hread,hnone,hwords,hothers .master 5 (by decide)⟩

/-- A read with the count 0 returns 255 sectors and leaves a data request for the last one. -/
theorem ata_count_zero : ∃ words b', ataReadSectors readyLines 1 ⟨⟨1⟩,⟨1⟩⟩ 0 0 blankBus = some (0, words, b') ∧
    words.length = 255 * 256 ∧ b'.transfer = some ⟨.read,.master,255,1,[]⟩ := by
  have hlba : (0 : UInt32).toNat < 2 ^ 28 := by decide
  have hpresent : (AtaInfo.of ⟨⟨1⟩,⟨1⟩⟩ .master).present ≠ 0 := by decide
  obtain ⟨words,b',hread⟩ := readyLines_responsive.readCall hpresent 0 0 blankBus
  obtain ⟨hwords,-,htransfer⟩ := readCall_eq hlba hread
  refine ⟨words,b',hread,?_,htransfer⟩
  rw [hwords, length_text]
  rfl

end ApPa.Drivers
