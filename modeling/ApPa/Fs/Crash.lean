import ApPa.Fs.Allocation
import ApPa.Fs.Faults

/-! # Crashes

A crash leaves the device with one of the contents it has gone through. Formatting is not
safe against one; the operations on a mounted file system are.
-/
namespace ApPa.Fs
open Klibc

/-! ## Formatting that is cut off -/

variable {total : UInt32}

section format
variable (total)

/-- The contents formatting goes through, one write after the other. -/
def formatStages (c : ℕ → Block) : List (ℕ → Block) :=
  [c,
    Function.update c 0 (freshSuperblock total).encode,
    Function.update (Function.update c 0 (freshSuperblock total).encode) 1 Block.zero,
    Function.update (Function.update (Function.update c 0 (freshSuperblock total).encode) 1 Block.zero) 2 Block.zero]

/-- A mount of the contents finds an empty file system with all its data blocks free. -/
def MountsEmpty (c : ℕ → Block) : Prop :=
  ∀ superblock blockBuf, ∃ s, fsInit (disk total .none) ⟨Disk.new c,superblock,blockBuf⟩ = (0, s) ∧
    ((diskReliable total).volume s).nodes = NameMap.empty ∧ s.superblock.freeBlocks.toNat = total.toNat - 3

end format

theorem lt_total (h3 : 3 ≤ total.toNat) (b : UInt32) (hb : b.toNat < 3) : b < total :=
  UInt32.lt_iff_toNat_lt.mpr (lt_of_lt_of_le hb h3)

/-- Formatting goes through its stages until a write fails, and through all of them if none does. -/
theorem seen_fsFormat (h3 : 3 ≤ total.toNat) (write : ℕ → Bool) (s : FsState Disk) (hs : s.disk.history = []) :
    (fsFormat (disk total ⟨fun _ => false,write⟩) s).2.disk.seen.reverse <+: formatStages total s.disk.blocks ∧
      ((∀ i, write i = false) →
        (fsFormat (disk total ⟨fun _ => false,write⟩) s).2.disk.seen.reverse = formatStages total s.disk.blocks) := by
  have hseen : s.disk.seen = [s.disk.blocks] := by rw [Disk.seen, hs, List.map_nil]
  have hfails : ∀ {i} {p : Prop}, write i = true → (∀ i, write i = false) → p :=
    fun hw hnone => absurd (hw.symm.trans (hnone _)) (by decide)
  have h0 := lt_total h3 0 (by decide)
  have h1 := lt_total h3 1 (by decide)
  have h2 := lt_total h3 (1 + 1) (by decide)
  unfold fsFormat fsFlushSuperblock formatStages
  rw [show (disk total ⟨fun _ => false,write⟩).totalBlocks = total from rfl]
  dsimp only
  generalize hsb : freshSuperblock total = sb
  have hdir : sb.dirStartBlock = 1 := by rw [← hsb, freshSuperblock]
  cases hw0 : write s.disk.writes with
  | true =>
    rw [writeBlock_refused hw0]
    dsimp only
    rw [Disk.seen_refused, hseen]
    exact ⟨⟨_,rfl⟩,hfails hw0⟩
  | false =>
    rw [writeBlock_put h0 hw0]
    dsimp only
    rw [hdir]
    cases hw1 : write (s.disk.writes + 1) with
    | true =>
      rw [writeBlock_refused hw1]
      dsimp only
      rw [Disk.seen_refused, Disk.seen_put, hseen]
      exact ⟨⟨_,rfl⟩,hfails hw1⟩
    | false =>
      rw [writeBlock_put h1 hw1]
      dsimp only
      rw [hdir]
      cases hw2 : write (s.disk.writes + 1 + 1) with
      | true =>
        rw [writeBlock_refused hw2]
        dsimp only
        rw [Disk.seen_refused, Disk.seen_put, Disk.seen_put, hseen]
        exact ⟨⟨_,rfl⟩,hfails hw2⟩
      | false =>
        rw [writeBlock_put h2 hw2]
        dsimp only
        rw [Disk.seen_put, Disk.seen_put, Disk.seen_put, hseen]
        exact ⟨List.prefix_rfl,fun _ => rfl⟩

section init
variable {c : ℕ → Block} (hu : (Superblock.decode (c 0)).magic ≠ fsMagic) (superblock : Superblock) (blockBuf : Block)
include hu

theorem fsInit_formats (h3 : 3 ≤ total.toNat) (write : ℕ → Bool) :
    fsInit (disk total ⟨fun _ => false,write⟩) ⟨Disk.new c,superblock,blockBuf⟩ =
      fsFormat (disk total ⟨fun _ => false,write⟩) ⟨(Disk.new c).after 1,Superblock.decode (c 0),blockBuf⟩ := by
  have hrd : (disk total ⟨fun _ => false,write⟩).read 0 (Disk.new c) = (some (c 0), (Disk.new c).after 1) :=
    if_pos ⟨lt_total h3 0 (by decide),rfl⟩
  unfold fsInit
  rw [hrd]
  exact if_pos hu

theorem seen_fsInit (h3 : 3 ≤ total.toNat) (write : ℕ → Bool) :
    (fsInit (disk total ⟨fun _ => false,write⟩) ⟨Disk.new c,superblock,blockBuf⟩).2.disk.seen.reverse <+:
      formatStages total c := by
  rw [fsInit_formats hu superblock blockBuf h3]
  exact (seen_fsFormat h3 write _ rfl).1

theorem seen_fsInit_all (h3 : 3 ≤ total.toNat) :
    (fsInit (disk total .none) ⟨Disk.new c,superblock,blockBuf⟩).2.disk.seen.reverse = formatStages total c := by
  rw [Faults.none, fsInit_formats hu superblock blockBuf h3]
  exact (seen_fsFormat h3 _ _ rfl).2 fun _ => rfl

end init

/-- A mount that finds the magic number takes the directory as it is. -/
theorem mountsEmpty_iff {c : ℕ → Block} (hf : Formatted total (Superblock.decode (c 0)))
    (hfree : (Superblock.decode (c 0)).freeBlocks.toNat = total.toNat - 3) :
    MountsEmpty total c ↔ ∀ i < 32, ((volumeOn c).entry i).type = fsTypeFree := by
  have hmount : ∀ superblock blockBuf, ∃ s, fsInit (disk total .none) ⟨Disk.new c,superblock,blockBuf⟩ = (0, s) ∧
      (diskReliable total).volume s = volumeOn c :=
    fun superblock blockBuf => (diskReliable total).fsInit_mount ⟨Disk.new c,superblock,blockBuf⟩ hf
  rw [← Volume.nodes_eq_empty_iff]
  constructor
  · intro h
    obtain ⟨s,he,hv⟩ := hmount (freshSuperblock 0) Block.zero
    obtain ⟨s',he',hn,_⟩ := h (freshSuperblock 0) Block.zero
    rw [he] at he'
    cases he'
    rw [← hv]
    exact hn
  · intro h superblock blockBuf
    obtain ⟨s,he,hv⟩ := hmount superblock blockBuf
    refine ⟨s,he,by rw [hv, h],?_⟩
    rw [show s.superblock = Superblock.decode (c 0) from congrArg Volume.superblock hv]
    exact hfree

theorem mountsEmpty_fresh (h3 : 3 ≤ total.toNat) {c : ℕ → Block} (h0 : c 0 = (freshSuperblock total).encode) :
    MountsEmpty total c ↔ ∀ i < 32, ((volumeOn c).entry i).type = fsTypeFree := by
  apply mountsEmpty_iff
  · rw [h0, Superblock.decode_encode]
    exact formatted_fresh h3
  · rw [h0, Superblock.decode_encode]
    exact freshSuperblock_free h3

theorem mountsEmpty_unformatted (h3 : 3 ≤ total.toNat) {c : ℕ → Block}
    (hu : (Superblock.decode (c 0)).magic ≠ fsMagic) : MountsEmpty total c := by
  intro superblock blockBuf
  obtain ⟨s,he,hc,hz⟩ := (diskReliable total).fsInit_unformatted ⟨Disk.new c,superblock,blockBuf⟩ h3 hu
  refine ⟨s,he,Volume.nodes_eq_empty_iff.mpr fun i hi => by rw [hz i hi]; rfl,?_⟩
  have hfree := hc.free
  rw [Finset.sum_eq_zero fun i hi => by rw [hz i (Finset.mem_range.mp hi), FsEntry.zero_blockCount]] at hfree
  exact hfree

/-- The next mount repairs a format cut off after `k` writes exactly when the directory
blocks not yet cleared, once the magic number is on the disk, hold no entries. -/
theorem fsInit_repairs_iff (h3 : 3 ≤ total.toNat) {c : ℕ → Block} (hu : (Superblock.decode (c 0)).magic ≠ fsMagic)
    (write : ℕ → Bool) (superblock : Superblock) (blockBuf : Block) {k : ℕ} {c' : ℕ → Block}
    (hk : (fsInit (disk total ⟨fun _ => false,write⟩) ⟨Disk.new c,superblock,blockBuf⟩).2.disk.seen.reverse[k]? = some c') :
    MountsEmpty total c' ↔ ∀ i < 32, k = 1 ∨ k = 2 ∧ 16 ≤ i → ((volumeOn c).entry i).type = fsTypeFree := by
  have hstage : (formatStages total c)[k]? = some c' := by
    obtain ⟨rest,hrest⟩ := seen_fsInit hu superblock blockBuf h3 write
    rw [← hrest, List.getElem?_append_left (List.getElem?_eq_some_iff.mp hk).1]
    exact hk
  have hentry : ∀ {d : ℕ → Block} {i : ℕ}, d (1 + i / 16) = c (1 + i / 16) →
      (volumeOn d).entry i = (volumeOn c).entry i := by
    intro d i h
    exact congrArg (fun b : Block => b.entry i) h
  have hzero : ∀ {d : ℕ → Block} {i : ℕ}, d (1 + i / 16) = Block.zero → ((volumeOn d).entry i).type = fsTypeFree := by
    intro d i h
    rw [Volume.entry, show (volumeOn d).blocks = d from rfl, h, Block.entry_zero]
    rfl
  have hcases : k = 0 ∨ k = 1 ∨ k = 2 ∨ k = 3 := by
    have hlt : k < 4 := (List.getElem?_eq_some_iff.mp hstage).1
    omega
  -- nothing written, the superblock, and the two directory sectors
  rcases hcases with rfl | rfl | rfl | rfl
  · cases hstage
    refine ⟨fun _ i _ h => ?_,fun _ => mountsEmpty_unformatted h3 hu⟩
    rcases h with h | ⟨h,_⟩ <;> exact absurd h (by decide)
  · cases hstage
    rw [mountsEmpty_fresh h3 (Function.update_self _ _ _)]
    refine forall₂_congr fun i hi => ?_
    rw [hentry (Function.update_of_ne (by omega) _ _)]
    exact ⟨fun h _ => h,fun h => h (Or.inl rfl)⟩
  · cases hstage
    rw [mountsEmpty_fresh h3 (by rw [Function.update_of_ne (by decide), Function.update_self])]
    refine forall₂_congr fun i hi => ?_
    by_cases h16 : 16 ≤ i
    · rw [hentry (by rw [Function.update_of_ne (by omega), Function.update_of_ne (by omega)])]
      exact ⟨fun h _ => h,fun h => h (Or.inr ⟨rfl,h16⟩)⟩
    · refine ⟨fun _ h => ?_,fun _ => hzero ?_⟩
      · rcases h with h | ⟨_,h⟩
        · exact absurd h (by decide)
        · exact absurd h h16
      · rw [show 1 + i / 16 = 1 by omega, Function.update_self]
  · cases hstage
    rw [mountsEmpty_fresh h3 (by
      rw [Function.update_of_ne (by decide), Function.update_of_ne (by decide), Function.update_self])]
    refine ⟨fun _ i _ h => ?_,fun _ i hi => hzero ?_⟩
    · rcases h with h | ⟨h,_⟩ <;> exact absurd h (by decide)
    · by_cases h16 : 16 ≤ i
      · rw [show 1 + i / 16 = 2 by omega, Function.update_self]
      · rw [show 1 + i / 16 = 1 by omega, Function.update_of_ne (by decide), Function.update_self]

/-- A blank disk of eight blocks whose format is cut off after the superblock. -/
theorem fsInit_repairs_blank :
    MountsEmpty 8 (Function.update (fun _ => Block.zero) 0 (freshSuperblock 8).encode) ↔
      ∀ i < 32, 1 = 1 ∨ 1 = 2 ∧ 16 ≤ i → ((volumeOn fun _ => Block.zero).entry i).type = fsTypeFree :=
  fsInit_repairs_iff (by decide) (blank_unformatted 8) (fun _ => false) (freshSuperblock 0) Block.zero
    (congrArg (·[1]?) (seen_fsInit_all (blank_unformatted 8) (freshSuperblock 0) Block.zero (by decide)))

/-- A disk without the magic number whose first directory sector holds an old entry. -/
def staleDisk : ℕ → Block := Function.update (fun _ => Block.zero) 1 (Block.zero.setEntry 0 (newEntry [0x61] fsTypeFile))

/-- Cut off after the superblock, the format leaves the old entry in the new file system. -/
theorem fsInit_keeps_stale_entry : (Superblock.decode (staleDisk 0)).magic ≠ fsMagic ∧
    ∃ c', (fsInit (disk 8 .none) ⟨Disk.new staleDisk,freshSuperblock 0,Block.zero⟩).2.disk.seen.reverse[1]? = some c' ∧
      ¬MountsEmpty 8 c' := by
  have hu : (Superblock.decode (staleDisk 0)).magic ≠ fsMagic := blank_unformatted 8
  refine ⟨hu,_,congrArg (·[1]?) (seen_fsInit_all hu (freshSuperblock 0) Block.zero (by decide)),fun h => ?_⟩
  have hfree := (mountsEmpty_fresh (show 3 ≤ (8 : UInt32).toNat by decide) (Function.update_self _ _ _)).mp h 0 (by decide)
  change ((Block.zero.setEntry 0 (newEntry [0x61] fsTypeFile)).entry 0).type = fsTypeFree at hfree
  rw [Block.entry_setEntry_self] at hfree
  cases hfree

/-! ## Single calls that are cut off -/

/-- The contents mount as a sound file system that holds the map `m`. -/
def MountsAs (total : UInt32) (c : ℕ → Block) (m : NameMap) : Prop :=
  ∀ superblock blockBuf, ∃ s, fsInit (disk total .none) ⟨Disk.new c,superblock,blockBuf⟩ = (0, s) ∧
    Sound total s.volume ∧ s.volume.nodes = m

theorem Sound.mountsAs {v : Volume} (hv : Sound total v) : MountsAs total v.blocks v.nodes := by
  intro superblock blockBuf
  obtain ⟨s,he,hs⟩ := (diskReliable total).fsInit_mount ⟨Disk.new v.blocks,superblock,blockBuf⟩ hv.mountable
  have hvol : s.volume = volumeOn v.blocks := hs
  refine ⟨s,he,?_,?_⟩
  · rw [hvol]
    exact ⟨hv.mountable,hv.mountable,hv.dir⟩
  · rw [hvol]
    exact Volume.nodes_congr hv.dir (fun _ _ => rfl) fun _ _ _ _ => rfl

/-- Contents that differ from a volume in unused blocks only mount as the same map. -/
theorem Sound.mountsAs_of_agree {v : Volume} (hv : Sound total v) {c : ℕ → Block} (hlow : ∀ b < 3, c b = v.blocks b)
    (hdata : ∀ i < 32, ∀ b, (v.entry i).covers b → c (3 + b) = v.blocks (3 + b)) : MountsAs total c v.nodes := by
  have hent : ∀ i < 32, (⟨c,v.superblock⟩ : Volume).entry i = v.entry i := fun i hi =>
    congrArg (fun blk : Block => blk.entry i) (hlow (1 + i / 16) (by omega))
  have hw : Sound total ⟨c,v.superblock⟩ := ⟨hv.formatted,by
    change Formatted total (Superblock.decode (c 0))
    rw [hlow 0 (by decide)]
    exact hv.mountable,hv.dir.congr hent⟩
  rw [← Volume.nodes_congr hv.dir hent hdata]
  exact hw.mountsAs

theorem Sound.setEntry {v : Volume} (hv : Sound total v) {i : ℕ} {e : FsEntry}
    (hd : DirOk (total.toNat - 3) (v.setEntry i e).entry) : Sound total (v.setEntry i e) where
  formatted := hv.formatted
  mountable := by
    rw [v.setEntry_blocks_zero]
    exact hv.mountable
  dir := hd

theorem Sound.setRange {v : Volume} (hv : Sound total v) {base : ℕ} (hb : 3 ≤ base) (n : ℕ) (f : ℕ → Block) :
    Sound total (v.setRange base n f) where
  formatted := hv.formatted
  mountable := by
    rw [show (v.setRange base n f).blocks 0 = v.blocks 0 from if_neg (by omega)]
    exact hv.mountable
  dir := hv.dir.congr fun _ hi => v.setRange_entry f hb hi

theorem Sound.flush {v : Volume} (hv : Sound total v) (fb : UInt32) : Sound total (v.flush fb) := by
  have hf : Formatted total (v.flush fb).superblock :=
    ⟨hv.formatted.magic,hv.formatted.total_eq,hv.formatted.dirStart,hv.formatted.dataStart,hv.formatted.three_le⟩
  refine ⟨hf,?_,hv.dir.congr fun i _ => v.flush_entry fb i⟩
  have h0 : (v.flush fb).blocks 0 = (v.flush fb).superblock.encode := by simp [Volume.flush, Volume.setBlock]
  rw [h0, Superblock.decode_encode]
  exact hf

/-- After a cut the mount finds the map before the call or one the call may lead to. -/
def Settles (total : UInt32) (m : NameMap) (call : Call) (c : ℕ → Block) : Prop :=
  MountsAs total c m ∨ ∃ reply m', MapSpec m call reply m' ∧ MountsAs total c m'

/-- The calls that change one entry: creations, writes and deletions of files. -/
inductive Single (m : NameMap) : Call → Prop
  | create (name : List UInt8) (type : UInt8) : Single m (.create name type)
  | write (name data : List UInt8) (fits : data.length < 2 ^ 24) : Single m (.write name data fits)
  | delete {name bytes : List UInt8} (hfile : m.find (cstr name) = some (.file bytes)) : Single m (.delete name)

section calls
variable (refuse : ℕ → Bool) (s : FsState Disk)

theorem fsWriteEntry_seen (hf : Formatted total s.superblock) {i : ℕ} (hi : i < 32) (e : FsEntry) :
    ∃ ok s', fsWriteEntry (disk total ⟨fun _ => false,refuse⟩) i e s = (ok, s') ∧ s'.superblock = s.superblock ∧
      (ok = false → s'.disk.seen = s.disk.seen) ∧
      (ok = true → s'.volume = s.volume.setEntry i e ∧ s'.disk.seen = (s.volume.setEntry i e).blocks :: s.disk.seen) := by
  obtain ⟨ok,s',he,hsb,_,hput,hsame⟩ := fsWriteEntry_disk (fun _ => false) refuse s hf hi e
  refine ⟨ok,s',he,hsb,fun h => ?_,fun h => ⟨?_,?_⟩⟩
  · rw [Disk.seen, (hsame h).1, (hsame h).2]
    rfl
  · rw [FsState.volume, hput h, hsb]
    rfl
  · rw [hput h, Disk.seen_put, Disk.seen_after]
    rfl

theorem fsFlushSuperblock_seen (faults : Faults) (fb : UInt32) :
    ∃ ok s', fsFlushSuperblock (disk total faults) { s with superblock := { s.superblock with freeBlocks := fb } } =
        (ok, s') ∧
      (s'.disk.seen = s.disk.seen ∨ s'.disk.seen = (s.volume.flush fb).blocks :: s.disk.seen) := by
  rcases writeBlock_disk total faults 0 ({ s.superblock with freeBlocks := fb } : Superblock).encode
    { s with superblock := { s.superblock with freeBlocks := fb } } with h | ⟨_,h⟩
  · exact ⟨_,_,h,Or.inr rfl⟩
  · exact ⟨_,_,h,Or.inl rfl⟩

variable {refuse s}

theorem fsWriteBlocks_seen (faults : Faults) {start : UInt32} {n i : ℕ} {src : List UInt8} {remaining : UInt32}
    (hf : Formatted total s.superblock) (hroom : 3 + start.toNat + i + n < 2 ^ 32) {c : ℕ → Block}
    (hc : c ∈ (fsWriteBlocks (disk total faults) start n i src remaining s).2.disk.seen) : c ∈ s.disk.seen ∨
      ∀ b, b < 3 + start.toNat + i ∨ 3 + start.toNat + i + n ≤ b → c b = s.disk.blocks b := by
  induction n generalizing i src remaining s with
  | zero => exact Or.inl hc
  | succ n ih =>
    obtain ⟨s1,hsb1,⟨blk,src',remaining',hd1,he⟩ | ⟨_,hd1,he⟩⟩ :=
      fsWriteBlocks_turn total faults start n i src remaining s
    · rw [he] at hc
      rw [dataBlock_toNat hf start (by omega)] at hd1
      have hput : ∀ b, b ≠ 3 + start.toNat + i → s1.disk.blocks b = s.disk.blocks b := by
        intro b hb
        rw [hd1]
        exact Function.update_of_ne hb _ _
      rcases ih (by rw [hsb1]; exact hf) (by omega) hc with hmem | hagree
      · rw [hd1, Disk.seen_put, List.mem_cons] at hmem
        rcases hmem with rfl | hmem
        · exact Or.inr fun b hb => Function.update_of_ne (by omega) _ _
        · exact Or.inl hmem
      · exact Or.inr fun b hb => (hagree b (by omega)).trans (hput b (by omega))
    · rw [he] at hc
      rw [hd1] at hc
      exact Or.inl hc

theorem Sound.flush_seen {w : Volume} (hw : Sound total w) {faults : Faults} (hs : s.volume = w)
    {fb : UInt32} {c : ℕ → Block}
    (hc : c ∈ (fsFlushSuperblock (disk total faults)
      { s with superblock := { s.superblock with freeBlocks := fb } }).2.disk.seen) :
    c ∈ s.disk.seen ∨ MountsAs total c w.nodes := by
  obtain ⟨ok,s',he,hseen⟩ := fsFlushSuperblock_seen s faults fb
  rw [he] at hc
  dsimp only at hc
  rcases hseen with hseen | hseen
  · rw [hseen] at hc
    exact Or.inl hc
  · rw [hseen, hs, List.mem_cons] at hc
    rcases hc with rfl | hc
    · rw [← Volume.flush_nodes hw.dir fb]
      exact Or.inr (hw.flush fb).mountsAs
    · exact Or.inl hc

/-- A call that ends with a flush of the free count: the write of the entry is the one that counts. -/
theorem Sound.flush_settles {w : Volume} (hw : Sound total w) {m : NameMap} {call : Call} {reply : Reply}
    (hspec : MapSpec m call reply w.nodes) {faults : Faults} (hs : s.volume = w) {before : List (ℕ → Block)}
    (hseen : s.disk.seen = w.blocks :: before) (hbefore : ∀ c ∈ before, MountsAs total c m) {fb : UInt32} {c : ℕ → Block}
    (hc : c ∈ (fsFlushSuperblock (disk total faults)
      { s with superblock := { s.superblock with freeBlocks := fb } }).2.disk.seen) : Settles total m call c := by
  rcases hw.flush_seen hs hc with hc | hc
  · rw [hseen, List.mem_cons] at hc
    rcases hc with rfl | hc
    · exact Or.inr ⟨_,_,hspec,hw.mountsAs⟩
    · exact Or.inl (hbefore c hc)
  · exact Or.inr ⟨_,_,hspec,hc⟩

variable {v : Volume} (hv : Sound total v) (blockBuf : Block)
include hv

theorem Sound.quiet_seen {s' : FsState Disk} (hq : Quiet (mounted v blockBuf) s') {c : ℕ → Block}
    (hc : c ∈ s'.disk.seen) : MountsAs total c v.nodes := by
  rw [hq.seen] at hc
  obtain rfl : c = v.blocks := List.mem_singleton.mp hc
  exact hv.mountsAs

theorem fsCreate_atomic (name : List UInt8) (type : UInt8) {c : ℕ → Block}
    (hc : c ∈ (fsCreate (disk total ⟨fun _ => false,refuse⟩) name type (mounted v blockBuf)).2.disk.seen) :
    Settles total v.nodes (.create name type) c := by
  unfold fsCreate at hc
  by_cases hlen : strlen name = 0 ∨ strlen name > fsNameMax
  · rw [if_pos hlen] at hc
    exact Or.inl (hv.quiet_seen blockBuf (Quiet.refl _) hc)
  rw [if_neg hlen] at hc
  by_cases htype : type ≠ fsTypeFile ∧ type ≠ fsTypeDir
  · rw [if_pos htype] at hc
    exact Or.inl (hv.quiet_seen blockBuf (Quiet.refl _) hc)
  rw [if_neg htype] at hc
  obtain ⟨s1,hsb1,⟨i,_,he,hd,_⟩ | ⟨he,hd,hno⟩⟩ :=
    fsFindEntry_disk (fun _ => false) refuse (mounted v blockBuf) hv.formatted name
  · rw [he] at hc
    exact Or.inl (hv.quiet_seen blockBuf ⟨hsb1,_,hd⟩ hc)
  rw [he] at hc
  dsimp only at hc
  have hq1 : Quiet (mounted v blockBuf) s1 := ⟨hsb1,_,hd⟩
  have hf1 : Formatted total s1.superblock := by rw [hsb1]; exact hv.formatted
  obtain ⟨slot,s2,he2,hq2⟩ := fsFindFreeSlot_quiet (fun _ => false) refuse s1 hf1
  have hq := hq1.trans hq2
  obtain ⟨s2',_,⟨i,hi,hslot,hfree⟩ | ⟨hslot,_⟩⟩ := (diskAtomic total refuse).fsFindFreeSlot_spec s1 hf1
  · rw [he2] at hslot
    cases hslot
    rw [he2] at hc
    dsimp only at hc
    rw [if_neg (by simp only [fsMaxEntries, fsDirBlocks, fsEntriesPerBlock]; omega)] at hc
    have hvol : s2.volume = v := hq.volume
    have hfree' : (v.entry slot).type = fsTypeFree := by
      have h1 : s1.volume = v := hq1.volume
      rw [← h1]
      exact hfree
    have hcr : Creatable v name type := by
      rw [strlen_eq, fsNameMax] at hlen
      exact ⟨by omega,by omega,by by_contra hcon; exact htype (not_or.mp hcon),fun j hj => hno j hj rfl⟩
    obtain ⟨ok,s3,he3,_,hrefused,hput⟩ := fsWriteEntry_seen refuse s2
      (by rw [hq.superblock]; exact hv.formatted) hi (newEntry name type)
    rw [he3] at hc
    cases ok with
    | false =>
      rw [hrefused rfl] at hc
      exact Or.inl (hv.quiet_seen blockBuf hq hc)
    | true =>
      rw [(hput rfl).2, hvol, List.mem_cons] at hc
      rcases hc with rfl | hc
      · have haccept := (Volume.accepts_iff hv.dir name type).mpr ⟨hcr,slot,hi,hfree'⟩
        refine Or.inr ⟨_,_,Or.inl ⟨haccept,rfl,rfl⟩,?_⟩
        rw [← Volume.setEntry_nodes hv.dir hcr hi hfree']
        exact (hv.setEntry (hv.dir.create hcr slot)).mountsAs
      · exact Or.inl (hv.quiet_seen blockBuf hq hc)
  · rw [he2] at hslot
    cases hslot
    rw [he2] at hc
    exact Or.inl (hv.quiet_seen blockBuf hq hc)

theorem fsDelete_atomic (name : List UInt8) {bytes : List UInt8} (hfind : v.nodes.find (cstr name) = some (.file bytes))
    {c : ℕ → Block}
    (hc : c ∈ (fsDelete (disk total ⟨fun _ => false,refuse⟩) name (mounted v blockBuf)).2.disk.seen) :
    Settles total v.nodes (.delete name) c := by
  unfold fsDelete at hc
  obtain ⟨s1,hsb1,⟨i,hi,he,hd,_,hl,ht⟩ | ⟨he,hd,_⟩⟩ :=
    fsFindEntry_disk (fun _ => false) refuse (mounted v blockBuf) hv.formatted name
  swap
  · rw [he] at hc
    exact Or.inl (hv.quiet_seen blockBuf ⟨hsb1,_,hd⟩ hc)
  rw [mounted_volume] at he hl ht
  rw [he] at hc
  have hq1 : Quiet (mounted v blockBuf) s1 := ⟨hsb1,_,hd⟩
  have hnode := (Volume.find_eq_some hv.dir).mpr ⟨i,hi,hl,ht,rfl⟩
  have htype : (v.entry i).type ≠ fsTypeDir := by
    intro hdir
    rw [hfind, Volume.node, if_neg (by rw [hdir]; decide)] at hnode
    cases hnode
  dsimp only at hc
  rw [if_neg htype] at hc
  obtain ⟨ok,s3,he3,hsb3,hrefused,hput⟩ := fsWriteEntry_seen refuse s1
    (by rw [hsb1]; exact hv.formatted) hi FsEntry.zero
  dsimp only at hc
  rw [he3] at hc
  cases ok with
  | false =>
    rw [hrefused rfl] at hc
    exact Or.inl (hv.quiet_seen blockBuf hq1 hc)
  | true =>
    have hvol : s1.volume = v := hq1.volume
    obtain ⟨hvol3,hseen3⟩ := hput rfl
    rw [hvol] at hvol3 hseen3
    have hw : Sound total (v.setEntry i FsEntry.zero) := by
      refine hv.setEntry ((hv.dir.clear (fun j => j = i)).congr fun j _ => ?_)
      rw [Volume.entry_setEntry]
      simp only [eq_comm]
    have hspec : MapSpec v.nodes (.delete name) (.status 0) (v.setEntry i FsEntry.zero).nodes := by
      rw [MapSpec, hfind]
      refine ⟨rfl,?_⟩
      rw [Volume.clearEntry_nodes hv.dir hi hl, ht]
      simp
    exact hw.flush_settles hspec hvol3 hseen3 (fun c hc => hv.quiet_seen blockBuf hq1 hc) hc

/-- A cut inside the data loop shows the old file system: no entry covers the new blocks. -/
theorem Sound.writeBlocks_seen (faults : Faults) (hq : Quiet (mounted v blockBuf) s) {start : UInt32} {n : ℕ}
    (hrun : FreeRun total v start.toNat n) (data : List UInt8) (size : UInt32) (c : ℕ → Block)
    (hc : c ∈ (fsWriteBlocks (disk total faults) start n 0 data size s).2.disk.seen) : MountsAs total c v.nodes := by
  have hf : Formatted total s.superblock := by rw [hq.superblock]; exact hv.formatted
  have hroom := hrun.room
  have hlim := extentLimit_le total
  rcases fsWriteBlocks_seen faults hf (by omega) hc with hc | hagree
  · exact hv.quiet_seen blockBuf hq hc
  · have hblocks : s.disk.blocks = v.blocks := congrArg Volume.blocks hq.volume
    rw [hblocks] at hagree
    refine hv.mountsAs_of_agree (fun b hb => hagree b (by omega)) fun j hj b hcov => hagree _ ?_
    by_contra hin
    have hun := hrun.unused (b - start.toNat) (by omega) j hj
    rw [Nat.add_sub_cancel' (by omega)] at hun
    exact hun hcov

theorem Sound.storeFile_spec {name data : List UInt8} (fits : data.length < 2 ^ 24) {size : UInt32}
    (hlen : size.toNat = data.length) {i : ℕ} (hi : i < 32) (hl : (v.entry i).live) (ht : (v.entry i).title = cstr name)
    (hfile : (v.entry i).type = fsTypeFile) {start : UInt32} (hrun : FreeRun total v start.toNat (blocksFor size).toNat) :
    Sound total (v.storeFile i start data size) ∧
      MapSpec v.nodes (.write name data fits) (.status 0) (v.storeFile i start data size).nodes := by
  have hlim := extentLimit_le total
  have hnodes := Volume.storeFile_nodes hi hrun hv.dir hlim.2 hfile hlen (by omega)
  rw [ht] at hnodes
  have hold : v.nodes.find (cstr name) = some (.file (v.contents (v.entry i))) :=
    (Volume.find_eq_some hv.dir).mpr ⟨i,hi,hl,ht,by rw [Volume.node, if_pos hfile]⟩
  exact ⟨(hv.setRange (by omega) _ _).setEntry (hv.dir.storeFile hlim.2 hi hfile data (by omega) hrun),
    Or.inl ⟨⟨_,hold⟩,rfl,hnodes⟩⟩

theorem fsWriteFile_atomic (name data : List UInt8) (fits : data.length < 2 ^ 24) {c : ℕ → Block}
    (hc : c ∈ (fsWriteFile (disk total ⟨fun _ => false,refuse⟩) name data (UInt32.ofNat data.length)
      (mounted v blockBuf)).2.disk.seen) :
    Settles total v.nodes (.write name data fits) c := by
  have hlen : (UInt32.ofNat data.length).toNat = data.length := by
    rw [UInt32.toNat_ofNat']
    omega
  generalize UInt32.ofNat data.length = size at hc hlen
  unfold fsWriteFile at hc
  obtain ⟨s1,hsb1,⟨i,hi,he,hd,_,hl,ht⟩ | ⟨he,hd,_⟩⟩ :=
    fsFindEntry_disk (fun _ => false) refuse (mounted v blockBuf) hv.formatted name
  swap
  · rw [he] at hc
    exact Or.inl (hv.quiet_seen blockBuf ⟨hsb1,_,hd⟩ hc)
  rw [mounted_volume] at he hl ht
  rw [he] at hc
  have hq1 : Quiet (mounted v blockBuf) s1 := ⟨hsb1,_,hd⟩
  have hvol1 : s1.volume = v := hq1.volume
  dsimp only at hc
  by_cases htype : (v.entry i).type ≠ fsTypeFile
  · rw [if_pos htype] at hc
    exact Or.inl (hv.quiet_seen blockBuf hq1 hc)
  rw [if_neg htype] at hc
  have hfile : (v.entry i).type = fsTypeFile := not_not.mp htype
  have hf1 : Formatted total s1.superblock := by rw [hsb1]; exact hv.formatted
  obtain ⟨start,s2,he2,hq2,_⟩ := writeAlloc_quiet (fun _ => false) refuse s1 hf1 (blocksFor size)
  have hq := hq1.trans hq2
  have hvol2 : s2.volume = v := hq.volume
  obtain ⟨start',s2',he2',_,hres⟩ := (diskAtomic total refuse).writeAlloc_spec s1 hf1
    (by change SmallEntries s1.volume; rw [hvol1]; exact hv.smallEntries) (blocksFor size)
  rw [he2] at he2'
  cases he2'
  rw [he2] at hc
  dsimp only at hc
  rcases hres with ⟨hsp,_⟩ | ⟨hok,hfirst⟩
  · rw [if_pos hsp] at hc
    exact Or.inl (hv.quiet_seen blockBuf hq hc)
  rw [if_neg hok] at hc
  change RunSearch.FirstRun s1.volume.unused (blocksFor size).toNat (extentLimit total) start.toNat at hfirst
  rw [hvol1] at hfirst
  have hrun := FreeRun.of_first hfirst
  have hroom := hrun.room
  have hlim := extentLimit_le total
  have h3 := hv.formatted.three_le
  have hf2 : Formatted total s2.superblock := by rw [hq.superblock]; exact hv.formatted
  have hloop := hv.writeBlocks_seen blockBuf ⟨fun _ => false,refuse⟩ hq hrun data size
  obtain ⟨ok,s3,he3,_,hsb3,hstore⟩ := (diskAtomic total refuse).fsWriteBlocks_spec start (blocksFor size).toNat 0 data
    size s2 hf2 hlen (by rw [blocksFor_toNat _ (by omega), hlen]) (by change _ ≤ total.toNat; omega)
  rw [he3] at hc hloop
  cases ok with
  | false => exact Or.inl (hloop c hc)
  | true =>
    have hvol3 : s3.volume = v.setRange (3 + start.toNat) (blocksFor size).toNat
        (fun k => Block.ofBytes ((data.drop (512 * k)).take 512)) := by
      have h := hstore rfl
      rw [Nat.add_zero] at h
      exact h.trans (congrArg (fun w : Volume => w.setRange _ _ _) hvol2)
    have hf3 : Formatted total s3.superblock := by rw [hsb3]; exact hf2
    dsimp only at hc
    obtain ⟨ok,s4,he4,hsb4,hrefused,hput⟩ := fsWriteEntry_seen refuse s3 hf3 hi
      { v.entry i with startBlock := start.toUInt16, size }
    rw [he4] at hc
    cases ok with
    | false =>
      rw [hrefused rfl] at hc
      exact Or.inl (hloop c hc)
    | true =>
      obtain ⟨hvol4,hseen4⟩ := hput rfl
      rw [hvol3] at hvol4 hseen4
      obtain ⟨hw,hspec⟩ := hv.storeFile_spec fits hlen hi hl ht hfile hrun
      obtain ⟨used,s5,he5,hq5⟩ := fsCountUsed_quiet (fun _ => false) refuse s4 (by rw [hsb4]; exact hf3)
      dsimp only at hc
      rw [he5] at hc
      exact hw.flush_settles hspec (hq5.volume.trans hvol4) (hq5.seen.trans hseen4) hloop hc

/-- Whichever writes are refused and wherever the call is cut off, the next mount finds the
call not done or done, and nothing else changed. -/
theorem exec_atomic {call : Call} (hcall : Single v.nodes call) {c : ℕ → Block}
    (hc : c ∈ (exec (disk total ⟨fun _ => false,refuse⟩) call (mounted v blockBuf)).2.disk.seen) :
    Settles total v.nodes call c := by
  cases hcall with
  | create name type => exact fsCreate_atomic hv blockBuf name type hc
  | write name data fits => exact fsWriteFile_atomic hv blockBuf name data fits hc
  | delete hfile => exact fsDelete_atomic hv blockBuf _ hfile hc

end calls

/-- The deletion of a file of two blocks on a disk of sixteen, whose second write is refused. -/
theorem exec_atomic_stored : ∃ v, Sound 16 v ∧ v.nodes.find [0x61] = some (.file (List.replicate 600 7)) ∧
    Settles 16 v.nodes (.delete [0x61])
      (exec (disk 16 ⟨fun _ => false,fun k => k == 1⟩) (.delete [0x61]) (mounted v Block.zero)).2.disk.blocks := by
  have hcstr : cstr [0x61] = [0x61] := by decide
  have hlength : (List.replicate 600 (7 : UInt8)).length = 600 := List.length_replicate
  have hpos : 0 < (List.replicate 600 (7 : UInt8)).length := by omega
  have hroom : ((List.replicate 600 (7 : UInt8)).length + 511) / 512 ≤ UInt32.toNat 16 - 3 := by
    rw [hlength]
    decide
  obtain ⟨s,-,hc,hz⟩ := (diskReliable 16).fsInit_unformatted
    ⟨Disk.new fun _ => Block.zero,freshSuperblock 0,Block.zero⟩ (by decide) (blank_unformatted 16)
  obtain ⟨s₁,s₂,-,-,hc₂,hfind⟩ := (diskReliable 16).store_on_empty hc (Reliable.nodes_eq_empty hz) (by decide)
    (show 1 ≤ (cstr [0x61]).length by decide) (by decide) hpos (hlength.trans_lt (by decide)) hroom
  exact ⟨_,hc₂.sound,hcstr ▸ hfind,exec_atomic hc₂.sound Block.zero (.delete hfind) List.mem_cons_self⟩

end ApPa.Fs
