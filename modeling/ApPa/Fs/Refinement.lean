import ApPa.Lib.Machine
import ApPa.Fs.NameMap
import ApPa.Fs.Operations
import Mathlib.Data.List.Nodup
import Mathlib.Data.List.GetD

/-! # SimpleFS refines the map of names

The directory of a consistent volume is read as a map of names. Each operation acts on
that map as the specification says, so whole histories from a fresh mount do.
-/
namespace ApPa.Fs
open Klibc

namespace Volume

def node (v : Volume) (e : FsEntry) : Node :=
  if e.type = fsTypeFile then .file (v.contents e) else .dir

def nodes (v : Volume) : NameMap where
  find name := (List.range 32).findSome? fun i =>
    if (v.entry i).live ∧ (v.entry i).title = name then some (v.node (v.entry i)) else none
  finite := by
    refine ((Finset.range 32).image (fun i => (v.entry i).title)).finite_toSet.subset (fun name hn => ?_)
    obtain ⟨node,hnode⟩ := Option.ne_none_iff_exists'.mp hn
    obtain ⟨i,hi,he⟩ := List.exists_of_findSome?_eq_some hnode
    split at he
    · rename_i h
      exact Finset.mem_coe.mpr (Finset.mem_image.mpr ⟨i,by simpa using hi,h.2⟩)
    · exact absurd he (by simp)

theorem find_eq_none {v : Volume} {name : List UInt8} :
    v.nodes.find name = none ↔ ∀ i < 32, (v.entry i).live → (v.entry i).title ≠ name := by
  simp [nodes, List.findSome?_eq_none_iff]

theorem find_eq_some {v : Volume} {limit : ℕ} (hd : DirOk limit v.entry) {name : List UInt8} {node : Node} :
    v.nodes.find name = some node ↔
      ∃ i < 32, (v.entry i).live ∧ (v.entry i).title = name ∧ v.node (v.entry i) = node := by
  have hfound : ∀ node', v.nodes.find name = some node' →
      ∃ i < 32, (v.entry i).live ∧ (v.entry i).title = name ∧ v.node (v.entry i) = node' := by
    intro node' h
    obtain ⟨i,hi,he⟩ := List.exists_of_findSome?_eq_some h
    split at he
    · rename_i hl
      exact ⟨i,by simpa using hi,hl.1,hl.2,Option.some.inj he⟩
    · exact absurd he (by simp)
  refine ⟨hfound node,?_⟩
  rintro ⟨i,hi,hl,ht,rfl⟩
  cases hc : v.nodes.find name with
  | none => exact absurd ht (find_eq_none.mp hc i hi hl)
  | some node' =>
    obtain ⟨j,hj,hlj,htj,rfl⟩ := hfound node' hc
    rw [hd.distinct j hj i hi hlj hl (htj.trans ht.symm)]

theorem nodes_eq_empty_iff {v : Volume} : v.nodes = NameMap.empty ↔ ∀ i < 32, (v.entry i).type = fsTypeFree := by
  constructor
  · intro h i hi
    by_contra hl
    have hnone := congrArg (fun m => m.find (v.entry i).title) h
    exact find_eq_none.mp hnone i hi hl rfl
  · intro h
    ext1
    funext name
    exact find_eq_none.mpr fun i hi hl => absurd (h i hi) hl

theorem contents_length {v : Volume} {e : FsEntry} (ht : e.type = fsTypeFile) (hs : e.size.toNat < 2 ^ 24) :
    (v.contents e).length = e.size.toNat := by
  rw [contents, List.length_take, data_length, FsEntry.blockCount, if_pos ht, blocksFor_toNat _ hs]
  omega

theorem node_congr {v w : Volume} {e : FsEntry}
    (h : ∀ b, e.covers b → w.blocks (3 + b) = v.blocks (3 + b)) : w.node e = v.node e := by
  unfold node contents
  rw [data_congr (v := w) (w := v) (fun b hb hlt => ?_)]
  obtain ⟨k,rfl⟩ := Nat.exists_eq_add_of_le hb
  rw [Nat.add_assoc]
  exact h _ ⟨by omega,by omega⟩

/-- The map depends on the directory and on the blocks its entries cover. -/
theorem nodes_congr {v w : Volume} {limit : ℕ} (hd : DirOk limit v.entry) (hent : ∀ i < 32, w.entry i = v.entry i)
    (h : ∀ i < 32, ∀ b, (v.entry i).covers b → w.blocks (3 + b) = v.blocks (3 + b)) : w.nodes = v.nodes := by
  ext1
  funext name
  apply Option.ext
  intro node
  rw [find_eq_some (hd.congr hent), find_eq_some hd]
  refine exists_congr fun i => and_congr_right fun hi => ?_
  rw [hent i hi, node_congr (h i hi)]

theorem flush_nodes {v : Volume} {limit : ℕ} (hd : DirOk limit v.entry) (fb : UInt32) : (v.flush fb).nodes = v.nodes :=
  nodes_congr hd (fun i _ => v.flush_entry fb i) fun _ _ _ _ => v.flush_blocks fb (by omega)

theorem describes_node {v : Volume} {limit : ℕ} (hd : DirOk limit v.entry) {i : ℕ} (hi : i < 32)
    (hl : (v.entry i).live) : Describes (v.entry i) (v.entry i).title (v.node (v.entry i)) := by
  unfold node
  by_cases ht : (v.entry i).type = fsTypeFile
  · rw [if_pos ht]
    exact ⟨rfl,ht,(contents_length ht (hd.small i hi)).symm⟩
  · rw [if_neg ht]
    have hdir : (v.entry i).type = fsTypeDir := by
      rcases hd.typed i hi with h | h | h
      · exact absurd h hl
      · exact absurd h ht
      · exact h
    exact ⟨rfl,hdir,by rw [hd.dirEmpty i hi hdir]; rfl⟩

theorem nodes_insert {v w : Volume} {limit : ℕ} (hv : DirOk limit v.entry) (hw : DirOk limit w.entry)
    {i : ℕ} (hi : i < 32) {e : FsEntry} (hent : ∀ j < 32, w.entry j = if i = j then e else v.entry j)
    (hl : e.live) (hslot : (v.entry i).live → (v.entry i).title = e.title)
    (hnode : ∀ j < 32, i ≠ j → w.node (v.entry j) = v.node (v.entry j)) :
    w.nodes = v.nodes.insert e.title (w.node e) := by
  have hei : w.entry i = e := by rw [hent i hi, if_pos rfl]
  ext1
  funext name
  by_cases hname : name = e.title
  · subst hname
    rw [NameMap.find_insert_self, find_eq_some hw]
    exact ⟨i,hi,by rw [hei]; exact hl,by rw [hei],by rw [hei]⟩
  · rw [NameMap.find_insert_of_ne _ _ hname]
    apply Option.ext
    intro node
    rw [find_eq_some hw, find_eq_some hv]
    constructor
    · rintro ⟨j,hj,hlj,htj,rfl⟩
      by_cases hij : i = j
      · subst hij
        rw [hei] at htj
        exact absurd htj.symm hname
      · rw [hent j hj, if_neg hij] at hlj htj ⊢
        exact ⟨j,hj,hlj,htj,(hnode j hj hij).symm⟩
    · rintro ⟨j,hj,hlj,htj,rfl⟩
      have hij : i ≠ j := by
        rintro rfl
        exact hname (htj.symm.trans (hslot hlj))
      refine ⟨j,hj,?_⟩
      rw [hent j hj, if_neg hij]
      exact ⟨hlj,htj,hnode j hj hij⟩

theorem setEntry_nodes {v : Volume} {limit : ℕ} (hd : DirOk limit v.entry) {name : List UInt8} {type : UInt8}
    (hcr : Creatable v name type) {i : ℕ} (hi : i < 32) (hfree : (v.entry i).type = fsTypeFree) :
    (v.setEntry i (newEntry name type)).nodes = v.nodes.insert (cstr name) (Node.ofType type) := by
  have hlive : (newEntry name type).live := by
    change type ≠ fsTypeFree
    rcases hcr.type_ok with rfl | rfl <;> decide
  rw [nodes_insert hd (hd.create hcr i) hi (fun j _ => v.entry_setEntry i j _) hlive (fun hl => absurd hfree hl)
    (fun j _ _ => node_congr fun b _ => v.setEntry_blocks_of_ge hi _ (by omega)), newEntry_title type hcr.length_le]
  unfold node contents Node.ofType
  rw [newEntry_blockCount]
  rfl

section
variable {v : Volume} {total : UInt32} {i : ℕ} (hi : i < 32) {start size : UInt32} {data : List UInt8}
  (hrun : FreeRun total v start.toNat (blocksFor size).toNat)
include hi hrun

theorem storeFile_contents (hfile : (v.entry i).type = fsTypeFile) (hlen : size.toNat = data.length)
    (hsize : size.toNat < 2 ^ 24) :
    (v.storeFile i start data size).contents { v.entry i with startBlock := start.toUInt16, size } = data := by
  have hn : (blocksFor size).toNat = (data.length + 511) / 512 := by rw [blocksFor_toNat _ hsize, hlen]
  have hcount : ({ v.entry i with startBlock := start.toUInt16, size } : FsEntry).blockCount =
      (data.length + 511) / 512 := by
    rw [FsEntry.blockCount, if_pos hfile, hn]
  unfold contents
  rw [hcount]
  dsimp only
  rw [hrun.start_toUInt16, hlen]
  refine data_of_chunks _ _ rfl (fun k hk => ?_)
  rw [storeFile, setEntry_blocks_of_ge _ hi _ (by omega), setRange]
  dsimp only
  rw [hn, if_pos ⟨by omega,by omega⟩, Nat.add_sub_cancel_left]

theorem storeFile_node {j : ℕ} (hj : j < 32) :
    (v.storeFile i start data size).node (v.entry j) = v.node (v.entry j) := by
  refine node_congr (fun b hb => ?_)
  rw [storeFile, setEntry_blocks_of_ge _ hi _ (by omega), setRange]
  dsimp only
  rw [if_neg]
  rintro ⟨h1,h2⟩
  have hu := hrun.unused (b - start.toNat) (by omega) j hj
  rw [Nat.add_sub_cancel' (by omega)] at hu
  exact hu hb

theorem storeFile_nodes {limit : ℕ} (hd : DirOk limit v.entry) (hlim : extentLimit total ≤ limit)
    (hfile : (v.entry i).type = fsTypeFile) (hlen : size.toNat = data.length) (hsize : size.toNat < 2 ^ 24) :
    (v.storeFile i start data size).nodes = v.nodes.insert (v.entry i).title (.file data) := by
  rw [nodes_insert hd (hd.storeFile hlim hi hfile data hsize hrun) hi
    (fun j hj => v.storeFile_entry i start data size hj) (live_of_file hfile) (fun _ => rfl)
    (fun j hj _ => storeFile_node hi hrun hj), node]
  dsimp only
  rw [if_pos hfile, storeFile_contents hi hrun hfile hlen hsize]
  rfl

end

theorem nodes_remove {v w : Volume} {limit : ℕ} (hv : DirOk limit v.entry) (hw : DirOk limit w.entry)
    {p : ℕ → Prop} [DecidablePred p] {q : List UInt8 → Prop} [DecidablePred q]
    (hent : ∀ j < 32, w.entry j = if p j then FsEntry.zero else v.entry j)
    (hpq : ∀ j < 32, (v.entry j).live → (p j ↔ q (v.entry j).title))
    (hnode : ∀ j < 32, w.node (v.entry j) = v.node (v.entry j)) : w.nodes = v.nodes.remove q := by
  ext1
  funext name
  apply Option.ext
  intro node
  rw [find_eq_some hw, NameMap.find_remove]
  constructor
  · rintro ⟨j,hj,hlj,htj,rfl⟩
    by_cases hp : p j
    · rw [hent j hj, if_pos hp] at hlj
      exact absurd hlj FsEntry.zero_not_live
    · rw [hent j hj, if_neg hp] at hlj htj ⊢
      rw [if_neg (by rw [← htj]; exact fun hq => hp ((hpq j hj hlj).mpr hq)), find_eq_some hv]
      exact ⟨j,hj,hlj,htj,(hnode j hj).symm⟩
  · intro h
    by_cases hq : q name
    · simp [hq] at h
    · rw [if_neg hq, find_eq_some hv] at h
      obtain ⟨j,hj,hlj,htj,rfl⟩ := h
      have hp : ¬p j := by
        rw [hpq j hj hlj, htj]
        exact hq
      refine ⟨j,hj,?_⟩
      rw [hent j hj, if_neg hp]
      exact ⟨hlj,htj,hnode j hj⟩

theorem clearEntry_nodes {v : Volume} {limit : ℕ} (hd : DirOk limit v.entry) {i : ℕ} (hi : i < 32)
    (hl : (v.entry i).live) :
    (v.setEntry i FsEntry.zero).nodes = v.nodes.remove (fun name => name = (v.entry i).title) := by
  have hent : ∀ j < 32, (v.setEntry i FsEntry.zero).entry j = if j = i then FsEntry.zero else v.entry j := by
    intro j _
    rw [entry_setEntry]
    simp only [eq_comm]
  refine nodes_remove hd ((hd.clear (fun j => j = i)).congr hent) hent (fun j hj hlj => ⟨?_,?_⟩)
    (fun j _ => node_congr fun b _ => v.setEntry_blocks_of_ge hi _ (by omega))
  · rintro rfl
    rfl
  · exact fun ht => hd.distinct j hj i hi hlj hl ht

theorem liveEntries_eq (v : Volume) :
    liveEntries v 32 = ((List.range 32).filter (fun i => (v.entry i).live)).map v.entry := by
  rw [liveEntries, List.filter_map]
  rfl

theorem mem_liveEntries {v : Volume} {e : FsEntry} :
    e ∈ liveEntries v 32 ↔ ∃ i < 32, (v.entry i).live ∧ v.entry i = e := by
  simp [liveEntries_eq, and_assoc]

theorem titles_nodup {v : Volume} {limit : ℕ} (hd : DirOk limit v.entry) :
    ((liveEntries v 32).map FsEntry.title).Nodup := by
  rw [liveEntries_eq, List.map_map]
  refine List.Nodup.map_on ?_ ((List.nodup_range).filter _)
  intro i hi j hj ht
  simp only [List.mem_filter, List.mem_range, decide_eq_true_eq] at hi hj
  exact hd.distinct i hi.1 j hj.1 hi.2 hj.2 ht

theorem card_names {v : Volume} {limit : ℕ} (hd : DirOk limit v.entry) :
    v.nodes.names.card = (liveEntries v 32).length := by
  have hnames : v.nodes.names = ((liveEntries v 32).map FsEntry.title).toFinset := by
    ext name
    rw [NameMap.mem_names, Option.ne_none_iff_exists', List.mem_toFinset, List.mem_map]
    constructor
    · rintro ⟨node,h⟩
      obtain ⟨i,hi,hl,ht,_⟩ := (find_eq_some hd).mp h
      exact ⟨v.entry i,mem_liveEntries.mpr ⟨i,hi,hl,rfl⟩,ht⟩
    · rintro ⟨e,he,rfl⟩
      obtain ⟨i,hi,hl,rfl⟩ := mem_liveEntries.mp he
      exact ⟨_,(find_eq_some hd).mpr ⟨i,hi,hl,rfl,rfl⟩⟩
  rw [hnames, List.toFinset_card_of_nodup (titles_nodup hd), List.length_map]

theorem exists_free_iff {v : Volume} {limit : ℕ} (hd : DirOk limit v.entry) :
    (∃ i < 32, (v.entry i).type = fsTypeFree) ↔ v.nodes.names.card < 32 := by
  rw [card_names hd, liveEntries_eq, List.length_map]
  have h := List.length_filter_lt_length_iff_exists (l := List.range 32)
    (p := fun i => decide (v.entry i).live)
  rw [List.length_range] at h
  rw [h]
  simp only [List.mem_range, decide_eq_true_eq]
  exact exists_congr fun i => and_congr_right fun _ => not_not.symm

theorem accepts_iff {v : Volume} {limit : ℕ} (hd : DirOk limit v.entry) (name : List UInt8) (type : UInt8) :
    v.nodes.Accepts name type ↔ Creatable v name type ∧ ∃ i < 32, (v.entry i).type = fsTypeFree := by
  rw [exists_free_iff hd]
  exact ⟨fun h => ⟨⟨h.length_pos,h.length_le,h.type_ok,find_eq_none.mp h.fresh⟩,h.room⟩,
    fun ⟨h,hroom⟩ => ⟨h.length_pos,h.length_le,h.type_ok,find_eq_none.mpr h.fresh,hroom⟩⟩

end Volume

theorem isChild_iff (name : List UInt8) (e : FsEntry) :
    isChild name e = true ↔ cstr name ++ [0x2F] <+: e.title := by
  have hn : strlen name = (cstr name).length := strlen_eq name
  rw [isChild, decide_eq_true_eq, strncmp_eq_zero_iff, hn, List.take_length, FsEntry.title]
  constructor
  · rintro ⟨htake,hslash⟩
    have hlen : (cstr name).length ≤ (cstr e.name).length := by
      rw [← htake, List.length_take]
      omega
    rw [getD_eq_cstr_getD _ hlen] at hslash
    have hlt : (cstr name).length < (cstr e.name).length := by
      by_contra hge
      rw [List.getD_eq_default _ _ (by omega)] at hslash
      exact absurd hslash (by decide)
    rw [List.getD_eq_getElem _ _ hlt] at hslash
    rw [List.prefix_iff_eq_take, List.length_append, List.length_singleton, List.take_add_one, htake,
      List.getElem?_eq_getElem hlt, hslash]
    rfl
  · rintro ⟨rest,hrest⟩
    rw [getD_eq_cstr_getD _ (by rw [← hrest]; simp), ← hrest]
    simp

namespace Readable
variable {σ : Type} {dev : BlockDevice σ} (r : Readable dev)

theorem fsReadFile_names (s : FsState σ) (hs : Sound dev.totalBlocks (r.volume s)) (name : List UInt8) (maxSize : UInt32) :
    r.volume (fsReadFile dev name maxSize s).2 = r.volume s ∧ (fsReadFile dev name maxSize s).1 =
      match (r.volume s).nodes.find (cstr name) with
      | some (.file bytes) => .full (bytes.take maxSize.toNat)
      | _ => .failed := by
  obtain ⟨s',hv,⟨i,hi,hfile,ht,he⟩ | ⟨he,⟨i,hi,hl,ht,hnf⟩ | hno⟩⟩ := r.fsReadFile_spec s hs name maxSize
  · have hfind : (r.volume s).nodes.find (cstr name) =
        some (.file ((r.volume s).contents ((r.volume s).entry i))) := by
      exact (Volume.find_eq_some hs.dir).mpr ⟨i,hi,live_of_file hfile,ht,by rw [Volume.node, if_pos hfile]⟩
    rw [he, hfind]
    exact ⟨hv,rfl⟩
  · have hfind : (r.volume s).nodes.find (cstr name) = some .dir :=
      (Volume.find_eq_some hs.dir).mpr ⟨i,hi,hl,ht,by rw [Volume.node, if_neg hnf]⟩
    rw [he, hfind]
    exact ⟨hv,rfl⟩
  · rw [he, Volume.find_eq_none.mpr hno]
    exact ⟨hv,rfl⟩

theorem read_refines (s : FsState σ) (hs : Sound dev.totalBlocks (r.volume s)) (name : List UInt8)
    (maxSize : UInt32) : r.volume (exec dev (.read name maxSize) s).2 = r.volume s ∧
      MapSpec (r.volume s).nodes (.read name maxSize) (exec dev (.read name maxSize) s).1
        (r.volume s).nodes := by
  obtain ⟨hv,he⟩ := r.fsReadFile_names s hs name maxSize
  refine ⟨hv,rfl,?_⟩
  rw [exec, he]
  cases (r.volume s).nodes.find (cstr name) with
  | none => rfl
  | some node =>
    cases node with
    | dir => rfl
    | file bytes => rw [ReadResult.bytes_full]

theorem stat_refines (s : FsState σ) (hs : Sound dev.totalBlocks (r.volume s)) (name : List UInt8) :
    r.volume (exec dev (.stat name) s).2 = r.volume s ∧
      MapSpec (r.volume s).nodes (.stat name) (exec dev (.stat name) s).1 (r.volume s).nodes := by
  obtain ⟨s',hv,⟨i,hi,hl,ht,he⟩ | ⟨he,hno⟩⟩ := r.fsStat_spec s hs name
  · have hfind : (r.volume s).nodes.find (cstr name) = some ((r.volume s).node ((r.volume s).entry i)) :=
      (Volume.find_eq_some hs.dir).mpr ⟨i,hi,hl,ht,rfl⟩
    simp only [exec, he]
    refine ⟨hv,rfl,?_⟩
    rw [hfind]
    exact ⟨_,rfl,ht ▸ Volume.describes_node hs.dir hi hl⟩
  · simp only [exec, he]
    exact ⟨hv,rfl,by rw [Volume.find_eq_none.mpr hno]⟩

theorem list_refines (s : FsState σ) (hs : Sound dev.totalBlocks (r.volume s)) (max : ℕ) :
    r.volume (exec dev (.list max) s).2 = r.volume s ∧
      MapSpec (r.volume s).nodes (.list max) (exec dev (.list max) s).1 (r.volume s).nodes := by
  obtain ⟨s',he,hv⟩ := r.fsList_spec s hs.formatted max
  simp only [exec, he]
  refine ⟨hv,rfl,_,rfl,?_,?_,?_⟩
  · rw [List.length_take, Volume.card_names hs.dir]
  · exact (Volume.titles_nodup hs.dir).sublist ((List.take_sublist _ _).map _)
  · intro e hmem
    obtain ⟨i,hi,hl,rfl⟩ := Volume.mem_liveEntries.mp (List.mem_of_mem_take hmem)
    exact ⟨_,(Volume.find_eq_some hs.dir).mpr ⟨i,hi,hl,rfl,rfl⟩,Volume.describes_node hs.dir hi hl⟩

end Readable

namespace Reliable
variable {σ : Type} {dev : BlockDevice σ} (r : Reliable dev)

theorem create_refines (s : FsState σ) (hc : Consistent dev.totalBlocks (r.volume s)) (name : List UInt8)
    (type : UInt8) : Consistent dev.totalBlocks (r.volume (exec dev (.create name type) s).2) ∧
      MapSpec (r.volume s).nodes (.create name type) (exec dev (.create name type) s).1
        (r.volume (exec dev (.create name type) s).2).nodes := by
  have haccept := Volume.accepts_iff hc.dir name type
  obtain ⟨s',⟨i,hi,hcr,hfree,he,hv⟩ | ⟨he,hv,hno⟩⟩ := r.fsCreate_spec s hc name type
  · simp only [exec, he]
    have hc' := hc.create hcr hi hfree
    rw [← hv] at hc'
    exact ⟨hc',Or.inl ⟨haccept.mpr ⟨hcr,i,hi,hfree⟩,rfl,by rw [hv, Volume.setEntry_nodes hc.dir hcr hi hfree]⟩⟩
  · simp only [exec, he]
    rw [hv]
    exact ⟨hc,Or.inr ⟨fun h => hno (haccept.mp h),rfl,rfl⟩⟩

theorem write_refines (s : FsState σ) (hc : Consistent dev.totalBlocks (r.volume s)) (name data : List UInt8)
    (fits : data.length < 2 ^ 24) :
    Consistent dev.totalBlocks (r.volume (exec dev (.write name data fits) s).2) ∧
      MapSpec (r.volume s).nodes (.write name data fits) (exec dev (.write name data fits) s).1
        (r.volume (exec dev (.write name data fits) s).2).nodes := by
  have hlen : (UInt32.ofNat data.length).toNat = data.length := by
    rw [UInt32.toNat_ofNat']
    omega
  obtain ⟨s',⟨he,hv,_⟩ | ⟨i,hi,start,fb,hfile,ht,hfirst,he,hv,hc'⟩⟩ :=
    r.fsWriteFile_spec s hc name data (UInt32.ofNat data.length) hlen (by omega)
  · simp only [exec, he]
    rw [hv]
    exact ⟨hc,Or.inr ⟨rfl,rfl⟩⟩
  · simp only [exec, he]
    refine ⟨hc',Or.inl ⟨?_,rfl,?_⟩⟩
    · exact ⟨(r.volume s).contents ((r.volume s).entry i),(Volume.find_eq_some hc.dir).mpr
        ⟨i,hi,live_of_file hfile,ht,by rw [Volume.node, if_pos hfile]⟩⟩
    · have hrun := FreeRun.of_first hfirst
      rw [hv, Volume.flush_nodes (hc.dir.storeFile le_rfl hi hfile data (by omega) hrun),
        Volume.storeFile_nodes hi hrun hc.dir le_rfl hfile hlen (by omega), ht]

theorem deletedAt_iff {v : Volume} {limit : ℕ} (hd : DirOk limit v.entry) {name : List UInt8} {i j : ℕ}
    (hi : i < 32) (hj : j < 32) (hl : (v.entry i).live) (ht : (v.entry i).title = cstr name)
    (hlj : (v.entry j).live) :
    deletedAt v name i j ↔ (v.entry j).title = cstr name ∨
      v.node (v.entry i) = .dir ∧ cstr name ++ [0x2F] <+: (v.entry j).title := by
  have hdir : (v.entry i).type = fsTypeDir ↔ v.node (v.entry i) = .dir := by
    have h := (Volume.describes_node hd hi hl).type_eq
    rw [h]
    cases v.node (v.entry i) with
    | dir => simp [Node.type]
    | file bytes => simp [Node.type, fsTypeFile, fsTypeDir]
  unfold deletedAt childAt
  rw [hdir, isChild_iff, and_iff_right hlj]
  refine or_congr_left ⟨?_,?_⟩
  · rintro rfl
    exact ht
  · exact fun h => hd.distinct j hj i hi hlj hl (h.trans ht.symm)

theorem delete_refines (s : FsState σ) (hc : Consistent dev.totalBlocks (r.volume s)) (name : List UInt8) :
    Consistent dev.totalBlocks (r.volume (exec dev (.delete name) s).2) ∧
      MapSpec (r.volume s).nodes (.delete name) (exec dev (.delete name) s).1
        (r.volume (exec dev (.delete name) s).2).nodes := by
  obtain ⟨s',⟨he,hv,hno⟩ | ⟨i,hi,w,fb,hl,ht,hcl,he,hv,hc'⟩⟩ := r.fsDelete_spec s hc name
  · simp only [exec, he, MapSpec]
    rw [hv, Volume.find_eq_none.mpr hno]
    exact ⟨hc,trivial,rfl⟩
  · have hfind : (r.volume s).nodes.find (cstr name) = some ((r.volume s).node ((r.volume s).entry i)) :=
      (Volume.find_eq_some hc.dir).mpr ⟨i,hi,hl,ht,rfl⟩
    simp only [exec, he, MapSpec]
    rw [hfind]
    refine ⟨hc',trivial,?_⟩
    refine Volume.nodes_remove hc.dir hc'.dir (p := deletedAt (r.volume s) name i)
      (fun j hj => by rw [hv, Volume.flush_entry, hcl.entry j hj])
      (fun j hj hlj => deletedAt_iff hc.dir hi hj hl ht hlj)
      (fun j _ => Volume.node_congr (fun b _ => ?_))
    rw [hv, Volume.flush_blocks _ _ (by omega), hcl.blocks _ (Or.inr (by omega))]

/-- One call: consistency is kept and the map moves as specified. -/
theorem exec_refines (call : Call) (s : FsState σ) (hc : Consistent dev.totalBlocks (r.volume s)) :
    Consistent dev.totalBlocks (r.volume (exec dev call s).2) ∧
      MapSpec (r.volume s).nodes call (exec dev call s).1 (r.volume (exec dev call s).2).nodes := by
  cases call with
  | create name type => exact r.create_refines s hc name type
  | write name data fits => exact r.write_refines s hc name data fits
  | delete name => exact r.delete_refines s hc name
  | read name maxSize =>
    obtain ⟨hv,hspec⟩ := r.read_refines s hc.sound name maxSize
    rw [hv]
    exact ⟨hc,hspec⟩
  | stat name =>
    obtain ⟨hv,hspec⟩ := r.stat_refines s hc.sound name
    rw [hv]
    exact ⟨hc,hspec⟩
  | list max =>
    obtain ⟨hv,hspec⟩ := r.list_refines s hc.sound max
    rw [hv]
    exact ⟨hc,hspec⟩

theorem run_consistent (calls : List Call) {s : FsState σ} (hc : Consistent dev.totalBlocks (r.volume s)) :
    Consistent dev.totalBlocks (r.volume (Machine.run (exec dev) calls s).2) :=
  Machine.run_invariant (fun s => Consistent dev.totalBlocks (r.volume s))
    (fun call s h => (r.exec_refines call s h).1) calls hc

theorem nodes_eq_empty {v : Volume} (h : ∀ i < 32, v.entry i = FsEntry.zero) : v.nodes = NameMap.empty :=
  Volume.nodes_eq_empty_iff.mpr fun i hi => by rw [h i hi]; rfl

end Reliable

def ramDevice (totalBlocks : UInt32) : BlockDevice (ℕ → Block) where
  read b d := (some (d b.toNat), d)
  write b blk d := (true, Function.update d b.toNat blk)
  totalBlocks := totalBlocks

def ramReliable (totalBlocks : UInt32) : Reliable (ramDevice totalBlocks) where
  contents := id
  read_ok _ d _ := ⟨d,rfl,rfl⟩
  write_ok _ _ _ _ := ⟨_,rfl,rfl⟩

def blankState : FsState (ℕ → Block) := ⟨fun _ => Block.zero,freshSuperblock 0,Block.zero⟩

theorem blank_unformatted (totalBlocks : UInt32) : (ramReliable totalBlocks).Unformatted blankState := by
  change (Superblock.decode Block.zero).magic ≠ fsMagic
  decide

namespace FsEntry

/-- The block range of a file, relative to the data region. -/
def extent (e : FsEntry) : Finset ℕ :=
  Finset.Ico e.startBlock.toNat (e.startBlock.toNat + (e.size.toNat + 511) / 512)

theorem mem_extent {e : FsEntry} (ht : e.type = fsTypeFile) (hs : e.size.toNat < 2 ^ 24) {b : ℕ} :
    b ∈ e.extent ↔ e.covers b := by
  rw [extent, Finset.mem_Ico, covers, blockCount, if_pos ht, blocksFor_toNat _ hs]

end FsEntry

/-- The on-disk invariant, in terms of the fields on the device. -/
structure OnDisk (v : Volume) : Prop where
  name_length : ∀ i < 32, (v.entry i).live → 1 ≤ (v.entry i).title.length ∧ (v.entry i).title.length ≤ 23
  name_distinct : ∀ i < 32, ∀ j < 32, i ≠ j → (v.entry i).live → (v.entry j).live →
    (v.entry i).title ≠ (v.entry j).title
  extent_disjoint : ∀ i < 32, ∀ j < 32, i ≠ j → (v.entry i).type = fsTypeFile →
    (v.entry j).type = fsTypeFile → Disjoint (v.entry i).extent (v.entry j).extent
  extent_inside : ∀ i < 32, (v.entry i).type = fsTypeFile → (v.entry i).size ≠ 0 →
    (v.entry i).startBlock.toNat + ((v.entry i).size.toNat + 511) / 512 ≤
      v.superblock.totalBlocks.toNat - v.superblock.dataStartBlock.toNat
  free_blocks : v.superblock.freeBlocks.toNat +
      ∑ i ∈ Finset.range 32 with (v.entry i).type = fsTypeFile, ((v.entry i).size.toNat + 511) / 512 =
    v.superblock.totalBlocks.toNat - v.superblock.dataStartBlock.toNat
  superblock_eq : v.blocks 0 = v.superblock.encode

theorem Consistent.onDisk {total : UInt32} {v : Volume} (hc : Consistent total v) : OnDisk v where
  name_length := hc.dir.named
  name_distinct i hi j hj hij hl hlj ht := hij (hc.dir.distinct i hi j hj hl hlj ht)
  extent_disjoint i hi j hj hij ht htj := by
    rw [Finset.disjoint_left]
    intro b hb hb'
    exact hc.dir.disjoint i hi j hj hij b ((FsEntry.mem_extent ht (hc.dir.small i hi)).mp hb)
      ((FsEntry.mem_extent htj (hc.dir.small j hj)).mp hb')
  extent_inside i hi ht hs := by
    have hpos : 0 < (v.entry i).size.toNat := by
      rw [Nat.pos_iff_ne_zero]
      exact fun h => hs (UInt32.toNat_inj.mp h)
    have hlast := hc.dir.inRegion i hi
      ((v.entry i).startBlock.toNat + ((v.entry i).size.toNat + 511) / 512 - 1)
      ((FsEntry.mem_extent ht (hc.dir.small i hi)).mp (Finset.mem_Ico.mpr ⟨by omega,by omega⟩))
    have hl := extentLimit_le total
    rw [hc.formatted.total_eq, hc.formatted.dataStart]
    change _ ≤ total.toNat - 3
    omega
  free_blocks := by
    rw [hc.formatted.total_eq, hc.formatted.dataStart]
    change _ = total.toNat - 3
    have hsum : ∑ i ∈ Finset.range 32 with (v.entry i).type = fsTypeFile, ((v.entry i).size.toNat + 511) / 512 =
        ∑ i ∈ Finset.range 32, (v.entry i).blockCount := by
      rw [Finset.sum_filter]
      refine Finset.sum_congr rfl (fun i hi => ?_)
      rw [FsEntry.blockCount, blocksFor_toNat _ (hc.dir.small i (Finset.mem_range.mp hi))]
    rw [hsum, hc.free]
  superblock_eq := hc.block0

/-- The on-disk invariant holds after every history, and a reboot (a mount with any memory
contents of the same device) finds the same volume. -/
theorem Reliable.run_onDisk {σ : Type} {dev : BlockDevice σ} (r : Reliable dev)
    (h4 : 4 ≤ dev.totalBlocks.toNat) (s : FsState σ) (hu : r.Unformatted s) (calls : List Call) :
    ∃ s₀, fsInit dev s = (0, s₀) ∧
      OnDisk (r.volume (Machine.run (exec dev) calls s₀).2) ∧
      ∀ (superblock : Superblock) (blockBuf : Block),
        ∃ s', fsInit dev ⟨(Machine.run (exec dev) calls s₀).2.disk,superblock,blockBuf⟩ = (0, s') ∧
          r.volume s' = r.volume (Machine.run (exec dev) calls s₀).2 := by
  obtain ⟨s₀,he,hc,_⟩ := r.fsInit_unformatted s (by omega) hu
  have hrun := r.run_consistent calls hc
  refine ⟨s₀,he,hrun.onDisk,fun superblock blockBuf => ?_⟩
  obtain ⟨s',hs',hv⟩ := r.fsInit_mount ⟨_,superblock,blockBuf⟩ hrun.sound.mountable
  exact ⟨s',hs',hv.trans hrun.volumeOn_eq⟩

/-- Two files and a delete on a blank device of eight blocks. -/
theorem run_onDisk_blank :
    ∃ s₀, fsInit (ramDevice 8) blankState = (0, s₀) ∧
      OnDisk ((ramReliable 8).volume (Machine.run (exec (ramDevice 8))
        [.create [0x61] fsTypeFile, .write [0x61] [1,2,3] (by decide), .delete [0x61]] s₀).2) ∧
      ∀ (superblock : Superblock) (blockBuf : Block),
        ∃ s', fsInit (ramDevice 8) ⟨(Machine.run (exec (ramDevice 8))
            [.create [0x61] fsTypeFile, .write [0x61] [1,2,3] (by decide), .delete [0x61]] s₀).2.disk,
            superblock,blockBuf⟩ = (0, s') ∧
          (ramReliable 8).volume s' = (ramReliable 8).volume (Machine.run (exec (ramDevice 8))
            [.create [0x61] fsTypeFile, .write [0x61] [1,2,3] (by decide), .delete [0x61]] s₀).2 :=
  (ramReliable 8).run_onDisk (by decide) blankState (blank_unformatted 8) _

end ApPa.Fs
