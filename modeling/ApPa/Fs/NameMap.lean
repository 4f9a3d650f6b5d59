import ApPa.Fs.SimpleFs
import Mathlib.Data.Set.Finite.Basic
import Mathlib.Data.Finset.Card

/-! # SimpleFS as a finite map from names to files and directories

This is what the file system is for, without blocks, slots or extents: a finite map
from names to nodes, and for each public call the replies and next maps it allows.
-/
namespace ApPa.Fs
open Klibc

inductive Node where
  | dir
  | file (bytes : List UInt8)
  deriving DecidableEq, Repr

namespace Node

def type : Node → UInt8
  | dir => fsTypeDir
  | file _ => fsTypeFile

def size : Node → ℕ
  | dir => 0
  | file bytes => bytes.length

/-- The node a fresh entry of the given type stands for. -/
def ofType (type : UInt8) : Node := if type = fsTypeFile then file [] else dir

end Node

@[ext] structure NameMap where
  find : List UInt8 → Option Node
  finite : {name | find name ≠ none}.Finite

namespace NameMap

def empty : NameMap := ⟨fun _ => none,by simp⟩

noncomputable def names (m : NameMap) : Finset (List UInt8) := m.finite.toFinset

theorem mem_names {m : NameMap} {name : List UInt8} : name ∈ m.names ↔ m.find name ≠ none := by
  simp [names]

def insert (m : NameMap) (name : List UInt8) (node : Node) : NameMap where
  find := Function.update m.find name (some node)
  finite := by
    refine (m.finite.insert name).subset (fun n hn => ?_)
    by_cases h : n = name
    · exact Set.mem_insert_iff.mpr (Or.inl h)
    · rw [Set.mem_ofPred_eq, Function.update_of_ne h] at hn
      exact Set.mem_insert_of_mem _ hn

def remove (m : NameMap) (p : List UInt8 → Prop) [DecidablePred p] : NameMap where
  find name := if p name then none else m.find name
  finite := by
    refine m.finite.subset (fun n hn => ?_)
    by_cases h : p n
    · simp [h] at hn
    · simpa [h] using hn

theorem find_insert_self (m : NameMap) (name : List UInt8) (node : Node) :
    (m.insert name node).find name = some node := Function.update_self _ _ _

theorem find_insert_of_ne (m : NameMap) {name other : List UInt8} (node : Node) (h : other ≠ name) :
    (m.insert name node).find other = m.find other := Function.update_of_ne h _ _

theorem find_remove (m : NameMap) (p : List UInt8 → Prop) [DecidablePred p] (name : List UInt8) :
    (m.remove p).find name = if p name then none else m.find name := rfl

/-- When a call of `fs_create` is accepted. -/
structure Accepts (m : NameMap) (name : List UInt8) (type : UInt8) : Prop where
  length_pos : 1 ≤ (cstr name).length
  length_le : (cstr name).length ≤ 23
  type_ok : type = fsTypeFile ∨ type = fsTypeDir
  fresh : m.find (cstr name) = none
  room : m.names.card < 32

end NameMap

/-- The public calls; a buffer handed to a write fits in memory. -/
inductive Call where
  | create (name : List UInt8) (type : UInt8)
  | write (name data : List UInt8) (fits : data.length < 2 ^ 24)
  | read (name : List UInt8) (maxSize : UInt32)
  | delete (name : List UInt8)
  | stat (name : List UInt8)
  | list (max : ℕ)

inductive Reply where
  | status (code : ℤ)
  | bytes (data : Option (List UInt8))
  | entry (e : Option FsEntry)
  | entries (es : List FsEntry)

section
variable {σ : Type} (dev : BlockDevice σ)

def exec : Call → FsState σ → Reply × FsState σ
  | .create name type, s => (.status (fsCreate dev name type s).1, (fsCreate dev name type s).2)
  | .write name data _, s =>
    let result := fsWriteFile dev name data (UInt32.ofNat data.length) s
    (.status result.1, result.2)
  | .read name maxSize, s => (.bytes (fsReadFile dev name maxSize s).1.bytes, (fsReadFile dev name maxSize s).2)
  | .delete name, s => (.status (fsDelete dev name s).1, (fsDelete dev name s).2)
  | .stat name, s => (.entry (fsStat dev name s).1, (fsStat dev name s).2)
  | .list max, s => (.entries (fsList dev max s).1, (fsList dev max s).2)

end

/-- A directory entry that reports the given name and node. -/
structure Describes (e : FsEntry) (name : List UInt8) (node : Node) : Prop where
  name_eq : cstr e.name = name
  type_eq : e.type = node.type
  size_eq : e.size.toNat = node.size

/-- The effect and the reply of one call on the map. A write may be refused, for lack of
space, but then changes nothing. -/
def MapSpec (m : NameMap) : Call → Reply → NameMap → Prop
  | .create name type, reply, m' =>
    (m.Accepts name type ∧ reply = .status 0 ∧ m' = m.insert (cstr name) (Node.ofType type)) ∨
      (¬m.Accepts name type ∧ reply = .status (-1) ∧ m' = m)
  | .write name data _, reply, m' =>
    ((∃ old, m.find (cstr name) = some (.file old)) ∧ reply = .status 0 ∧
        m' = m.insert (cstr name) (.file data)) ∨
      (reply = .status (-1) ∧ m' = m)
  | .read name maxSize, reply, m' =>
    m' = m ∧ match m.find (cstr name) with
      | some (.file bytes) => reply = .bytes (some (bytes.take maxSize.toNat))
      | _ => reply = .bytes none
  | .delete name, reply, m' =>
    match m.find (cstr name) with
    | none => reply = .status (-1) ∧ m' = m
    | some node => reply = .status 0 ∧
      m' = m.remove (fun n => n = cstr name ∨ node = .dir ∧ cstr name ++ [0x2F] <+: n)
  | .stat name, reply, m' =>
    m' = m ∧ match m.find (cstr name) with
      | none => reply = .entry none
      | some node => ∃ e, reply = .entry (some e) ∧ Describes e (cstr name) node
  | .list max, reply, m' =>
    m' = m ∧ ∃ es, reply = .entries es ∧ es.length = min max m.names.card ∧
      (es.map (fun e => cstr e.name)).Nodup ∧
      ∀ e ∈ es, ∃ node, m.find (cstr e.name) = some node ∧ Describes e (cstr e.name) node

end ApPa.Fs
