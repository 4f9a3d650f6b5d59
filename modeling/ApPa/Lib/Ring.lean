import ApPa.Lib.Loop
import Mathlib.Data.List.Nodup
import Mathlib.Logic.Function.Basic
import Mathlib.Tactic.Common

/-! # Circular singly linked lists

A list threaded through a partial `next` map. A path follows the links through a list of
nodes; a ring is a path from its head back to itself without repetition. Linking in a
node behind the last one and unlinking a node other than the head are local edits.
-/
namespace ApPa.Linked
open Loop
variable {α : Type*} {next next' : α → Option α}

/-- Following links from `a` visits `l` and then arrives at `e`. -/
def Path (next : α → Option α) : α → List α → α → Prop
  | a, [], e => a = e
  | a, x :: l, e => a = x ∧ ∃ b, next x = some b ∧ Path next b l e

theorem path_append {a e : α} {l r : List α} :
    Path next a (l ++ r) e ↔ ∃ b, Path next a l b ∧ Path next b r e := by
  induction l generalizing a with
  | nil => simp [Path]
  | cons x l ih =>
    constructor
    · rintro ⟨rfl,b,hb,hp⟩
      obtain ⟨c,hl,hr⟩ := ih.mp hp
      exact ⟨c,⟨rfl,b,hb,hl⟩,hr⟩
    · rintro ⟨c,⟨rfl,b,hb,hl⟩,hr⟩
      exact ⟨rfl,b,hb,ih.mpr ⟨c,hl,hr⟩⟩

theorem Path.congr {a e : α} {l : List α} (h : Path next a l e) (heq : ∀ x ∈ l, next' x = next x) :
    Path next' a l e := by
  induction l generalizing a with
  | nil => exact h
  | cons x l ih =>
    obtain ⟨rfl,b,hb,hp⟩ := h
    refine ⟨rfl,b,?_,ih hp (fun y hy => heq y (List.mem_cons_of_mem _ hy))⟩
    rw [heq a List.mem_cons_self, hb]

theorem Path.next_eq {a e x y : α} {l r : List α} (h : Path next a (l ++ x :: y :: r) e) :
    next x = some y := by
  obtain ⟨b,_,_,c,hc,rfl,_⟩ := path_append.mp h
  exact hc

theorem Path.next_last {a e x : α} {l : List α} (h : Path next a (l ++ [x]) e) : next x = some e := by
  obtain ⟨b,_,_,c,hc,rfl⟩ := path_append.mp h
  exact hc

/-- A circular list with head `h` and further nodes `l`. -/
structure Ring (next : α → Option α) (h : α) (l : List α) : Prop where
  path : Path next h (h :: l) h
  nodup : (h :: l).Nodup

namespace Ring
variable {h : α} {l : List α}

theorem congr (hr : Ring next h l) (heq : ∀ x ∈ h :: l, next' x = next x) : Ring next' h l :=
  ⟨hr.path.congr heq,hr.nodup⟩

theorem ne_head {p q : List α} {t n : α} (hr : Ring next h l) (hn : h :: l = p ++ t :: n :: q) : n ≠ h := by
  rintro rfl
  have hnodup := hr.nodup
  cases p with
  | nil =>
    rw [hn] at hnodup
    injection hn with h1 _
    exact (List.nodup_cons.mp hnodup).1 (by simp [h1])
  | cons b p =>
    injection hn with h1 h2
    exact (List.nodup_cons.mp hnodup).1 (by simp [h2])

/-- The same ring read from another of its nodes. -/
theorem rotate {x : α} {p q : List α} (hr : Ring next h l) (hx : h :: l = p ++ x :: q) :
    Ring next x (q ++ p) := by
  have hpath := hr.path
  have hnodup := hr.nodup
  rw [hx] at hpath hnodup
  obtain ⟨b,hp,hq⟩ := path_append.mp hpath
  obtain rfl : b = x := hq.1
  refine ⟨?_,?_⟩
  · rw [← List.cons_append]
    exact path_append.mpr ⟨h,hq,hp⟩
  · rw [← List.cons_append]
    exact List.nodup_append_comm.mp hnodup

variable [DecidableEq α]

theorem insertLast {p : List α} {t x : α} (hr : Ring next h l) (ht : h :: l = p ++ [t]) (hx : x ∉ h :: l) :
    Ring (Function.update (Function.update next x (next t)) t (some x)) h (l ++ [x]) := by
  have hpath := hr.path
  have hnodup := hr.nodup
  have hlast : next t = some h := (ht ▸ hpath).next_last
  rw [ht] at hpath hnodup hx
  obtain ⟨b,hp,hb⟩ := path_append.mp hpath
  obtain rfl : b = t := hb.1
  have hxb : x ≠ b := fun he => hx (by simp [he])
  have hpb : ∀ y ∈ p, y ≠ b ∧ y ≠ x := by
    intro y hy
    refine ⟨?_,fun he => hx (by simp [← he, hy])⟩
    rintro rfl
    exact (List.nodup_append.mp hnodup).2.2 y hy y (List.mem_singleton_self y) rfl
  refine ⟨?_,?_⟩
  · rw [← List.cons_append, ht]
    refine path_append.mpr ⟨x,path_append.mpr ⟨b,?_,rfl,x,Function.update_self _ _ _,rfl⟩,rfl,h,?_,rfl⟩
    · refine hp.congr fun y hy => ?_
      rw [Function.update_of_ne (hpb y hy).1, Function.update_of_ne (hpb y hy).2]
    · rw [Function.update_of_ne hxb, Function.update_self, hlast]
  · rw [← List.cons_append, ht]
    exact List.nodup_append.mpr ⟨hnodup,List.nodup_singleton x,fun a ha c hc => by
      rw [List.mem_singleton.mp hc]
      rintro rfl
      exact hx ha⟩

theorem unlink {p q : List α} {y x : α} (hr : Ring next h l) (hx : h :: l = p ++ y :: x :: q) :
    Path (Function.update (Function.update next y (next x)) x none) h (p ++ y :: q) h ∧
      (p ++ y :: q).Nodup := by
  have hpath := hr.path
  have hnodup := hr.nodup
  rw [hx] at hpath hnodup
  obtain ⟨b,hp,rfl,c,_,rfl,d,hd,hq⟩ := path_append.mp hpath
  obtain ⟨hpn,hrest,hdis⟩ := List.nodup_append.mp hnodup
  obtain ⟨hbn,hcq⟩ := List.nodup_cons.mp hrest
  obtain ⟨hcn,hqn⟩ := List.nodup_cons.mp hcq
  have hbc : b ≠ c := fun he => hbn (by simp [he])
  have hp' : ∀ z ∈ p, z ≠ b ∧ z ≠ c := fun z hz =>
    ⟨hdis z hz b (by simp),hdis z hz c (by simp)⟩
  have hq' : ∀ z ∈ q, z ≠ b ∧ z ≠ c := by
    intro z hz
    refine ⟨?_,?_⟩
    · rintro rfl
      exact hbn (List.mem_cons_of_mem _ hz)
    · rintro rfl
      exact hcn hz
  refine ⟨path_append.mpr ⟨b,?_,rfl,d,?_,?_⟩,?_⟩
  · refine hp.congr fun z hz => ?_
    rw [Function.update_of_ne (hp' z hz).2, Function.update_of_ne (hp' z hz).1]
  · rw [Function.update_of_ne hbc, Function.update_self, hd]
  · refine hq.congr fun z hz => ?_
    rw [Function.update_of_ne (hq' z hz).2, Function.update_of_ne (hq' z hz).1]
  · refine List.nodup_append.mpr ⟨hpn,List.nodup_cons.mpr ⟨fun hm => hbn (List.mem_cons_of_mem _ hm),hqn⟩,?_⟩
    intro z hz w hw
    rcases List.mem_cons.mp hw with rfl | hw
    · exact hdis z hz w (by simp)
    · exact hdis z hz w (by simp [hw])

end Ring

end ApPa.Linked
