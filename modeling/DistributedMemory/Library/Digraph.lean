import Mathlib.Data.List.Chain
import Mathlib.Data.Nat.Find
import Mathlib.Data.Set.Insert
import Mathlib.Logic.Relation

/-!
# Cycles in a directed graph

A depth-first search has settled a set of nodes when no edge leaves it and no
node of it lies on a cycle.  A node all of whose edges lead into a settled set
can be added to it, and from a settled set no cycle can be reached.
-/

namespace DistributedMemory.Library.Digraph

open Relation

universe u

variable {α : Type u} {Edge : α → α → Prop}

def ReachesCycle (Edge : α → α → Prop) (a : α) : Prop :=
  ∃ b, ReflTransGen Edge a b ∧ TransGen Edge b b

structure Settled (Edge : α → α → Prop) (s : Set α) : Prop where
  closed : ∀ a ∈ s, ∀ b, Edge a b → b ∈ s
  acyclic : ∀ a ∈ s, ¬ TransGen Edge a a

theorem settled_empty : Settled Edge ∅ :=
  ⟨fun _ h => h.elim, fun _ h => h.elim⟩

namespace Settled

variable {s : Set α}

theorem mem_of_reaches (h : Settled Edge s) {a b : α} (ha : a ∈ s)
    (hreach : ReflTransGen Edge a b) : b ∈ s := by
  induction hreach with
  | refl => exact ha
  | tail _ hedge ih => exact h.closed _ ih _ hedge

theorem not_reachesCycle (h : Settled Edge s) {a : α} (ha : a ∈ s) :
    ¬ ReachesCycle Edge a := by
  rintro ⟨b, hreach, hcycle⟩
  exact h.acyclic b (h.mem_of_reaches ha hreach) hcycle

/-- A walk from a node whose edges all lead into a settled set stays there, so
it does not come back to a new node. -/
theorem insert (h : Settled Edge s) {a : α} (hnew : a ∉ s)
    (hedges : ∀ b, Edge a b → b ∈ s) : Settled Edge (insert a s) := by
  constructor
  · rintro b (rfl | hb) c hedge
    · exact .inr (hedges c hedge)
    · exact .inr (h.closed b hb c hedge)
  · rintro b (rfl | hb) hcycle
    · obtain ⟨c, hedge, hback⟩ := TransGen.head'_iff.mp hcycle
      exact hnew (h.mem_of_reaches (hedges c hedge) hback)
    · exact h.acyclic b hb hcycle

end Settled

/-- A list in which each element is an edge target of the next one is a walk
from its end to its head. -/
theorem transGen_of_isChain {a b : α} {inner : List α}
    (h : (a :: (inner ++ [b])).IsChain fun x y => Edge y x) :
    TransGen Edge b a := by
  induction inner generalizing a with
  | nil =>
      apply TransGen.single
      simpa using h
  | cons c rest ih =>
      obtain ⟨hedge, hrest⟩ := List.isChain_cons_cons.mp h
      exact (ih hrest).tail hedge

theorem transGen_self_of_isChain {a t : α} {inner : List α}
    (h : (a :: (inner ++ [a])).IsChain fun x y => Edge y x)
    (ht : t ∈ a :: (inner ++ [a])) : TransGen Edge t t := by
  by_cases hinner : t ∈ inner
  · obtain ⟨front, behind, rfl⟩ := List.append_of_mem hinner
    have hsplit : a :: ((front ++ t :: behind) ++ [a]) =
        (a :: front) ++ t :: (behind ++ [a]) := by simp
    rw [hsplit, List.isChain_split] at h
    have hfront : TransGen Edge t a := transGen_of_isChain (by simpa using h.1)
    have hbehind : TransGen Edge a t := transGen_of_isChain h.2
    exact hfront.trans hbehind
  · have heq : t = a := by
      simpa [hinner] using ht
    rw [heq]
    exact transGen_of_isChain h

/-- In a closed walk with at least two nodes every node has an edge to another
one. -/
theorem exists_other_of_isChain {a : α} {inner : List α} (hinner : inner ≠ [])
    (hnodup : (a :: inner).Nodup)
    (h : (a :: (inner ++ [a])).IsChain fun x y => Edge y x) {t : α}
    (ht : t ∈ a :: (inner ++ [a])) :
    ∃ u ∈ a :: (inner ++ [a]), u ≠ t ∧ Edge t u := by
  have hne : (a :: (inner ++ [a])).IsChain fun x y => x ≠ y := by
    rw [← List.cons_append, List.isChain_append]
    refine ⟨hnodup.isChain, List.isChain_singleton a, ?_⟩
    rintro x hx y hy rfl
    obtain rfl : a = x := by simpa using hy
    rw [List.getLast?_cons, Option.mem_def, Option.some.injEq] at hx
    have hmem := List.getLast_mem hinner
    rw [List.getLast?_eq_some_getLast hinner, Option.getD_some] at hx
    rw [hx] at hmem
    exact (List.nodup_cons.mp hnodup).1 hmem
  rw [List.isChain_iff_getElem] at h hne
  have htail : t ∈ inner ++ [a] := by
    simp only [List.mem_cons, List.mem_append] at ht ⊢
    tauto
  obtain ⟨i, hi, rfl⟩ := List.getElem_of_mem htail
  have hbound : i + 1 < (a :: (inner ++ [a])).length := by
    simp only [List.length_cons]
    omega
  exact ⟨_, List.getElem_mem _, hne i hbound, h i hbound⟩

/-! ## Nearer to a target -/

def ReachesIn (Edge : α → α → Prop) (targets : Set α) : Nat → α → Prop
  | 0, a => a ∈ targets
  | n + 1, a => ∃ b, Edge a b ∧ ReachesIn Edge targets n b

theorem exists_reachesIn_iff {targets : Set α} {a : α} :
    (∃ n, ReachesIn Edge targets n a) ↔
      ∃ t ∈ targets, ReflTransGen Edge a t := by
  constructor
  · rintro ⟨n, h⟩
    induction n generalizing a with
    | zero => exact ⟨a, h, .refl⟩
    | succ n ih =>
        obtain ⟨b, hedge, hb⟩ := h
        obtain ⟨t, ht, hreach⟩ := ih hb
        exact ⟨t, ht, .head hedge hreach⟩
  · rintro ⟨t, ht, hreach⟩
    induction hreach using ReflTransGen.head_induction_on with
    | refl => exact ⟨0, ht⟩
    | head hedge _ ih =>
        obtain ⟨n, hn⟩ := ih
        exact ⟨n + 1, _, hedge, hn⟩

open Classical in
noncomputable def distance (Edge : α → α → Prop) (targets : Set α) (a : α) :
    Nat :=
  if h : ∃ n, ReachesIn Edge targets n a then Nat.find h else 0

private theorem distance_le {targets : Set α} {a : α} {n : Nat}
    (h : ReachesIn Edge targets n a) : distance Edge targets a ≤ n := by
  classical
  rw [distance, dif_pos ⟨n, h⟩]
  exact Nat.find_min' _ h

private theorem reachesIn_distance {targets : Set α} {a : α}
    (h : ∃ t ∈ targets, ReflTransGen Edge a t) :
    ReachesIn Edge targets (distance Edge targets a) a := by
  classical
  have hreach := exists_reachesIn_iff.mpr h
  rw [distance, dif_pos hreach]
  exact Nat.find_spec hreach

/-- From a node that reaches the targets an edge leads nearer to them, unless
it is a target itself. -/
theorem mem_or_exists_nearer {targets : Set α} {a : α}
    (h : ∃ t ∈ targets, ReflTransGen Edge a t) :
    a ∈ targets ∨ ∃ b, Edge a b ∧ (∃ t ∈ targets, ReflTransGen Edge b t) ∧
      distance Edge targets b < distance Edge targets a := by
  have hmin := reachesIn_distance h
  cases hdistance : distance Edge targets a with
  | zero =>
      rw [hdistance] at hmin
      exact .inl hmin
  | succ n =>
      rw [hdistance] at hmin
      obtain ⟨b, hedge, hb⟩ := hmin
      have hle := distance_le hb
      exact .inr ⟨b, hedge, exists_reachesIn_iff.mp ⟨n, hb⟩, by omega⟩

end DistributedMemory.Library.Digraph
