import Mathlib.Data.List.Induction
import Mathlib.Data.List.Sort

/-!
# Putting a numbered stream back in order

The items of a stream are numbered from one on and arrive in any order.  The next
item is handed over at once, together with what had come early and now follows
it; any other item waits in a buffer that is kept sorted by number.
-/

namespace DistributedMemory.Library

universe u

variable {α : Type u}

structure Reorder (α : Type u) where
  expected : Nat
  buffer : List (Nat × α)
  delivered : List (Nat × α)

namespace Reorder

def new : Reorder α := ⟨1, [], []⟩

def deliver (r : Reorder α) (item : Nat × α) : Reorder α :=
  { r with
    expected := r.expected + 1
    delivered := r.delivered ++ [item] }

/-- Hand over the first items of the buffer as long as they are next. -/
def flush : List (Nat × α) → Reorder α → Reorder α
  | [], r => r
  | item :: rest, r =>
      if item.1 = r.expected then
        flush rest ({ r with buffer := rest }.deliver item)
      else r

def sorted (items : List (Nat × α)) : List (Nat × α) :=
  items.insertionSort fun a b => a.1 ≤ b.1

def handle (r : Reorder α) (item : Nat × α) : Reorder α :=
  if item.1 = r.expected then flush r.buffer (r.deliver item)
  else { r with buffer := sorted (r.buffer ++ [item]) }

/-- The items up to a number have been handed over in order, and the rest of what
has arrived waits in order.  No number has arrived twice. -/
structure InOrder (arrived : List (Nat × α)) (r : Reorder α) : Prop where
  expected : r.expected = r.delivered.length + 1
  delivered : r.delivered.map Prod.fst = List.range' 1 r.delivered.length
  buffer : r.buffer.Pairwise fun a b => a.1 < b.1
  arrived : (r.delivered ++ r.buffer).Perm arrived

def Gap (r : Reorder α) : Prop := ∀ item ∈ r.buffer, r.expected < item.1

theorem inOrder_new : InOrder ([] : List (Nat × α)) new :=
  ⟨rfl, rfl, .nil, .refl _⟩

theorem gap_new : Gap (new : Reorder α) := by
  simp [Gap, new]

theorem sorted_perm (items : List (Nat × α)) : (sorted items).Perm items :=
  List.perm_insertionSort _ items

private theorem pairwise_sorted {items : List (Nat × α)}
    (hdistinct : items.Pairwise fun a b => a.1 ≠ b.1) :
    (sorted items).Pairwise fun a b => a.1 < b.1 := by
  have hle : (sorted items).Pairwise fun a b => a.1 ≤ b.1 := by
    have htotal : Std.Total fun a b : Nat × α => a.1 ≤ b.1 :=
      ⟨fun a b => Nat.le_total a.1 b.1⟩
    have htrans : IsTrans (Nat × α) fun a b => a.1 ≤ b.1 :=
      ⟨fun _ _ _ => Nat.le_trans⟩
    exact List.pairwise_insertionSort _ items
  have hne : (sorted items).Pairwise fun a b => a.1 ≠ b.1 :=
    (sorted_perm items).symm.pairwise hdistinct fun h => h.symm
  exact hle.imp₂ (fun _ _ => Nat.lt_of_le_of_ne) hne

section InOrder

variable {arrived : List (Nat × α)} {r : Reorder α}

theorem InOrder.lt_expected (h : InOrder arrived r) {item : Nat × α}
    (hitem : item ∈ r.delivered) : item.1 < r.expected := by
  have hmem := List.mem_map_of_mem (f := Prod.fst) hitem
  rw [h.delivered, List.mem_range'_1] at hmem
  have := h.expected
  omega

theorem InOrder.mem_of_lt (h : InOrder arrived r) {k : Nat} (hk : 1 ≤ k)
    (hlt : k < r.expected) : ∃ item ∈ arrived, item.1 = k := by
  have hmem : k ∈ r.delivered.map Prod.fst := by
    rw [h.delivered, List.mem_range'_1]
    have := h.expected
    omega
  obtain ⟨item, hitem, heq⟩ := List.mem_map.mp hmem
  exact ⟨item, h.arrived.subset (List.mem_append_left _ hitem), heq⟩

/-- Handing over the next item, which was in the buffer or has just come. -/
theorem InOrder.deliver (h : InOrder arrived r) {item : Nat × α}
    (hnext : item.1 = r.expected) {buffer : List (Nat × α)}
    (hbuffer : buffer.Pairwise fun a b => a.1 < b.1)
    {arrived' : List (Nat × α)}
    (harrived : (r.delivered ++ item :: buffer).Perm arrived') :
    InOrder arrived' ({ r with buffer := buffer }.deliver item) := by
  have hexpected := h.expected
  refine ⟨?_, ?_, hbuffer, ?_⟩
  · simp only [Reorder.deliver, List.length_append, List.length_singleton]
    omega
  · simp only [Reorder.deliver, List.map_append, List.length_append,
      List.length_singleton, List.range'_1_concat, h.delivered]
    rw [List.map_singleton, hnext, hexpected, Nat.add_comm]
  · simpa [Reorder.deliver] using harrived

theorem InOrder.flush {items : List (Nat × α)} (h : InOrder arrived r)
    (hitems : r.buffer = items) (hle : ∀ item ∈ items, r.expected ≤ item.1) :
    InOrder arrived (flush items r) ∧ Gap (Reorder.flush items r) := by
  induction items generalizing r with
  | nil =>
      refine ⟨h, fun item hitem => ?_⟩
      rw [Reorder.flush, hitems] at hitem
      cases hitem
  | cons item rest ih =>
      have hpairwise := h.buffer
      rw [hitems, List.pairwise_cons] at hpairwise
      rw [Reorder.flush]
      split
      · next heq =>
        have harrived := h.arrived
        rw [hitems] at harrived
        apply ih (h.deliver heq hpairwise.2 harrived) rfl
        intro later hlater
        have := hpairwise.1 later hlater
        simp only [Reorder.deliver]
        omega
      · next hne =>
        refine ⟨h, fun later hlater => ?_⟩
        have hfirst := hle item (by simp)
        rw [hitems, List.mem_cons] at hlater
        rcases hlater with rfl | hlater
        · omega
        · have := hpairwise.1 later hlater
          omega

theorem InOrder.handle (h : InOrder arrived r) (hgap : Gap r)
    {item : Nat × α} (hpos : 1 ≤ item.1)
    (hfresh : ∀ old ∈ arrived, old.1 ≠ item.1) :
    InOrder (arrived ++ [item]) (r.handle item) ∧ Gap (r.handle item) := by
  have hperm : (r.delivered ++ item :: r.buffer).Perm (arrived ++ [item]) :=
    List.perm_middle.trans
      ((h.arrived.cons item).trans (List.perm_append_singleton item _).symm)
  rw [Reorder.handle]
  split
  · next heq =>
    apply (h.deliver heq h.buffer hperm).flush rfl
    intro later hlater
    have := hgap later hlater
    simp only [Reorder.deliver]
    omega
  · next hne =>
    have hdistinct : (r.buffer ++ [item]).Pairwise fun a b => a.1 ≠ b.1 := by
      rw [List.pairwise_append]
      refine ⟨h.buffer.imp fun hlt => Nat.ne_of_lt hlt, by simp, ?_⟩
      intro old hold b hb
      rw [List.mem_singleton.mp hb]
      exact hfresh old (h.arrived.subset (List.mem_append_right _ hold))
    have hsorted := sorted_perm (r.buffer ++ [item])
    refine ⟨⟨h.expected, h.delivered, pairwise_sorted hdistinct, ?_⟩, ?_⟩
    · apply (hsorted.append_left r.delivered).trans
      rw [← List.append_assoc]
      exact h.arrived.append_right [item]
    · intro later hlater
      have hlater : later ∈ r.buffer ++ [item] := hsorted.subset hlater
      rcases List.mem_append.mp hlater with hlater | hlater
      · exact hgap later hlater
      · obtain rfl := List.mem_singleton.mp hlater
        -- A smaller number has been handed over already.
        rcases Nat.lt_or_ge later.1 r.expected with hlt | hge
        · obtain ⟨old, hold, heq⟩ := h.mem_of_lt hpos hlt
          exact absurd heq (hfresh old hold)
        · exact Nat.lt_of_le_of_ne hge (Ne.symm hne)

/-- When the numbers that have arrived leave no hole, everything is handed over. -/
theorem InOrder.complete (h : InOrder arrived r) (hgap : Gap r)
    (hnumbers : ∀ item ∈ arrived, ∀ k, 1 ≤ k → k < item.1 →
      ∃ earlier ∈ arrived, earlier.1 = k) : r.buffer = [] := by
  rw [List.eq_nil_iff_forall_not_mem]
  intro item hitem
  have harrived := h.arrived.subset (List.mem_append_right _ hitem)
  have hpos : 1 ≤ r.expected := by
    rw [h.expected]
    omega
  obtain ⟨next, hnext, heq⟩ :=
    hnumbers item harrived r.expected hpos (hgap item hitem)
  rcases List.mem_append.mp (h.arrived.symm.subset hnext) with hmem | hmem
  · have := h.lt_expected hmem
    omega
  · have := hgap next hmem
    omega

/-- All numbers up to `k` have arrived exactly when they have been handed over. -/
theorem InOrder.le_length_iff (h : InOrder arrived r) (hgap : Gap r) (k : Nat) :
    k ≤ r.delivered.length ↔
      ∀ j, 1 ≤ j → j ≤ k → ∃ item ∈ arrived, item.1 = j := by
  have hexpected := h.expected
  constructor
  · intro hk j hj hle
    exact h.mem_of_lt hj (by omega)
  · intro hall
    by_contra hlt
    obtain ⟨item, hitem, heq⟩ := hall r.expected (by omega) (by omega)
    rcases List.mem_append.mp (h.arrived.symm.subset hitem) with hmem | hmem
    · have := h.lt_expected hmem
      omega
    · have := hgap item hmem
      omega

theorem InOrder.delivered_perm (h : InOrder arrived r) (hgap : Gap r) :
    r.delivered.Perm (arrived.filter fun item => item.1 ≤ r.delivered.length) := by
  have hexpected := h.expected
  refine .trans (.of_eq ?_) (h.arrived.filter _)
  rw [List.filter_append, List.filter_eq_self.mpr, List.filter_eq_nil_iff.mpr,
    List.append_nil]
  · intro item hitem
    have := hgap item hitem
    simp only [decide_eq_true_eq]
    omega
  · intro item hitem
    have := h.lt_expected hitem
    simp only [decide_eq_true_eq]
    omega

theorem InOrder.buffer_perm (h : InOrder arrived r) (hgap : Gap r) :
    r.buffer.Perm (arrived.filter fun item => r.delivered.length < item.1) := by
  have hexpected := h.expected
  refine .trans (.of_eq ?_) (h.arrived.filter _)
  rw [List.filter_append, List.filter_eq_nil_iff.mpr, List.filter_eq_self.mpr,
    List.nil_append]
  · intro item hitem
    have := hgap item hitem
    simp only [decide_eq_true_eq]
    omega
  · intro item hitem
    have := h.lt_expected hitem
    simp only [decide_eq_true_eq]
    omega

theorem inOrder_foldl {items : List (Nat × α)} (hpos : ∀ item ∈ items, 1 ≤ item.1)
    (hdistinct : items.Pairwise fun a b => a.1 ≠ b.1) :
    InOrder items (items.foldl handle new) ∧ Gap (items.foldl handle new) := by
  induction items using List.reverseRecOn with
  | nil => exact ⟨inOrder_new, gap_new⟩
  | append_singleton items item ih =>
      rw [List.pairwise_append] at hdistinct
      obtain ⟨horder, hgap⟩ := ih
        (fun old hold => hpos old (List.mem_append_left _ hold)) hdistinct.1
      rw [List.foldl_append]
      apply horder.handle hgap (hpos item (by simp))
      exact fun old hold => hdistinct.2.2 old hold item (by simp)

theorem InOrder.pairwise_delivered (h : InOrder arrived r) :
    r.delivered.Pairwise fun a b => a.1 < b.1 := by
  rw [← List.pairwise_map, h.delivered]
  exact List.pairwise_lt_range'

end InOrder

/-- Two lists of the same items, both in the order of their numbers, are equal. -/
theorem eq_of_perm {items items' : List (Nat × α)} (hperm : items.Perm items')
    (h : items.Pairwise fun a b => a.1 < b.1)
    (h' : items'.Pairwise fun a b => a.1 < b.1) : items = items' := by
  refine hperm.eq_of_pairwise ?_ h h'
  intro a b _ _ hab hba
  exact absurd hba (Nat.lt_asymm hab)

end Reorder

end DistributedMemory.Library
