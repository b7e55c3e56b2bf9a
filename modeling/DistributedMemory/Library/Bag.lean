import Mathlib.Data.List.Perm.Basic

/-!
# Taking one element out of a list

Messages in flight and threads that wait to go on are lists from which any
element may come next.  `pick` takes the element at an index and leaves the rest.
-/

namespace DistributedMemory.Library

universe u

variable {α : Type u}

def pick (l : List α) (i : Nat) : Option (α × List α) :=
  l[i]?.map fun a => (a, l.eraseIdx i)

theorem pick_of_getElem? {l : List α} {i : Nat} {a : α} (h : l[i]? = some a) :
    pick l i = some (a, l.eraseIdx i) := by
  rw [pick, h, Option.map_some]

theorem getElem?_of_pick {l rest : List α} {i : Nat} {a : α}
    (h : pick l i = some (a, rest)) : l[i]? = some a := by
  obtain ⟨b, hb, heq⟩ := Option.map_eq_some_iff.mp h
  obtain ⟨rfl, -⟩ := Prod.mk.inj heq
  exact hb

theorem pick_singleton {l rest : List α} {i : Nat} {a x : α} (hl : l = [x])
    (h : pick l i = some (a, rest)) : a = x ∧ rest = [] := by
  subst hl
  cases i with
  | zero =>
      cases h
      exact ⟨rfl, rfl⟩
  | succ i => cases h

theorem pick_perm {l rest : List α} {i : Nat} {a : α}
    (h : pick l i = some (a, rest)) : l.Perm (a :: rest) := by
  obtain ⟨b, hb, heq⟩ := Option.map_eq_some_iff.mp h
  obtain ⟨rfl, rfl⟩ := Prod.mk.inj heq
  obtain ⟨hlt, rfl⟩ := List.getElem?_eq_some_iff.mp hb
  exact (List.getElem_cons_eraseIdx_perm hlt).symm

theorem mem_pick {l rest : List α} {i : Nat} {a x : α}
    (h : pick l i = some (a, rest)) : x ∈ l ↔ x = a ∨ x ∈ rest := by
  rw [(pick_perm h).mem_iff, List.mem_cons]

theorem mem_of_pick {l rest : List α} {i : Nat} {a : α}
    (h : pick l i = some (a, rest)) : a ∈ l :=
  (mem_pick h).mpr (.inl rfl)

theorem pick_ne_nil {l rest : List α} {i : Nat} {a : α}
    (h : pick l i = some (a, rest)) : l ≠ [] :=
  List.ne_nil_of_mem (mem_of_pick h)

end DistributedMemory.Library
