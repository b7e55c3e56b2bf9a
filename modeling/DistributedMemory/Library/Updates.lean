import Mathlib.Data.List.Basic
import Mathlib.Logic.Function.Basic

/-!
# Sequences of updates to a map

A list of updates, each a key with its new value, is carried out from left to
right.  What it leaves at a key is the value of the last update of that key, and
`latest` is the calculus of that value: over concatenation, over one update, and
for a list all of whose updates of the key agree.  Carrying a list out a second
time changes nothing, even when the first time was cut short.
-/

namespace DistributedMemory.Library

universe u v

variable {κ : Type u} {υ : Type v} [DecidableEq κ]

def assign (us : List (κ × υ)) (σ : κ → υ) : κ → υ :=
  us.foldl (fun σ u => Function.update σ u.1 u.2) σ

def latest : List (κ × υ) → κ → Option υ
  | [], _ => none
  | u :: rest, k => (latest rest k).or (if u.1 = k then some u.2 else none)

@[simp] theorem latest_nil (k : κ) : latest ([] : List (κ × υ)) k = none := rfl

@[simp] theorem latest_singleton (u : κ × υ) (k : κ) :
    latest [u] k = if u.1 = k then some u.2 else none := by
  simp [latest]

theorem latest_append (us vs : List (κ × υ)) (k : κ) :
    latest (us ++ vs) k = (latest vs k).or (latest us k) := by
  induction us with
  | nil => simp
  | cons u rest ih => rw [List.cons_append, latest, ih, Option.or_assoc, latest]

theorem assign_apply (us : List (κ × υ)) (σ : κ → υ) (k : κ) :
    assign us σ k = (latest us k).getD (σ k) := by
  induction us generalizing σ with
  | nil => rfl
  | cons u rest ih =>
      have hstep : assign (u :: rest) σ =
          assign rest (Function.update σ u.1 u.2) := rfl
      rw [hstep, ih, latest]
      cases latest rest k with
      | some v => rfl
      | none =>
          by_cases h : u.1 = k
          · subst h
            simp
          · simp [h, Function.update_of_ne (Ne.symm h)]

theorem latest_eq_none_iff {us : List (κ × υ)} {k : κ} :
    latest us k = none ↔ ∀ u ∈ us, u.1 ≠ k := by
  induction us with
  | nil => simp
  | cons u rest ih =>
      simp only [latest, Option.or_eq_none_iff, ih, List.forall_mem_cons]
      by_cases h : u.1 = k <;> simp [h]

theorem mem_of_latest {us : List (κ × υ)} {k : κ} {v : υ}
    (h : latest us k = some v) : (k, v) ∈ us := by
  induction us with
  | nil => simp at h
  | cons u rest ih =>
      rw [latest, Option.or_eq_some_iff] at h
      rcases h with h | ⟨-, h⟩
      · exact List.mem_cons_of_mem _ (ih h)
      · split at h
        · next heq =>
          cases h
          exact heq ▸ List.mem_cons_self
        · cases h

theorem exists_latest {us : List (κ × υ)} {u : κ × υ} (h : u ∈ us) :
    ∃ v, latest us u.1 = some v := by
  rw [← Option.ne_none_iff_exists', Ne, latest_eq_none_iff]
  exact fun hnone => hnone u h rfl

/-- When all updates of a key agree, it is that value that they leave. -/
theorem latest_of_agree {us : List (κ × υ)} {k : κ} {v : υ}
    (hall : ∀ w, (k, w) ∈ us → w = v) (hsome : ∃ w, (k, w) ∈ us) :
    latest us k = some v := by
  obtain ⟨w, hw⟩ := hsome
  obtain ⟨x, hx⟩ := exists_latest hw
  rw [hx, hall x (mem_of_latest hx)]

theorem assign_assign (us : List (κ × υ)) {first : List (κ × υ)}
    (h : ∀ u ∈ first, ∃ v ∈ us, v.1 = u.1) (σ : κ → υ) :
    assign us (assign first σ) = assign us σ := by
  funext k
  rw [assign_apply us, assign_apply us σ]
  cases hlast : latest us k with
  | some v => rfl
  | none =>
      have hpart : latest first k = none := by
        rw [latest_eq_none_iff]
        rintro u hu rfl
        obtain ⟨v, hv, heq⟩ := h u hu
        exact latest_eq_none_iff.mp hlast v hv heq
      rw [Option.getD_none, Option.getD_none, assign_apply, hpart,
        Option.getD_none]

/-- Part of the updates, carried out before all of them, leaves nothing. -/
theorem assign_take (us : List (κ × υ)) (n : Nat) (σ : κ → υ) :
    assign us (assign (us.take n) σ) = assign us σ :=
  assign_assign us (fun u hu => ⟨u, List.mem_of_mem_take hu, rfl⟩) σ

end DistributedMemory.Library
