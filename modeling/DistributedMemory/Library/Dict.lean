import Mathlib.Data.List.Nodup

/-!
# Insertion-ordered dictionaries

Finite maps that remember the order in which their keys were first inserted.
Assigning to a present key replaces its value in place; a new key goes to the
end.  No two items share a key, which the structure carries as a field.
-/

namespace DistributedMemory.Library

universe u v

structure Dict (κ : Type u) (υ : Type v) where
  items : List (κ × υ)
  nodupKeys : (items.map Prod.fst).Nodup
  deriving DecidableEq

namespace Dict

variable {κ : Type u} {υ : Type v} [DecidableEq κ]

def keys (d : Dict κ υ) : List κ := d.items.map Prod.fst

def empty : Dict κ υ := ⟨[], List.nodup_nil⟩

instance : Inhabited (Dict κ υ) := ⟨empty⟩

def get? (d : Dict κ υ) (k : κ) : Option υ :=
  (d.items.find? fun item => item.1 = k).map Prod.snd

def replace (items : List (κ × υ)) (k : κ) (v : υ) : List (κ × υ) :=
  items.map fun item => if item.1 = k then (k, v) else item

private theorem map_fst_replace (items : List (κ × υ)) (k : κ) (v : υ) :
    (replace items k v).map Prod.fst = items.map Prod.fst := by
  induction items with
  | nil => rfl
  | cons item rest ih =>
      simp only [replace, List.map_cons] at ih ⊢
      rw [ih]
      by_cases h : item.1 = k <;> simp [h]

def set (d : Dict κ υ) (k : κ) (v : υ) : Dict κ υ :=
  if h : k ∈ d.items.map Prod.fst then
    ⟨replace d.items k v, by rw [map_fst_replace]; exact d.nodupKeys⟩
  else
    ⟨d.items ++ [(k, v)], by
      rw [List.map_append, List.nodup_append]
      refine ⟨d.nodupKeys, by simp, ?_⟩
      rintro a ha b hb rfl
      simp only [List.map_cons, List.map_nil, List.mem_singleton] at hb
      exact h (hb ▸ ha)⟩

def pop (d : Dict κ υ) (k : κ) : Dict κ υ :=
  ⟨d.items.filter fun item => item.1 ≠ k,
    (List.Sublist.map Prod.fst List.filter_sublist).nodup d.nodupKeys⟩

/-! ## Lookup laws -/

@[simp] theorem get?_empty (k : κ) : (empty : Dict κ υ).get? k = none := rfl

omit [DecidableEq κ] in
theorem eq_of_items {d d' : Dict κ υ} (h : d.items = d'.items) : d = d' := by
  cases d
  cases d'
  cases h
  rfl

theorem mem_items_iff {d : Dict κ υ} {k : κ} {v : υ} :
    (k, v) ∈ d.items ↔ d.get? k = some v := by
  obtain ⟨items, hnodup⟩ := d
  simp only [get?]
  induction items with
  | nil => simp
  | cons item rest ih =>
      simp only [List.map_cons, List.nodup_cons] at hnodup
      obtain ⟨hfresh, hrest⟩ := hnodup
      by_cases h : item.1 = k
      · have habsent : (k, v) ∉ rest := fun hmem =>
          hfresh (h ▸ List.mem_map_of_mem (f := Prod.fst) hmem)
        rw [List.find?_cons_of_pos (by simpa using h)]
        simp only [List.mem_cons, habsent, or_false, Option.map_some,
          Option.some.injEq, Prod.ext_iff, h, true_and]
        exact eq_comm
      · rw [List.find?_cons_of_neg (by simpa using h), ← ih hrest]
        simp only [List.mem_cons, or_iff_right_iff_imp]
        rintro rfl
        exact absurd rfl h

theorem get?_eq_none_iff {d : Dict κ υ} {k : κ} :
    d.get? k = none ↔ k ∉ d.items.map Prod.fst := by
  rw [Option.eq_none_iff_forall_ne_some]
  simp only [ne_eq, ← mem_items_iff, List.mem_map, Prod.exists,
    exists_and_right, exists_eq_right, not_exists]

theorem get?_set_self (d : Dict κ υ) (k : κ) (v : υ) :
    (d.set k v).get? k = some v := by
  rw [← mem_items_iff, set]
  split
  · next h =>
      obtain ⟨item, hmem, hkey⟩ := List.mem_map.mp h
      exact List.mem_map.mpr ⟨item, hmem, by simp [hkey]⟩
  · simp

theorem get?_set_ne (d : Dict κ υ) {k k' : κ} (v : υ) (h : k' ≠ k) :
    (d.set k v).get? k' = d.get? k' := by
  have hiff : ∀ w, (d.set k v).get? k' = some w ↔ d.get? k' = some w := by
    intro w
    rw [← mem_items_iff, ← mem_items_iff, set]
    split
    · simp only [replace, List.mem_map]
      constructor
      · rintro ⟨item, hmem, heq⟩
        by_cases hk : item.1 = k
        · rw [if_pos hk] at heq
          exact absurd (congrArg Prod.fst heq).symm h
        · rw [if_neg hk] at heq
          exact heq ▸ hmem
      · intro hmem
        exact ⟨(k', w), hmem, by simp [h]⟩
    · simp [h]
  exact Option.ext hiff

theorem get?_set (d : Dict κ υ) (k k' : κ) (v : υ) :
    (d.set k v).get? k' = if k' = k then some v else d.get? k' := by
  by_cases h : k' = k
  · subst h
    rw [if_pos rfl, get?_set_self]
  · rw [if_neg h, get?_set_ne d v h]

private theorem replace_replace (items : List (κ × υ)) (k : κ) (v w : υ) :
    replace (replace items k v) k w = replace items k w := by
  simp only [replace, List.map_map]
  refine List.map_congr_left fun item _ => ?_
  by_cases h : item.1 = k <;> simp [h]

private theorem replace_of_fresh {items : List (κ × υ)} {k : κ}
    (h : k ∉ items.map Prod.fst) (v : υ) : replace items k v = items := by
  refine (List.map_congr_left fun item hitem => if_neg ?_).trans items.map_id
  rintro rfl
  exact h (List.mem_map_of_mem hitem)

theorem set_set (d : Dict κ υ) (k : κ) (v w : υ) :
    (d.set k v).set k w = d.set k w := by
  have hmem : k ∈ (d.set k v).items.map Prod.fst := by
    rw [← not_not (a := k ∈ _), ← get?_eq_none_iff, get?_set_self]
    simp
  have hitems : replace (d.set k v).items k w = (d.set k w).items := by
    unfold set
    split
    · exact replace_replace d.items k v w
    · next h =>
      change replace (d.items ++ [(k, v)]) k w = d.items ++ [(k, w)]
      simp only [replace, List.map_append, List.map_cons, List.map_nil, if_true]
      exact congrArg (· ++ [(k, w)]) (replace_of_fresh h w)
  rw [set, dif_pos hmem]
  cases hset : d.set k w
  simp only [hitems, hset]

theorem get?_pop (d : Dict κ υ) (k k' : κ) :
    (d.pop k).get? k' = if k' = k then none else d.get? k' := by
  refine Option.ext fun w => ?_
  rw [← mem_items_iff, pop]
  by_cases h : k' = k
  · simp [h]
  · simp [h, mem_items_iff]

theorem length_pop_lt {d : Dict κ υ} {k : κ} {v : υ} (h : d.get? k = some v) :
    (d.pop k).items.length < d.items.length := by
  refine List.length_filter_lt_length_iff_exists.mpr ⟨(k, v), ?_, by simp⟩
  exact mem_items_iff.mpr h

end Dict

end DistributedMemory.Library
