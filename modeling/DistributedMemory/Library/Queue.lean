import Mathlib.Data.Finset.Insert
import Mathlib.Data.List.Basic

/-!
# Queues in which one key may wait several times

The place of a key in a queue is that of its first item.  `keepFirst` drops what
repeats a key and what belongs to a given set of keys; the keys that are left stand
in the order they had.
-/

namespace DistributedMemory.Library.Queue

universe u v

variable {α : Type u} {κ : Type v} [DecidableEq κ] (key : α → κ)

/-- The first item of key `a` stands before every item of key `b`. -/
def Precedes (queue : List α) (a b : κ) : Prop :=
  queue.findIdx (fun item => key item = a) < queue.findIdx fun item => key item = b

instance (queue : List α) (a b : κ) : Decidable (Precedes key queue a b) :=
  inferInstanceAs (Decidable (_ < _))

def keepFirst (seen : Finset κ) : List α → List α
  | [] => []
  | item :: rest =>
      if key item ∈ seen then keepFirst seen rest
      else item :: keepFirst (insert (key item) seen) rest

variable {key}

theorem precedes_cons {item : α} {rest : List α} {a b : κ} :
    Precedes key (item :: rest) a b ↔
      if key item = a then a ≠ b else key item ≠ b ∧ Precedes key rest a b := by
  unfold Precedes
  rw [List.findIdx_cons, List.findIdx_cons]
  by_cases ha : key item = a
  · subst ha
    by_cases hb : key item = b
    · simp [hb]
    · simp [hb]
  · by_cases hb : key item = b
    · subst hb
      simp [ha]
    · simp [ha, hb]

/-- Who stands before a key of the front has a place in the front too. -/
theorem mem_front_of_precedes {front behind : List α} {a b : κ}
    (h : Precedes key (front ++ behind) a b) (hb : b ∈ front.map key) :
    a ∈ front.map key := by
  induction front with
  | nil => cases hb
  | cons item front ih =>
      rw [List.cons_append, precedes_cons] at h
      rw [List.map_cons, List.mem_cons] at hb ⊢
      by_cases ha : key item = a
      · exact .inl ha.symm
      · rw [if_neg ha] at h
        have hrest := hb.resolve_left fun heq => h.1 heq.symm
        exact .inr (ih h.2 hrest)

theorem Precedes.append {queue : List α} {a b : κ} (h : Precedes key queue a b)
    (more : List α) : Precedes key (queue ++ more) a b := by
  induction queue with
  | nil => exact absurd h (Nat.lt_irrefl 0)
  | cons item rest ih =>
      rw [List.cons_append, precedes_cons]
      rw [precedes_cons] at h
      split
      · next ha => rwa [if_pos ha] at h
      · next ha =>
        rw [if_neg ha] at h
        exact ⟨h.1, ih h.2⟩

theorem Precedes.mem_keys {queue : List α} {a b : κ} (h : Precedes key queue a b) :
    a ∈ queue.map key := by
  induction queue with
  | nil => exact absurd h (Nat.lt_irrefl 0)
  | cons item rest ih =>
      rw [precedes_cons] at h
      rw [List.map_cons, List.mem_cons]
      split at h
      · next ha => exact .inl ha.symm
      · exact .inr (ih h.2)

theorem Precedes.behind {front behind : List α} {a b : κ}
    (h : Precedes key (front ++ behind) a b) (ha : a ∉ front.map key) :
    Precedes key behind a b := by
  induction front with
  | nil => exact h
  | cons item front ih =>
      rw [List.map_cons, List.mem_cons, not_or] at ha
      rw [List.cons_append, precedes_cons, if_neg (Ne.symm ha.1)] at h
      exact ih h.2 ha.2

theorem keepFirst_sublist (seen : Finset κ) (queue : List α) :
    (keepFirst key seen queue).Sublist queue := by
  induction queue generalizing seen with
  | nil => exact List.Sublist.refl []
  | cons item rest ih =>
      rw [keepFirst]
      split
      · exact (ih seen).cons item
      · exact (ih _).cons_cons item

/-- The keys that are left are those of the queue that are not in `seen`. -/
theorem mem_keys_keepFirst {seen : Finset κ} {queue : List α} {k : κ} :
    k ∈ (keepFirst key seen queue).map key ↔ k ∈ queue.map key ∧ k ∉ seen := by
  induction queue generalizing seen with
  | nil => simp [keepFirst]
  | cons item rest ih =>
      rw [keepFirst, List.map_cons, List.mem_cons]
      by_cases hseen : key item ∈ seen
      · rw [if_pos hseen, ih]
        refine and_congr_left fun hk => (or_iff_right ?_).symm
        rintro rfl
        exact hk hseen
      · rw [if_neg hseen, List.map_cons, List.mem_cons, ih, Finset.mem_insert]
        by_cases hitem : k = key item
        · subst hitem
          simp [hseen]
        · simp [hitem]

theorem head?_keepFirst (seen : Finset κ) (queue : List α) :
    (keepFirst key seen queue).head? = queue.find? fun item => key item ∉ seen := by
  induction queue with
  | nil => rfl
  | cons item rest ih =>
      rw [keepFirst]
      by_cases hseen : key item ∈ seen
      · simp [hseen, ih]
      · simp [hseen]

theorem keepFirst_take_one_append (seen : Finset κ) (queue : List α) :
    keepFirst key seen (queue.take 1 ++ queue) = keepFirst key seen queue := by
  cases queue with
  | nil => rfl
  | cons item rest =>
      change keepFirst key seen (item :: item :: rest) = _
      rw [keepFirst]
      by_cases hseen : key item ∈ seen
      · rw [if_pos hseen]
      · rw [if_neg hseen, keepFirst, if_pos (Finset.mem_insert_self _ _), keepFirst,
          if_neg hseen]

theorem precedes_keepFirst {seen : Finset κ} {a b : κ} (ha : a ∉ seen) (hb : b ∉ seen)
    (queue : List α) :
    Precedes key (keepFirst key seen queue) a b ↔ Precedes key queue a b := by
  induction queue generalizing seen with
  | nil => rfl
  | cons item rest ih =>
      rw [keepFirst]
      by_cases hseen : key item ∈ seen
      · have hne (k : κ) (hk : k ∉ seen) : key item ≠ k := by
          rintro rfl
          exact hk hseen
        rw [if_pos hseen, ih ha hb, precedes_cons, if_neg (hne a ha)]
        exact (and_iff_right (hne b hb)).symm
      · rw [if_neg hseen, precedes_cons, precedes_cons]
        by_cases hitem : key item = a
        · rw [if_pos hitem, if_pos hitem]
        · rw [if_neg hitem, if_neg hitem]
          refine and_congr_right fun hother => ih ?_ ?_
          · simp [ha, Ne.symm hitem]
          · simp [hb, Ne.symm hother]

end DistributedMemory.Library.Queue
