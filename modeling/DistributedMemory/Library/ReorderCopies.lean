import DistributedMemory.Library.Reorder

/-!
# An item too many in a numbered stream

A number that comes a second time waits in the buffer for a turn that is past, and
what is sorted behind it waits for good: the buffer is only looked at from its
head.  Two streams are compared that differ by one such item.
-/

namespace DistributedMemory.Library

universe u

variable {α : Type u}

namespace Reorder

/-- The items at the head of the buffer whose numbers follow one another from `k`
on. -/
def inTurn : Nat → List (Nat × α) → List (Nat × α)
  | _, [] => []
  | k, item :: rest => if item.1 = k then item :: inTurn (k + 1) rest else []

def handed (r : Reorder α) (item : Nat × α) : List (Nat × α) :=
  if item.1 = r.expected then item :: inTurn (r.expected + 1) r.buffer else []

theorem handed_eq_nil_iff {r : Reorder α} {item : Nat × α} :
    r.handed item = [] ↔ item.1 ≠ r.expected := by
  unfold handed
  split
  · next heq => simp [heq]
  · next hne => simp [hne]

theorem inTurn_eq_take (k : Nat) (items : List (Nat × α)) :
    inTurn k items = items.take (inTurn k items).length := by
  induction items generalizing k with
  | nil => rfl
  | cons item rest ih =>
      rw [inTurn]
      split
      · rw [List.length_cons, List.take_succ_cons, ← ih]
      · rfl

theorem inTurn_lt {k : Nat} {items : List (Nat × α)} {item : Nat × α}
    (h : item ∈ inTurn k items) :
    k ≤ item.1 ∧ item.1 < k + (inTurn k items).length := by
  induction items generalizing k with
  | nil => cases h
  | cons first rest ih =>
      rw [inTurn] at h ⊢
      split at h
      · next heq =>
        rw [if_pos heq, List.length_cons]
        rcases List.mem_cons.mp h with rfl | h
        · omega
        · have := ih h
          omega
      · cases h

theorem inTurn_append (k : Nat) (items later : List (Nat × α)) :
    inTurn k (items ++ later) = inTurn k items ++
      if (inTurn k items).length = items.length then
        inTurn (k + items.length) later
      else [] := by
  induction items generalizing k with
  | nil => simp [inTurn]
  | cons item rest ih =>
      rw [List.cons_append, inTurn, inTurn]
      split
      · have hlen : k + (rest.length + 1) = k + 1 + rest.length := by omega
        simp [ih, hlen]
      · simp

private theorem flush_eq {items : List (Nat × α)} {r : Reorder α}
    (hitems : r.buffer = items) :
    flush items r =
      ⟨r.expected + (inTurn r.expected items).length,
        items.drop (inTurn r.expected items).length,
        r.delivered ++ inTurn r.expected items⟩ := by
  induction items generalizing r with
  | nil =>
      obtain ⟨expected, buffer, delivered⟩ := r
      subst hitems
      simp [flush, inTurn]
  | cons item rest ih =>
      rw [flush, inTurn]
      split
      · rw [ih rfl]
        simp only [deliver, List.length_cons, List.drop_succ_cons,
          List.append_assoc, List.cons_append, List.nil_append, Reorder.mk.injEq,
          and_self, and_true]
        omega
      · obtain ⟨expected, buffer, delivered⟩ := r
        subst hitems
        simp

theorem handle_eq (r : Reorder α) (item : Nat × α) :
    r.handle item =
      ⟨r.expected + (r.handed item).length,
        if item.1 = r.expected then r.buffer.drop ((r.handed item).length - 1)
        else sorted (r.buffer ++ [item]),
        r.delivered ++ r.handed item⟩ := by
  unfold handle handed
  split
  · have hflush := flush_eq (r := r.deliver item) rfl
    refine hflush.trans ?_
    simp only [deliver, List.length_cons, Nat.add_sub_cancel, List.append_assoc,
      List.cons_append, List.nil_append, Reorder.mk.injEq, and_self, and_true]
    omega
  · simp

theorem delivered_handle (r : Reorder α) (item : Nat × α) :
    (r.handle item).delivered = r.delivered ++ r.handed item := by
  rw [handle_eq]

/-- The place of an item among sorted ones: behind those with its own number. -/
def place (item : Nat × α) : List (Nat × α) → List (Nat × α)
  | [] => [item]
  | first :: rest =>
      if first.1 ≤ item.1 then first :: place item rest
      else item :: first :: rest

theorem sorted_concat {items : List (Nat × α)}
    (h : items.Pairwise fun a b => a.1 ≤ b.1) (item : Nat × α) :
    sorted (items ++ [item]) = place item items := by
  induction items with
  | nil => rfl
  | cons first rest ih =>
      obtain ⟨hfirst, hrest⟩ := List.pairwise_cons.mp h
      have hsorted : sorted (first :: rest ++ [item]) =
          (place item rest).orderedInsert (fun a b => a.1 ≤ b.1) first := by
        rw [← ih hrest]
        rfl
      rw [hsorted, place]
      cases rest with
      | nil =>
          rw [place, List.orderedInsert_cons]
          rfl
      | cons second rest =>
          have hsecond := hfirst second (by simp)
          rw [place]
          split
          · next hle =>
            rw [if_pos (Nat.le_trans hsecond hle), List.orderedInsert_cons,
              if_pos hsecond]
          · rw [List.orderedInsert_cons, List.orderedInsert_cons, if_pos hsecond]

theorem place_append_of_lt {item : Nat × α} {high : List (Nat × α)}
    (h : ∀ later ∈ high, item.1 < later.1) (low : List (Nat × α)) :
    place item (low ++ high) = place item low ++ high := by
  induction low with
  | nil =>
      cases high with
      | nil => rfl
      | cons later high =>
          have := h later (by simp)
          exact if_neg (by omega)
  | cons first low ih =>
      rw [List.cons_append, place, place, ih]
      split <;> rfl

theorem place_append_of_le {item : Nat × α} {low : List (Nat × α)}
    (h : ∀ earlier ∈ low, earlier.1 ≤ item.1) (high : List (Nat × α)) :
    place item (low ++ high) = low ++ place item high := by
  induction low with
  | nil => rfl
  | cons first low ih =>
      rw [List.cons_append, place, if_pos (h first (by simp)),
        ih fun earlier hearlier => h earlier (List.mem_cons_of_mem _ hearlier)]
      rfl

theorem mem_place {item other : Nat × α} {items : List (Nat × α)} :
    other ∈ place item items ↔ other = item ∨ other ∈ items := by
  induction items with
  | nil => simp [place]
  | cons first rest ih =>
      rw [place]
      split
      · rw [List.mem_cons, List.mem_cons, ih]
        exact or_left_comm
      · exact List.mem_cons

theorem pairwise_place {items : List (Nat × α)}
    (h : items.Pairwise fun a b => a.1 ≤ b.1) (item : Nat × α) :
    (place item items).Pairwise fun a b => a.1 ≤ b.1 := by
  induction items with
  | nil => exact List.pairwise_singleton _ _
  | cons first rest ih =>
      obtain ⟨hfirst, hrest⟩ := List.pairwise_cons.mp h
      rw [place]
      split
      · next hle =>
        refine List.pairwise_cons.mpr ⟨fun other hother => ?_, ih hrest⟩
        rcases mem_place.mp hother with rfl | hother
        · exact hle
        · exact hfirst other hother
      · next hgt =>
        refine List.pairwise_cons.mpr ⟨fun other hother => ?_, h⟩
        rcases List.mem_cons.mp hother with rfl | hother
        · omega
        · have := hfirst other hother
          omega

private theorem place_split {items : List (Nat × α)}
    (h : items.Pairwise fun a b => a.1 ≤ b.1) (item : Nat × α) :
    ∃ low high, items = low ++ high ∧ place item items = low ++ item :: high ∧
      (∀ i ∈ low, i.1 ≤ item.1) ∧ ∀ i ∈ high, item.1 < i.1 := by
  induction items with
  | nil => exact ⟨[], [], rfl, rfl, by simp, by simp⟩
  | cons first rest ih =>
      obtain ⟨hfirst, hrest⟩ := List.pairwise_cons.mp h
      rw [place]
      split
      · next hle =>
        obtain ⟨low, high, hsplit, hplace, hlow, hhigh⟩ := ih hrest
        refine ⟨first :: low, high, by rw [hsplit]; rfl, by rw [hplace]; rfl, ?_,
          hhigh⟩
        exact List.forall_mem_cons.mpr ⟨hle, hlow⟩
      · next hgt =>
        refine ⟨[], first :: rest, rfl, rfl, by simp, ?_⟩
        refine List.forall_mem_cons.mpr ⟨by omega, fun i hi => ?_⟩
        have := hfirst i hi
        omega

/-! ## Runs of arrivals -/

theorem expected_foldl (items : List (Nat × α)) (r : Reorder α)
    (h : r.expected = r.delivered.length + 1) :
    (items.foldl Reorder.handle r).expected =
      (items.foldl Reorder.handle r).delivered.length + 1 := by
  induction items generalizing r with
  | nil => exact h
  | cons item rest ih =>
      apply ih
      rw [handle_eq, List.length_append]
      simp only
      omega

theorem delivered_foldl_le (items : List (Nat × α)) (r : Reorder α) :
    r.delivered.length ≤ (items.foldl Reorder.handle r).delivered.length := by
  induction items generalizing r with
  | nil => exact Nat.le_refl _
  | cons item rest ih =>
      have := ih (r.handle item)
      rw [delivered_handle, List.length_append] at this
      rw [List.foldl_cons]
      omega

theorem delivered_foldl_of_ne {items : List (Nat × α)} {r : Reorder α}
    (h : ∀ item ∈ items, item.1 ≠ r.expected) :
    (items.foldl Reorder.handle r).delivered = r.delivered := by
  induction items generalizing r with
  | nil => rfl
  | cons item rest ih =>
      obtain ⟨hne, hrest⟩ := List.forall_mem_cons.mp h
      have hhandle : r.handle item =
          { r with buffer := sorted (r.buffer ++ [item]) } := if_neg hne
      rw [List.foldl_cons, hhandle]
      exact ih hrest

private theorem pairwise_handle {r : Reorder α}
    (h : r.buffer.Pairwise fun a b => a.1 ≤ b.1) (item : Nat × α) :
    (r.handle item).buffer.Pairwise fun a b => a.1 ≤ b.1 := by
  rw [handle_eq]
  dsimp only
  split
  · exact h.drop
  · rw [sorted_concat h]
    exact pairwise_place h item

theorem pairwise_foldl (items : List (Nat × α)) :
    (items.foldl Reorder.handle new).buffer.Pairwise fun a b => a.1 ≤ b.1 := by
  induction items using List.reverseRecOn with
  | nil => exact .nil
  | append_singleton items item ih =>
      rw [List.foldl_append]
      exact pairwise_handle ih item

def Kept (r : Reorder α) (item : Nat × α) : Prop :=
  item.1 < r.expected ∨ item ∈ r.buffer

theorem Kept.handle {r : Reorder α} {old : Nat × α} (h : Kept r old)
    (item : Nat × α) : Kept (r.handle item) old := by
  rw [handle_eq]
  rcases h with hlt | hmem
  · exact .inl (Nat.lt_add_right _ hlt)
  · by_cases heq : item.1 = r.expected
    · simp only [Kept, if_pos heq, handed, List.length_cons, Nat.add_sub_cancel]
      rw [← List.take_append_drop (inTurn (r.expected + 1) r.buffer).length
        r.buffer, List.mem_append, ← inTurn_eq_take] at hmem
      refine hmem.imp_left fun hturn => ?_
      have := inTurn_lt hturn
      omega
    · simp only [Kept, if_neg heq]
      right
      exact (sorted_perm _).symm.subset (List.mem_append_left _ hmem)

private theorem kept_handle (r : Reorder α) (item : Nat × α) :
    Kept (r.handle item) item := by
  rw [handle_eq]
  by_cases heq : item.1 = r.expected
  · left
    simp only [handed, if_pos heq, List.length_cons]
    omega
  · right
    simp only [if_neg heq]
    exact (sorted_perm _).symm.subset (by simp)

theorem kept_foldl {items : List (Nat × α)} {item : Nat × α} (h : item ∈ items) :
    Kept (items.foldl Reorder.handle new) item := by
  induction items using List.reverseRecOn with
  | nil => cases h
  | append_singleton items last ih =>
      rw [List.foldl_append]
      rcases List.mem_append.mp h with h | h
      · exact (ih h).handle last
      · rw [List.mem_singleton.mp h]
        exact kept_handle _ last

/-! ## One item too many -/

section Doubled

variable {q : Nat} {r r' : Reorder α}

/-- The second stream has one more item numbered `q` in its buffer, behind another
with this number as long as that has not been handed over. -/
structure Doubled (q : Nat) (r r' : Reorder α) : Prop where
  expected : r'.expected = r.expected
  delivered : r'.delivered = r.delivered
  sorted : r.buffer.Pairwise fun a b => a.1 ≤ b.1
  buffer : ∃ low copy high, r.buffer = low ++ high ∧
    r'.buffer = low ++ copy :: high ∧ copy.1 = q ∧
    (∀ item ∈ low, item.1 ≤ q) ∧ (∀ item ∈ high, q ≤ item.1) ∧
    (r.expected ≤ q → ∃ item ∈ low, item.1 = q)

section Blocked

variable {k : Nat} {low : List (Nat × α)}

theorem lt_of_inTurn_eq (hwait : k ≤ q → ∃ item ∈ low, item.1 = q)
    (hall : (inTurn k low).length = low.length) :
    q < k + low.length := by
  rcases Nat.lt_or_ge q k with hlt | hge
  · omega
  · obtain ⟨item, hitem, heq⟩ := hwait hge
    have htake : inTurn k low = low := by
      rw [inTurn_eq_take, hall, List.take_length]
    rw [← htake] at hitem
    have := inTurn_lt hitem
    omega

theorem inTurn_blocked (hwait : k ≤ q → ∃ item ∈ low, item.1 = q)
    {copy : Nat × α} (hcopy : copy.1 = q) (high : List (Nat × α)) :
    inTurn k (low ++ copy :: high) = inTurn k low := by
  rw [inTurn_append]
  split
  · next hall =>
    have := lt_of_inTurn_eq hwait hall
    rw [inTurn, if_neg (by omega), List.append_nil]
  · rw [List.append_nil]

/-- Without the copy the items numbered above `q` go on to be handed over. -/
theorem filter_inTurn (hwait : k ≤ q → ∃ item ∈ low, item.1 = q)
    (hlow : ∀ item ∈ low, item.1 ≤ q) (high : List (Nat × α)) :
    (inTurn k (low ++ high)).filter (fun item => item.1 ≤ q) = inTurn k low := by
  have hkeep : (inTurn k low).filter (fun item => item.1 ≤ q) = inTurn k low := by
    rw [List.filter_eq_self]
    intro item hitem
    rw [inTurn_eq_take] at hitem
    simpa using hlow item (List.mem_of_mem_take hitem)
  rw [inTurn_append, List.filter_append, hkeep]
  split
  · next hall =>
    have hlt := lt_of_inTurn_eq hwait hall
    have hnone : (inTurn (k + low.length) high).filter
        (fun item => item.1 ≤ q) = [] := by
      rw [List.filter_eq_nil_iff]
      intro item hitem
      have := (inTurn_lt hitem).1
      simp only [decide_eq_true_eq]
      omega
    rw [hnone, List.append_nil]
  · rw [List.filter_nil, List.append_nil]

end Blocked

/-- The items handed over with the copy are those numbered at most `q`. -/
theorem Doubled.handed_eq (h : Doubled q r r') (item : Nat × α) :
    r'.handed item = if item.1 = r.expected then
      item :: (inTurn (r.expected + 1) r.buffer).filter (fun i => i.1 ≤ q)
    else [] := by
  obtain ⟨low, copy, high, hbuffer, hbuffer', hcopy, hlow, _, hwait⟩ := h.buffer
  have hwait' : r.expected + 1 ≤ q → ∃ item ∈ low, item.1 = q :=
    fun hle => hwait (by omega)
  rw [handed, h.expected, hbuffer', hbuffer, inTurn_blocked hwait' hcopy,
    filter_inTurn hwait' hlow]

/-- The arrival of an item hands over no item numbered above `q` that was
waiting. -/
def Within (q : Nat) (r : Reorder α) (item : Nat × α) : Prop :=
  item.1 = r.expected → ∀ i ∈ inTurn (r.expected + 1) r.buffer, i.1 ≤ q

instance (q : Nat) (r : Reorder α) (item : Nat × α) :
    Decidable (Within q r item) :=
  inferInstanceAs (Decidable (_ → _))

theorem Doubled.handed_of_within (h : Doubled q r r') {item : Nat × α}
    (hwithin : Within q r item) : r'.handed item = r.handed item := by
  rw [h.handed_eq, handed]
  split
  · next heq =>
    congr 1
    rw [List.filter_eq_self]
    intro i hi
    simpa using hwithin heq i hi
  · rfl

theorem Doubled.handed_lt (h : Doubled q r r') {item : Nat × α}
    (hbeyond : ¬ Within q r item) :
    (r'.handed item).length < (r.handed item).length := by
  simp only [Within, Classical.not_imp, not_forall, Nat.not_le] at hbeyond
  obtain ⟨heq, i, hi, hlt⟩ := hbeyond
  rw [h.handed_eq, handed, if_pos heq, if_pos heq, List.length_cons,
    List.length_cons, Nat.add_lt_add_iff_right]
  apply Nat.lt_of_le_of_ne (List.length_filter_le _ _)
  intro hlength
  have hall := List.length_filter_eq_length_iff.mp hlength i hi
  simp only [decide_eq_true_eq] at hall
  omega

private theorem Doubled.sorted_right (h : Doubled q r r') :
    r'.buffer.Pairwise fun a b => a.1 ≤ b.1 := by
  have hsorted := h.sorted
  obtain ⟨low, copy, high, hbuffer, hbuffer', hcopy, hlow, hhigh, _⟩ := h.buffer
  rw [hbuffer, List.pairwise_append] at hsorted
  rw [hbuffer', List.pairwise_append, List.pairwise_cons]
  refine ⟨hsorted.1, ⟨fun i hi => ?_, hsorted.2.1⟩, fun i hi j hj => ?_⟩
  · have := hhigh i hi
    omega
  · rcases List.mem_cons.mp hj with rfl | hj
    · have := hlow i hi
      omega
    · exact hsorted.2.2 i hi j hj

/-- The item that is next: only items before the copy are handed over with it. -/
theorem Doubled.handle_next (h : Doubled q r r') {item : Nat × α}
    (hwithin : Within q r item) (heq : item.1 = r.expected) :
    Doubled q (r.handle item) (r'.handle item) := by
  have hhanded := h.handed_of_within hwithin
  have hexpected := h.expected
  have hdelivered := h.delivered
  obtain ⟨low, copy, high, hbuffer, hbuffer', hcopy, hlow, hhigh, hwait⟩ := h.buffer
  have hwait' : r.expected + 1 ≤ q → ∃ item ∈ low, item.1 = q :=
    fun hle => hwait (by omega)
  have hturn : r.handed item = item :: inTurn (r.expected + 1) low := by
    rw [← hhanded, handed, hexpected, if_pos heq, hbuffer',
      inTurn_blocked hwait' hcopy]
  have hle : (inTurn (r.expected + 1) low).length ≤ low.length := by
    rw [inTurn_eq_take]
    exact List.length_take_le' _ _
  rw [handle_eq r, handle_eq r', hhanded, hexpected, hdelivered, if_pos heq,
    if_pos heq, hturn, List.length_cons, Nat.add_sub_cancel]
  refine ⟨rfl, rfl, h.sorted.drop,
    low.drop (inTurn (r.expected + 1) low).length, copy, high, ?_, ?_, hcopy,
    fun i hi => hlow i (List.mem_of_mem_drop hi), hhigh, fun hq => ?_⟩
  · simp only [hbuffer, List.drop_append_of_le_length hle]
  · simp only [hbuffer', List.drop_append_of_le_length hle]
  · simp only at hq
    obtain ⟨i, hi, hieq⟩ := hwait' (by omega)
    rw [← List.take_append_drop (inTurn (r.expected + 1) low).length low,
      List.mem_append] at hi
    refine ⟨i, hi.resolve_left fun htake => ?_, hieq⟩
    rw [← inTurn_eq_take] at htake
    have := inTurn_lt htake
    omega

private theorem Doubled.handle_early (h : Doubled q r r') {item : Nat × α}
    (hne : item.1 ≠ r.expected) :
    Doubled q (r.handle item) (r'.handle item) := by
  have hhandle : r.handle item =
      { r with buffer := place item r.buffer } := by
    rw [Reorder.handle, if_neg hne, sorted_concat h.sorted]
  have hhandle' : r'.handle item =
      { r' with buffer := place item r'.buffer } := by
    rw [Reorder.handle, h.expected, if_neg hne, sorted_concat h.sorted_right]
  obtain ⟨low, copy, high, hbuffer, hbuffer', hcopy, hlow, hhigh, hwait⟩ := h.buffer
  rw [hhandle, hhandle']
  refine ⟨h.expected, h.delivered, pairwise_place h.sorted item, ?_⟩
  rcases Nat.lt_or_ge item.1 q with hlt | hge
  · refine ⟨place item low, copy, high, ?_, ?_, hcopy, fun i hi => ?_, hhigh,
      fun hexpected => ?_⟩
    · simp only [hbuffer]
      apply place_append_of_lt
      exact fun i hi => Nat.lt_of_lt_of_le hlt (hhigh i hi)
    · simp only [hbuffer']
      apply place_append_of_lt
      intro i hi
      rcases List.mem_cons.mp hi with rfl | hi
      · omega
      · exact Nat.lt_of_lt_of_le hlt (hhigh i hi)
    · rcases mem_place.mp hi with rfl | hi
      · omega
      · exact hlow i hi
    · obtain ⟨i, hi, hieq⟩ := hwait hexpected
      exact ⟨i, mem_place.mpr (.inr hi), hieq⟩
  · have hle : ∀ i ∈ low, i.1 ≤ item.1 :=
      fun i hi => Nat.le_trans (hlow i hi) hge
    refine ⟨low, copy, place item high, ?_, ?_, hcopy, hlow, fun i hi => ?_,
      hwait⟩
    · simp only [hbuffer]
      exact place_append_of_le hle high
    · simp only [hbuffer']
      rw [place_append_of_le hle, place, if_pos (by omega)]
    · rcases mem_place.mp hi with rfl | hi
      · exact hge
      · exact hhigh i hi

theorem Doubled.handle (h : Doubled q r r') {item : Nat × α}
    (hwithin : Within q r item) : Doubled q (r.handle item) (r'.handle item) := by
  by_cases heq : item.1 = r.expected
  · exact h.handle_next hwithin heq
  · exact h.handle_early heq

/-- A copy of an item that is waiting or has been handed over joins the buffer. -/
theorem doubled_handle {item : Nat × α}
    (hsorted : r.buffer.Pairwise fun a b => a.1 ≤ b.1)
    (hkept : Kept r item)
    (hne : item.1 ≠ r.expected) : Doubled item.1 r (r.handle item) := by
  obtain ⟨low, high, hbuffer, hplace, hlow, hhigh⟩ := place_split hsorted item
  rw [Reorder.handle, if_neg hne, sorted_concat hsorted, hplace]
  refine ⟨rfl, rfl, hsorted, low, item, high, hbuffer, rfl, rfl, hlow,
    fun i hi => Nat.le_of_lt (hhigh i hi), fun hle => ?_⟩
  have hitem : item ∈ low ++ high := by
    rw [← hbuffer]
    exact hkept.resolve_left (by omega)
  refine ⟨item, (List.mem_append.mp hitem).resolve_right fun hmem => ?_, rfl⟩
  exact absurd (hhigh item hmem) (Nat.lt_irrefl _)

end Doubled

end Reorder

end DistributedMemory.Library
