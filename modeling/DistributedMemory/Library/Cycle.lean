import Mathlib.Data.List.Basic
import Mathlib.Data.List.Nodup
import Mathlib.Data.Nat.ModEq

/-!
# Walking round a list

A list without repetition read as a ring: after the last element comes the first
one again.  `place l start k` is where a walk from `start` is after `k` steps,
`position l start` the number of steps to an element in the first round.
-/

namespace DistributedMemory.Library.Cycle

universe u

variable {α : Type u} [DecidableEq α]

/-- The element after `a`; there is none when `a` is not in the list. -/
def successor (l : List α) (a : α) : Option α :=
  if a ∈ l then l[(l.idxOf a + 1) % l.length]? else none

def place (l : List α) (start : α) (k : Nat) : α :=
  (l[(l.idxOf start + k) % l.length]?).getD start

def position (l : List α) (start a : α) : Nat :=
  (l.idxOf a + (l.length - l.idxOf start)) % l.length

section Walk

variable {l : List α} {start : α}

theorem place_getElem? (hstart : start ∈ l) (k : Nat) :
    l[(l.idxOf start + k) % l.length]? = some (place l start k) := by
  have hlt : (l.idxOf start + k) % l.length < l.length :=
    Nat.mod_lt _ (List.length_pos_of_mem hstart)
  rw [place, List.getElem?_eq_getElem hlt]
  rfl

theorem place_mem (hstart : start ∈ l) (k : Nat) : place l start k ∈ l :=
  List.mem_of_getElem? (place_getElem? hstart k)

theorem idxOf_place (hnodup : l.Nodup) (hstart : start ∈ l) (k : Nat) :
    l.idxOf (place l start k) = (l.idxOf start + k) % l.length := by
  obtain ⟨hlt, heq⟩ := List.getElem?_eq_some_iff.mp (place_getElem? hstart k)
  rw [← heq]
  exact hnodup.idxOf_getElem _ hlt

theorem place_zero (hstart : start ∈ l) : place l start 0 = start := by
  have hlt := List.idxOf_lt_length_iff.mpr hstart
  rw [place, Nat.add_zero, Nat.mod_eq_of_lt hlt,
    List.getElem?_eq_getElem hlt, List.getElem_idxOf]
  rfl

theorem place_add_length (l : List α) (start : α) (k : Nat) :
    place l start (k + l.length) = place l start k := by
  rw [place, place, ← Nat.add_assoc, Nat.add_mod_right]

theorem place_ne (hnodup : l.Nodup) (hstart : start ∈ l) {i j : Nat}
    (hij : i < j) (hround : j < i + l.length) :
    place l start i ≠ place l start j := by
  intro heq
  have hidx := congrArg l.idxOf heq
  rw [idxOf_place hnodup hstart, idxOf_place hnodup hstart] at hidx
  have hmod : i ≡ j [MOD l.length] := Nat.ModEq.add_left_cancel' _ hidx
  have hdvd := (Nat.modEq_iff_dvd' (Nat.le_of_lt hij)).mp hmod
  have hle := Nat.le_of_dvd (by omega) hdvd
  omega

theorem successor_place (hnodup : l.Nodup) (hstart : start ∈ l) (k : Nat) :
    successor l (place l start k) = some (place l start (k + 1)) := by
  rw [successor, if_pos (place_mem hstart k), idxOf_place hnodup hstart,
    Nat.mod_add_mod, Nat.add_assoc]
  exact place_getElem? hstart (k + 1)

theorem position_lt (hstart : start ∈ l) (a : α) :
    position l start a < l.length :=
  Nat.mod_lt _ (List.length_pos_of_mem hstart)

theorem place_position (hstart : start ∈ l) {a : α} (ha : a ∈ l) :
    place l start (position l start a) = a := by
  have hlt := List.idxOf_lt_length_iff.mpr ha
  have hle := Nat.le_of_lt (List.idxOf_lt_length_iff.mpr hstart)
  have hidx : (l.idxOf start + position l start a) % l.length = l.idxOf a := by
    rw [position, Nat.add_mod_mod]
    have hsum : l.idxOf start + (l.idxOf a + (l.length - l.idxOf start)) =
        l.idxOf a + l.length := by omega
    rw [hsum, Nat.add_mod_right, Nat.mod_eq_of_lt hlt]
  rw [place, hidx, List.getElem?_eq_getElem hlt, List.getElem_idxOf]
  rfl

theorem position_place (hnodup : l.Nodup) (hstart : start ∈ l) {k : Nat}
    (hk : k < l.length) : position l start (place l start k) = k := by
  have hpos := position_lt hstart (place l start k)
  have hplace := place_position hstart (place_mem hstart k)
  rcases Nat.lt_trichotomy (position l start (place l start k)) k with
    hlt | heq | hgt
  · exact absurd hplace (place_ne hnodup hstart hlt (by omega))
  · exact heq
  · exact absurd hplace.symm (place_ne hnodup hstart hgt (by omega))

theorem position_start (hnodup : l.Nodup) (hstart : start ∈ l) :
    position l start start = 0 := by
  have h := position_place hnodup hstart (List.length_pos_of_mem hstart)
  rwa [place_zero hstart] at h

private theorem place_place (hnodup : l.Nodup) (hstart : start ∈ l) (i j : Nat) :
    place l (place l start i) j = place l start (i + j) := by
  have hget := place_getElem? hstart (i + j)
  rw [place, idxOf_place hnodup hstart, Nat.mod_add_mod, Nat.add_assoc, hget]
  rfl

private theorem position_add_position (hnodup : l.Nodup) (hstart : start ∈ l) {a b : α}
    (ha : a ∈ l) (hb : b ∈ l) :
    position l start a + position l a b = position l start b ∨
      position l start a + position l a b =
        position l start b + l.length := by
  have hplace : place l start (position l start a + position l a b) = b := by
    rw [← place_place hnodup hstart, place_position hstart ha,
      place_position ha hb]
  have hlta := position_lt hstart a
  have hltb := position_lt ha b
  rcases Nat.lt_or_ge (position l start a + position l a b) l.length with
    hlt | hge
  · have hpos := position_place hnodup hstart hlt
    rw [hplace] at hpos
    exact .inl hpos.symm
  · obtain ⟨k, hk⟩ := Nat.exists_eq_add_of_le hge
    rw [hk, Nat.add_comm, place_add_length] at hplace
    have hpos := position_place hnodup hstart (k := k) (by omega)
    rw [hplace] at hpos
    exact .inr (by omega)

theorem eq_of_position_eq (hstart : start ∈ l) {a b : α} (ha : a ∈ l)
    (hb : b ∈ l) (h : position l start a = position l start b) : a = b := by
  rw [← place_position hstart ha, h, place_position hstart hb]

theorem position_pos (hstart : start ∈ l) {a : α} (ha : a ∈ l)
    (hne : a ≠ start) : 0 < position l start a := by
  apply Nat.pos_of_ne_zero
  intro hzero
  apply hne
  rw [← place_position hstart ha, hzero, place_zero hstart]

/-- The nearest element after `a` among those with `P`, seen from the start: it is
the first one beyond `a`, or the first of all when none is beyond `a`. -/
theorem nearest_cases {P : α → Prop} (hnodup : l.Nodup) (hstart : start ∈ l)
    (hP : ∀ x, P x → x ∈ l) {a b : α} (ha : a ∈ l) (hb : P b) (hne : b ≠ a)
    (hnearest : ∀ x, P x → x ≠ a → position l a b ≤ position l a x) :
    (position l start a < position l start b ∧ ∀ x, P x →
      position l start a < position l start x →
        position l start b ≤ position l start x) ∨
    ((∀ x, P x → position l start x ≤ position l start a) ∧
      ∀ x, P x → position l start b ≤ position l start x) := by
  have hsum := fun x hx =>
    position_add_position hnodup hstart ha (hP x hx)
  have hlt := position_lt ha
  have hlta := position_lt hstart a
  have hltx := position_lt hstart (l := l)
  have hpos := position_pos ha (hP b hb) hne
  rcases hsum b hb with hahead | hwrap
  · left
    refine ⟨by omega, fun x hx hbeyond => ?_⟩
    have hle := hnearest x hx (fun heq => absurd (heq ▸ hbeyond) (lt_irrefl _))
    have := hlt x
    rcases hsum x hx with hx' | hx' <;> omega
  · right
    have hnone : ∀ x, P x → position l start x ≤ position l start a := by
      intro x hx
      by_contra hbeyond
      have hle := hnearest x hx (fun heq => hbeyond (heq ▸ Nat.le_refl _))
      have := hlt x
      have := hltx x
      rcases hsum x hx with hx' | hx' <;> omega
    refine ⟨hnone, fun x hx => ?_⟩
    by_cases hxa : x = a
    · exact hxa ▸ hnone b hb
    · have hle := hnearest x hx hxa
      have := hnone x hx
      have := position_pos ha (hP x hx) hxa
      rcases hsum x hx with hx' | hx' <;> omega

end Walk

end DistributedMemory.Library.Cycle
