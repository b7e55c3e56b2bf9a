import Mathlib.Data.List.Basic

/-!
# Votes that are asked for, granted and given back

Every voter has one vote.  A candidate asks a voter; the voter grants the vote, may
get it back while the candidate still wants it, and gets it back for good when the
candidate retires.  A ballot counts, for each candidate and voter, the requests, the
votes and the releases that are around, wherever they are.
-/

namespace DistributedMemory.Library

universe u v

@[ext] structure Ballot (ι : Type u) (ν : Type v) where
  asking : ι → ν → Nat
  granted : ι → ν → Nat
  released : ι → ν → Nat
  votedFor : ν → Option ι
  wants : ι → ν → Prop

namespace Ballot

variable {ι : Type u} {ν : Type v} {b b' : Ballot ι ν}

/-- What is around of candidate `i` at voter `w` is one request or vote if `i`
wants the vote of `w`, and one vote or release if `w` has voted for `i`. -/
structure Balanced (b : Ballot ι ν) : Prop where
  wanted : ∀ i w, b.wants i w → b.asking i w + b.granted i w = 1
  unwanted : ∀ i w, ¬ b.wants i w → b.asking i w + b.granted i w = 0
  voted : ∀ i w, b.votedFor w = some i → b.granted i w + b.released i w = 1
  unvoted : ∀ i w, b.votedFor w ≠ some i →
    b.granted i w + b.released i w = 0

/-- What is around of candidate `i` at voter `w` is at most one vote or release, and
that only if `w` has voted for `i`, who asks no others than its `voters`. -/
structure Covered (voters : ι → ν → Prop) (b : Ballot ι ν) : Prop where
  voted : ∀ i w, b.votedFor w = some i → b.granted i w + b.released i w ≤ 1
  unvoted : ∀ i w, b.votedFor w ≠ some i →
    b.granted i w + b.released i w = 0
  asked : ∀ i w, b.asking i w + b.granted i w ≠ 0 → voters i w

structure Apart (b b' : Ballot ι ν) (i : ι) (w : ν) : Prop where
  asking : ∀ k x, ¬ (k = i ∧ x = w) → b'.asking k x = b.asking k x
  granted : ∀ k x, ¬ (k = i ∧ x = w) → b'.granted k x = b.granted k x
  released : ∀ k x, ¬ (k = i ∧ x = w) → b'.released k x = b.released k x
  votedFor : ∀ x, x ≠ w → b'.votedFor x = b.votedFor x
  wants : b'.wants = b.wants

/-- Voter `w` grants its free vote to `i`. -/
structure Grants (b b' : Ballot ι ν) (i : ι) (w : ν) : Prop
    extends Apart b b' i w where
  free : b.votedFor w = none
  votes : b'.votedFor w = some i
  taken : b.asking i w = b'.asking i w + 1
  given : b'.granted i w = b.granted i w + 1
  kept : b'.released i w = b.released i w

/-- Voter `w` has its vote back from `i`, who goes on asking for it. -/
structure Returns (b b' : Ballot ι ν) (i : ι) (w : ν) : Prop
    extends Apart b b' i w where
  freed : b'.votedFor w = none
  asked : b'.asking i w = b.asking i w + 1
  back : b.granted i w = b'.granted i w + 1
  kept : b'.released i w = b.released i w

/-- Voter `w` has its vote back from `i`, who has retired. -/
structure Frees (b b' : Ballot ι ν) (i : ι) (w : ν) : Prop
    extends Apart b b' i w where
  freed : b'.votedFor w = none
  asked : b'.asking i w = b.asking i w
  kept : b'.granted i w = b.granted i w
  back : b.released i w = b'.released i w + 1

section Apart

variable {i : ι} {w : ν}

theorem Apart.voted (he : Apart b b' i w)
    (hothers : ∀ k, k ≠ i → b'.votedFor w ≠ some k) {Q : Nat → Prop}
    (h : ∀ k x, b.votedFor x = some k → Q (b.granted k x + b.released k x))
    (hi : b'.votedFor w = some i → Q (b'.granted i w + b'.released i w)) (k : ι)
    (x : ν) (hv : b'.votedFor x = some k) :
    Q (b'.granted k x + b'.released k x) := by
  by_cases hkx : k = i ∧ x = w
  · obtain ⟨rfl, rfl⟩ := hkx
    exact hi hv
  · rw [he.granted k x hkx, he.released k x hkx]
    by_cases hx : x = w
    · subst hx
      exact absurd hv (hothers k fun hk => hkx ⟨hk, rfl⟩)
    · exact h k x (by rw [← he.votedFor x hx, hv])

theorem Apart.unvoted (he : Apart b b' i w)
    (hothers : ∀ k, k ≠ i → b.votedFor w ≠ some k)
    (h : ∀ k x, b.votedFor x ≠ some k → b.granted k x + b.released k x = 0)
    (hi : b'.votedFor w ≠ some i → b'.granted i w + b'.released i w = 0) (k : ι)
    (x : ν) (hv : b'.votedFor x ≠ some k) :
    b'.granted k x + b'.released k x = 0 := by
  by_cases hkx : k = i ∧ x = w
  · obtain ⟨rfl, rfl⟩ := hkx
    exact hi hv
  · rw [he.granted k x hkx, he.released k x hkx]
    by_cases hx : x = w
    · subst hx
      exact h k x (hothers k fun hk => hkx ⟨hk, rfl⟩)
    · exact h k x (by rw [← he.votedFor x hx]; exact hv)

theorem Apart.request (he : Apart b b' i w)
    (hsum : b'.asking i w + b'.granted i w = b.asking i w + b.granted i w)
    (k : ι) (x : ν) :
    b'.asking k x + b'.granted k x = b.asking k x + b.granted k x := by
  by_cases hkx : k = i ∧ x = w
  · obtain ⟨rfl, rfl⟩ := hkx
    exact hsum
  · rw [he.asking k x hkx, he.granted k x hkx]

theorem Apart.balanced (h : b.Balanced) (he : Apart b b' i w)
    (hothers : ∀ k, k ≠ i → b.votedFor w ≠ some k ∧ b'.votedFor w ≠ some k)
    (hsum : b'.asking i w + b'.granted i w = b.asking i w + b.granted i w)
    (hvoted : b'.votedFor w = some i → b'.granted i w + b'.released i w = 1)
    (hunvoted : b'.votedFor w ≠ some i →
      b'.granted i w + b'.released i w = 0) : b'.Balanced := by
  refine ⟨fun k x hw => ?_, fun k x hw => ?_,
    he.voted (Q := (· = 1)) (fun k hk => (hothers k hk).2) h.voted hvoted,
    he.unvoted (fun k hk => (hothers k hk).1) h.unvoted hunvoted⟩
  · rw [he.request hsum]
    rw [he.wants] at hw
    exact h.wanted k x hw
  · rw [he.request hsum]
    rw [he.wants] at hw
    exact h.unwanted k x hw

theorem Apart.covered {voters : ι → ν → Prop} (h : b.Covered voters)
    (he : Apart b b' i w)
    (hothers : ∀ k, k ≠ i → b.votedFor w ≠ some k ∧ b'.votedFor w ≠ some k)
    (hsum : b'.asking i w + b'.granted i w = b.asking i w + b.granted i w)
    (hvoted : b'.votedFor w = some i → b'.granted i w + b'.released i w ≤ 1)
    (hunvoted : b'.votedFor w ≠ some i →
      b'.granted i w + b'.released i w = 0) : b'.Covered voters := by
  refine ⟨he.voted (Q := (· ≤ 1)) (fun k hk => (hothers k hk).2) h.voted hvoted,
    he.unvoted (fun k hk => (hothers k hk).1) h.unvoted hunvoted,
    fun k x hpos => ?_⟩
  rw [he.request hsum] at hpos
  exact h.asked k x hpos

theorem Grants.others (hg : Grants b b' i w) (k : ι) (hk : k ≠ i) :
    b.votedFor w ≠ some k ∧ b'.votedFor w ≠ some k := by
  rw [hg.free, hg.votes]
  exact ⟨(Option.some_ne_none k).symm, fun heq => hk (Option.some.inj heq).symm⟩

theorem Grants.balanced (h : b.Balanced) (hg : Grants b b' i w) :
    b'.Balanced := by
  have hfree : b.granted i w + b.released i w = 0 :=
    h.unvoted i w (hg.free ▸ Option.some_ne_none i |>.symm)
  refine hg.toApart.balanced h hg.others ?_ (fun _ => ?_)
    fun hne => absurd hg.votes hne
  · rw [hg.taken, hg.given]
    omega
  · rw [hg.given, hg.kept]
    omega

theorem Grants.covered {voters : ι → ν → Prop} (h : b.Covered voters)
    (hg : Grants b b' i w) : b'.Covered voters := by
  have hfree : b.granted i w + b.released i w = 0 :=
    h.unvoted i w (hg.free ▸ Option.some_ne_none i |>.symm)
  refine hg.toApart.covered h hg.others ?_ (fun _ => ?_)
    fun hne => absurd hg.votes hne
  · rw [hg.taken, hg.given]
    omega
  · rw [hg.given, hg.kept]
    omega

theorem votedFor_of_pos
    (h : ∀ i w, b.votedFor w ≠ some i → b.granted i w + b.released i w = 0)
    (hpos : 0 < b.granted i w + b.released i w) : b.votedFor w = some i := by
  by_contra hne
  exact absurd (h i w hne) (Nat.pos_iff_ne_zero.mp hpos)

/-- The voter has voted for the candidate whose vote or release comes back. -/
theorem Balanced.votedFor_of_pos (h : b.Balanced)
    (hpos : 0 < b.granted i w + b.released i w) : b.votedFor w = some i :=
  Ballot.votedFor_of_pos h.unvoted hpos

theorem Covered.votedFor_of_pos {voters : ι → ν → Prop} (h : b.Covered voters)
    (hpos : 0 < b.granted i w + b.released i w) : b.votedFor w = some i :=
  Ballot.votedFor_of_pos h.unvoted hpos

theorem others_of_freed (hvoted : b.votedFor w = some i)
    (hfreed : b'.votedFor w = none) (k : ι) (hk : k ≠ i) :
    b.votedFor w ≠ some k ∧ b'.votedFor w ≠ some k := by
  rw [hvoted, hfreed]
  exact ⟨fun heq => hk (Option.some.inj heq).symm, (Option.some_ne_none k).symm⟩

theorem Apart.balanced_of_freed (h : b.Balanced) (he : Apart b b' i w)
    (hfreed : b'.votedFor w = none)
    (hsum : b'.asking i w + b'.granted i w = b.asking i w + b.granted i w)
    (hback : b.granted i w + b.released i w =
      b'.granted i w + b'.released i w + 1) : b'.Balanced := by
  have hvoted : b.votedFor w = some i := h.votedFor_of_pos (by omega)
  have hone := h.voted i w hvoted
  refine he.balanced h (others_of_freed hvoted hfreed) hsum (fun hv => ?_)
    fun _ => by omega
  rw [hfreed] at hv
  cases hv

theorem Apart.covered_of_freed {voters : ι → ν → Prop} (h : b.Covered voters)
    (he : Apart b b' i w) (hfreed : b'.votedFor w = none)
    (hsum : b'.asking i w + b'.granted i w = b.asking i w + b.granted i w)
    (hback : b.granted i w + b.released i w =
      b'.granted i w + b'.released i w + 1) : b'.Covered voters := by
  have hvoted : b.votedFor w = some i := h.votedFor_of_pos (by omega)
  have hone := h.voted i w hvoted
  refine he.covered h (others_of_freed hvoted hfreed) hsum (fun hv => ?_)
    fun _ => by omega
  rw [hfreed] at hv
  cases hv

theorem Returns.balanced (h : b.Balanced) (hr : Returns b b' i w) :
    b'.Balanced :=
  hr.toApart.balanced_of_freed h hr.freed
    (by rw [hr.asked, hr.back]; omega) (by rw [hr.back, hr.kept]; omega)

theorem Returns.covered {voters : ι → ν → Prop} (h : b.Covered voters)
    (hr : Returns b b' i w) : b'.Covered voters :=
  hr.toApart.covered_of_freed h hr.freed
    (by rw [hr.asked, hr.back]; omega) (by rw [hr.back, hr.kept]; omega)

theorem Frees.balanced (h : b.Balanced) (hf : Frees b b' i w) :
    b'.Balanced :=
  hf.toApart.balanced_of_freed h hf.freed (by rw [hf.asked, hf.kept])
    (by rw [hf.back, hf.kept]; omega)

theorem Frees.covered {voters : ι → ν → Prop} (h : b.Covered voters)
    (hf : Frees b b' i w) : b'.Covered voters :=
  hf.toApart.covered_of_freed h hf.freed (by rw [hf.asked, hf.kept])
    (by rw [hf.back, hf.kept]; omega)

end Apart

theorem Covered.mono {voters : ι → ν → Prop} (h : b.Covered voters)
    (hvotes : ∀ k x, b'.granted k x + b'.released k x ≤
      b.granted k x + b.released k x)
    (hasked : ∀ k x, b'.asking k x + b'.granted k x ≠ 0 → voters k x)
    (hvoted : b'.votedFor = b.votedFor) : b'.Covered voters := by
  refine ⟨fun k x hv => ?_, fun k x hv => ?_, hasked⟩
  · exact Nat.le_trans (hvotes k x) (h.voted k x (by rw [← hvoted, hv]))
  · have hzero := h.unvoted k x (by rw [← hvoted]; exact hv)
    exact Nat.le_zero.mp (Nat.le_trans (hvotes k x) (Nat.le_of_eq hzero))

/-- A property that the voters keep, by which votes that come back are their own. -/
class Law (P : Ballot ι ν → Prop) : Prop where
  one : ∀ {b i w}, P b → b.granted i w + b.released i w ≤ 1
  own : ∀ {b i w}, P b → 0 < b.granted i w + b.released i w →
    b.votedFor w = some i
  grants : ∀ {b b' i w}, P b → Grants b b' i w → P b'
  returns : ∀ {b b' i w}, P b → Returns b b' i w → P b'
  frees : ∀ {b b' i w}, P b → Frees b b' i w → P b'

theorem Law.unique {P : Ballot ι ν → Prop} [Law P] (h : P b) {i j : ι} {w : ν}
    (hi : 0 < b.granted i w) (hj : 0 < b.granted j w) : i = j := by
  have hvoted : ∀ k, 0 < b.granted k w → b.votedFor w = some k :=
    fun k hk => own h (by omega)
  exact Option.some.inj ((hvoted i hi).symm.trans (hvoted j hj))

instance : Law (Balanced (ι := ι) (ν := ν)) where
  one {b i w} h := by
    by_cases hv : b.votedFor w = some i
    · exact Nat.le_of_eq (h.voted i w hv)
    · rw [h.unvoted i w hv]
      exact Nat.zero_le 1
  own h hpos := h.votedFor_of_pos hpos
  grants h hg := hg.balanced h
  returns h hr := hr.balanced h
  frees h hf := hf.balanced h

instance (voters : ι → ν → Prop) : Law (Covered voters) where
  one {b i w} h := by
    by_cases hv : b.votedFor w = some i
    · exact h.voted i w hv
    · rw [h.unvoted i w hv]
      exact Nat.zero_le 1
  own h hpos := h.votedFor_of_pos hpos
  grants h hg := hg.covered h
  returns h hr := hr.covered h
  frees h hf := hf.covered h

/-- Candidate `i` starts to ask the voters of `quorum`. -/
structure Asks (b b' : Ballot ι ν) (i : ι) (quorum : List ν) : Prop where
  before : ∀ w, ¬ b.wants i w
  wants : ∀ k w, b'.wants k w ↔ b.wants k w ∨ k = i ∧ w ∈ quorum
  asked : ∀ w ∈ quorum, b'.asking i w = b.asking i w + 1
  spared : ∀ w, w ∉ quorum → b'.asking i w = b.asking i w
  others : ∀ k, k ≠ i → b'.asking k = b.asking k
  granted : b'.granted = b.granted
  released : b'.released = b.released
  votedFor : b'.votedFor = b.votedFor

theorem Asks.balanced (h : b.Balanced) {i : ι} {quorum : List ν}
    (ha : Asks b b' i quorum) : b'.Balanced := by
  refine ⟨fun k w hw => ?_, fun k w hw => ?_, ?_, ?_⟩
  · rw [ha.granted]
    by_cases hk : k = i
    · subst hk
      rcases (ha.wants k w).mp hw with hbefore | ⟨-, hmem⟩
      · exact absurd hbefore (ha.before w)
      · have hzero := h.unwanted k w (ha.before w)
        rw [ha.asked w hmem]
        omega
    · rw [ha.others k hk]
      rcases (ha.wants k w).mp hw with hbefore | ⟨heq, -⟩
      · exact h.wanted k w hbefore
      · exact absurd heq hk
  · have hnot : ¬ b.wants k w := fun hbefore =>
      hw ((ha.wants k w).mpr (.inl hbefore))
    rw [ha.granted]
    by_cases hk : k = i
    · subst hk
      rw [ha.spared w fun hmem => hw ((ha.wants k w).mpr (.inr ⟨rfl, hmem⟩))]
      exact h.unwanted k w hnot
    · rw [ha.others k hk]
      exact h.unwanted k w hnot
  · rw [ha.granted, ha.released, ha.votedFor]
    exact h.voted
  · rw [ha.granted, ha.released, ha.votedFor]
    exact h.unvoted

/-- Candidate `i`, who has all the votes that it wants, retires and releases
them. -/
structure Retires (b b' : Ballot ι ν) (i : ι) : Prop where
  wants : ∀ k w, b'.wants k w ↔ b.wants k w ∧ k ≠ i
  asking : b'.asking = b.asking
  given : ∀ w, b'.granted i w = 0
  released : ∀ w, b'.released i w = b.released i w + b.granted i w
  held : ∀ w, b.wants i w → b.granted i w ≠ 0
  othersGranted : ∀ k, k ≠ i → b'.granted k = b.granted k
  othersReleased : ∀ k, k ≠ i → b'.released k = b.released k
  votedFor : b'.votedFor = b.votedFor

theorem Retires.balanced (h : b.Balanced) {i : ι} (hr : Retires b b' i) :
    b'.Balanced := by
  have hvotes : ∀ k w,
      b'.granted k w + b'.released k w = b.granted k w + b.released k w := by
    intro k w
    by_cases hk : k = i
    · subst hk
      rw [hr.given, hr.released]
      omega
    · rw [hr.othersGranted k hk, hr.othersReleased k hk]
  refine ⟨fun k w hw => ?_, fun k w hw => ?_, fun k w hv => ?_,
    fun k w hv => ?_⟩
  · obtain ⟨hbefore, hk⟩ := (hr.wants k w).mp hw
    rw [hr.asking, hr.othersGranted k hk]
    exact h.wanted k w hbefore
  · rw [hr.asking]
    by_cases hk : k = i
    · subst hk
      rw [hr.given]
      by_cases hbefore : b.wants k w
      · have hone := h.wanted k w hbefore
        have hpos := hr.held w hbefore
        omega
      · have hzero := h.unwanted k w hbefore
        omega
    · rw [hr.othersGranted k hk]
      exact h.unwanted k w fun hbefore => hw ((hr.wants k w).mpr ⟨hbefore, hk⟩)
  · rw [hvotes]
    exact h.voted k w (by rw [← hr.votedFor, hv])
  · rw [hvotes]
    exact h.unvoted k w (by rw [← hr.votedFor]; exact hv)

end Ballot

end DistributedMemory.Library
