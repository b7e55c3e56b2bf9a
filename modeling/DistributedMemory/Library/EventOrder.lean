import Mathlib.Data.List.Basic
import Mathlib.Logic.Relation

/-!
# Events and vector time

The events of a run are listed in the order in which they were made.  An event
belongs to a process and has the events whose messages it made use of as its
causes.  A stamp gives a number to every process; `entry` reads it.

A stamp tells a set of events when it is, at the process of an event, at least
the number of that event exactly for the events of the set.  The larger of two
stamps tells the union, so a process that takes the larger entry from what it
receives and counts its own events tells its past.
-/

namespace DistributedMemory.Library

universe u v

structure Event (P : Type u) (V : Type v) where
  process : P
  causes : List Nat
  stamp : V

namespace Event

variable {P : Type u} {V : Type v}

/-- The event at `i` came before that at `j` in the same process, or is one of its
causes. -/
def Direct (events : List (Event P V)) (i j : Nat) : Prop :=
  ∃ e f, events[i]? = some e ∧ events[j]? = some f ∧
    (e.process = f.process ∧ i < j ∨ i ∈ f.causes)

def Before (events : List (Event P V)) : Nat → Nat → Prop :=
  Relation.TransGen (Direct events)

def Past (events : List (Event P V)) : Nat → Nat → Prop :=
  Relation.ReflTransGen (Direct events)

def CausesEarlier (events : List (Event P V)) : Prop :=
  ∀ j (f : Event P V), events[j]? = some f → ∀ i ∈ f.causes, i < j

theorem eq_of_getElem?_last {α : Type*} {items : List α} {a b : α} {i : Nat}
    (hi : items.length ≤ i) (h : (items ++ [a])[i]? = some b) :
    i = items.length ∧ b = a := by
  rw [List.getElem?_append_right hi] at h
  obtain ⟨hlast, rfl⟩ := List.getElem?_eq_some_iff.mp h
  simp only [List.length_singleton] at hlast
  have hzero : i - items.length = 0 := by omega
  exact ⟨by omega, by simp [hzero]⟩

section Order

variable {events : List (Event P V)} {i j : Nat}

theorem CausesEarlier.lt_of_direct (h : CausesEarlier events)
    (hij : Direct events i j) : i < j := by
  obtain ⟨e, f, -, hf, ⟨-, hlt⟩ | hcause⟩ := hij
  · exact hlt
  · exact h j f hf i hcause

theorem CausesEarlier.lt_of_before (h : CausesEarlier events)
    (hij : Before events i j) : i < j := by
  induction hij with
  | single hdirect => exact h.lt_of_direct hdirect
  | tail _ hdirect ih => exact Nat.lt_trans ih (h.lt_of_direct hdirect)

theorem CausesEarlier.le_of_past (h : CausesEarlier events)
    (hij : Past events i j) : i ≤ j := by
  rcases Relation.reflTransGen_iff_eq_or_transGen.mp hij with rfl | hbefore
  · exact Nat.le_refl _
  · exact Nat.le_of_lt (h.lt_of_before hbefore)

/-- A further event does not change what was before the earlier ones. -/
theorem CausesEarlier.direct_append (h : CausesEarlier events)
    (g : Event P V) (hj : j < events.length) :
    Direct (events ++ [g]) i j ↔ Direct events i j := by
  have hold : (events ++ [g])[j]? = events[j]? := List.getElem?_append_left hj
  constructor
  · rintro ⟨e, f, he, hf, hrel⟩
    rw [hold] at hf
    have hlt : i < j := hrel.elim And.right (h j f hf i)
    rw [List.getElem?_append_left (Nat.lt_trans hlt hj)] at he
    exact ⟨e, f, he, hf, hrel⟩
  · rintro ⟨e, f, he, hf, hrel⟩
    refine ⟨e, f, ?_, hold ▸ hf, hrel⟩
    rw [List.getElem?_append_left (List.getElem?_eq_some_iff.mp he).1]
    exact he

theorem CausesEarlier.past_append (h : CausesEarlier events)
    (g : Event P V) (hj : j < events.length) :
    Past (events ++ [g]) i j ↔ Past events i j := by
  constructor
  · intro hpast
    induction hpast using Relation.ReflTransGen.head_induction_on with
    | refl => exact .refl
    | head hdirect _ ih =>
        have hb := Nat.lt_of_le_of_lt (h.le_of_past ih) hj
        exact .head ((h.direct_append g hb).mp hdirect) ih
  · intro hpast
    induction hpast using Relation.ReflTransGen.head_induction_on with
    | refl => exact .refl
    | head hdirect hrest ih =>
        have hb := Nat.lt_of_le_of_lt (h.le_of_past hrest) hj
        exact .head ((h.direct_append g hb).mpr hdirect) ih

theorem CausesEarlier.append (h : CausesEarlier events) {g : Event P V}
    (hg : ∀ i ∈ g.causes, i < events.length) : CausesEarlier (events ++ [g]) := by
  intro j f hf i hi
  rcases Nat.lt_or_ge j events.length with hj | hj
  · rw [List.getElem?_append_left hj] at hf
    exact h j f hf i hi
  · obtain ⟨rfl, rfl⟩ := eq_of_getElem?_last hj hf
    exact hg i hi

end Order

/-! ## What a stamp tells -/

section Tells

variable (entry : V → P → Nat)

def number (e : Event P V) : Nat := entry e.stamp e.process

/-- `v` is at least the number of an event exactly for the events in `S`, and every
entry of it is the number of an event or zero. -/
structure Tells (events : List (Event P V)) (v : P → Nat) (S : Nat → Prop) :
    Prop where
  tells : ∀ k (e : Event P V), events[k]? = some e → (e.number entry ≤ v e.process ↔ S k)
  reached : ∀ p, 0 < v p → ∃ (k : Nat) (e : Event P V),
    events[k]? = some e ∧ e.process = p ∧ e.number entry = v p

structure Stamped (events : List (Event P V)) : Prop where
  earlier : CausesEarlier events
  tells : ∀ i (e : Event P V), events[i]? = some e →
    Tells entry events (entry e.stamp) fun k => Past events k i

variable {entry} {events : List (Event P V)} {v w : P → Nat} {S T : Nat → Prop}

theorem Tells.congr (h : Tells entry events v S) {v' : P → Nat}
    {S' : Nat → Prop} (hv : ∀ p, v' p = v p)
    (hS : ∀ k, k < events.length → (S' k ↔ S k)) : Tells entry events v' S' := by
  obtain rfl : v' = v := funext hv
  refine ⟨fun k e hk => ?_, h.reached⟩
  rw [h.tells k e hk, hS k (List.getElem?_eq_some_iff.mp hk).1]

theorem Tells.max (hv : Tells entry events v S) (hw : Tells entry events w T) :
    Tells entry events (fun p => Max.max (v p) (w p)) fun k => S k ∨ T k := by
  refine ⟨fun k e hk => ?_, fun p hp => ?_⟩
  · rw [← hv.tells k e hk, ← hw.tells k e hk]
    omega
  · rcases Nat.le_total (v p) (w p) with hle | hle
    · rw [Nat.max_eq_right hle] at hp ⊢
      exact hw.reached p hp
    · rw [Nat.max_eq_left hle] at hp ⊢
      exact hv.reached p hp

theorem Tells.append (h : Tells entry events v S) {g : Event P V}
    (hfresh : v g.process < g.number entry)
    (hS : ∀ k, k < events.length → (T k ↔ S k)) (hnew : ¬ T events.length) :
    Tells entry (events ++ [g]) v T := by
  refine ⟨fun k e hk => ?_, fun p hp => ?_⟩
  · rcases Nat.lt_or_ge k events.length with hlt | hge
    · rw [List.getElem?_append_left hlt] at hk
      rw [h.tells k e hk, hS k hlt]
    · obtain ⟨rfl, rfl⟩ := eq_of_getElem?_last hge hk
      exact iff_of_false (Nat.not_le.mpr hfresh) hnew
  · obtain ⟨k, e, hk, hnumber⟩ := h.reached p hp
    refine ⟨k, e, ?_, hnumber⟩
    rw [List.getElem?_append_left (List.getElem?_eq_some_iff.mp hk).1]
    exact hk

end Tells

/-! ## What a process knows -/

/-- The events of `p` and the causes that its next event has so far. -/
def Feeds (events : List (Event P V)) (p : P) (causes : List Nat) (i : Nat) :
    Prop :=
  (∃ e, events[i]? = some e ∧ e.process = p) ∨ i ∈ causes

def KnownTo (events : List (Event P V)) (p : P) (causes : List Nat) (k : Nat) :
    Prop :=
  ∃ i, Feeds events p causes i ∧ Past events k i

def KnownAt (events : List (Event P V)) (p : P) (n : Nat) (causes : List Nat)
    (k : Nat) : Prop :=
  ∃ i, i < n ∧ Feeds events p causes i ∧ Past events k i

section Known

variable {events : List (Event P V)} {g : Event P V} {p : P} {causes : List Nat}
  {k : Nat}

theorem knownTo_append_causes {more : List Nat} :
    KnownTo events p (causes ++ more) k ↔
      KnownTo events p causes k ∨ ∃ i ∈ more, Past events k i := by
  simp only [KnownTo, Feeds, List.mem_append]
  constructor
  · rintro ⟨i, howner | hcause | hmore, hpast⟩
    · exact .inl ⟨i, .inl howner, hpast⟩
    · exact .inl ⟨i, .inr hcause, hpast⟩
    · exact .inr ⟨i, hmore, hpast⟩
  · rintro (⟨i, howner | hcause, hpast⟩ | ⟨i, hmore, hpast⟩)
    · exact ⟨i, .inl howner, hpast⟩
    · exact ⟨i, .inr (.inl hcause), hpast⟩
    · exact ⟨i, .inr (.inr hmore), hpast⟩

theorem Feeds.lt_length (hcauses : ∀ i ∈ causes, i < events.length) {i : Nat}
    (h : Feeds events p causes i) : i < events.length := by
  rcases h with ⟨e, he, -⟩ | hcause
  · exact (List.getElem?_eq_some_iff.mp he).1
  · exact hcauses i hcause

private theorem CausesEarlier.past_last (h : CausesEarlier events)
    (hg : ∀ i ∈ g.causes, i < events.length) :
    Past (events ++ [g]) k events.length ↔
      k = events.length ∨ KnownTo events g.process g.causes k := by
  have hlast : (events ++ [g])[events.length]? = some g :=
    List.getElem?_concat_length
  have hdirect : ∀ i, Direct (events ++ [g]) i events.length ↔
      Feeds events g.process g.causes i := by
    intro i
    constructor
    · rintro ⟨e, f, he, hf, hrel⟩
      obtain rfl := Option.some.inj (hlast.symm.trans hf)
      rcases hrel with ⟨hprocess, hlt⟩ | hcause
      · rw [List.getElem?_append_left hlt] at he
        exact .inl ⟨e, he, hprocess⟩
      · exact .inr hcause
    · intro hfeeds
      have hlt := hfeeds.lt_length hg
      have hi : (events ++ [g])[i]? = some events[i] := by
        rw [List.getElem?_append_left hlt, List.getElem?_eq_getElem hlt]
      refine ⟨events[i], g, hi, hlast, ?_⟩
      rcases hfeeds with ⟨e, he, hprocess⟩ | hcause
      · rw [List.getElem?_eq_getElem hlt] at he
        cases he
        exact .inl ⟨hprocess, hlt⟩
      · exact .inr hcause
  rw [Past, Relation.ReflTransGen.cases_tail_iff]
  constructor
  · rintro (heq | ⟨i, hpast, hstep⟩)
    · exact .inl heq.symm
    · have hfeeds := (hdirect i).mp hstep
      exact .inr ⟨i, hfeeds, (h.past_append g (hfeeds.lt_length hg)).mp hpast⟩
  · rintro (rfl | ⟨i, hfeeds, hpast⟩)
    · exact .inl rfl
    · exact .inr ⟨i, (h.past_append g (hfeeds.lt_length hg)).mpr hpast,
        (hdirect i).mpr hfeeds⟩

theorem CausesEarlier.knownTo_append (h : CausesEarlier events)
    (hcauses : ∀ i ∈ causes, i < events.length) (hp : g.process ≠ p) :
    KnownTo (events ++ [g]) p causes k ↔ KnownTo events p causes k := by
  have hfeeds : ∀ i, Feeds (events ++ [g]) p causes i ↔
      Feeds events p causes i := by
    intro i
    refine or_congr_left ⟨?_, ?_⟩
    · rintro ⟨e, he, hprocess⟩
      rcases Nat.lt_or_ge i events.length with hlt | hge
      · rw [List.getElem?_append_left hlt] at he
        exact ⟨e, he, hprocess⟩
      · obtain ⟨-, rfl⟩ := eq_of_getElem?_last hge he
        exact absurd hprocess hp
    · rintro ⟨e, he, hprocess⟩
      refine ⟨e, ?_, hprocess⟩
      rw [List.getElem?_append_left (List.getElem?_eq_some_iff.mp he).1]
      exact he
  refine exists_congr fun i => ?_
  rw [hfeeds i]
  refine and_congr_right fun hi => ?_
  exact h.past_append g (hi.lt_length hcauses)

theorem knownAt_length (hcauses : ∀ i ∈ causes, i < events.length) :
    KnownAt events p events.length causes k ↔ KnownTo events p causes k := by
  constructor
  · rintro ⟨i, -, hfeeds, hpast⟩
    exact ⟨i, hfeeds, hpast⟩
  · rintro ⟨i, hfeeds, hpast⟩
    exact ⟨i, hfeeds.lt_length hcauses, hfeeds, hpast⟩

private theorem CausesEarlier.knownAt_lt (h : CausesEarlier events) {n : Nat}
    (hk : KnownAt events p n causes k) : k < n := by
  obtain ⟨i, hi, -, hpast⟩ := hk
  exact Nat.lt_of_le_of_lt (h.le_of_past hpast) hi

theorem CausesEarlier.knownAt_append (h : CausesEarlier events) {n : Nat}
    (hn : n ≤ events.length) :
    KnownAt (events ++ [g]) p n causes k ↔ KnownAt events p n causes k := by
  refine exists_congr fun i => and_congr_right fun hi => ?_
  have hlt := Nat.lt_of_lt_of_le hi hn
  rw [h.past_append g hlt, Feeds, Feeds, List.getElem?_append_left hlt]

private theorem knownTo_last :
    KnownTo (events ++ [g]) g.process [] k ↔
      Past (events ++ [g]) k events.length := by
  have hlast : (events ++ [g])[events.length]? = some g :=
    List.getElem?_concat_length
  constructor
  · rintro ⟨i, ⟨e, he, hprocess⟩ | hnone, hpast⟩
    · rcases Nat.lt_or_ge i events.length with hlt | hge
      · exact hpast.tail ⟨e, g, he, hlast, .inl ⟨hprocess, hlt⟩⟩
      · obtain ⟨rfl, -⟩ := eq_of_getElem?_last hge he
        exact hpast
    · cases hnone
  · intro hpast
    exact ⟨events.length, .inl ⟨g, hlast, rfl⟩, hpast⟩

end Known

/-! ## Vector time -/

section Stamped

variable {entry : V → P → Nat} {events : List (Event P V)} {g : Event P V}
  {v w : P → Nat} {p : P} {causes : List Nat}

/-- No stamp knows of an event with a higher number than the last one of its
process. -/
theorem Tells.le_own {S : Nat → Prop} (hw : Tells entry events w S)
    (hv : Tells entry events v (KnownTo events p causes)) : w p ≤ v p := by
  rcases Nat.eq_zero_or_pos (w p) with hzero | hpos
  · rw [hzero]
    exact Nat.zero_le _
  · obtain ⟨k, e, hk, rfl, hnumber⟩ := hw.reached p hpos
    rw [← hnumber, hv.tells k e hk]
    exact ⟨k, .inl ⟨e, hk, rfl⟩, .refl⟩

section Tick

variable [DecidableEq P]
  (hstamp : ∀ q, entry g.stamp q = if q = g.process then v q + 1 else v q)

include hstamp

theorem number_last : g.number entry = v g.process + 1 := by
  rw [number, hstamp, if_pos rfl]

variable (h : Stamped entry events) (hg : ∀ i ∈ g.causes, i < events.length)
  (hv : Tells entry events v (KnownTo events g.process g.causes))

include h hg hv

/-- An event that is counted on what its process knew tells its own past. -/
theorem Stamped.tells_last : Tells entry (events ++ [g]) (entry g.stamp)
    fun k => Past (events ++ [g]) k events.length := by
  have hlast := number_last hstamp
  refine ⟨fun k e hk => ?_, fun q hq => ?_⟩
  · rw [h.earlier.past_last hg]
    rcases Nat.lt_or_ge k events.length with hlt | hge
    · rw [List.getElem?_append_left hlt] at hk
      rw [or_iff_right (Nat.ne_of_lt hlt), ← hv.tells k e hk, hstamp]
      split
      · next hown =>
        -- an event of the same process is known to it
        have hle : e.number entry ≤ v e.process := by
          rw [hv.tells k e hk]
          exact ⟨k, .inl ⟨e, hk, hown⟩, .refl⟩
        exact iff_of_true (Nat.le_succ_of_le hle) hle
      · exact Iff.rfl
    · obtain ⟨rfl, rfl⟩ := eq_of_getElem?_last hge hk
      exact iff_of_true (Nat.le_refl _) (.inl rfl)
  · rw [hstamp] at hq ⊢
    split at hq
    · next hown =>
      refine ⟨events.length, g, List.getElem?_concat_length, hown.symm, ?_⟩
      rw [hlast, hown, if_pos rfl]
    · next hother =>
      obtain ⟨k, e, hk, hprocess, hnumber⟩ := hv.reached q hq
      refine ⟨k, e, ?_, hprocess, ?_⟩
      · rw [List.getElem?_append_left (List.getElem?_eq_some_iff.mp hk).1]
        exact hk
      · rw [hnumber, if_neg hother]

theorem Stamped.append : Stamped entry (events ++ [g]) := by
  refine ⟨h.earlier.append hg, fun i e hi => ?_⟩
  rcases Nat.lt_or_ge i events.length with hlt | hge
  · rw [List.getElem?_append_left hlt] at hi
    have htells := h.tells i e hi
    refine htells.append ?_ (fun k _ => h.earlier.past_append g hlt) ?_
    · rw [number_last hstamp]
      exact Nat.lt_succ_of_le (htells.le_own hv)
    · intro hpast
      have hle := (h.earlier.append hg).le_of_past hpast
      omega
  · obtain ⟨rfl, rfl⟩ := eq_of_getElem?_last hge hi
    exact h.tells_last hstamp hg hv

theorem Stamped.tells_ticked : Tells entry (events ++ [g]) (entry g.stamp)
    (KnownTo (events ++ [g]) g.process []) :=
  (h.tells_last hstamp hg hv).congr (fun _ => rfl) fun _ _ =>
    knownTo_last

omit hg in
/-- What another process knows is told by the same clock as before. -/
theorem Stamped.tells_other
    (hw : Tells entry events w (KnownTo events p causes))
    (hcauses : ∀ i ∈ causes, i < events.length) (hp : g.process ≠ p) :
    Tells entry (events ++ [g]) w (KnownTo (events ++ [g]) p causes) := by
  refine hw.append ?_ (fun k _ => h.earlier.knownTo_append hcauses hp) ?_
  · rw [number_last hstamp]
    exact Nat.lt_succ_of_le (hw.le_own hv)
  · rw [h.earlier.knownTo_append hcauses hp]
    rintro ⟨i, hfeeds, hpast⟩
    have hle := h.earlier.le_of_past hpast
    have hlt := hfeeds.lt_length hcauses
    omega

omit hg in
/-- What was known is told by the same stamp after a further event. -/
theorem Stamped.tells_earlier {n : Nat} (hn : n ≤ events.length)
    (hw : Tells entry events w (KnownAt events p n causes)) :
    Tells entry (events ++ [g]) w (KnownAt (events ++ [g]) p n causes) := by
  refine hw.append ?_ (fun k _ => h.earlier.knownAt_append hn) ?_
  · rw [number_last hstamp]
    exact Nat.lt_succ_of_le (hw.le_own hv)
  · rw [h.earlier.knownAt_append hn]
    exact fun hknown =>
      absurd (h.earlier.knownAt_lt hknown) (Nat.not_lt.mpr hn)

end Tick

/-- An event is known exactly when no entry of its stamp is above what tells. -/
theorem Stamped.le_iff {S : Nat → Prop} (h : Stamped entry events)
    (hw : Tells entry events w S) (hS : ∀ k i, Past events k i → S i → S k)
    {i : Nat} {e : Event P V} (hi : events[i]? = some e) :
    S i ↔ ∀ p, entry e.stamp p ≤ w p := by
  constructor
  · intro hknown p
    rcases Nat.eq_zero_or_pos (entry e.stamp p) with hzero | hpos
    · rw [hzero]
      exact Nat.zero_le _
    · obtain ⟨k, a, hk, rfl, hnumber⟩ := (h.tells i e hi).reached p hpos
      have hki := ((h.tells i e hi).tells k a hk).mp (Nat.le_of_eq hnumber)
      rw [← hnumber]
      exact (hw.tells k a hk).mpr (hS k i hki hknown)
  · intro hle
    exact (hw.tells i e hi).mp (hle e.process)

theorem past_knownAt {i n : Nat} {k : Nat} (hpast : Past events k i)
    (h : KnownAt events p n causes i) : KnownAt events p n causes k := by
  obtain ⟨j, hj, hfeeds, hij⟩ := h
  exact ⟨j, hj, hfeeds, hpast.trans hij⟩

/-- One event is in the past of another one exactly when no entry of its stamp is
above the other stamp. -/
theorem Stamped.past_iff (h : Stamped entry events) {i j : Nat} {e f : Event P V}
    (hi : events[i]? = some e) (hj : events[j]? = some f) :
    Past events i j ↔ ∀ p, entry e.stamp p ≤ entry f.stamp p :=
  h.le_iff (h.tells j f hj) (fun _ _ hpast hij => hpast.trans hij) hi

theorem Stamped.before_iff (h : Stamped entry events) {i j : Nat}
    {e f : Event P V} (hi : events[i]? = some e) (hj : events[j]? = some f) :
    Before events i j ↔ (∀ p, entry e.stamp p ≤ entry f.stamp p) ∧
      ∃ p, entry e.stamp p < entry f.stamp p := by
  constructor
  · intro hbefore
    refine ⟨(h.past_iff hi hj).mp hbefore.to_reflTransGen, ?_⟩
    by_contra hnone
    have hback : Past events j i := (h.past_iff hj hi).mpr fun p =>
      Nat.not_lt.mp fun hlt => hnone ⟨p, hlt⟩
    have hle := h.earlier.le_of_past hback
    exact absurd (h.earlier.lt_of_before hbefore) (Nat.not_lt.mpr hle)
  · rintro ⟨hle, p, hlt⟩
    have hpast := (h.past_iff hi hj).mpr hle
    rcases Relation.reflTransGen_iff_eq_or_transGen.mp hpast with rfl | hbefore
    · obtain rfl := Option.some.inj (hi.symm.trans hj)
      exact absurd hlt (Nat.lt_irrefl _)
    · exact hbefore

end Stamped

end Event

end DistributedMemory.Library
