import DistributedMemory.Election.Bully

/-!
# Bully agreement

Only the highest live node ever declares itself: the timers of the others expire
too late to matter.  Its epoch counts its own elections; `settledEpoch` is that of
its last announcement.  No other node is ahead of it by more than the election it
is in, and such an election is sure to be ended by an announcement that is still to
come: the ELECTION message that brings the highest node to start one is under way,
or it is in an election already, or the COORDINATOR message is under way with an
epoch that the node will not drop.
-/

namespace DistributedMemory.Election

open DistributedMemory.Library
open DistributedMemory.Network (NodeId)

namespace BullyConfig

variable (c : BullyConfig)

/-- The highest live id. -/
def highest : NodeId := c.live.max' c.someLive

theorem highest_live : c.highest ∈ c.live := c.live.max'_mem _

theorem le_highest {n : NodeId} (h : n ∈ c.live) : n ≤ c.highest :=
  c.live.le_max' n h

theorem lt_highest {n : NodeId} (h : n ∈ c.live) (hne : n ≠ c.highest) :
    n < c.highest :=
  Nat.lt_of_le_of_ne (c.le_highest h) hne

theorem highest_mem_higherNodes {n : NodeId} (h : n ∈ c.live)
    (hne : n ≠ c.highest) : c.highest ∈ c.higherNodes n := by
  rw [higherNodes, List.mem_filter]
  exact ⟨c.known _ c.highest_live, by simpa using c.lt_highest h hne⟩

end BullyConfig

/-! ## What is under way -/

inductive BullyItem where
  | message (sender : NodeId) (msg : BullyMsg)
  | task (todo : BullyTask)
  | timer (epoch : Nat)

namespace BullySystem

def items (s : BullySystem) : List (NodeId × BullyItem) :=
  s.network.map (fun packet => (packet.target, .message packet.sender packet.msg))
    ++ (s.running.map (fun (n, todo) => (n, .task todo)) ++
      s.timers.map (fun (n, epoch) => (n, .timer epoch)))

theorem not_mem_items_of_quiet {s : BullySystem} (hquiet : s.Quiet)
    (x : NodeId × BullyItem) : x ∉ s.items := by
  intro hmem
  rw [items, hquiet.1, hquiet.2.1, hquiet.2.2] at hmem
  cases hmem

def settledEpoch (c : BullyConfig) (s : BullySystem) : Nat :=
  (s.node c.highest).epoch -
    if (s.node c.highest).inElection then 1 else 0

/-- What holds of an item at node `n`.  Only the highest node declares and
announces, with an epoch that it has announced; the timer of another node is of no
use to it. -/
def Fits (c : BullyConfig) (s : BullySystem) (n : NodeId) : BullyItem → Prop
  | .message _ (.election _) => True
  | .message _ .electionOk => n ≠ c.highest
  | .message _ (.coordinator leaderId epoch) =>
      n ≠ c.highest ∧ leaderId = c.highest ∧ epoch ≤ s.settledEpoch c
  | .task (.answer sender) => sender < n
  | .task .start => True
  | .task (.elect epoch _) => epoch ≤ (s.node n).epoch
  | .task (.onTimeout epoch) =>
      n = c.highest ∨ epoch < (s.node n).epoch ∨
        epoch = (s.node n).epoch ∧ (s.node n).gotOk = true
  | .task (.declare _) => n = c.highest
  | .task (.announce epoch) => n = c.highest ∧ epoch ≤ s.settledEpoch c
  | .task (.broadcast epoch targets) =>
      n = c.highest ∧ epoch ≤ s.settledEpoch c ∧ c.highest ∉ targets
  | .task (.adopt leaderId) => leaderId = c.highest
  | .timer epoch => epoch ≤ (s.node n).epoch

/-- The item at node `n` will bring the highest node to start an election, for the
sake of node `m`. -/
def Calls (c : BullyConfig) (m n : NodeId) : BullyItem → Prop
  | .message sender (.election _) => n = c.highest ∧ sender = m
  | .task (.answer _) => n = c.highest
  | .task .start => n = c.highest
  | .task (.elect _ targets) => n = m ∧ c.highest ∈ targets
  | _ => False

/-- The item at node `n` will bring node `m` an announcement whose epoch is not
below `bound`. -/
def Brings (c : BullyConfig) (m : NodeId) (bound : Nat) (n : NodeId) :
    BullyItem → Prop
  | .message _ (.coordinator _ epoch) => n = m ∧ bound ≤ epoch
  | .task (.announce epoch) => m ≠ c.highest ∧ bound ≤ epoch
  | .task (.broadcast epoch targets) => m ∈ targets ∧ bound ≤ epoch
  | _ => False

/-- The item goes on with the election of epoch `epoch` at its node. -/
def Continues (epoch : Nat) : BullyItem → Prop
  | .task (.elect e _) => e = epoch
  | .timer e => e = epoch
  | .task (.onTimeout e) => e = epoch
  | .task (.declare e) => e = epoch
  | _ => False

def Awaited (c : BullyConfig) (s : BullySystem) (m : NodeId) : Prop :=
  ∃ n item, (n, item) ∈ s.items ∧ Brings c m (s.node m).epoch n item

def Called (c : BullyConfig) (s : BullySystem) (m : NodeId) : Prop :=
  (s.node c.highest).inElection = true ∨
    ∃ n item, (n, item) ∈ s.items ∧ Calls c m n item

structure Inv (c : BullyConfig) (s : BullySystem) : Prop where
  fits : ∀ n item, (n, item) ∈ s.items → n ∈ c.live ∧ Fits c s n item
  leaders : ∀ n leaderId, (s.node n).leaderId = some leaderId →
    leaderId = c.highest
  /-- Nobody answers the highest node. -/
  unanswered : (s.node c.highest).gotOk = false
  epochs : ∀ n ∈ c.live, n ≠ c.highest → (s.node n).epoch ≤
    s.settledEpoch c + if (s.node n).inElection then 1 else 0
  active : ∀ n, (s.node n).inElection = true → 0 < (s.node n).epoch
  continued : (s.node c.highest).inElection = true →
    ∃ item, (c.highest, item) ∈ s.items ∧
      Continues (s.node c.highest).epoch item
  ended : ∀ n ∈ c.live, n ≠ c.highest → (s.node n).inElection = true →
    s.Called c n ∨ s.Awaited c n
  told : 0 < s.settledEpoch c → ∀ n ∈ c.live, n ≠ c.highest →
    (s.node n).leaderId = some c.highest ∨ (s.node n).inElection = true ∨
      (n, .task (.adopt c.highest)) ∈ s.items ∨ s.Awaited c n
  announced : 0 < s.settledEpoch c →
    (s.node c.highest).leaderId = some c.highest ∨
      ∃ epoch, (c.highest, .task (.announce epoch)) ∈ s.items

theorem inv_new (c : BullyConfig) : new.Inv c := by
  have hnone : ∀ n item, (n, item) ∉ new.items := by
    intro n item hmem
    simp [new, items] at hmem
  have hzero : new.settledEpoch c = 0 := rfl
  refine ⟨fun n item h => absurd h (hnone n item), fun n l h => (by cases h),
    rfl, fun n _ _ => Nat.zero_le _, fun n h => (by cases h),
    fun h => (by cases h), fun n _ _ h => (by cases h), fun h => ?_,
    fun h => ?_⟩
  · rw [hzero] at h
    exact absurd h (Nat.lt_irrefl 0)
  · rw [hzero] at h
    exact absurd h (Nat.lt_irrefl 0)

/-- A step at node `n` takes the items `gone` away and puts `fresh` in; `rest` is
what stays. -/
structure Effect (s s' : BullySystem) (n : NodeId)
    (gone fresh rest : List (NodeId × BullyItem)) : Prop where
  elsewhere : ∀ q, q ≠ n → s'.node q = s.node q
  before : s.items.Perm (gone ++ rest)
  after : s'.items.Perm (fresh ++ rest)

section Effect

variable {s s' : BullySystem} {n : NodeId}
  {gone fresh rest : List (NodeId × BullyItem)}

theorem Effect.mem_before (h : Effect s s' n gone fresh rest)
    {x : NodeId × BullyItem} : x ∈ s.items ↔ x ∈ gone ∨ x ∈ rest := by
  rw [h.before.mem_iff, List.mem_append]

theorem Effect.mem_after (h : Effect s s' n gone fresh rest)
    {x : NodeId × BullyItem} : x ∈ s'.items ↔ x ∈ fresh ∨ x ∈ rest := by
  rw [h.after.mem_iff, List.mem_append]

theorem Effect.kept (h : Effect s s' n gone fresh rest)
    {x : NodeId × BullyItem} (hx : x ∈ s.items) : x ∈ s'.items ∨ x ∈ gone := by
  rcases h.mem_before.mp hx with hx | hx
  · exact .inr hx
  · exact .inl (h.mem_after.mpr (.inr hx))

theorem Effect.came (h : Effect s s' n gone fresh rest)
    {x : NodeId × BullyItem} (hx : x ∈ s'.items) : x ∈ s.items ∨ x ∈ fresh := by
  rcases h.mem_after.mp hx with hx | hx
  · exact .inr hx
  · exact .inl (h.mem_before.mpr (.inr hx))

theorem Effect.stays (h : Effect s s' n gone fresh rest)
    {x : NodeId × BullyItem} (hx : x ∈ s.items) (hnot : x ∉ gone) : x ∈ s'.items :=
  (h.kept hx).resolve_right hnot

theorem Effect.field_eq {β : Type} (h : Effect s s' n gone fresh rest)
    {field : BullyElection → β} (hn : field (s'.node n) = field (s.node n))
    (q : NodeId) : field (s'.node q) = field (s.node q) := by
  by_cases hq : q = n
  · rw [hq, hn]
  · rw [h.elsewhere q hq]

end Effect

/-! ## Steps that leave the elections as they are -/

/-- Node `n` stays in its epoch and in or out of its election. -/
structure Same (c : BullyConfig) (s s' : BullySystem) (n : NodeId) : Prop where
  epoch : (s'.node n).epoch = (s.node n).epoch
  inElection : (s'.node n).inElection = (s.node n).inElection
  gotOk : (s.node n).gotOk = true → (s'.node n).gotOk = true
  leader : (s'.node n).leaderId = (s.node n).leaderId ∨
    (s'.node n).leaderId = some c.highest

/-- What the items taken away were good for, the new items are good for. -/
structure Replaces (c : BullyConfig) (s' : BullySystem)
    (gone fresh : List (NodeId × BullyItem)) : Prop where
  calls : ∀ n item, (n, item) ∈ gone → ∀ m ∈ c.live, m ≠ c.highest →
    Calls c m n item → (s'.node c.highest).inElection = true ∨
      ∃ n' item', (n', item') ∈ fresh ∧ Calls c m n' item'
  brings : ∀ n item, (n, item) ∈ gone → ∀ m ∈ c.live, ∀ bound,
    bound = (s'.node m).epoch → Brings c m bound n item →
      ∃ n' item', (n', item') ∈ fresh ∧ Brings c m bound n' item'
  continues : ∀ item, (c.highest, item) ∈ gone →
    (s'.node c.highest).inElection = true →
    Continues (s'.node c.highest).epoch item →
      ∃ item', (c.highest, item') ∈ fresh ∧
        Continues (s'.node c.highest).epoch item'
  adopts : ∀ n, (n, .task (.adopt c.highest)) ∈ gone →
    (s'.node n).leaderId = some c.highest
  announces : ∀ epoch, (c.highest, .task (.announce epoch)) ∈ gone →
    (s'.node c.highest).leaderId = some c.highest

section Same

variable {c : BullyConfig} {s s' : BullySystem} {n : NodeId}
  {gone fresh rest : List (NodeId × BullyItem)}

theorem epoch_same (he : Effect s s' n gone fresh rest) (hsame : Same c s s' n)
    (q : NodeId) : (s'.node q).epoch = (s.node q).epoch :=
  he.field_eq hsame.epoch q

theorem inElection_same (he : Effect s s' n gone fresh rest)
    (hsame : Same c s s' n) (q : NodeId) :
    (s'.node q).inElection = (s.node q).inElection :=
  he.field_eq hsame.inElection q

theorem settledEpoch_same (he : Effect s s' n gone fresh rest)
    (hsame : Same c s s' n) : s'.settledEpoch c = s.settledEpoch c := by
  rw [settledEpoch, settledEpoch, epoch_same he hsame,
    inElection_same he hsame]

theorem leader_kept (he : Effect s s' n gone fresh rest) (hsame : Same c s s' n)
    {q : NodeId} (hq : (s.node q).leaderId = some c.highest) :
    (s'.node q).leaderId = some c.highest := by
  by_cases hqn : q = n
  · subst hqn
    rcases hsame.leader with hl | hl
    · rw [hl, hq]
    · exact hl
  · rw [he.elsewhere q hqn, hq]

/-- Epochs and announcements only go up, so that an item keeps fitting. -/
structure Grows (c : BullyConfig) (s s' : BullySystem) : Prop where
  epoch : ∀ q, (s.node q).epoch ≤ (s'.node q).epoch
  answered : ∀ q, (s.node q).gotOk = true → (s'.node q).gotOk = true ∨
    (s.node q).epoch < (s'.node q).epoch
  settled : s.settledEpoch c ≤ s'.settledEpoch c

theorem Fits.grows (hgrows : Grows c s s') {q : NodeId} {item : BullyItem}
    (h : Fits c s q item) : Fits c s' q item := by
  have hepoch := hgrows.epoch q
  have hsettled := hgrows.settled
  cases item with
  | message sender msg =>
      cases msg with
      | election epoch => exact h
      | electionOk => exact h
      | coordinator leaderId epoch =>
          exact ⟨h.1, h.2.1, Nat.le_trans h.2.2 hsettled⟩
  | task todo =>
      cases todo with
      | answer sender => exact h
      | start => exact h
      | elect epoch targets => exact Nat.le_trans h hepoch
      | onTimeout epoch =>
          rcases h with hhigh | hlt | ⟨heq, hok⟩
          · exact .inl hhigh
          · exact .inr (.inl (Nat.lt_of_lt_of_le hlt hepoch))
          · rcases hgrows.answered q hok with hok' | hlt
            · rcases Nat.eq_or_lt_of_le hepoch with hsame | hlt
              · exact .inr (.inr ⟨heq.trans hsame, hok'⟩)
              · exact .inr (.inl (heq ▸ hlt))
            · exact .inr (.inl (heq ▸ hlt))
      | declare epoch => exact h
      | announce epoch => exact ⟨h.1, Nat.le_trans h.2 hsettled⟩
      | broadcast epoch targets =>
          exact ⟨h.1, Nat.le_trans h.2.1 hsettled, h.2.2⟩
      | adopt leaderId => exact h
  | timer epoch => exact Nat.le_trans h hepoch

theorem Effect.grows (he : Effect s s' n gone fresh rest)
    (hepoch : (s.node n).epoch ≤ (s'.node n).epoch)
    (hanswered : (s.node n).gotOk = true → (s'.node n).gotOk = true ∨
      (s.node n).epoch < (s'.node n).epoch)
    (hsettled : s.settledEpoch c ≤ s'.settledEpoch c) : Grows c s s' := by
  refine ⟨fun q => ?_, fun q hok => ?_, hsettled⟩
  · by_cases hq : q = n
    · rwa [hq]
    · rw [he.elsewhere q hq]
  · by_cases hq : q = n
    · subst hq
      exact hanswered hok
    · rw [he.elsewhere q hq]
      exact .inl hok

theorem grows_of_same (he : Effect s s' n gone fresh rest)
    (hsame : Same c s s' n) : Grows c s s' :=
  he.grows (Nat.le_of_eq hsame.epoch.symm) (fun hok => .inl (hsame.gotOk hok))
    (Nat.le_of_eq (settledEpoch_same he hsame).symm)

theorem fits_effect (h : s.Inv c) (he : Effect s s' n gone fresh rest)
    (hgrows : Grows c s s')
    (hfresh : ∀ q item, (q, item) ∈ fresh → q ∈ c.live ∧ Fits c s' q item)
    (q : NodeId) (item : BullyItem) (hmem : (q, item) ∈ s'.items) :
    q ∈ c.live ∧ Fits c s' q item := by
  rcases he.came hmem with hold | hnew
  · obtain ⟨hq, hfits⟩ := h.fits q item hold
    exact ⟨hq, hfits.grows hgrows⟩
  · exact hfresh q item hnew

theorem awaited_same (he : Effect s s' n gone fresh rest)
    (hsame : Same c s s' n) (hreplaces : Replaces c s' gone fresh) {m : NodeId}
    (hm : m ∈ c.live) (h : s.Awaited c m) : s'.Awaited c m := by
  obtain ⟨q, item, hmem, hbrings⟩ := h
  rw [← epoch_same he hsame] at hbrings
  rcases he.kept hmem with hkept | hgone
  · exact ⟨q, item, hkept, hbrings⟩
  · obtain ⟨q', item', hnew, hbrings'⟩ :=
      hreplaces.brings q item hgone m hm _ rfl hbrings
    exact ⟨q', item', he.mem_after.mpr (.inl hnew), hbrings'⟩

private theorem called_same (he : Effect s s' n gone fresh rest)
    (hsame : Same c s s' n) (hreplaces : Replaces c s' gone fresh) {m : NodeId}
    (hm : m ∈ c.live) (hne : m ≠ c.highest) (h : s.Called c m) :
    s'.Called c m := by
  rcases h with hin | ⟨q, item, hmem, hcalls⟩
  · rw [← inElection_same he hsame] at hin
    exact .inl hin
  · rcases he.kept hmem with hkept | hgone
    · exact .inr ⟨q, item, hkept, hcalls⟩
    · rcases hreplaces.calls q item hgone m hm hne hcalls with
        hin | ⟨q', item', hnew, hcalls'⟩
      · exact .inl hin
      · exact .inr ⟨q', item', he.mem_after.mpr (.inl hnew), hcalls'⟩

theorem Inv.same (h : s.Inv c) (he : Effect s s' n gone fresh rest)
    (hsame : Same c s s' n) (hreplaces : Replaces c s' gone fresh)
    (hfresh : ∀ q item, (q, item) ∈ fresh → q ∈ c.live ∧ Fits c s' q item)
    (hquiet : n = c.highest → (s'.node n).gotOk = (s.node n).gotOk) :
    s'.Inv c := by
  have hin := inElection_same he hsame
  have hepoch := epoch_same he hsame
  have hsettled := settledEpoch_same he hsame
  refine ⟨fits_effect h he (grows_of_same he hsame) hfresh, fun q l hq => ?_, ?_,
    fun q hq hne => ?_, fun q hq => ?_, fun hopen => ?_,
    fun q hq hne hopen => ?_, fun hpos q hq hne => ?_, fun hpos => ?_⟩
  · by_cases hqn : q = n
    · subst hqn
      rcases hsame.leader with hl | hl
      · exact h.leaders q l (hl ▸ hq)
      · rw [hl] at hq
        exact (Option.some.inj hq).symm
    · exact h.leaders q l (he.elsewhere q hqn ▸ hq)
  · by_cases hn : n = c.highest
    · rw [← hn, hquiet hn, hn]
      exact h.unanswered
    · rw [he.elsewhere _ (Ne.symm hn)]
      exact h.unanswered
  · rw [hepoch, hin, hsettled]
    exact h.epochs q hq hne
  · rw [hin] at hq
    rw [hepoch]
    exact h.active q hq
  · have hopen' := hopen
    rw [hin] at hopen'
    obtain ⟨item, hmem, hcont⟩ := h.continued hopen'
    rw [← hepoch] at hcont
    rcases he.kept hmem with hkept | hgone
    · exact ⟨item, hkept, hcont⟩
    · obtain ⟨item', hnew, hcont'⟩ :=
        hreplaces.continues item hgone hopen hcont
      exact ⟨item', he.mem_after.mpr (.inl hnew), hcont'⟩
  · rw [hin] at hopen
    exact (h.ended q hq hne hopen).imp (called_same he hsame hreplaces hq hne)
      (awaited_same he hsame hreplaces hq)
  · rw [hsettled] at hpos
    rw [hin]
    rcases h.told hpos q hq hne with hl | hopen | hmem | hawaited
    · exact .inl (leader_kept he hsame hl)
    · exact .inr (.inl hopen)
    · rcases he.kept hmem with hkept | hgone
      · exact .inr (.inr (.inl hkept))
      · exact .inl (hreplaces.adopts q hgone)
    · exact .inr (.inr (.inr (awaited_same he hsame hreplaces hq hawaited)))
  · rw [hsettled] at hpos
    rcases h.announced hpos with hl | ⟨epoch, hmem⟩
    · exact .inl (leader_kept he hsame hl)
    · rcases he.kept hmem with hkept | hgone
      · exact .inr ⟨epoch, hkept⟩
      · exact .inl (hreplaces.announces epoch hgone)

theorem replaces_one {item : BullyItem}
    (hcalls : ∀ m ∈ c.live, m ≠ c.highest → Calls c m n item →
      (s'.node c.highest).inElection = true ∨
        ∃ n' item', (n', item') ∈ fresh ∧ Calls c m n' item')
    (hbrings : ∀ m ∈ c.live, ∀ bound, bound = (s'.node m).epoch →
      Brings c m bound n item →
        ∃ n' item', (n', item') ∈ fresh ∧ Brings c m bound n' item')
    (hcontinues : n = c.highest → (s'.node c.highest).inElection = true →
      Continues (s'.node c.highest).epoch item →
        ∃ item', (c.highest, item') ∈ fresh ∧
          Continues (s'.node c.highest).epoch item')
    (hleader : item = .task (.adopt c.highest) ∨
      (∃ epoch, item = .task (.announce epoch)) →
        (s'.node n).leaderId = some c.highest) :
    Replaces c s' [(n, item)] fresh := by
  refine ⟨fun q i hmem => ?_, fun q i hmem => ?_, fun i hmem => ?_,
    fun q hmem => ?_, fun epoch hmem => ?_⟩
  · cases List.mem_singleton.mp hmem
    exact hcalls
  · cases List.mem_singleton.mp hmem
    exact hbrings
  · cases List.mem_singleton.mp hmem
    exact hcontinues rfl
  · cases List.mem_singleton.mp hmem
    exact hleader (.inl rfl)
  · cases List.mem_singleton.mp hmem
    exact hleader (.inr ⟨epoch, rfl⟩)

end Same

/-! ## The three steps that change an election -/

section Change

variable {c : BullyConfig} {s s' : BullySystem} {n : NodeId}
  {gone fresh rest : List (NodeId × BullyItem)}

theorem settledEpoch_elsewhere (he : Effect s s' n gone fresh rest)
    (hn : n ≠ c.highest) : s'.settledEpoch c = s.settledEpoch c := by
  rw [settledEpoch, settledEpoch, he.elsewhere _ (Ne.symm hn)]

theorem awaited_elsewhere (he : Effect s s' n gone fresh rest) {q : NodeId}
    (hq : q ≠ n) (hgone : ∀ p item, (p, item) ∈ gone →
      ¬ Brings c q (s.node q).epoch p item) (h : s.Awaited c q) :
    s'.Awaited c q := by
  obtain ⟨p, item, hmem, hbrings⟩ := h
  refine ⟨p, item, he.stays hmem fun hmem' => hgone p item hmem' hbrings, ?_⟩
  rwa [he.elsewhere q hq]

private theorem firstTask_cases (hn : n ∈ c.live) (epoch : Nat) {item : BullyItem}
    (hitem : item = .task (if c.higherNodes n = [] then .declare epoch
      else .elect epoch (c.higherNodes n))) :
    n = c.highest ∧ item = .task (.declare epoch) ∨
      c.highest ∈ c.higherNodes n ∧
        item = .task (.elect epoch (c.higherNodes n)) ∨
      n = c.highest ∧ item = .task (.elect epoch (c.higherNodes n)) := by
  by_cases hnh : n = c.highest
  · by_cases hnone : c.higherNodes n = []
    · rw [if_pos hnone] at hitem
      exact .inl ⟨hnh, hitem⟩
    · rw [if_neg hnone] at hitem
      exact .inr (.inr ⟨hnh, hitem⟩)
  · have hmem := c.highest_mem_higherNodes hn hnh
    rw [if_neg (List.ne_nil_of_mem hmem)] at hitem
    exact .inr (.inl ⟨hmem, hitem⟩)

theorem Inv.began (h : s.Inv c) (hn : n ∈ c.live)
    (hout : (s.node n).inElection = false)
    (he : Effect s s' n gone fresh rest)
    (hgone : ∀ q item, (q, item) ∈ gone → q = n ∧ item = .task .start)
    (hfresh : fresh = [(n, .task (if c.higherNodes n = [] then
      .declare ((s.node n).epoch + 1)
      else .elect ((s.node n).epoch + 1) (c.higherNodes n)))])
    (hin : (s'.node n).inElection = true)
    (hepoch : (s'.node n).epoch = (s.node n).epoch + 1)
    (hok : (s'.node n).gotOk = false)
    (hleader : (s'.node n).leaderId = (s.node n).leaderId) : s'.Inv c := by
  have hsettled : s'.settledEpoch c = s.settledEpoch c := by
    by_cases hnh : n = c.highest
    · rw [settledEpoch, settledEpoch, ← hnh, hepoch, hin, hout]
      simp
    · exact settledEpoch_elsewhere he hnh
  have hleaders : ∀ q, (s'.node q).leaderId = (s.node q).leaderId :=
    he.field_eq hleader
  have hnew : ∀ q item, (q, item) ∈ fresh → q = n ∧
      (n = c.highest ∧ item = .task (.declare (s'.node n).epoch) ∨
        c.highest ∈ c.higherNodes n ∧
          item = .task (.elect (s'.node n).epoch (c.higherNodes n)) ∨
        n = c.highest ∧
          item = .task (.elect (s'.node n).epoch (c.higherNodes n))) := by
    intro q item hmem
    rw [hfresh, ← hepoch] at hmem
    obtain ⟨hq, hitem⟩ := Prod.mk.inj (List.mem_singleton.mp hmem)
    exact ⟨hq, firstTask_cases hn _ hitem⟩
  obtain ⟨item₀, hitem₀⟩ : ∃ item, (n, item) ∈ fresh := by
    rw [hfresh]
    exact ⟨_, List.mem_singleton_self _⟩
  have hkept : ∀ {q item}, (q, item) ∈ s.items → item ≠ .task .start →
      (q, item) ∈ s'.items := by
    intro q item hmem hne
    exact he.stays hmem fun hmem' => hne (hgone q item hmem').2
  have hlt : (s.node n).epoch < (s'.node n).epoch := by
    rw [hepoch]
    exact Nat.lt_succ_self _
  have hgrows : Grows c s s' :=
    he.grows (Nat.le_of_lt hlt) (fun _ => .inr hlt) (Nat.le_of_eq hsettled.symm)
  have hawaited : ∀ q, q ≠ n → s.Awaited c q → s'.Awaited c q := by
    intro q hqn
    refine awaited_elsewhere he hqn fun p item hmem hbrings => ?_
    obtain ⟨-, rfl⟩ := hgone p item hmem
    cases hbrings
  refine ⟨fits_effect h he hgrows ?_, fun q l hq => ?_, ?_, fun q hq hne => ?_,
    fun q hq => ?_, fun hopen => ?_, fun q hq hne hopen => ?_,
    fun hpos q hq hne => ?_, fun hpos => ?_⟩
  · intro q item hmem
    obtain ⟨rfl, hcases⟩ := hnew q item hmem
    refine ⟨hn, ?_⟩
    rcases hcases with ⟨hnh, rfl⟩ | ⟨-, rfl⟩ | ⟨-, rfl⟩
    · exact hnh
    · exact Nat.le_refl _
    · exact Nat.le_refl _
  · exact h.leaders q l (hleaders q ▸ hq)
  · by_cases hnh : c.highest = n
    · rw [hnh, hok]
    · rw [he.elsewhere _ hnh]
      exact h.unanswered
  · rw [hsettled]
    have hold := h.epochs q hq hne
    by_cases hqn : q = n
    · subst hqn
      rw [hout] at hold
      rw [hepoch, hin]
      simpa using hold
    · rwa [he.elsewhere q hqn]
  · by_cases hqn : q = n
    · rw [hqn, hepoch]
      exact Nat.succ_pos _
    · rw [he.elsewhere q hqn] at hq ⊢
      exact h.active q hq
  · by_cases hnh : c.highest = n
    · rw [hnh]
      refine ⟨item₀, he.mem_after.mpr (.inl hitem₀), ?_⟩
      rcases (hnew n item₀ hitem₀).2 with ⟨-, rfl⟩ | ⟨-, rfl⟩ | ⟨-, rfl⟩
      · rfl
      · rfl
      · rfl
    · rw [he.elsewhere _ hnh] at hopen ⊢
      obtain ⟨item, hmem, hcont⟩ := h.continued hopen
      refine ⟨item, hkept hmem ?_, hcont⟩
      rintro rfl
      cases hcont
  · by_cases hqn : q = n
    · subst hqn
      refine .inl (.inr ⟨q, item₀, he.mem_after.mpr (.inl hitem₀), ?_⟩)
      rcases (hnew q item₀ hitem₀).2 with ⟨hnh, -⟩ | ⟨hmem, rfl⟩ | ⟨hnh, -⟩
      · exact absurd hnh hne
      · exact ⟨rfl, hmem⟩
      · exact absurd hnh hne
    · rw [he.elsewhere q hqn] at hopen
      refine (h.ended q hq hne hopen).imp (fun hcalled => ?_) (hawaited q hqn)
      by_cases hnh : c.highest = n
      · exact .inl (hnh ▸ hin)
      · rcases hcalled with hopen' | ⟨p, item, hmem, hcalls⟩
        · rw [← he.elsewhere _ hnh] at hopen'
          exact .inl hopen'
        · rcases he.kept hmem with hmem' | hmem'
          · exact .inr ⟨p, item, hmem', hcalls⟩
          · obtain ⟨rfl, rfl⟩ := hgone p item hmem'
            exact absurd hcalls.symm hnh
  · rw [hsettled] at hpos
    rw [hleaders]
    by_cases hqn : q = n
    · rw [hqn]
      exact .inr (.inl hin)
    · rw [he.elsewhere q hqn]
      rcases h.told hpos q hq hne with hl | hopen | hmem | haw
      · exact .inl hl
      · exact .inr (.inl hopen)
      · exact .inr (.inr (.inl (hkept hmem (by simp))))
      · exact .inr (.inr (.inr (hawaited q hqn haw)))
  · rw [hsettled] at hpos
    rw [hleaders]
    exact (h.announced hpos).imp id fun ⟨epoch, hmem⟩ =>
      ⟨epoch, hkept hmem (by simp)⟩

theorem Inv.declared (h : s.Inv c) {epoch : Nat}
    (he : Effect s s' n [(n, .task (.declare epoch))]
      [(n, .task (.announce epoch))] rest)
    (hepoch : epoch = (s.node n).epoch)
    (hsame : s'.node n = { s.node n with inElection := false }) : s'.Inv c := by
  have hdeclare := he.mem_before.mpr (.inl (List.mem_singleton_self _))
  obtain ⟨hn, hnh⟩ := h.fits n _ hdeclare
  change n = c.highest at hnh
  subst hnh
  have hannounce := he.mem_after.mpr (.inl (List.mem_singleton_self _))
  have hsettled : s'.settledEpoch c = epoch := by
    rw [settledEpoch, hsame, hepoch]
    simp
  have hmono : s.settledEpoch c ≤ epoch := by
    rw [settledEpoch, hepoch]
    exact Nat.sub_le _ _
  have hkept : ∀ {q item}, (q, item) ∈ s.items →
      item ≠ .task (.declare epoch) → (q, item) ∈ s'.items := by
    intro q item hmem hne
    refine he.stays hmem fun hgone => ?_
    cases List.mem_singleton.mp hgone
    exact hne rfl
  have hgrows : Grows c s s' := by
    refine he.grows ?_ (fun hok => .inl ?_) (hsettled ▸ hmono)
    · rw [hsame]
    · rwa [hsame]
  have hawaited : ∀ q, q ≠ c.highest → s.Awaited c q → s'.Awaited c q := by
    intro q hqn
    refine awaited_elsewhere he hqn fun p item hmem hbrings => ?_
    cases List.mem_singleton.mp hmem
    cases hbrings
  -- The new announcement is good for everybody when it ends an election.
  have hreach : (s.node c.highest).inElection = true → ∀ q ∈ c.live,
      q ≠ c.highest → s'.Awaited c q := by
    intro hopen q hq hne
    refine ⟨c.highest, _, hannounce, hne, ?_⟩
    have hbound := h.epochs q hq hne
    have hpos := h.active c.highest hopen
    have hone : (if (s.node q).inElection = true then 1 else 0) ≤ 1 := by
      split <;> omega
    rw [settledEpoch, if_pos hopen] at hbound
    rw [he.elsewhere q hne, hepoch]
    omega
  refine ⟨fits_effect h he hgrows ?_, fun q l hq => ?_, ?_, fun q hq hne => ?_,
    fun q hq => ?_, fun hopen => ?_, fun q hq hne hopen => ?_,
    fun hpos q hq hne => ?_, fun hpos => .inr ⟨epoch, hannounce⟩⟩
  · intro q item hmem
    cases List.mem_singleton.mp hmem
    exact ⟨hn, rfl, Nat.le_of_eq hsettled.symm⟩
  · have hleader : (s'.node q).leaderId = (s.node q).leaderId :=
      he.field_eq (by rw [hsame]) q
    exact h.leaders q l (hleader ▸ hq)
  · rw [hsame]
    exact h.unanswered
  · rw [he.elsewhere q hne, hsettled]
    exact Nat.le_trans (h.epochs q hq hne) (Nat.add_le_add_right hmono _)
  · by_cases hqn : q = c.highest
    · rw [hqn, hsame] at hq
      cases hq
    · rw [he.elsewhere q hqn] at hq ⊢
      exact h.active q hq
  · rw [hsame] at hopen
    cases hopen
  · rw [he.elsewhere q hne] at hopen
    by_cases hhigh : (s.node c.highest).inElection = true
    · exact .inr (hreach hhigh q hq hne)
    · refine (h.ended q hq hne hopen).imp (fun hcalled => ?_) (hawaited q hne)
      rcases hcalled with hhigh' | ⟨p, item, hmem, hcalls⟩
      · exact absurd hhigh' hhigh
      · refine .inr ⟨p, item, hkept hmem ?_, hcalls⟩
        rintro rfl
        cases hcalls
  · rw [he.elsewhere q hne]
    by_cases hhigh : (s.node c.highest).inElection = true
    · exact .inr (.inr (.inr (hreach hhigh q hq hne)))
    · have hpos' : 0 < s.settledEpoch c := by
        rw [settledEpoch, if_neg hhigh, Nat.sub_zero, ← hepoch]
        exact hsettled ▸ hpos
      rcases h.told hpos' q hq hne with hl | hopen | hmem | haw
      · exact .inl hl
      · exact .inr (.inl hopen)
      · exact .inr (.inr (.inl (hkept hmem (by simp))))
      · exact .inr (.inr (.inr (hawaited q hne haw)))

theorem Inv.coordinated (h : s.Inv c) {sender leaderId : NodeId} {epoch : Nat}
    (he : Effect s s' n gone [(n, .task (.adopt leaderId))] rest)
    (hmessage : (n, .message sender (.coordinator leaderId epoch)) ∈ gone)
    (hgone : ∀ q item, (q, item) ∈ gone → q = n ∧
      (item = .message sender (.coordinator leaderId epoch) ∨
        ∃ e, item = .timer e))
    (hle : (s.node n).epoch ≤ epoch)
    (hsame : s'.node n =
      { s.node n with epoch := epoch, inElection := false, timer := none }) :
    s'.Inv c := by
  obtain ⟨hn, hnh, hlead, hbound⟩ :=
    h.fits n _ (he.mem_before.mpr (.inl hmessage))
  subst hlead
  have hadopt := he.mem_after.mpr (.inl (List.mem_singleton_self _))
  have hhigh : s'.node c.highest = s.node c.highest :=
    he.elsewhere _ (Ne.symm hnh)
  have hsettled := settledEpoch_elsewhere (c := c) he hnh
  have hkept : ∀ {q item}, (q, item) ∈ s.items → q ≠ n →
      (q, item) ∈ s'.items := by
    intro q item hmem hne
    exact he.stays hmem fun hmem' => hne (hgone q item hmem').1
  have hkeptTask : ∀ {q todo}, (q, .task todo) ∈ s.items →
      (q, .task todo) ∈ s'.items := by
    intro q todo hmem
    refine he.stays hmem fun hmem' => ?_
    rcases (hgone _ _ hmem').2 with heq | ⟨e, heq⟩
    · cases heq
    · cases heq
  have hgrows : Grows c s s' := by
    refine he.grows ?_ (fun hok => .inl ?_) (Nat.le_of_eq hsettled.symm)
    · rw [hsame]
      exact hle
    · rwa [hsame]
  have hleaders : ∀ q, (s'.node q).leaderId = (s.node q).leaderId :=
    he.field_eq (by rw [hsame])
  have hawaited : ∀ q, q ≠ n → s.Awaited c q → s'.Awaited c q := by
    intro q hqn
    refine awaited_elsewhere he hqn fun p item hmem hbrings => ?_
    obtain ⟨rfl, rfl | ⟨e, rfl⟩⟩ := hgone p item hmem
    · exact hqn hbrings.1.symm
    · cases hbrings
  refine ⟨fits_effect h he hgrows ?_, fun q l hq => ?_, ?_, fun q hq hne => ?_,
    fun q hq => ?_, fun hopen => ?_, fun q hq hne hopen => ?_,
    fun hpos q hq hne => ?_, fun hpos => ?_⟩
  · intro q item hmem
    cases List.mem_singleton.mp hmem
    exact ⟨hn, rfl⟩
  · exact h.leaders q l (hleaders q ▸ hq)
  · rw [hhigh]
    exact h.unanswered
  · rw [hsettled]
    by_cases hqn : q = n
    · rw [hqn, hsame]
      simpa using hbound
    · rw [he.elsewhere q hqn]
      exact h.epochs q hq hne
  · by_cases hqn : q = n
    · rw [hqn, hsame] at hq
      cases hq
    · rw [he.elsewhere q hqn] at hq ⊢
      exact h.active q hq
  · rw [hhigh] at hopen ⊢
    obtain ⟨item, hmem, hcont⟩ := h.continued hopen
    exact ⟨item, hkept hmem (Ne.symm hnh), hcont⟩
  · by_cases hqn : q = n
    · rw [hqn, hsame] at hopen
      cases hopen
    · rw [he.elsewhere q hqn] at hopen
      refine (h.ended q hq hne hopen).imp (fun hcalled => ?_) (hawaited q hqn)
      rcases hcalled with hopen' | ⟨p, item, hmem, hcalls⟩
      · exact .inl (hhigh ▸ hopen')
      · refine .inr ⟨p, item, he.stays hmem fun hmem' => ?_, hcalls⟩
        obtain ⟨-, rfl | ⟨e, rfl⟩⟩ := hgone p item hmem'
        · cases hcalls
        · cases hcalls
  · rw [hsettled] at hpos
    rw [hleaders]
    by_cases hqn : q = n
    · rw [hqn]
      exact .inr (.inr (.inl hadopt))
    · rw [he.elsewhere q hqn]
      rcases h.told hpos q hq hne with hl | hopen | hmem | haw
      · exact .inl hl
      · exact .inr (.inl hopen)
      · exact .inr (.inr (.inl (hkeptTask hmem)))
      · exact .inr (.inr (.inr (hawaited q hqn haw)))
  · rw [hsettled] at hpos
    rw [hleaders]
    exact (h.announced hpos).imp id fun ⟨epoch, hmem⟩ => ⟨epoch, hkeptTask hmem⟩

end Change

/-! ## The items after each action -/

section Items

variable {c : BullyConfig} {s : BullySystem} {n : NodeId}

theorem items_later (s : BullySystem) (n : NodeId) (todo : BullyTask) :
    (s.later n todo).items.Perm ((n, .task todo) :: s.items) :=
  List.perm_middle

theorem items_send (c : BullyConfig) (s : BullySystem) (n target : NodeId)
    (msg : BullyMsg) :
    (s.send c n target msg).items =
      (if target ∈ c.live then [(target, .message n msg)] else []) ++
        s.items := by
  unfold send
  split
  · rfl
  · rfl

theorem items_sendLater (c : BullyConfig) (s : BullySystem) (n target : NodeId)
    (msg : BullyMsg) (next : BullyTask) :
    ((s.send c n target msg).later n next).items.Perm
      ((n, .task next) :: (if target ∈ c.live then
        [(target, .message n msg)] else []) ++ s.items) := by
  rw [List.cons_append, ← items_send]
  exact items_later _ _ _

theorem send_node (c : BullyConfig) (s : BullySystem) (n target : NodeId)
    (msg : BullyMsg) : (s.send c n target msg).node = s.node := by
  unfold send
  split
  · rfl
  · rfl

theorem items_timer (s : BullySystem) (n : NodeId) (epoch : Nat) :
    ({ s with timers := (n, epoch) :: s.timers } : BullySystem).items.Perm
      ((n, .timer epoch) :: s.items) := by
  unfold items
  rw [List.map_cons, ← List.append_assoc, ← List.append_assoc]
  exact List.perm_middle

theorem items_network {packet : Nat} {content : BullyPacket}
    {network : List BullyPacket}
    (hpick : pick s.network packet = some (content, network)) :
    s.items.Perm ((content.target, .message content.sender content.msg) ::
      ({ s with network := network } : BullySystem).items) :=
  ((pick_perm hpick).map _).append_right _

theorem items_running {task : Nat} {todo : BullyTask}
    {running : List (NodeId × BullyTask)}
    (hpick : pick s.running task = some ((n, todo), running)) :
    s.items.Perm ((n, .task todo) ::
      ({ s with running := running } : BullySystem).items) :=
  ((((pick_perm hpick).map _).append_right _).append_left _).trans
    List.perm_middle

theorem items_timers {timers : List (NodeId × Nat)} {epoch : Nat}
    (hperm : s.timers.Perm ((n, epoch) :: timers)) :
    s.items.Perm ((n, .timer epoch) ::
      ({ s with timers := timers } : BullySystem).items) := by
  refine (((hperm.map _).append_left _).append_left _).trans ?_
  unfold items
  rw [List.map_cons, ← List.append_assoc, ← List.append_assoc]
  exact List.perm_middle

theorem items_cancelTimer (s : BullySystem) (n : NodeId) :
    ∃ cancelled : List (NodeId × BullyItem),
      (∀ q item, (q, item) ∈ cancelled → q = n ∧ ∃ e, item = .timer e) ∧
      s.items.Perm (cancelled ++ (s.cancelTimer n).items) ∧
      (s.cancelTimer n).node = s.node := by
  unfold cancelTimer
  split
  · exact ⟨[], by simp, List.Perm.refl _, rfl⟩
  · next epoch htimer =>
    by_cases hmem : (n, epoch) ∈ s.timers
    · refine ⟨[(n, .timer epoch)], ?_, ?_, rfl⟩
      · intro q item hitem
        cases List.mem_singleton.mp hitem
        exact ⟨rfl, epoch, rfl⟩
      · exact items_timers (List.perm_cons_erase hmem)
    · refine ⟨[], by simp, ?_, rfl⟩
      rw [List.erase_of_not_mem hmem]
      exact List.Perm.refl _

end Items

/-! ## Every step -/

section Step

variable {c : BullyConfig} {s s₀ s' : BullySystem} {n : NodeId}

private theorem effect_one {x : NodeId × BullyItem} {fresh : List (NodeId × BullyItem)}
    (hbefore : s.items.Perm (x :: s₀.items)) (hnode : s₀.node = s.node)
    (helsewhere : ∀ q, q ≠ n → s'.node q = s₀.node q)
    (hafter : s'.items.Perm (fresh ++ s₀.items)) :
    Effect s s' n [x] fresh s₀.items :=
  ⟨fun q hq => by rw [helsewhere q hq, hnode], hbefore, hafter⟩

theorem effect_cancels {item : BullyItem} {fresh : List (NodeId × BullyItem)}
    {e : BullyElection} (hbefore : s.items.Perm ((n, item) :: s₀.items))
    (hnode : s₀.node = s.node)
    (hs' : s'.node = Function.update (s₀.cancelTimer n).node n e)
    (hafter : s'.items.Perm (fresh ++ (s₀.cancelTimer n).items)) :
    ∃ gone, Effect s s' n gone fresh (s₀.cancelTimer n).items ∧
      (n, item) ∈ gone ∧ ∀ q i, (q, i) ∈ gone → q = n ∧
        (i = item ∨ ∃ epoch, i = .timer epoch) := by
  obtain ⟨cancelled, htimers, hitems, hcancel⟩ := items_cancelTimer s₀ n
  refine ⟨(n, item) :: cancelled,
    ⟨fun q hq => ?_, hbefore.trans (hitems.cons _), hafter⟩,
    List.mem_cons_self, fun q i hmem => ?_⟩
  · rw [hs', Function.update_of_ne hq, hcancel, hnode]
  · rcases List.mem_cons.mp hmem with heq | hmem
    · cases heq
      exact ⟨rfl, .inl rfl⟩
    · exact ⟨(htimers q i hmem).1, .inr (htimers q i hmem).2⟩

theorem effect_handleElectionOk {sender : NodeId}
    (hbefore : s.items.Perm ((n, .message sender .electionOk) :: s₀.items))
    (hnode : s₀.node = s.node) :
    ∃ gone, Effect s (s₀.handleElectionOk n) n gone [] (s₀.cancelTimer n).items ∧
      (∀ q i, (q, i) ∈ gone → q = n ∧
        (i = .message sender .electionOk ∨ ∃ epoch, i = .timer epoch)) ∧
      (s₀.handleElectionOk n).node n =
        { s.node n with gotOk := true, timer := none } := by
  have hafter : (s₀.handleElectionOk n).items.Perm
      ([] ++ (s₀.cancelTimer n).items) := List.Perm.refl _
  obtain ⟨gone, he, -, hgone⟩ := effect_cancels hbefore hnode rfl hafter
  refine ⟨gone, he, hgone, ?_⟩
  rw [← hnode]
  exact Function.update_self _ _ _

theorem effect_handleCoordinator {sender leaderId : NodeId} {epoch : Nat}
    (hbefore : s.items.Perm
      ((n, .message sender (.coordinator leaderId epoch)) :: s₀.items))
    (hnode : s₀.node = s.node) (hfresh : ¬ epoch < (s.node n).epoch) :
    ∃ gone, Effect s (s₀.handleCoordinator n leaderId epoch) n gone
        [(n, .task (.adopt leaderId))] (s₀.cancelTimer n).items ∧
      (n, .message sender (.coordinator leaderId epoch)) ∈ gone ∧
      (∀ q i, (q, i) ∈ gone → q = n ∧
        (i = .message sender (.coordinator leaderId epoch) ∨
          ∃ e, i = .timer e)) ∧
      (s₀.handleCoordinator n leaderId epoch).node n =
        { s.node n with epoch := epoch, inElection := false, timer := none } := by
  simp only [BullySystem.handleCoordinator, hnode]
  rw [if_neg hfresh]
  have hafter : (((s₀.cancelTimer n).setNode n { s.node n with
      epoch := epoch, inElection := false, timer := none }).later n
      (.adopt leaderId)).items.Perm
      ([(n, .task (.adopt leaderId))] ++ (s₀.cancelTimer n).items) :=
    items_later _ _ _
  obtain ⟨gone, he, hitem, hgone⟩ := effect_cancels hbefore hnode rfl hafter
  exact ⟨gone, he, hitem, hgone, Function.update_self _ _ _⟩

theorem Inv.passive (h : s.Inv c) {item : BullyItem}
    {fresh : List (NodeId × BullyItem)}
    (hbefore : s.items.Perm ((n, item) :: s₀.items)) (hnode : s₀.node = s.node)
    (hnode' : s'.node = s₀.node) (hafter : s'.items.Perm (fresh ++ s₀.items))
    (hreplaces : Replaces c s' [(n, item)] fresh)
    (hfresh : ∀ q item, (q, item) ∈ fresh → q ∈ c.live ∧ Fits c s' q item) :
    s'.Inv c := by
  have hsame : s'.node = s.node := hnode'.trans hnode
  have he : Effect s s' n [(n, item)] fresh s₀.items :=
    effect_one hbefore hnode (fun q _ => by rw [hnode']) hafter
  refine h.same he ⟨?_, ?_, fun hok => ?_, .inl ?_⟩ hreplaces hfresh fun _ => ?_
  · rw [hsame]
  · rw [hsame]
  · rwa [hsame]
  · rw [hsame]
  · rw [hsame]

theorem startElection_cases (c : BullyConfig)
    {gone : List (NodeId × BullyItem)}
    (hbefore : s.items.Perm (gone ++ s₀.items)) (hnode : s₀.node = s.node) :
    ((s.node n).inElection = true ∧ s₀.startElection c n = s₀ ∧
      Effect s s₀ n gone [] s₀.items) ∨
    ((s.node n).inElection = false ∧
      (s₀.startElection c n).node n = { s.node n with
        inElection := true, gotOk := false, epoch := (s.node n).epoch + 1
        electionComplete := false } ∧
      Effect s (s₀.startElection c n) n gone
        [(n, .task (if c.higherNodes n = [] then
          .declare ((s.node n).epoch + 1)
          else .elect ((s.node n).epoch + 1) (c.higherNodes n)))] s₀.items) := by
  unfold BullySystem.startElection
  dsimp only
  rw [hnode]
  cases hin : (s.node n).inElection with
  | true =>
      left
      rw [if_pos rfl]
      exact ⟨rfl, rfl, fun q _ => by rw [hnode], hbefore, List.Perm.refl _⟩
  | false =>
      right
      rw [if_neg Bool.false_ne_true]
      refine ⟨rfl, Function.update_self _ _ _, fun q hq => ?_, hbefore,
        items_later _ _ _⟩
      rw [← hnode]
      exact Function.update_of_ne hq _ _

theorem Inv.startElection (h : s.Inv c) (hn : n ∈ c.live)
    {gone : List (NodeId × BullyItem)}
    (hgone : ∀ q item, (q, item) ∈ gone → q = n ∧ item = .task .start)
    (hbefore : s.items.Perm (gone ++ s₀.items)) (hnode : s₀.node = s.node) :
    (s₀.startElection c n).Inv c := by
  rcases startElection_cases (n := n) c hbefore hnode with
    ⟨hin, heq, he⟩ | ⟨hout, hhere, he⟩
  · rw [heq]
    refine h.same he ⟨by rw [hnode], by rw [hnode], fun hok => by rwa [hnode],
      .inl (by rw [hnode])⟩ ⟨?_, ?_, ?_, ?_, ?_⟩ (by simp)
      fun _ => by rw [hnode]
    · intro q item hmem m _ _ hcalls
      obtain ⟨rfl, rfl⟩ := hgone q item hmem
      have hhigh : q = c.highest := hcalls
      rw [hnode, ← hhigh]
      exact .inl hin
    · intro q item hmem m _ bound _ hbrings
      obtain ⟨rfl, rfl⟩ := hgone q item hmem
      cases hbrings
    · intro item hmem _ hcont
      obtain ⟨-, rfl⟩ := hgone _ item hmem
      cases hcont
    · intro q hmem
      cases (hgone q _ hmem).2
    · intro epoch hmem
      cases (hgone _ _ hmem).2
  · apply h.began hn hout he hgone rfl
    · rw [hhere]
    · rw [hhere]
    · rw [hhere]
    · rw [hhere]

theorem Inv.sends (h : s.Inv c) {todo next : BullyTask} {target : NodeId}
    {msg : BullyMsg} (hn : n ∈ c.live)
    (hbefore : s.items.Perm ((n, .task todo) :: s₀.items))
    (hnode : s₀.node = s.node) (hs' : s' = (s₀.send c n target msg).later n next)
    (hcalls : ∀ m ∈ c.live, m ≠ c.highest → Calls c m n (.task todo) →
      Calls c m n (.task next) ∨
        target ∈ c.live ∧ Calls c m target (.message n msg))
    (hbrings : ∀ m ∈ c.live, ∀ bound, Brings c m bound n (.task todo) →
      Brings c m bound n (.task next) ∨
        target ∈ c.live ∧ Brings c m bound target (.message n msg))
    (hcontinues : ∀ epoch, Continues epoch (.task todo) →
      Continues epoch (.task next))
    (htodo : todo ≠ .adopt c.highest ∧ ∀ epoch, todo ≠ .announce epoch)
    (hnext : Fits c s n (.task next))
    (hmsg : target ∈ c.live → Fits c s target (.message n msg)) : s'.Inv c := by
  have hsame : s'.node = s.node := by
    rw [hs']
    exact (send_node c s₀ n target msg).trans hnode
  have hafter : s'.items.Perm ((n, .task next) :: (if target ∈ c.live then
      [(target, .message n msg)] else []) ++ s₀.items) := by
    rw [hs']
    exact items_sendLater c s₀ n target msg next
  have hmessage : target ∈ c.live → (target, BullyItem.message n msg) ∈
      (n, BullyItem.task next) :: (if target ∈ c.live then
        [(target, BullyItem.message n msg)] else []) := by
    intro htarget
    rw [if_pos htarget]
    simp
  have hgrows : Grows c s s' := by
    refine ⟨fun q => ?_, fun q hq => .inl ?_, ?_⟩
    · rw [hsame]
    · rwa [hsame]
    · rw [settledEpoch, settledEpoch, hsame]
  refine h.passive hbefore hnode (hsame.trans hnode.symm) hafter
    (replaces_one ?_ ?_ ?_ ?_) ?_
  · intro m hm hne hc
    rcases hcalls m hm hne hc with hc | ⟨htarget, hc⟩
    · exact .inr ⟨n, _, List.mem_cons_self, hc⟩
    · exact .inr ⟨target, _, hmessage htarget, hc⟩
  · intro m hm bound _ hb
    rcases hbrings m hm bound hb with hb | ⟨htarget, hb⟩
    · exact ⟨n, _, List.mem_cons_self, hb⟩
    · exact ⟨target, _, hmessage htarget, hb⟩
  · intro hhigh _ hcont
    rw [← hhigh] at hcont ⊢
    exact ⟨_, List.mem_cons_self, hcontinues _ hcont⟩
  · rintro (heq | ⟨epoch, heq⟩)
    · cases heq
      exact absurd rfl htodo.1
    · cases heq
      exact absurd rfl (htodo.2 epoch)
  · intro q item hmem
    rcases List.mem_cons.mp hmem with heq | hmem
    · cases heq
      exact ⟨hn, hnext.grows hgrows⟩
    · split at hmem
      · next htarget =>
        cases List.mem_singleton.mp hmem
        exact ⟨htarget, (hmsg htarget).grows hgrows⟩
      · cases hmem

theorem Inv.goesOn (h : s.Inv c) {item : BullyItem} {next : BullyTask}
    (hn : n ∈ c.live) (hbefore : s.items.Perm ((n, item) :: s₀.items))
    (hnode : s₀.node = s.node)
    (hcalls : ∀ m ∈ c.live, m ≠ c.highest → Calls c m n item →
      Calls c m n (.task next))
    (hbrings : ∀ m bound, ¬ Brings c m bound n item)
    (hcontinues : ∀ epoch, Continues epoch item →
      Continues epoch (.task next))
    (hitem : ∀ todo, item = .task todo →
      todo ≠ .adopt c.highest ∧ ∀ epoch, todo ≠ .announce epoch)
    (hnext : Fits c s n (.task next)) : (s₀.later n next).Inv c := by
  have hgrows : Grows c s (s₀.later n next) := by
    refine ⟨fun q => ?_, fun q hq => .inl ?_, ?_⟩
    · exact Nat.le_of_eq (by rw [← hnode]; rfl)
    · rw [← hnode] at hq
      exact hq
    · rw [settledEpoch, settledEpoch, ← hnode]
      exact Nat.le_refl _
  have hafter : (s₀.later n next).items.Perm
      ([(n, .task next)] ++ s₀.items) := items_later s₀ n next
  refine h.passive hbefore hnode rfl hafter (replaces_one ?_ ?_ ?_ ?_) ?_
  · exact fun m hm hne hc =>
      .inr ⟨n, _, List.mem_cons_self, hcalls m hm hne hc⟩
  · exact fun m _ bound _ hb => absurd hb (hbrings m bound)
  · intro hhigh _ hcont
    rw [← hhigh] at hcont ⊢
    exact ⟨_, List.mem_cons_self, hcontinues _ hcont⟩
  · rintro (heq | ⟨epoch, heq⟩)
    · exact absurd rfl (hitem _ heq).1
    · exact absurd rfl ((hitem _ heq).2 epoch)
  · intro q item' hmem
    cases List.mem_singleton.mp hmem
    exact ⟨hn, hnext.grows hgrows⟩

theorem Inv.drops (h : s.Inv c) {item : BullyItem}
    (hbefore : s.items.Perm ((n, item) :: s₀.items)) (hnode : s₀.node = s.node)
    (hcalls : ∀ m ∈ c.live, m ≠ c.highest → ¬ Calls c m n item)
    (hbrings : ∀ m ∈ c.live, ¬ Brings c m (s.node m).epoch n item)
    (hcontinues : n = c.highest → (s.node c.highest).inElection = true →
      ¬ Continues (s.node c.highest).epoch item)
    (hitem : ∀ todo, item = .task todo →
      todo ≠ .adopt c.highest ∧ ∀ epoch, todo ≠ .announce epoch) :
    s₀.Inv c := by
  refine h.passive hbefore hnode rfl (List.Perm.refl ([] ++ s₀.items))
    (replaces_one ?_ ?_ ?_ ?_) (by simp)
  · exact fun m hm hne hc => absurd hc (hcalls m hm hne)
  · intro m hm bound hbound hb
    rw [hbound, hnode] at hb
    exact absurd hb (hbrings m hm)
  · intro hhigh hin hcont
    rw [hnode] at hin hcont
    exact absurd hcont (hcontinues hhigh hin)
  · rintro (heq | ⟨epoch, heq⟩)
    · exact absurd rfl (hitem _ heq).1
    · exact absurd rfl ((hitem _ heq).2 epoch)

theorem Inv.sets (h : s.Inv c) {item : BullyItem}
    {fresh : List (NodeId × BullyItem)} {e : BullyElection}
    (hbefore : s.items.Perm ((n, item) :: s₀.items))
    (hs' : s'.node = Function.update s.node n e)
    (hafter : s'.items.Perm (fresh ++ s₀.items))
    (hepoch : e.epoch = (s.node n).epoch)
    (hin : e.inElection = (s.node n).inElection)
    (hok : e.gotOk = (s.node n).gotOk)
    (hleader : e.leaderId = (s.node n).leaderId ∨ e.leaderId = some c.highest)
    (hreplaces : Replaces c s' [(n, item)] fresh)
    (hfresh : ∀ q item, (q, item) ∈ fresh → q ∈ c.live ∧ Fits c s q item) :
    s'.Inv c := by
  have hhere : s'.node n = e := by
    rw [hs']
    exact Function.update_self _ _ _
  have he : Effect s s' n [(n, item)] fresh s₀.items := by
    refine ⟨fun q hq => ?_, hbefore, hafter⟩
    rw [hs']
    exact Function.update_of_ne hq _ _
  have hsame : Same c s s' n := by
    refine ⟨?_, ?_, fun h' => ?_, ?_⟩
    · rw [hhere, hepoch]
    · rw [hhere, hin]
    · rw [hhere, hok, h']
    · rwa [hhere]
  refine h.same he hsame hreplaces (fun q item' hmem => ?_) fun _ => ?_
  · obtain ⟨hq, hfits⟩ := hfresh q item' hmem
    exact ⟨hq, hfits.grows (grows_of_same he hsame)⟩
  · rw [hhere, hok]

theorem Inv.execute (h : s.Inv c) {todo : BullyTask}
    (hbefore : s.items.Perm ((n, .task todo) :: s₀.items))
    (hnode : s₀.node = s.node) : (s₀.execute c (n, todo)).Inv c := by
  have hmem : (n, BullyItem.task todo) ∈ s.items :=
    hbefore.mem_iff.mpr List.mem_cons_self
  obtain ⟨hn, hfits⟩ := h.fits n _ hmem
  cases todo with
  | answer sender =>
      have hlt : sender < n := hfits
      refine h.sends hn hbefore hnode rfl (fun m _ _ hc => .inl hc)
        (fun m _ bound hb => hb.elim) (fun epoch hc => hc.elim) (by simp)
        trivial fun _ => ?_
      exact Nat.ne_of_lt (Nat.lt_of_lt_of_le hlt (c.le_highest hn))
  | start =>
      have hgone : s.items.Perm ([(n, .task .start)] ++ s₀.items) := hbefore
      refine h.startElection hn (fun q item hitem => ?_) hgone hnode
      cases List.mem_singleton.mp hitem
      exact ⟨rfl, rfl⟩
  | elect epoch targets =>
      have hle : epoch ≤ (s.node n).epoch := hfits
      cases targets with
      | nil =>
          have hafter : (s₀.execute c (n, .elect epoch [])).items.Perm
              ([(n, .timer epoch)] ++ s₀.items) := items_timer s₀ n epoch
          refine h.sets hbefore (by rw [← hnode]; rfl) hafter (by rw [hnode])
            (by rw [hnode]) (by rw [hnode]) (.inl (by rw [hnode]))
            (replaces_one ?_ ?_ ?_ ?_) ?_
          · rintro m _ _ ⟨-, hnil⟩
            cases hnil
          · exact fun m _ bound _ hb => hb.elim
          · rintro hhigh _ hcont
            rw [← hhigh] at hcont ⊢
            exact ⟨.timer epoch, List.mem_cons_self, hcont⟩
          · rintro (heq | ⟨epoch, heq⟩) <;> cases heq
          · intro q item hitem
            cases List.mem_singleton.mp hitem
            exact ⟨hn, hle⟩
      | cons target targets =>
          refine h.sends hn hbefore hnode rfl ?_ (fun m _ bound hb => hb.elim)
            (fun e hc => hc) (by simp) hle fun _ => trivial
          rintro m _ _ ⟨rfl, hin⟩
          rcases List.mem_cons.mp hin with heq | hin
          · exact .inr ⟨heq ▸ c.highest_live, heq.symm, rfl⟩
          · exact .inl ⟨rfl, hin⟩
  | onTimeout epoch =>
      -- A timeout that does nothing is not that of the highest node's election.
      have hdrop : (n = c.highest → (s.node n).inElection = true →
          epoch ≠ (s.node n).epoch) → s₀.Inv c := by
        intro hidle
        refine h.drops hbefore hnode (fun m _ _ hc => hc) (fun m _ hb => hb) ?_
          (by simp)
        rintro rfl hin hcont
        exact hidle rfl hin hcont
      simp only [BullySystem.execute, hnode]
      by_cases hepoch : epoch ≠ (s.node n).epoch
      · rw [if_pos hepoch]
        exact hdrop fun _ _ => hepoch
      · rw [if_neg hepoch]
        by_cases hok : (s.node n).gotOk = true
        · rw [if_pos hok]
          refine hdrop fun hhigh _ => ?_
          rw [hhigh, h.unanswered] at hok
          cases hok
        · rw [if_neg hok]
          by_cases hin : (s.node n).inElection = true
          · rw [if_neg (by simp [hin])]
            have hhigh : n = c.highest := by
              rcases hfits with hhigh | hlt | ⟨-, hok'⟩
              · exact hhigh
              · exact absurd (Nat.ne_of_lt hlt) hepoch
              · exact absurd hok' hok
            exact h.goesOn hn hbefore hnode (fun m _ _ hc => hc.elim)
              (fun m bound hb => hb) (fun e hc => hc) (by simp) hhigh
          · rw [if_pos (by simp [hin])]
            exact hdrop fun _ hin' => absurd hin' hin
  | declare epoch =>
      simp only [BullySystem.execute, hnode]
      by_cases hepoch : epoch ≠ (s.node n).epoch
      · rw [if_pos hepoch]
        refine h.drops hbefore hnode (fun m _ _ hc => hc) (fun m _ hb => hb) ?_
          (by simp)
        rintro rfl _ hcont
        exact hepoch hcont
      · rw [if_neg hepoch]
        refine h.declared ⟨fun q hq => ?_, hbefore, items_later _ _ _⟩
          (not_not.mp hepoch) (Function.update_self _ _ _)
        rw [← hnode]
        exact Function.update_of_ne hq _ _
  | announce epoch =>
      obtain ⟨hhigh, hle⟩ := hfits
      have hafter : (s₀.execute c (n, .announce epoch)).items.Perm
          ([(n, .task (.broadcast epoch (c.nodes.filter (· ≠ n))))] ++
            s₀.items) := items_later _ _ _
      refine h.sets hbefore (by rw [← hnode]; rfl) hafter (by rw [hnode])
        (by rw [hnode]) (by rw [hnode]) (.inr (by rw [← hhigh]))
        (replaces_one ?_ ?_ ?_ ?_) ?_
      · exact fun m _ _ hc => hc.elim
      · rintro m hm bound _ ⟨hne, hb⟩
        refine ⟨n, _, List.mem_cons_self, ?_, hb⟩
        rw [List.mem_filter]
        exact ⟨c.known m hm, by simpa [hhigh] using hne⟩
      · exact fun _ _ hc => hc.elim
      · intro _
        simp [BullySystem.execute, setNode, later, ← hhigh]
      · intro q item hitem
        cases List.mem_singleton.mp hitem
        exact ⟨hn, hhigh, hle, by simp [hhigh]⟩
  | broadcast epoch targets =>
      obtain ⟨hhigh, hle, hself⟩ := hfits
      cases targets with
      | nil =>
          have hafter : (s₀.execute c (n, .broadcast epoch [])).items.Perm
              ([] ++ s₀.items) := List.Perm.refl _
          refine h.sets hbefore (by rw [← hnode]; rfl) hafter (by rw [hnode])
            (by rw [hnode]) (by rw [hnode]) (.inl (by rw [hnode]))
            (replaces_one ?_ ?_ ?_ ?_) (by simp)
          · exact fun m _ _ hc => hc.elim
          · rintro m _ bound _ ⟨hnil, -⟩
            cases hnil
          · exact fun _ _ hc => hc.elim
          · rintro (heq | ⟨epoch, heq⟩) <;> cases heq
      | cons target targets =>
          rw [List.mem_cons, not_or] at hself
          refine h.sends hn hbefore hnode rfl (fun m _ _ hc => hc.elim) ?_
            (fun e hc => hc.elim) (by simp) ⟨hhigh, hle, hself.2⟩ fun _ => ?_
          · rintro m hm bound ⟨hin, hb⟩
            rcases List.mem_cons.mp hin with rfl | hin
            · exact .inr ⟨hm, rfl, hb⟩
            · exact .inl ⟨hin, hb⟩
          · exact ⟨Ne.symm hself.1, hhigh, hle⟩
  | adopt leaderId =>
      have hhigh : leaderId = c.highest := hfits
      have hafter : (s₀.execute c (n, .adopt leaderId)).items.Perm
          ([] ++ s₀.items) := List.Perm.refl _
      refine h.sets hbefore (by rw [← hnode]; rfl) hafter (by rw [hnode])
        (by rw [hnode]) (by rw [hnode]) (.inr (by rw [hhigh]))
        (replaces_one ?_ ?_ ?_ ?_) (by simp)
      · exact fun m _ _ hc => hc.elim
      · exact fun m _ bound _ hb => hb.elim
      · exact fun _ _ hc => hc.elim
      · intro _
        simp [BullySystem.execute, setNode, hhigh]

theorem Inv.handleElectionOk (h : s.Inv c) {sender : NodeId}
    (hne : n ≠ c.highest)
    (hbefore : s.items.Perm ((n, .message sender .electionOk) :: s₀.items))
    (hnode : s₀.node = s.node) : (s₀.handleElectionOk n).Inv c := by
  obtain ⟨gone, he, hgone, hhere⟩ := effect_handleElectionOk hbefore hnode
  refine h.same he ⟨by rw [hhere], by rw [hhere], fun _ => by rw [hhere],
    .inl (by rw [hhere])⟩ ⟨?_, ?_, ?_, ?_, ?_⟩ (by simp)
    fun hhigh => absurd hhigh hne
  · intro q item hitem m _ _ hc
    rcases (hgone q item hitem).2 with rfl | ⟨e, rfl⟩ <;> exact hc.elim
  · intro q item hitem m _ bound _ hb
    rcases (hgone q item hitem).2 with rfl | ⟨e, rfl⟩ <;> exact hb.elim
  · intro item hitem
    exact absurd (hgone _ item hitem).1.symm hne
  · intro q hitem
    rcases (hgone q _ hitem).2 with heq | ⟨e, heq⟩ <;> cases heq
  · intro epoch hitem
    exact absurd (hgone _ _ hitem).1.symm hne

theorem Inv.handleCoordinator (h : s.Inv c) {sender leaderId : NodeId}
    {epoch : Nat} (hbefore : s.items.Perm
      ((n, .message sender (.coordinator leaderId epoch)) :: s₀.items))
    (hnode : s₀.node = s.node) :
    (s₀.handleCoordinator n leaderId epoch).Inv c := by
  by_cases hstale : epoch < (s.node n).epoch
  · simp only [BullySystem.handleCoordinator, hnode]
    rw [if_pos hstale]
    refine h.drops hbefore hnode (fun m _ _ hc => hc) ?_
      (fun _ _ hc => hc) (by simp)
    rintro m _ ⟨rfl, hb⟩
    exact Nat.not_le.mpr hstale hb
  · obtain ⟨gone, he, hitem, hgone, hhere⟩ :=
      effect_handleCoordinator hbefore hnode hstale
    exact h.coordinated he hitem hgone (Nat.le_of_not_lt hstale) hhere

theorem Inv.handle (h : s.Inv c) {packet : BullyPacket}
    (hbefore : s.items.Perm
      ((packet.target, .message packet.sender packet.msg) :: s₀.items))
    (hnode : s₀.node = s.node) : (s₀.handle packet).Inv c := by
  obtain ⟨sender, n, msg⟩ := packet
  have hmem : (n, BullyItem.message sender msg) ∈ s.items :=
    hbefore.mem_iff.mpr List.mem_cons_self
  obtain ⟨hn, hfits⟩ := h.fits n _ hmem
  cases msg with
  | election epoch =>
      simp only [BullySystem.handle]
      by_cases hlower : sender < n
      · rw [if_pos hlower]
        exact h.goesOn hn hbefore hnode (fun m _ _ hc => hc.1)
          (fun m bound hb => hb) (fun e hc => hc.elim) (by simp) hlower
      · rw [if_neg hlower]
        refine h.drops hbefore hnode ?_ (fun m _ hb => hb)
          (fun _ _ hc => hc) (by simp)
        rintro m hm hne ⟨hhigh, rfl⟩
        have hlt := c.lt_highest hm hne
        rw [← hhigh] at hlt
        exact hlower hlt
  | electionOk =>
      exact h.handleElectionOk hfits hbefore hnode
  | coordinator leaderId epoch =>
      exact h.handleCoordinator hbefore hnode

theorem Inv.expire (h : s.Inv c) {epoch : Nat}
    (hbefore : s.items.Perm ((n, .timer epoch) :: s₀.items))
    (hnode : s₀.node = s.node) (hmay : s.MayExpire c n epoch) :
    (s₀.later n (.onTimeout epoch)).Inv c := by
  have hmem : (n, BullyItem.timer epoch) ∈ s.items :=
    hbefore.mem_iff.mpr List.mem_cons_self
  obtain ⟨hn, hfits⟩ := h.fits n _ hmem
  have hle : epoch ≤ (s.node n).epoch := hfits
  refine h.goesOn hn hbefore hnode (fun m _ _ hc => hc.elim)
    (fun m bound hb => hb) (fun e hc => hc) (by simp) ?_
  change n = c.highest ∨ epoch < (s.node n).epoch ∨
    epoch = (s.node n).epoch ∧ (s.node n).gotOk = true
  rcases hmay with htop | hother | hok
  · exact .inl (Nat.le_antisymm (c.le_highest hn) (htop _ c.highest_live))
  · exact .inr (.inl (Nat.lt_of_le_of_ne hle hother))
  · rcases Nat.eq_or_lt_of_le hle with heq | hlt
    · exact .inr (.inr ⟨heq, hok⟩)
    · exact .inr (.inl hlt)

theorem Inv.step {a : BullyAction} (h : s.Inv c) (hstep : s.step c a = some s') :
    s'.Inv c := by
  cases a with
  | startElection n =>
      obtain ⟨hn, heq⟩ := Option.ite_none_right_eq_some.mp hstep
      obtain rfl := Option.some.inj heq
      have hgone : s.items.Perm ([] ++ s.items) := List.Perm.refl _
      exact h.startElection hn (by simp) hgone rfl
  | deliver packet =>
      obtain ⟨⟨content, network⟩, hpick, rfl⟩ :=
        Option.map_eq_some_iff.mp hstep
      exact h.handle (items_network hpick) rfl
  | resume task =>
      obtain ⟨⟨⟨n, todo⟩, running⟩, hpick, rfl⟩ :=
        Option.map_eq_some_iff.mp hstep
      exact h.execute (items_running hpick) rfl
  | expire timer =>
      obtain ⟨⟨⟨n, epoch⟩, timers⟩, hpick, hrest⟩ :=
        Option.bind_eq_some_iff.mp hstep
      obtain ⟨hmay, heq⟩ := Option.ite_none_right_eq_some.mp hrest
      obtain rfl := Option.some.inj heq
      exact h.expire (items_timers (pick_perm hpick)) rfl hmay

end Step

/-! ## Every run -/

section Run

variable {c : BullyConfig} {s s' t : BullySystem}

theorem epoch_setNode {n : NodeId} {e : BullyElection}
    (hle : (s.node n).epoch ≤ e.epoch) (q : NodeId) :
    (s.node q).epoch ≤ ((s.setNode n e).node q).epoch := by
  by_cases hq : q = n
  · subst hq
    simpa [setNode] using hle
  · simp [setNode, hq]

theorem epoch_startElection (c : BullyConfig) (s : BullySystem) (n q : NodeId) :
    (s.node q).epoch ≤ ((s.startElection c n).node q).epoch := by
  unfold startElection
  dsimp only
  split
  · exact Nat.le_refl _
  · exact epoch_setNode (Nat.le_succ _) q

private theorem epoch_handle (s : BullySystem) (packet : BullyPacket) (q : NodeId) :
    (s.node q).epoch ≤ ((s.handle packet).node q).epoch := by
  obtain ⟨sender, n, msg⟩ := packet
  obtain ⟨-, -, -, hcancel⟩ := items_cancelTimer s n
  cases msg with
  | election epoch =>
      simp only [handle]
      split <;> exact Nat.le_refl _
  | electionOk =>
      have hset := epoch_setNode (s := s.cancelTimer n) (n := n)
        (e := { s.node n with gotOk := true, timer := none })
        (by rw [hcancel]) q
      rw [hcancel] at hset
      exact hset
  | coordinator leaderId epoch =>
      simp only [handle, handleCoordinator]
      split
      · exact Nat.le_refl _
      · next hle =>
        have hset := epoch_setNode (s := s.cancelTimer n) (n := n)
          (e := { s.node n with
            epoch := epoch, inElection := false, timer := none })
          (by rw [hcancel]; exact Nat.le_of_not_lt hle) q
        rw [hcancel] at hset
        exact hset

private theorem epoch_execute (c : BullyConfig) (s : BullySystem) (n : NodeId)
    (todo : BullyTask) (q : NodeId) :
    (s.node q).epoch ≤ ((s.execute c (n, todo)).node q).epoch := by
  have hsend : ∀ (target : NodeId) (msg : BullyMsg) (next : BullyTask),
      (s.node q).epoch ≤ (((s.send c n target msg).later n next).node q).epoch :=
    fun target msg next =>
      Nat.le_of_eq (by rw [← send_node c s n target msg]; rfl)
  have hset : ∀ e : BullyElection, e.epoch = (s.node n).epoch →
      (s.node q).epoch ≤ ((s.setNode n e).node q).epoch :=
    fun e he => epoch_setNode (Nat.le_of_eq he.symm) q
  cases todo with
  | answer sender => exact hsend _ _ _
  | start => exact epoch_startElection c s n q
  | elect epoch targets =>
      cases targets with
      | nil => exact hset { s.node n with timer := some epoch } rfl
      | cons target targets => exact hsend _ _ _
  | onTimeout epoch =>
      simp only [execute]
      split
      · exact Nat.le_refl _
      · split
        · exact Nat.le_refl _
        · split <;> exact Nat.le_refl _
  | declare epoch =>
      simp only [execute]
      split
      · exact Nat.le_refl _
      · exact hset { s.node n with inElection := false } rfl
  | announce epoch => exact hset { s.node n with leaderId := some n } rfl
  | broadcast epoch targets =>
      cases targets with
      | nil => exact hset { s.node n with electionComplete := true } rfl
      | cons target targets => exact hsend _ _ _
  | adopt leaderId =>
      exact hset
        { s.node n with leaderId := some leaderId, electionComplete := true } rfl

private theorem epoch_step {a : BullyAction} (hstep : s.step c a = some s')
    (q : NodeId) : (s.node q).epoch ≤ (s'.node q).epoch := by
  cases a with
  | startElection n =>
      obtain ⟨-, heq⟩ := Option.ite_none_right_eq_some.mp hstep
      obtain rfl := Option.some.inj heq
      exact epoch_startElection c s n q
  | deliver packet =>
      obtain ⟨⟨content, network⟩, -, rfl⟩ := Option.map_eq_some_iff.mp hstep
      exact epoch_handle { s with network := network } content q
  | resume task =>
      obtain ⟨⟨⟨n, todo⟩, running⟩, -, rfl⟩ := Option.map_eq_some_iff.mp hstep
      exact epoch_execute c { s with running := running } n todo q
  | expire timer =>
      obtain ⟨⟨⟨n, epoch⟩, timers⟩, -, hrest⟩ :=
        Option.bind_eq_some_iff.mp hstep
      obtain ⟨-, heq⟩ := Option.ite_none_right_eq_some.mp hrest
      obtain rfl := Option.some.inj heq
      exact Nat.le_refl _

private theorem epoch_pos_of_start (h : s.Inv c) {n : NodeId}
    (hstep : s.step c (.startElection n) = some s') :
    n ∈ c.live ∧ 0 < (s'.node n).epoch := by
  obtain ⟨hn, heq⟩ := Option.ite_none_right_eq_some.mp hstep
  obtain rfl := Option.some.inj heq
  refine ⟨hn, ?_⟩
  unfold startElection
  dsimp only
  by_cases hin : (s.node n).inElection = true
  · rw [if_pos hin]
    exact h.active n hin
  · rw [if_neg hin]
    simp [later, setNode]

theorem run_inv {actions : List BullyAction} (hs : s.Inv c)
    (hrun : run (step c) s actions = some t) : t.Inv c :=
  run_preserves (fun _ _ _ h hstep => h.step hstep) hs hrun

private theorem run_epoch {actions : List BullyAction}
    (hrun : run (step c) s actions = some t) (q : NodeId) :
    (s.node q).epoch ≤ (t.node q).epoch :=
  run_preserves (I := fun u : BullySystem => (s.node q).epoch ≤ (u.node q).epoch)
    (fun _ _ _ h hstep => Nat.le_trans h (epoch_step hstep q)) (Nat.le_refl _)
    hrun

private theorem agreed_of_quiet (h : s.Inv c) (hquiet : s.Quiet) {m : NodeId}
    (hm : m ∈ c.live) (hpos : 0 < (s.node m).epoch) {n : NodeId}
    (hn : n ∈ c.live) :
    (s.node n).leaderId = some c.highest ∧ (s.node n).inElection = false := by
  have hnone : ∀ q item, (q, item) ∉ s.items :=
    fun q item => not_mem_items_of_quiet hquiet (q, item)
  have hnot : ∀ q, ¬ s.Awaited c q := by
    rintro q ⟨p, item, hmem, -⟩
    exact hnone p item hmem
  have hhigh : (s.node c.highest).inElection = false := by
    rw [Bool.eq_false_iff]
    intro hin
    obtain ⟨item, hmem, -⟩ := h.continued hin
    exact hnone _ item hmem
  have hout : ∀ q ∈ c.live, (s.node q).inElection = false := by
    intro q hq
    by_cases hqh : q = c.highest
    · rw [hqh, hhigh]
    · rw [Bool.eq_false_iff]
      intro hin
      rcases h.ended q hq hqh hin with (hin' | ⟨p, item, hmem, -⟩) | haw
      · rw [hhigh] at hin'
        cases hin'
      · exact hnone p item hmem
      · exact hnot q haw
  have hsettled : 0 < s.settledEpoch c := by
    by_cases hmh : m = c.highest
    · rw [settledEpoch, hhigh, ← hmh]
      simpa using hpos
    · have hbound := h.epochs m hm hmh
      rw [hout m hm] at hbound
      simp only [Bool.false_eq_true, if_false, Nat.add_zero] at hbound
      exact Nat.lt_of_lt_of_le hpos hbound
  refine ⟨?_, hout n hn⟩
  by_cases hnh : n = c.highest
  · rcases h.announced hsettled with hl | ⟨epoch, hmem⟩
    · rw [hnh, hl]
    · exact absurd hmem (hnone _ _)
  · rcases h.told hsettled n hn hnh with hl | hin | hmem | haw
    · exact hl
    · rw [hout n hn] at hin
      cases hin
    · exact absurd hmem (hnone _ _)
    · exact absurd haw (hnot n)

end Run

/--
`leader_id` is never set to anything but the highest live id; and whenever no
message is in flight, no timer is pending and no thread has anything left to do,
every live node has it and is in no election, if an election was started.
-/
theorem run_bullyAgreement (c : BullyConfig) (actions : List BullyAction)
    (s : BullySystem) (hrun : run (step c) new actions = some s) :
    (∀ n leaderId, (s.node n).leaderId = some leaderId →
      leaderId = c.highest) ∧
    (s.Quiet → (∃ n, .startElection n ∈ actions) → ∀ n ∈ c.live,
      (s.node n).leaderId = some c.highest ∧
        (s.node n).inElection = false) := by
  have hinv := run_inv (inv_new c) hrun
  refine ⟨hinv.leaders, fun hquiet hstarted n hn => ?_⟩
  obtain ⟨starter, hmem⟩ := hstarted
  obtain ⟨before, after, rfl⟩ := List.append_of_mem hmem
  obtain ⟨s₁, hbefore, hrest⟩ := run_append.mp hrun
  obtain ⟨s₂, hstep, hafter⟩ := run_cons.mp hrest
  obtain ⟨hlive, hpos⟩ := epoch_pos_of_start (run_inv (inv_new c) hbefore) hstep
  have hpos' := Nat.lt_of_lt_of_le hpos (run_epoch hafter starter)
  exact agreed_of_quiet hinv hquiet hlive hpos' hn

/-- Three nodes, of which node 3 is down. -/
def twoLive : BullyConfig :=
  ⟨[1, 2, 3], {1, 2}, by decide, ⟨1, by decide⟩⟩

/-- Node 1 starts an election; node 2 answers, starts its own, and its timer
expires. -/
def answeredStarter : List BullyAction :=
  [.startElection 1, .resume 0, .resume 0, .deliver 0, .resume 0, .resume 0,
    .resume 1, .deliver 0, .resume 0, .resume 0, .expire 0, .resume 0, .resume 0,
    .resume 0, .resume 0, .resume 0, .resume 0, .deliver 0, .resume 0]

theorem answeredStarter_bullyAgreement :
    ∃ s, run (step twoLive) new answeredStarter = some s ∧ s.Quiet ∧
      ∀ n ∈ twoLive.live, (s.node n).leaderId = some twoLive.highest ∧
        (s.node n).inElection = false := by
  have hview : (run (step twoLive) new answeredStarter).any (fun s =>
      s.network.isEmpty && s.running.isEmpty && s.timers.isEmpty) = true := by
    decide +kernel
  obtain ⟨s, hrun, hall⟩ := (Option.any_eq_true _ _).mp hview
  have hquiet : s.Quiet := by simpa [Quiet, and_assoc] using hall
  exact ⟨s, hrun, hquiet,
    (run_bullyAgreement twoLive answeredStarter s hrun).2 hquiet
      ⟨1, List.mem_cons_self⟩⟩

end BullySystem

end DistributedMemory.Election
