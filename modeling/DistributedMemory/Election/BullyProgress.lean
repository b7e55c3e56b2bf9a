import DistributedMemory.Election.BullyCrash

/-!
# No node is left in an election

A node that has not been answered leaves its election by its own timer: something
under way at the node goes on with the election.  A node that has been answered
has given its timer up and depends on the others.  As long as no step takes the
last hope of such a node away, the highest node in an election is either about to
declare itself or has something under way for it, so that nobody is in an
election when nothing is under way.
-/

namespace DistributedMemory.Election

open DistributedMemory.Library
open DistributedMemory.Network (NodeId)

namespace BullySystem

/-- An election that has not been answered is gone on with at its node. -/
def Driven (live : Finset NodeId) (s : BullySystem) : Prop :=
  ∀ n ∈ live, (s.node n).inElection = true → (s.node n).gotOk = false →
    ∃ item, (n, item) ∈ s.items ∧ Continues (s.node n).epoch item

structure Progressing (live : Finset NodeId) (s : BullySystem) : Prop where
  driven : s.Driven live
  sustained : s.Sustained live

/-! ## What a step at one node does to the hopes -/

/-- Node `n` waits after the step only when it waited before in the same epoch, and
its next election is not in a lower epoch. -/
structure Eases (s s' : BullySystem) (n : NodeId) : Prop where
  nextEpoch : s.nextEpoch n ≤ s'.nextEpoch n
  waits : s'.Waits n → s.Waits n ∧ (s'.node n).epoch = (s.node n).epoch

section Hopes

variable {live : Finset NodeId} {s s' : BullySystem} {n m q : NodeId}
  {bound : Nat} {gone fresh rest : List (NodeId × BullyItem)}

theorem Outbids.effect (h : s.Outbids m bound q)
    (he : Effect s s' n gone fresh rest) (heases : Eases s s' n) :
    s'.Outbids m bound q := by
  by_cases hq : q = n
  · subst hq
    obtain ⟨hne, hbound, hopen⟩ := h
    refine ⟨hne, Nat.le_trans hbound heases.nextEpoch, ?_⟩
    exact hopen.imp id fun hnot hwaits => hnot (heases.waits hwaits).1
  · unfold Outbids nextEpoch Waits
    rw [he.elsewhere q hq]
    exact h

theorem hopeful_of_fresh (he : Effect s s' n gone fresh rest)
    {item : BullyItem} (hmem : (q, item) ∈ fresh) (hq : q ∈ live)
    (hpromises : Promises live s' m bound q item) : Hopeful live s' m bound :=
  .inr ⟨(q, item), he.mem_after.mpr (.inl hmem), hq, hpromises⟩

/-- An item that stays keeps its promise, unless it was on the way to declare node
`n` in an epoch that is over. -/
theorem Promises.effect {item : BullyItem}
    (h : Promises live s m bound q item) (he : Effect s s' n gone fresh rest)
    (heases : Eases s s' n) : Promises live s' m bound q item ∨
      q = n ∧ bound ≤ (s.node n).epoch ∧
        (s'.node n).epoch ≠ (s.node n).epoch := by
  cases item with
  | message sender msg =>
      cases msg with
      | election epoch => exact .inl ⟨h.1, h.2.effect he heases⟩
      | electionOk => exact h.elim
      | coordinator leaderId epoch => exact .inl h
  | task todo =>
      cases todo with
      | answer sender => exact .inl (Outbids.effect h he heases)
      | start => exact .inl (Outbids.effect h he heases)
      | elect epoch targets =>
          obtain ⟨p, hp, hlive, hlt, hout⟩ := h
          exact .inl ⟨p, hp, hlive, hlt, hout.effect he heases⟩
      | onTimeout epoch => exact h.elim
      | declare epoch =>
          obtain ⟨hepoch, hbound⟩ := h
          by_cases hq : q = n
          · subst hq
            by_cases hsame : (s'.node q).epoch = (s.node q).epoch
            · exact .inl ⟨hepoch.trans hsame.symm, hbound⟩
            · exact .inr ⟨rfl, hepoch ▸ hbound, hsame⟩
          · rw [← he.elsewhere q hq] at hepoch
            exact .inl ⟨hepoch, hbound⟩
      | announce epoch => exact .inl h
      | broadcast epoch targets => exact .inl h
      | adopt leaderId => exact h.elim
  | timer epoch => exact h.elim

theorem Hopeful.effect (h : Hopeful live s m bound)
    (he : Effect s s' n gone fresh rest) (heases : Eases s s' n)
    (hends : n ∈ live → (s.node n).inElection = true → s.Outbids m bound n →
      Hopeful live s' m bound)
    (hlater : n ∈ live → bound ≤ (s.node n).epoch →
      (s'.node n).epoch ≠ (s.node n).epoch → Hopeful live s' m bound)
    (hgone : ∀ q item, (q, item) ∈ gone → q ∈ live →
      Promises live s m bound q item → Hopeful live s' m bound) :
    Hopeful live s' m bound := by
  rcases h with ⟨q, hq, hin, hout⟩ | ⟨⟨q, item⟩, hmem, hq, hpromises⟩
  · by_cases hqn : q = n
    · subst hqn
      exact hends hq hin hout
    · rw [← he.elsewhere q hqn] at hin
      exact .inl ⟨q, hq, hin, hout.effect he heases⟩
  · rcases he.kept hmem with hkept | hmem
    · rcases hpromises.effect he heases with hpromises | ⟨rfl, hbound, hne⟩
      · exact .inr ⟨(q, item), hkept, hq, hpromises⟩
      · exact hlater hq hbound hne
    · exact hgone q item hmem hq hpromises

theorem Sustained.effect (h : s.Sustained live)
    (he : Effect s s' n gone fresh rest) (heases : Eases s s' n)
    (hhope : ∀ m ∈ live, s'.Waits m → Hopeful live s m (s'.node m).epoch →
      Hopeful live s' m (s'.node m).epoch) : s'.Sustained live := by
  intro m hm hwaits
  apply hhope m hm hwaits
  by_cases hmn : m = n
  · subst hmn
    obtain ⟨hwaited, hepoch⟩ := heases.waits hwaits
    rw [hepoch]
    exact h m hm hwaited
  · have hsame := he.elsewhere m hmn
    rw [hsame]
    apply h m hm
    unfold Waits
    rw [← hsame]
    exact hwaits

theorem Driven.effect (h : s.Driven live) (he : Effect s s' n gone fresh rest)
    (hat : ∀ q item, (q, item) ∈ gone → q = n)
    (hhere : (s'.node n).inElection = true → (s'.node n).gotOk = false →
      n ∈ live →
      ∃ item, (n, item) ∈ s'.items ∧ Continues (s'.node n).epoch item) :
    s'.Driven live := by
  intro q hq hin hok
  by_cases hqn : q = n
  · subst hqn
    exact hhere hin hok hq
  · rw [he.elsewhere q hqn] at hin hok ⊢
    obtain ⟨item, hmem, hcont⟩ := h q hq hin hok
    rcases he.kept hmem with hkept | hgone
    · exact ⟨item, hkept, hcont⟩
    · exact absurd (hat q item hgone) hqn

end Hopes

/-! ## Steps that leave the elections as they are -/

/-- The step leaves node `n` in the same epoch, in or out of its election, and
answered or not. -/
structure Alike (s s' : BullySystem) (n : NodeId) : Prop where
  epoch : (s'.node n).epoch = (s.node n).epoch
  inElection : (s'.node n).inElection = (s.node n).inElection
  gotOk : (s'.node n).gotOk = (s.node n).gotOk

section Alike

variable {live : Finset NodeId} {s s' : BullySystem} {n : NodeId}
  {gone fresh rest : List (NodeId × BullyItem)}

theorem Alike.of_node (h : s'.node = s.node) (n : NodeId) : Alike s s' n := by
  constructor <;> rw [h]

theorem Alike.eases (h : Alike s s' n) : Eases s s' n := by
  refine ⟨?_, fun hwaits => ⟨?_, h.epoch⟩⟩
  · rw [nextEpoch, nextEpoch, h.epoch, h.inElection]
  · unfold Waits at hwaits ⊢
    rwa [h.inElection, h.gotOk] at hwaits

theorem Promises.alike {m q : NodeId} {bound : Nat} {item : BullyItem}
    (h : Promises live s m bound q item) (he : Effect s s' n gone fresh rest)
    (halike : Alike s s' n) : Promises live s' m bound q item := by
  rcases h.effect he halike.eases with hkept | ⟨-, -, hne⟩
  · exact hkept
  · exact absurd halike.epoch hne

theorem Sustained.alike (h : s.Sustained live)
    (he : Effect s s' n gone fresh rest) (halike : Alike s s' n)
    (hgone : ∀ m ∈ live, s'.Waits m → ∀ q item, (q, item) ∈ gone → q ∈ live →
      Promises live s m (s'.node m).epoch q item →
        Hopeful live s' m (s'.node m).epoch) : s'.Sustained live := by
  apply h.effect he halike.eases
  intro m hm hwaits hhope
  apply hhope.effect he halike.eases
  · intro hn hin hout
    rw [← halike.inElection] at hin
    exact .inl ⟨n, hn, hin, hout.effect he halike.eases⟩
  · intro _ _ hne
    exact absurd halike.epoch hne
  · exact hgone m hm hwaits

theorem Progressing.alike {item : BullyItem} (h : s.Progressing live)
    (he : Effect s s' n [(n, item)] fresh rest) (halike : Alike s s' n)
    (hcont : (s.node n).inElection = true → (s.node n).gotOk = false →
      Continues (s.node n).epoch item →
        ∃ item', (n, item') ∈ fresh ∧ Continues (s.node n).epoch item')
    (hpromises : n ∈ live → ∀ m ∈ live, s'.Waits m →
      Promises live s m (s'.node m).epoch n item →
        Hopeful live s' m (s'.node m).epoch) : s'.Progressing live := by
  constructor
  · apply h.driven.effect he
    · intro q i hmem
      cases List.mem_singleton.mp hmem
      rfl
    · intro hin hok hn
      rw [halike.inElection] at hin
      rw [halike.gotOk] at hok
      rw [halike.epoch]
      obtain ⟨i, hmem, hi⟩ := h.driven n hn hin hok
      rcases he.kept hmem with hkept | hmem
      · exact ⟨i, hkept, hi⟩
      · cases List.mem_singleton.mp hmem
        obtain ⟨i', hfresh, hi'⟩ := hcont hin hok hi
        exact ⟨i', he.mem_after.mpr (.inl hfresh), hi'⟩
  · apply h.sustained.alike he halike
    intro m hm hwaits q i hmem hq hp
    cases List.mem_singleton.mp hmem
    exact hpromises hq m hm hwaits hp

end Alike

/-! ## The steps that change an election -/

section Change

variable {c : BullyConfig} {s s₀ s' : BullySystem} {n : NodeId}
  {gone fresh rest : List (NodeId × BullyItem)}

theorem Progressing.began (h : s.Progressing c.live) (hn : n ∈ c.live)
    (hout : (s.node n).inElection = false)
    (he : Effect s s' n gone fresh rest)
    (hgone : ∀ q item, (q, item) ∈ gone → q = n ∧ item = .task .start)
    (hfresh : ∃ item, (n, item) ∈ fresh ∧
      Continues ((s.node n).epoch + 1) item)
    (hin : (s'.node n).inElection = true)
    (hepoch : (s'.node n).epoch = (s.node n).epoch + 1)
    (hok : (s'.node n).gotOk = false) : s'.Progressing c.live := by
  have hnot : ¬ s'.Waits n := by
    rintro ⟨-, hwaits⟩
    rw [hok] at hwaits
    cases hwaits
  have heases : Eases s s' n := by
    refine ⟨?_, fun hwaits => absurd hwaits hnot⟩
    rw [nextEpoch, nextEpoch, hout, hin, hepoch]
    exact Nat.le_refl _
  constructor
  · apply h.driven.effect he (fun q item hmem => (hgone q item hmem).1)
    intro _ _ _
    obtain ⟨item, hmem, hcont⟩ := hfresh
    rw [hepoch]
    exact ⟨item, he.mem_after.mpr (.inl hmem), hcont⟩
  · apply h.sustained.effect he heases
    intro m hm hwaits hhope
    -- The election of node `n` takes the place of what was under way there.
    have hrival : (s'.node m).epoch ≤ s'.nextEpoch n →
        Hopeful c.live s' m (s'.node m).epoch := by
      intro hbound
      refine .inl ⟨n, hn, hin, ?_, hbound, .inr hnot⟩
      rintro rfl
      exact hnot hwaits
    apply hhope.effect he heases
    · intro _ hin' _
      rw [hout] at hin'
      cases hin'
    · intro _ hbound _
      apply hrival
      rw [nextEpoch, if_pos hin, hepoch]
      exact Nat.le_succ_of_le hbound
    · intro q item hmem _ hpromises
      obtain ⟨rfl, rfl⟩ := hgone q item hmem
      apply hrival
      exact Nat.le_trans hpromises.2.1 heases.nextEpoch

theorem Progressing.startElection (h : s.Progressing c.live) (hn : n ∈ c.live)
    (hgone : ∀ q item, (q, item) ∈ gone → q = n ∧ item = .task .start)
    (hbefore : s.items.Perm (gone ++ s₀.items)) (hnode : s₀.node = s.node) :
    (s₀.startElection c n).Progressing c.live := by
  rcases startElection_cases (n := n) c hbefore hnode with
    ⟨hin, heq, he⟩ | ⟨hout, hhere, he⟩
  · rw [heq]
    have halike : Alike s s₀ n := Alike.of_node hnode n
    constructor
    · apply h.driven.effect he (fun q item hmem => (hgone q item hmem).1)
      intro _ hok _
      rw [hnode] at hok ⊢
      obtain ⟨item, hmem, hcont⟩ := h.driven n hn hin hok
      rcases he.kept hmem with hkept | hmem
      · exact ⟨item, hkept, hcont⟩
      · obtain ⟨-, rfl⟩ := hgone _ item hmem
        cases hcont
    · apply h.sustained.alike he halike
      intro m hm _ q item hmem _ hpromises
      obtain ⟨rfl, rfl⟩ := hgone q item hmem
      rw [← hnode] at hin
      exact .inl ⟨q, hn, hin, Outbids.effect hpromises he halike.eases⟩
  · apply h.began hn hout he hgone
    · refine ⟨_, List.mem_singleton_self _, ?_⟩
      split
      · rfl
      · rfl
    · rw [hhere]
    · rw [hhere]
    · rw [hhere]

variable {live : Finset NodeId}

theorem Progressing.declared (h : s.Progressing live)
    (he : Effect s s' n [(n, .task (.declare (s.node n).epoch))]
      [(n, .task (.announce (s.node n).epoch))] rest)
    (hsame : s'.node n = { s.node n with inElection := false }) :
    s'.Progressing live := by
  have hnot : ¬ s'.Waits n := by
    rintro ⟨hin, -⟩
    rw [hsame] at hin
    cases hin
  have heases : Eases s s' n := by
    refine ⟨?_, fun hwaits => absurd hwaits hnot⟩
    rw [nextEpoch, nextEpoch, hsame]
    split
    · exact Nat.le_succ _
    · exact Nat.le_refl _
  constructor
  · apply h.driven.effect he
    · intro q item hmem
      cases List.mem_singleton.mp hmem
      rfl
    · intro hin
      rw [hsame] at hin
      cases hin
  · apply h.sustained.effect he heases
    intro m hm hwaits hhope
    have hannounced : n ∈ live → (s'.node m).epoch ≤ (s.node n).epoch →
        Hopeful live s' m (s'.node m).epoch := by
      intro hn hbound
      apply hopeful_of_fresh he (List.mem_singleton_self _) hn
      refine ⟨?_, hbound⟩
      rintro rfl
      exact hnot hwaits
    apply hhope.effect he heases
    · intro hn hin hout
      apply hannounced hn
      have hbound := hout.2.1
      rwa [nextEpoch, if_pos hin] at hbound
    · intro _ _ hne
      rw [hsame] at hne
      exact absurd rfl hne
    · intro q item hmem hq hpromises
      cases List.mem_singleton.mp hmem
      exact hannounced hq hpromises.2

theorem Progressing.gaveUp {sender : NodeId} {msg : BullyMsg} {e : BullyElection}
    (h : s.Progressing live) (he : Effect s s' n gone fresh rest)
    (hgone : ∀ q item, (q, item) ∈ gone → q = n ∧
      (item = .message sender msg ∨ ∃ epoch, item = .timer epoch))
    (hsame : Alike (s.setNode n e) s' n)
    (hnot : e.inElection = true → e.gotOk = false → False)
    (hsustained : (s.setNode n e).Sustained live)
    (hmsg : ∀ m, s'.Waits m → ¬ Promises live (s.setNode n e) m
      (s'.node m).epoch n (.message sender msg)) : s'.Progressing live := by
  have hhere : (s.setNode n e).node n = e := Function.update_self _ _ _
  have he' : Effect (s.setNode n e) s' n gone fresh rest := by
    refine ⟨fun q hq => ?_, he.before, he.after⟩
    rw [he.elsewhere q hq]
    exact (Function.update_of_ne hq _ _).symm
  constructor
  · apply h.driven.effect he (fun q item hmem => (hgone q item hmem).1)
    intro hin hok _
    rw [hsame.inElection, hhere] at hin
    rw [hsame.gotOk, hhere] at hok
    exact (hnot hin hok).elim
  · apply hsustained.alike he' hsame
    intro m _ hwaits q item hmem _ hpromises
    obtain ⟨rfl, rfl | ⟨epoch, rfl⟩⟩ := hgone q item hmem
    · exact absurd hpromises (hmsg m hwaits)
    · exact hpromises.elim

end Change

/-! ## Every step of a live node -/

section Step

variable {c : BullyConfig} {live : Finset NodeId} {s s₀ : BullySystem}
  {n : NodeId}

theorem Progressing.goesOn {item : BullyItem} {next : BullyTask}
    (h : s.Progressing live) (hbefore : s.items.Perm ((n, item) :: s₀.items))
    (hnode : s₀.node = s.node)
    (hcont : ∀ epoch, Continues epoch item → Continues epoch (.task next))
    (hpromises : ∀ m ∈ live, ∀ bound, Promises live s m bound n item →
      Promises live s m bound n (.task next)) :
    (s₀.later n next).Progressing live := by
  have hsame : (s₀.later n next).node = s.node := hnode
  have he : Effect s (s₀.later n next) n [(n, item)] [(n, .task next)]
      s₀.items := ⟨fun q _ => by rw [hsame], hbefore, items_later _ _ _⟩
  have halike : Alike s (s₀.later n next) n := Alike.of_node hsame n
  apply h.alike he halike
  · intro _ _ hitem
    exact ⟨_, List.mem_singleton_self _, hcont _ hitem⟩
  · intro hn m hm _ hitem
    apply hopeful_of_fresh he (List.mem_singleton_self _) hn
    exact (hpromises m hm _ hitem).alike he halike

theorem Progressing.drops {item : BullyItem} (h : s.Progressing live)
    (hbefore : s.items.Perm ((n, item) :: s₀.items)) (hnode : s₀.node = s.node)
    (hcont : (s.node n).inElection = true → (s.node n).gotOk = false →
      ¬ Continues (s.node n).epoch item)
    (hpromises : ∀ m ∈ live, ¬ Promises live s m (s.node m).epoch n item) :
    s₀.Progressing live := by
  have he : Effect s s₀ n [(n, item)] [] s₀.items :=
    ⟨fun q _ => by rw [hnode], hbefore, List.Perm.refl _⟩
  apply h.alike he (Alike.of_node hnode n)
  · intro hin hok hitem
    exact absurd hitem (hcont hin hok)
  · intro _ m hm _ hitem
    rw [hnode] at hitem
    exact absurd hitem (hpromises m hm)

theorem Progressing.sends {todo next : BullyTask} {target : NodeId}
    {msg : BullyMsg} (h : s.Progressing c.live)
    (hbefore : s.items.Perm ((n, .task todo) :: s₀.items))
    (hnode : s₀.node = s.node)
    (hcont : ∀ epoch, Continues epoch (.task todo) →
      Continues epoch (.task next))
    (hpromises : ∀ m ∈ c.live, ∀ bound, Promises c.live s m bound n (.task todo) →
      Promises c.live s m bound n (.task next) ∨
        target ∈ c.live ∧ Promises c.live s m bound target (.message n msg)) :
    ((s₀.send c n target msg).later n next).Progressing c.live := by
  have hsame : ((s₀.send c n target msg).later n next).node = s.node :=
    (send_node c s₀ n target msg).trans hnode
  have he : Effect s ((s₀.send c n target msg).later n next) n
      [(n, .task todo)] ((n, .task next) :: (if target ∈ c.live then
        [(target, .message n msg)] else [])) s₀.items :=
    ⟨fun q _ => by rw [hsame], hbefore, items_sendLater _ _ _ _ _ _⟩
  have halike := Alike.of_node hsame n
  apply h.alike he halike
  · intro _ _ hitem
    exact ⟨_, List.mem_cons_self, hcont _ hitem⟩
  · intro hn m hm _ hitem
    rcases hpromises m hm _ hitem with hnext | ⟨htarget, hmsg⟩
    · exact hopeful_of_fresh he List.mem_cons_self hn (hnext.alike he halike)
    · refine hopeful_of_fresh he ?_ htarget (hmsg.alike he halike)
      rw [if_pos htarget]
      simp

theorem Progressing.sets {todo : BullyTask} {e : BullyElection}
    {s' : BullySystem} {fresh : List (NodeId × BullyItem)}
    (h : s.Progressing live)
    (hbefore : s.items.Perm ((n, .task todo) :: s₀.items))
    (hs' : s'.node = Function.update s.node n e)
    (hafter : s'.items.Perm (fresh ++ s₀.items))
    (hepoch : e.epoch = (s.node n).epoch)
    (hin : e.inElection = (s.node n).inElection)
    (hok : e.gotOk = (s.node n).gotOk)
    (hcont : ∀ epoch, Continues epoch (.task todo) →
      ∃ item, (n, item) ∈ fresh ∧ Continues epoch item)
    (hpromises : ∀ m ∈ live, ∀ bound, Promises live s m bound n (.task todo) →
      ∃ item, (n, item) ∈ fresh ∧ Promises live s m bound n item) :
    s'.Progressing live := by
  have hhere : s'.node n = e := by
    rw [hs']
    exact Function.update_self _ _ _
  have he : Effect s s' n [(n, .task todo)] fresh s₀.items := by
    refine ⟨fun q hq => ?_, hbefore, hafter⟩
    rw [hs']
    exact Function.update_of_ne hq _ _
  have halike : Alike s s' n := by
    constructor
    · rw [hhere, hepoch]
    · rw [hhere, hin]
    · rw [hhere, hok]
  apply h.alike he halike
  · exact fun _ _ hitem => hcont _ hitem
  · intro hn m hm _ hitem
    obtain ⟨item, hmem, hitem⟩ := hpromises m hm _ hitem
    exact hopeful_of_fresh he hmem hn (hitem.alike he halike)

theorem Progressing.handleElectionOk {sender : NodeId} (h : s.Progressing live)
    (hbefore : s.items.Perm ((n, .message sender .electionOk) :: s₀.items))
    (hnode : s₀.node = s.node)
    (hsustained : (s.setNode n { s.node n with gotOk := true }).Sustained live) :
    (s₀.handleElectionOk n).Progressing live := by
  obtain ⟨gone, he, hgone, hhere⟩ := effect_handleElectionOk hbefore hnode
  apply h.gaveUp he hgone (e := { s.node n with gotOk := true })
  · constructor <;> rw [hhere] <;> simp [setNode]
  · intro _ hok
    cases hok
  · exact hsustained
  · intro m _ hpromises
    exact hpromises

theorem Progressing.handleCoordinator {sender leaderId : NodeId} {epoch : Nat}
    (h : s.Progressing live)
    (hbefore : s.items.Perm
      ((n, .message sender (.coordinator leaderId epoch)) :: s₀.items))
    (hnode : s₀.node = s.node)
    (hsustained : (s.node n).epoch ≤ epoch → (s.setNode n
      { s.node n with epoch := epoch, inElection := false }).Sustained live) :
    (s₀.handleCoordinator n leaderId epoch).Progressing live := by
  by_cases hstale : epoch < (s.node n).epoch
  · simp only [BullySystem.handleCoordinator, hnode]
    rw [if_pos hstale]
    apply h.drops hbefore hnode
    · exact fun _ _ hcont => hcont
    · rintro m - ⟨rfl, hbound⟩
      exact absurd hbound (Nat.not_le.mpr hstale)
  · obtain ⟨gone, he, -, hgone, hhere⟩ :=
      effect_handleCoordinator hbefore hnode hstale
    apply h.gaveUp he hgone
      (e := { s.node n with epoch := epoch, inElection := false })
    · constructor <;> rw [hhere] <;> simp [setNode]
    · intro hin
      cases hin
    · exact hsustained (Nat.le_of_not_lt hstale)
    · rintro m ⟨hin, -⟩ ⟨rfl, -⟩
      rw [hhere] at hin
      cases hin

theorem Progressing.handle {packet : BullyPacket} (h : s.Progressing live)
    (hbefore : s.items.Perm
      ((packet.target, .message packet.sender packet.msg) :: s₀.items))
    (hnode : s₀.node = s.node)
    (hsustained : SustainsHandling live s packet) :
    (s₀.handle packet).Progressing live := by
  obtain ⟨sender, n, msg⟩ := packet
  cases msg with
  | election epoch =>
      simp only [BullySystem.handle]
      by_cases hlt : sender < n
      · rw [if_pos hlt]
        apply h.goesOn hbefore hnode
        · exact fun _ hcont => hcont.elim
        · exact fun m _ bound hpromises => hpromises.2
      · rw [if_neg hlt]
        apply h.drops hbefore hnode
        · exact fun _ _ hcont => hcont
        · exact fun m _ hpromises => hlt hpromises.1
  | electionOk => exact h.handleElectionOk hbefore hnode hsustained
  | coordinator leaderId epoch =>
      exact h.handleCoordinator hbefore hnode hsustained

theorem Progressing.execute {todo : BullyTask} (h : s.Progressing c.live)
    (hn : n ∈ c.live) (hbefore : s.items.Perm ((n, .task todo) :: s₀.items))
    (hnode : s₀.node = s.node) : (s₀.execute c (n, todo)).Progressing c.live := by
  cases todo with
  | answer sender =>
      apply h.sends hbefore hnode
      · exact fun _ hcont => hcont.elim
      · exact fun m _ bound hpromises => .inl hpromises
  | start =>
      have hgone : s.items.Perm ([(n, .task .start)] ++ s₀.items) := hbefore
      refine h.startElection hn (fun q item hmem => ?_) hgone hnode
      cases List.mem_singleton.mp hmem
      exact ⟨rfl, rfl⟩
  | elect epoch targets =>
      cases targets with
      | nil =>
          have hafter : (s₀.execute c (n, .elect epoch [])).items.Perm
              ([(n, .timer epoch)] ++ s₀.items) := items_timer s₀ n epoch
          refine h.sets hbefore (by rw [← hnode]; rfl) hafter (by rw [hnode])
            (by rw [hnode]) (by rw [hnode]) (fun e hcont => ?_) ?_
          · exact ⟨_, List.mem_singleton_self _, hcont⟩
          · rintro m - bound ⟨p, hp, -⟩
            cases hp
      | cons target targets =>
          apply h.sends hbefore hnode
          · exact fun _ hcont => hcont
          · rintro m - bound ⟨p, hp, hlive, hlt, hout⟩
            rcases List.mem_cons.mp hp with rfl | hp
            · exact .inr ⟨hlive, hlt, hout⟩
            · exact .inl ⟨p, hp, hlive, hlt, hout⟩
  | onTimeout epoch =>
      simp only [BullySystem.execute]
      rw [hnode]
      by_cases hstale : epoch ≠ (s.node n).epoch
      · rw [if_pos hstale]
        exact h.drops hbefore hnode (fun _ _ => hstale) fun _ _ hp => hp
      · rw [if_neg hstale]
        by_cases hok : (s.node n).gotOk = true
        · rw [if_pos hok]
          refine h.drops hbefore hnode (fun _ hnot _ => ?_) fun _ _ hp => hp
          rw [hok] at hnot
          cases hnot
        · rw [if_neg hok]
          by_cases hin : (s.node n).inElection = true
          · rw [hin]
            exact h.goesOn hbefore hnode (fun _ hcont => hcont)
              fun _ _ _ hp => hp.elim
          · rw [Bool.not_eq_true] at hin
            rw [hin]
            refine h.drops hbefore hnode (fun hnot _ _ => ?_) fun _ _ hp => hp
            rw [hin] at hnot
            cases hnot
  | declare epoch =>
      simp only [BullySystem.execute]
      rw [hnode]
      by_cases hstale : epoch ≠ (s.node n).epoch
      · rw [if_pos hstale]
        exact h.drops hbefore hnode (fun _ _ => hstale)
          fun _ _ hp => hstale hp.1
      · rw [if_neg hstale]
        obtain rfl := not_not.mp hstale
        refine h.declared ⟨fun q hq => ?_, hbefore, items_later _ _ _⟩ ?_
        · rw [← hnode]
          exact Function.update_of_ne hq _ _
        · exact Function.update_self _ _ _
  | announce epoch =>
      have hafter : (s₀.execute c (n, .announce epoch)).items.Perm
          ([(n, .task (.broadcast epoch (c.nodes.filter (· ≠ n))))] ++
            s₀.items) := items_later _ _ _
      refine h.sets hbefore (by rw [← hnode]; rfl) hafter
        (by rw [hnode]) (by rw [hnode]) (by rw [hnode])
        (fun e hcont => hcont.elim) ?_
      rintro m hm bound ⟨hne, hbound⟩
      refine ⟨_, List.mem_singleton_self _, ?_, hbound⟩
      rw [List.mem_filter]
      exact ⟨c.known m hm, by simpa using Ne.symm hne⟩
  | broadcast epoch targets =>
      cases targets with
      | nil =>
          have hafter : (s₀.execute c (n, .broadcast epoch [])).items.Perm
              ([] ++ s₀.items) := List.Perm.refl _
          refine h.sets hbefore (by rw [← hnode]; rfl) hafter
            (by rw [hnode]) (by rw [hnode]) (by rw [hnode])
            (fun e hcont => hcont.elim) ?_
          rintro m - bound ⟨hmem, -⟩
          cases hmem
      | cons target targets =>
          apply h.sends hbefore hnode
          · exact fun _ hcont => hcont.elim
          · rintro m hm bound ⟨hmem, hbound⟩
            rcases List.mem_cons.mp hmem with rfl | hmem
            · exact .inr ⟨hm, rfl, hbound⟩
            · exact .inl ⟨hmem, hbound⟩
  | adopt leaderId =>
      have hafter : (s₀.execute c (n, .adopt leaderId)).items.Perm
          ([] ++ s₀.items) := List.Perm.refl _
      exact h.sets hbefore (by rw [← hnode]; rfl) hafter
        (by rw [hnode]) (by rw [hnode]) (by rw [hnode])
        (fun e hcont => hcont.elim) fun _ _ _ hp => hp.elim

end Step

/-! ## Crashes and restarts -/

section Crash

variable {live : Finset NodeId} {s : BullySystem}

private theorem items_drop (s : BullySystem) (n : NodeId) :
    (s.drop n).items = s.items.filter (·.1 ≠ n) := by
  simp only [items, drop, List.filter_append, List.filter_map]
  rfl

theorem Driven.drop (h : s.Driven live) (n : NodeId) :
    (s.drop n).Driven (live.erase n) := by
  intro q hq hin hok
  obtain ⟨hne, hlive⟩ := Finset.mem_erase.mp hq
  obtain ⟨item, hmem, hcont⟩ := h q hlive hin hok
  refine ⟨item, ?_, hcont⟩
  rw [items_drop, List.mem_filter]
  exact ⟨hmem, by simpa using hne⟩

theorem Outbids.restart {n m q : NodeId} {bound : Nat}
    (h : s.Outbids m bound q) (hq : q ≠ n) (e : BullyElection) :
    (s.setNode n e).Outbids m bound q := by
  have hsame : (s.setNode n e).node q = s.node q := Function.update_of_ne hq _ _
  unfold Outbids nextEpoch Waits
  rw [hsame]
  exact h

theorem Promises.restart {n m q : NodeId} {bound : Nat} {item : BullyItem}
    (h : Promises live s m bound q item) (hq : q ≠ n) (hn : n ∉ live)
    (e : BullyElection) :
    Promises (insert n live) (s.setNode n e) m bound q item := by
  cases item with
  | message sender msg =>
      cases msg with
      | election epoch => exact ⟨h.1, h.2.restart hq e⟩
      | electionOk => exact h
      | coordinator leaderId epoch => exact h
  | task todo =>
      cases todo with
      | answer sender => exact Outbids.restart h hq e
      | start => exact Outbids.restart h hq e
      | elect epoch targets =>
          obtain ⟨p, hp, hlive, hlt, hout⟩ := h
          refine ⟨p, hp, Finset.mem_insert_of_mem hlive, hlt, hout.restart ?_ e⟩
          rintro rfl
          exact hn hlive
      | onTimeout epoch => exact h
      | declare epoch =>
          have hsame : (s.setNode n e).node q = s.node q :=
            Function.update_of_ne hq _ _
          refine ⟨?_, h.2⟩
          rw [hsame]
          exact h.1
      | announce epoch => exact h
      | broadcast epoch targets => exact h
      | adopt leaderId => exact h
  | timer epoch => exact h

theorem Progressing.restart (h : s.Progressing live) {n : NodeId}
    (hn : n ∉ live) : (s.setNode n .new).Progressing (insert n live) := by
  have hfresh : (s.setNode n .new).node n = .new := Function.update_self _ _ _
  have hother : ∀ q ∈ live, q ≠ n := by
    rintro q hq rfl
    exact hn hq
  have hsame : ∀ q ∈ live, (s.setNode n .new).node q = s.node q :=
    fun q hq => Function.update_of_ne (hother q hq) _ _
  constructor
  · intro q hq hin hok
    rcases Finset.mem_insert.mp hq with rfl | hq
    · rw [hfresh] at hin
      cases hin
    · rw [hsame q hq] at hin hok ⊢
      exact h.driven q hq hin hok
  · intro m hm hwaits
    rcases Finset.mem_insert.mp hm with rfl | hm
    · rw [Waits, hfresh] at hwaits
      cases hwaits.1
    · unfold Waits at hwaits
      rw [hsame m hm] at hwaits ⊢
      rcases h.sustained m hm hwaits with
        ⟨q, hq, hin, hout⟩ | ⟨⟨q, item⟩, hmem, hq, hpromises⟩
      · refine .inl ⟨q, Finset.mem_insert_of_mem hq, ?_,
          hout.restart (hother q hq) _⟩
        rwa [hsame q hq]
      · exact .inr ⟨(q, item), hmem, Finset.mem_insert_of_mem hq,
          hpromises.restart (hother q hq) hn _⟩

private theorem Progressing.none_inElection (h : s.Progressing live) (hquiet : s.Quiet)
    {n : NodeId} (hn : n ∈ live) : (s.node n).inElection = false := by
  have hnone := not_mem_items_of_quiet hquiet
  have hwaits : ∀ q ∈ live, (s.node q).inElection = true → s.Waits q := by
    intro q hq hin
    refine ⟨hin, ?_⟩
    by_contra hok
    rw [Bool.not_eq_true] at hok
    obtain ⟨item, hmem, -⟩ := h.driven q hq hin hok
    exact hnone _ hmem
  by_contra hin
  rw [Bool.not_eq_false] at hin
  obtain ⟨top, hmem, hmax⟩ := Finset.exists_max_image
    (live.filter fun q => (s.node q).inElection = true) id
    ⟨n, Finset.mem_filter.mpr ⟨hn, hin⟩⟩
  obtain ⟨htop, htopin⟩ := Finset.mem_filter.mp hmem
  rcases h.sustained top htop (hwaits top htop htopin) with
    ⟨q, hq, hqin, -, -, habove | hnot⟩ | ⟨x, hmem, -⟩
  · have hle : q ≤ top := hmax q (Finset.mem_filter.mpr ⟨hq, hqin⟩)
    exact absurd habove (Nat.not_lt.mpr hle)
  · exact hnot (hwaits q hq hqin)
  · exact hnone x hmem

end Crash

end BullySystem

/-! ## Every run -/

namespace CrashBully

open BullySystem

variable {nodes : List NodeId}

private theorem progressing_new (live : Finset NodeId) (known : ∀ n ∈ live, n ∈ nodes) :
    (new live known).bully.Progressing live := by
  constructor
  · intro n _ hin
    cases hin
  · rintro n - ⟨hin, -⟩
    cases hin

private theorem progressing_step {s s' : CrashBully nodes} {a : CrashBullyAction}
    (h : s.bully.Progressing s.live) (hok : s.Sustains a)
    (hstep : s.step a = some s') : s'.bully.Progressing s'.live := by
  cases a with
  | startElection n =>
      obtain ⟨hn, heq⟩ := Option.dite_none_right_eq_some.mp hstep
      obtain rfl := Option.some.inj heq
      have hgone : s.bully.items.Perm ([] ++ s.bully.items) := List.Perm.refl _
      have h' : s.bully.Progressing (s.config n hn).live := h
      exact h'.startElection hn (by simp) hgone rfl
  | deliver packet =>
      obtain ⟨⟨content, network⟩, hpick, rfl⟩ :=
        Option.map_eq_some_iff.mp hstep
      exact h.handle (items_network hpick) rfl
        (hok content (getElem?_of_pick hpick))
  | resume task =>
      obtain ⟨⟨⟨n, todo⟩, running⟩, hpick, hrest⟩ :=
        Option.bind_eq_some_iff.mp hstep
      obtain ⟨hn, heq⟩ := Option.dite_none_right_eq_some.mp hrest
      obtain rfl := Option.some.inj heq
      have h' : s.bully.Progressing (s.config n hn).live := h
      exact h'.execute hn (items_running hpick) rfl
  | expire timer =>
      obtain ⟨⟨⟨n, epoch⟩, timers⟩, hpick, rfl⟩ :=
        Option.map_eq_some_iff.mp hstep
      exact h.goesOn (items_timers (pick_perm hpick)) rfl
        (fun _ hcont => hcont) fun _ _ _ hpromises => hpromises
  | crash n =>
      obtain ⟨-, heq⟩ := Option.ite_none_right_eq_some.mp hstep
      obtain rfl := Option.some.inj heq
      exact ⟨h.driven.drop n, hok⟩
  | restart n =>
      obtain ⟨hn, heq⟩ := Option.dite_none_right_eq_some.mp hstep
      obtain rfl := Option.some.inj heq
      exact h.restart hn.2

/--
In every run whose steps take nobody's last hope for a leader away, no live node is
in an election when no message is in flight, no timer is pending and no thread has
anything left to do.
-/
theorem run_notStuck (live : Finset NodeId) (known : ∀ n ∈ live, n ∈ nodes)
    (actions : List CrashBullyAction) (s : CrashBully nodes)
    (hok : Along step Sustains (new live known) actions)
    (hrun : run step (new live known) actions = some s) (hquiet : s.bully.Quiet)
    (n : NodeId) (hn : n ∈ s.live) : (s.bully.node n).inElection = false := by
  have h : s.bully.Progressing s.live :=
    run_invariant (I := fun s : CrashBully nodes => s.bully.Progressing s.live)
      (fun _ _ _ => progressing_step) (progressing_new live known) hok hrun
  exact h.none_inElection hquiet hn

end CrashBully

/-! ## Runs without crashes -/

namespace BullySystem

variable {c : BullyConfig} {s s' : BullySystem}

private theorem promises_of_calls {m q : NodeId} {bound : Nat} {item : BullyItem}
    (hm : m ∈ c.live) (hne : m ≠ c.highest) (houtbids : s.Outbids m bound c.highest)
    (hcalls : Calls c m q item) : Promises c.live s m bound q item := by
  cases item with
  | message sender msg =>
      cases msg with
      | election epoch =>
          obtain ⟨rfl, rfl⟩ := hcalls
          exact ⟨c.lt_highest hm hne, houtbids⟩
      | electionOk => exact hcalls.elim
      | coordinator leaderId epoch => exact hcalls.elim
  | task todo =>
      cases todo with
      | answer sender =>
          obtain rfl : q = c.highest := hcalls
          exact houtbids
      | start =>
          obtain rfl : q = c.highest := hcalls
          exact houtbids
      | elect epoch targets =>
          obtain ⟨rfl, htarget⟩ := hcalls
          exact ⟨c.highest, htarget, c.highest_live, c.lt_highest hm hne, houtbids⟩
      | onTimeout epoch => exact hcalls.elim
      | declare epoch => exact hcalls.elim
      | announce epoch => exact hcalls.elim
      | broadcast epoch targets => exact hcalls.elim
      | adopt leaderId => exact hcalls.elim
  | timer epoch => exact hcalls.elim

private theorem Inv.promises_of_brings (h : s.Inv c) {m q : NodeId} {bound : Nat}
    {item : BullyItem} (hne : m ≠ c.highest) (hmem : (q, item) ∈ s.items)
    (hbrings : Brings c m bound q item) : Promises c.live s' m bound q item := by
  cases item with
  | message sender msg =>
      cases msg with
      | election epoch => exact hbrings.elim
      | electionOk => exact hbrings.elim
      | coordinator leaderId epoch => exact hbrings
  | task todo =>
      cases todo with
      | announce epoch =>
          -- only the highest node announces
          obtain ⟨rfl, -⟩ := (h.fits q _ hmem).2
          exact ⟨hne.symm, hbrings.2⟩
      | broadcast epoch targets => exact hbrings
      | answer sender => exact hbrings.elim
      | start => exact hbrings.elim
      | elect epoch targets => exact hbrings.elim
      | onTimeout epoch => exact hbrings.elim
      | declare epoch => exact hbrings.elim
      | adopt leaderId => exact hbrings.elim
  | timer epoch => exact hbrings.elim

private theorem Inv.outbids_highest (h : s.Inv c)
    (htop : s'.node c.highest = s.node c.highest) {m : NodeId} (hm : m ∈ c.live)
    (hne : m ≠ c.highest) (hin : (s.node m).inElection = true) :
    s'.Outbids m (s.node m).epoch c.highest := by
  have hepoch := h.epochs m hm hne
  rw [hin, if_pos rfl, settledEpoch] at hepoch
  refine ⟨hne.symm, ?_, .inl (c.lt_highest hm hne)⟩
  rw [nextEpoch, htop]
  cases htopin : (s.node c.highest).inElection with
  | false => simpa [htopin] using hepoch
  | true =>
      have hpos := h.active _ htopin
      rw [htopin, if_pos rfl] at hepoch
      rw [if_pos rfl]
      omega

theorem Inv.hopeful (h : s.Inv c) (hitems : s'.items = s.items)
    (htop : s'.node c.highest = s.node c.highest) {m : NodeId} (hm : m ∈ c.live)
    (hne : m ≠ c.highest) (hin : (s.node m).inElection = true) :
    Hopeful c.live s' m (s.node m).epoch := by
  have houtbids := h.outbids_highest htop hm hne hin
  have hpromised {q : NodeId} {item : BullyItem} (hmem : (q, item) ∈ s.items)
      (hpromises : Promises c.live s' m (s.node m).epoch q item) :
      Hopeful c.live s' m (s.node m).epoch :=
    .inr ⟨(q, item), hitems ▸ hmem, (h.fits q item hmem).1, hpromises⟩
  rcases h.ended m hm hne hin with (htopin | ⟨q, item, hmem, hcalls⟩) |
    ⟨q, item, hmem, hbrings⟩
  · exact .inl ⟨c.highest, c.highest_live, htop ▸ htopin, houtbids⟩
  · exact hpromised hmem (promises_of_calls hm hne houtbids hcalls)
  · exact hpromised hmem (h.promises_of_brings hne hmem hbrings)

theorem Inv.sustained_setNode (h : s.Inv c) {n : NodeId} {e : BullyElection}
    (hn : n ≠ c.highest) (hout : e.inElection = true →
      (s.node n).inElection = true ∧ e.epoch = (s.node n).epoch) :
    (s.setNode n e).Sustained c.live := by
  have htop : (s.setNode n e).node c.highest = s.node c.highest :=
    Function.update_of_ne hn.symm _ _
  intro m hm hwaits
  have hne : m ≠ c.highest := by
    rintro rfl
    rw [Waits, htop, h.unanswered] at hwaits
    cases hwaits.2
  by_cases hmn : m = n
  · subst hmn
    have hhere : (s.setNode m e).node m = e := Function.update_self _ _ _
    rw [Waits, hhere] at hwaits
    obtain ⟨hin, hepoch⟩ := hout hwaits.1
    rw [hhere, hepoch]
    have hitems : (s.setNode m e).items = s.items := rfl
    exact h.hopeful hitems htop hm hne hin
  · have hsame : (s.setNode n e).node m = s.node m := Function.update_of_ne hmn _ _
    rw [Waits, hsame] at hwaits
    rw [hsame]
    have hitems : (s.setNode n e).items = s.items := rfl
    exact h.hopeful hitems htop hm hne hwaits.1

private theorem Inv.sustainsHandling (h : s.Inv c) {packet : BullyPacket}
    (hmem : packet ∈ s.network) : s.SustainsHandling c.live packet := by
  obtain ⟨sender, n, msg⟩ := packet
  have hitem : (n, BullyItem.message sender msg) ∈ s.items :=
    List.mem_append_left _
      (List.mem_map.mpr ⟨⟨sender, n, msg⟩, hmem, rfl⟩)
  have hfits := (h.fits n _ hitem).2
  cases msg with
  | election epoch => trivial
  | electionOk => exact h.sustained_setNode hfits fun hin => ⟨hin, rfl⟩
  | coordinator leaderId epoch =>
      intro _
      exact h.sustained_setNode hfits.1 fun hin => by cases hin

end BullySystem

namespace CrashBully

variable {c : BullyConfig}

/-- No node crashes, and the timers are as long as in a run of `BullySystem`. -/
def Calm (c : BullyConfig) (s : CrashBully c.nodes) : CrashBullyAction → Prop
  | .crash _ | .restart _ => False
  | .expire timer => ∀ entry ∈ s.bully.timers[timer]?,
      s.bully.MayExpire c entry.1 entry.2
  | _ => True

theorem config_eq {s : CrashBully c.nodes} (hlive : s.live = c.live) (n : NodeId)
    (hn : n ∈ s.live) : s.config n hn = c := by
  obtain ⟨nodes, live, known, hsome⟩ := c
  obtain ⟨live', known', bully⟩ := s
  change live' = live at hlive
  subst hlive
  rfl

private theorem step_bully {s s' : CrashBully c.nodes} {a : CrashBullyAction}
    (hlive : s.live = c.live) (hcalm : Calm c s a) (hstep : s.step a = some s') :
    s'.live = c.live ∧ ∃ b, s.bully.step c b = some s'.bully := by
  cases a with
  | startElection n =>
      obtain ⟨hn, heq⟩ := Option.dite_none_right_eq_some.mp hstep
      obtain rfl := Option.some.inj heq
      refine ⟨hlive, .startElection n, ?_⟩
      rw [BullySystem.step, if_pos (hlive ▸ hn), config_eq hlive]
  | deliver packet =>
      obtain ⟨⟨content, network⟩, hpick, rfl⟩ := Option.map_eq_some_iff.mp hstep
      refine ⟨hlive, .deliver packet, ?_⟩
      rw [BullySystem.step, hpick]
      rfl
  | resume task =>
      obtain ⟨⟨⟨n, todo⟩, running⟩, hpick, hrest⟩ := Option.bind_eq_some_iff.mp hstep
      obtain ⟨hn, heq⟩ := Option.dite_none_right_eq_some.mp hrest
      obtain rfl := Option.some.inj heq
      refine ⟨hlive, .resume task, ?_⟩
      rw [BullySystem.step, hpick, config_eq hlive]
      rfl
  | expire timer =>
      obtain ⟨⟨⟨n, epoch⟩, timers⟩, hpick, rfl⟩ := Option.map_eq_some_iff.mp hstep
      have hmay := hcalm (n, epoch) (getElem?_of_pick hpick)
      refine ⟨hlive, .expire timer, ?_⟩
      rw [BullySystem.step, hpick]
      exact if_pos hmay
  | crash n => exact hcalm.elim
  | restart n => exact hcalm.elim

/-- In a run without crashes nobody loses the last hope for a leader. -/
theorem along_sustains_of_calm {actions : List CrashBullyAction}
    (hcalm : Along step (Calm c) (new c.live c.known) actions) :
    Along step Sustains (new c.live c.known) actions := by
  refine hcalm.imp (I := fun s : CrashBully c.nodes =>
    s.live = c.live ∧ s.bully.Inv c) ?_ ?_ ⟨rfl, BullySystem.inv_new c⟩
  · rintro s a s' ⟨hlive, hinv⟩ hok hstep
    obtain ⟨hlive', b, hb⟩ := step_bully hlive hok hstep
    exact ⟨hlive', hinv.step hb⟩
  · rintro s a ⟨hlive, hinv⟩ hok
    cases a with
    | crash n => exact hok.elim
    | restart n => exact hok.elim
    | deliver packet =>
        intro content hcontent
        rw [hlive]
        exact hinv.sustainsHandling (List.mem_of_getElem? hcontent)
    | startElection n => trivial
    | resume task => trivial
    | expire timer => trivial

variable {nodes : List NodeId}

def twoNodes : CrashBully [0, 1] := new {0, 1} (by decide)

/-- Node 1 answers node 0 and crashes before it starts its own election. -/
def answeredAndCrashed : List CrashBullyAction :=
  [.startElection 0, .resume 0, .resume 0, .deliver 0, .resume 0, .crash 1,
    .deliver 0]

theorem answeredAndCrashed_stuck :
    ∃ s, run step twoNodes answeredAndCrashed = some s ∧ s.bully.Quiet ∧
      0 ∈ s.live ∧ (s.bully.node 0).inElection = true ∧
      (s.bully.node 0).leaderId = none ∧
      run step s [.startElection 0] = some s := by
  have hview : (run step twoNodes answeredAndCrashed).map (fun s =>
      decide ((s.bully.network = [] ∧ s.bully.running = [] ∧
        s.bully.timers = []) ∧ 0 ∈ s.live ∧
        (s.bully.node 0).inElection = true ∧
        (s.bully.node 0).leaderId = none)) = some true := by
    decide +kernel
  obtain ⟨s, hs, hdec⟩ := Option.map_eq_some_iff.mp hview
  obtain ⟨hquiet, hlive, hin, hleader⟩ := of_decide_eq_true hdec
  refine ⟨s, hs, hquiet, hlive, hin, hleader, ?_⟩
  rw [run, step, dif_pos hlive]
  simp only [BullySystem.startElection, if_pos hin, run]

def threeNodes : CrashBully [0, 1, 2] := new {0, 1, 2} (by decide)

/-- Node 2 answers node 0 and crashes; node 1 answers, wins and is the leader when
node 2 comes back. -/
def answeredTwice : List CrashBullyAction :=
  [.startElection 0, .resume 0, .resume 0, .resume 0, .deliver 0, .resume 0,
    .crash 2, .deliver 1, .resume 0, .resume 0, .resume 0, .resume 0,
    .deliver 0, .deliver 0, .restart 2, .expire 0, .resume 0, .resume 0,
    .resume 0, .resume 0, .resume 0, .resume 0, .deliver 0, .deliver 0,
    .resume 0, .resume 0]

theorem answeredTwice_notStuck :
    ∃ s, run step threeNodes answeredTwice = some s ∧ s.bully.Quiet ∧
      s.live = {0, 1, 2} ∧ ∀ n ∈ s.live, (s.bully.node n).inElection = false := by
  have hview : (run step threeNodes answeredTwice).map (fun s =>
      decide ((s.bully.network = [] ∧ s.bully.running = [] ∧
        s.bully.timers = []) ∧ s.live = {0, 1, 2})) = some true := by
    decide +kernel
  have hsustains : Along step Sustains threeNodes answeredTwice := by
    decide +kernel
  obtain ⟨s, hs, hdec⟩ := Option.map_eq_some_iff.mp hview
  obtain ⟨hquiet, hlive⟩ := of_decide_eq_true hdec
  exact ⟨s, hs, hquiet, hlive,
    run_notStuck {0, 1, 2} (by decide) answeredTwice s hsustains hs hquiet⟩

end CrashBully

end DistributedMemory.Election
