import DistributedMemory.Recovery.LogTrace

/-!
# A node that restarts

On every start a node opens its log, recovers from it and runs a fresh
transaction manager on it until it crashes.  The manager counts its transactions
from one again, so a transaction of one session has the name of one of another
session, and `recover` groups the records of the whole log by that name alone.
-/

namespace DistributedMemory.Recovery

open DistributedMemory.Library DistributedMemory.Storage

/-- `image` is what the record files hold when the node starts, `order` the
order in which `recover` iterates the active transactions. -/
structure Incarnation where
  image : Store
  order : List TxnId
  actions : List TxnAction

/-- One life of the node, with the log as it was found and as it was left by
`recover`, and the manager at the crash. -/
structure Session where
  found : List LogEntry
  recovered : List LogEntry
  manager : TransactionManager

def Session.own (s : Session) : List LogEntry :=
  s.manager.logged.drop s.recovered.length

/-- `_init_recovery`, `_init_transactions` and the operations up to the crash. -/
def live (nodeId : Nat) (found : List LogEntry) (inc : Incarnation) :
    Option Session :=
  if inc.order.Nodup ∧ inc.order.toFinset = activeIn found then
    let r := recover (.reopen found) inc.image inc.order
    (run TransactionManager.step (.new nodeId (some r.wal) r.store)
      inc.actions).map fun m => ⟨found, r.wal.entries, m⟩
  else none

/-- The sessions of a node on the log `found`. -/
def sessions (nodeId : Nat) :
    List LogEntry → List Incarnation → Option (List Session)
  | _, [] => some []
  | found, inc :: rest =>
      match live nodeId found inc with
      | none => none
      | some s => (sessions nodeId s.manager.logged rest).map (s :: ·)

/-- The log that the next session finds. -/
def logAfter : List LogEntry → List Session → List LogEntry
  | found, [] => found
  | _, s :: rest => logAfter s.manager.logged rest

def reapplied (entries : List LogEntry) : List LogEntry :=
  (relevant entries).filter fun e =>
    e.entryType = .write && e.txnId ∈ committedIn entries

def Session.Wrote (nodeId : Nat) (s : Session) (n : Nat) : Prop :=
  Records [.write] s.own (txnName nodeId n)

def Session.Committed (nodeId : Nat) (s : Session) (n : Nat) : Prop :=
  s.manager.statusOf (txnName nodeId n) = some .committed

instance (nodeId : Nat) (s : Session) (n : Nat) :
    Decidable (s.Wrote nodeId n) :=
  inferInstanceAs (Decidable (Records _ _ _))

instance (nodeId : Nat) (s : Session) (n : Nat) :
    Decidable (s.Committed nodeId n) :=
  inferInstanceAs (Decidable (_ = _))

/-- A transaction that wrote and did not commit shares its name with no
committed one of another session. -/
def NamesApart (nodeId : Nat) (ss : List Session) : Prop :=
  ∀ s ∈ ss, ∀ s' ∈ ss, ∀ n, s.Wrote nodeId n → ¬ s.Committed nodeId n →
    ¬ s'.Committed nodeId n

/-- Whatever a recovery carries out again was logged by a transaction that had
logged its COMMIT in the same session. -/
def OnlyCommittedReapplied (ss : List Session) : Prop :=
  ∀ before after, ss = before ++ after → ∀ s ∈ before, ∀ e ∈ s.own,
    e ∈ reapplied (logAfter [] before) → Records [.commit] s.own e.txnId

/-! ## Recovery between two sessions -/

/-- The redo phase carries out exactly the records of `reapplied`. -/
theorem redo_reapplied (store : Store) (entries : List LogEntry) :
    redo store (relevant entries) (committedIn entries) =
      assign ((reapplied entries).map fun e =>
        (recordKey e.resource, some e.afterValue)) store :=
  redo_eq store (relevant entries) (committedIn entries)

structure Session.Sound (nodeId : Nat) (s : Session) : Prop where
  node : s.manager.nodeId = nodeId
  log : ∃ aborts, s.manager.logged = s.found ++ aborts ++ s.own ∧
    ∀ e ∈ aborts, e.entryType = .abort
  types : ∀ e ∈ s.own, e.entryType ∈
    [EntryType.begin, .write, .commit, .abort]
  named : ∀ e ∈ s.own, ∃ n, e.txnId = txnName nodeId n
  commit : ∀ t, Records [.commit] s.own t ↔
    s.manager.statusOf t = some .committed

private theorem run_nodeId {nodeId : Nat} {wal : Option WriteAheadLog} {store : Store}
    {actions : List TxnAction} {m : TransactionManager}
    (hrun : run TransactionManager.step (.new nodeId wal store) actions =
      some m) : m.nodeId = nodeId := by
  refine run_preserves (I := fun m => m.nodeId = nodeId) ?_ rfl hrun
  intro m a m' hnode hstep
  rw [← hnode]
  exact TransactionManager.step_nodeId hstep

private theorem live_sound {nodeId : Nat} {found : List LogEntry} {inc : Incarnation}
    {s : Session} (h : live nodeId found inc = some s) :
    s.Sound nodeId ∧ s.found = found := by
  unfold live at h
  split at h
  · obtain ⟨m, hrun, rfl⟩ := Option.map_eq_some_iff.mp h
    obtain ⟨own, htraced⟩ := TransactionManager.run_traced nodeId _ _ hrun
    obtain ⟨aborts, heq, hall⟩ :=
      recover_entries (.reopen found) inc.image inc.order
    have hown : Session.own ⟨found, (recover (.reopen found) inc.image
        inc.order).wal.entries, m⟩ = own := by
      rw [Session.own, htraced.log, List.drop_left]
    have hnode := run_nodeId hrun
    refine ⟨⟨hnode, ⟨aborts, ?_, hall⟩, ?_, ?_, ?_⟩, rfl⟩
    · rw [hown, htraced.log, heq]
      rfl
    · rw [hown]
      exact htraced.types
    · rw [hown]
      intro e he
      obtain ⟨x, hx⟩ := Option.ne_none_iff_exists'.mp (htraced.known e he)
      obtain ⟨n, -, hn⟩ := htraced.lock.named e.txnId x hx
      exact ⟨n, hnode ▸ hn⟩
    · rw [hown]
      exact htraced.commit
  · cases h

/-! ## The log over all sessions -/

private theorem sessions_cons {nodeId : Nat} {found : List LogEntry}
    {incs : List Incarnation} {s : Session} {rest : List Session}
    (h : sessions nodeId found incs = some (s :: rest)) :
    s.Sound nodeId ∧ s.found = found ∧
      ∃ incs', sessions nodeId s.manager.logged incs' = some rest := by
  cases incs with
  | nil => cases h
  | cons inc incs =>
      simp only [sessions] at h
      split at h
      · cases h
      · next s' hlive =>
        obtain ⟨rest', hrest, heq⟩ := Option.map_eq_some_iff.mp h
        obtain ⟨rfl, rfl⟩ := List.cons.inj heq
        obtain ⟨hsound, hfound⟩ := live_sound hlive
        exact ⟨hsound, hfound, incs, hrest⟩

private theorem sessions_prefix {nodeId : Nat} {found : List LogEntry}
    {incs : List Incarnation} {before after : List Session}
    (h : sessions nodeId found incs = some (before ++ after)) :
    ∃ incs', sessions nodeId found incs' = some before := by
  induction incs generalizing found before with
  | nil =>
      simp only [sessions, Option.some.injEq, List.nil_eq,
        List.append_eq_nil_iff] at h
      exact ⟨[], by simp [sessions, h.1]⟩
  | cons inc incs ih =>
      cases before with
      | nil => exact ⟨[], rfl⟩
      | cons s rest =>
          simp only [sessions, List.cons_append] at h
          split at h
          · cases h
          · next s' hlive =>
            obtain ⟨rest', hrest, heq⟩ := Option.map_eq_some_iff.mp h
            obtain ⟨rfl, rfl⟩ := List.cons.inj heq
            obtain ⟨incs', hincs⟩ := ih hrest
            exact ⟨inc :: incs', by simp [sessions, hlive, hincs]⟩

theorem mem_logAfter {nodeId : Nat} {found : List LogEntry}
    {incs : List Incarnation} {ss : List Session}
    (h : sessions nodeId found incs = some ss) :
    (∀ s ∈ ss, s.Sound nodeId) ∧
    (∀ e ∈ found, e ∈ logAfter found ss) ∧
    (∀ s ∈ ss, ∀ e ∈ s.own, e ∈ logAfter found ss) ∧
    (∀ e ∈ logAfter found ss, e ∈ found ∨ e.entryType = .abort ∨
      ∃ s ∈ ss, e ∈ s.own) := by
  induction ss generalizing found incs with
  | nil => exact ⟨by simp, fun _ => id, by simp, fun e he => .inl he⟩
  | cons s rest ih =>
      obtain ⟨hsound, rfl, incs', hrest⟩ := sessions_cons h
      obtain ⟨hall, hfound, hown, hsplit⟩ := ih hrest
      obtain ⟨aborts, hlog, haborts⟩ := hsound.log
      refine ⟨?_, ?_, ?_, ?_⟩
      · rintro s' hs'
        rcases List.mem_cons.mp hs' with rfl | hs'
        · exact hsound
        · exact hall s' hs'
      · intro e he
        exact hfound e (by simp [hlog, he])
      · rintro s' hs' e he
        rcases List.mem_cons.mp hs' with rfl | hs'
        · refine hfound e ?_
          rw [hlog]
          exact List.mem_append_right _ he
        · exact hown s' hs' e he
      · intro e he
        rcases hsplit e he with he | he | ⟨s', hs', he⟩
        · rw [hlog, List.mem_append, List.mem_append] at he
          rcases he with (he | he) | he
          · exact .inl he
          · exact .inr (.inl (haborts e he))
          · exact .inr (.inr ⟨s, by simp, he⟩)
        · exact .inr (.inl he)
        · exact .inr (.inr ⟨s', by simp [hs'], he⟩)

section Sessions

variable {nodeId : Nat} {incs : List Incarnation} {ss : List Session}
  (h : sessions nodeId [] incs = some ss)

include h

theorem logAfter_no_checkpoint :
    ∀ e ∈ logAfter [] ss, e.entryType ≠ .checkpoint := by
  obtain ⟨hsound, -, -, hsplit⟩ := mem_logAfter h
  intro e he htype
  rcases hsplit e he with he | he | ⟨s, hs, he⟩
  · simp at he
  · simp [he] at htype
  · have := (hsound s hs).types e he
    simp [htype] at this

private theorem mem_committedIn_logAfter (t : TxnId) :
    t ∈ committedIn (logAfter [] ss) ↔
      ∃ s ∈ ss, Records [.commit] s.own t := by
  obtain ⟨hsound, -, hown, hsplit⟩ := mem_logAfter h
  rw [mem_committedIn (logAfter_no_checkpoint h)]
  constructor
  · rintro ⟨e, he, htype, rfl⟩
    rcases hsplit e he with he | he | ⟨s, hs, he⟩
    · simp at he
    · simp [he] at htype
    · refine ⟨s, hs, e, he, ?_, rfl⟩
      have := (hsound s hs).types e he
      rcases List.mem_cons.mp htype with hc | hc
      · simp [hc]
      · rw [List.mem_singleton] at hc
        simp [hc] at this
  · rintro ⟨s, hs, e, he, htype, rfl⟩
    exact ⟨e, hown s hs e he, by simp [List.mem_singleton.mp htype], rfl⟩

theorem mem_reapplied_logAfter {s : Session} (hs : s ∈ ss) {e : LogEntry}
    (he : e ∈ s.own) : e ∈ reapplied (logAfter [] ss) ↔
      e.entryType = .write ∧
        ∃ s' ∈ ss, Records [.commit] s'.own e.txnId := by
  obtain ⟨-, -, hown, -⟩ := mem_logAfter h
  rw [reapplied, relevant_of_none (logAfter_no_checkpoint h), List.mem_filter,
    Bool.and_eq_true, decide_eq_true_eq, decide_eq_true_eq,
    mem_committedIn_logAfter h]
  exact and_iff_right (hown s hs e he)

end Sessions

/--
Recoveries carry out committed writes only, exactly when no name of an
uncommitted writer is that of a committed transaction of another session.
-/
theorem onlyCommittedReapplied_iff (nodeId : Nat) (incs : List Incarnation)
    (ss : List Session) (h : sessions nodeId [] incs = some ss) :
    OnlyCommittedReapplied ss ↔ NamesApart nodeId ss := by
  constructor
  · rintro honly s hs s' hs' n ⟨e, he, htype, hname⟩ hopen hcommitted
    obtain ⟨hsound, -, -, -⟩ := mem_logAfter h
    have hrecord := honly ss [] (by simp) s hs e he
      ((mem_reapplied_logAfter h hs he).mpr ⟨List.mem_singleton.mp htype, s',
        hs', ((hsound s' hs').commit _).mpr (hname ▸ hcommitted)⟩)
    rw [(hsound s hs).commit, hname] at hrecord
    exact hopen hrecord
  · rintro hapart before after rfl s hs e he hre
    obtain ⟨incs', hbefore⟩ := sessions_prefix h
    obtain ⟨hsound, -, -, -⟩ := mem_logAfter hbefore
    obtain ⟨htype, s', hs', hcommit⟩ :=
      (mem_reapplied_logAfter hbefore hs he).mp hre
    obtain ⟨n, hname⟩ := (hsound s hs).named e he
    by_contra hopen
    rw [(hsound s hs).commit] at hopen
    rw [(hsound s' hs').commit] at hcommit
    exact hapart s (by simp [hs]) s' (by simp [hs']) n
      ⟨e, he, by simp [htype], hname⟩ (by rwa [Session.Committed, ← hname])
      (by rwa [Session.Committed, ← hname])

private theorem namesApart_of_own {nodeId : Nat} {ss : List Session}
    (h : ∀ s ∈ ss, ∀ s' ∈ ss, ∀ e ∈ s.own, e.entryType = .write →
      s.manager.statusOf e.txnId ≠ some .committed →
      s'.manager.statusOf e.txnId ≠ some .committed) : NamesApart nodeId ss := by
  rintro s hs s' hs' n ⟨e, he, htype, hname⟩ hopen
  rw [Session.Committed, ← hname] at hopen ⊢
  exact h s hs s' hs' e he (List.mem_singleton.mp htype) hopen

/-- The first transaction of both sessions commits a write, the second one of the
first session is cut off by the crash, that of the second session aborts. -/
def apartIncarnations : List Incarnation :=
  [⟨fun _ => none, [], [.begin none, .begin none,
      .call 0 "node_0_txn_1" (.write "f" "a" "1"), .advance 0, .advance 0,
      .call 1 "node_0_txn_2" (.write "g" "b" "2"), .advance 1, .advance 1,
      .commit "node_0_txn_1" ["f"]]⟩,
    ⟨fun _ => none, ["node_0_txn_2"], [.begin none, .begin none,
      .call 0 "node_0_txn_1" (.write "f" "a" "3"), .advance 0, .advance 0,
      .commit "node_0_txn_1" ["f"], .abort "node_0_txn_2" []]⟩]

theorem apartIncarnations_onlyCommitted :
    ∃ ss, sessions 0 [] apartIncarnations = some ss ∧ ss.length = 2 ∧
      OnlyCommittedReapplied ss := by
  have hend : (sessions 0 [] apartIncarnations).map (fun ss =>
      decide (ss.length = 2 ∧ ∀ s ∈ ss, ∀ s' ∈ ss, ∀ e ∈ s.own,
        e.entryType = .write →
        s.manager.statusOf e.txnId ≠ some .committed →
        s'.manager.statusOf e.txnId ≠ some .committed)) = some true := by
    decide +kernel
  obtain ⟨ss, hss, hdec⟩ := Option.map_eq_some_iff.mp hend
  obtain ⟨hlength, hown⟩ := of_decide_eq_true hdec
  exact ⟨ss, hss, hlength, (onlyCommittedReapplied_iff 0 apartIncarnations ss
    hss).mpr (namesApart_of_own hown)⟩

/-- A transaction is cut off by the crash; the first transaction after the
restart has the same name and commits. -/
def reusedName : List Incarnation :=
  [⟨fun _ => none, [], [.begin none,
      .call 0 "node_0_txn_1" (.write "f" "a" "1"), .advance 0, .advance 0]⟩,
    ⟨fun _ => none, ["node_0_txn_1"],
      [.begin none, .commit "node_0_txn_1" []]⟩]

theorem reusedName_reapplied :
    ∃ ss, sessions 0 [] reusedName = some ss ∧
      (recover (.reopen (logAfter [] ss)) (fun _ => none) []).store ("f", "a") =
        some "1" ∧ ¬ OnlyCommittedReapplied ss := by
  have hend : (sessions 0 [] reusedName).map (fun ss =>
      decide ((recover (.reopen (logAfter [] ss)) (fun _ => none) []).store
          ("f", "a") = some "1" ∧
        ∃ s ∈ ss, ∃ e ∈ s.own, e ∈ reapplied (logAfter [] ss) ∧
          ¬ Records [.commit] s.own e.txnId)) = some true := by
    decide +kernel
  obtain ⟨ss, hss, hdec⟩ := Option.map_eq_some_iff.mp hend
  obtain ⟨hstore, s, hs, e, he, hre, hopen⟩ := of_decide_eq_true hdec
  exact ⟨ss, hss, hstore, fun honly =>
    hopen (honly ss [] (by simp) s hs e he hre)⟩

end DistributedMemory.Recovery
