import DistributedMemory.Library.Run
import DistributedMemory.Storage.EndSteps

/-!
# Transactions that end once

`commit` and `abort` check the status under the lock of the manager and act on it
after they have released it.  When the check of a commit passes while an abort of
the same transaction is running, or the other way round, both go on to their log
record.  Where no check passes so, a transaction is on one side only: its log has
one kind of record, the loop over its write buffer runs to the end, and a cleared
buffer was never installed from.
-/

namespace DistributedMemory.Storage

open DistributedMemory.Library DistributedMemory.Recovery

namespace Outcome

def other : Outcome → Outcome
  | .commit => .abort
  | .abort => .commit

def entryType : Outcome → EntryType
  | .commit => .commit
  | .abort => .abort

end Outcome

def EndStage.inLoop : EndStage → Bool
  | .iterating _ _ => true
  | .writing _ _ _ => true
  | _ => false

namespace TransactionManager

def buffered (m : TransactionManager) (t : TxnId) : List (String × String) :=
  match m.transactions.get? t with
  | none => []
  | some txn => txn.writeBuffer.items

/-- The log has the record of a commit, or an abort, of `t`. -/
def Logged (m : TransactionManager) (t : TxnId) (o : Outcome) : Prop :=
  ∃ e ∈ entriesOf m.wal, e.txnId = t ∧ e.entryType = o.entryType

instance (m : TransactionManager) (t : TxnId) (o : Outcome) :
    Decidable (m.Logged t o) :=
  inferInstanceAs (Decidable (∃ e ∈ entriesOf m.wal, _))

section Frames

variable {m : TransactionManager}

theorem logged_iff_of_wal {m' : TransactionManager} (hwal : m'.wal = m.wal)
    (t : TxnId) (o : Outcome) : m'.Logged t o ↔ m.Logged t o := by
  rw [Logged, Logged, hwal]

private theorem logged_record (hwal : m.wal ≠ none) (t u : TxnId) (o o' : Outcome) :
    (m.log (o'.record u)).Logged t o ↔
      m.Logged t o ∨ u = t ∧ o' = o := by
  obtain ⟨wal, hsome⟩ := Option.ne_none_iff_exists'.mp hwal
  have hentries : entriesOf (m.log (o'.record u)).wal =
      entriesOf m.wal ++ [⟨wal.nextLsn, u, o'.entryType, "", "", ""⟩] := by
    rw [log_wal, hsome]
    cases o' <;> rfl
  have htype : o'.entryType = o.entryType ↔ o' = o := by
    cases o' <;> cases o <;> decide
  simp only [Logged, hentries, List.mem_append, List.mem_singleton, or_and_right,
    exists_or, exists_eq_left, htype]

theorem buffered_putTxn (t u : TxnId) (txn : Transaction) :
    (m.putTxn t txn).buffered u =
      if u = t then txn.writeBuffer.items else m.buffered u := by
  simp only [buffered, transactions_putTxn]
  by_cases hu : u = t <;> simp [hu]

theorem clearLocks_transactions (t u : TxnId) (txn : Transaction)
    (order : List Resource) (o : Outcome) :
    ∃ extra, (m.clearLocks t txn order o).transactions.get? u =
      (m.transactions.get? u).map fun x =>
        { x with locksHeld := x.locksHeld ∪ extra } := by
  cases o with
  | commit =>
      obtain ⟨extra, hget, -⟩ := passLocks_transactions m t txn order u
      exact ⟨extra, hget⟩
  | abort =>
      refine ⟨∅, ?_⟩
      cases hget : m.transactions.get? u <;> simp [clearLocks, hget]

theorem clearLocks_wal (t : TxnId) (txn : Transaction) (order : List Resource)
    (o : Outcome) : (m.clearLocks t txn order o).wal = m.wal := by
  cases o with
  | commit => exact passLocks_wal m t txn order
  | abort => rfl

private theorem clearLocks_store (t : TxnId) (txn : Transaction) (order : List Resource)
    (o : Outcome) : (m.clearLocks t txn order o).store = m.store := by
  cases o with
  | commit => exact passLocks_store m t txn order
  | abort => rfl

end Frames

end TransactionManager

namespace EndSystem

def Running (s : EndSystem) (t : TxnId) (o : Outcome) : Prop :=
  ∃ item ∈ s.calls.items, item.2.txnId = t ∧ item.2.outcome = o

instance (s : EndSystem) (t : TxnId) (o : Outcome) : Decidable (s.Running t o) :=
  inferInstanceAs (Decidable (∃ item ∈ s.calls.items, _))

/-- A check for `t` passes only while no call with the other outcome is running. -/
def unopposed (t : TxnId) (s : EndSystem) : EndAction → Bool
  | .enter _ u o =>
      u ≠ t || (s.manager.getActive t).isNone || ¬ s.Running t o.other
  | .proceed _ _ => true

/-- `writes` are the buffered writes of `t`. -/
structure EndedOnce (t : TxnId) (writes : List (String × String))
    (s : EndSystem) : Prop where
  once : ¬ (s.manager.Logged t .commit ∧ s.manager.Logged t .abort)
  complete : s.manager.Logged t .commit →
    ∀ item ∈ writes, (t, item) ∈ s.installed
  none : s.manager.Logged t .abort → ∀ item, (t, item) ∉ s.installed

theorem running_iff {s : EndSystem} {t : TxnId} {o : Outcome} :
    s.Running t o ↔
      ∃ i call, s.calls.get? i = some call ∧ call.txnId = t ∧
        call.outcome = o := by
  constructor
  · rintro ⟨⟨i, call⟩, hmem, ht, ho⟩
    exact ⟨i, call, Dict.mem_items_iff.mp hmem, ht, ho⟩
  · rintro ⟨i, call, hget, ht, ho⟩
    exact ⟨(i, call), Dict.mem_items_iff.mpr hget, ht, ho⟩

/-- No `commit` and no `abort` of `t` is in the middle of running. -/
def Done (s : EndSystem) (t : TxnId) : Prop := ∀ o, ¬ s.Running t o

theorem done_of_calls {s : EndSystem} {t : TxnId} (h : s.calls.items = []) :
    s.Done t := by
  rintro o ⟨item, hmem, -⟩
  rw [h] at hmem
  cases hmem

/-! ## What a step leaves -/

section Effects

variable {s s' : EndSystem} {i : ThreadId} {call : EndCall} {txn : Transaction}

theorem CallStep.calls (h : CallStep s i call txn s') :
    (∃ stage, stage ≠ .checked ∧
        s'.calls = s.calls.set i { call with stage := stage }) ∨
      s'.calls = s.calls.pop i ∧ call.stage ≠ .checked := by
  cases h with
  | log hstage => exact .inl ⟨.logged, by simp, rfl⟩
  | loop hstage hcommit => exact .inl ⟨.iterating _ 0, by simp, rfl⟩
  | clear hstage habort => exact .inl ⟨.applied, by simp, rfl⟩
  | raised hstage hused => exact .inr ⟨rfl, by simp [hstage]⟩
  | fetch hstage hused hitem => exact .inl ⟨.writing _ _ _, by simp, rfl⟩
  | exhausted hstage hused hitem => exact .inl ⟨.applied, by simp, rfl⟩
  | write hstage => exact .inl ⟨.iterating _ _, by simp, rfl⟩
  | mark hstage => exact .inl ⟨.marked, by simp, rfl⟩
  | finish order hstage => exact .inr ⟨rfl, by simp [hstage]⟩

theorem CallStep.logged_iff (h : CallStep s i call txn s')
    (hwal : s.manager.wal ≠ none) (t : TxnId) (o : Outcome) :
    s'.manager.Logged t o ↔ s.manager.Logged t o ∨
      call.stage = .checked ∧ call.txnId = t ∧ call.outcome = o := by
  cases h with
  | log hstage =>
      simpa [hstage] using TransactionManager.logged_record hwal t call.txnId o
        call.outcome
  | finish order hstage =>
      simpa [hstage] using TransactionManager.logged_iff_of_wal
        (TransactionManager.clearLocks_wal _ _ _ _) t o
  | loop hstage | clear hstage | raised hstage | fetch hstage
  | exhausted hstage | write hstage | mark hstage =>
      apply Iff.trans (b := s.manager.Logged t o)
      · exact TransactionManager.logged_iff_of_wal rfl t o
      · simp [hstage]

theorem CallStep.wal (h : CallStep s i call txn s')
    (hwal : s.manager.wal ≠ none) : s'.manager.wal ≠ none := by
  cases h with
  | log hstage => simpa [setStage, setManager] using hwal
  | finish order hstage =>
      change (s.manager.clearLocks _ _ _ _).wal ≠ none
      rw [TransactionManager.clearLocks_wal]
      exact hwal
  | loop | clear | raised | fetch | exhausted | write | mark => exact hwal

theorem CallStep.statusOf (h : CallStep s i call txn s')
    (hget : s.manager.transactions.get? call.txnId = some txn) (t : TxnId) :
    s'.manager.statusOf t =
      if call.stage = .applied ∧ call.txnId = t then some call.outcome.status
      else s.manager.statusOf t := by
  have hstatus : s.manager.statusOf call.txnId = some txn.status := by
    rw [TransactionManager.statusOf, hget, Option.map_some]
  cases h with
  | clear hstage habort =>
      simp only [setStage_manager, setManager_manager, hstage, reduceCtorEq,
        false_and, if_false, TransactionManager.statusOf_putTxn]
      split
      · next heq => rw [heq, hstatus]
      · rfl
  | mark hstage =>
      simp only [setStage_manager, setManager_manager, hstage, true_and,
        TransactionManager.statusOf_putTxn, eq_comm (a := t)]
  | finish order hstage =>
      obtain ⟨extra, htxn⟩ := TransactionManager.clearLocks_transactions
        call.txnId t txn order call.outcome (m := s.manager)
      simp only [leave_manager, setManager_manager, hstage, reduceCtorEq,
        false_and, if_false, TransactionManager.statusOf, htxn, Option.map_map,
        Function.comp_def]
  | log hstage | loop hstage | raised hstage | fetch hstage | exhausted hstage
  | write hstage =>
      simp only [hstage, reduceCtorEq, false_and, if_false]
      rfl

theorem CallStep.buffered (h : CallStep s i call txn s')
    (hget : s.manager.transactions.get? call.txnId = some txn) {t : TxnId}
    (ht : call.txnId = t → call.outcome = .commit) :
    s'.manager.buffered t = s.manager.buffered t := by
  cases h with
  | clear hstage habort =>
      have hne : t ≠ call.txnId := by
        rintro rfl
        rw [ht rfl] at habort
        cases habort
      rw [setStage_manager, setManager_manager,
        TransactionManager.buffered_putTxn, if_neg hne]
  | mark hstage =>
      rw [setStage_manager, setManager_manager,
        TransactionManager.buffered_putTxn]
      split
      · next heq => rw [heq, TransactionManager.buffered, hget]
      · rfl
  | finish order hstage =>
      obtain ⟨extra, htxn⟩ := TransactionManager.clearLocks_transactions
        call.txnId t txn order call.outcome (m := s.manager)
      simp only [leave_manager, setManager_manager, TransactionManager.buffered,
        htxn]
      cases s.manager.transactions.get? t <;> rfl
  | log | loop | raised | fetch | exhausted | write => rfl

theorem running_enter_iff {s : EndSystem} {i : ThreadId}
    (hidle : s.calls.get? i = none) (t u : TxnId) (o o' : Outcome) :
    Running { s with calls := s.calls.set i ⟨u, o', .checked⟩ } t o ↔
      s.Running t o ∨ u = t ∧ o' = o := by
  simp only [running_iff, Dict.get?_set]
  constructor
  · rintro ⟨j, x, hx, rfl, rfl⟩
    split at hx
    · cases hx
      exact .inr ⟨rfl, rfl⟩
    · exact .inl ⟨j, x, hx, rfl, rfl⟩
  · rintro (⟨j, x, hx, rfl, rfl⟩ | ⟨rfl, rfl⟩)
    · have hj : j ≠ i := by
        rintro rfl
        rw [hidle] at hx
        cases hx
      exact ⟨j, x, by rw [if_neg hj, hx], rfl, rfl⟩
    · exact ⟨i, _, by rw [if_pos rfl], rfl, rfl⟩

theorem CallStep.installed (h : CallStep s i call txn s') :
    s'.installed = s.installed ∨
      ∃ item, call.stage.inLoop = true ∧
        s'.installed = s.installed ++ [(call.txnId, item)] := by
  cases h with
  | @write used pos item hstage =>
      exact .inr ⟨item, by rw [hstage]; rfl, rfl⟩
  | log | loop | clear | raised | fetch | exhausted | mark | finish =>
      exact .inl rfl

theorem CallStep.others (h : CallStep s i call txn s') {j : ThreadId}
    (hj : j ≠ i) {x : EndCall} (hx : s'.calls.get? j = some x) :
    s.calls.get? j = some x := by
  obtain ⟨stage, -, hcalls⟩ | ⟨hcalls, -⟩ := h.calls
  · rw [hcalls, Dict.get?_set_ne _ _ hj] at hx
    exact hx
  · rw [hcalls, Dict.get?_pop, if_neg hj] at hx
    exact hx

private theorem CallStep.running_of (h : CallStep s i call txn s')
    (hcall : s.calls.get? i = some call) {t : TxnId} {o : Outcome}
    (hrunning : s'.Running t o) : s.Running t o := by
  obtain ⟨j, x, hx, rfl, rfl⟩ := running_iff.mp hrunning
  obtain ⟨stage, -, hcalls⟩ | ⟨hcalls, -⟩ := h.calls
  · rw [hcalls, Dict.get?_set] at hx
    split at hx
    · cases hx
      exact running_iff.mpr ⟨i, call, hcall, rfl, rfl⟩
    · exact running_iff.mpr ⟨j, x, hx, rfl, rfl⟩
  · rw [hcalls, Dict.get?_pop] at hx
    split at hx
    · cases hx
    · exact running_iff.mpr ⟨j, x, hx, rfl, rfl⟩

theorem CallStep.running (h : CallStep s i call txn s')
    (hcall : s.calls.get? i = some call) {t : TxnId} {o : Outcome}
    (hrunning : s.Running t o) :
    s'.Running t o ∨ s'.calls = s.calls.pop i ∧ call.stage ≠ .checked ∧
      call.txnId = t ∧ call.outcome = o := by
  obtain ⟨j, x, hx, rfl, rfl⟩ := running_iff.mp hrunning
  obtain ⟨stage, -, hcalls⟩ | ⟨hcalls, hstage⟩ := h.calls
  · left
    by_cases hj : j = i
    · subst hj
      rw [hcall] at hx
      cases hx
      exact running_iff.mpr ⟨j, { call with stage := stage },
        by rw [hcalls, Dict.get?_set_self], rfl, rfl⟩
    · exact running_iff.mpr
        ⟨j, x, by rw [hcalls, Dict.get?_set_ne _ _ hj, hx], rfl, rfl⟩
  · by_cases hj : j = i
    · subst hj
      rw [hcall] at hx
      cases hx
      exact .inr ⟨hcalls, hstage, rfl, rfl⟩
    · exact .inl (running_iff.mpr
        ⟨j, x, by rw [hcalls, Dict.get?_pop, if_neg hj, hx], rfl, rfl⟩)

end Effects

/-! ## Every run -/

/-- A call of `t` with the outcome `o` is running, or has left its record. -/
def Touched (s : EndSystem) (t : TxnId) (o : Outcome) : Prop :=
  s.manager.Logged t o ∨ s.Running t o

structure CallInv (m : TransactionManager) (call : EndCall) : Prop where
  logged : call.stage ≠ .checked → m.Logged call.txnId call.outcome
  commits : call.stage.inLoop = true → call.outcome = .commit
  marked : call.stage = .marked → m.statusOf call.txnId ≠ some .active

structure Inv (s : EndSystem) : Prop where
  wal : s.manager.wal ≠ none
  call : ∀ i call, s.calls.get? i = some call → CallInv s.manager call

section Runs

variable {s s' : EndSystem} {i : ThreadId} {call : EndCall} {txn : Transaction}
  {t : TxnId} {o : Outcome}

theorem inv_start {m : TransactionManager} (hwal : m.wal ≠ none) :
    (start m).Inv :=
  ⟨hwal, fun i call hcall => by simp [start] at hcall⟩

theorem CallStep.not_active (h : CallStep s i call txn s')
    (hget : s.manager.transactions.get? call.txnId = some txn)
    (hstatus : s.manager.statusOf t ≠ some .active) :
    s'.manager.statusOf t ≠ some .active := by
  rw [h.statusOf hget]
  split
  · cases call.outcome <;> decide
  · exact hstatus

theorem CallInv.step {x : EndCall} (hx : CallInv s.manager x)
    (h : CallStep s i call txn s') (hwal : s.manager.wal ≠ none)
    (hget : s.manager.transactions.get? call.txnId = some txn) :
    CallInv s'.manager x where
  logged hstage := (h.logged_iff hwal _ _).mpr (.inl (hx.logged hstage))
  commits := hx.commits
  marked hstage := h.not_active hget (hx.marked hstage)

theorem CallInv.advance (hbefore : CallInv s.manager call)
    (h : CallStep s i call txn s') (hwal : s.manager.wal ≠ none)
    (hget : s.manager.transactions.get? call.txnId = some txn) {x : EndCall}
    (hx : s'.calls.get? i = some x) : CallInv s'.manager x := by
  have hlogged : s'.manager.Logged call.txnId call.outcome := by
    rw [h.logged_iff hwal]
    by_cases hstage : call.stage = .checked
    · exact .inr ⟨hstage, rfl, rfl⟩
    · exact .inl (hbefore.logged hstage)
  have hstatus := h.statusOf hget call.txnId
  cases h with
  | loop hstage hcommit =>
      rw [setStage_calls, Dict.get?_set_self] at hx
      cases hx
      exact ⟨fun _ => hlogged, fun _ => hcommit, by simp⟩
  | fetch hstage hused hitem =>
      rw [setStage_calls, Dict.get?_set_self] at hx
      cases hx
      have hcommit := hbefore.commits (by rw [hstage]; rfl)
      exact ⟨fun _ => hlogged, fun _ => hcommit, by simp⟩
  | write hstage =>
      rw [EndSystem.write, setStage_calls, Dict.get?_set_self] at hx
      cases hx
      have hcommit := hbefore.commits (by rw [hstage]; rfl)
      exact ⟨fun _ => hlogged, fun _ => hcommit, by simp⟩
  | mark hstage =>
      rw [setStage_calls, Dict.get?_set_self] at hx
      cases hx
      refine ⟨fun _ => hlogged, by simp [EndStage.inLoop], fun _ => ?_⟩
      rw [hstatus, if_pos ⟨hstage, rfl⟩]
      cases call.outcome <;> decide
  | log | clear | exhausted =>
      rw [setStage_calls, Dict.get?_set_self] at hx
      cases hx
      exact ⟨fun _ => hlogged, by simp [EndStage.inLoop], by simp⟩
  | raised | finish =>
      rw [leave_calls, Dict.get?_pop, if_pos rfl] at hx
      cases hx

theorem Inv.proceed (hinv : s.Inv) (h : CallStep s i call txn s')
    (hcall : s.calls.get? i = some call)
    (hget : s.manager.transactions.get? call.txnId = some txn) : s'.Inv := by
  refine ⟨h.wal hinv.wal, ?_⟩
  intro j x hx
  by_cases hj : j = i
  · subst hj
    exact (hinv.call j call hcall).advance h hinv.wal hget hx
  · exact (hinv.call j x (h.others hj hx)).step h hinv.wal hget

theorem Inv.enter (hinv : s.Inv) (i : ThreadId) (t : TxnId) (o : Outcome) :
    ({ s with calls := s.calls.set i ⟨t, o, .checked⟩ } : EndSystem).Inv := by
  refine ⟨hinv.wal, fun j x hx => ?_⟩
  rw [Dict.get?_set] at hx
  split at hx
  · cases hx
    exact ⟨fun hstage => absurd rfl hstage, by simp [EndStage.inLoop], by simp⟩
  · exact hinv.call j x hx

theorem Inv.step {a : EndAction} (hinv : s.Inv) (hstep : s.step a = some s') :
    s'.Inv := by
  cases a with
  | enter i t o =>
      obtain ⟨rfl, -⟩ | ⟨-, -, rfl⟩ := enter_cases hstep
      · exact hinv
      · exact hinv.enter i t o
  | proceed i order =>
      obtain ⟨call, txn, hcall, hget, h⟩ := proceed_cases hstep
      exact hinv.proceed h hcall hget

def Replays (initial : Store) (s : EndSystem) : Prop :=
  s.manager.store = (s.installed.map Prod.snd).foldl installItem initial

theorem Replays.step {initial : Store} {a : EndAction} (h : s.Replays initial)
    (hstep : s.step a = some s') : s'.Replays initial := by
  cases a with
  | enter i t o =>
      obtain ⟨rfl, -⟩ | ⟨-, -, rfl⟩ := enter_cases hstep
      · exact h
      · exact h
  | proceed i order =>
      obtain ⟨call, txn, -, -, hcallStep⟩ := proceed_cases hstep
      cases hcallStep with
      | write hstage =>
          unfold Replays at h ⊢
          simp [EndSystem.write, h]
      | finish order hstage =>
          unfold Replays at h ⊢
          rw [leave_manager, setManager_manager, leave_installed,
            setManager_installed, TransactionManager.clearLocks_store]
          exact h
      | log | loop | clear | raised | fetch | exhausted | mark => exact h

theorem run_replays {m : TransactionManager} {actions : List EndAction}
    (hrun : run step (start m) actions = some s) : s.Replays m.store := by
  have hstart : (start m).Replays m.store := rfl
  exact run_preserves (fun s a s' h hs => h.step hs) hstart hrun

theorem CallStep.touched (h : CallStep s i call txn s') (hinv : s.Inv)
    (hcall : s.calls.get? i = some call) (htouched : s.Touched t o) :
    s'.Touched t o := by
  rcases htouched with hlogged | hrunning
  · exact .inl ((h.logged_iff hinv.wal t o).mpr (.inl hlogged))
  · obtain hrunning | ⟨-, hstage, rfl, rfl⟩ := h.running hcall hrunning
    · exact .inr hrunning
    · have hlogged := (hinv.call i call hcall).logged hstage
      exact .inl ((h.logged_iff hinv.wal _ _).mpr (.inl hlogged))

theorem Touched.step {a : EndAction} (hinv : s.Inv)
    (hstep : s.step a = some s') (htouched : s.Touched t o) :
    s'.Touched t o := by
  cases a with
  | enter i u o' =>
      obtain ⟨rfl, -⟩ | ⟨-, hidle, rfl⟩ := enter_cases hstep
      · exact htouched
      · exact htouched.imp id fun hrunning =>
          (running_enter_iff hidle t u o o').mpr (.inl hrunning)
  | proceed i order =>
      obtain ⟨call, txn, hcall, -, h⟩ := proceed_cases hstep
      exact h.touched hinv hcall htouched

private theorem CallStep.touched_of (h : CallStep s i call txn s')
    (hwal : s.manager.wal ≠ none) (hcall : s.calls.get? i = some call)
    (htouched : s'.Touched t o) : s.Touched t o := by
  rcases htouched with hlogged | hrunning
  · obtain hlogged | ⟨-, rfl, rfl⟩ := (h.logged_iff hwal t o).mp hlogged
    · exact .inl hlogged
    · exact .inr (running_iff.mpr ⟨i, call, hcall, rfl, rfl⟩)
  · exact .inr (h.running_of hcall hrunning)

/-! ## Runs in which no check is opposed -/

def Progress (writes : List (String × String)) (t : TxnId)
    (installed : List (TxnId × String × String)) : EndStage → Prop
  | .checked | .logged => True
  | .iterating used pos => used = writes.length ∧
      ∀ item ∈ writes.take pos, (t, item) ∈ installed
  | .writing used pos item => used = writes.length ∧
      writes[pos]? = some item ∧ ∀ item ∈ writes.take pos, (t, item) ∈ installed
  | .applied | .marked => ∀ item ∈ writes, (t, item) ∈ installed

structure OneSided (t : TxnId) (writes : List (String × String))
    (s : EndSystem) : Prop where
  single : ¬ (s.Touched t .commit ∧ s.Touched t .abort)
  ended : ∀ o, s.manager.Logged t o →
    s.manager.statusOf t ≠ some .active ∨ s.Running t o
  buffer : ¬ s.Touched t .abort → s.manager.buffered t = writes
  progress : ∀ i call, s.calls.get? i = some call → call.txnId = t →
    call.outcome = .commit → Progress writes t s.installed call.stage
  complete : s.manager.Logged t .commit →
    s.Running t .commit ∨ ∀ item ∈ writes, (t, item) ∈ s.installed
  clean : ∀ item, (t, item) ∈ s.installed → s.Touched t .commit

variable {writes : List (String × String)}

theorem Progress.mono {installed installed' : List (TxnId × String × String)}
    {stage : EndStage} (h : Progress writes t installed stage)
    (hsub : ∀ x ∈ installed, x ∈ installed') :
    Progress writes t installed' stage := by
  cases stage with
  | checked | logged => trivial
  | iterating used pos => exact ⟨h.1, fun item hitem => hsub _ (h.2 item hitem)⟩
  | writing used pos item =>
      exact ⟨h.1, h.2.1, fun item hitem => hsub _ (h.2.2 item hitem)⟩
  | applied | marked => exact fun item hitem => hsub _ (h item hitem)

private theorem oneSided_start {m : TransactionManager}
    (hnone : ∀ o, ¬ m.Logged t o) :
    OneSided t (m.buffered t) (start m) := by
  have hidle : (start m).Done t := done_of_calls rfl
  have huntouched : ∀ o, ¬ (start m).Touched t o := fun o htouched =>
    htouched.elim (hnone o) (hidle o)
  refine ⟨fun h => huntouched _ h.1, fun o h => absurd h (hnone o), fun _ => rfl,
    fun i call hcall => ?_, fun h => absurd h (hnone _), fun item hmem => ?_⟩
  · simp [start] at hcall
  · cases hmem

theorem OneSided.enter (h : OneSided t writes s) {i : ThreadId} {u : TxnId}
    {o : Outcome} (hactive : ∃ txn, s.manager.getActive u = some txn)
    (hidle : s.calls.get? i = none)
    (hok : s.unopposed t (.enter i u o) = true) :
    OneSided t writes { s with calls := s.calls.set i ⟨u, o, .checked⟩ } := by
  set s' : EndSystem := { s with calls := s.calls.set i ⟨u, o, .checked⟩ }
  have hrunning := fun o' => running_enter_iff hidle t u o' o
  have hkeeps : ∀ o', s.Running t o' → s'.Running t o' := fun o' hr =>
    (hrunning o').mpr (.inl hr)
  have htouched : ∀ o', s'.Touched t o' → s.Touched t o' ∨ u = t ∧ o = o' := by
    rintro o' (hlogged | hr)
    · exact .inl (.inl hlogged)
    · exact ((hrunning o').mp hr).imp .inr id
  have hsame : ∀ o', s.Touched t o' → s'.Touched t o' := fun o' ht =>
    ht.imp id (hkeeps o')
  have hother : u = t → ¬ s.Touched t o.other := by
    rintro rfl
    obtain ⟨txn, htxn⟩ := hactive
    have hnone : ¬ s.Running u o.other := by
      simpa [unopposed, htxn] using hok
    rintro (hlogged | hr)
    · obtain hstatus | hr := h.ended _ hlogged
      · exact hstatus (TransactionManager.statusOf_of_getActive htxn)
      · exact hnone hr
    · exact hnone hr
  refine ⟨?_, fun o' hlogged => (h.ended o' hlogged).imp id (hkeeps o'),
    fun hnone => h.buffer fun ht => hnone (hsame _ ht), ?_,
    fun hlogged => (h.complete hlogged).imp (hkeeps _) id,
    fun item hmem => hsame _ (h.clean item hmem)⟩
  · rintro ⟨hcommit, habort⟩
    obtain hbefore | ⟨rfl, rfl⟩ := htouched _ hcommit
    · obtain hbefore' | ⟨rfl, rfl⟩ := htouched _ habort
      · exact h.single ⟨hbefore, hbefore'⟩
      · exact hother rfl hbefore
    · obtain hbefore | ⟨-, hne⟩ := htouched _ habort
      · exact hother rfl hbefore
      · cases hne
  · intro j x hx hxt hxo
    rw [Dict.get?_set] at hx
    split at hx
    · cases hx
      trivial
    · exact h.progress j x hx hxt hxo

theorem OneSided.buffer_eq (h : OneSided t writes s)
    (hcall : s.calls.get? i = some call) (ht : call.txnId = t)
    (ho : call.outcome = .commit)
    (hget : s.manager.transactions.get? call.txnId = some txn) :
    txn.writeBuffer.items = writes := by
  have hcommit : s.Touched t .commit :=
    .inr (running_iff.mpr ⟨i, call, hcall, ht, ho⟩)
  have hbuffer := h.buffer fun habort => h.single ⟨hcommit, habort⟩
  rw [← ht, TransactionManager.buffered, hget] at hbuffer
  exact hbuffer

theorem OneSided.advance (h : OneSided t writes s)
    (hstep : CallStep s i call txn s') (hcall : s.calls.get? i = some call)
    (hget : s.manager.transactions.get? call.txnId = some txn)
    (ht : call.txnId = t) (ho : call.outcome = .commit) {x : EndCall}
    (hx : s'.calls.get? i = some x) :
    Progress writes t s'.installed x.stage := by
  have hbuffer := h.buffer_eq hcall ht ho hget
  have hprogress := h.progress i call hcall ht ho
  cases hstep with
  | log hstage =>
      rw [setStage_calls, Dict.get?_set_self] at hx
      cases hx
      trivial
  | loop hstage hcommit =>
      rw [setStage_calls, Dict.get?_set_self] at hx
      cases hx
      exact ⟨by rw [hbuffer], by simp⟩
  | clear hstage habort =>
      rw [ho] at habort
      cases habort
  | fetch hstage hused hitem =>
      rw [setStage_calls, Dict.get?_set_self] at hx
      cases hx
      rw [hstage] at hprogress
      rw [hbuffer] at hitem
      exact ⟨hprogress.1, hitem, hprogress.2⟩
  | exhausted hstage hused hitem =>
      rw [setStage_calls, Dict.get?_set_self] at hx
      cases hx
      rw [hstage] at hprogress
      rw [hbuffer, List.getElem?_eq_none_iff] at hitem
      have hall := hprogress.2
      rw [List.take_of_length_le hitem] at hall
      exact hall
  | @write used pos item hstage =>
      rw [EndSystem.write, setStage_calls, Dict.get?_set_self] at hx
      cases hx
      rw [hstage] at hprogress
      obtain ⟨hused, hitem, hall⟩ := hprogress
      refine ⟨hused, fun y hy => ?_⟩
      rw [List.take_add_one, hitem, List.mem_append] at hy
      rcases hy with hy | hy
      · exact List.mem_append_left _ (hall y hy)
      · obtain rfl : y = item := by simpa using hy
        change (t, y) ∈ s.installed ++ [(call.txnId, y)]
        simp [ht]
  | mark hstage =>
      rw [setStage_calls, Dict.get?_set_self] at hx
      cases hx
      rw [hstage] at hprogress
      exact hprogress
  | raised | finish =>
      rw [leave_calls, Dict.get?_pop, if_pos rfl] at hx
      cases hx

theorem OneSided.leaves (h : OneSided t writes s)
    (hstep : CallStep s i call txn s') (hcall : s.calls.get? i = some call)
    (hget : s.manager.transactions.get? call.txnId = some txn)
    (ht : call.txnId = t) (hinv : s.Inv) (hcalls : s'.calls = s.calls.pop i) :
    call.stage = .marked := by
  have hgone : s'.calls.get? i = none := by
    rw [hcalls, Dict.get?_pop, if_pos rfl]
  cases hstep with
  | finish order hstage => exact hstage
  | @raised used pos hstage hused =>
      have ho : call.outcome = .commit :=
        (hinv.call i call hcall).commits (by rw [hstage]; rfl)
      have hprogress := h.progress i call hcall ht ho
      rw [hstage] at hprogress
      rw [h.buffer_eq hcall ht ho hget] at hused
      exact absurd hprogress.1.symm hused
  | log | loop | clear | fetch | exhausted | write | mark =>
      simp [Dict.get?_set_self, EndSystem.write] at hgone

theorem OneSided.running (h : OneSided t writes s) (hinv : s.Inv)
    (hstep : CallStep s i call txn s') (hcall : s.calls.get? i = some call)
    (hget : s.manager.transactions.get? call.txnId = some txn)
    (hrunning : s.Running t o) :
    s'.Running t o ∨
      call.txnId = t ∧ call.outcome = o ∧ call.stage = .marked := by
  obtain hrunning | ⟨hcalls, -, ht, ho⟩ := hstep.running hcall hrunning
  · exact .inl hrunning
  · exact .inr ⟨ht, ho, h.leaves hstep hcall hget ht hinv hcalls⟩

theorem OneSided.proceed (h : OneSided t writes s) (hinv : s.Inv)
    (hstep : CallStep s i call txn s') (hcall : s.calls.get? i = some call)
    (hget : s.manager.transactions.get? call.txnId = some txn) :
    OneSided t writes s' := by
  have hbefore : ∀ o, s'.Touched t o → s.Touched t o := fun o =>
    hstep.touched_of hinv.wal hcall
  have hgrows : ∀ x ∈ s.installed, x ∈ s'.installed := by
    intro x hx
    obtain hsame | ⟨item, -, hwrite⟩ := hstep.installed
    · rw [hsame]
      exact hx
    · rw [hwrite]
      exact List.mem_append_left _ hx
  have hafter : ∀ o, s.Touched t o → s'.Touched t o := fun o =>
    hstep.touched hinv hcall
  refine ⟨fun hboth => h.single ⟨hbefore _ hboth.1, hbefore _ hboth.2⟩,
    ?ended, ?buffer, ?progress, ?complete, ?clean⟩
  case ended =>
    intro o hlogged
    obtain hlogged | ⟨hstage, ht, ho⟩ := (hstep.logged_iff hinv.wal t o).mp hlogged
    · obtain hstatus | hrunning := h.ended o hlogged
      · exact .inl (hstep.not_active hget hstatus)
      · obtain hrunning | ⟨rfl, -, hmarked⟩ :=
          h.running hinv hstep hcall hget hrunning
        · exact .inr hrunning
        · exact .inl (hstep.not_active hget
            ((hinv.call i call hcall).marked hmarked))
    · right
      obtain hrunning | ⟨-, hchecked, -⟩ := hstep.running hcall
        (running_iff.mpr ⟨i, call, hcall, ht, ho⟩)
      · exact hrunning
      · exact absurd hstage hchecked
  case buffer =>
    intro hnone
    have hnone' : ¬ s.Touched t .abort := fun habort => hnone (hafter _ habort)
    rw [hstep.buffered hget ?_]
    · exact h.buffer hnone'
    · intro ht
      cases ho : call.outcome with
      | commit => rfl
      | abort =>
          exact absurd (.inr (running_iff.mpr ⟨i, call, hcall, ht, ho⟩)) hnone'
  case progress =>
    intro j x hx hxt hxo
    by_cases hj : j = i
    · subst hj
      have ht : call.txnId = t ∧ call.outcome = .commit := by
        obtain ⟨stage, -, hcalls⟩ | ⟨hcalls, -⟩ := hstep.calls
        · rw [hcalls, Dict.get?_set_self] at hx
          cases hx
          exact ⟨hxt, hxo⟩
        · rw [hcalls, Dict.get?_pop, if_pos rfl] at hx
          cases hx
      exact h.advance hstep hcall hget ht.1 ht.2 hx
    · exact (h.progress j x (hstep.others hj hx) hxt hxo).mono hgrows
  case complete =>
    intro hlogged
    have hrunning : s.Running t .commit ∨
        ∀ item ∈ writes, (t, item) ∈ s.installed := by
      obtain hlogged | ⟨-, ht, ho⟩ := (hstep.logged_iff hinv.wal t _).mp hlogged
      · exact h.complete hlogged
      · exact .inl (running_iff.mpr ⟨i, call, hcall, ht, ho⟩)
    rcases hrunning with hrunning | hall
    · obtain hrunning | ⟨ht, ho, hmarked⟩ :=
        h.running hinv hstep hcall hget hrunning
      · exact .inl hrunning
      · have hprogress := h.progress i call hcall ht ho
        rw [hmarked] at hprogress
        exact .inr fun item hitem => hgrows _ (hprogress item hitem)
    · exact .inr fun item hitem => hgrows _ (hall item hitem)
  case clean =>
    intro item hmem
    obtain hsame | ⟨item', hloop, hwrite⟩ := hstep.installed
    · rw [hsame] at hmem
      exact hafter _ (h.clean item hmem)
    · rw [hwrite, List.mem_append, List.mem_singleton] at hmem
      rcases hmem with hmem | hmem
      · exact hafter _ (h.clean item hmem)
      · obtain ⟨rfl, rfl⟩ := Prod.mk.inj hmem
        have ho := (hinv.call i call hcall).commits hloop
        exact hafter _ (.inr (running_iff.mpr ⟨i, call, hcall, rfl, ho⟩))

theorem OneSided.step {a : EndAction} (h : OneSided t writes s) (hinv : s.Inv)
    (hok : s.unopposed t a = true) (hstep : s.step a = some s') :
    OneSided t writes s' := by
  cases a with
  | enter i u o =>
      obtain ⟨rfl, -⟩ | ⟨hactive, hidle, rfl⟩ := enter_cases hstep
      · exact h
      · exact h.enter hactive hidle hok
  | proceed i order =>
      obtain ⟨call, txn, hcall, hget, hcallStep⟩ := proceed_cases hstep
      exact h.proceed hinv hcallStep hcall hget

private theorem touched_of_opposed {a : EndAction} (hok : ¬ s.unopposed t a = true)
    (hstep : s.step a = some s') :
    s'.Touched t .commit ∧ s'.Touched t .abort := by
  cases a with
  | proceed i order => exact absurd rfl hok
  | enter i u o =>
      simp only [unopposed, Bool.or_eq_true, decide_eq_true_eq, not_or,
        not_not, ne_eq, Option.isNone_iff_eq_none] at hok
      obtain ⟨⟨rfl, hactive⟩, hother⟩ := hok
      obtain ⟨-, hnone⟩ | ⟨-, hidle, rfl⟩ := enter_cases hstep
      · exact absurd hnone hactive
      · have hrunning := fun o' => running_enter_iff hidle u u o' o
        have hself := (hrunning o).mpr (.inr ⟨rfl, rfl⟩)
        have hstill := (hrunning o.other).mpr (.inl hother)
        cases o with
        | commit => exact ⟨.inr hself, .inr hstill⟩
        | abort => exact ⟨.inr hstill, .inr hself⟩

theorem OneSided.endedOnce (h : OneSided t writes s) (hdone : s.Done t) :
    EndedOnce t writes s where
  once hboth := h.single ⟨.inl hboth.1, .inl hboth.2⟩
  complete hlogged := (h.complete hlogged).resolve_left (hdone _)
  none hlogged item hmem := h.single ⟨h.clean item hmem, .inl hlogged⟩

theorem run_oneSided {m : TransactionManager} {actions : List EndAction}
    (hwal : m.wal ≠ none) (hnone : ∀ o, ¬ m.Logged t o)
    (hok : Along step (fun s a => s.unopposed t a = true) (start m) actions)
    (hrun : run step (start m) actions = some s) :
    OneSided t (m.buffered t) s := by
  have hboth : s.Inv ∧ OneSided t (m.buffered t) s :=
    run_invariant (I := fun s => s.Inv ∧ OneSided t (m.buffered t) s)
      (fun s a s' h hok hs => ⟨h.1.step hs, h.2.step h.1 hok hs⟩)
      ⟨inv_start hwal, oneSided_start hnone⟩ hok hrun
  exact hboth.2

end Runs

theorem not_logged_of {m : TransactionManager} {t : TxnId}
    (hcommit : ¬ m.Logged t .commit) (habort : ¬ m.Logged t .abort)
    (o : Outcome) : ¬ m.Logged t o := by
  cases o with
  | commit => exact hcommit
  | abort => exact habort

/-- A transaction that has written two records. -/
def twoWrites : List TxnAction :=
  [.begin none, .call 0 "node_0_txn_1" (.write "f" "a" "1"), .advance 0,
    .advance 0, .call 0 "node_0_txn_1" (.write "f" "b" "2"), .advance 0]

/-- The calls, and then the steps of the commits and aborts. -/
def runFrom (calls : List TxnAction) (actions : List EndAction) :
    Option (TransactionManager × EndSystem) :=
  (run TransactionManager.step (.new 0 (some .new) fun _ => none) calls).bind
    fun m => (run step (start m) actions).map fun s => (m, s)

private theorem runFrom_eq_some {calls : List TxnAction} {actions : List EndAction}
    {m : TransactionManager} {s : EndSystem} :
    runFrom calls actions = some (m, s) ↔
      run TransactionManager.step (.new 0 (some .new) fun _ => none) calls =
        some m ∧ run step (start m) actions = some s := by
  simp only [runFrom, Option.bind_eq_some_iff, Option.map_eq_some_iff,
    Prod.mk.injEq]
  constructor
  · rintro ⟨m, hm, s, hs, rfl, rfl⟩
    exact ⟨hm, hs⟩
  · rintro ⟨hm, hs⟩
    exact ⟨m, hm, s, hs, rfl, rfl⟩

/-- A commit runs to the end; the check of the abort comes after the new status. -/
def commitFirst : List EndAction :=
  .enter 0 "node_0_txn_1" .commit :: List.replicate 8 (.proceed 0 ["f"]) ++
    [.enter 1 "node_0_txn_1" .abort, .proceed 0 ["f"]]

/-- The check of the abort passes in the middle of the loop of the commit, which
has installed one of the two records when the buffer is cleared. -/
def abortInLoop : List EndAction :=
  .enter 0 "node_0_txn_1" .commit :: List.replicate 4 (.proceed 0 ["f"]) ++
    .enter 1 "node_0_txn_1" .abort :: List.replicate 2 (.proceed 1 ["f"]) ++
    .proceed 0 ["f"] :: List.replicate 2 (.proceed 1 ["f"])

end EndSystem

end DistributedMemory.Storage
