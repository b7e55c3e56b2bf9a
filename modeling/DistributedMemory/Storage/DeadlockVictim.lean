import DistributedMemory.Library.Numeral
import DistributedMemory.Storage.Deadlock
import DistributedMemory.Storage.LockSafety
import Mathlib.Data.List.MinMax

/-!
# The victims of the deadlock detector

A transaction that holds a resource and waits for a stronger lock on it has an
edge to itself in the wait-for graph, because the edges of a waiter go to all
holders.  The search takes such an edge for a deadlock when it comes upon it, so
whether a returned cycle is a real one depends on whether a transaction of this
kind can be reached before any other cycle is found.
-/

namespace DistributedMemory.Storage

open DistributedMemory.Library Digraph Relation DeadlockDetector Text

namespace LockManager

/-- One waiter of `get_wait_edges`. -/
def addWaiter (holders : Finset TxnId) (edges : Dict TxnId (Finset TxnId))
    (request : TxnId × LockType) : Dict TxnId (Finset TxnId) :=
  edges.set request.1 ((edges.get? request.1).getD ∅ ∪ holders)

/-- `get_wait_edges` -/
def getWaitEdges (lm : LockManager) : Dict TxnId (Finset TxnId) :=
  lm.locks.items.foldl
    (fun edges item =>
      if item.2.holders = ∅ ∨ item.2.waitQueue = [] then edges
      else item.2.waitQueue.foldl (addWaiter item.2.holders) edges)
    .empty

def Waits (lm : LockManager) (t u : TxnId) : Prop :=
  ∃ r, (lm.entry r).Queues t ∧ u ∈ (lm.entry r).holders

def IsWaiting (lm : LockManager) (t : TxnId) : Prop :=
  ∃ r, (lm.entry r).Queues t

end LockManager

namespace DeadlockDetector

/-- `_txn_sort_key`: the last of the parts between underscores that are numbers, or 0.
`none` where `int` raises: not all digits are decimals.  Digits have no sign. -/
def txnSortKey (txnId : TxnId) : Option Nat :=
  let parts := (txnId.toList.splitOn '_').filter isDigit
  if parts.any fun p => parseInt p = none then none
  else some ((parts.getLast?.bind parseInt).getD 0).toNat

/-- `select_victim`; `none` where the source raises `ValueError`, on an empty list or
where a key raises. -/
def selectVictim (cycle : List TxnId) : Option TxnId :=
  let candidates := cycle.filter fun txn =>
    some txn ≠ cycle.head? ∨ cycle.count txn > 1
  let unique := candidates.eraseDups
  let unique := if unique = [] then cycle.eraseDups else unique
  if unique.any fun txn => txnSortKey txn = none then none
  else unique.argmax fun txn => (txnSortKey txn).getD 0

theorem mem_of_selectVictim {cycle : List TxnId} {victim : TxnId}
    (h : selectVictim cycle = some victim) : victim ∈ cycle := by
  obtain ⟨-, hmax⟩ := Option.ite_none_left_eq_some.mp h
  have hmem := List.argmax_mem (Option.mem_def.mpr hmax)
  split at hmem
  · exact List.mem_eraseDups.mp hmem
  · exact List.mem_of_mem_filter (List.mem_eraseDups.mp hmem)

end DeadlockDetector

namespace LockManager

/-! ## The edges -/

private theorem mem_addWaiter {holders : Finset TxnId}
    {edges : Dict TxnId (Finset TxnId)} {request : TxnId × LockType}
    {a b : TxnId} :
    b ∈ ((addWaiter holders edges request).get? a).getD ∅ ↔
      b ∈ (edges.get? a).getD ∅ ∨ (request.1 = a ∧ b ∈ holders) := by
  rw [addWaiter, Dict.get?_set]
  by_cases h : a = request.1
  · subst h
    simp
  · simp [h, Ne.symm h]

private theorem mem_foldl_addWaiter {holders : Finset TxnId}
    {queue : List (TxnId × LockType)} {edges : Dict TxnId (Finset TxnId)}
    {a b : TxnId} :
    b ∈ ((queue.foldl (addWaiter holders) edges).get? a).getD ∅ ↔
      b ∈ (edges.get? a).getD ∅ ∨ ((∃ lt, (a, lt) ∈ queue) ∧ b ∈ holders) := by
  induction queue generalizing edges with
  | nil => simp
  | cons request rest ih =>
      rw [List.foldl_cons, ih, mem_addWaiter, or_assoc]
      refine or_congr_right ?_
      obtain ⟨t, lt⟩ := request
      simp only [List.mem_cons, Prod.mk.injEq]
      constructor
      · rintro (⟨rfl, hb⟩ | ⟨⟨lt', hmem⟩, hb⟩)
        · exact ⟨⟨lt, .inl ⟨rfl, rfl⟩⟩, hb⟩
        · exact ⟨⟨lt', .inr hmem⟩, hb⟩
      · rintro ⟨⟨lt', ⟨rfl, -⟩ | hmem⟩, hb⟩
        · exact .inl ⟨rfl, hb⟩
        · exact .inr ⟨⟨lt', hmem⟩, hb⟩

private theorem mem_foldl_entries {items : List (Resource × LockEntry)}
    {edges : Dict TxnId (Finset TxnId)} {a b : TxnId} :
    b ∈ ((items.foldl
        (fun edges item =>
          if item.2.holders = ∅ ∨ item.2.waitQueue = [] then edges
          else item.2.waitQueue.foldl (addWaiter item.2.holders) edges)
        edges).get? a).getD ∅ ↔
      b ∈ (edges.get? a).getD ∅ ∨
        ∃ item ∈ items, item.2.Queues a ∧ b ∈ item.2.holders := by
  induction items generalizing edges with
  | nil => simp
  | cons item rest ih =>
      have hitem : b ∈ ((if item.2.holders = ∅ ∨ item.2.waitQueue = []
            then edges
            else item.2.waitQueue.foldl (addWaiter item.2.holders) edges).get?
              a).getD ∅ ↔
          b ∈ (edges.get? a).getD ∅ ∨
            (item.2.Queues a ∧ b ∈ item.2.holders) := by
        split
        · next hskip =>
          refine iff_self_or.mpr ?_
          rintro ⟨⟨lt, hmem⟩, hb⟩
          rcases hskip with hempty | hempty
          · simp [hempty] at hb
          · simp [hempty] at hmem
        · exact mem_foldl_addWaiter
      rw [List.foldl_cons, ih, hitem, or_assoc]
      simp

theorem mem_getWaitEdges {lm : LockManager} {a b : TxnId} :
    b ∈ (lm.getWaitEdges.get? a).getD ∅ ↔ lm.Waits a b := by
  rw [getWaitEdges, mem_foldl_entries]
  simp only [Dict.get?_empty, Option.getD_none, Finset.notMem_empty, false_or]
  constructor
  · rintro ⟨⟨r, e⟩, hmem, hqueues, hb⟩
    have hentry := entry_of_get? (Dict.mem_items_iff.mp hmem)
    exact ⟨r, hentry ▸ hqueues, hentry ▸ hb⟩
  · rintro ⟨r, hqueues, hb⟩
    cases hget : lm.locks.get? r with
    | none =>
        rw [entry_of_get?_none hget] at hb
        simp [LockEntry.new] at hb
    | some e =>
        rw [entry_of_get? hget] at hqueues hb
        exact ⟨(r, e), Dict.mem_items_iff.mpr hget, hqueues, hb⟩

theorem edge_eq_waits {lm : LockManager} {g : WaitGraph}
    (hedges : g.edges = lm.getWaitEdges) : g.Edge = lm.Waits := by
  ext a b
  rw [WaitGraph.Edge, ← List.mem_toFinset, (g.iterates a).2, hedges,
    mem_getWaitEdges]

/-! ## Real deadlocks -/

/-- In whatever order the sets are iterated, a returned cycle has two different
transactions at least, each of which waits for another one of the cycle; and a
transaction that waits only for others that are not waiting is neither in it nor
its victim. -/
def RealDeadlocks (lm : LockManager) : Prop :=
  ∀ g : WaitGraph, g.edges = lm.getWaitEdges → ∀ limit found,
    detectCycle g limit = some (some found) →
      (∃ t ∈ found.cycle, ∃ u ∈ found.cycle, t ≠ u) ∧
      (∀ t ∈ found.cycle, ∃ u ∈ found.cycle, u ≠ t ∧ lm.Waits t u) ∧
      ∀ t, (∀ u, u ≠ t → lm.Waits t u → ¬ lm.IsWaiting u) →
        t ∉ found.cycle ∧ selectVictim found.cycle ≠ some t

/-- No transaction that waits for itself can be reached from the first waiting
one, in the order of the edge map, from which a cycle can be reached. -/
def SelfWaitsHidden (lm : LockManager) : Prop :=
  ∀ before first after, lm.getWaitEdges.keys = before ++ first :: after →
    (∀ t ∈ before, ¬ ReachesCycle lm.Waits t) →
    ∀ t, ReflTransGen lm.Waits first t → ¬ lm.Waits t t

private theorem realDeadlocks_of_hidden {lm : LockManager}
    (hhidden : lm.SelfWaitsHidden) : lm.RealDeadlocks := by
  intro g hedges limit found hfound
  have hedge := edge_eq_waits hedges
  have hlarge := detectCycle_mono
    (Nat.le_max_left limit (g.nodes.card + 1)) hfound
  obtain ⟨out, hout, hspec⟩ := detectCycle_outcome
    (show g.nodes.card < max limit (g.nodes.card + 1) by omega)
  obtain rfl : out = some found := by simpa [hlarge] using hout.symm
  obtain ⟨hcycle, before, first, after, hkeys, hbefore, hreach⟩ := hspec
  obtain ⟨a, inner, hsplit, hnodup⟩ := hcycle.closed
  have hlinked := hcycle.linked
  rw [hedge] at hlinked hreach hbefore
  rw [hedges] at hkeys
  rw [hsplit] at hlinked hreach ⊢
  have hinner : inner ≠ [] := by
    rintro rfl
    have hself : lm.Waits a a := by simpa using hlinked
    exact hhidden before first after hkeys hbefore a (hreach a (by simp)) hself
  have hothers : ∀ t ∈ a :: (inner ++ [a]),
      ∃ u ∈ a :: (inner ++ [a]), u ≠ t ∧ lm.Waits t u :=
    fun t ht => exists_other_of_isChain hinner hnodup hlinked ht
  refine ⟨?_, hothers, fun t honly => ?_⟩
  · obtain ⟨u, hu, hne, -⟩ := hothers a (by simp)
    exact ⟨a, by simp, u, hu, hne.symm⟩
  · have hnot : t ∉ a :: (inner ++ [a]) := by
      intro ht
      obtain ⟨u, hu, hne, hwaits⟩ := hothers t ht
      obtain ⟨v, -, -, r, hqueues, -⟩ := hothers u hu
      exact honly u hne hwaits ⟨r, hqueues⟩
    exact ⟨hnot, fun hvictim => hnot (mem_of_selectVictim hvictim)⟩

end LockManager

/-! ## An order that finds a self-wait -/

namespace WaitGraph

section Pursuit

variable (edges : Dict TxnId (Finset TxnId)) (Edge : TxnId → TxnId → Prop)

/-- `b` is the next node on a shortest way from `a` to a node with an edge to
itself. -/
def Leads (a b : TxnId) : Prop :=
  b ∈ (edges.get? a).getD ∅ ∧
    (∃ t ∈ {t | Edge t t}, ReflTransGen Edge b t) ∧
    (Edge a a → b = a) ∧
    (¬ Edge a a →
      distance Edge {t | Edge t t} b < distance Edge {t | Edge t t} a)

open Classical in
noncomputable def pursuit (a : TxnId) : List TxnId :=
  if h : ∃ b, Leads edges Edge a b then
    h.choose :: (((edges.get? a).getD ∅).erase h.choose).toList
  else ((edges.get? a).getD ∅).toList

noncomputable def pursuing : WaitGraph where
  edges := edges
  neighbors := pursuit edges Edge
  iterates a := by
    unfold pursuit
    split
    · next h =>
      have hmem := h.choose_spec.1
      constructor
      · exact List.nodup_cons.mpr ⟨by simp, Finset.nodup_toList _⟩
      · rw [List.toFinset_cons, Finset.toList_toFinset, Finset.insert_erase hmem]
    · exact ⟨Finset.nodup_toList _, Finset.toList_toFinset _⟩

end Pursuit

end WaitGraph

namespace LockManager

variable {lm : LockManager}

def selfWaits (lm : LockManager) : Set TxnId := {t | lm.Waits t t}

noncomputable def pursuing (lm : LockManager) : WaitGraph :=
  .pursuing lm.getWaitEdges lm.Waits

theorem pursuing_edge : lm.pursuing.Edge = lm.Waits := edge_eq_waits rfl

private theorem pursuing_neighbors {a : TxnId}
    (h : ∃ t ∈ lm.selfWaits, ReflTransGen lm.Waits a t) :
    ∃ b rest, lm.pursuing.neighbors a = b :: rest ∧
      WaitGraph.Leads lm.getWaitEdges lm.Waits a b := by
  have hnext : ∃ b, WaitGraph.Leads lm.getWaitEdges lm.Waits a b := by
    by_cases hself : lm.Waits a a
    · exact ⟨a, mem_getWaitEdges.mpr hself, ⟨a, hself, .refl⟩, fun _ => rfl,
        fun hnot => absurd hself hnot⟩
    · obtain ⟨b, hedge, hreach, hnear⟩ :=
        (mem_or_exists_nearer h).resolve_left hself
      exact ⟨b, mem_getWaitEdges.mpr hedge, hreach,
        fun hyes => absurd hyes hself, fun _ => hnear⟩
  exact ⟨hnext.choose, _, dif_pos hnext, hnext.choose_spec⟩

private theorem dfs_pursuing {node : TxnId} {s : Search} {limit fuel : Nat}
    (h : ∃ t ∈ lm.selfWaits, ReflTransGen lm.Waits node t)
    (hfar : ∀ u ∈ s.visited, (∃ t ∈ lm.selfWaits, ReflTransGen lm.Waits u t) →
      distance lm.Waits lm.selfWaits node < distance lm.Waits lm.selfWaits u)
    (hfuel : distance lm.Waits lm.selfWaits node < fuel) (hlimit : 0 < limit) :
    ∃ s' t, dfs lm.pursuing limit fuel node s =
      some (s', some ⟨[t, t], false⟩) := by
  induction fuel generalizing node s with
  | zero => omega
  | succ fuel ih =>
      obtain ⟨b, rest, hneighbors, -, hreach, hself, hnear⟩ :=
        pursuing_neighbors h
      rw [dfs, hneighbors, explore]
      by_cases hnode : lm.Waits node node
      · obtain rfl := hself hnode
        obtain ⟨limit, rfl⟩ := Nat.exists_eq_succ_of_ne_zero
          (by omega : limit ≠ 0)
        rw [if_neg (by simp), if_pos (by simp), walkParents, if_pos rfl]
        exact ⟨_, b, rfl⟩
      · have hless := hnear hnode
        have hfresh : b ∉ insert node s.visited := by
          intro hmem
          rcases Finset.mem_insert.mp hmem with rfl | hmem
          · exact lt_irrefl _ hless
          · exact lt_asymm hless (hfar b hmem hreach)
        rw [if_pos hfresh]
        obtain ⟨s', t, hcall⟩ := ih hreach (s := {
            visited := insert node s.visited
            recStack := insert node s.recStack
            parent := s.parent.set b node }) (fun u hu hu' => by
          rcases Finset.mem_insert.mp hu with rfl | hu
          · exact hless
          · exact lt_trans hless (hfar u hu hu')) (lt_of_lt_of_le hless
              (Nat.le_of_lt_succ hfuel))
        rw [hcall]
        exact ⟨s', t, rfl⟩

private theorem searchRoots_pursuing {before : List TxnId} {first root : TxnId}
    (after : List TxnId) {s : Search} {limit : Nat}
    (hlimit : lm.pursuing.nodes.card < limit)
    (hfuel : distance lm.Waits lm.selfWaits first < limit)
    (hknown : ∀ t ∈ before, t ∈ lm.pursuing.nodes)
    (hbefore : ∀ t ∈ before, ¬ ReachesCycle lm.Waits t)
    (hfirst : ∃ t ∈ lm.selfWaits, ReflTransGen lm.Waits first t)
    (h : Searching lm.pursuing root [] s) :
    ∃ t, searchRoots lm.pursuing limit (before ++ first :: after) s =
      some (some ⟨[t, t], false⟩) := by
  have hquiet {root' : TxnId} {s' : Search}
      (h' : Searching lm.pursuing root' [] s') {u : TxnId}
      (hu : u ∈ s'.visited) :
      ¬ ∃ t ∈ lm.selfWaits, ReflTransGen lm.Waits u t := by
    rintro ⟨t, ht, hreach⟩
    apply h'.settled.not_reachesCycle ⟨hu, List.not_mem_nil⟩
    rw [pursuing_edge]
    exact ⟨t, hreach, .single ht⟩
  induction before generalizing root s with
  | nil =>
      have hfresh : first ∉ s.visited := fun hmem => hquiet h hmem hfirst
      rw [List.nil_append, searchRoots, if_pos hfresh]
      obtain ⟨s', t, hcall⟩ := dfs_pursuing (s := { s with parent := .empty })
        hfirst (fun u hu hu' => absurd hu' (hquiet h hu)) hfuel
        (Nat.lt_of_le_of_lt (Nat.zero_le _) hlimit)
      rw [hcall]
      exact ⟨t, rfl⟩
  | cons node rest ih =>
      have hknown' : ∀ t ∈ rest, t ∈ lm.pursuing.nodes :=
        fun t ht => hknown t (List.mem_cons_of_mem _ ht)
      have hbefore' : ∀ t ∈ rest, ¬ ReachesCycle lm.Waits t :=
        fun t ht => hbefore t (List.mem_cons_of_mem _ ht)
      rw [List.cons_append, searchRoots]
      by_cases hfresh : node ∉ s.visited
      · rw [if_pos hfresh]
        have hcard := Finset.card_le_card
          (Finset.sdiff_subset (s := lm.pursuing.nodes) (t := s.visited))
        obtain ⟨s', found, hcall, hout⟩ := dfs_spec hlimit
          (h.next_root node hfresh (hknown node (by simp)))
          (lt_of_le_of_lt hcard hlimit)
        rw [hcall]
        cases found with
        | none => exact ih hknown' hbefore' hout.1
        | some found =>
            obtain ⟨hcycle, hreach⟩ := hout
            obtain ⟨a, inner, hsplit, -⟩ := hcycle.closed
            have hlinked := hcycle.linked
            rw [hsplit] at hlinked
            have ha := hreach a (by simp [hsplit])
            have hwalk := transGen_of_isChain hlinked
            rw [pursuing_edge] at ha hwalk
            exact absurd ⟨a, ha, hwalk⟩ (hbefore node (by simp))
      · rw [if_neg hfresh]
        exact ih hknown' hbefore' h

private theorem hidden_of_realDeadlocks (hreal : lm.RealDeadlocks) :
    lm.SelfWaitsHidden := by
  intro before first after hkeys hbefore t hreach hself
  have hknown : ∀ t ∈ before, t ∈ lm.pursuing.nodes := by
    intro u hu
    apply WaitGraph.mem_nodes_of_mem_keys
    change u ∈ lm.getWaitEdges.keys
    rw [hkeys]
    exact List.mem_append_left _ hu
  obtain ⟨limit, hlimit, hfuel⟩ : ∃ limit, lm.pursuing.nodes.card < limit ∧
      distance lm.Waits lm.selfWaits first < limit :=
    ⟨max (lm.pursuing.nodes.card + 1)
      (distance lm.Waits lm.selfWaits first + 1), by omega, by omega⟩
  obtain ⟨u, hroots⟩ := searchRoots_pursuing after hlimit hfuel hknown hbefore
    ⟨t, hself, hreach⟩ (searching_start lm.pursuing default)
  rw [← hkeys] at hroots
  have hitems : lm.getWaitEdges.items ≠ [] := by
    intro hempty
    simp [Dict.keys, hempty] at hkeys
  have hfound : detectCycle lm.pursuing limit =
      some (some ⟨[u, u], false⟩) := (if_neg hitems).trans hroots
  obtain ⟨⟨x, hx, y, hy, hne⟩, -⟩ := hreal lm.pursuing rfl _ _ hfound
  simp only [List.mem_cons, List.not_mem_nil, or_false, or_self] at hx hy
  exact hne (hx.trans hy.symm)

theorem realDeadlocks_iff (lm : LockManager) :
    lm.RealDeadlocks ↔ lm.SelfWaitsHidden :=
  ⟨hidden_of_realDeadlocks, realDeadlocks_of_hidden⟩

/--
Over every sequence of lock manager calls the detector returns real deadlocks
only, and no victim that waits only for transactions that are not waiting,
exactly when in every table no transaction that waits for itself can be reached
from the first waiting transaction that reaches a cycle; and so for each table
on its own.
-/
theorem run_realDeadlocks_iff (calls : List LockCall) :
    (Always step RealDeadlocks new calls ↔
        Always step SelfWaitsHidden new calls) ∧
      ∀ lm : LockManager, lm.RealDeadlocks ↔ lm.SelfWaitsHidden := by
  have hsame : RealDeadlocks = SelfWaitsHidden :=
    funext fun lm => propext lm.realDeadlocks_iff
  constructor
  · rw [hsame]
  · exact realDeadlocks_iff

/-! ## A reader that waits to write -/

/-- Two readers share a resource, and one of them asks for the exclusive lock. -/
def waitingUpgrade : List LockCall :=
  [.acquire "a" "x" .shared, .acquire "b" "x" .shared,
    .acquire "b" "x" .exclusive]

/-- Its wait-for graph: the reader waits for the other one and for itself. -/
def waitingUpgradeGraph : WaitGraph where
  edges := ⟨[("b", {"a", "b"})], by decide⟩
  neighbors t := if t = "b" then ["a", "b"] else []
  iterates t := by
    by_cases h : t = "b"
    · subst h
      decide
    · simp [h, Dict.get?, Ne.symm h]

/-- The detector returns the reader alone and makes it the victim, although it
waits only for a transaction that waits for nothing. -/
theorem waitingUpgrade_victim :
    ∃ lm, run step new waitingUpgrade = some lm ∧
      waitingUpgradeGraph.edges = lm.getWaitEdges ∧
      detectCycle waitingUpgradeGraph 3 = some (some ⟨["b", "b"], false⟩) ∧
      selectVictim ["b", "b"] = some "b" ∧ ¬ lm.RealDeadlocks := by
  have hview : (run step new waitingUpgrade).map (fun lm =>
      decide ([("b", {"a", "b"})] = lm.getWaitEdges.items)) = some true := by
    decide +kernel
  obtain ⟨lm, hrun, hitems⟩ := Option.map_eq_some_iff.mp hview
  have hedges : waitingUpgradeGraph.edges = lm.getWaitEdges :=
    Dict.eq_of_items (of_decide_eq_true hitems)
  have hfound : detectCycle waitingUpgradeGraph 3 =
      some (some ⟨["b", "b"], false⟩) := by
    decide +kernel
  have hvictim : selectVictim ["b", "b"] = some "b" := by
    decide +kernel
  refine ⟨lm, hrun, hedges, hfound, hvictim, fun hreal => ?_⟩
  obtain ⟨⟨t, ht, u, hu, hne⟩, -⟩ := hreal waitingUpgradeGraph hedges 3 _ hfound
  simp only [List.mem_cons, List.not_mem_nil, or_false, or_self] at ht hu
  exact hne (ht.trans hu.symm)

end LockManager

end DistributedMemory.Storage
