import DistributedMemory.Library.Digraph
import DistributedMemory.Storage.LockManager
import Mathlib.Data.Finset.Union

/-!
# The search for a deadlock

The detector reads the wait-for graph from the lock manager and searches it in
depth, with one table of visited nodes for all roots.  The sets of the graph are
iterated in no particular order, so the search is about a `WaitGraph`, an edge
map together with one order for each of its sets.  The search recurses as deep
as the graph makes it: `limit` bounds that depth and the length of the walk back
along the parents, and `none` means that the bound was too small.
-/

namespace DistributedMemory.Storage

open DistributedMemory.Library Relation

/-- An edge map as `get_wait_edges` returns it, and the orders in which its sets
are iterated; a node without an entry has no neighbours. -/
structure WaitGraph where
  edges : Dict TxnId (Finset TxnId)
  neighbors : TxnId → List TxnId
  iterates : ∀ t, (neighbors t).Nodup ∧
    (neighbors t).toFinset = (edges.get? t).getD ∅

/-- What the search keeps: its tables `visited`, `rec_stack` and `parent`. -/
structure Search where
  visited : Finset TxnId
  recStack : Finset TxnId
  parent : Dict TxnId TxnId

/-- A returned cycle, and whether the walk along the parents broke off at a node
without one. -/
structure FoundCycle where
  cycle : List TxnId
  missingParent : Bool
  deriving DecidableEq, Repr

namespace DeadlockDetector

def walkParents (parent : Dict TxnId TxnId) (neighbor : TxnId) :
    Nat → TxnId → List TxnId → Option FoundCycle
  | 0, _, _ => none
  | limit + 1, cur, cycle =>
      if cur = neighbor then some ⟨cycle ++ [neighbor], false⟩
      else
        match parent.get? cur with
        | none => some ⟨cycle ++ [cur, neighbor], true⟩
        | some next => walkParents parent neighbor limit next (cycle ++ [cur])

/-- The loop of `dfs` over the neighbours of `node`; `visit` is the recursive
call. -/
def explore (visit : TxnId → Search → Option (Search × Option FoundCycle))
    (limit : Nat) (node : TxnId) :
    List TxnId → Search → Option (Search × Option FoundCycle)
  | [], s => some ({ s with recStack := s.recStack.erase node }, none)
  | neighbor :: rest, s =>
      if neighbor ∉ s.visited then
        match visit neighbor { s with parent := s.parent.set neighbor node } with
        | none => none
        | some (s', some found) => some (s', some found)
        | some (s', none) => explore visit limit node rest s'
      else if neighbor ∈ s.recStack then
        match walkParents s.parent neighbor limit node [neighbor] with
        | none => none
        | some found => some (s, some found)
      else explore visit limit node rest s

def dfs (g : WaitGraph) (limit : Nat) :
    Nat → TxnId → Search → Option (Search × Option FoundCycle)
  | 0, _, _ => none
  | fuel + 1, node, s =>
      explore (dfs g limit fuel) limit node (g.neighbors node)
        { s with
          visited := insert node s.visited
          recStack := insert node s.recStack }

def searchRoots (g : WaitGraph) (limit : Nat) :
    List TxnId → Search → Option (Option FoundCycle)
  | [], _ => some none
  | node :: rest, s =>
      if node ∉ s.visited then
        match dfs g limit limit node { s with parent := .empty } with
        | none => none
        | some (_, some found) => some (some found)
        | some (s', none) => searchRoots g limit rest s'
      else searchRoots g limit rest s

/-- `detect_cycle`; the inner `none` is the source's `None`. -/
def detectCycle (g : WaitGraph) (limit : Nat) : Option (Option FoundCycle) :=
  if g.edges.items = [] then some none
  else searchRoots g limit g.edges.keys ⟨∅, ∅, .empty⟩

end DeadlockDetector

namespace WaitGraph

variable (g : WaitGraph)

/-- `a` waits for `b`. -/
def Edge (a b : TxnId) : Prop := b ∈ g.neighbors a

/-- The keys of the edge map and everything in its sets. -/
def nodes : Finset TxnId :=
  g.edges.items.toFinset.biUnion fun item => insert item.1 item.2

variable {g}

theorem edge_iff {a b : TxnId} :
    g.Edge a b ↔ ∃ targets, g.edges.get? a = some targets ∧ b ∈ targets := by
  rw [Edge, ← List.mem_toFinset, (g.iterates a).2]
  cases g.edges.get? a with
  | none => simp
  | some targets => simp

private theorem mem_keys_of_edge {a b : TxnId} (h : g.Edge a b) :
    a ∈ g.edges.keys := by
  obtain ⟨targets, hget, -⟩ := edge_iff.mp h
  exact List.mem_map_of_mem (f := Prod.fst) (Dict.mem_items_iff.mpr hget)

theorem mem_nodes_of_mem_keys {a : TxnId} (h : a ∈ g.edges.keys) :
    a ∈ g.nodes := by
  obtain ⟨item, hitem, rfl⟩ := List.mem_map.mp h
  exact Finset.mem_biUnion.mpr
    ⟨item, List.mem_toFinset.mpr hitem, Finset.mem_insert_self _ _⟩

private theorem mem_nodes_of_edge {a b : TxnId} (h : g.Edge a b) : b ∈ g.nodes := by
  obtain ⟨targets, hget, hb⟩ := edge_iff.mp h
  refine Finset.mem_biUnion.mpr ⟨(a, targets), ?_, Finset.mem_insert_of_mem hb⟩
  exact List.mem_toFinset.mpr (Dict.mem_items_iff.mpr hget)

end WaitGraph

namespace DeadlockDetector

open WaitGraph Digraph

/-! ## Larger bounds -/

private theorem walkParents_mono {parent : Dict TxnId TxnId} {neighbor : TxnId}
    {limit limit' : Nat} (hle : limit ≤ limit') {cur : TxnId}
    {cycle : List TxnId} {found : FoundCycle}
    (h : walkParents parent neighbor limit cur cycle = some found) :
    walkParents parent neighbor limit' cur cycle = some found := by
  induction limit generalizing limit' cur cycle with
  | zero => cases h
  | succ limit ih =>
      obtain ⟨limit', rfl⟩ := Nat.exists_eq_succ_of_ne_zero (by omega : limit' ≠ 0)
      rw [walkParents] at h ⊢
      split at h
      · next heq => rwa [if_pos heq]
      · next hne =>
        rw [if_neg hne]
        cases hget : parent.get? cur with
        | none =>
            rw [hget] at h
            exact h
        | some next =>
            rw [hget] at h
            exact ih (by omega) h

private theorem explore_mono
    {visit visit' : TxnId → Search → Option (Search × Option FoundCycle)}
    (hvisit : ∀ node s out, visit node s = some out →
      visit' node s = some out) {limit limit' : Nat} (hle : limit ≤ limit')
    {node : TxnId} {neighbors : List TxnId} {s : Search}
    {out : Search × Option FoundCycle}
    (h : explore visit limit node neighbors s = some out) :
    explore visit' limit' node neighbors s = some out := by
  induction neighbors generalizing s with
  | nil => exact h
  | cons neighbor rest ih =>
      rw [explore] at h ⊢
      split at h
      · next hnew =>
        rw [if_pos hnew]
        cases hcall : visit neighbor
            { s with parent := s.parent.set neighbor node } with
        | none =>
            rw [hcall] at h
            cases h
        | some result =>
            rw [hcall] at h
            rw [hvisit _ _ _ hcall]
            obtain ⟨s', found⟩ := result
            cases found with
            | none => exact ih h
            | some found => exact h
      · next hold =>
        rw [if_neg hold]
        split at h
        · next hstack =>
          rw [if_pos hstack]
          cases hwalk : walkParents s.parent neighbor limit node [neighbor] with
          | none =>
              rw [hwalk] at h
              cases h
          | some found =>
              rw [hwalk] at h
              rw [walkParents_mono hle hwalk]
              exact h
        · next hdone =>
          rw [if_neg hdone]
          exact ih h

private theorem dfs_mono {g : WaitGraph} {limit limit' fuel fuel' : Nat}
    (hlimit : limit ≤ limit') (hfuel : fuel ≤ fuel') {node : TxnId}
    {s : Search} {out : Search × Option FoundCycle}
    (h : dfs g limit fuel node s = some out) :
    dfs g limit' fuel' node s = some out := by
  induction fuel generalizing fuel' node s out with
  | zero => cases h
  | succ fuel ih =>
      obtain ⟨fuel', rfl⟩ := Nat.exists_eq_succ_of_ne_zero (by omega : fuel' ≠ 0)
      exact explore_mono (fun _ _ _ hcall => ih (by omega) hcall) hlimit h

private theorem searchRoots_mono {g : WaitGraph} {limit limit' : Nat}
    (hle : limit ≤ limit') {roots : List TxnId} {s : Search}
    {out : Option FoundCycle}
    (h : searchRoots g limit roots s = some out) :
    searchRoots g limit' roots s = some out := by
  induction roots generalizing s with
  | nil => exact h
  | cons node rest ih =>
      rw [searchRoots] at h ⊢
      split at h
      · next hnew =>
        rw [if_pos hnew]
        cases hcall : dfs g limit limit node { s with parent := .empty } with
        | none =>
            rw [hcall] at h
            cases h
        | some result =>
            rw [hcall] at h
            rw [dfs_mono hle hle hcall]
            obtain ⟨s', found⟩ := result
            cases found with
            | none => exact ih h
            | some found => exact h
      · next hold =>
        rw [if_neg hold]
        exact ih h

theorem detectCycle_mono {g : WaitGraph} {limit limit' : Nat}
    (hle : limit ≤ limit') {out : Option FoundCycle}
    (h : detectCycle g limit = some out) :
    detectCycle g limit' = some out := by
  unfold detectCycle at h ⊢
  split at h
  · next hempty => rwa [if_pos hempty]
  · next hsome =>
    rw [if_neg hsome]
    exact searchRoots_mono hle h

/-! ## What the tables say -/

/-- The search from `root` has reached the nodes of `path`, the innermost first:
they are the recursion stack, each is the recorded parent of the one before, and
all other visited nodes are settled. -/
structure Searching (g : WaitGraph) (root : TxnId) (path : List TxnId)
    (s : Search) : Prop where
  stack : ∀ t, t ∈ s.recStack ↔ t ∈ path
  nodup : path.Nodup
  visited : ∀ t ∈ path, t ∈ s.visited
  known : ∀ t ∈ s.visited, t ∈ g.nodes
  linked : path.IsChain fun a b => s.parent.get? a = some b ∧ g.Edge b a
  reached : ∀ t ∈ path, ReflTransGen g.Edge root t
  settled : Settled g.Edge {t | t ∈ s.visited ∧ t ∉ path}

/-- The search from `root` is about to visit `node`, which `path` leads to. -/
structure Entering (g : WaitGraph) (root node : TxnId) (path : List TxnId)
    (s : Search) : Prop where
  searching : Searching g root path s
  fresh : node ∉ s.visited
  known : node ∈ g.nodes
  linked : ∀ above ∈ path.head?,
    s.parent.get? node = some above ∧ g.Edge above node
  reached : ReflTransGen g.Edge root node

/-- What the source promises about a list it returns: it starts and ends with
the same transaction, nothing else is repeated, each element is an edge target
of the next one, and the walk did not break off. -/
structure IsCycle (g : WaitGraph) (found : FoundCycle) : Prop where
  complete : found.missingParent = false
  closed : ∃ a inner, found.cycle = a :: (inner ++ [a]) ∧ (a :: inner).Nodup
  linked : found.cycle.IsChain fun a b => g.Edge b a

def Outcome (g : WaitGraph) (root node : TxnId) (path : List TxnId)
    (s s' : Search) : Option FoundCycle → Prop
  | none => Searching g root path s' ∧ s.visited ⊆ s'.visited ∧
      node ∈ s'.visited
  | some found => IsCycle g found ∧
      ∀ t ∈ found.cycle, ReflTransGen g.Edge root t

private theorem walkParents_spec {parent : Dict TxnId TxnId} {neighbor cur : TxnId}
    {inner cycle : List TxnId} {limit : Nat}
    (hcur : (inner ++ [neighbor]).head? = some cur) (hfresh : neighbor ∉ inner)
    (hlinked : (inner ++ [neighbor]).IsChain
      fun a b => parent.get? a = some b) (hlimit : inner.length < limit) :
    walkParents parent neighbor limit cur cycle =
      some ⟨cycle ++ inner ++ [neighbor], false⟩ := by
  induction inner generalizing cur cycle limit with
  | nil =>
      obtain ⟨limit, rfl⟩ := Nat.exists_eq_succ_of_ne_zero
        (by simp at hlimit; omega : limit ≠ 0)
      obtain rfl : neighbor = cur := by simpa using hcur
      simp [walkParents]
  | cons a rest ih =>
      obtain ⟨limit, rfl⟩ := Nat.exists_eq_succ_of_ne_zero
        (by simp at hlimit; omega : limit ≠ 0)
      obtain rfl : a = cur := by simpa using hcur
      have hne : a ≠ neighbor := fun heq => hfresh (by simp [heq])
      cases hrest : rest ++ [neighbor] with
      | nil => simp at hrest
      | cons b below =>
          rw [List.cons_append, hrest, List.isChain_cons_cons] at hlinked
          rw [walkParents, if_neg hne, hlinked.1]
          dsimp only
          rw [ih (by rw [hrest]; rfl) (fun h => hfresh (by simp [h]))
            (by rw [hrest]; exact hlinked.2) (by simpa using hlimit)]
          simp

section Visit

variable {g : WaitGraph} {root node : TxnId} {path : List TxnId} {s : Search}

theorem Searching.walk (h : Searching g root (node :: path) s)
    {neighbor : TxnId} (hedge : g.Edge node neighbor)
    (hmem : neighbor ∈ node :: path) {limit : Nat}
    (hlimit : g.nodes.card < limit) :
    ∃ found, walkParents s.parent neighbor limit node [neighbor] = some found ∧
      IsCycle g found ∧ ∀ t ∈ found.cycle, ReflTransGen g.Edge root t := by
  obtain ⟨inner, below, hpath⟩ := List.append_of_mem hmem
  have hsplit : node :: path = (inner ++ [neighbor]) ++ below := by
    rw [hpath, List.append_assoc]
    rfl
  have hnodup : (neighbor :: inner).Nodup := by
    have := h.nodup
    rw [hsplit] at this
    have hprefix := (List.nodup_append.mp this).1
    exact (List.perm_append_singleton neighbor inner).nodup_iff.mp hprefix
  have hlinked : (inner ++ [neighbor]).IsChain
      fun a b => s.parent.get? a = some b ∧ g.Edge b a := by
    have := h.linked
    rw [hsplit] at this
    exact this.left_of_append
  have hcur : (inner ++ [neighbor]).head? = some node := by
    cases inner with
    | nil => simpa using (congrArg List.head? hsplit).symm
    | cons a rest => simpa using (congrArg List.head? hsplit).symm
  have hlength : inner.length < limit := by
    have hsub : inner.toFinset ⊆ g.nodes := by
      intro t ht
      apply h.known t
      apply h.visited t
      rw [hsplit]
      simp [List.mem_toFinset.mp ht]
    have hcard := Finset.card_le_card hsub
    rw [List.toFinset_card_of_nodup (List.nodup_cons.mp hnodup).2] at hcard
    omega
  refine ⟨_, walkParents_spec hcur (List.nodup_cons.mp hnodup).1
    (hlinked.imp fun _ _ hab => hab.1) hlength, ⟨rfl, ⟨neighbor, inner, rfl,
    hnodup⟩, ?_⟩, fun t ht => ?_⟩
  · change (neighbor :: (inner ++ [neighbor])).IsChain _
    refine List.isChain_cons.mpr ⟨?_, hlinked.imp fun _ _ hab => hab.2⟩
    intro a ha
    rw [hcur] at ha
    cases ha
    exact hedge
  · apply h.reached t
    rw [hsplit]
    simp only [List.cons_append, List.nil_append, List.mem_cons,
      List.mem_append, List.not_mem_nil, or_false] at ht ⊢
    tauto

private theorem Entering.searching_node (h : Entering g root node path s) :
    Searching g root (node :: path)
      { s with
        visited := insert node s.visited
        recStack := insert node s.recStack } where
  stack t := by simp [h.searching.stack]
  nodup := List.nodup_cons.mpr
    ⟨fun hmem => h.fresh (h.searching.visited node hmem), h.searching.nodup⟩
  visited t ht := by
    rcases List.mem_cons.mp ht with rfl | ht
    · exact Finset.mem_insert_self _ _
    · exact Finset.mem_insert_of_mem (h.searching.visited t ht)
  known t ht := by
    rcases Finset.mem_insert.mp ht with rfl | ht
    · exact h.known
    · exact h.searching.known t ht
  linked := List.isChain_cons.mpr ⟨h.linked, h.searching.linked⟩
  reached t ht := by
    rcases List.mem_cons.mp ht with rfl | ht
    · exact h.reached
    · exact h.searching.reached t ht
  settled := by
    have hsame : {t | t ∈ insert node s.visited ∧ t ∉ node :: path} =
        {t | t ∈ s.visited ∧ t ∉ path} := by
      ext t
      simp only [Set.mem_ofPred_eq, Finset.mem_insert, List.mem_cons, not_or]
      constructor
      · tauto
      · rintro ⟨hvisited, hpath⟩
        have hne : t ≠ node := fun heq => h.fresh (heq ▸ hvisited)
        tauto
    rw [hsame]
    exact h.searching.settled

private theorem Searching.entering (h : Searching g root (node :: path) s)
    {neighbor : TxnId} (hedge : g.Edge node neighbor)
    (hfresh : neighbor ∉ s.visited) :
    Entering g root neighbor (node :: path)
      { s with parent := s.parent.set neighbor node } where
  searching :=
    { h with
      linked := by
        have hne (t : TxnId) (ht : t ∈ node :: path) : t ≠ neighbor :=
          fun heq => hfresh (heq ▸ h.visited t ht)
        refine List.IsChain.imp_of_mem_imp (fun a b ha _ hab => ?_) h.linked
        rw [Dict.get?_set_ne _ _ (hne a ha)]
        exact hab }
  fresh := hfresh
  known := mem_nodes_of_edge hedge
  linked above habove := by
    cases habove
    exact ⟨Dict.get?_set_self _ _ _, hedge⟩
  reached := (h.reached node (by simp)).tail hedge

theorem Searching.leave (h : Searching g root (node :: path) s)
    (hedges : ∀ b, g.Edge node b → b ∈ s.visited ∧ b ∉ node :: path) :
    Searching g root path { s with recStack := s.recStack.erase node } where
  stack t := by
    have hfresh : node ∉ path := (List.nodup_cons.mp h.nodup).1
    simp only [Finset.mem_erase, h.stack, List.mem_cons]
    constructor
    · tauto
    · intro ht
      have hne : t ≠ node := fun heq => hfresh (heq ▸ ht)
      exact ⟨hne, .inr ht⟩
  nodup := (List.nodup_cons.mp h.nodup).2
  visited t ht := h.visited t (List.mem_cons_of_mem _ ht)
  known := h.known
  linked := h.linked.tail
  reached t ht := h.reached t (List.mem_cons_of_mem _ ht)
  settled := by
    have hnew := h.settled.insert (by simp) hedges
    have hsame : {t | t ∈ s.visited ∧ t ∉ path} =
        insert node {t | t ∈ s.visited ∧ t ∉ node :: path} := by
      ext t
      have hvisited := h.visited node (by simp)
      have hfresh : node ∉ path := (List.nodup_cons.mp h.nodup).1
      simp only [Set.mem_ofPred_eq, Set.mem_insert_iff, List.mem_cons, not_or]
      by_cases heq : t = node
      · simp [heq, hvisited, hfresh]
      · simp [heq]
    exact hsame ▸ hnew

private theorem explore_spec {limit fuel : Nat} (hlimit : g.nodes.card < limit)
    (hvisit : ∀ {node path s}, Entering g root node path s →
      (g.nodes \ s.visited).card < fuel →
      ∃ s' found, dfs g limit fuel node s = some (s', found) ∧
        Outcome g root node path s s' found)
    {neighbors : List TxnId} (hsub : ∀ b ∈ neighbors, g.Edge node b)
    (h : Searching g root (node :: path) s)
    (hdone : ∀ b, g.Edge node b → b ∈ neighbors ∨
      (b ∈ s.visited ∧ b ∉ node :: path))
    (hfuel : (g.nodes \ s.visited).card < fuel) :
    ∃ s' found,
      explore (dfs g limit fuel) limit node neighbors s = some (s', found) ∧
        Outcome g root node path s s' found := by
  induction neighbors generalizing s with
  | nil =>
      refine ⟨_, none, rfl, h.leave fun b hedge => ?_, fun _ ht => ht, ?_⟩
      · exact (hdone b hedge).resolve_left List.not_mem_nil
      · exact h.visited node (by simp)
  | cons neighbor rest ih =>
      have hedge := hsub neighbor (by simp)
      have hrest : ∀ b ∈ rest, g.Edge node b :=
        fun b hb => hsub b (List.mem_cons_of_mem _ hb)
      rw [explore]
      by_cases hfresh : neighbor ∉ s.visited
      · rw [if_pos hfresh]
        obtain ⟨s', found, hcall, hout⟩ := hvisit (h.entering hedge hfresh) hfuel
        rw [hcall]
        cases found with
        | some found => exact ⟨s', some found, rfl, hout⟩
        | none =>
            obtain ⟨hsearching, hmono, hnew⟩ := hout
            have hdone' (b : TxnId) (hb : g.Edge node b) :
                b ∈ rest ∨ (b ∈ s'.visited ∧ b ∉ node :: path) := by
              rcases hdone b hb with hmem | ⟨hvisited, hpath⟩
              · rcases List.mem_cons.mp hmem with rfl | hmem
                · exact .inr ⟨hnew, fun hpath => hfresh (h.visited b hpath)⟩
                · exact .inl hmem
              · exact .inr ⟨hmono hvisited, hpath⟩
            have hfuel' : (g.nodes \ s'.visited).card < fuel :=
              lt_of_le_of_lt (Finset.card_le_card
                (Finset.sdiff_subset_sdiff (Finset.Subset.refl _) hmono)) hfuel
            obtain ⟨s'', found, hloop, hout⟩ :=
              ih hrest hsearching hdone' hfuel'
            refine ⟨s'', found, hloop, ?_⟩
            cases found with
            | some found => exact hout
            | none => exact ⟨hout.1, hmono.trans hout.2.1, hout.2.2⟩
      · rw [if_neg hfresh]
        by_cases hstack : neighbor ∈ s.recStack
        · rw [if_pos hstack]
          obtain ⟨found, hwalk, hcycle⟩ :=
            h.walk hedge ((h.stack neighbor).mp hstack) hlimit
          rw [hwalk]
          exact ⟨s, some found, rfl, hcycle⟩
        · rw [if_neg hstack]
          apply ih hrest h _ hfuel
          intro b hb
          rcases hdone b hb with hmem | hdone
          · rcases List.mem_cons.mp hmem with rfl | hmem
            · exact .inr ⟨not_not.mp hfresh,
                fun hpath => hstack ((h.stack b).mpr hpath)⟩
            · exact .inl hmem
          · exact .inr hdone

theorem dfs_spec {limit fuel : Nat} (hlimit : g.nodes.card < limit)
    (h : Entering g root node path s)
    (hfuel : (g.nodes \ s.visited).card < fuel) :
    ∃ s' found, dfs g limit fuel node s = some (s', found) ∧
      Outcome g root node path s s' found := by
  induction fuel generalizing node path s with
  | zero => omega
  | succ fuel ih =>
      have hsdiff : g.nodes \ insert node s.visited ⊂ g.nodes \ s.visited := by
        refine Finset.ssubset_iff_subset_ne.mpr ⟨?_, fun heq => ?_⟩
        · exact Finset.sdiff_subset_sdiff (Finset.Subset.refl _)
            (Finset.subset_insert _ _)
        · have hmem : node ∈ g.nodes \ s.visited :=
            Finset.mem_sdiff.mpr ⟨h.known, h.fresh⟩
          rw [← heq] at hmem
          exact (Finset.mem_sdiff.mp hmem).2 (Finset.mem_insert_self _ _)
      have hless := Finset.card_lt_card hsdiff
      obtain ⟨s', found, hloop, hout⟩ := explore_spec hlimit ih
        (fun b hb => hb) h.searching_node (fun b hb => .inl hb)
        (show (g.nodes \ insert node s.visited).card < fuel by omega)
      refine ⟨s', found, hloop, ?_⟩
      cases found with
      | some found => exact hout
      | none =>
          exact ⟨hout.1, (Finset.subset_insert _ _).trans hout.2.1, hout.2.2⟩

theorem Searching.next_root (h : Searching g root [] s) (node : TxnId)
    (hfresh : node ∉ s.visited) (hknown : node ∈ g.nodes) :
    Entering g node node [] { s with parent := .empty } where
  searching :=
    { h with
      linked := List.isChain_nil
      reached := fun t ht => absurd ht List.not_mem_nil }
  fresh := hfresh
  known := hknown
  linked above habove := by cases habove
  reached := .refl

/-- What the loop over the roots brings about from the visited nodes: they and
the roots are settled, or there is a cycle, which is reached from a root that
comes after settled ones. -/
def RootsOutcome (g : WaitGraph) (visited : Finset TxnId)
    (roots : List TxnId) : Option FoundCycle → Prop
  | none => ∃ settled : Finset TxnId, visited ⊆ settled ∧
      (∀ t ∈ roots, t ∈ settled) ∧ Settled g.Edge {t | t ∈ settled}
  | some found => IsCycle g found ∧
      ∃ before first after, roots = before ++ first :: after ∧
        (∀ t ∈ before, ¬ ReachesCycle g.Edge t) ∧
        ∀ t ∈ found.cycle, ReflTransGen g.Edge first t

theorem RootsOutcome.cons {s' : Search} {rest : List TxnId}
    {out : Option FoundCycle} (hmono : s.visited ⊆ s'.visited)
    (hnode : node ∈ s'.visited) (hquiet : ¬ ReachesCycle g.Edge node)
    (h : RootsOutcome g s'.visited rest out) :
    RootsOutcome g s.visited (node :: rest) out := by
  cases out with
  | none =>
      obtain ⟨settled, hsub, hall, hset⟩ := h
      refine ⟨settled, hmono.trans hsub, fun t ht => ?_, hset⟩
      rcases List.mem_cons.mp ht with rfl | ht
      · exact hsub hnode
      · exact hall t ht
  | some found =>
      obtain ⟨hcycle, before, first, after, rfl, hbefore, hreach⟩ := h
      refine ⟨hcycle, node :: before, first, after, rfl, fun t ht => ?_, hreach⟩
      rcases List.mem_cons.mp ht with rfl | ht
      · exact hquiet
      · exact hbefore t ht

private theorem searchRoots_spec {limit : Nat} (hlimit : g.nodes.card < limit)
    {roots : List TxnId} (hroots : ∀ t ∈ roots, t ∈ g.nodes)
    (h : Searching g root [] s) :
    ∃ out, searchRoots g limit roots s = some out ∧
      RootsOutcome g s.visited roots out := by
  induction roots generalizing root s with
  | nil =>
      refine ⟨none, rfl, s.visited, fun _ ht => ht, ?_, ?_⟩
      · exact fun t ht => absurd ht List.not_mem_nil
      · simpa using h.settled
  | cons node rest ih =>
      have hrest : ∀ t ∈ rest, t ∈ g.nodes :=
        fun t ht => hroots t (List.mem_cons_of_mem _ ht)
      have hsettled {root' : TxnId} {s' : Search}
          (h' : Searching g root' [] s') (hnode : node ∈ s'.visited) :
          ¬ ReachesCycle g.Edge node :=
        h'.settled.not_reachesCycle ⟨hnode, List.not_mem_nil⟩
      rw [searchRoots]
      by_cases hfresh : node ∉ s.visited
      · rw [if_pos hfresh]
        have hcard := Finset.card_le_card
          (Finset.sdiff_subset (s := g.nodes) (t := s.visited))
        obtain ⟨s', found, hcall, hout⟩ := dfs_spec hlimit
          (h.next_root node hfresh (hroots node (by simp)))
          (lt_of_le_of_lt hcard hlimit)
        rw [hcall]
        cases found with
        | none =>
            obtain ⟨hsearching, hmono, hnode⟩ := hout
            obtain ⟨out, hloop, hout⟩ := ih hrest hsearching
            exact ⟨out, hloop,
              hout.cons hmono hnode (hsettled hsearching hnode)⟩
        | some found =>
            refine ⟨some found, rfl, hout.1, [], node, rest, rfl, ?_, hout.2⟩
            exact fun t ht => absurd ht List.not_mem_nil
      · rw [if_neg hfresh]
        obtain ⟨out, hloop, hout⟩ := ih hrest h
        have hnode := not_not.mp hfresh
        exact ⟨out, hloop, hout.cons (Finset.Subset.refl _) hnode
          (hsettled h hnode)⟩

end Visit

theorem searching_start (g : WaitGraph) (root : TxnId) :
    Searching g root [] ⟨∅, ∅, .empty⟩ where
  stack t := by simp
  nodup := List.nodup_nil
  visited t ht := absurd ht List.not_mem_nil
  known t ht := absurd ht (Finset.notMem_empty t)
  linked := List.isChain_nil
  reached t ht := absurd ht List.not_mem_nil
  settled := by simpa using settled_empty

theorem detectCycle_outcome {g : WaitGraph} {limit : Nat}
    (hlimit : g.nodes.card < limit) :
    ∃ out, detectCycle g limit = some out ∧
      RootsOutcome g ∅ g.edges.keys out := by
  have hspec := searchRoots_spec hlimit (fun t ht => mem_nodes_of_mem_keys ht)
    (searching_start g default)
  unfold detectCycle
  split
  · next hempty =>
    obtain ⟨out, hout, hspec⟩ := hspec
    have hkeys : g.edges.keys = [] := by simp [Dict.keys, hempty]
    rw [hkeys, searchRoots] at hout
    obtain rfl := Option.some.inj hout
    exact ⟨none, rfl, hspec⟩
  · exact hspec

/--
For every edge map and every order in which its sets are iterated, the search
terminates: from one bound on, all bounds give the same result.  It is `None`
exactly when no transaction waits for itself along the edges.  Otherwise the
list starts and ends with the same transaction, repeats nothing else, each of
its elements is an edge target of the next, and the walk along the parents met
no missing one.
-/
theorem detectCycle_correct (g : WaitGraph) :
    ∃ result, (∀ limit, g.nodes.card < limit →
        detectCycle g limit = some result) ∧
      (result = none ↔ ∀ t, ¬ TransGen g.Edge t t) ∧
      ∀ found, result = some found →
        found.missingParent = false ∧
        (∃ a inner, found.cycle = a :: (inner ++ [a]) ∧ (a :: inner).Nodup) ∧
        found.cycle.IsChain fun a b => g.Edge b a := by
  obtain ⟨result, hresult, hout⟩ :=
    detectCycle_outcome (Nat.lt_succ_self g.nodes.card)
  refine ⟨result, fun limit hlimit => detectCycle_mono hlimit hresult, ?_, ?_⟩
  · cases result with
    | none =>
        refine iff_of_true rfl fun t hcycle => ?_
        obtain ⟨settled, -, hroots, hsettled⟩ := hout
        obtain ⟨b, hedge, -⟩ := TransGen.head'_iff.mp hcycle
        exact hsettled.acyclic t (hroots t (mem_keys_of_edge hedge)) hcycle
    | some found =>
        obtain ⟨hcycle, -⟩ := hout
        obtain ⟨a, inner, hsplit, -⟩ := hcycle.closed
        have hlinked := hcycle.linked
        rw [hsplit] at hlinked
        exact iff_of_false (by simp)
          fun hnone => hnone a (transGen_of_isChain hlinked)
  · rintro found rfl
    exact ⟨hout.1.complete, hout.1.closed, hout.1.linked⟩

end DeadlockDetector

end DistributedMemory.Storage
