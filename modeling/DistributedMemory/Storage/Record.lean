import Mathlib.Data.List.TakeWhile
import Mathlib.Logic.Function.Basic

/-!
# Records and their composite keys

The record files of a node are taken as one map from a resource and a key to a
value.  Transactions and the log name a record by the string
`resource ++ ":" ++ key`; it is taken apart again at its first colon, which
recovers the pair exactly when the resource contains no colon.
-/

namespace DistributedMemory.Storage

abbrev Resource := String

abbrev RecordKey := Resource × String

abbrev Store := RecordKey → Option String

def readRecord (store : Store) (resource key : String) : Option String :=
  store (resource, key)

def writeRecord (store : Store) (resource key value : String) : Store :=
  Function.update store (resource, key) (some value)

def deleteRecord (store : Store) (resource key : String) : Store :=
  Function.update store (resource, key) none

def bufKey (resource key : String) : String := resource ++ ":" ++ key

/-- `buf_key.split(":", 1)` on a string that contains a colon. -/
def splitKey (buffered : String) : RecordKey :=
  (String.ofList (buffered.toList.takeWhile (· ≠ ':')),
    String.ofList ((buffered.toList.dropWhile (· ≠ ':')).drop 1))

/-- A resource name that `splitKey` gives back. -/
def ColonFree (resource : Resource) : Prop := ':' ∉ resource.toList

instance (resource : Resource) : Decidable (ColonFree resource) :=
  inferInstanceAs (Decidable (¬ _))

theorem splitKey_bufKey {resource : Resource} (h : ColonFree resource)
    (key : String) : splitKey (bufKey resource key) = (resource, key) := by
  have hall : ∀ c ∈ resource.toList, (decide (c ≠ ':')) = true := by
    intro c hc
    have hne : c ≠ ':' := by
      rintro rfl
      exact h hc
    simpa using hne
  have hlist : (bufKey resource key).toList =
      resource.toList ++ ':' :: key.toList := by
    simp [bufKey, String.toList_append]
  have htake : (bufKey resource key).toList.takeWhile (· ≠ ':') =
      resource.toList := by
    rw [hlist, List.takeWhile_append_of_pos hall]
    simp
  have hdrop : (bufKey resource key).toList.dropWhile (· ≠ ':') =
      ':' :: key.toList := by
    rw [hlist, List.dropWhile_append_of_pos hall]
    simp
  simp only [splitKey, htake, hdrop, List.drop_succ_cons, List.drop_zero,
    String.ofList_toList]

theorem contains_colon_bufKey (resource key : String) :
    ':' ∈ (bufKey resource key).toList := by
  simp [bufKey, String.toList_append]

theorem colonFree_splitKey (named : String) : ColonFree (splitKey named).1 := by
  intro hmem
  simp only [splitKey, String.toList_ofList] at hmem
  simpa using List.mem_takeWhile_imp hmem

theorem bufKey_splitKey {named : String} (h : ':' ∈ named.toList) :
    bufKey (splitKey named).1 (splitKey named).2 = named := by
  have hdrop : named.toList.dropWhile (· ≠ ':') =
      ':' :: (named.toList.dropWhile (· ≠ ':')).drop 1 := by
    have hne : named.toList.dropWhile (· ≠ ':') ≠ [] := by
      intro hnil
      have := List.dropWhile_eq_nil_iff.mp hnil ':' h
      simp at this
    obtain ⟨c, rest, hcons⟩ := List.exists_cons_of_ne_nil hne
    have hhead := List.head?_dropWhile_not (fun x : Char => x ≠ ':') named.toList
    rw [hcons] at hhead ⊢
    have hc : c = ':' := by simpa using hhead
    rw [hc]
    rfl
  rw [← String.toList_inj]
  simp only [bufKey, splitKey, String.toList_append, String.toList_ofList]
  have hcolon : ":".toList = [':'] := rfl
  rw [hcolon, List.append_assoc, List.singleton_append, ← hdrop,
    List.takeWhile_append_dropWhile]

theorem bufKey_injective {r r' : Resource} (h : ColonFree r)
    (h' : ColonFree r') {k k' : String} (heq : bufKey r k = bufKey r' k') :
    (r, k) = (r', k') := by
  rw [← splitKey_bufKey h k, heq, splitKey_bufKey h' k']

end DistributedMemory.Storage
