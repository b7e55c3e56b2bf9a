import Mathlib.Data.List.Basic

/-!
# Records in the lines of a file

A list of lines of which some are records, and a line that should be one may fail
to parse.  Lines are replaced and dropped by a test on the line; where the test
agrees with the key of the record in the line, the list of the records changes as a
list of records with keys does.
-/

namespace DistributedMemory.Library.KeyedLines

universe u v w

section Collect

variable {α : Type u} {β : Type v} (parse : α → Option (Option β))

/-- The records in these lines.  `parse` gives no record for a line that is not one,
and fails on a line whose record it cannot read. -/
def collect : List α → Option (List β)
  | [] => some []
  | line :: rest =>
      match parse line with
      | none => none
      | some record? => (collect rest).map (record?.toList ++ ·)

@[simp] theorem collect_nil : collect parse [] = some [] := rfl

variable {parse}

theorem collect_cons {line : α} {rest : List α} {record? : Option β}
    (h : parse line = some record?) :
    collect parse (line :: rest) =
      (collect parse rest).map (record?.toList ++ ·) := by
  rw [collect, h]

theorem collect_cons_eq_some {line : α} {rest : List α} {records : List β}
    (h : collect parse (line :: rest) = some records) :
    ∃ record? later, parse line = some record? ∧ collect parse rest = some later ∧
      records = record?.toList ++ later := by
  cases hline : parse line with
  | none => simp [collect, hline] at h
  | some record? =>
      rw [collect_cons hline] at h
      obtain ⟨later, hlater, heq⟩ := Option.map_eq_some_iff.mp h
      exact ⟨record?, later, rfl, hlater, heq.symm⟩

theorem collect_append {first rest : List α} {earlier : List β}
    (h : collect parse first = some earlier) :
    collect parse (first ++ rest) = (collect parse rest).map (earlier ++ ·) := by
  induction first generalizing earlier with
  | nil =>
      obtain rfl := Option.some.inj h
      simp
  | cons line first ih =>
      obtain ⟨record?, later, hline, hfirst, rfl⟩ := collect_cons_eq_some h
      rw [List.cons_append, collect_cons hline, ih hfirst, Option.map_map]
      simp only [Function.comp_def, List.append_assoc]

theorem collect_map {γ : Type w} {line : γ → α} {record : γ → β} {items : List γ}
    (h : ∀ item ∈ items, parse (line item) = some (some (record item))) :
    collect parse (items.map line) = some (items.map record) := by
  induction items with
  | nil => rfl
  | cons item items ih =>
      obtain ⟨hitem, hitems⟩ := List.forall_mem_cons.mp h
      rw [List.map_cons, collect_cons hitem, ih hitems]
      rfl

theorem exists_line_of_mem {lines : List α} {records : List β}
    (h : collect parse lines = some records) {record : β} (hmem : record ∈ records) :
    ∃ line ∈ lines, parse line = some (some record) := by
  induction lines generalizing records with
  | nil =>
      obtain rfl := Option.some.inj h
      cases hmem
  | cons line lines ih =>
      obtain ⟨record?, later, hline, hlater, rfl⟩ := collect_cons_eq_some h
      rcases List.mem_append.mp hmem with hhere | hthere
      · rw [Option.mem_toList] at hhere
        exact ⟨line, List.mem_cons_self, by rw [hline, hhere]⟩
      · obtain ⟨line', hmem', hparse⟩ := ih hlater hthere
        exact ⟨line', List.mem_cons_of_mem line hmem', hparse⟩

/-- A change of every line for itself, which its record goes along with. -/
theorem collect_filterMap {f : α → Option α} {g : β → Option β} {lines : List α}
    {records : List β} (hchange : ∀ line record?, parse line = some record? →
      collect parse (f line).toList = some (record?.bind g).toList)
    (h : collect parse lines = some records) :
    collect parse (lines.filterMap f) = some (records.filterMap g) := by
  induction lines generalizing records with
  | nil =>
      obtain rfl := Option.some.inj h
      rfl
  | cons line lines ih =>
      obtain ⟨record?, later, hline, hlater, rfl⟩ := collect_cons_eq_some h
      have hlines : (line :: lines).filterMap f =
          (f line).toList ++ lines.filterMap f := by
        cases hf : f line <;> simp [hf]
      have hrecords : record?.toList.filterMap g = (record?.bind g).toList := by
        cases record? with
        | none => rfl
        | some record => cases hg : g record <;> simp [hg]
      rw [hlines, collect_append (hchange line record? hline), ih hlater,
        Option.map_some, List.filterMap_append, hrecords]

/-! ## A test on the line and a test on its record -/

section Test

variable {selected : α → Bool} {chosen : β → Bool} {lines : List α} {records : List β}
  (hagree : ∀ line record?, parse line = some record? →
    selected line = record?.any chosen)
  (h : collect parse lines = some records)

include hagree h

theorem any_collect : lines.any selected = records.any chosen := by
  induction lines generalizing records with
  | nil =>
      obtain rfl := Option.some.inj h
      rfl
  | cons line lines ih =>
      obtain ⟨record?, later, hline, hlater, rfl⟩ := collect_cons_eq_some h
      rw [List.any_cons, ih hlater, hagree line record? hline, List.any_append]
      cases record? <;> simp

theorem collect_replace {line' : α} {record' : β}
    (hline' : parse line' = some (some record')) :
    collect parse (lines.map fun line => if selected line then line' else line) =
      some (records.map fun record => if chosen record then record' else record) := by
  rw [← List.filterMap_eq_map, ← List.filterMap_eq_map]
  refine collect_filterMap (fun line record? hline => ?_) h
  have htest := hagree line record? hline
  cases record? with
  | none =>
      have hkept : selected line = false := htest
      simp [hkept, collect_cons hline]
  | some record =>
      rw [Option.any_some] at htest
      cases hchosen : chosen record with
      | true => simp [htest, hchosen, collect_cons hline']
      | false => simp [htest, hchosen, collect_cons hline]

theorem collect_filter :
    collect parse (lines.filter fun line => !selected line) =
      some (records.filter fun record => !chosen record) := by
  rw [← List.filterMap_eq_filter, ← List.filterMap_eq_filter]
  refine collect_filterMap (fun line record? hline => ?_) h
  have htest := hagree line record? hline
  cases record? with
  | none =>
      have hkept : selected line = false := htest
      simp [hkept, Option.guard, collect_cons hline]
  | some record =>
      rw [Option.any_some] at htest
      cases hchosen : chosen record with
      | true => simp [htest, hchosen, Option.guard]
      | false => simp [htest, hchosen, Option.guard, collect_cons hline]

end Test

theorem replace_eq_self {selected : α → Bool} {lines : List α}
    (h : lines.any selected = false) (line' : α) :
    (lines.map fun line => if selected line then line' else line) = lines := by
  rw [List.any_eq_false] at h
  conv_rhs => rw [← List.map_id lines]
  apply List.map_congr_left
  intro line hline
  rw [if_neg (h line hline), id]

/-! ## The other lines -/

variable {other selected : α → Bool}
  (hother : ∀ line, selected line → other line = false)

include hother

theorem filter_replace {line' : α} (hline' : other line' = false) (lines : List α) :
    (lines.map fun line => if selected line then line' else line).filter other =
      lines.filter other := by
  induction lines with
  | nil => rfl
  | cons line lines ih =>
      rw [List.map_cons, List.filter_cons, List.filter_cons, ih]
      cases hselected : selected line with
      | true => simp [hline', hother line hselected]
      | false => simp

theorem filter_filter (lines : List α) :
    (lines.filter fun line => !selected line).filter other = lines.filter other := by
  rw [List.filter_filter]
  congr 1
  funext line
  cases hselected : selected line with
  | true => simp [hother line hselected]
  | false => simp

end Collect

/-! ## Records with keys -/

section Keyed

variable {β : Type u} {κ : Type v} [DecidableEq κ] (key : β → κ)

/-- Every record of the key becomes this one; where there is none it goes to the
end. -/
def put (records : List β) (record : β) : List β :=
  if records.any fun r => key r = key record then
    records.map fun r => if key r = key record then record else r
  else records ++ [record]

def erase (records : List β) (k : κ) : List β := records.filter fun r => key r ≠ k

def lookup (records : List β) (k : κ) : Option β := records.find? fun r => key r = k

variable {key}

private theorem lookup_eq_none {records : List β} {k : κ} :
    lookup key records k = none ↔ records.any (fun r => key r = k) = false := by
  simp [lookup]

theorem erase_eq_self {records : List β} {k : κ}
    (h : records.any (fun r => key r = k) = false) : erase key records k = records := by
  rw [List.any_eq_false] at h
  rw [erase, List.filter_eq_self]
  intro r hr
  simpa using h r hr

private theorem lookup_replace {records : List β} {record : β} {k : κ}
    (h : key record ≠ k) :
    lookup key (records.map fun r => if key r = key record then record else r) k =
      lookup key records k := by
  induction records with
  | nil => rfl
  | cons r records ih =>
      simp only [lookup, List.map_cons, List.find?_cons] at ih ⊢
      by_cases hr : key r = key record
      · simp only [hr, if_true, h, decide_false, ih]
      · simp only [hr, if_false, ih]

private theorem lookup_replace_self {records : List β} {record : β}
    (h : records.any fun r => key r = key record) :
    lookup key (records.map fun r => if key r = key record then record else r)
      (key record) = some record := by
  induction records with
  | nil => cases h
  | cons r records ih =>
      simp only [lookup, List.map_cons, List.find?_cons] at ih ⊢
      by_cases hr : key r = key record
      · simp [hr]
      · simp only [List.any_cons, hr, decide_false, Bool.false_or] at h
        simp only [hr, if_false, decide_false, ih h]

theorem lookup_put (records : List β) (record : β) (k : κ) :
    lookup key (put key records record) k =
      if key record = k then some record else lookup key records k := by
  rw [put]
  split
  · next hany =>
    split
    · next heq =>
      subst heq
      exact lookup_replace_self hany
    · next hne => exact lookup_replace hne
  · next hany =>
    rw [Bool.not_eq_true] at hany
    rw [lookup, List.find?_append, ← lookup]
    split
    · next heq =>
      subst heq
      rw [lookup_eq_none.mpr hany]
      simp
    · next hne => simp [hne]

theorem lookup_erase (records : List β) (k k' : κ) :
    lookup key (erase key records k) k' =
      if k = k' then none else lookup key records k' := by
  rw [lookup, erase, List.find?_filter]
  split
  · next heq =>
    subst heq
    simp
  · next hne =>
    rw [lookup]
    congr 1
    funext r
    by_cases hr : key r = k'
    · simp [hr, Ne.symm hne]
    · simp [hr]

end Keyed

end DistributedMemory.Library.KeyedLines
