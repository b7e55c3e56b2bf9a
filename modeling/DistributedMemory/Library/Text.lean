import Mathlib.Data.List.DropRight
import Mathlib.Data.List.TakeWhile

/-!
# Lines and fields of a text

The string methods of Python by which a text file is read: the lines of a text
under universal newlines, a line without the white space at its ends, and its
fields, cut at a separator a bounded number of times.  Each comes with the law
that takes apart again what was put together, and with what is true of all that
it returns.
-/

namespace DistributedMemory.Library.Text

def isSpace (c : Char) : Bool :=
  let n := c.toNat
  (9 ≤ n && n ≤ 13) || (28 ≤ n && n ≤ 32) || n = 0x85 || n = 0xA0 || n = 0x1680 ||
    (0x2000 ≤ n && n ≤ 0x200A) || n = 0x2028 || n = 0x2029 || n = 0x202F ||
    n = 0x205F || n = 0x3000

/-- `str.strip()` -/
def strip (s : List Char) : List Char :=
  (s.dropWhile isSpace).rdropWhile isSpace

def Unbroken (s : List Char) : Prop := ∀ c ∈ s, c ≠ '\n' ∧ c ≠ '\r'

instance (s : List Char) : Decidable (Unbroken s) := List.decidableBAll _ s

def universalNewlines : List Char → List Char
  | [] => []
  | '\r' :: '\n' :: rest => '\n' :: universalNewlines rest
  | '\r' :: rest => '\n' :: universalNewlines rest
  | c :: rest => c :: universalNewlines rest

/-- The lines of a text, each with its `\n`; the last one may lack it. -/
def splitLines : List Char → List (List Char)
  | [] => []
  | c :: rest =>
      if c = '\n' then [c] :: splitLines rest
      else
        match splitLines rest with
        | [] => [[c]]
        | line :: lines => (c :: line) :: lines

def lines (s : List Char) : List (List Char) := splitLines (universalNewlines s)

/-- What is before the first `sep`, and what is behind it. -/
def cut (sep : Char) : List Char → Option (List Char × List Char)
  | [] => none
  | c :: rest =>
      if c = sep then some ([], rest)
      else (cut sep rest).map fun parts => (c :: parts.1, parts.2)

/-- `s.split(sep, limit)` -/
def split (sep : Char) : Nat → List Char → List (List Char)
  | 0, s => [s]
  | limit + 1, s =>
      match cut sep s with
      | none => [s]
      | some (field, rest) => field :: split sep limit rest

/-! ## White space at the ends -/

theorem strip_eq_self {s : List Char} (hhead : ∀ c ∈ s.head?, isSpace c = false)
    (hlast : ∀ c ∈ s.getLast?, isSpace c = false) : strip s = s := by
  have hdrop : s.dropWhile isSpace = s := by
    cases s with
    | nil => rfl
    | cons c rest => rw [List.dropWhile_cons_of_neg (by simp [hhead c rfl])]
  rw [strip, hdrop, List.rdropWhile_eq_self_iff]
  intro hne
  simp [hlast _ (List.getLast?_eq_some_getLast hne)]

theorem strip_append_newline (s : List Char) : strip (s ++ ['\n']) = strip s := by
  have hnewline : isSpace '\n' = true := by decide
  rw [strip, strip, List.dropWhile_append]
  split
  · next hempty =>
    rw [List.isEmpty_iff.mp hempty, List.dropWhile_cons_of_pos hnewline]
    rfl
  · exact List.rdropWhile_concat_pos _ _ '\n' hnewline

private theorem getLast?_strip (s : List Char) :
    ∀ c ∈ (strip s).getLast?, isSpace c = false := by
  intro c hc
  have hne : strip s ≠ [] := by
    rintro hnil
    rw [hnil] at hc
    cases hc
  have hlast := List.rdropWhile_last_not isSpace (s.dropWhile isSpace) hne
  rw [List.getLast?_eq_some_getLast hne] at hc
  obtain rfl := Option.some.inj hc
  rw [Bool.not_eq_true] at hlast
  exact hlast

private theorem infix_of_strip (s : List Char) : strip s <:+: s :=
  (List.rdropWhile_prefix isSpace _).isInfix.trans
    (List.dropWhile_suffix isSpace).isInfix

theorem head?_strip (s : List Char) : ∀ c ∈ (strip s).head?, isSpace c = false := by
  intro c hc
  obtain ⟨rest, hrest⟩ := List.rdropWhile_prefix isSpace (s.dropWhile isSpace)
  have hdrop := List.head?_dropWhile_not isSpace s
  have hhead : (s.dropWhile isSpace).head? = some c := by
    rw [← hrest, List.head?_append_of_ne_nil]
    · exact hc
    · rintro hnil
      rw [strip, hnil] at hc
      cases hc
  rw [hhead] at hdrop
  exact hdrop

private theorem strip_strip (s : List Char) : strip (strip s) = strip s :=
  strip_eq_self (head?_strip s) (getLast?_strip s)

theorem Unbroken.subset {s t : List Char} (h : Unbroken t) (hsub : s ⊆ t) :
    Unbroken s :=
  fun c hc => h c (hsub hc)

theorem Unbroken.append {s t : List Char} (hs : Unbroken s) (ht : Unbroken t) :
    Unbroken (s ++ t) :=
  List.forall_mem_append.mpr ⟨hs, ht⟩

theorem Unbroken.strip {s : List Char} (h : Unbroken s) : Unbroken (strip s) :=
  h.subset (infix_of_strip s).subset

theorem count_dropWhile {p : Char → Bool} {c : Char} (hc : p c = false)
    (s : List Char) : (s.dropWhile p).count c = s.count c := by
  have htake : (s.takeWhile p).count c = 0 := by
    rw [List.count_eq_zero]
    intro hmem
    have hp := List.mem_takeWhile_imp hmem
    rw [hc] at hp
    cases hp
  conv_rhs => rw [← List.takeWhile_append_dropWhile (p := p) (l := s)]
  rw [List.count_append, htake, Nat.zero_add]

theorem count_strip {c : Char} (hc : isSpace c = false) (s : List Char) :
    (strip s).count c = s.count c := by
  rw [strip, List.rdropWhile, List.count_reverse, count_dropWhile hc,
    List.count_reverse, count_dropWhile hc]

/-! ## Lines -/

theorem universalNewlines_append {s : List Char} (h : Unbroken s)
    (rest : List Char) : universalNewlines (s ++ rest) =
      s ++ universalNewlines rest := by
  induction s with
  | nil => rfl
  | cons c s ih =>
      obtain ⟨⟨-, hreturn⟩, hs⟩ := List.forall_mem_cons.mp h
      rw [List.cons_append, universalNewlines, ih hs]
      · rfl
      · exact fun _ heq _ => hreturn heq
      · exact fun heq => hreturn heq

private theorem splitLines_append {s : List Char} (h : Unbroken s) (rest : List Char) :
    splitLines (s ++ '\n' :: rest) = (s ++ ['\n']) :: splitLines rest := by
  induction s with
  | nil => simp [splitLines]
  | cons c s ih =>
      obtain ⟨⟨hnewline, -⟩, hs⟩ := List.forall_mem_cons.mp h
      rw [List.cons_append, splitLines, if_neg hnewline, ih hs]
      rfl

theorem lines_append {s : List Char} (h : Unbroken s) (rest : List Char) :
    lines (s ++ '\n' :: rest) = (s ++ ['\n']) :: lines rest := by
  have hnewline : universalNewlines ('\n' :: rest) =
      '\n' :: universalNewlines rest := by
    rw [universalNewlines] <;> simp
  rw [lines, universalNewlines_append h, hnewline, splitLines_append h, lines]

private theorem splitLines_of_unbroken {s : List Char} (h : Unbroken s) :
    splitLines s = if s = [] then [] else [s] := by
  induction s with
  | nil => rfl
  | cons c s ih =>
      obtain ⟨⟨hnewline, -⟩, hs⟩ := List.forall_mem_cons.mp h
      rw [splitLines, if_neg hnewline, ih hs]
      by_cases hnil : s = [] <;> simp [hnil]

/-- The last line of a text that does not end with a line break. -/
theorem lines_of_unbroken {s : List Char} (h : Unbroken s) :
    lines s = if s = [] then [] else [s] := by
  have huniversal := universalNewlines_append h []
  rw [List.append_nil, universalNewlines, List.append_nil] at huniversal
  rw [lines, huniversal, splitLines_of_unbroken h]

private theorem return_not_mem_universalNewlines (s : List Char) :
    '\r' ∉ universalNewlines s := by
  fun_induction universalNewlines s with
  | case1 => exact List.not_mem_nil
  | case2 rest ih => simpa using ih
  | case3 rest _ ih => simpa using ih
  | case4 c rest _ hne ih =>
      rw [List.mem_cons, not_or]
      exact ⟨fun heq => hne heq.symm, ih⟩

private theorem newline_not_mem_splitLines {s line : List Char} (h : line ∈ splitLines s) :
    ∃ body, '\n' ∉ body ∧ (line = body ∨ line = body ++ ['\n']) ∧ body ⊆ s := by
  induction s generalizing line with
  | nil => cases h
  | cons c s ih =>
      rw [splitLines] at h
      split at h
      · next heq =>
        rcases List.mem_cons.mp h with rfl | h
        · exact ⟨[], List.not_mem_nil, .inr (by rw [heq]; rfl), List.nil_subset _⟩
        · obtain ⟨body, hbody, hline, hsub⟩ := ih h
          exact ⟨body, hbody, hline, List.Subset.trans hsub (List.subset_cons_self c s)⟩
      · next hne =>
        split at h
        · obtain rfl := List.mem_singleton.mp h
          exact ⟨[c], by simpa using Ne.symm hne, .inl rfl, by simp⟩
        · next first others hlines =>
          rw [hlines] at ih
          rcases List.mem_cons.mp h with rfl | h
          · obtain ⟨body, hbody, hline, hsub⟩ := ih List.mem_cons_self
            refine ⟨c :: body, ?_, ?_, List.cons_subset_cons c hsub⟩
            · rw [List.mem_cons, not_or]
              exact ⟨Ne.symm hne, hbody⟩
            · rcases hline with rfl | rfl
              · exact .inl rfl
              · exact .inr rfl
          · obtain ⟨body, hbody, hline, hsub⟩ := ih (List.mem_cons_of_mem _ h)
            exact ⟨body, hbody, hline, List.Subset.trans hsub (List.subset_cons_self c s)⟩

theorem unbroken_strip_of_mem_lines {s line : List Char} (h : line ∈ lines s) :
    Unbroken (strip line) := by
  obtain ⟨body, hbody, hline, hsub⟩ := newline_not_mem_splitLines h
  have hunbroken : Unbroken body := by
    intro c hc
    constructor
    · rintro rfl
      exact hbody hc
    · rintro rfl
      exact return_not_mem_universalNewlines s (hsub hc)
  rcases hline with rfl | rfl
  · exact hunbroken.strip
  · rw [strip_append_newline]
    exact hunbroken.strip

/-- The lines of a text without the white space at their ends and without those
that are blank. -/
def nonBlank (s : List Char) : List (List Char) :=
  ((lines s).map strip).filter fun line => line ≠ []

/-- A line as `nonBlank` gives it. -/
structure Trimmed (line : List Char) : Prop where
  unbroken : Unbroken line
  stripped : strip line = line
  notBlank : line ≠ []

theorem trimmed_of_mem_nonBlank {s line : List Char} (h : line ∈ nonBlank s) :
    Trimmed line := by
  obtain ⟨hmem, hne⟩ := List.mem_filter.mp h
  obtain ⟨raw, hraw, rfl⟩ := List.mem_map.mp hmem
  exact ⟨unbroken_strip_of_mem_lines hraw, strip_strip raw, by simpa using hne⟩

@[simp] theorem lines_nil : lines [] = [] := rfl

@[simp] theorem nonBlank_nil : nonBlank [] = [] := rfl

private theorem nonBlank_append {s : List Char} (h : Unbroken s) (rest : List Char) :
    nonBlank (s ++ '\n' :: rest) =
      (if strip s = [] then [] else [strip s]) ++ nonBlank rest := by
  rw [nonBlank, lines_append h, List.map_cons, strip_append_newline, nonBlank]
  by_cases hblank : strip s = [] <;> simp [hblank]

def unlines (ls : List (List Char)) : List Char := ls.flatMap (· ++ ['\n'])

theorem unlines_cons_append (line : List Char) (ls : List (List Char))
    (rest : List Char) :
    unlines (line :: ls) ++ rest = line ++ '\n' :: (unlines ls ++ rest) := by
  simp [unlines]

private theorem nonBlank_unlines_append {ls : List (List Char)}
    (h : ∀ line ∈ ls, Trimmed line) (rest : List Char) :
    nonBlank (unlines ls ++ rest) = ls ++ nonBlank rest := by
  induction ls with
  | nil => rfl
  | cons line ls ih =>
      obtain ⟨hline, hls⟩ := List.forall_mem_cons.mp h
      rw [unlines_cons_append, nonBlank_append hline.unbroken, hline.stripped,
        if_neg hline.notBlank, ih hls]
      rfl

theorem nonBlank_unlines {ls : List (List Char)}
    (h : ∀ line ∈ ls, Trimmed line) : nonBlank (unlines ls) = ls := by
  have hall := nonBlank_unlines_append h []
  rw [List.append_nil, nonBlank_nil, List.append_nil] at hall
  exact hall

theorem lines_unlines_append {ls : List (List Char)}
    (h : ∀ line ∈ ls, Unbroken line) (rest : List Char) :
    lines (unlines ls ++ rest) = ls.map (· ++ ['\n']) ++ lines rest := by
  induction ls with
  | nil => rfl
  | cons line ls ih =>
      obtain ⟨hline, hls⟩ := List.forall_mem_cons.mp h
      rw [unlines_cons_append, lines_append hline, ih hls]
      rfl

theorem unlines_append (ls ls' : List (List Char)) :
    unlines (ls ++ ls') = unlines ls ++ unlines ls' :=
  List.flatMap_append

/-! ## Fields -/

theorem cut_append {sep : Char} {field : List Char} (h : sep ∉ field)
    (rest : List Char) : cut sep (field ++ sep :: rest) = some (field, rest) := by
  induction field with
  | nil => simp [cut]
  | cons c field ih =>
      rw [List.mem_cons, not_or] at h
      rw [List.cons_append, cut, if_neg (Ne.symm h.1), ih h.2]
      rfl

theorem cut_eq_some {sep : Char} {s : List Char} {parts : List Char × List Char}
    (h : cut sep s = some parts) :
    s = parts.1 ++ sep :: parts.2 ∧ sep ∉ parts.1 := by
  induction s generalizing parts with
  | nil => cases h
  | cons c s ih =>
      rw [cut] at h
      split at h
      · next heq =>
        obtain rfl := Option.some.inj h
        exact ⟨by rw [heq]; rfl, List.not_mem_nil⟩
      · next hne =>
        obtain ⟨later, hcut, rfl⟩ := Option.map_eq_some_iff.mp h
        obtain ⟨rfl, hfield⟩ := ih hcut
        refine ⟨rfl, ?_⟩
        dsimp only
        rw [List.mem_cons, not_or]
        exact ⟨Ne.symm hne, hfield⟩

theorem cut_eq_none_iff {sep : Char} {s : List Char} :
    cut sep s = none ↔ sep ∉ s := by
  constructor
  · intro h hmem
    obtain ⟨field, rest, rfl, hfield⟩ := List.eq_append_cons_of_mem hmem
    rw [cut_append hfield] at h
    cases h
  · intro h
    cases hcut : cut sep s with
    | none => rfl
    | some parts =>
        obtain ⟨rfl, -⟩ := cut_eq_some hcut
        simp at h

/-- Fields with the separator behind each, and what comes behind the last. -/
theorem split_flatMap {sep : Char} {fields : List (List Char)}
    (h : ∀ field ∈ fields, sep ∉ field) (last : List Char) :
    split sep fields.length (fields.flatMap (· ++ [sep]) ++ last) =
      fields ++ [last] := by
  induction fields with
  | nil => rfl
  | cons field fields ih =>
      obtain ⟨hfield, hfields⟩ := List.forall_mem_cons.mp h
      have hcons : (field :: fields).flatMap (· ++ [sep]) ++ last =
          field ++ sep :: (fields.flatMap (· ++ [sep]) ++ last) := by
        simp
      rw [List.length_cons, hcons, split, cut_append hfield]
      simp only [ih hfields, List.cons_append]

theorem length_split (sep : Char) (limit : Nat) (s : List Char) :
    (split sep limit s).length = min limit (s.count sep) + 1 := by
  induction limit generalizing s with
  | zero => simp [split]
  | succ limit ih =>
      rw [split]
      cases hcut : cut sep s with
      | none =>
          have hcount := List.count_eq_zero.mpr (cut_eq_none_iff.mp hcut)
          simp [hcount]
      | some parts =>
          obtain ⟨rfl, hfield⟩ :=
            cut_eq_some hcut
          have hcount := List.count_eq_zero.mpr hfield
          simp only [List.length_cons, ih, List.count_append, hcount,
            List.count_cons_self, Nat.zero_add]
          omega

theorem infix_of_mem_split {sep : Char} {limit : Nat} {s field : List Char}
    (h : field ∈ split sep limit s) : field <:+: s := by
  induction limit generalizing s with
  | zero =>
      obtain rfl := List.mem_singleton.mp h
      exact List.infix_rfl
  | succ limit ih =>
      rw [split] at h
      cases hcut : cut sep s with
      | none =>
          rw [hcut] at h
          obtain rfl := List.mem_singleton.mp h
          exact List.infix_rfl
      | some parts =>
          rw [hcut] at h
          obtain ⟨rfl, -⟩ := cut_eq_some hcut
          rcases List.mem_cons.mp h with rfl | h
          · exact (List.prefix_append parts.1 _).isInfix
          · have hsuffix : parts.2 <:+ parts.1 ++ sep :: parts.2 :=
              (List.suffix_cons sep parts.2).trans (List.suffix_append parts.1 _)
            exact (ih h).trans hsuffix.isInfix

theorem head?_of_mem_head?_split {sep : Char} {limit : Nat} {s field : List Char}
    (h : field ∈ (split sep limit s).head?) {c : Char} (hc : c ∈ field.head?) :
    c ∈ s.head? := by
  cases limit with
  | zero =>
      obtain rfl := Option.some.inj h
      exact hc
  | succ limit =>
      rw [split] at h
      cases hcut : cut sep s with
      | none =>
          rw [hcut] at h
          obtain rfl := Option.some.inj h
          exact hc
      | some parts =>
          rw [hcut] at h
          obtain rfl := Option.some.inj h
          obtain ⟨rfl, -⟩ := cut_eq_some hcut
          have hne : parts.1 ≠ [] := by
            intro hnil
            rw [hnil] at hc
            cases hc
          rw [List.head?_append_of_ne_nil _ hne]
          exact hc

theorem not_mem_of_mem_dropLast_split {sep : Char} {limit : Nat} {s field : List Char}
    (h : field ∈ (split sep limit s).dropLast) : sep ∉ field := by
  induction limit generalizing s with
  | zero => simp [split] at h
  | succ limit ih =>
      rw [split] at h
      cases hcut : cut sep s with
      | none => simp [hcut] at h
      | some parts =>
          have hne : split sep limit parts.2 ≠ [] := by
            rw [← List.length_pos_iff, length_split]
            omega
          simp only [hcut, List.dropLast_cons_of_ne_nil hne, List.mem_cons] at h
          rcases h with rfl | h
          · exact (cut_eq_some hcut).2
          · exact ih h

theorem mem_getLast?_split {sep : Char} {limit : Nat} {s : List Char}
    (h : limit < s.count sep) : ∃ last ∈ (split sep limit s).getLast?, sep ∈ last := by
  induction limit generalizing s with
  | zero => exact ⟨s, rfl, List.count_pos_iff.mp h⟩
  | succ limit ih =>
      rw [split]
      cases hcut : cut sep s with
      | none =>
          have hcount := List.count_eq_zero.mpr (cut_eq_none_iff.mp hcut)
          omega
      | some parts =>
          obtain ⟨rfl, hfield⟩ :=
            cut_eq_some hcut
          have hcount := List.count_eq_zero.mpr hfield
          rw [List.count_append, hcount, List.count_cons_self] at h
          obtain ⟨last, hlast, hmem⟩ := ih (s := parts.2) (by omega)
          refine ⟨last, ?_, hmem⟩
          have hne : split sep limit parts.2 ≠ [] := by
            intro hnil
            rw [hnil] at hlast
            cases hlast
          dsimp only
          rw [List.getLast?_cons_of_ne_nil hne]
          exact hlast

theorem forall_mem_intercalate {α : Type*} {P : α → Prop} {sep : List α}
    (hsep : ∀ c ∈ sep, P c) {fields : List (List α)} :
    (∀ c ∈ sep.intercalate fields, P c) ↔ ∀ field ∈ fields, ∀ c ∈ field, P c := by
  induction fields with
  | nil => simp
  | cons field fields ih =>
      cases fields with
      | nil => simp
      | cons next fields =>
          rw [List.intercalate_cons_cons, List.forall_mem_append,
            List.forall_mem_append, ih, List.forall_mem_cons (a := field)]
          constructor
          · exact fun h => ⟨h.1.1, h.2⟩
          · exact fun h => ⟨⟨h.1, hsep⟩, h.2⟩

theorem map_intercalate {α β : Type*} (f : α → β) (sep : List α)
    (fields : List (List α)) : (sep.intercalate fields).map f =
      (sep.map f).intercalate (fields.map (List.map f)) := by
  induction fields with
  | nil => simp
  | cons field fields ih =>
      cases fields with
      | nil => simp
      | cons next fields =>
          rw [List.intercalate_cons_cons, List.map_append, List.map_append, ih,
            List.map_cons, List.map_cons, List.map_cons, List.intercalate_cons_cons]

end DistributedMemory.Library.Text
