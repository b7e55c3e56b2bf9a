import DistributedMemory.Recovery.LogFile

/-!
# A torn last record

A crash leaves the beginning of one more line at the end of the log, without a line
break.  The next call of `log` goes on in the same line, and what becomes of the two
pieces depends on where the first one was cut: before the first bar they make one
numeral, behind it a line with too many bars, whose timestamp does not parse.  When
nothing is logged any more, the piece is read as a line of its own.
-/

namespace DistributedMemory.Recovery.LogFile

open Library.Framing (Bytes)
open Library.KeyedLines
open Library.Text

variable {F : FloatText} {before later : List (Entry F)} {torn first entry : Entry F}

def Log.logAll (wal : Log) (entries : List (Entry F)) : Log :=
  entries.foldl (fun wal entry => (wal.log entry.given).1) wal

def tornFile (before : List (Entry F)) (p : Bytes) : Option Bytes :=
  some (((Log.logAll ⟨none, 1⟩ before).file.getD []) ++ p)

/-- The log is opened on the torn file, and after these calls of `log` it reads as
the whole entries of before and after. -/
def Survives (before : List (Entry F)) (p : Bytes) (later : List (Entry F)) : Prop :=
  ∃ wal, reopen (tornFile before p) = some wal ∧
    readAll (wal.logAll later).file = some (before ++ later)

/-- The pieces of a line that do no damage: none; behind which nothing is logged,
and which end outside a character and before the sixth bar; a zero or a minus sign
that changes nothing about the number behind it. -/
def Harmless (p : Bytes) (later : List (Entry F)) : Prop :=
  p = [] ∨
  (later = [] ∧ ∃ q, decodeText p = some q ∧ q.count '|' < 6) ∨
  ∃ first rest, later = first :: rest ∧
    (p = utf8 ['0'] ∧ 0 ≤ first.lsn ∨ p = utf8 ['-'] ∧ first.lsn = 0)

/-! ## Bars in a line -/

theorem length_parts (line : List Char) :
    (split '|' 6 (strip line)).length = min 6 (line.count '|') + 1 := by
  rw [length_split, count_strip (by decide)]

private theorem deserialize_of_short {line : List Char} (h : line.count '|' < 6) :
    deserialize (F := F) line = some none := by
  have hlength := length_parts line
  unfold deserialize
  split
  · next hparts =>
    rw [hparts, List.length_cons] at hlength
    simp only [List.length_cons, List.length_nil] at hlength
    omega
  · rfl

private theorem lastLsn_of_short {line : List Char} (h : line.count '|' < 6) (last : Int) :
    lastLsn last line = some last := by
  have hlength := length_parts line
  unfold lastLsn
  dsimp only
  split
  · rfl
  · split
    · next hparts =>
      rw [hparts] at hlength
      simp only [List.length_cons, List.length_nil] at hlength
      omega
    · rfl

theorem exists_seven_parts {line : List Char} (h : 6 ≤ line.count '|') :
    ∃ lsn txnId entryType resource before after timestamp,
      split '|' 6 (strip line) =
        [lsn, txnId, entryType, resource, before, after, timestamp] := by
  have hlength := length_parts line
  rw [Nat.min_eq_left h] at hlength
  match hparts : split '|' 6 (strip line), hlength with
  | [lsn, txnId, entryType, resource, before, after, timestamp], _ =>
    exact ⟨lsn, txnId, entryType, resource, before, after, timestamp, rfl⟩

private theorem deserialize_of_long {line : List Char} (h : 6 ≤ line.count '|') :
    deserialize (F := F) line ≠ some none := by
  obtain ⟨lsn, txnId, entryType, resource, before, after, timestamp, hparts⟩ :=
    exists_seven_parts h
  rw [deserialize, hparts]
  dsimp only
  split <;> simp

theorem deserialize_of_seventh_bar {line : List Char} (h : 6 < line.count '|') :
    deserialize (F := F) line = none := by
  obtain ⟨lsn, txnId, entryType, resource, before, after, timestamp, hparts⟩ :=
    exists_seven_parts (Nat.le_of_lt h)
  rw [← count_strip (by decide)] at h
  obtain ⟨last, hlast, hbar⟩ := mem_getLast?_split h
  rw [hparts] at hlast
  have htimestamp : timestamp = last := Option.some.inj hlast
  rw [deserialize, hparts, htimestamp]
  dsimp only
  rw [F.parse_bar _ hbar]
  cases parseInt lsn <;> rfl

private theorem count_entryText (h : entry.Clean) : 6 ≤ (entryText entry).count '|' := by
  have hsplit := split_append_entryText h (p := []) List.not_mem_nil
  have hlength := length_split '|' 6 (entryText entry)
  rw [List.nil_append] at hsplit
  rw [hsplit] at hlength
  simp only [List.length_cons, List.length_nil] at hlength
  omega

/-! ## A piece of a line in front of an entry -/

private theorem isSpace_head_torn {q : List Char} (hq : q <+: entryText torn) :
    ∀ c ∈ q.head?, isSpace c = false := by
  intro c hc
  have hhead : (entryText torn).head? = some c := by
    obtain ⟨rest, hrest⟩ := hq
    rw [← hrest, List.head?_append, hc]
    rfl
  rw [head?_entryText] at hhead
  exact isSpace_of_mem_showInt (List.mem_of_mem_head? hhead)

private theorem prefix_showInt {q : List Char} (hq : q <+: entryText torn) (hbar : '|' ∉ q) :
    q <+: showInt torn.lsn := by
  have hlsn : showInt torn.lsn <+: entryText torn := List.prefix_append _ _
  rcases List.prefix_or_prefix_of_prefix hq hlsn with hshort | ⟨rest, rfl⟩
  · exact hshort
  · rw [entryText, List.prefix_append_right_inj] at hq
    cases rest with
    | nil => rw [List.append_nil]
    | cons c rest =>
        obtain ⟨rfl, -⟩ := List.cons_prefix_cons.mp hq
        simp at hbar

theorem deserialize_torn_iff {q : List Char} (hq : q <+: entryText torn) (hne : q ≠ [])
    (hfirst : first.Clean) :
    deserialize (q ++ entryText first ++ ['\n']) = some (some first) ↔
      q = ['0'] ∧ 0 ≤ first.lsn ∨ q = ['-'] ∧ first.lsn = 0 := by
  by_cases hbar : '|' ∈ q
  · have hcount : 6 < (q ++ entryText first ++ ['\n']).count '|' := by
      have hpos := List.count_pos_iff.mpr hbar
      have hsix := count_entryText hfirst
      rw [List.count_append, List.count_append]
      omega
    rw [deserialize_of_seventh_bar hcount]
    constructor
    · intro heq
      cases heq
    · rintro (⟨rfl, -⟩ | ⟨rfl, -⟩) <;> exact absurd hbar (by decide)
  · have hstrip := strip_append_entryText first (isSpace_head_torn hq)
    have hiff := parseInt_append_iff (m := first.lsn) (prefix_showInt hq hbar) hne
    rw [deserialize, strip_append_newline, hstrip, split_append_entryText hfirst hbar,
      ← hiff]
    simp only [F.parse_repr, String.ofList_toList]
    cases parseInt (q ++ showInt first.lsn) with
    | none => simp
    | some n =>
        constructor
        · intro heq
          have hentry := Option.some.inj (Option.some.inj heq)
          rw [← hentry]
        · intro heq
          obtain rfl := Option.some.inj heq
          rfl

/-! ## The torn file -/

theorem file_logAll (entries : List (Entry F)) (wal : Log) :
    (wal.logAll entries).file.getD [] =
      wal.file.getD [] ++ utf8 (text entries) := by
  induction entries generalizing wal with
  | nil => simp [Log.logAll, text, unlines]
  | cons entry entries ih =>
      have htext : text (entry :: entries) =
          (entryText entry ++ ['\n']) ++ text entries := rfl
      rw [Log.logAll, List.foldl_cons, ← Log.logAll, ih, htext, utf8_append, log_given,
        ← List.append_assoc]
      rfl

theorem tornFile_eq (before : List (Entry F)) (p : Bytes) :
    tornFile before p = some (utf8 (text before) ++ p) := by
  rw [tornFile, file_logAll]
  rfl

theorem prefix_entryText {q : List Char}
    (hp : utf8 q <+: utf8 (entryText torn ++ ['\n']))
    (hproper : utf8 q ≠ utf8 (entryText torn ++ ['\n'])) :
    q <+: entryText torn := by
  rcases List.prefix_concat_iff.mp (prefix_of_utf8 hp) with rfl | hq
  · exact absurd rfl hproper
  · exact hq

private theorem exists_torn_text {p : Bytes} (hp : p <+: utf8 (entryText torn ++ ['\n']))
    {wal : Log} (h : reopen (tornFile before p) = some wal) :
    ∃ q, p = utf8 q := by
  rw [tornFile_eq, reopen, initLsn] at h
  cases hdecode : decodeText (utf8 (text before) ++ p) with
  | none =>
      rw [hdecode] at h
      cases h
  | some u =>
      obtain ⟨q, -, hq, -⟩ := decodeText_append_eq_some hp hdecode
      exact ⟨q, hq⟩

private theorem file_of_reopen {file : Option Bytes} {wal : Log} (h : reopen file = some wal) :
    wal.file = file := by
  obtain ⟨next, -, rfl⟩ := Option.map_eq_some_iff.mp h
  rfl

theorem readAll_torn (hbefore : ∀ entry ∈ before, entry.Clean) {q : List Char}
    {wal : Log} (h : reopen (tornFile before (utf8 q)) = some wal) :
    readAll (wal.logAll later).file =
      (collect deserialize (lines (q ++ text later))).map (before ++ ·) := by
  have hfile : (wal.logAll later).file.getD [] =
      utf8 (text before ++ (q ++ text later)) := by
    rw [file_logAll, file_of_reopen h, tornFile_eq, Option.getD_some,
      utf8_append, utf8_append, List.append_assoc]
  rw [readAll_getD, hfile, readAll_utf8, lines_text_append hbefore,
    collect_append (collect_text hbefore)]

private theorem reopen_torn (hbefore : ∀ entry ∈ before, entry.Clean) {q : List Char}
    (hq : q <+: entryText torn) (htorn : torn.Clean) (hshort : q.count '|' < 6) :
    ∃ wal, reopen (tornFile before (utf8 q)) = some wal := by
  have hunbroken : Unbroken q := (unbroken_entryText htorn).subset hq.subset
  have hlast (last : Int) : (lines q).foldlM lastLsn last = some last := by
    rw [lines_of_unbroken hunbroken]
    split
    · rfl
    · rw [List.foldlM_cons, lastLsn_of_short hshort]
      rfl
  rw [tornFile_eq, reopen, ← utf8_append, initLsn_utf8,
    lines_text_append hbefore, List.foldlM_append, foldlM_lastLsn hbefore]
  exact ⟨_, by simp [hlast]; rfl⟩

theorem collect_torn_iff {q : List Char} (hq : q <+: entryText torn)
    (htorn : torn.Clean) :
    collect (deserialize (F := F)) (lines q) = some [] ↔ q.count '|' < 6 := by
  have hunbroken : Unbroken q := (unbroken_entryText htorn).subset hq.subset
  rw [lines_of_unbroken hunbroken]
  constructor
  · intro h
    by_contra hlong
    have hne : q ≠ [] := by
      rintro rfl
      exact hlong (by decide)
    rw [if_neg hne] at h
    obtain ⟨found, rest, hline, -, hnil⟩ := collect_cons_eq_some h
    have hnone := (List.append_eq_nil_iff.mp hnil.symm).1
    rw [Option.toList_eq_nil_iff] at hnone
    rw [hnone] at hline
    exact deserialize_of_long (Nat.le_of_not_lt hlong) hline
  · intro hshort
    split
    · rfl
    · rw [collect_cons (deserialize_of_short hshort)]
      rfl

theorem collect_torn_cons {q : List Char} {rest : List (Entry F)}
    (hq : q <+: entryText torn) (htorn : torn.Clean)
    (hclean : ∀ entry ∈ first :: rest, entry.Clean) :
    collect deserialize (lines (q ++ text (first :: rest))) = some (first :: rest) ↔
      deserialize (q ++ entryText first ++ ['\n']) = some (some first) := by
  obtain ⟨hfirst, hrest⟩ := List.forall_mem_cons.mp hclean
  have hunbroken : Unbroken (q ++ entryText first) :=
    ((unbroken_entryText htorn).subset hq.subset).append (unbroken_entryText hfirst)
  have htext : q ++ text (first :: rest) =
      (q ++ entryText first) ++ '\n' :: text rest := by
    simp [text, unlines]
  have hcollect : collect deserialize (lines (text rest)) = some rest := by
    have hlines := lines_text_append hrest []
    rw [List.append_nil, lines_nil, List.append_nil] at hlines
    rw [hlines, collect_text hrest]
  rw [htext, lines_append hunbroken]
  constructor
  · intro h
    obtain ⟨found, others, hline, hothers, heq⟩ := collect_cons_eq_some h
    rw [hcollect] at hothers
    obtain rfl := Option.some.inj hothers
    cases found with
    | none => simpa using congrArg List.length heq
    | some entry =>
        rw [hline, (List.cons.inj heq).1]
  · intro hline
    rw [collect_cons hline, hcollect]
    rfl

theorem survives_of_collect (hbefore : ∀ entry ∈ before, entry.Clean)
    (htorn : torn.Clean) {q : List Char} (hq : q <+: entryText torn)
    (hshort : q.count '|' < 6)
    (hcollect : collect deserialize (lines (q ++ text later)) = some later) :
    Survives before (utf8 q) later := by
  obtain ⟨wal, hreopen⟩ := reopen_torn hbefore hq htorn hshort
  refine ⟨wal, hreopen, ?_⟩
  rw [readAll_torn hbefore hreopen, hcollect, Option.map_some]

/-- A torn piece of one more line does no damage exactly where it is harmless. -/
theorem torn_record_survives_iff (hbefore : ∀ entry ∈ before, entry.Clean)
    (htorn : torn.Clean) {p : Bytes} (hp : p <+: utf8 (entryText torn ++ ['\n']))
    (hproper : p ≠ utf8 (entryText torn ++ ['\n'])) (later : List (Entry F)) :
    Survives before p later ↔ (∀ entry ∈ later, entry.Clean) ∧ Harmless p later := by
  constructor
  · rintro ⟨wal, hreopen, hread⟩
    have hclean : ∀ entry ∈ later, entry.Clean :=
      (List.forall_mem_append.mp (clean_of_readAll hread)).2
    refine ⟨hclean, ?_⟩
    obtain ⟨q, rfl⟩ := exists_torn_text hp hreopen
    have hq := prefix_entryText hp hproper
    rw [readAll_torn hbefore hreopen] at hread
    obtain ⟨read, hcollect, heq⟩ := Option.map_eq_some_iff.mp hread
    rw [List.append_cancel_left heq] at hcollect
    cases later with
    | nil =>
        rw [text_nil, List.append_nil] at hcollect
        exact .inr (.inl ⟨rfl, q, decodeText_utf8 q,
          (collect_torn_iff hq htorn).mp hcollect⟩)
    | cons first rest =>
        by_cases hne : q = []
        · exact .inl (by rw [hne]; rfl)
        · have hline := (collect_torn_cons hq htorn hclean).mp hcollect
          have hcases := (deserialize_torn_iff hq hne (hclean first (by simp))).mp hline
          refine .inr (.inr ⟨first, rest, rfl, ?_⟩)
          rcases hcases with ⟨rfl, hlsn⟩ | ⟨rfl, hlsn⟩
          · exact .inl ⟨rfl, hlsn⟩
          · exact .inr ⟨rfl, hlsn⟩
  · rintro ⟨hclean, rfl | ⟨rfl, q, hdecode, hshort⟩ | ⟨first, rest, rfl, hcases⟩⟩
    · have hcollect : collect deserialize (lines ([] ++ text later)) = some later := by
        have hlines := lines_text_append hclean []
        rw [List.append_nil, lines_nil, List.append_nil] at hlines
        rw [List.nil_append, hlines, collect_text hclean]
      exact survives_of_collect hbefore htorn List.nil_prefix (by decide) hcollect
    · obtain rfl := eq_utf8_of_decodeText hdecode
      have hq := prefix_entryText hp hproper
      have hcollect := (collect_torn_iff (F := F) hq htorn).mpr hshort
      rw [← List.append_nil q] at hcollect
      exact survives_of_collect hbefore htorn hq hshort hcollect
    · have hcollect {q : List Char} (hq : q <+: entryText torn) (hne : q ≠ [])
          (hcase : q = ['0'] ∧ 0 ≤ first.lsn ∨ q = ['-'] ∧ first.lsn = 0) :=
        (collect_torn_cons hq htorn hclean).mpr
          ((deserialize_torn_iff hq hne (hclean first (by simp))).mpr hcase)
      rcases hcases with ⟨rfl, hlsn⟩ | ⟨rfl, hlsn⟩
      · have hq := prefix_entryText hp hproper
        exact survives_of_collect hbefore htorn hq (by decide)
          (hcollect hq (by decide) (.inl ⟨rfl, hlsn⟩))
      · have hq := prefix_entryText hp hproper
        exact survives_of_collect hbefore htorn hq (by decide)
          (hcollect hq (by decide) (.inr ⟨rfl, hlsn⟩))

def begun (lsn : Int) (t : String) : Entry wholeSeconds :=
  ⟨lsn, t, "BEGIN", "", "", "", (5 : Nat)⟩

def tornWrite : Entry wholeSeconds := ⟨2, "t1", "WRITE", "a:k", "", "v", (6 : Nat)⟩

theorem torn_then_silent :
    Survives [begun 1 "t1"] (utf8 "2|t1|WR".toList) [] := by
  have htorn : tornWrite.Clean := by decide
  exact (torn_record_survives_iff (by decide) htorn (by decide) (by decide) []).mpr
    ⟨by simp, .inr (.inl ⟨rfl, _, decodeText_utf8 _, by decide⟩)⟩

/-- The next record goes on in the torn line and the log cannot be read any more. -/
theorem torn_then_logged :
    (∀ entry ∈ [begun 1 "t1", tornWrite, begun 2 "t2"], entry.Clean) ∧
      utf8 "2|t1|WR".toList <+: utf8 (entryText tornWrite ++ ['\n']) ∧
      utf8 "2|t1|WR".toList ≠ utf8 (entryText tornWrite ++ ['\n']) ∧
      ¬ Survives [begun 1 "t1"] (utf8 "2|t1|WR".toList) [begun 2 "t2"] := by
  refine ⟨by decide, by decide, by decide, ?_⟩
  rintro ⟨wal, hreopen, hread⟩
  rw [readAll_torn (by decide) hreopen] at hread
  have hbars : deserialize (F := wholeSeconds)
      ("2|t1|WR".toList ++ entryText (begun 2 "t2") ++ ['\n']) = none :=
    deserialize_of_seventh_bar (by decide)
  have hlines : lines ("2|t1|WR".toList ++ text [begun 2 "t2"]) =
      ["2|t1|WR".toList ++ entryText (begun 2 "t2") ++ ['\n']] := by decide
  rw [hlines, collect, hbars] at hread
  cases hread

end DistributedMemory.Recovery.LogFile
