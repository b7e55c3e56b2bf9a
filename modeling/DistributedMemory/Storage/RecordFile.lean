import DistributedMemory.Library.KeyedLines
import DistributedMemory.Library.Numeral
import DistributedMemory.Library.TextFile
import DistributedMemory.Storage.Record

/-!
# Record files

A record file is a text with one record a line, `key|value|timestamp`.  Three
functions take the file apart, each with its own copy of the same steps: the lines
are stripped, blank ones skipped, and a line of three fields is a record.  A line of
fewer fields is skipped on reading and kept on writing; one whose third field is no
integer makes reading raise.  A file is written over line by line, so what was in it
is lost where a new line cannot be encoded.

The files of a node are named by the resource, and `none` is a file that does not
exist.
-/

namespace DistributedMemory.Storage.RecordFile

open Library.Framing (Bytes)
open Library.KeyedLines
open Library.Text

structure Record where
  key : Str
  value : Str
  timestamp : Int
  deriving DecidableEq, Repr

/-- `line.split("|", 2)` -/
def parts (line : List Char) : List (List Char) := split '|' 2 line

/-- The record in a line; `none` where `int` raises. -/
def recordOf (line : List Char) : Option (Option Record) :=
  match parts line with
  | [key, value, timestamp] =>
      (parseInt timestamp).map fun t =>
        some ⟨chars key, chars value, t⟩
  | _ => some none

/-- `len(parts) == 3 and parts[0] == key` -/
def isRecordOf (key : Str) (line : List Char) : Bool :=
  match parts line with
  | [k, _, _] => chars k = key
  | _ => false

/-- `read_all`; `none` where it raises. -/
def readAll : Option Bytes → Option (List Record)
  | none => some []
  | some bytes =>
      match decodeText bytes with
      | none => none
      | some text => collect recordOf (nonBlank text)

def readRecord (file : Option Bytes) (key : Str) : Option (Option Record) :=
  (readAll file).map fun records => lookup Record.key records key

/-- `f"{key}|{value}|{timestamp}"` -/
def recordLine (key value : Str) (timestamp : Int) : Str :=
  key ++ .scalar '|' :: (value ++ .scalar '|' :: chars (showInt timestamp))

/-- The lines that `write_record` and `delete_record` read. -/
def storedLines : Option Bytes → Option (List (List Char))
  | none => some []
  | some bytes => (decodeText bytes).map nonBlank

/-- The file after `write_record`, and whether it returns. -/
def writeRecord (file : Option Bytes) (key value : Str) (timestamp : Int) :
    Option Bytes × Bool :=
  match storedLines file with
  | none => (file, false)
  | some records =>
      let line := recordLine key value timestamp
      let found := records.any (isRecordOf key)
      let newRecords := records.map fun record =>
        if isRecordOf key record then line else chars record
      let (bytes, returns) :=
        writeLines (if found then newRecords else newRecords ++ [line])
      (some bytes, returns)

/-- The file after `delete_record` and what it returns; `none` where it raises. -/
def deleteRecord (file : Option Bytes) (key : Str) : Option Bytes × Option Bool :=
  match file with
  | none => (none, some false)
  | some bytes =>
      match decodeText bytes with
      | none => (some bytes, none)
      | some text =>
          let lines := nonBlank text
          if lines.any (isRecordOf key) then
            let records := lines.filter fun line => !isRecordOf key line
            let (bytes, returns) := writeLines (records.map chars)
            (some bytes, if returns then some true else none)
          else (some bytes, some false)

/-- The lines that are no records. -/
def malformedLines (file : Option Bytes) : Option (List (List Char)) :=
  (storedLines file).map fun lines =>
    lines.filter fun line => (parts line).length ≠ 3

/-- A key without bars, line breaks and leading white space. -/
structure IsKey (key : Str) : Prop where
  bar : .scalar '|' ∉ key
  unbroken : ∀ c ∈ key, c ≠ .scalar '\n' ∧ c ≠ .scalar '\r'
  head : ∀ c ∈ key.head?, c.isSpace = false

/-- A value without bars and line breaks. -/
structure IsValue (value : Str) : Prop where
  bar : .scalar '|' ∉ value
  unbroken : ∀ c ∈ value, c ≠ .scalar '\n' ∧ c ≠ .scalar '\r'

theorem unbroken_chars_iff {s : List Char} :
    (∀ c ∈ chars s, c ≠ .scalar '\n' ∧ c ≠ .scalar '\r') ↔ Unbroken s := by
  simp only [forall_mem_chars, ne_eq, CodePoint.scalar.injEq]
  rfl

theorem isKey_chars_iff {s : List Char} : IsKey (chars s) ↔
    '|' ∉ s ∧ Unbroken s ∧ ∀ c ∈ s.head?, isSpace c = false := by
  have hhead : (∀ c ∈ (chars s).head?, c.isSpace = false) ↔
      ∀ c ∈ s.head?, isSpace c = false := by
    cases s with
    | nil => simp
    | cons c s => simp [CodePoint.isSpace]
  rw [← hhead, ← unbroken_chars_iff, ← scalar_mem_chars (c := '|')]
  exact ⟨fun h => ⟨h.bar, h.unbroken, h.head⟩, fun h => ⟨h.1, h.2.1, h.2.2⟩⟩

theorem isValue_chars_iff {s : List Char} :
    IsValue (chars s) ↔ '|' ∉ s ∧ Unbroken s := by
  rw [← unbroken_chars_iff, ← scalar_mem_chars (c := '|')]
  exact ⟨fun h => ⟨h.bar, h.unbroken⟩, fun h => ⟨h.1, h.2⟩⟩

/-! ## One line -/

def recordText (key value : List Char) (timestamp : Int) : List Char :=
  key ++ '|' :: (value ++ '|' :: showInt timestamp)

theorem recordLine_chars (key value : List Char) (timestamp : Int) :
    recordLine (chars key) (chars value) timestamp =
      chars (recordText key value timestamp) := by
  simp [recordLine, recordText]

private theorem unbroken_showInt (n : Int) : Unbroken (showInt n) := by
  intro c hc
  have hspace := isSpace_of_mem_showInt hc
  constructor <;>
  · rintro rfl
    exact absurd hspace (by decide)

section Line

variable {key value : List Char} (hkey : IsKey (chars key))
  (hvalue : IsValue (chars value)) (timestamp : Int)

include hkey hvalue

theorem parts_recordText :
    parts (recordText key value timestamp) = [key, value, showInt timestamp] := by
  have hfields : ∀ field ∈ [key, value], '|' ∉ field := by
    simp [(isKey_chars_iff.mp hkey).1, (isValue_chars_iff.mp hvalue).1]
  have hsplit := split_flatMap hfields (showInt timestamp)
  simp only [List.flatMap_cons, List.flatMap_nil, List.append_nil, List.append_assoc,
    List.cons_append, List.nil_append, List.length_cons, List.length_nil] at hsplit
  exact hsplit

private theorem recordOf_recordText :
    recordOf (recordText key value timestamp) =
      some (some ⟨chars key, chars value, timestamp⟩) := by
  rw [recordOf, parts_recordText hkey hvalue]
  simp only [parseInt_showInt, Option.map_some]

private theorem trimmed_recordText : Trimmed (recordText key value timestamp) := by
  obtain ⟨-, hunbroken, hhead⟩ := isKey_chars_iff.mp hkey
  have hbar : Unbroken ['|'] := by decide
  have hne : recordText key value timestamp ≠ [] := by simp [recordText]
  refine ⟨?_, ?_, hne⟩
  · exact hunbroken.append (hbar.append ((isValue_chars_iff.mp hvalue).2.append
      (hbar.append (unbroken_showInt timestamp))))
  apply strip_eq_self
  · intro c hc
    cases key with
    | nil =>
        obtain rfl := Option.some.inj hc
        decide
    | cons c' rest =>
        obtain rfl := Option.some.inj hc
        exact hhead c' rfl
  · intro c hc
    have hlast : (recordText key value timestamp).getLast? =
        (showInt timestamp).getLast? := by
      have hassoc : recordText key value timestamp =
          (key ++ '|' :: (value ++ ['|'])) ++ showInt timestamp := by
        simp [recordText]
      rw [hassoc, List.getLast?_append_of_ne_nil _ (showInt_ne_nil timestamp)]
    rw [hlast] at hc
    exact isSpace_of_mem_showInt (List.mem_of_getLast? hc)

end Line

theorem isRecordOf_eq_any (key : Str) {line : List Char} {record? : Option Record}
    (h : recordOf line = some record?) :
    isRecordOf key line = record?.any fun record => record.key = key := by
  unfold recordOf at h
  unfold isRecordOf
  split at h
  · next k value timestamp _ =>
    obtain ⟨t, -, rfl⟩ := Option.map_eq_some_iff.mp h
    rfl
  · obtain rfl := Option.some.inj h
    rfl

private theorem length_parts_of_isRecordOf {key : Str} {line : List Char}
    (h : isRecordOf key line) : (parts line).length = 3 := by
  unfold isRecordOf at h
  split at h
  · next heq => rw [heq]; rfl
  · cases h

private theorem isKey_isValue_of_recordOf {line : List Char} {record : Record}
    (hline : Trimmed line) (h : recordOf line = some (some record)) :
    (IsKey record.key ∧ IsValue record.value) ∧
      Encodable record.key ∧ Encodable record.value := by
  unfold recordOf at h
  split at h
  · next key value timestamp hparts =>
    obtain ⟨t, -, ht⟩ := Option.map_eq_some_iff.mp h
    obtain rfl := Option.some.inj ht
    have hfields : ∀ field ∈ [key, value], '|' ∉ field := by
      intro field hfield
      have hmem : field ∈ (split '|' 2 line).dropLast := by
        rw [← parts, hparts]
        exact hfield
      exact not_mem_of_mem_dropLast_split hmem
    have hunbroken : ∀ field ∈ [key, value, timestamp], Unbroken field := by
      intro field hfield
      rw [← hparts] at hfield
      exact hline.unbroken.subset (infix_of_mem_split hfield).subset
    have hhead : ∀ c ∈ key.head?, isSpace c = false := by
      intro c hc
      have hfirst : key ∈ (parts line).head? := by
        rw [hparts]
        rfl
      have hstripped := head?_strip line c
      rw [hline.stripped] at hstripped
      exact hstripped (head?_of_mem_head?_split hfirst hc)
    refine ⟨⟨isKey_chars_iff.mpr ⟨?_, ?_, hhead⟩, isValue_chars_iff.mpr ⟨?_, ?_⟩⟩,
      encodable_chars key, encodable_chars value⟩
    · exact hfields key (by simp)
    · exact hunbroken key (by simp)
    · exact hfields value (by simp)
    · exact hunbroken value (by simp)
  · cases h

/-! ## The whole file -/

theorem storedLines_unlines {lines : List (List Char)}
    (h : ∀ line ∈ lines, Trimmed line) :
    storedLines (some (utf8 (unlines lines))) = some lines := by
  simp [storedLines, nonBlank_unlines h]

theorem readAll_unlines {lines : List (List Char)}
    (h : ∀ line ∈ lines, Trimmed line) :
    readAll (some (utf8 (unlines lines))) = collect recordOf lines := by
  simp [readAll, nonBlank_unlines h]

theorem trimmed_of_storedLines {file : Option Bytes} {lines : List (List Char)}
    (h : storedLines file = some lines) : ∀ line ∈ lines, Trimmed line := by
  intro line hline
  cases file with
  | none =>
      obtain rfl := Option.some.inj h
      cases hline
  | some bytes =>
      obtain ⟨text, -, rfl⟩ := Option.map_eq_some_iff.mp h
      exact trimmed_of_mem_nonBlank hline

theorem exists_storedLines {file : Option Bytes} {records : List Record}
    (h : readAll file = some records) :
    ∃ lines, storedLines file = some lines ∧ collect recordOf lines = some records := by
  cases file with
  | none => exact ⟨[], rfl, h⟩
  | some bytes =>
      cases hdecode : decodeText bytes with
      | none => simp [readAll, hdecode] at h
      | some text =>
          simp only [readAll, hdecode] at h
          exact ⟨nonBlank text, by rw [storedLines, hdecode, Option.map_some], h⟩

theorem isKey_isValue_of_mem {file : Option Bytes} {records : List Record}
    (h : readAll file = some records) {record : Record} (hmem : record ∈ records) :
    (IsKey record.key ∧ IsValue record.value) ∧
      Encodable record.key ∧ Encodable record.value := by
  obtain ⟨lines, hlines, hrecords⟩ := exists_storedLines h
  obtain ⟨line, hline, hrecord⟩ := exists_line_of_mem hrecords hmem
  exact isKey_isValue_of_recordOf (trimmed_of_storedLines hlines line hline) hrecord

theorem not_malformed_of_isRecordOf {key : Str} (line : List Char)
    (h : isRecordOf key line) : (decide ((parts line).length ≠ 3)) = false := by
  rw [length_parts_of_isRecordOf h]
  rfl

private theorem writeRecord_chars {file : Option Bytes} {lines : List (List Char)}
    (h : storedLines file = some lines) (key value : List Char) (timestamp : Int) :
    writeRecord file (chars key) (chars value) timestamp =
      (some (utf8 (unlines (if lines.any (isRecordOf (chars key)) then
        lines.map fun line => if isRecordOf (chars key) line then
          recordText key value timestamp else line
        else lines ++ [recordText key value timestamp]))), true) := by
  have hreplaced : (lines.map fun line => if isRecordOf (chars key) line then
        recordLine (chars key) (chars value) timestamp else chars line) =
      (lines.map fun line => if isRecordOf (chars key) line then
        recordText key value timestamp else line).map chars := by
    rw [List.map_map]
    refine List.map_congr_left fun line _ => ?_
    rw [Function.comp_apply, recordLine_chars, apply_ite chars]
  have happended : (lines.map fun line => if isRecordOf (chars key) line then
        recordText key value timestamp else line).map chars ++
          [recordLine (chars key) (chars value) timestamp] =
      ((lines.map fun line => if isRecordOf (chars key) line then
        recordText key value timestamp else line) ++
          [recordText key value timestamp]).map chars := by
    rw [List.map_append, List.map_singleton, recordLine_chars]
  simp only [writeRecord, h, hreplaced, happended]
  cases hfound : lines.any (isRecordOf (chars key)) with
  | true => rw [if_pos rfl, if_pos rfl, writeLines_chars]
  | false =>
      rw [if_neg (by decide), if_neg (by decide), replace_eq_self hfound,
        writeLines_chars]

theorem readAll_writeRecord {file : Option Bytes} {records : List Record}
    (h : readAll file = some records) {key value : Str} (hkey : IsKey key)
    (hvalue : IsValue value) (hencodes : Encodable key ∧ Encodable value)
    (timestamp : Int) :
    ∃ file', writeRecord file key value timestamp = (some file', true) ∧
      readAll (some file') = some (put Record.key records ⟨key, value, timestamp⟩) ∧
      malformedLines (some file') = malformedLines file := by
  obtain ⟨key, rfl⟩ := hencodes.1.exists_chars
  obtain ⟨value, rfl⟩ := hencodes.2.exists_chars
  obtain ⟨lines, hlines, hrecords⟩ := exists_storedLines h
  have htrimmed := trimmed_of_storedLines hlines
  have hnew := trimmed_recordText hkey hvalue timestamp
  have hrecord := recordOf_recordText hkey hvalue timestamp
  have hthree : (parts (recordText key value timestamp)).length = 3 := by
    rw [parts_recordText hkey hvalue]
    rfl
  have hany := any_collect (fun _ _ => isRecordOf_eq_any (chars key)) hrecords
  have hreplaced := collect_replace (fun _ _ => isRecordOf_eq_any (chars key)) hrecords
    hrecord
  rw [writeRecord_chars hlines]
  refine ⟨_, rfl, ?_⟩
  rw [malformedLines, malformedLines, hlines, Option.map_some]
  cases hfound : lines.any (isRecordOf (chars key)) with
  | true =>
      rw [hfound] at hany
      have hall : ∀ line ∈ lines.map fun line =>
          if isRecordOf (chars key) line then recordText key value timestamp else line,
          Trimmed line := by
        intro line hline
        obtain ⟨old, hold, rfl⟩ := List.mem_map.mp hline
        split
        · exact hnew
        · exact htrimmed old hold
      rw [if_pos rfl, readAll_unlines hall, storedLines_unlines hall, Option.map_some,
        hreplaced, put, if_pos hany.symm]
      refine ⟨by simp only [decide_eq_true_eq], ?_⟩
      rw [filter_replace not_malformed_of_isRecordOf (by simp [hthree])]
  | false =>
      rw [hfound] at hany
      have hall : ∀ line ∈ lines ++ [recordText key value timestamp],
          Trimmed line :=
        List.forall_mem_append.mpr ⟨htrimmed, by simpa using hnew⟩
      rw [if_neg (by decide), readAll_unlines hall, storedLines_unlines hall,
        Option.map_some, collect_append hrecords, collect_cons hrecord, put,
        if_neg (by rw [← hany]; decide)]
      exact ⟨rfl, by simp [hthree]⟩

theorem readAll_deleteRecord {file : Option Bytes} {records : List Record}
    (h : readAll file = some records) (key : Str) :
    ∃ file' existed, deleteRecord file key = (file', some existed) ∧
      (existed = true ↔ ∃ record ∈ records, record.key = key) ∧
      readAll file' = some (erase Record.key records key) ∧
      malformedLines file' = malformedLines file := by
  obtain ⟨lines, hlines, hrecords⟩ := exists_storedLines h
  have htrimmed := trimmed_of_storedLines hlines
  have hany := any_collect (fun _ _ => isRecordOf_eq_any key) hrecords
  have hkept := collect_filter (fun _ _ => isRecordOf_eq_any key) hrecords
  have hexists : (records.any fun record => decide (record.key = key)) = true ↔
      ∃ record ∈ records, record.key = key := by simp
  have hunchanged (habsent : lines.any (isRecordOf key) = false) :
      readAll file = some (erase Record.key records key) := by
    rw [h, erase_eq_self (hany ▸ habsent)]
  cases file with
  | none =>
      obtain rfl := Option.some.inj hlines
      refine ⟨none, false, rfl, ?_, hunchanged rfl, rfl⟩
      rw [← hexists, ← hany]
      simp
  | some bytes =>
      obtain ⟨text, hdecode, rfl⟩ := Option.map_eq_some_iff.mp hlines
      simp only [deleteRecord, hdecode]
      cases hfound : (nonBlank text).any (isRecordOf key) with
      | true =>
          have hall : ∀ line ∈ (nonBlank text).filter fun line =>
              !isRecordOf key line, Trimmed line :=
            fun line hline => htrimmed line (List.mem_of_mem_filter hline)
          rw [if_pos rfl, writeLines_chars]
          refine ⟨_, true, rfl, ?_, ?_, ?_⟩
          · rw [← hexists, ← hany, hfound]
          · rw [readAll_unlines hall, hkept, erase]
            simp
          · rw [malformedLines, malformedLines, storedLines_unlines hall, hlines,
              Option.map_some, Option.map_some,
              filter_filter not_malformed_of_isRecordOf]
      | false =>
          refine ⟨_, false, rfl, ?_, hunchanged hfound, rfl⟩
          rw [← hexists, ← hany, hfound]

private theorem mem_put (records : List Record) (record : Record) :
    record ∈ put Record.key records record := by
  rw [put]
  split
  · next hfound =>
    obtain ⟨old, hold, hkey⟩ := List.any_eq_true.mp hfound
    exact List.mem_map.mpr ⟨old, hold, if_pos (of_decide_eq_true hkey)⟩
  · exact List.mem_append_right _ List.mem_cons_self

/-- A file that can be read behaves as the list of its records exactly when UTF-8
encodes what is written. -/
theorem record_file_refines_iff {file : Option Bytes} {records : List Record}
    (h : readAll file = some records) {key value : Str} (hkey : IsKey key)
    (hvalue : IsValue value) (timestamp : Int) :
    ((∃ file', writeRecord file key value timestamp = (some file', true) ∧
        readAll (some file') =
          some (put Record.key records ⟨key, value, timestamp⟩) ∧
        malformedLines (some file') = malformedLines file) ∧
      ∃ file' existed, deleteRecord file key = (file', some existed) ∧
        (existed = true ↔ ∃ record ∈ records, record.key = key) ∧
        readAll file' = some (erase Record.key records key) ∧
        malformedLines file' = malformedLines file) ↔
    Encodable key ∧ Encodable value := by
  constructor
  · rintro ⟨⟨file', -, hread, -⟩, -⟩
    exact (isKey_isValue_of_mem hread (mem_put records ⟨key, value, timestamp⟩)).2
  · intro hencodes
    exact ⟨readAll_writeRecord h hkey hvalue hencodes timestamp,
      readAll_deleteRecord h key⟩

/-- A file with a blank and a malformed line and two records of one key. -/
def ledger : List Char := " a|1|2\n\nnote\nb|x|3\r\na|9|4".toList

theorem readAll_ledger : readAll (some (utf8 ledger)) =
    some [⟨str "a", str "1", 2⟩, ⟨str "b", str "x", 3⟩, ⟨str "a", str "9", 4⟩] := by
  rw [readAll, decodeText_utf8]
  decide

theorem ledger_refines :
    (∃ file', writeRecord (some (utf8 ledger)) (str "a") (str "7") 5 =
        (some file', true) ∧
      readAll (some file') = some [⟨str "a", str "7", 5⟩, ⟨str "b", str "x", 3⟩,
        ⟨str "a", str "7", 5⟩] ∧
      malformedLines (some file') = malformedLines (some (utf8 ledger))) ∧
    ∃ file' existed, deleteRecord (some (utf8 ledger)) (str "a") =
        (file', some existed) ∧
      (existed = true ↔ ∃ record ∈ [⟨str "a", str "1", 2⟩, ⟨str "b", str "x", 3⟩,
        ⟨str "a", str "9", 4⟩], Record.key record = str "a") ∧
      readAll file' = some [⟨str "b", str "x", 3⟩] ∧
      malformedLines file' = malformedLines (some (utf8 ledger)) := by
  have hkey : IsKey (str "a") := ⟨by decide, by decide, by decide⟩
  have hvalue : IsValue (str "7") := ⟨by decide, by decide⟩
  exact (record_file_refines_iff readAll_ledger hkey hvalue 5).mpr
    ⟨by decide, by decide⟩

/-- A surrogate cuts the file off before its line. -/
theorem surrogate_cuts_ledger :
    IsKey (str "b") ∧ IsValue [.surrogate 0] ∧
      ∃ records, readAll (some (utf8 ledger)) = some records ∧
        writeRecord (some (utf8 ledger)) (str "b") [.surrogate 0] 5 =
          (some (utf8 "a|1|2\nnote\n".toList), false) ∧
        readAll (some (utf8 "a|1|2\nnote\n".toList)) ≠
          some (put Record.key records ⟨str "b", [.surrogate 0], 5⟩) := by
  refine ⟨⟨by decide, by decide, by decide⟩, ⟨by decide, by decide⟩, _,
    readAll_ledger, ?_, ?_⟩
  · rw [writeRecord, storedLines, decodeText_utf8]
    decide
  · rw [readAll, decodeText_utf8]
    decide

end DistributedMemory.Storage.RecordFile
