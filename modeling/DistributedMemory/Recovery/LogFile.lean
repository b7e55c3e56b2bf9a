import DistributedMemory.Library.KeyedLines
import DistributedMemory.Library.Numeral
import DistributedMemory.Library.TextFile
import DistributedMemory.Recovery.Wal

/-!
# The log as a file

The file `wal.log` under the log of records: one entry a line, its seven fields with
bars between them, written as they are.  Two readers take a line apart on their
own, `_init_lsn` when the log is opened and `_deserialize` when it is read.

What is read back is what was logged exactly when none of the strings given to the
log has a bar, a line break or a surrogate in it.
-/

namespace DistributedMemory.Recovery.LogFile

open Library.Framing (Bytes)
open Library.KeyedLines
open Library.Text
open DistributedMemory.Storage (TxnId)

/-- `LogEntry` with the fields of the file, as strings of type `S`. -/
structure EntryOf (S : Type) (F : FloatText) where
  lsn : Int
  txnId : S
  entryType : S
  resource : S
  beforeValue : S
  afterValue : S
  timestamp : F.Val

/-- An entry as it is read from the file, in which all is text. -/
abbrev Entry (F : FloatText) := EntryOf String F

abbrev GivenEntry (F : FloatText) := EntryOf Str F

structure Log where
  file : Option Bytes
  nextLsn : Int
  deriving DecidableEq, Repr

variable {F : FloatText}

/-- One line in `_init_lsn`; `none` where `int` raises. -/
def lastLsn (last : Int) (line : List Char) : Option Int :=
  let line := strip line
  if line = [] then some last
  else
    match split '|' 6 line with
    | [lsn, _, _, _, _, _, _] => (parseInt lsn).map (max last)
    | _ => some last

/-- `_init_lsn`; `none` where it raises. -/
def initLsn : Option Bytes → Option Int
  | none => some 1
  | some bytes =>
      match decodeText bytes with
      | none => none
      | some text => ((lines text).foldlM lastLsn 0).map (· + 1)

/-- `WriteAheadLog(node_id)` -/
def reopen (file : Option Bytes) : Option Log :=
  (initLsn file).map fun next => ⟨file, next⟩

def serialize (entry : GivenEntry F) : Str :=
  chars (showInt entry.lsn) ++ .scalar '|' :: (entry.txnId ++ .scalar '|' ::
    (entry.entryType ++ .scalar '|' :: (entry.resource ++ .scalar '|' ::
      (entry.beforeValue ++ .scalar '|' :: (entry.afterValue ++ .scalar '|' ::
        chars (F.repr entry.timestamp))))))

/-- The entry of a line; `none` where `int` or `float` raises. -/
def deserialize (line : List Char) : Option (Option (Entry F)) :=
  match split '|' 6 (strip line) with
  | [lsn, txnId, entryType, resource, before, after, timestamp] =>
      match parseInt lsn, F.parse timestamp with
      | some n, some t =>
          some (some ⟨n, String.ofList txnId, String.ofList entryType,
            String.ofList resource, String.ofList before, String.ofList after, t⟩)
      | _, _ => none
  | _ => some none

/-- `log`: the log behind it, and whether it returns.  The file is opened before the
line is encoded. -/
def Log.log (wal : Log) (entry : GivenEntry F) : Log × Bool :=
  match encodeText (serialize entry ++ str "\n") with
  | none => ({ wal with file := some (wal.file.getD []) }, false)
  | some bytes => ({ wal with file := some (wal.file.getD [] ++ bytes) }, true)

/-- `_log_entry`; `now` is `time.time()`. -/
def Log.logEntry (wal : Log) (now : F.Val) (txnId entryType resource before after : Str) :
    Log × Bool :=
  { wal with nextLsn := wal.nextLsn + 1 }.log
    ⟨wal.nextLsn, txnId, entryType, resource, before, after, now⟩

def Log.logBegin (wal : Log) (now : F.Val) (t : Str) : Log × Bool :=
  wal.logEntry now t (str "BEGIN") [] [] []

def Log.logWrite (wal : Log) (now : F.Val) (t resource before after : Str) :
    Log × Bool :=
  wal.logEntry now t (str "WRITE") resource before after

def Log.logCommit (wal : Log) (now : F.Val) (t : Str) : Log × Bool :=
  wal.logEntry now t (str "COMMIT") [] [] []

def Log.logAbort (wal : Log) (now : F.Val) (t : Str) : Log × Bool :=
  wal.logEntry now t (str "ABORT") [] [] []

def Log.logCheckpoint (wal : Log) (now : F.Val) (active : List Str) : Log × Bool :=
  wal.logEntry now (str "SYSTEM") (str "CHECKPOINT") [] []
    ((str ",").intercalate active)

def Log.logPrepare (wal : Log) (now : F.Val) (t : Str) : Log × Bool :=
  wal.logEntry now t (str "PREPARE") [] [] []

def Log.logGlobalCommit (wal : Log) (now : F.Val) (t : Str) : Log × Bool :=
  wal.logEntry now t (str "GLOBAL_COMMIT") [] [] []

def Log.logGlobalAbort (wal : Log) (now : F.Val) (t : Str) : Log × Bool :=
  wal.logEntry now t (str "GLOBAL_ABORT") [] [] []

def Log.logVoteCommit (wal : Log) (now : F.Val) (t : Str) : Log × Bool :=
  wal.logEntry now t (str "VOTE_COMMIT") [] [] []

def Log.logVoteAbort (wal : Log) (now : F.Val) (t : Str) : Log × Bool :=
  wal.logEntry now t (str "VOTE_ABORT") [] [] []

/-- `read_all`; `none` where it raises. -/
def readAll : Option Bytes → Option (List (Entry F))
  | none => some []
  | some bytes =>
      match decodeText bytes with
      | none => none
      | some text => collect deserialize (lines text)

/-! ## Calls -/

inductive Call where
  | begin (t : Str)
  | write (t resource before after : Str)
  | commit (t : Str)
  | abort (t : Str)
  | checkpoint (active : List Str)
  | prepare (t : Str)
  | globalCommit (t : Str)
  | globalAbort (t : Str)
  | voteCommit (t : Str)
  | voteAbort (t : Str)
  deriving DecidableEq, Repr

/-- The log behind the call, and whether the call returns. -/
def Call.perform (wal : Log) (now : F.Val) : Call → Log × Bool
  | .begin t => wal.logBegin now t
  | .write t resource before after => wal.logWrite now t resource before after
  | .commit t => wal.logCommit now t
  | .abort t => wal.logAbort now t
  | .checkpoint active => wal.logCheckpoint now active
  | .prepare t => wal.logPrepare now t
  | .globalCommit t => wal.logGlobalCommit now t
  | .globalAbort t => wal.logGlobalAbort now t
  | .voteCommit t => wal.logVoteCommit now t
  | .voteAbort t => wal.logVoteAbort now t

def Call.strings : Call → List Str
  | .write t resource before after => [t, resource, before, after]
  | .checkpoint active => active
  | .begin t | .commit t | .abort t | .prepare t | .globalCommit t | .globalAbort t
  | .voteCommit t | .voteAbort t => [t]

/-- The entry that the call is to leave in the log. -/
def Call.entry (lsn : Int) (now : F.Val) : Call → GivenEntry F
  | .begin t => ⟨lsn, t, str "BEGIN", [], [], [], now⟩
  | .write t resource before after =>
      ⟨lsn, t, str "WRITE", resource, before, after, now⟩
  | .commit t => ⟨lsn, t, str "COMMIT", [], [], [], now⟩
  | .abort t => ⟨lsn, t, str "ABORT", [], [], [], now⟩
  | .checkpoint active => ⟨lsn, str "SYSTEM", str "CHECKPOINT", [], [],
      (str ",").intercalate active, now⟩
  | .prepare t => ⟨lsn, t, str "PREPARE", [], [], [], now⟩
  | .globalCommit t => ⟨lsn, t, str "GLOBAL_COMMIT", [], [], [], now⟩
  | .globalAbort t => ⟨lsn, t, str "GLOBAL_ABORT", [], [], [], now⟩
  | .voteCommit t => ⟨lsn, t, str "VOTE_COMMIT", [], [], [], now⟩
  | .voteAbort t => ⟨lsn, t, str "VOTE_ABORT", [], [], [], now⟩

inductive Event (F : FloatText) where
  | call (call : Call) (now : F.Val)
  | reopen

/-- `none` where opening the log raises; a call that raises leaves the log behind. -/
def step (wal : Log) : Event F → Option Log
  | .call call now => some (call.perform wal now).1
  | .reopen => reopen wal.file

/-- The log after these calls, from no file. -/
def run (events : List (Event F)) : Option Log :=
  (reopen none).bind fun wal => events.foldlM step wal

/-- The entries of the calls, numbered from 1 on. -/
def logged (events : List (Event F)) : List (GivenEntry F) :=
  events.foldl (fun entries event =>
    match event with
    | .call call now => entries ++ [call.entry (entries.length + 1) now]
    | .reopen => entries) []

/-- A string that a field can hold and UTF-8 encodes. -/
structure IsField (s : Str) : Prop where
  bar : .scalar '|' ∉ s
  unbroken : ∀ c ∈ s, c ≠ .scalar '\n' ∧ c ≠ .scalar '\r'
  encodable : Encodable s

theorem isField_iff {s : Str} : IsField s ↔ ∀ c ∈ s, c ≠ .scalar '|' ∧
    (c ≠ .scalar '\n' ∧ c ≠ .scalar '\r') ∧ c.isScalar = true := by
  constructor
  · rintro ⟨hbar, hunbroken, hencodable⟩ c hc
    refine ⟨?_, hunbroken c hc, hencodable c hc⟩
    rintro rfl
    exact hbar hc
  · intro h
    exact ⟨fun hbar => (h _ hbar).1 rfl, fun c hc => (h c hc).2.1,
      fun c hc => (h c hc).2.2⟩

theorem isField_str_iff {s : String} :
    IsField (str s) ↔ '|' ∉ s.toList ∧ Unbroken s.toList := by
  have hunbroken : (∀ c ∈ str s, c ≠ .scalar '\n' ∧ c ≠ .scalar '\r') ↔
      Unbroken s.toList := by
    simp only [str, forall_mem_chars, ne_eq, CodePoint.scalar.injEq]
    rfl
  rw [← hunbroken, ← scalar_mem_chars (c := '|')]
  exact ⟨fun h => ⟨h.bar, h.unbroken⟩, fun h => ⟨h.1, h.2, encodable_str s⟩⟩

instance (s : Str) : Decidable (IsField s) :=
  decidable_of_iff (.scalar '|' ∉ s ∧
      (∀ c ∈ s, c ≠ .scalar '\n' ∧ c ≠ .scalar '\r') ∧ Encodable s)
    ⟨fun h => ⟨h.1, h.2.1, h.2.2⟩, fun h => ⟨h.bar, h.unbroken, h.encodable⟩⟩

theorem isField_intercalate {strings : List Str} :
    IsField ((str ",").intercalate strings) ↔ ∀ s ∈ strings, IsField s := by
  simp only [isField_iff]
  exact forall_mem_intercalate (by decide)

def EntryOf.fields {S : Type} (entry : EntryOf S F) : List S :=
  [entry.txnId, entry.entryType, entry.resource, entry.beforeValue, entry.afterValue]

/-- An entry that a line can hold. -/
def EntryOf.Clean (entry : Entry F) : Prop := ∀ s ∈ entry.fields, IsField (str s)

instance (entry : Entry F) : Decidable entry.Clean :=
  inferInstanceAs (Decidable (∀ s ∈ entry.fields, IsField (str s)))

/-- The entry as a caller gives it. -/
def EntryOf.given (entry : Entry F) : GivenEntry F :=
  ⟨entry.lsn, str entry.txnId, str entry.entryType, str entry.resource,
    str entry.beforeValue, str entry.afterValue, entry.timestamp⟩

def EntryOf.text (entry : GivenEntry F) : Entry F :=
  ⟨entry.lsn, textOf entry.txnId, textOf entry.entryType, textOf entry.resource,
    textOf entry.beforeValue, textOf entry.afterValue, entry.timestamp⟩

theorem given_text {entry : GivenEntry F} (h : ∀ s ∈ entry.fields, IsField s) :
    entry.text.given = entry ∧ entry.text.Clean := by
  have hfield (s : Str) (hs : s ∈ entry.fields) : str (textOf s) = s :=
    str_textOf (h s hs).encodable
  have hgiven : entry.text.given = entry := by
    cases entry
    simp only [EntryOf.given, EntryOf.text, EntryOf.mk.injEq, true_and, and_true]
    refine ⟨?_, ?_, ?_, ?_, ?_⟩ <;> exact hfield _ (by simp [EntryOf.fields])
  refine ⟨hgiven, fun s hs => h (str s) ?_⟩
  have hmem : str s ∈ entry.text.given.fields := List.mem_map_of_mem hs
  rwa [hgiven] at hmem

def Call.Clean (call : Call) : Prop := ∀ s ∈ call.strings, IsField s

theorem Call.perform_eq (call : Call) (wal : Log) (now : F.Val) :
    call.perform wal now =
      { wal with nextLsn := wal.nextLsn + 1 }.log (call.entry wal.nextLsn now) := by
  cases call <;> rfl

/-! ## One line -/

/-- The text of the line of an entry. -/
def entryText (entry : Entry F) : List Char :=
  showInt entry.lsn ++ '|' :: (entry.txnId.toList ++ '|' ::
    (entry.entryType.toList ++ '|' :: (entry.resource.toList ++ '|' ::
      (entry.beforeValue.toList ++ '|' :: (entry.afterValue.toList ++ '|' ::
        F.repr entry.timestamp)))))

private theorem serialize_given (entry : Entry F) :
    serialize entry.given = chars (entryText entry) := by
  simp [serialize, EntryOf.given, entryText, str]

theorem log_given (wal : Log) (entry : Entry F) :
    wal.log entry.given =
      ({ wal with
        file := some (wal.file.getD [] ++ utf8 (entryText entry ++ ['\n'])) },
        true) := by
  have hline : serialize entry.given ++ str "\n" = chars (entryText entry ++ ['\n']) := by
    rw [serialize_given, chars_append]
    rfl
  rw [Log.log, hline, encodeText_chars]

theorem unbroken_of_isSpace {s : List Char} (h : ∀ c ∈ s, isSpace c = false) :
    Unbroken s := by
  intro c hc
  have hspace := h c hc
  constructor <;>
  · rintro rfl
    exact absurd hspace (by decide)

theorem unbroken_entryText {entry : Entry F} (h : entry.Clean) :
    Unbroken (entryText entry) := by
  have hbar : Unbroken ['|'] := by decide
  have hlsn : Unbroken (showInt entry.lsn) :=
    unbroken_of_isSpace fun _ hc => isSpace_of_mem_showInt hc
  have htimestamp : Unbroken (F.repr entry.timestamp) :=
    unbroken_of_isSpace (F.isSpace_repr entry.timestamp)
  have hfield (s : String) (hs : s ∈ entry.fields) {rest : List Char}
      (hrest : Unbroken rest) : Unbroken (s.toList ++ '|' :: rest) :=
    (isField_str_iff.mp (h s hs)).2.append (hbar.append hrest)
  apply hlsn.append (hbar.append ?_)
  apply hfield entry.txnId (by simp [EntryOf.fields])
  apply hfield entry.entryType (by simp [EntryOf.fields])
  apply hfield entry.resource (by simp [EntryOf.fields])
  apply hfield entry.beforeValue (by simp [EntryOf.fields])
  exact hfield entry.afterValue (by simp [EntryOf.fields]) htimestamp

theorem split_append_entryText {entry : Entry F} (h : entry.Clean) {p : List Char}
    (hp : '|' ∉ p) : split '|' 6 (p ++ entryText entry) =
      [p ++ showInt entry.lsn, entry.txnId.toList, entry.entryType.toList,
        entry.resource.toList, entry.beforeValue.toList, entry.afterValue.toList,
        F.repr entry.timestamp] := by
  have hlsn : '|' ∉ p ++ showInt entry.lsn := by
    rw [List.mem_append, not_or]
    refine ⟨hp, fun hmem => ?_⟩
    rcases mem_showInt hmem with hdash | hdigit
    · exact absurd hdash (by decide)
    · exact absurd hdigit (by decide)
  have hfields : ∀ field ∈ (p ++ showInt entry.lsn) :: entry.fields.map String.toList,
      '|' ∉ field := by
    rw [List.forall_mem_cons, List.forall_mem_map]
    exact ⟨hlsn, fun s hs => (isField_str_iff.mp (h s hs)).1⟩
  have hsplit := split_flatMap hfields (F.repr entry.timestamp)
  have htext : ((p ++ showInt entry.lsn) ::
      entry.fields.map String.toList).flatMap (· ++ ['|']) ++
        F.repr entry.timestamp = p ++ entryText entry := by
    simp [EntryOf.fields, entryText]
  rw [htext] at hsplit
  exact hsplit

theorem head?_entryText (entry : Entry F) :
    (entryText entry).head? = (showInt entry.lsn).head? := by
  rw [entryText, List.head?_append_of_ne_nil _ (showInt_ne_nil entry.lsn)]

private theorem getLast?_entryText (entry : Entry F) :
    (entryText entry).getLast? = (F.repr entry.timestamp).getLast? := by
  obtain ⟨first, hfirst⟩ : F.repr entry.timestamp <:+ entryText entry := by
    simp only [entryText, ← List.append_assoc, ← List.cons_append]
    exact (List.suffix_cons '|' _).trans (List.suffix_append _ _)
  rw [← hfirst, List.getLast?_append_of_ne_nil _ (F.repr_ne_nil entry.timestamp)]

theorem strip_append_entryText (entry : Entry F) {p : List Char}
    (hp : ∀ c ∈ p.head?, isSpace c = false) :
    strip (p ++ entryText entry) = p ++ entryText entry := by
  apply strip_eq_self
  · intro c hc
    cases p with
    | nil =>
        rw [List.nil_append, head?_entryText] at hc
        exact isSpace_of_mem_showInt (List.mem_of_mem_head? hc)
    | cons c' rest => exact hp c hc
  · intro c hc
    have hne : entryText entry ≠ [] := by simp [entryText]
    rw [List.getLast?_append_of_ne_nil _ hne, getLast?_entryText] at hc
    exact F.isSpace_repr entry.timestamp c (List.mem_of_getLast? hc)

private theorem deserialize_entryText {entry : Entry F} (h : entry.Clean) :
    deserialize (entryText entry ++ ['\n']) = some (some entry) := by
  have hstrip := strip_append_entryText entry (p := []) (by simp)
  have hsplit := split_append_entryText h (p := []) List.not_mem_nil
  rw [List.nil_append] at hstrip hsplit
  rw [deserialize, strip_append_newline, hstrip, hsplit]
  simp [parseInt_showInt, F.parse_repr]

private theorem lastLsn_entryText {entry : Entry F} (h : entry.Clean) (last : Int) :
    lastLsn last (entryText entry ++ ['\n']) = some (max last entry.lsn) := by
  have hstrip := strip_append_entryText entry (p := []) (by simp)
  have hsplit := split_append_entryText h (p := []) List.not_mem_nil
  have hne : entryText entry ≠ [] := by simp [entryText]
  rw [List.nil_append] at hstrip hsplit
  rw [lastLsn, strip_append_newline, hstrip, hsplit]
  simp [hne, parseInt_showInt]

private theorem clean_of_deserialize {line : List Char} {entry : Entry F}
    (hline : Unbroken (strip line)) (h : deserialize line = some (some entry)) :
    entry.Clean := by
  unfold deserialize at h
  split at h
  · next lsn txnId entryType resource before after timestamp hparts =>
    split at h
    · obtain rfl := Option.some.inj (Option.some.inj h)
      have hfield (field : List Char)
          (hmem : field ∈ [lsn, txnId, entryType, resource, before, after]) :
          IsField (str (String.ofList field)) := by
        have hfirst : field ∈ (split '|' 6 (strip line)).dropLast := by
          rw [hparts]
          exact hmem
        have hpiece := infix_of_mem_split (List.mem_of_mem_dropLast hfirst)
        rw [isField_str_iff, String.toList_ofList]
        constructor
        · exact not_mem_of_mem_dropLast_split hfirst
        · exact hline.subset hpiece.subset
      intro s hs
      simp only [EntryOf.fields, List.mem_cons, List.not_mem_nil, or_false] at hs
      rcases hs with rfl | rfl | rfl | rfl | rfl <;> exact hfield _ (by simp)
    · cases h
  · cases h

/-! ## The whole file -/

def text (entries : List (Entry F)) : List Char := unlines (entries.map entryText)

@[simp] theorem text_nil : text ([] : List (Entry F)) = [] := rfl

private theorem text_append (entries entries' : List (Entry F)) :
    text (entries ++ entries') = text entries ++ text entries' := by
  rw [text, List.map_append, unlines_append]
  rfl

theorem lines_text_append {entries : List (Entry F)}
    (h : ∀ entry ∈ entries, entry.Clean) (rest : List Char) :
    lines (text entries ++ rest) =
      (entries.map fun entry => entryText entry ++ ['\n']) ++ lines rest := by
  have hall : ∀ line ∈ entries.map entryText, Unbroken line := by
    rw [List.forall_mem_map]
    exact fun entry hentry => unbroken_entryText (h entry hentry)
  rw [text, lines_unlines_append hall, List.map_map]
  rfl

theorem readAll_getD (file : Option Bytes) :
    readAll (F := F) file = readAll (some (file.getD [])) := by
  cases file with
  | none => rfl
  | some bytes => rfl

private theorem initLsn_getD (file : Option Bytes) :
    initLsn file = initLsn (some (file.getD [])) := by
  cases file with
  | none => decide
  | some bytes => rfl

theorem readAll_utf8 (s : List Char) :
    readAll (F := F) (some (utf8 s)) = collect deserialize (lines s) := by
  rw [readAll, decodeText_utf8]

theorem initLsn_utf8 (s : List Char) :
    initLsn (some (utf8 s)) =
      ((lines s).foldlM lastLsn 0).map (· + 1) := by
  rw [initLsn, decodeText_utf8]

theorem collect_text {entries : List (Entry F)}
    (h : ∀ entry ∈ entries, entry.Clean) :
    collect deserialize (entries.map fun entry => entryText entry ++ ['\n']) =
      some entries := by
  have hline : ∀ entry ∈ entries, deserialize (entryText entry ++ ['\n']) =
      some (some (id entry)) :=
    fun entry hentry => deserialize_entryText (h entry hentry)
  rw [collect_map hline, List.map_id]

def maxLsn (entries : List (Entry F)) : Int :=
  entries.foldl (fun last entry => max last entry.lsn) 0

theorem foldlM_lastLsn {entries : List (Entry F)}
    (h : ∀ entry ∈ entries, entry.Clean) (last : Int) :
    (entries.map fun entry => entryText entry ++ ['\n']).foldlM lastLsn last =
      some (entries.foldl (fun last entry => max last entry.lsn) last) := by
  induction entries generalizing last with
  | nil => rfl
  | cons entry entries ih =>
      obtain ⟨hentry, hentries⟩ := List.forall_mem_cons.mp h
      rw [List.map_cons, List.foldlM_cons, lastLsn_entryText hentry]
      exact ih hentries _

theorem clean_of_readAll {file : Option Bytes} {entries : List (Entry F)}
    (h : readAll file = some entries) : ∀ entry ∈ entries, entry.Clean := by
  intro entry hentry
  cases file with
  | none =>
      obtain rfl := Option.some.inj h
      cases hentry
  | some bytes =>
      rw [readAll] at h
      split at h
      · cases h
      · next text _ =>
        obtain ⟨line, hline, hparse⟩ := exists_line_of_mem h hentry
        exact clean_of_deserialize (unbroken_strip_of_mem_lines hline) hparse

/-! ## Runs -/

/-- The file holds these entries, which are numbered from 1 on. -/
structure Holds (wal : Log) (entries : List (Entry F)) : Prop where
  file : wal.file.getD [] = utf8 (text entries)
  clean : ∀ entry ∈ entries, entry.Clean
  maxLsn : maxLsn entries = entries.length
  nextLsn : wal.nextLsn = entries.length + 1

variable {wal : Log} {entries : List (Entry F)}

theorem Holds.readAll (h : Holds wal entries) : readAll wal.file = some entries := by
  have hlines := lines_text_append h.clean []
  rw [List.append_nil] at hlines
  rw [readAll_getD, h.file, readAll_utf8, hlines]
  rw [lines_nil, List.append_nil, collect_text h.clean]

theorem Holds.reopen (h : Holds wal entries) : reopen wal.file = some wal := by
  have hlines := lines_text_append h.clean []
  rw [List.append_nil, lines_nil, List.append_nil] at hlines
  rw [LogFile.reopen, initLsn_getD, h.file, initLsn_utf8, hlines,
    foldlM_lastLsn h.clean, ← LogFile.maxLsn, h.maxLsn, Option.map_some, Option.map_some,
    ← h.nextLsn]

theorem Call.isField_entry {call : Call} (h : call.Clean) (lsn : Int) (now : F.Val) :
    ∀ s ∈ (call.entry lsn now).fields, IsField s := by
  have hempty : IsField [] := by decide
  cases call with
  | write t resource before after =>
      simp only [entry, EntryOf.fields, List.forall_mem_cons]
      exact ⟨h t (by simp [strings]), by decide, h resource (by simp [strings]),
        h before (by simp [strings]), h after (by simp [strings]), by simp⟩
  | checkpoint active =>
      simp only [entry, EntryOf.fields, List.forall_mem_cons]
      exact ⟨by decide, by decide, hempty, hempty, isField_intercalate.mpr h, by simp⟩
  | _ t =>
      simp only [entry, EntryOf.fields, List.forall_mem_cons]
      exact ⟨h t (by simp [strings]), by decide, hempty, hempty, hempty, by simp⟩

theorem Call.lsn_entry (call : Call) (lsn : Int) (now : F.Val) :
    (call.entry lsn now).lsn = lsn := by
  cases call <;> rfl

theorem Holds.perform (h : Holds wal entries) {call : Call} (hcall : call.Clean)
    (now : F.Val) : ∃ wal', call.perform wal now = (wal', true) ∧
      Holds wal' (entries ++ [(call.entry (entries.length + 1) now).text]) := by
  obtain ⟨hgiven, hclean⟩ := given_text (call.isField_entry hcall wal.nextLsn now)
  have hlsn : (call.entry wal.nextLsn now).text.lsn = wal.nextLsn :=
    call.lsn_entry wal.nextLsn now
  rw [call.perform_eq, ← h.nextLsn, ← hgiven, log_given, hgiven]
  refine ⟨_, rfl, ?_, ?_, ?_, ?_⟩
  · have hline : text [(call.entry wal.nextLsn now).text] =
        entryText (call.entry wal.nextLsn now).text ++ ['\n'] := by
      simp [text, unlines]
    rw [text_append, hline, utf8_append (text entries), ← h.file]
    rfl
  · exact List.forall_mem_append.mpr ⟨h.clean, by simpa using hclean⟩
  · rw [LogFile.maxLsn, List.foldl_append, ← LogFile.maxLsn, h.maxLsn,
      List.foldl_cons, List.foldl_nil, hlsn, h.nextLsn, List.length_append,
      List.length_singleton]
    omega
  · have hlength : ((entries ++ [(call.entry wal.nextLsn now).text]).length : Int) =
        entries.length + 1 := by simp
    rw [hlength, ← h.nextLsn]

theorem holds_new : Holds (F := F) ⟨none, 1⟩ [] := by
  refine ⟨rfl, ?_, rfl, rfl⟩
  simp

theorem logged_concat (events : List (Event F)) (event : Event F) :
    logged (events ++ [event]) =
      match event with
      | .call call now =>
          logged events ++ [call.entry ((logged events).length + 1) now]
      | .reopen => logged events := by
  rw [logged, List.foldl_append]
  rfl

theorem run_concat (events : List (Event F)) (event : Event F) :
    run (events ++ [event]) = (run events).bind fun wal => step wal event := by
  rw [run, run]
  cases LogFile.reopen none with
  | none => rfl
  | some wal => simp [List.foldlM_append]

theorem lsn_logged (events : List (Event F)) :
    (logged events).map EntryOf.lsn =
      (List.range (logged events).length).map fun n => (n + 1 : Int) := by
  induction events using List.reverseRecOn with
  | nil => rfl
  | append_singleton events event ih =>
      rw [logged_concat]
      cases event with
      | reopen => exact ih
      | call call now => simp [List.range_succ, ih, call.lsn_entry]

theorem holds_logged {events : List (Event F)}
    (h : ∀ call now, Event.call call now ∈ events → call.Clean) :
    ∃ wal, run events = some wal ∧ Holds wal ((logged events).map EntryOf.text) ∧
      ((logged events).map EntryOf.text).map EntryOf.given = logged events := by
  induction events using List.reverseRecOn with
  | nil =>
      have hreopen := (holds_new (F := F)).reopen
      exact ⟨⟨none, 1⟩, by rw [run, hreopen]; rfl, holds_new, rfl⟩
  | append_singleton events event ih =>
      obtain ⟨wal, hrun, hholds, hgiven⟩ :=
        ih fun call now hmem => h call now (List.mem_append_left _ hmem)
      rw [run_concat, hrun, Option.bind_some, logged_concat]
      cases event with
      | reopen => exact ⟨wal, hholds.reopen, hholds, hgiven⟩
      | call call now =>
          have hcall := h call now (by simp)
          obtain ⟨wal', hperform, hholds'⟩ := hholds.perform hcall now
          rw [List.length_map] at hholds'
          refine ⟨wal', by rw [step, hperform], by simpa using hholds', ?_⟩
          rw [List.map_append, List.map_append, hgiven, List.map_singleton,
            List.map_singleton, (given_text (call.isField_entry hcall _ now)).1]

private theorem Call.clean_of_isField_entry {call : Call} {lsn : Int} {now : F.Val}
    (h : ∀ s ∈ (call.entry lsn now).fields, IsField s) : call.Clean := by
  intro s hs
  cases call with
  | checkpoint active =>
      have hjoined := h ((str ",").intercalate active) (by simp [entry, EntryOf.fields])
      exact isField_intercalate.mp hjoined s hs
  | write t resource before after =>
      apply h s
      simp only [strings, List.mem_cons, List.not_mem_nil, or_false] at hs
      rcases hs with rfl | rfl | rfl | rfl <;> simp [entry, EntryOf.fields]
  | _ =>
      obtain rfl := List.mem_singleton.mp hs
      exact h s (by simp [entry, EntryOf.fields])

private theorem exists_entry_mem_logged {events : List (Event F)} {call : Call} {now : F.Val}
    (h : Event.call call now ∈ events) :
    ∃ lsn, call.entry lsn now ∈ logged events := by
  induction events using List.reverseRecOn with
  | nil => cases h
  | append_singleton events event ih =>
      rw [logged_concat]
      rcases List.mem_append.mp h with hmem | hmem
      · obtain ⟨lsn, hlsn⟩ := ih hmem
        refine ⟨lsn, ?_⟩
        cases event with
        | reopen => exact hlsn
        | call call' now' => exact List.mem_append_left _ hlsn
      · obtain rfl := List.mem_singleton.mp hmem
        exact ⟨_, List.mem_append_right _ List.mem_cons_self⟩

/-- What is read is what was logged exactly when no string of a call has a bar, a line
break or a surrogate in it. -/
theorem readAll_eq_logged_iff (events : List (Event F)) :
    (∃ wal entries, run events = some wal ∧ readAll wal.file = some entries ∧
        entries.map EntryOf.given = logged events) ↔
      ∀ call now, Event.call call now ∈ events → call.Clean := by
  constructor
  · rintro ⟨wal, entries, -, hread, hgiven⟩ call now hmem
    obtain ⟨lsn, hentry⟩ := exists_entry_mem_logged hmem
    rw [← hgiven] at hentry
    obtain ⟨entry, hin, heq⟩ := List.mem_map.mp hentry
    have hfield : ∀ field ∈ (call.entry lsn now).fields, IsField field := by
      rw [← heq]
      exact List.forall_mem_map.mpr (clean_of_readAll hread entry hin)
    exact Call.clean_of_isField_entry hfield
  · intro h
    obtain ⟨wal, hrun, hholds, hgiven⟩ := holds_logged h
    exact ⟨wal, _, hrun, hholds.readAll, hgiven⟩

def barValue : List (Event wholeSeconds) :=
  [.call (.write (str "t1") (str "a:k") [] (str "x|y")) (5 : Nat)]

/-- A bar in a written value stops the reading of the whole log. -/
theorem bar_value_stops_reading :
    ¬ ∃ wal entries, run barValue = some wal ∧
      readAll (F := wholeSeconds) wal.file = some entries ∧
      entries.map EntryOf.given = logged barValue := by
  have hrun : run barValue =
      some ⟨some (utf8 "1|t1|WRITE|a:k||x|y|5.0\n".toList), 2⟩ := by decide
  have hread : deserialize (F := wholeSeconds) "1|t1|WRITE|a:k||x|y|5.0\n".toList =
      none := rfl
  rintro ⟨wal, entries, hwal, hreads, -⟩
  obtain rfl := Option.some.inj (hrun.symm.trans hwal)
  rw [readAll_utf8] at hreads
  have hlines : lines "1|t1|WRITE|a:k||x|y|5.0\n".toList =
      ["1|t1|WRITE|a:k||x|y|5.0\n".toList] := by decide
  rw [hlines, collect, hread] at hreads
  cases hreads

/-! ## The log of records -/

def typeName : EntryType → String
  | .begin => "BEGIN"
  | .write => "WRITE"
  | .commit => "COMMIT"
  | .abort => "ABORT"
  | .checkpoint => "CHECKPOINT"
  | .prepare => "PREPARE"
  | .voteCommit => "VOTE_COMMIT"
  | .voteAbort => "VOTE_ABORT"
  | .globalCommit => "GLOBAL_COMMIT"
  | .globalAbort => "GLOBAL_ABORT"

def plain (e : LogEntry) : Int × List String :=
  (e.lsn, [e.txnId, typeName e.entryType, e.resource, e.beforeValue, e.afterValue])

def EntryOf.plain (entry : Entry F) : Int × List String := (entry.lsn, entry.fields)

def Call.onRecords (log : WriteAheadLog) : Call → WriteAheadLog
  | .begin t => log.logBegin (textOf t)
  | .write t resource before after =>
      log.logWrite (textOf t) (textOf resource) (textOf before) (textOf after)
  | .commit t => log.logCommit (textOf t)
  | .abort t => log.logAbort (textOf t)
  | .checkpoint active => log.logCheckpoint (active.map textOf)
  | .prepare t => log.logPrepare (textOf t)
  | .globalCommit t => log.logGlobalCommit (textOf t)
  | .globalAbort t => log.logGlobalAbort (textOf t)
  | .voteCommit t => log.logVoteCommit (textOf t)
  | .voteAbort t => log.logVoteAbort (textOf t)

def Event.onRecords (log : WriteAheadLog) : Event F → WriteAheadLog
  | .call c _ => c.onRecords log
  | .reopen => .reopen log.entries

structure Agrees (log : WriteAheadLog) (entries : List (Entry F)) : Prop where
  entries : entries.map EntryOf.plain = log.entries.map plain
  nextLsn : log.nextLsn = log.entries.length + 1
  initLsn : WriteAheadLog.initLsn log.entries = log.entries.length + 1

variable {log : WriteAheadLog}

private theorem str_intercalate (strings : List String) :
    str (",".intercalate strings) = (str ",").intercalate (strings.map str) := by
  rw [str, String.toList_intercalate, chars, map_intercalate, List.map_map]
  rfl

private theorem textOf_intercalate {active : List Str} (h : ∀ s ∈ active, Encodable s) :
    textOf ((str ",").intercalate active) = ",".intercalate (active.map textOf) := by
  have hactive : active = (active.map textOf).map str := by
    rw [List.map_map]
    exact (List.map_id' active).symm.trans
      (List.map_congr_left fun s hs => (str_textOf (h s hs)).symm)
  conv_lhs => rw [hactive, ← str_intercalate, textOf_str]

theorem Agrees.call (h : Agrees log entries) {call : Call} (hcall : call.Clean)
    (now : F.Val) : Agrees (call.onRecords log)
      (entries ++ [(call.entry (entries.length + 1) now).text]) := by
  have hlength : entries.length = log.entries.length := by
    simpa using congrArg List.length h.entries
  obtain ⟨record, honto, hlsn, hplain⟩ : ∃ record : LogEntry,
      call.onRecords log = ⟨log.entries ++ [record], log.nextLsn + 1⟩ ∧
        record.lsn = log.nextLsn ∧
        (call.entry (F := F) (entries.length + 1) now).text.plain = plain record := by
    rw [hlength]
    cases call with
    | checkpoint active =>
        have hactive : textOf ((str ",").intercalate active) =
            ",".intercalate (active.map textOf) :=
          textOf_intercalate fun s hs => (hcall s hs).encodable
        exact ⟨_, rfl, rfl, by simp [Call.entry, EntryOf.text, EntryOf.plain,
          EntryOf.fields, plain, typeName, h.nextLsn, hactive]⟩
    | _ =>
      exact ⟨_, rfl, rfl, by simp [Call.entry, EntryOf.text, EntryOf.plain,
        EntryOf.fields, plain, typeName, h.nextLsn]⟩
  have hinit := h.initLsn
  rw [WriteAheadLog.initLsn] at hinit
  rw [honto]
  refine ⟨?_, ?_, ?_⟩ <;> dsimp only
  · simp only [List.map_append, List.map_cons, List.map_nil, h.entries, hplain]
  · rw [List.length_append, List.length_singleton, h.nextLsn]
  · rw [WriteAheadLog.initLsn, List.foldl_append, List.length_append,
      List.length_singleton, List.foldl_cons, List.foldl_nil, hlsn, h.nextLsn]
    omega

private theorem agrees_logged {events : List (Event F)}
    (h : ∀ call now, Event.call call now ∈ events → call.Clean) :
    Agrees (events.foldl Event.onRecords .new) ((logged events).map EntryOf.text) := by
  induction events using List.reverseRecOn with
  | nil => exact ⟨rfl, rfl, rfl⟩
  | append_singleton events event ih =>
      have hagrees := ih fun call now hmem => h call now (List.mem_append_left _ hmem)
      rw [List.foldl_append, List.foldl_cons, List.foldl_nil, logged_concat]
      cases event with
      | reopen => exact ⟨hagrees.entries, hagrees.initLsn, hagrees.initLsn⟩
      | call call now =>
          have hagrees' := hagrees.call (h call now (by simp)) now
          rw [List.length_map] at hagrees'
          rw [List.map_append, List.map_singleton]
          exact hagrees'

theorem file_refines_records {events : List (Event F)}
    (h : ∀ call now, Event.call call now ∈ events → call.Clean) :
    ∃ wal entries, run events = some wal ∧
      readAll (F := F) wal.file = some entries ∧
      entries.map EntryOf.plain =
        (events.foldl Event.onRecords .new).entries.map plain ∧
      wal.nextLsn = (events.foldl Event.onRecords .new).nextLsn := by
  obtain ⟨wal, hrun, hholds, -⟩ := holds_logged h
  have hagrees := agrees_logged h
  refine ⟨wal, _, hrun, hholds.readAll, hagrees.entries, ?_⟩
  have hlength : ((logged events).map EntryOf.text).length =
      (events.foldl Event.onRecords WriteAheadLog.new).entries.length := by
    simpa using congrArg List.length hagrees.entries
  rw [hholds.nextLsn, hagrees.nextLsn, hlength]
  rfl

end DistributedMemory.Recovery.LogFile
