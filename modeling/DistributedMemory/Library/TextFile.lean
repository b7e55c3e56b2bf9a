import DistributedMemory.Library.Framing
import DistributedMemory.Library.Text

/-!
# Text files

A text file is the UTF-8 bytes of its text.  Bytes that end inside a character do
not decode, and a piece of a file that decodes is the encoding of a piece of its
text.

A string of Python is more than a text: it may hold surrogates, which no file gives
and which UTF-8 does not encode.
-/

namespace DistributedMemory.Library.Text

open Framing (Bytes)

/-- The bytes of a text. -/
def utf8 (s : List Char) : Bytes := s.flatMap String.utf8EncodeChar

/-- `bytes.decode("utf-8")`; `none` where it raises. -/
def decodeText (bytes : Bytes) : Option (List Char) :=
  bytes.toByteArray.utf8Decode?.map Array.toList

@[simp] theorem utf8_nil : utf8 [] = [] := rfl

@[simp] theorem utf8_append (s t : List Char) :
    utf8 (s ++ t) = utf8 s ++ utf8 t :=
  List.flatMap_append

theorem toByteArray_utf8 (s : List Char) :
    (utf8 s).toByteArray = s.utf8Encode := rfl

@[simp] theorem decodeText_utf8 (s : List Char) :
    decodeText (utf8 s) = some s := by
  rw [decodeText, toByteArray_utf8, List.utf8Decode?_utf8Encode]
  rfl

theorem eq_utf8_of_decodeText {bytes : Bytes} {s : List Char}
    (h : decodeText bytes = some s) : bytes = utf8 s := by
  obtain ⟨chars, hchars, rfl⟩ := Option.map_eq_some_iff.mp h
  have hsome : bytes.toByteArray.utf8Decode?.isSome := by
    rw [hchars]
    rfl
  have hencode := ByteArray.utf8Encode_get_utf8Decode? (h := hsome)
  simp only [hchars, Option.get_some, ← toByteArray_utf8] at hencode
  exact (List.toByteArray_inj.mp hencode).symm

theorem prefix_of_utf8 {s t : List Char}
    (h : utf8 s <+: utf8 t) : s <+: t := by
  obtain ⟨rest, hrest⟩ := h
  apply List.isPrefix_of_utf8Encode_append_eq_utf8Encode rest.toByteArray
  rw [← toByteArray_utf8, ← toByteArray_utf8, ← hrest,
    List.toByteArray_append]

theorem decodeText_append_eq_some {s t u : List Char} {p : Bytes}
    (hp : p <+: utf8 t) (h : decodeText (utf8 s ++ p) = some u) :
    ∃ q, q <+: t ∧ p = utf8 q ∧ u = s ++ q := by
  have hu := eq_utf8_of_decodeText h
  have hsu : s <+: u :=
    prefix_of_utf8 (hu ▸ List.prefix_append (utf8 s) p)
  obtain ⟨q, rfl⟩ := hsu
  rw [utf8_append, List.append_cancel_left_eq] at hu
  refine ⟨q, ?_, hu, rfl⟩
  exact prefix_of_utf8 (hu ▸ hp)

/-! ## Strings -/

/-- A code point: a character, or the surrogate U+D800 + `n`. -/
inductive CodePoint where
  | scalar (c : Char)
  | surrogate (n : Fin 2048)
  deriving DecidableEq, Repr

namespace CodePoint

def isScalar : CodePoint → Bool
  | scalar _ => true
  | surrogate _ => false

def isSpace : CodePoint → Bool
  | scalar c => Text.isSpace c
  | surrogate _ => false

theorem scalar_injective : Function.Injective scalar := fun _ _ h => scalar.inj h

end CodePoint

/-- `str` -/
abbrev Str := List CodePoint

def chars (s : List Char) : Str := s.map .scalar

def str (s : String) : Str := chars s.toList

/-- A string without surrogates. -/
def Encodable (s : Str) : Prop := ∀ c ∈ s, c.isScalar = true

instance (s : Str) : Decidable (Encodable s) := List.decidableBAll _ s

/-- The text of a string; `none` where there is a surrogate in it. -/
def text? : Str → Option (List Char)
  | [] => some []
  | .scalar c :: rest => (text? rest).map (c :: ·)
  | .surrogate _ :: _ => none

def textOf (s : Str) : String := String.ofList ((text? s).getD [])

/-- `s.encode("utf-8")`; `none` where it raises. -/
def encodeText (s : Str) : Option Bytes := (text? s).map utf8

/-- The loop `f.write(line + "\n")` on a new file: what comes to be in the file, and
whether no call raises. -/
def writeLines : List Str → Bytes × Bool
  | [] => ([], true)
  | line :: rest =>
      match encodeText (line ++ str "\n") with
      | none => ([], false)
      | some bytes => (bytes ++ (writeLines rest).1, (writeLines rest).2)

@[simp] theorem chars_nil : chars [] = [] := rfl

@[simp] theorem chars_cons (c : Char) (s : List Char) :
    chars (c :: s) = .scalar c :: chars s := rfl

@[simp] theorem chars_append (s t : List Char) : chars (s ++ t) = chars s ++ chars t :=
  List.map_append

private theorem chars_injective : Function.Injective chars :=
  List.map_injective_iff.mpr CodePoint.scalar_injective

@[simp] theorem chars_inj {s t : List Char} : chars s = chars t ↔ s = t :=
  chars_injective.eq_iff

@[simp] theorem str_inj {s t : String} : str s = str t ↔ s = t := by
  rw [str, str, chars_inj, String.toList_inj]

@[simp] theorem scalar_mem_chars {c : Char} {s : List Char} :
    CodePoint.scalar c ∈ chars s ↔ c ∈ s :=
  List.mem_map_of_injective CodePoint.scalar_injective

theorem forall_mem_chars {P : CodePoint → Prop} {s : List Char} :
    (∀ c ∈ chars s, P c) ↔ ∀ c ∈ s, P (.scalar c) :=
  List.forall_mem_map

theorem encodable_chars (s : List Char) : Encodable (chars s) :=
  forall_mem_chars.mpr fun _ _ => rfl

theorem encodable_str (s : String) : Encodable (str s) := encodable_chars s.toList

theorem Encodable.exists_chars {s : Str} (h : Encodable s) : ∃ t, s = chars t := by
  induction s with
  | nil => exact ⟨[], rfl⟩
  | cons c s ih =>
      obtain ⟨hc, hs⟩ := List.forall_mem_cons.mp h
      obtain ⟨t, rfl⟩ := ih hs
      cases c with
      | scalar c => exact ⟨c :: t, rfl⟩
      | surrogate n => cases hc

theorem Encodable.exists_str {s : Str} (h : Encodable s) : ∃ t, s = str t := by
  obtain ⟨t, rfl⟩ := h.exists_chars
  exact ⟨String.ofList t, by rw [str, String.toList_ofList]⟩

@[simp] theorem text?_chars (s : List Char) : text? (chars s) = some s := by
  induction s with
  | nil => rfl
  | cons c s ih => rw [chars_cons, text?, ih, Option.map_some]

@[simp] theorem textOf_str (s : String) : textOf (str s) = s := by
  rw [textOf, str, text?_chars, Option.getD_some, String.ofList_toList]

@[simp] theorem textOf_nil : textOf [] = "" := rfl

theorem str_textOf {s : Str} (h : Encodable s) : str (textOf s) = s := by
  obtain ⟨t, rfl⟩ := h.exists_str
  rw [textOf_str]

@[simp] theorem encodeText_chars (s : List Char) :
    encodeText (chars s) = some (utf8 s) := by
  rw [encodeText, text?_chars, Option.map_some]

theorem writeLines_chars (ls : List (List Char)) :
    writeLines (ls.map chars) = (utf8 (unlines ls), true) := by
  induction ls with
  | nil => rfl
  | cons line ls ih =>
      have hline : chars line ++ str "\n" = chars (line ++ ['\n']) :=
        (chars_append _ _).symm
      rw [List.map_cons, writeLines, hline, encodeText_chars]
      dsimp only
      rw [ih, ← utf8_append]
      rfl

end DistributedMemory.Library.Text
