import DistributedMemory.Library.Text
import Mathlib.Algebra.Group.Nat.Defs
import Mathlib.Data.Int.Notation
import Mathlib.Data.List.Induction

/-!
# Numbers as text

`str` of an integer writes decimal digits with a sign in front of a negative one.
`int` of a text takes more than that: white space around, a plus sign, leading
zeros, single underscores between digits, and the decimal digits of any script.
There is no limit on the number of digits.

Of floating point numbers only their text is needed: `FloatText` is what `repr` and
`float` promise, for any type of values.
-/

namespace DistributedMemory.Library.Text

/-- The zeros of the scripts that have decimal digits; the other nine follow. -/
def scriptZeros : List Nat :=
  [0x30, 0x660, 0x6F0, 0x7C0, 0x966, 0x9E6, 0xA66, 0xAE6, 0xB66, 0xBE6, 0xC66,
    0xCE6, 0xD66, 0xDE6, 0xE50, 0xED0, 0xF20, 0x1040, 0x1090, 0x17E0, 0x1810,
    0x1946, 0x19D0, 0x1A80, 0x1A90, 0x1B50, 0x1BB0, 0x1C40, 0x1C50, 0xA620, 0xA8D0,
    0xA900, 0xA9D0, 0xA9F0, 0xAA50, 0xABF0, 0xFF10, 0x104A0, 0x10D30, 0x11066,
    0x110F0, 0x11136, 0x111D0, 0x112F0, 0x11450, 0x114D0, 0x11650, 0x116C0, 0x11730,
    0x118E0, 0x11950, 0x11C50, 0x11D50, 0x11DA0, 0x16A60, 0x16AC0, 0x16B50, 0x1D7CE,
    0x1D7D8, 0x1D7E2, 0x1D7EC, 0x1D7F6, 0x1E140, 0x1E2F0, 0x1E950, 0x1FBF0]

/-- `unicodedata.decimal` -/
def digitValue (c : Char) : Option Nat :=
  (scriptZeros.find? fun first => first ≤ c.toNat ∧ c.toNat < first + 10).map
    fun first => c.toNat - first

/-- The digits that are no decimals, such as superscripts, as ranges. -/
def otherDigits : List (Nat × Nat) :=
  [(0xB2, 0xB3), (0xB9, 0xB9), (0x1369, 0x1371), (0x19DA, 0x19DA), (0x2070, 0x2070),
    (0x2074, 0x2079), (0x2080, 0x2089), (0x2460, 0x2468), (0x2474, 0x247C),
    (0x2488, 0x2490), (0x24EA, 0x24EA), (0x24F5, 0x24FD), (0x24FF, 0x24FF),
    (0x2776, 0x277E), (0x2780, 0x2788), (0x278A, 0x2792), (0x10A40, 0x10A43),
    (0x10E60, 0x10E68), (0x11052, 0x1105A), (0x1F100, 0x1F10A)]

def isDigitChar (c : Char) : Bool :=
  (digitValue c).isSome ||
    otherDigits.any fun range => range.1 ≤ c.toNat && c.toNat ≤ range.2

def isDigit (s : List Char) : Bool := s ≠ [] && s.all isDigitChar

/-- White space that `int` skips: below 128 it does not take the separators
`\x1c` to `\x1f` for white space. -/
def isNumeralSpace (c : Char) : Bool :=
  isSpace c && (c.toNat ≤ 13 || 32 ≤ c.toNat)

/-- Digits with single underscores between them, read on from `value`.  `digit` is
whether the character before was a digit. -/
def readDigits (value : Nat) : Bool → List Char → Option Nat
  | digit, [] => if digit then some value else none
  | digit, c :: rest =>
      if c = '_' then if digit then readDigits value false rest else none
      else
        match digitValue c with
        | none => none
        | some d => readDigits (10 * value + d) true rest

def readSigned : List Char → Option Int
  | '-' :: digits => (readDigits 0 false digits).map fun n : Nat => -(n : Int)
  | '+' :: digits => (readDigits 0 false digits).map Int.ofNat
  | digits => (readDigits 0 false digits).map Int.ofNat

/-- `int(s)`; `none` where it raises. -/
def parseInt (s : List Char) : Option Int :=
  readSigned ((s.dropWhile isNumeralSpace).rdropWhile isNumeralSpace)

/-- `str(n)` of a natural number -/
def showNat (n : Nat) : List Char := Nat.toDigits 10 n

/-- `str(n)` -/
def showInt : Int → List Char
  | .ofNat n => showNat n
  | .negSucc n => '-' :: showNat (n + 1)

theorem isDigit_of_mem_showNat {n : Nat} {c : Char} (h : c ∈ showNat n) :
    c.isDigit = true :=
  Nat.isDigit_of_mem_toDigits (by decide) (by decide) h

theorem digitValue_of_isDigit {c : Char} (h : c.isDigit = true) :
    digitValue c = some (c.toNat - '0'.toNat) := by
  have hrange : 48 ≤ c.toNat ∧ c.toNat ≤ 57 := by
    simp only [Char.isDigit, Bool.and_eq_true, decide_eq_true_eq] at h
    exact h
  have hfirst : (scriptZeros.find? fun first =>
      first ≤ c.toNat ∧ c.toNat < first + 10) = some 0x30 := by
    rw [scriptZeros, List.find?_cons_of_pos]
    simp only [decide_eq_true_eq]
    omega
  rw [digitValue, hfirst]
  rfl

theorem ne_of_isDigit {c d : Char} (hc : c.isDigit = true)
    (hd : d.isDigit = false) : c ≠ d := by
  rintro rfl
  rw [hc] at hd
  cases hd

theorem isSpace_of_isDigit {c : Char} (h : c.isDigit = true) :
    isSpace c = false := by
  have hrange : 48 ≤ c.toNat ∧ c.toNat ≤ 57 := by
    simp only [Char.isDigit, Bool.and_eq_true, decide_eq_true_eq] at h
    exact h
  simp only [isSpace, Bool.or_eq_false_iff, Bool.and_eq_false_iff,
    decide_eq_false_iff_not]
  omega

section Digits

variable {s : List Char} (h : ∀ c ∈ s, c.isDigit = true)

include h

private theorem readDigits_true (value : Nat) :
    readDigits value true s = some (Nat.ofDigitChars 10 s value) := by
  induction s generalizing value with
  | nil => simp [readDigits]
  | cons c s ih =>
      obtain ⟨hc, hs⟩ := List.forall_mem_cons.mp h
      rw [readDigits, if_neg (ne_of_isDigit hc (by decide)),
        digitValue_of_isDigit hc]
      simp only [ih hs, Nat.ofDigitChars_cons]

theorem readDigits_false (hne : s ≠ []) (value : Nat) :
    readDigits value false s = some (Nat.ofDigitChars 10 s value) := by
  obtain ⟨c, rest, rfl⟩ := List.exists_cons_of_ne_nil hne
  obtain ⟨hc, hrest⟩ := List.forall_mem_cons.mp h
  rw [readDigits, if_neg (ne_of_isDigit hc (by decide)), digitValue_of_isDigit hc]
  simp only [readDigits_true hrest, Nat.ofDigitChars_cons]

theorem readDigits_dash (value : Nat) (digit : Bool) (rest : List Char) :
    readDigits value digit (s ++ '-' :: rest) = none := by
  induction s generalizing value digit with
  | nil =>
      have hdash : digitValue '-' = none := by decide
      rw [List.nil_append, readDigits, if_neg (by decide), hdash]
  | cons c s ih =>
      obtain ⟨hc, hs⟩ := List.forall_mem_cons.mp h
      rw [List.cons_append, readDigits, if_neg (ne_of_isDigit hc (by decide)),
        digitValue_of_isDigit hc]
      exact ih hs _ _

theorem readSigned_digits (hne : s ≠ []) (rest : List Char) :
    readSigned (s ++ rest) =
      (readDigits 0 false (s ++ rest)).map Int.ofNat := by
  obtain ⟨c, s, rfl⟩ := List.exists_cons_of_ne_nil hne
  have hc := (List.forall_mem_cons.mp h).1
  rw [List.cons_append, readSigned]
  · exact fun _ heq => ne_of_isDigit hc (by decide) (List.cons.inj heq).1
  · exact fun _ heq => ne_of_isDigit hc (by decide) (List.cons.inj heq).1

end Digits

theorem parseInt_eq_readSigned {s : List Char} (h : ∀ c ∈ s, isSpace c = false) :
    parseInt s = readSigned s := by
  have hnumeral : ∀ c ∈ s, ¬ isNumeralSpace c = true := by
    intro c hc
    simp [isNumeralSpace, h c hc]
  have hdrop : s.dropWhile isNumeralSpace = s := by
    cases s with
    | nil => rfl
    | cons c s => exact List.dropWhile_cons_of_neg (hnumeral c (by simp))
  have hrdrop : s.rdropWhile isNumeralSpace = s := by
    rw [List.rdropWhile_eq_self_iff]
    exact fun hne => hnumeral _ (List.getLast_mem hne)
  rw [parseInt, hdrop, hrdrop]

theorem mem_showInt {n : Int} {c : Char} (h : c ∈ showInt n) :
    c = '-' ∨ c.isDigit = true := by
  cases n with
  | ofNat n => exact .inr (isDigit_of_mem_showNat h)
  | negSucc n =>
      rcases List.mem_cons.mp h with rfl | h
      · exact .inl rfl
      · exact .inr (isDigit_of_mem_showNat h)

theorem isSpace_of_mem_showInt {n : Int} {c : Char} (h : c ∈ showInt n) :
    isSpace c = false := by
  rcases mem_showInt h with rfl | h
  · decide
  · exact isSpace_of_isDigit h

theorem showNat_ne_nil (n : Nat) : showNat n ≠ [] := Nat.toDigits_ne_nil

theorem showInt_ne_nil (n : Int) : showInt n ≠ [] := by
  cases n with
  | ofNat n => exact showNat_ne_nil n
  | negSucc n => exact List.cons_ne_nil _ _

theorem ofDigitChars_showNat (n : Nat) : Nat.ofDigitChars 10 (showNat n) 0 = n :=
  Nat.ofDigitChars_ten_toDigits

theorem parseInt_showInt (n : Int) : parseInt (showInt n) = some n := by
  rw [parseInt_eq_readSigned fun c hc => isSpace_of_mem_showInt hc]
  cases n with
  | ofNat n =>
      have hdigits : ∀ c ∈ showNat n, c.isDigit = true :=
        fun c hc => isDigit_of_mem_showNat hc
      have hsigned := readSigned_digits hdigits (showNat_ne_nil n) []
      rw [List.append_nil, readDigits_false hdigits (showNat_ne_nil n),
        ofDigitChars_showNat] at hsigned
      exact hsigned
  | negSucc n =>
      have hdigits : ∀ c ∈ showNat (n + 1), c.isDigit = true :=
        fun c hc => isDigit_of_mem_showNat hc
      rw [showInt, readSigned, readDigits_false hdigits (showNat_ne_nil _),
        ofDigitChars_showNat]
      rfl

theorem isDigit_showNat (n : Nat) : isDigit (showNat n) = true := by
  have hall : ∀ c ∈ showNat n, isDigitChar c = true := fun c hc => by
    simp [isDigitChar, digitValue_of_isDigit (isDigit_of_mem_showNat hc)]
  simpa [isDigit, showNat_ne_nil] using hall

private theorem ofDigitChars_lt {s : List Char} (h : ∀ c ∈ s, c.isDigit = true) :
    Nat.ofDigitChars 10 s 0 < 10 ^ s.length := by
  induction s using List.reverseRecOn with
  | nil => simp
  | append_singleton s c ih =>
      obtain ⟨hs, hc⟩ := List.forall_mem_append.mp h
      have hlt := ih hs
      have hdigit := hc c (by simp)
      have hrange : c.toNat ≤ 57 := by
        simp only [Char.isDigit, Bool.and_eq_true, decide_eq_true_eq] at hdigit
        exact hdigit.2
      have hzero : '0'.toNat = 48 := rfl
      rw [Nat.ofDigitChars_append, Nat.ofDigitChars_cons, Nat.ofDigitChars_nil,
        List.length_append, List.length_singleton, Nat.pow_succ, hzero]
      omega

theorem ofDigitChars_pos {n : Nat} (hn : 0 < n) {p : List Char}
    (hp : p <+: showNat n) (hne : p ≠ []) : 0 < Nat.ofDigitChars 10 p 0 := by
  obtain ⟨q, hq⟩ := hp
  have hvalue := ofDigitChars_showNat n
  rw [← hq, Nat.ofDigitChars_append, Nat.ofDigitChars_eq_ofDigitChars_zero] at hvalue
  rw [Nat.pos_iff_ne_zero]
  intro hzero
  rw [hzero, Nat.mul_zero, Nat.zero_add] at hvalue
  have hlength : (showNat n).length = p.length + q.length := by
    rw [← hq, List.length_append]
  have hp : 0 < p.length := List.length_pos_iff.mpr hne
  rcases Nat.eq_zero_or_pos q.length with hnil | hpos
  · rw [List.length_eq_zero_iff.mp hnil, Nat.ofDigitChars_nil] at hvalue
    omega
  · have hlt : n < 10 ^ q.length := by
      rw [← hvalue]
      apply ofDigitChars_lt
      intro c hc
      exact isDigit_of_mem_showNat (n := n) (hq ▸ List.mem_append_right p hc)
    have hle := (Nat.length_toDigits_le_iff (by decide) hpos).mpr hlt
    rw [← showNat, hlength] at hle
    omega

theorem ofDigitChars_append_showNat (p : List Char) (n : Nat) :
    Nat.ofDigitChars 10 (p ++ showNat n) 0 =
      10 ^ (showNat n).length * Nat.ofDigitChars 10 p 0 + n := by
  rw [Nat.ofDigitChars_append, Nat.ofDigitChars_eq_ofDigitChars_zero,
    ofDigitChars_showNat]

/-- Digits of a number in front of another one are zero when they change nothing. -/
theorem ofDigitChars_append_eq_iff {p : List Char} {k n : Nat} (hp : p <+: showNat k)
    (hne : p ≠ []) :
    Nat.ofDigitChars 10 (p ++ showNat n) 0 = n ↔ p = ['0'] := by
  rw [ofDigitChars_append_showNat]
  constructor
  · intro heq
    have hpow : 0 < 10 ^ (showNat n).length := Nat.pow_pos (by decide)
    have hzero : Nat.ofDigitChars 10 p 0 = 0 := by
      have hmul : 10 ^ (showNat n).length * Nat.ofDigitChars 10 p 0 = 0 := by omega
      exact (Nat.mul_eq_zero.mp hmul).resolve_left (by omega)
    rcases Nat.eq_zero_or_pos k with rfl | hk
    · have hone : showNat 0 = ['0'] := Nat.toDigits_zero 10
      rw [hone] at hp
      have hlength := hp.length_le
      have hp' : 0 < p.length := List.length_pos_iff.mpr hne
      exact hp.eq_of_length (by simp only [List.length_singleton] at *; omega)
    · have := ofDigitChars_pos hk hp hne
      omega
  · rintro rfl
    have hzero : Nat.ofDigitChars 10 ['0'] 0 = 0 := by decide
    rw [hzero, Nat.mul_zero, Nat.zero_add]

theorem forall_isDigit_append_showNat {p : List Char}
    (hp : ∀ c ∈ p, c.isDigit = true) (n : Nat) :
    ∀ c ∈ p ++ showNat n, c.isDigit = true :=
  List.forall_mem_append.mpr ⟨hp, fun _ hc => isDigit_of_mem_showNat hc⟩

private theorem readSigned_digits_append_iff {p : List Char} {k : Nat} (hp : p <+: showNat k)
    (hne : p ≠ []) (m : Int) :
    readSigned (p ++ showInt m) = some m ↔ p = ['0'] ∧ 0 ≤ m := by
  have hdigits : ∀ c ∈ p, c.isDigit = true :=
    fun c hc => isDigit_of_mem_showNat (hp.subset hc)
  rw [readSigned_digits hdigits hne]
  cases m with
  | ofNat n =>
      have hall := forall_isDigit_append_showNat hdigits n
      rw [showInt, readDigits_false hall (by simp [hne]), Option.map_some,
        Option.some.injEq, Int.ofNat.injEq, ofDigitChars_append_eq_iff hp hne]
      simp
  | negSucc n =>
      rw [showInt, readDigits_dash hdigits]
      simp

private theorem readSigned_dash_append_iff {d : List Char} {k : Nat} (hk : 0 < k)
    (hd : d <+: showNat k) (m : Int) :
    readSigned ('-' :: (d ++ showInt m)) = some m ↔ d = [] ∧ m = 0 := by
  have hdigits : ∀ c ∈ d, c.isDigit = true :=
    fun c hc => isDigit_of_mem_showNat (hd.subset hc)
  rw [readSigned]
  cases m with
  | ofNat n =>
      have hall := forall_isDigit_append_showNat hdigits n
      rw [showInt, readDigits_false hall (by simp [showNat_ne_nil]),
        Option.map_some, Option.some.injEq, ofDigitChars_append_showNat,
        Int.ofNat_eq_natCast]
      constructor
      · intro heq
        have hpow : 0 < 10 ^ (showNat n).length := Nat.pow_pos (by decide)
        have hzero : 10 ^ (showNat n).length * Nat.ofDigitChars 10 d 0 = 0 := by
          omega
        have hfirst := (Nat.mul_eq_zero.mp hzero).resolve_left (by omega)
        refine ⟨?_, by omega⟩
        by_contra hne
        have hpos := ofDigitChars_pos hk hd hne
        omega
      · rintro ⟨rfl, hn⟩
        rw [Nat.ofDigitChars_nil, Nat.mul_zero]
        omega
  | negSucc n =>
      rw [showInt, readDigits_dash hdigits]
      simp

/-- A piece of a number in front of another number leaves that as it is only where
it is a zero or the sign of a zero. -/
theorem parseInt_append_iff {p : List Char} {l m : Int} (hp : p <+: showInt l)
    (hne : p ≠ []) : parseInt (p ++ showInt m) = some m ↔
      p = ['0'] ∧ 0 ≤ m ∨ p = ['-'] ∧ m = 0 := by
  have hspace : ∀ c ∈ p ++ showInt m, isSpace c = false := by
    intro c hc
    rcases List.mem_append.mp hc with hc | hc
    · exact isSpace_of_mem_showInt (hp.subset hc)
    · exact isSpace_of_mem_showInt hc
  rw [parseInt_eq_readSigned hspace]
  cases l with
  | ofNat k =>
      have hsign : p ≠ ['-'] := by
        rintro rfl
        have hdash : '-' ∈ showNat k := hp.subset (by simp)
        exact absurd (isDigit_of_mem_showNat hdash) (by decide)
      rw [readSigned_digits_append_iff hp hne]
      simp [hsign]
  | negSucc k =>
      obtain ⟨c, d, rfl⟩ := List.exists_cons_of_ne_nil hne
      obtain ⟨rfl, hd⟩ := List.cons_prefix_cons.mp hp
      rw [List.cons_append, readSigned_dash_append_iff (Nat.succ_pos k) hd]
      simp

/-! ## Floating point numbers -/

/-- How a floating point number is written and read.  `parse` is `float`, `none`
where it raises. -/
structure FloatText where
  Val : Type
  repr : Val → List Char
  parse : List Char → Option Val
  parse_repr : ∀ v, parse (repr v) = some v
  repr_ne_nil : ∀ v, repr v ≠ []
  isSpace_repr : ∀ v, ∀ c ∈ repr v, isSpace c = false
  bar_repr : ∀ v, '|' ∉ repr v
  parse_bar : ∀ s, '|' ∈ s → parse s = none

def showSeconds (n : Nat) : List Char := showNat n ++ ['.', '0']

theorem mem_showSeconds {n : Nat} {c : Char} (h : c ∈ showSeconds n) :
    c = '.' ∨ c.isDigit = true := by
  rcases List.mem_append.mp h with h | h
  · exact .inr (isDigit_of_mem_showNat h)
  · rcases List.mem_cons.mp h with rfl | h
    · exact .inl rfl
    · obtain rfl := List.mem_singleton.mp h
      exact .inr (by decide)

/-- Whole numbers of seconds, in the one form in which `repr` writes them. -/
def wholeSeconds : FloatText where
  Val := Nat
  repr := showSeconds
  parse s :=
    let n := Nat.ofDigitChars 10 (s.takeWhile Char.isDigit) 0
    if showSeconds n = s then some n else none
  parse_repr n := by
    have hdigits : (showSeconds n).takeWhile Char.isDigit = showNat n := by
      rw [showSeconds, List.takeWhile_append_of_pos
        fun c hc => isDigit_of_mem_showNat hc]
      simp [List.takeWhile, Char.isDigit]
    simp only [hdigits, ofDigitChars_showNat, if_true]
  repr_ne_nil n := by simp [showSeconds]
  isSpace_repr n c hc := by
    rcases mem_showSeconds hc with rfl | hdigit
    · decide
    · exact isSpace_of_isDigit hdigit
  bar_repr n hmem := by
    rcases mem_showSeconds hmem with hdot | hdigit
    · exact absurd hdot (by decide)
    · exact absurd hdigit (by decide)
  parse_bar s hmem := by
    dsimp only
    split
    · next heq =>
      rw [← heq] at hmem
      rcases mem_showSeconds hmem with hdot | hdigit
      · exact absurd hdot (by decide)
      · exact absurd hdigit (by decide)
    · rfl

end DistributedMemory.Library.Text
