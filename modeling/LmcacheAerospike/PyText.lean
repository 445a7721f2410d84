/-
# Texts as Python's `str` methods see them

`strip`, `split`, `rsplit` and `lower`, the integers that `int()` reads from a text, and the
`repr` of a text, on lists of characters.  White space and decimal digits are those of
Unicode, as in Python.
-/
import Mathlib.Data.Int.Notation
import Mathlib.Data.List.Basic
import Mathlib.Data.Nat.Notation
import LmcacheAerospike.FieldText

namespace PyText

/-- `str.isspace()` of one character. -/
def isSpace (c : Char) : Bool :=
  let n := c.toNat
  (9 ≤ n && n ≤ 13) || (28 ≤ n && n ≤ 32) || n = 0x85 || n = 0xA0 || n = 0x1680 ||
    (0x2000 ≤ n && n ≤ 0x200A) || n = 0x2028 || n = 0x2029 || n = 0x202F || n = 0x205F ||
    n = 0x3000

/-- `s.strip()`. -/
def strip (s : List Char) : List Char :=
  ((s.dropWhile isSpace).reverse.dropWhile isSpace).reverse

/-- No white space at either end. -/
structure Trimmed (s : List Char) : Prop where
  head : ∀ c ∈ s.head?, isSpace c = false
  last : ∀ c ∈ s.getLast?, isSpace c = false

theorem trimmed_iff (s : List Char) : Trimmed s ↔
    (s.head?.all fun c => !isSpace c) = true ∧ (s.getLast?.all fun c => !isSpace c) = true := by
  simp only [Option.all_eq_true, Bool.not_eq_true']
  exact ⟨fun h => ⟨h.head, h.last⟩, fun h => ⟨h.1, h.2⟩⟩

instance (s : List Char) : Decidable (Trimmed s) := decidable_of_iff _ (trimmed_iff s).symm

theorem dropWhile_isSpace {s : List Char} (h : ∀ c ∈ s.head?, isSpace c = false) :
    s.dropWhile isSpace = s := by
  cases s with
  | nil => rfl
  | cons c s =>
    rw [List.dropWhile_cons_of_neg]
    rw [h c rfl]
    exact Bool.false_ne_true

/-- `strip` leaves a text without outer space as it is. -/
theorem Trimmed.strip_eq {s : List Char} (h : Trimmed s) : strip s = s := by
  have hreverse : s.reverse.dropWhile isSpace = s.reverse := by
    refine dropWhile_isSpace fun c hc => h.last c ?_
    rwa [List.head?_reverse] at hc
  rw [strip, dropWhile_isSpace h.head, hreverse, List.reverse_reverse]

/-- Two trimmed fields with a separator between them are trimmed. -/
theorem Trimmed.append_sep {x y : List Char} (hx : Trimmed x) (hxne : x ≠ []) (hy : Trimmed y)
    (hyne : y ≠ []) (sep : Char) : Trimmed (x ++ sep :: y) := by
  constructor
  · intro c hc
    rw [List.head?_append_of_ne_nil x hxne] at hc
    exact hx.head c hc
  · intro c hc
    rw [List.getLast?_append_of_ne_nil x (List.cons_ne_nil sep y),
      List.getLast?_cons_of_ne_nil hyne] at hc
    exact hy.last c hc

theorem trimmed_intercalate {sep : Char} {parts : List (List Char)}
    (h : ∀ part ∈ parts, part ≠ [] ∧ Trimmed part) : Trimmed ([sep].intercalate parts) := by
  induction parts with
  | nil =>
    constructor
    · exact nofun
    · exact nofun
  | cons part parts ih =>
    obtain ⟨⟨hne, hpart⟩, hrest⟩ := List.forall_mem_cons.mp h
    cases parts with
    | nil => rwa [List.intercalate_singleton]
    | cons next parts =>
      have hnext : [sep].intercalate (next :: parts) ≠ [] := fun hnil => by
        have hprefix := prefix_intercalate_cons sep next parts
        rw [hnil, List.prefix_nil] at hprefix
        exact (hrest next List.mem_cons_self).1 hprefix
      rw [List.intercalate_cons_cons, List.append_assoc]
      exact hpart.append_sep hne (ih hrest) hnext sep

/-- What is not white space stays. -/
theorem mem_strip {s : List Char} {c : Char} (hc : c ∈ s) (hspace : isSpace c = false) :
    c ∈ strip s := by
  have hstays : ∀ t : List Char, c ∈ t → c ∈ t.dropWhile isSpace := by
    intro t ht
    rw [← List.takeWhile_append_dropWhile (p := isSpace) (l := t), List.mem_append] at ht
    refine ht.resolve_left fun htake => Bool.false_ne_true ?_
    rw [← hspace, List.mem_takeWhile_imp htake]
  rw [strip, List.mem_reverse]
  exact hstays _ (List.mem_reverse.mpr (hstays s hc))

/-- `s.split(c, 1)`, for a text with `c` in it. -/
def splitFirst (c : Char) (s : List Char) : List Char × List Char :=
  (s.takeWhile (· ≠ c), (s.dropWhile (· ≠ c)).tail)

/-- `s.rsplit(c, 1)`, for a text with `c` in it. -/
def splitLast (c : Char) (s : List Char) : List Char × List Char :=
  ((s.reverse.dropWhile (· ≠ c)).tail.reverse, (s.reverse.takeWhile (· ≠ c)).reverse)

/-- The split is at the first separator. -/
theorem splitFirst_append_sep {c : Char} {x : List Char} (hx : c ∉ x) (y : List Char) :
    splitFirst c (x ++ c :: y) = (x, y) := by
  rw [splitFirst, takeWhile_ne_append hx, dropWhile_ne_append hx]
  rfl

/-- The split is at the last separator. -/
theorem splitLast_append_sep {c : Char} {y : List Char} (hy : c ∉ y) (x : List Char) :
    splitLast c (x ++ c :: y) = (x, y) := by
  have hreverse : (x ++ c :: y).reverse = y.reverse ++ c :: x.reverse := by simp
  have hmem : c ∉ y.reverse := fun h => hy (List.mem_reverse.mp h)
  rw [splitLast, hreverse, takeWhile_ne_append hmem, dropWhile_ne_append hmem, List.tail_cons,
    List.reverse_reverse, List.reverse_reverse]

/-- `s.lower()`, for comparison with words of ASCII letters: of the capitals outside ASCII
only the Kelvin sign has one of these as its lower case. -/
def lower (s : List Char) : List Char :=
  s.map fun c => if c.toNat = 0x212A then 'k' else c.toLower

/-! ## Integers -/

/-- The zeros of the decimal digits of Unicode; the nine other digits follow each. -/
def zeros : List ℕ :=
  [0x30, 0x660, 0x6F0, 0x7C0, 0x966, 0x9E6, 0xA66, 0xAE6, 0xB66, 0xBE6, 0xC66, 0xCE6, 0xD66,
    0xDE6, 0xE50, 0xED0, 0xF20, 0x1040, 0x1090, 0x17E0, 0x1810, 0x1946, 0x19D0, 0x1A80, 0x1A90,
    0x1B50, 0x1BB0, 0x1C40, 0x1C50, 0xA620, 0xA8D0, 0xA900, 0xA9D0, 0xA9F0, 0xAA50, 0xABF0,
    0xFF10, 0x104A0, 0x10D30, 0x11066, 0x110F0, 0x11136, 0x111D0, 0x112F0, 0x11450, 0x114D0,
    0x11650, 0x116C0, 0x11730, 0x118E0, 0x11950, 0x11C50, 0x11D50, 0x11DA0, 0x11F50, 0x16A60,
    0x16AC0, 0x16B50, 0x1D7CE, 0x1D7D8, 0x1D7E2, 0x1D7EC, 0x1D7F6, 0x1E140, 0x1E2F0, 0x1E4F0,
    0x1E950, 0x1FBF0]

/-- The value of a decimal digit. -/
def digit (c : Char) : Option ℕ :=
  (zeros.find? fun z => z ≤ c.toNat ∧ c.toNat < z + 10).map fun z => c.toNat - z

/-- Decimal digits, single underscores between them allowed. -/
def natural (s : List Char) : Option ℕ :=
  let groups := s.splitOn '_'
  if groups.all fun g => g ≠ [] ∧ g.all fun c => (digit c).isSome then
    some (groups.flatten.foldl (fun n c => 10 * n + (digit c).getD 0) 0)
  else none

/-- The white space around a number that `int()` skips: not the separators U+001C to
U+001F, which `isspace()` counts. -/
def isNumberSpace (c : Char) : Bool := isSpace c && !(28 ≤ c.toNat && c.toNat ≤ 31)

/-- A text without the white space that `int()` skips. -/
def stripNumber (s : List Char) : List Char :=
  ((s.dropWhile isNumberSpace).reverse.dropWhile isNumberSpace).reverse

/-- `int(s)`; `none` is a `ValueError`.  The interpreter's own limit on the number of digits is
not modelled. -/
def integer (s : List Char) : Option ℤ :=
  match stripNumber s with
  | '-' :: ds => (natural ds).map fun n => -(n : ℤ)
  | '+' :: ds | ds => (natural ds).map fun n => (n : ℤ)

theorem digit_of_isDigit {c : Char} (h : c.isDigit = true) : digit c = some (c.toNat - 48) := by
  have hrange : 48 ≤ c.toNat ∧ c.toNat ≤ 57 := Char.isDigit_iff_toNat.mp h
  have hzero : zeros.find? (fun z => z ≤ c.toNat ∧ c.toNat < z + 10) = some 48 := by
    rw [zeros, List.find?_cons_of_pos]
    simp
    omega
  rw [digit, hzero]
  rfl

theorem isSpace_of_isDigit {c : Char} (h : c.isDigit = true) : isSpace c = false := by
  have hrange : 48 ≤ c.toNat ∧ c.toNat ≤ 57 := Char.isDigit_iff_toNat.mp h
  simp only [isSpace, Bool.or_eq_false_iff, Bool.and_eq_false_iff, decide_eq_false_iff_not]
  omega

/-- Digits have no space around them. -/
theorem trimmed_of_digits {ds : List Char} (h : ∀ c ∈ ds, c.isDigit = true) : Trimmed ds where
  head := fun c hc => isSpace_of_isDigit (h c (List.mem_of_mem_head? hc))
  last := fun c hc => isSpace_of_isDigit (h c (List.mem_of_mem_getLast? hc))

/-- `int()` has nothing to strip from digits. -/
theorem stripNumber_digits {ds : List Char} (h : ∀ c ∈ ds, c.isDigit = true) :
    stripNumber ds = ds := by
  have hstays : ∀ t : List Char, (∀ c ∈ t, c.isDigit = true) → t.dropWhile isNumberSpace = t := by
    intro t ht
    cases t with
    | nil => rfl
    | cons c t =>
      rw [List.dropWhile_cons_of_neg]
      rw [isNumberSpace, isSpace_of_isDigit (ht c List.mem_cons_self)]
      exact Bool.false_ne_true
  rw [stripNumber, hstays ds h, hstays ds.reverse fun c hc => h c (List.mem_reverse.mp hc),
    List.reverse_reverse]

/-- `int()` reads a text of ASCII digits. -/
theorem integer_digits {ds : List Char} (hne : ds ≠ []) (h : ∀ c ∈ ds, c.isDigit = true) :
    integer ds = some ((Nat.ofDigitChars 10 ds 0 : ℕ) : ℤ) := by
  have hunderscore : '_' ∉ ds := fun hm => Bool.false_ne_true (h '_' hm)
  have hnatural : natural ds = some (Nat.ofDigitChars 10 ds 0) := by
    have hall : ds.all (fun c => (digit c).isSome) = true :=
      List.all_eq_true.mpr fun c hc => by rw [digit_of_isDigit (h c hc)]; rfl
    have hvalue : ∀ n, ds.foldl (fun n c => 10 * n + (digit c).getD 0) n
        = Nat.ofDigitChars 10 ds n := by
      intro n
      rw [Nat.ofDigitChars_eq_foldl]
      refine List.foldl_ext _ _ n fun a c hc => ?_
      rw [digit_of_isDigit (h c hc)]
      rfl
    unfold natural
    rw [List.splitOn_eq_singleton hunderscore]
    simp only [List.all_cons, List.all_nil, Bool.and_true, hall, List.flatten_singleton, hvalue]
    rw [if_pos (decide_eq_true ⟨hne, trivial⟩)]
  unfold integer
  rw [stripNumber_digits h]
  split
  · exact absurd (h '-' List.mem_cons_self) Bool.false_ne_true
  · exact absurd (h '+' List.mem_cons_self) Bool.false_ne_true
  · rw [hnatural]
    rfl

/-! ## `repr` -/

/-- One character of a `repr` in quotes `q`; characters outside ASCII stand for
themselves. -/
def reprChar (q c : Char) : List Char :=
  let n := c.toNat
  let backslash := Char.ofNat 92
  if c = q ∨ c = backslash then [backslash, c]
  else if n = 9 then [backslash, 't']
  else if n = 10 then [backslash, 'n']
  else if n = 13 then [backslash, 'r']
  else if n < 32 ∨ n = 127 then
    [backslash, 'x', Nat.digitChar (n / 16), Nat.digitChar (n % 16)]
  else [c]

/-- `repr(s)`. -/
def repr (s : List Char) : List Char :=
  let apostrophe := Char.ofNat 39
  let quotation := Char.ofNat 34
  let q := if apostrophe ∈ s ∧ quotation ∉ s then quotation else apostrophe
  [q] ++ s.flatMap (reprChar q) ++ [q]

example : (integer " -1_048 ".toList, integer "7\x1c".toList) = (some (-1048), none) := by decide

end PyText
