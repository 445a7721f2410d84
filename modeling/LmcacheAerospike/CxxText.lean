/-
# Texts as the C++ standard library sees them

`std::string::find` and `rfind`, and the numbers that `std::stoi` and `std::stoull` read from
the start of a text, on lists of characters.  White space and digits are those of ASCII.
-/
import Mathlib.Algebra.Ring.Int.Defs
import Mathlib.Algebra.Ring.Nat
import Mathlib.Data.Int.Notation
import Mathlib.Data.List.Infix
import LmcacheAerospike.FieldText

namespace CxxText

/-! ## Searching -/

/-- `s.find(pat)`; `none` is `npos`. -/
def find (pat : List Char) : List Char → Option ℕ
  | [] => if pat = [] then some 0 else none
  | c :: s => if pat.isPrefixOf (c :: s) then some 0 else (find pat s).map (· + 1)

/-- `s.rfind(c)`; `none` is `npos`. -/
def rfind (c : Char) (s : List Char) : Option ℕ :=
  (s.reverse.findIdx? (· = c)).map fun i => s.length - 1 - i

theorem rfind_append_sep {c : Char} {y : List Char} (hy : c ∉ y) (x : List Char) :
    rfind c (x ++ c :: y) = some x.length := by
  have hall : y.reverse.findIdx? (· = c) = none :=
    List.findIdx?_eq_none_iff.mpr fun d hd => decide_eq_false fun heq =>
      hy (heq ▸ List.mem_reverse.mp hd)
  rw [rfind, List.reverse_append, List.reverse_cons, List.append_assoc, List.findIdx?_append,
    hall, List.findIdx?_append]
  simp

theorem find_of_prefix {pat s : List Char} (h : pat <+: s) : find pat s = some 0 := by
  cases s with
  | nil => rw [find, if_pos (List.prefix_nil.mp h)]
  | cons c s => rw [find, if_pos (List.isPrefixOf_iff_prefix.mpr h)]

/-- The search goes past a part in which no occurrence begins. -/
theorem find_append_of_not {pat x y : List Char}
    (h : ∀ s t, x = s ++ t → t ≠ [] → ¬ pat <+: t ++ y) :
    find pat (x ++ y) = (find pat y).map (· + x.length) := by
  induction x with
  | nil => simp
  | cons c x ih =>
    have hfirst : ¬ pat <+: c :: (x ++ y) := h [] (c :: x) rfl (List.cons_ne_nil c x)
    rw [List.cons_append, find, if_neg (fun hp => hfirst (List.isPrefixOf_iff_prefix.mp hp)),
      ih fun s t hx => h (c :: s) t (congrArg (c :: ·) hx)]
    cases find pat y with
    | none => rfl
    | some i =>
      simp only [Option.map_some, List.length_cons]
      rw [Nat.add_assoc]

/-! ## Numbers -/

/-- `std::isspace` in the C locale. -/
def isSpace (c : Char) : Bool := c.toNat = 32 || (9 ≤ c.toNat && c.toNat ≤ 13)

/-- The sign and the digits that `strtol` reads in base 10, what follows ignored; `none` when
there is no digit. -/
def leadingNumber (s : List Char) : Option (Bool × ℕ) :=
  let (negative, rest) := match s.dropWhile isSpace with
    | '-' :: rest => (true, rest)
    | '+' :: rest => (false, rest)
    | rest => (false, rest)
  let digits := rest.takeWhile Char.isDigit
  if digits = [] then none else some (negative, Nat.ofDigitChars 10 digits 0)

/-- What `std::stoi` and `std::stoull` throw. -/
inductive NumberError : Type where
  | invalid_argument
  | out_of_range
  deriving DecidableEq, Repr

/-- `std::stoi`. -/
def stoi (s : List Char) : Except NumberError ℤ :=
  match leadingNumber s with
  | none => .error .invalid_argument
  | some (negative, n) =>
    let value : ℤ := if negative then -n else n
    if value < -(2 ^ 31) ∨ value ≥ 2 ^ 31 then .error .out_of_range else .ok value

/-- `std::stoull`: a number after a minus sign is negated in 64 bits. -/
def stoull (s : List Char) : Except NumberError ℕ :=
  match leadingNumber s with
  | none => .error .invalid_argument
  | some (negative, n) =>
    if n ≥ 2 ^ 64 then .error .out_of_range
    else .ok (if negative then (2 ^ 64 - n) % 2 ^ 64 else n)

/-- A text of digits alone is its number. -/
theorem leadingNumber_digits {ds : List Char} (hne : ds ≠ [])
    (hds : ∀ c ∈ ds, c.isDigit = true) :
    leadingNumber ds = some (false, Nat.ofDigitChars 10 ds 0) := by
  cases ds with
  | nil => exact absurd rfl hne
  | cons d ds =>
    have hd := hds d List.mem_cons_self
    have hrange : 48 ≤ d.toNat ∧ d.toNat ≤ 57 := Char.isDigit_iff_toNat.mp hd
    have hspace : isSpace d = false := by
      simp [isSpace]
      omega
    have hminus : d ≠ '-' := by
      rintro rfl
      cases hd
    have hplus : d ≠ '+' := by
      rintro rfl
      cases hd
    have htake : (d :: ds).takeWhile Char.isDigit = d :: ds := List.takeWhile_eq_self_iff.mpr hds
    unfold leadingNumber
    rw [List.dropWhile_cons_of_neg (by rw [hspace]; exact Bool.false_ne_true)]
    split
    rename_i negative rest hmatch
    split at hmatch
    · next heq =>
      cases heq
      exact absurd rfl hminus
    · next heq =>
      cases heq
      exact absurd rfl hplus
    · cases hmatch
      dsimp only
      rw [htake, if_neg (List.cons_ne_nil d ds)]

theorem stoi_toDigits {n : ℕ} (hn : n < 2 ^ 31) : stoi (Nat.toDigits 10 n) = .ok n := by
  unfold stoi
  rw [leadingNumber_digits Nat.toDigits_ne_nil fun c hc =>
    Nat.isDigit_of_mem_toDigits (by decide) (by decide) hc, Nat.ofDigitChars_ten_toDigits]
  simp only [Bool.false_eq_true, if_false]
  rw [if_neg (by omega)]

theorem stoull_digits {ds : List Char} (hne : ds ≠ []) (hds : ∀ c ∈ ds, c.isDigit = true)
    (hlt : Nat.ofDigitChars 10 ds 0 < 2 ^ 64) : stoull ds = .ok (Nat.ofDigitChars 10 ds 0) := by
  unfold stoull
  rw [leadingNumber_digits hne hds]
  simp only [Bool.false_eq_true, if_false]
  rw [if_neg (by omega)]

end CxxText
