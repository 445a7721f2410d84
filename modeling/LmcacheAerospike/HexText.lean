/-
# Hexadecimal numerals

The value of a hexadecimal numeral, of any length and with any leading zeros.  A lower-case
numeral without its leading zeros is the one that `Nat.toDigits 16` prints
(`toDigits_hexValue`), and the last digits of a numeral are its value modulo a power of 16
(`hexValue_drop`).
-/
import Mathlib.Data.List.Induction
import Mathlib.Data.Nat.ModEq
import Mathlib.Tactic.IntervalCases
import Mathlib.Tactic.Ring

/-- A decimal digit or one of the letters `a` to `f`. -/
def IsLowerHexDigit (c : Char) : Prop := ('0' ≤ c ∧ c ≤ '9') ∨ ('a' ≤ c ∧ c ≤ 'f')

/-- A decimal digit or one of the letters `a` to `f`, in either case. -/
def IsHexDigit (c : Char) : Prop := IsLowerHexDigit c ∨ ('A' ≤ c ∧ c ≤ 'F')

instance (c : Char) : Decidable (IsLowerHexDigit c) :=
  inferInstanceAs (Decidable (_ ∨ _))

instance (c : Char) : Decidable (IsHexDigit c) :=
  inferInstanceAs (Decidable (_ ∨ _))

/-- The value of a hexadecimal digit. -/
def hexDigitValue (c : Char) : ℕ :=
  if '0' ≤ c ∧ c ≤ '9' then c.toNat - '0'.toNat
  else if 'a' ≤ c ∧ c ≤ 'f' then c.toNat - 'a'.toNat + 10
  else if 'A' ≤ c ∧ c ≤ 'F' then c.toNat - 'A'.toNat + 10
  else 0

/-- The value of a numeral read on from `v`. -/
def hexValueFrom (v : ℕ) (s : List Char) : ℕ := s.foldl (fun v c => 16 * v + hexDigitValue c) v

/-- The value of a numeral; the empty one has the value `0`. -/
def hexValue (s : List Char) : ℕ := hexValueFrom 0 s

/-! ## Digits -/

/-- The test of every character of a text, as a computation on the text. -/
theorem isLowerHexDigit_of_all {s : List Char}
    (h : s.all (fun c => decide (IsLowerHexDigit c)) = true) : ∀ c ∈ s, IsLowerHexDigit c := by
  intro c hc
  exact of_decide_eq_true (List.all_eq_true.mp h c hc)

theorem char_le_iff (c d : Char) : c ≤ d ↔ c.toNat ≤ d.toNat := Iff.rfl

theorem hexDigitValue_lt (c : Char) : hexDigitValue c < 16 := by
  unfold hexDigitValue
  simp only [char_le_iff]
  have h0 : '0'.toNat = 48 := rfl
  have h9 : '9'.toNat = 57 := rfl
  have ha : 'a'.toNat = 97 := rfl
  have hf : 'f'.toNat = 102 := rfl
  have hA : 'A'.toNat = 65 := rfl
  have hF : 'F'.toNat = 70 := rfl
  split_ifs <;> omega

/-- A lower-case digit is the one that is printed for its value. -/
theorem digitChar_hexDigitValue {c : Char} (h : IsLowerHexDigit c) :
    Nat.digitChar (hexDigitValue c) = c := by
  have hofNat : c = Char.ofNat c.toNat := (Char.ofNat_toNat c).symm
  rcases h with ⟨hlo, hhi⟩ | ⟨hlo, hhi⟩
  · have hlo' : 48 ≤ c.toNat := hlo
    have hhi' : c.toNat ≤ 57 := hhi
    interval_cases hn : c.toNat <;> · rw [hofNat]; rfl
  · have hlo' : 97 ≤ c.toNat := hlo
    have hhi' : c.toNat ≤ 102 := hhi
    interval_cases hn : c.toNat <;> · rw [hofNat]; rfl

/-- A digit is read back. -/
theorem hexDigitValue_digitChar {d : ℕ} (h : d < 16) : hexDigitValue (Nat.digitChar d) = d := by
  interval_cases d <;> rfl

theorem isLowerHexDigit_digitChar {d : ℕ} (h : d < 16) : IsLowerHexDigit (Nat.digitChar d) := by
  interval_cases d <;> decide

/-! ## Numerals -/

@[simp] theorem hexValue_nil : hexValue [] = 0 := rfl

/-- Digits read so far count for a power of sixteen more with each digit that follows. -/
theorem hexValueFrom_eq (v : ℕ) (s : List Char) :
    hexValueFrom v s = v * 16 ^ s.length + hexValue s := by
  induction s generalizing v with
  | nil => simp [hexValueFrom]
  | cons c s ih =>
    show hexValueFrom (16 * v + hexDigitValue c) s = _ + hexValueFrom (16 * 0 + hexDigitValue c) s
    rw [ih, ih (16 * 0 + _), List.length_cons, Nat.pow_succ]
    ring

/-- Reading on modulo `m` may start from the value modulo `m`. -/
theorem hexValueFrom_mod (v m : ℕ) (s : List Char) :
    hexValueFrom (v % m) s % m = hexValueFrom v s % m := by
  rw [hexValueFrom_eq, hexValueFrom_eq]
  exact Nat.ModEq.add_right _ (Nat.ModEq.mul_right _ (Nat.mod_modEq v m))

/-- The value of two strings of digits after each other. -/
theorem hexValue_append (s t : List Char) :
    hexValue (s ++ t) = hexValue s * 16 ^ t.length + hexValue t := by
  rw [hexValue, hexValueFrom, List.foldl_append]
  exact hexValueFrom_eq (hexValue s) t

theorem hexValue_cons (c : Char) (s : List Char) :
    hexValue (c :: s) = hexDigitValue c * 16 ^ s.length + hexValue s := by
  rw [← List.singleton_append, hexValue_append]
  congr 2
  show 16 * 0 + hexDigitValue c = _
  omega

/-- So many digits make so large a number at most. -/
theorem hexValue_lt (s : List Char) : hexValue s < 16 ^ s.length := by
  induction s with
  | nil => decide
  | cons c s ih =>
    rw [hexValue_cons, List.length_cons, Nat.pow_succ]
    have hc := hexDigitValue_lt c
    have hmul : hexDigitValue c * 16 ^ s.length ≤ 15 * 16 ^ s.length :=
      Nat.mul_le_mul_right _ (by omega)
    omega

/-- **The last `n` digits** are the value modulo `16 ^ n`. -/
theorem hexValue_drop (s : List Char) (n : ℕ) (h : n ≤ s.length) :
    hexValue (s.drop (s.length - n)) = hexValue s % 16 ^ n := by
  have hlen : (s.drop (s.length - n)).length = n := by
    rw [List.length_drop]
    omega
  have hlt := hexValue_lt (s.drop (s.length - n))
  rw [hlen] at hlt
  have hsplit : hexValue s
      = hexValue (s.take (s.length - n)) * 16 ^ n + hexValue (s.drop (s.length - n)) := by
    have happend := hexValue_append (s.take (s.length - n)) (s.drop (s.length - n))
    rwa [List.take_append_drop, hlen] at happend
  rw [hsplit, Nat.mul_comm, Nat.mul_add_mod, Nat.mod_eq_of_lt hlt]

/-- Leading zeros do not count. -/
theorem hexValue_dropWhile (s : List Char) :
    hexValue (s.dropWhile fun c => c = '0') = hexValue s := by
  induction s with
  | nil => rfl
  | cons c s ih =>
    by_cases hc : c = '0'
    · rw [List.dropWhile_cons_of_pos (by simpa using hc), ih, hexValue_cons, hc]
      show _ = 0 * _ + _
      omega
    · rw [List.dropWhile_cons_of_neg (by simpa using hc)]

/-- **A lower-case numeral without leading zeros is the printed one.** -/
theorem toDigits_hexValue {s : List Char} (hs : ∀ c ∈ s, IsLowerHexDigit c) (hne : s ≠ [])
    (hhead : s.head? ≠ some '0') : Nat.toDigits 16 (hexValue s) = s := by
  induction s using List.reverseRecOn with
  | nil => exact absurd rfl hne
  | append_singleton s c ih =>
    have hc : IsLowerHexDigit c := hs c (by simp)
    have hvalue : hexValue (s ++ [c]) = 16 * hexValue s + hexDigitValue c := by
      rw [hexValue_append, hexValue_cons]
      simp only [List.length_singleton, List.length_nil, hexValue_nil]
      omega
    by_cases hnil : s = []
    · -- the only digit
      subst hnil
      rw [hvalue, hexValue_nil, Nat.mul_zero, Nat.zero_add,
        Nat.toDigits_of_lt_base (hexDigitValue_lt c), digitChar_hexDigitValue hc]
      rfl
    · have hhead' : s.head? ≠ some '0' := by
        rwa [List.head?_append, List.head?_eq_some_head hnil, Option.some_or,
          ← List.head?_eq_some_head hnil] at hhead
      have hdigits := ih (fun d hd => hs d (List.mem_append_left _ hd)) hnil hhead'
      -- a numeral of value zero would begin with a zero
      have hpos : 0 < hexValue s := by
        by_contra hzero
        rw [Nat.eq_zero_of_not_pos hzero, Nat.toDigits_zero] at hdigits
        rw [← hdigits] at hhead'
        exact hhead' rfl
      rw [hvalue, ← Nat.toDigits_append_toDigits (by decide) hpos (hexDigitValue_lt c), hdigits,
        Nat.toDigits_of_lt_base (hexDigitValue_lt c), digitChar_hexDigitValue hc]

/-- **A lower-case numeral with its leading zeros removed**, `0` when nothing is left. -/
theorem toDigits_hexValue_trim {s : List Char} (hs : ∀ c ∈ s, IsLowerHexDigit c) :
    (if (s.dropWhile fun c => c = '0') = [] then ['0'] else s.dropWhile fun c => c = '0')
      = Nat.toDigits 16 (hexValue s) := by
  rw [← hexValue_dropWhile s]
  split_ifs with hnil
  · rw [hnil]
    rfl
  · refine (toDigits_hexValue (fun c hc => hs c ?_) hnil fun hhead => ?_).symm
    · exact (List.dropWhile_sublist _).mem hc
    · have hzero := List.head_dropWhile_not (fun c => decide (c = '0')) hnil
      rw [List.head?_eq_some_head hnil] at hhead
      rw [Option.some.inj hhead] at hzero
      exact absurd hzero (by decide)

/-! ## Printed numerals -/

theorem isLowerHexDigit_of_mem_toDigits {c : Char} {n : ℕ} (h : c ∈ Nat.toDigits 16 n) :
    IsLowerHexDigit c := by
  induction n using Nat.strong_induction_on with
  | _ n ih =>
    rw [Nat.toDigits_eq_if (by decide)] at h
    split_ifs at h with hn
    · rw [List.mem_singleton.mp h]
      exact isLowerHexDigit_digitChar hn
    · rcases List.mem_append.mp h with hmem | hmem
      · exact ih (n / 16) (by omega) hmem
      · rw [List.mem_singleton.mp hmem]
        exact isLowerHexDigit_digitChar (Nat.mod_lt _ (by decide))

/-- A printed numeral has the value that was printed. -/
theorem hexValue_toDigits (n : ℕ) : hexValue (Nat.toDigits 16 n) = n := by
  induction n using Nat.strong_induction_on with
  | _ n ih =>
    have hsingle : ∀ d, d < 16 → hexValue [Nat.digitChar d] = d := by
      intro d hd
      rw [hexValue_cons, hexDigitValue_digitChar hd]
      simp
    rw [Nat.toDigits_eq_if (by decide)]
    split_ifs with hn
    · exact hsingle n hn
    · rw [hexValue_append, ih (n / 16) (by omega), hsingle _ (Nat.mod_lt _ (by decide)),
        List.length_singleton]
      omega

/-- Numbers with the same digits are equal. -/
theorem toDigits_hex_injective : Function.Injective (Nat.toDigits 16) := by
  intro m n h
  rw [← hexValue_toDigits m, h, hexValue_toDigits]
