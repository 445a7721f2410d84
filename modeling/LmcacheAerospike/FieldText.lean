/-
# Texts built from fields

Facts about texts that are concatenated with separators and decimal numbers: a field
that does not contain the separator can be read back from either end, and a number
can be read back from its digits.
-/
import Mathlib.Data.List.Basic
import Mathlib.Data.List.TakeWhile
import Mathlib.Data.Nat.Notation
import Mathlib.Tactic.Common

variable {α : Type}

/-- A separator splits a text at its first occurrence in one way. -/
theorem append_sep_inj_left {sep : α} {x y a b : List α} (hx : sep ∉ x) (hy : sep ∉ y)
    (h : x ++ sep :: a = y ++ sep :: b) : x = y ∧ a = b := by
  induction x generalizing y with
  | nil =>
    cases y with
    | nil =>
      simp only [List.nil_append, List.cons.injEq, true_and] at h
      exact ⟨rfl, h⟩
    | cons c y =>
      simp only [List.nil_append, List.cons_append, List.cons.injEq] at h
      exact absurd (h.1 ▸ List.mem_cons_self) hy
  | cons c x ih =>
    cases y with
    | nil =>
      simp only [List.nil_append, List.cons_append, List.cons.injEq] at h
      exact absurd (h.1 ▸ List.mem_cons_self) hx
    | cons d y =>
      simp only [List.cons_append, List.cons.injEq] at h
      obtain ⟨hxy, hab⟩ := ih (fun hm => hx (List.mem_cons_of_mem _ hm))
        (fun hm => hy (List.mem_cons_of_mem _ hm)) h.2
      exact ⟨by rw [h.1, hxy], hab⟩

/-- A separator splits a text at its last occurrence in one way. -/
theorem append_sep_inj_right {sep : α} {x y a b : List α} (ha : sep ∉ a) (hb : sep ∉ b)
    (h : x ++ sep :: a = y ++ sep :: b) : x = y ∧ a = b := by
  have hrev : a.reverse ++ sep :: x.reverse = b.reverse ++ sep :: y.reverse := by
    have := congrArg List.reverse h
    simpa using this
  obtain ⟨h₁, h₂⟩ := append_sep_inj_left (by simpa using ha) (by simpa using hb) hrev
  exact ⟨List.reverse_injective h₂, List.reverse_injective h₁⟩

/-- Decimal digits determine the number. -/
theorem toDigits_ten_injective : Function.Injective (Nat.toDigits 10) := by
  intro m n h
  have hparse := congrArg (fun digits => Nat.ofDigitChars 10 digits 0) h
  simpa using hparse

/-- A decimal numeral contains digits only. -/
theorem notMem_toDigits_ten {c : Char} (hc : c.isDigit = false) (n : ℕ) :
    c ∉ Nat.toDigits 10 n := by
  intro hm
  have hd := Nat.isDigit_of_mem_toDigits (by decide) (by decide) hm
  rw [hc] at hd
  exact Bool.false_ne_true hd

/-! ## The first and the last separator -/

section Separators

variable [DecidableEq α] {sep : α} {x : List α}

/-- The field before the first separator. -/
theorem takeWhile_ne_append (hx : sep ∉ x) (y : List α) :
    (x ++ sep :: y).takeWhile (· ≠ sep) = x := by
  have hall : ∀ c ∈ x, decide (c ≠ sep) = true := fun c hc =>
    decide_eq_true (fun heq => hx (heq ▸ hc))
  rw [List.takeWhile_append_of_pos hall, List.takeWhile_cons_of_neg (by simp), List.append_nil]

/-- What is left from the first separator on. -/
theorem dropWhile_ne_append (hx : sep ∉ x) (y : List α) :
    (x ++ sep :: y).dropWhile (· ≠ sep) = sep :: y := by
  have hall : ∀ c ∈ x, decide (c ≠ sep) = true := fun c hc =>
    decide_eq_true (fun heq => hx (heq ▸ hc))
  rw [List.dropWhile_append_of_pos hall, List.dropWhile_cons_of_neg (by simp)]

theorem takeWhile_ne_eq_self (hx : sep ∉ x) : x.takeWhile (· ≠ sep) = x :=
  List.takeWhile_eq_self_iff.mpr fun _ hc => decide_eq_true fun heq => hx (heq ▸ hc)

end Separators

/-- What begins a text and has no separator begins its first field. -/
theorem prefix_of_prefix_append_sep {sep : α} {pat x y : List α} (hpat : sep ∉ pat)
    (h : pat <+: x ++ sep :: y) : pat <+: x := by
  induction pat generalizing x with
  | nil => exact List.nil_prefix
  | cons c pat ih =>
    cases x with
    | nil =>
      obtain ⟨rfl, -⟩ := List.cons_prefix_cons.mp h
      exact absurd List.mem_cons_self hpat
    | cons d x =>
      obtain ⟨rfl, hrest⟩ := List.cons_prefix_cons.mp h
      exact List.cons_prefix_cons.mpr ⟨rfl, ih (fun hm => hpat (List.mem_cons_of_mem _ hm)) hrest⟩

/-! ## Joined fields -/

theorem prefix_intercalate_cons (sep : α) (part : List α) (parts : List (List α)) :
    part <+: [sep].intercalate (part :: parts) := by
  cases parts with
  | nil => exact ⟨[], (List.append_nil part).trans List.intercalate_singleton.symm⟩
  | cons next parts =>
    rw [List.intercalate_cons_cons, List.append_assoc]
    exact List.prefix_append _ _

/-- Joining fields brings in no character but the separator. -/
theorem notMem_intercalate {sep c : α} (hc : c ≠ sep) {parts : List (List α)}
    (h : ∀ part ∈ parts, c ∉ part) : c ∉ [sep].intercalate parts := by
  induction parts with
  | nil => exact List.not_mem_nil
  | cons part parts ih =>
    obtain ⟨hpart, hrest⟩ := List.forall_mem_cons.mp h
    cases parts with
    | nil => rwa [List.intercalate_singleton]
    | cons next parts =>
      rw [List.intercalate_cons_cons, List.mem_append, List.mem_append, List.mem_singleton]
      rintro ((hmem | hmem) | hmem)
      · exact hpart hmem
      · exact hc hmem
      · exact ih hrest hmem
