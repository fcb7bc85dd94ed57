import ElTemplate.Number.Core
import ElTemplate.Number.Digits
import Mathlib.Data.Nat.Digits.Defs

/-!
# Runs of digits

The value of a run of digits in terms of its parts, and the digits of a number as a run that has the
number as its value.
-/

namespace ElTemplate.Digits

open scoped CoreInstances

theorem foldl_eq (n : Nat) (cs : List Char) :
    cs.foldl (fun n c => 10 * n + value c) n = n * 10 ^ cs.length + toNat cs := by
  induction cs generalizing n with
  | nil => simp [toNat]
  | cons c cs ih =>
    have start : toNat (c :: cs) = value c * 10 ^ cs.length + toNat cs := by
      rw [toNat, List.foldl_cons, ih, Nat.mul_zero, Nat.zero_add]
    rw [List.foldl_cons, ih, start, List.length_cons, Nat.pow_succ, Nat.add_mul]
    have swap : 10 * n * 10 ^ cs.length = n * (10 ^ cs.length * 10) := by
      rw [Nat.mul_comm 10 n, Nat.mul_assoc, Nat.mul_comm 10]
    omega

/-- A digit in front counts for a power of ten. -/
theorem toNat_cons (c : Char) (cs : List Char) :
    toNat (c :: cs) = value c * 10 ^ cs.length + toNat cs := by
  rw [toNat, List.foldl_cons, foldl_eq, Nat.mul_zero, Nat.zero_add]

/-- Digits in front count for a power of ten. -/
theorem toNat_append (xs ys : List Char) :
    toNat (xs ++ ys) = toNat xs * 10 ^ ys.length + toNat ys := by
  rw [toNat, List.foldl_append, foldl_eq]
  rfl

theorem toNat_replicate_zero (k : Nat) : toNat (List.replicate k '0') = 0 := by
  induction k with
  | zero => rfl
  | succ k ih =>
    rw [List.replicate_succ', toNat_concat, ih]
    rfl

/-- Zeros in front do not count. -/
theorem toNat_dropWhile_zero (cs : List Char) : toNat (cs.dropWhile (· == '0')) = toNat cs := by
  induction cs with
  | nil => rfl
  | cons c cs ih =>
    by_cases zero : c = '0'
    · subst zero
      exact ih
    · rw [List.dropWhile_cons_of_neg (by simpa using zero)]

theorem isDigit_of_mem_replicate {k : Nat} {c : Char} (h : c ∈ List.replicate k '0') :
    c.isDigit := by
  rw [List.eq_of_mem_replicate h]
  decide

theorem value_digitChar {d : Nat} (h : d < 10) : value d.digitChar = d := by
  have all : ∀ d : Fin 10, value (Nat.digitChar d) = d := by decide
  exact all ⟨d, h⟩

theorem isDigit_of_mem_ofNat {n : Nat} {c : Char} (h : c ∈ ofNat n) : c.isDigit :=
  Nat.isDigit_of_mem_toDigits (by decide) (by decide) h

/-- The digits of a number have the number as their value. -/
theorem toNat_ofNat (n : Nat) : toNat (ofNat n) = n := by
  induction n using Nat.strongRecOn with
  | _ n ih =>
    rw [ofNat, Nat.toDigits_eq_if (by decide)]
    split
    · next small =>
      have last := toNat_concat [] n.digitChar
      rw [List.nil_append] at last
      rw [last, value_digitChar small]
      exact Nat.zero_add n
    · next large =>
      have shorter : n / 10 < n := Nat.div_lt_self (by omega) (by decide)
      have digit : n % 10 < 10 := Nat.mod_lt n (by decide)
      have front : toNat (Nat.toDigits 10 (n / 10)) = n / 10 := ih (n / 10) shorter
      rw [toNat_concat, front, value_digitChar digit]
      omega

theorem ofNat_ne_nil (n : Nat) : ofNat n ≠ [] := by
  rw [ofNat, Nat.toDigits_eq_if (by decide)]
  split
  · exact List.cons_ne_nil _ _
  · exact List.append_ne_nil_of_right_ne_nil _ (List.cons_ne_nil _ _)

theorem toNat?_eq_some_iff {cs : List Char} {n : Nat} :
    toNat? cs = some n ↔ cs ≠ [] ∧ (∀ c ∈ cs, c.isDigit) ∧ toNat cs = n := by
  simp only [toNat?, Option.ite_none_right_eq_some, Option.some.injEq, List.all_eq_true, and_assoc]

theorem toNat?_ofNat (n : Nat) : toNat? (ofNat n) = some n :=
  toNat?_eq_some_iff.mpr ⟨ofNat_ne_nil n, fun _ => isDigit_of_mem_ofNat, toNat_ofNat n⟩

theorem value_lt {c : Char} (digit : c.isDigit) : value c < 10 := by
  have range : 48 ≤ c.toNat ∧ c.toNat ≤ 57 := Char.isDigit_iff_toNat.mp digit
  change c.toNat - 48 < 10
  omega

theorem toNat_lt {cs : List Char} (digits : ∀ c ∈ cs, c.isDigit) : toNat cs < 10 ^ cs.length := by
  induction cs with
  | nil => exact Nat.one_pos
  | cons c cs ih =>
    obtain ⟨digit, digits⟩ := List.forall_mem_cons.mp digits
    have behind := ih digits
    have bound : (value c + 1) * 10 ^ cs.length ≤ 10 * 10 ^ cs.length :=
      Nat.mul_le_mul_right _ (value_lt digit)
    rw [Nat.succ_mul] at bound
    rw [toNat_cons, List.length_cons, Nat.pow_succ, Nat.mul_comm (10 ^ cs.length)]
    omega

theorem digitChar_value {c : Char} (digit : c.isDigit) : (value c).digitChar = c := by
  have all : ∀ d : Fin 10, Nat.digitChar d = Char.ofNat ('0'.toNat + d) := by decide
  have range := (Char.isDigit_iff_toNat.mp digit).1
  have place : '0'.toNat + value c = c.toNat := by
    rw [value]
    omega
  rw [all ⟨value c, value_lt digit⟩, place, Char.ofNat_toNat]

theorem ofNat_value {c : Char} (digit : c.isDigit) : ofNat (value c) = [c] := by
  rw [ofNat, Nat.toDigits_of_lt_base (value_lt digit), digitChar_value digit]

/-- Digits behind those of a number are those of the number that they go on to. -/
theorem ofNat_append {n : Nat} (positive : 0 < n) {cs : List Char} (digits : ∀ c ∈ cs, c.isDigit) :
    ofNat n ++ cs = ofNat (cs.foldl (fun n c => 10 * n + value c) n) := by
  induction cs generalizing n with
  | nil => rw [List.append_nil, List.foldl_nil]
  | cons c cs ih =>
    obtain ⟨digit, digits⟩ := List.forall_mem_cons.mp digits
    have step : ofNat n ++ ofNat (value c) = ofNat (10 * n + value c) :=
      Nat.toDigits_append_toDigits (by decide) positive (value_lt digit)
    calc ofNat n ++ c :: cs = ofNat n ++ ofNat (value c) ++ cs := by simp [ofNat_value digit]
      _ = ofNat (cs.foldl (fun n c => 10 * n + value c) (10 * n + value c)) := by
          rw [step, ih (by omega) digits]

/-- A run of digits that begins with another one than zero is that of its value. -/
theorem ofNat_toNat {c : Char} {cs : List Char} (digits : ∀ d ∈ c :: cs, d.isDigit)
    (plain : c ≠ '0') : ofNat (toNat (c :: cs)) = c :: cs := by
  obtain ⟨digit, digits⟩ := List.forall_mem_cons.mp digits
  have positive : 0 < value c := by
    refine Nat.pos_of_ne_zero fun zero => plain ?_
    rw [← digitChar_value digit, zero]
    rfl
  have first : 10 * 0 + value c = value c := by omega
  rw [toNat, List.foldl_cons, first, ← ofNat_append positive digits, ofNat_value digit]
  rfl

/-- Without the zeros in front, a run of digits is that of its value, or empty. -/
theorem dropWhile_zero {cs : List Char} (digits : ∀ c ∈ cs, c.isDigit) (nonzero : toNat cs ≠ 0) :
    cs.dropWhile (· == '0') = ofNat (toNat cs) := by
  rw [← toNat_dropWhile_zero] at nonzero ⊢
  have run (c : Char) (member : c ∈ cs.dropWhile (· == '0')) : c.isDigit :=
    digits c ((List.dropWhile_suffix _).subset member)
  have head := List.head?_dropWhile_not (· == '0') cs
  cases behind : cs.dropWhile (· == '0') with
  | nil =>
    rw [behind] at nonzero
    exact absurd rfl nonzero
  | cons c rest =>
    rw [behind] at run head
    exact (ofNat_toNat run (by simpa using head)).symm

/-- A number is less than the power of ten that has a digit more. -/
theorem lt_pow_length (n : Nat) : n < 10 ^ (ofNat n).length := by
  have bound : toNat (ofNat n) < 10 ^ (ofNat n).length :=
    toNat_lt fun _ => isDigit_of_mem_ofNat
  rwa [toNat_ofNat] at bound

theorem ofNat_injective {m n : Nat} (same : ofNat m = ofNat n) : m = n := by
  rw [← toNat_ofNat m, same, toNat_ofNat]

/-- The digits of a number begin with a zero only if they are no others. -/
theorem eq_zero_of_head {n : Nat} (zero : (ofNat n).head? = some '0') : n = 0 := by
  induction n using Nat.strongRecOn with
  | _ n ih =>
    rw [ofNat, Nat.toDigits_eq_if (by decide)] at zero
    split at zero
    · next small =>
      have digit : n.digitChar = '0' := Option.some.inj zero
      rw [← value_digitChar small, digit]
      rfl
    · next large =>
      obtain ⟨c, cs, digits⟩ := List.exists_cons_of_ne_nil (ofNat_ne_nil (n / 10))
      have front : (ofNat (n / 10)).head? = some '0' := by
        rw [show Nat.toDigits 10 (n / 10) = c :: cs from digits] at zero
        rw [digits]
        exact zero
      have none := ih (n / 10) (Nat.div_lt_self (by omega) (by decide)) front
      omega

/-- A run of digits ends where the first other character stands. -/
theorem takeWhile_append {ds rest : List Char} (digits : ∀ c ∈ ds, c.isDigit)
    (ends : rest.head?.any Char.isDigit = false) :
    (ds ++ rest).takeWhile Char.isDigit = ds := by
  rw [List.takeWhile_append_of_pos digits]
  cases rest with
  | nil => rw [List.takeWhile_nil, List.append_nil]
  | cons c rest =>
    have other : ¬ c.isDigit := by simpa using ends
    rw [List.takeWhile_cons_of_neg other, List.append_nil]

theorem dropWhile_append {ds rest : List Char} (digits : ∀ c ∈ ds, c.isDigit)
    (ends : rest.head?.any Char.isDigit = false) :
    (ds ++ rest).dropWhile Char.isDigit = rest := by
  rw [List.dropWhile_append_of_pos digits]
  cases rest with
  | nil => rfl
  | cons c rest =>
    have other : ¬ c.isDigit := by simpa using ends
    rw [List.dropWhile_cons_of_neg other]

theorem count_append {ds rest : List Char} (digits : ∀ c ∈ ds, c.isDigit)
    (ends : rest.head?.any Char.isDigit = false) : count (ds ++ rest) = ds.length := by
  rw [count, takeWhile_append digits ends]

/-- There are no fewer digits ahead than begin the text. -/
theorem length_le_count {ds : List Char} (digits : ∀ c ∈ ds, c.isDigit) (f : List Char) :
    ds.length ≤ count (ds ++ f) := by
  rw [count, List.takeWhile_append_of_pos digits, List.length_append]
  exact Nat.le_add_right _ _

theorem count_pos {cs : List Char} (h : cs.head?.any Char.isDigit) : 0 < count cs := by
  cases cs with
  | nil => cases h
  | cons c cs =>
    have digit : c.isDigit := h
    rw [count, List.takeWhile_cons_of_pos digit]
    exact Nat.succ_pos _

/-- A text is a run of digits, and goes on with another character. -/
theorem exists_run (cs : List Char) :
    ∃ ds rest, cs = ds ++ rest ∧ (∀ c ∈ ds, c.isDigit) ∧ rest.head?.any Char.isDigit = false := by
  refine ⟨cs.takeWhile Char.isDigit, cs.dropWhile Char.isDigit,
    List.takeWhile_append_dropWhile.symm, List.all_eq_true.mp List.all_takeWhile, ?_⟩
  cases rest : cs.dropWhile Char.isDigit with
  | nil => rfl
  | cons c tail =>
    have other := List.head?_dropWhile_not Char.isDigit cs
    rw [rest] at other
    exact other

/-- The digits without the zeros that they begin and end with. -/
def significant (cs : List Char) : List Char :=
  ((cs.dropWhile (· == '0')).reverse.dropWhile (· == '0')).reverse

theorem dropWhile_replicate_append (k : Nat) (cs : List Char) :
    (List.replicate k '0' ++ cs).dropWhile (· == '0') = cs.dropWhile (· == '0') := by
  refine List.dropWhile_append_of_pos fun c member => ?_
  rw [List.eq_of_mem_replicate member]
  rfl

theorem significant_zeros_append (k : Nat) (cs : List Char) :
    significant (List.replicate k '0' ++ cs) = significant cs := by
  rw [significant, dropWhile_replicate_append, significant]

theorem significant_append_zeros (cs : List Char) (k : Nat) :
    significant (cs ++ List.replicate k '0') = significant cs := by
  rw [significant, significant, List.dropWhile_append]
  split
  · next none =>
    have zeros := dropWhile_replicate_append k []
    rw [List.append_nil] at zeros
    rw [zeros, List.isEmpty_iff.mp none]
    rfl
  · rw [List.reverse_append, List.reverse_replicate, dropWhile_replicate_append]

theorem length_significant_le (cs : List Char) : (significant cs).length ≤ cs.length := by
  rw [significant, List.length_reverse]
  calc _ ≤ (cs.dropWhile (· == '0')).reverse.length := (List.dropWhile_suffix _).length_le
    _ ≤ cs.length := by
      rw [List.length_reverse]
      exact (List.dropWhile_suffix _).length_le

/-- Numbers up to a power of ten have no more significant digits than the numbers below it: the
power itself is spelled with one digit and zeros. -/
theorem length_significant_ofNat {n j : Nat} (positive : 0 < j) (bound : n ≤ 10 ^ j) :
    (significant (ofNat n)).length ≤ j := by
  rcases Nat.lt_or_eq_of_le bound with less | rfl
  · exact Nat.le_trans (length_significant_le _) (Nat.toDigits_length 10 n j positive less)
  · have zeros : ∀ c ∈ List.replicate j '0', c.isDigit := fun _ => isDigit_of_mem_replicate
    have digits := ofNat_append Nat.one_pos zeros
    rw [foldl_eq, toNat_replicate_zero, List.length_replicate, Nat.one_mul, Nat.add_zero] at digits
    rw [← digits, significant_append_zeros]
    exact positive

end ElTemplate.Digits
