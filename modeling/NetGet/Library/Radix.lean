import Mathlib.Data.Nat.Digits.Lemmas
import NetGet.Library.Arith

/-! # Numbers in another base

Schoolbook conversion: the digits of a number, the lowest first, are multiplied by the old base and
the next digit is added, with a carry of `w` bits. `none` is an overflow of the carry. -/

namespace NetGet.Library.Radix

open List

variable {xs : List ℕ}

variable {w base mult carry : ℕ} {ds : List ℕ}

/-- Digits are multiplied by `mult` and `carry` is added. -/
def mulAdd (w base mult : ℕ) : ℕ → List ℕ → Option (List ℕ)
  | carry, [] => some (Nat.digits base carry)
  | carry, d :: ds => do
    let carry ← checkedAdd w carry (d * mult)
    return carry % base :: (← mulAdd w base mult (carry / base) ds)

/-- The digits of the number that has the digits `xs` in base `mult`, the highest first. -/
def convert (w base mult : ℕ) (xs : List ℕ) : Option (List ℕ) :=
  xs.foldlM (fun ds x => mulAdd w base mult x ds) []

theorem mulAdd_digits (hb : 1 < base) (hm : 0 < mult) (hw : base * mult ≤ 2 ^ w)
    (hc : carry < mult) (n : ℕ) :
    mulAdd w base mult carry (Nat.digits base n) = some (Nat.digits base (n * mult + carry)) := by
  induction n using Nat.strongRecOn generalizing carry with
  | ind n ih =>
    by_cases hn : n = 0
    · rw [hn, Nat.digits_zero, Nat.zero_mul, Nat.zero_add]
      rfl
    have hpos : 0 < n := Nat.pos_of_ne_zero hn
    have hlt : (n % base + 1) * mult ≤ base * mult := Nat.mul_le_mul_right _ (Nat.mod_lt n (by omega))
    have hsum : n * mult + carry = carry + n % base * mult + n / base * mult * base := by
      conv_lhs => rw [← Nat.mod_add_div n base]
      ring
    rw [Nat.succ_mul] at hlt
    rw [Nat.digits_def' hb hpos, mulAdd, checkedAdd_of_lt (by omega), Option.bind_eq_bind,
      Option.bind_some, ih _ (Nat.div_lt_self hpos hb)
        (Nat.div_lt_of_lt_mul (by omega)), Nat.digits_def' hb (Nat.lt_of_lt_of_le
        (Nat.mul_pos hpos hm) (Nat.le_add_right _ carry)), hsum, Nat.add_mul_mod_self_right,
      Nat.add_mul_div_right _ _ (by omega : 0 < base), Nat.add_comm (_ / base)]
    rfl

/-- The number that has the given digits, the highest first. -/
def value (base : ℕ) (xs : List ℕ) : ℕ := xs.foldl (fun n x => n * base + x) 0

theorem convert_eq (hb : 1 < base) (hm : 0 < mult) (hw : base * mult ≤ 2 ^ w)
    (hx : ∀ x ∈ xs, x < mult) : convert w base mult xs = some (Nat.digits base (value mult xs)) := by
  have hall : ∀ n, xs.foldlM (fun ds x => mulAdd w base mult x ds) (Nat.digits base n) =
      some (Nat.digits base (xs.foldl (fun n x => n * mult + x) n)) := by
    induction xs with
    | nil => exact fun n => rfl
    | cons x xs ih =>
      intro n
      rw [forall_mem_cons] at hx
      rw [foldlM_cons, mulAdd_digits hb hm hw hx.1]
      exact ih hx.2 _
  rw [convert, value, ← hall 0, Nat.digits_zero]

theorem value_eq_ofDigits (xs : List ℕ) : value base xs = Nat.ofDigits base xs.reverse := by
  induction xs using reverseRecOn with
  | nil => rfl
  | append_singleton xs x ih =>
    rw [value, foldl_append, ← value, ih, reverse_append, reverse_singleton, singleton_append,
      Nat.ofDigits_cons]
    simp [Nat.add_comm, Nat.mul_comm]

def leadingZeros (xs : List ℕ) : ℕ := (xs.takeWhile (· == 0)).length

/-- The number in another base, the highest digit first, behind as many zeros. -/
def rebase (base mult : ℕ) (xs : List ℕ) : List ℕ :=
  replicate (leadingZeros xs) 0 ++ (Nat.digits base (value mult xs)).reverse

theorem rebase_self (hb : 1 < base) (hx : ∀ x ∈ xs, x < base) :
    rebase base base xs = xs := by
  induction xs with
  | nil => simp [rebase, leadingZeros, value]
  | cons x xs ih =>
    by_cases hz : x = 0
    · subst hz
      have hv : value base (0 :: xs) = value base xs := by simp [value]
      have hl : leadingZeros (0 :: xs) = leadingZeros xs + 1 := rfl
      rw [rebase, hv, hl, replicate_succ, cons_append, ← rebase, ih (forall_mem_cons.1 hx).2]
    · have hl : leadingZeros (x :: xs) = 0 := by simp [leadingZeros, hz]
      rw [rebase, hl, value_eq_ofDigits, Nat.digits_ofDigits _ hb, reverse_reverse]
      · rfl
      · exact fun x h => hx x (mem_reverse.1 h)
      · simpa using hz

theorem lt_of_mem_rebase (hb : 1 < base) {x : ℕ} (h : x ∈ rebase base mult xs) :
    x < base := by
  rcases mem_append.1 h with h | h
  · rw [eq_of_mem_replicate h]
    omega
  · exact Nat.digits_lt_base hb (mem_reverse.1 h)

theorem value_rebase (xs : List ℕ) : value base (rebase base mult xs) = value mult xs := by
  rw [rebase, value_eq_ofDigits, reverse_append, reverse_reverse, reverse_replicate,
    Nat.ofDigits_append_replicate_zero, Nat.ofDigits_digits]

theorem leadingZeros_rebase (xs : List ℕ) :
    leadingZeros (rebase base mult xs) = leadingZeros xs := by
  have hz : takeWhile (· == 0) (Nat.digits base (value mult xs)).reverse = [] := by
    rcases eq_nil_or_concat' (Nat.digits base (value mult xs)) with h | ⟨ds, d, h⟩
    · rw [h]
      rfl
    · have hd : d ≠ 0 := by
        have hv : value mult xs ≠ 0 := fun hv => by simp [hv] at h
        have hl := Nat.getLast_digit_ne_zero base hv
        simpa [h] using hl
      simp [h, hd]
  rw [rebase, leadingZeros, takeWhile_append_of_pos (fun _ h => by simp [eq_of_mem_replicate h]),
    hz, append_nil, length_replicate]

theorem rebase_rebase (hm : 1 < mult) (hx : ∀ x ∈ xs, x < mult) :
    rebase mult base (rebase base mult xs) = xs := by
  rw [rebase, value_rebase, leadingZeros_rebase]
  exact rebase_self hm hx

end NetGet.Library.Radix
