import Mathlib.Algebra.Group.Nat.Defs
import Mathlib.Order.Basic

/-! # Fields packed into words

A sequence of fields of `n` bits each, stored in words whose width is a multiple of `n`. Writing
with "or" into a field that is zero sets it and leaves all others alone. -/

namespace NetGet.Library.Packed

open BitVec

variable {w : ℕ}

def low (n : ℕ) (v : BitVec w) : BitVec w := if n = w then v else v &&& (1#w <<< n - 1)

theorem getLsbD_low {n : ℕ} (hn : n ≤ w) (v : BitVec w) (t : ℕ) :
    (low n v).getLsbD t = (decide (t < n) && v.getLsbD t) := by
  rw [low]
  split_ifs with heq
  · by_cases ht : t < n
    · rw [decide_eq_true ht, Bool.true_and]
    · rw [decide_eq_false ht, Bool.false_and]
      exact getLsbD_of_ge v t (by omega)
  have hlt : n < w := Nat.lt_of_le_of_ne hn heq
  have hpow : 2 ^ n < 2 ^ w := Nat.pow_lt_pow_right (by decide) hlt
  have hone : (1#w).toNat = 1 := toNat_one (by omega)
  have hs : (1#w <<< n).toNat = 2 ^ n := by
    rw [toNat_shiftLeft, hone, Nat.shiftLeft_eq, Nat.one_mul, Nat.mod_eq_of_lt hpow]
  have hle : 1#w ≤ 1#w <<< n := by
    rw [le_def, hone, hs]
    exact Nat.two_pow_pos n
  have hm : (1#w <<< n - 1#w).toNat = 2 ^ n - 1 := by
    rw [toNat_sub_of_le hle, hs, hone]
  rw [getLsbD_and, Bool.and_comm]
  congr 1
  change (1#w <<< n - 1#w).toNat.testBit t = _
  rw [hm, Nat.testBit_two_pow_sub_one]

theorem low_low {n : ℕ} (hn : n ≤ w) (v : BitVec w) : low n (low n v) = low n v := by
  apply eq_of_getLsbD_eq
  intro t _
  rw [getLsbD_low hn, getLsbD_low hn, ← Bool.and_assoc, Bool.and_self]

/-- A field of zeros takes what is written into it. -/
theorem low_congr {n : ℕ} (hn : n ≤ w) {x y : BitVec w}
    (h : ∀ t < n, x.getLsbD t = y.getLsbD t) : low n x = low n y := by
  apply eq_of_getLsbD_eq
  intro t _
  rw [getLsbD_low hn, getLsbD_low hn]
  by_cases ht : t < n
  · rw [h t ht]
  · rw [decide_eq_false ht, Bool.false_and, Bool.false_and]

/-- Field `i` of `n` bits, in words from `pos` on. -/
def fieldAt (ws : List (BitVec w)) (pos n i : ℕ) : Option (BitVec w) :=
  ws[pos + i * n / w]?.map fun word : BitVec w => low n (word >>> (i * n % w))

/-- The words with `v` written into field `i`, where `old` is the word it is in. -/
def writeField (ws : List (BitVec w)) (pos n i : ℕ) (old v : BitVec w) : List (BitVec w) :=
  ws.set (pos + i * n / w) (old ||| low n v <<< (i * n % w))

section

variable {n : ℕ} (hdvd : n ∣ w) (hw : 0 < w) {ws : List (BitVec w)} {old : BitVec w}

include hdvd hw

theorem mod_add_le (i : ℕ) : i * n % w + n ≤ w := by
  obtain ⟨per, rfl⟩ := hdvd
  rw [Nat.mul_comm i, Nat.mul_mod_mul_left, ← Nat.mul_succ]
  exact Nat.mul_le_mul_left n (Nat.mod_lt i (Nat.pos_of_mul_pos_left hw))

theorem fields_apart {i j : ℕ} (hne : i ≠ j) (hs : i * n / w = j * n / w) :
    i * n % w + n ≤ j * n % w ∨ j * n % w + n ≤ i * n % w := by
  obtain ⟨per, rfl⟩ := hdvd
  have hi := Nat.div_add_mod (i * n) (n * per)
  have hj := Nat.div_add_mod (j * n) (n * per)
  rw [hs] at hi
  obtain hlt | hlt := Nat.lt_or_gt_of_ne hne
  · have hmul : (i + 1) * n ≤ j * n := Nat.mul_le_mul_right n hlt
    rw [Nat.succ_mul] at hmul
    omega
  · have hmul : (j + 1) * n ≤ i * n := Nat.mul_le_mul_right n hlt
    rw [Nat.succ_mul] at hmul
    omega

theorem fieldAt_writeField_self {pos i : ℕ} (hold : ws[pos + i * n / w]? = some old)
    (hz : fieldAt ws pos n i = some 0) (v : BitVec w) :
    fieldAt (writeField ws pos n i old v) pos n i = some (low n v) := by
  have hlt : pos + i * n / w < ws.length := (List.getElem?_eq_some_iff.1 hold).1
  rw [fieldAt, hold, Option.map_some, Option.some.injEq] at hz
  have hle := mod_add_le hdvd hw i
  have hn : n ≤ w := by omega
  rw [fieldAt, writeField, List.getElem?_set_self hlt, Option.map_some, Option.some.injEq]
  refine low_congr hn fun t ht => ?_
  have hbit : old.getLsbD (i * n % w + t) = false := by
    have h := congrArg (getLsbD · t) hz
    simpa [getLsbD_low hn, ht] using h
  rw [getLsbD_ushiftRight, getLsbD_or, hbit, Bool.false_or, getLsbD_shiftLeft,
    Nat.add_sub_cancel_left, getLsbD_low hn]
  simp [ht, (by omega : i * n % w + t < w)]

theorem fieldAt_writeField_ne {pos i j : ℕ} (hne : j ≠ i) (hold : ws[pos + i * n / w]? = some old)
    (v : BitVec w) : fieldAt (writeField ws pos n i old v) pos n j = fieldAt ws pos n j := by
  have hlt : pos + i * n / w < ws.length := (List.getElem?_eq_some_iff.1 hold).1
  rw [fieldAt, fieldAt, writeField]
  by_cases hs : i * n / w = j * n / w
  · have hle := mod_add_le hdvd hw i
    have ha := fields_apart hdvd hw (Ne.symm hne) hs
    rw [← hs, List.getElem?_set_self hlt, hold, Option.map_some, Option.map_some, Option.some.injEq]
    refine low_congr (by omega) fun t ht => ?_
    rw [getLsbD_ushiftRight, getLsbD_ushiftRight, getLsbD_or,
      getLsbD_shiftLeft, getLsbD_low (by omega)]
    obtain ha | ha := ha
    · rw [decide_eq_false (by omega : ¬ j * n % w + t - i * n % w < n), Bool.false_and,
        Bool.and_false, Bool.or_false]
    · rw [decide_eq_true (by omega : j * n % w + t < i * n % w), Bool.not_true, Bool.and_false,
        Bool.false_and, Bool.or_false]
  · rw [List.getElem?_set_ne (by omega)]

end

end NetGet.Library.Packed
