import Mathlib.Algebra.Ring.Nat
import Mathlib.Data.List.Induction

/-! # Numbers as big-endian bytes -/

namespace NetGet.Library

open List

def fromBe (bytes : List UInt8) : ℕ := bytes.foldl (fun n b => n * 256 + b.toNat) 0

/-- The low `width` bytes of a number, the highest first. -/
def toBe : ℕ → ℕ → List UInt8
  | 0, _ => []
  | width + 1, n => toBe width (n / 256) ++ [UInt8.ofNat n]

def trimZeros (bytes : List UInt8) : List UInt8 := bytes.dropWhile (· == 0)

@[simp] theorem fromBe_nil : fromBe [] = 0 := rfl

@[simp] theorem fromBe_concat (bytes : List UInt8) (b : UInt8) :
    fromBe (bytes ++ [b]) = fromBe bytes * 256 + b.toNat := by
  simp [fromBe]

theorem fromBe_cons (b : UInt8) (bytes : List UInt8) :
    fromBe (b :: bytes) = b.toNat * 256 ^ bytes.length + fromBe bytes := by
  induction bytes using reverseRecOn with
  | nil => simp [fromBe]
  | append_singleton bytes c ih =>
    rw [← cons_append, fromBe_concat, ih, fromBe_concat, length_append,
      length_singleton, Nat.pow_succ, ← Nat.mul_assoc]
    omega

@[simp] theorem length_toBe (width n : ℕ) : (toBe width n).length = width := by
  induction width generalizing n with
  | zero => rfl
  | succ width ih => simp [toBe, ih]

theorem fromBe_lt (bytes : List UInt8) : fromBe bytes < 256 ^ bytes.length := by
  induction bytes using reverseRecOn with
  | nil => decide
  | append_singleton bytes b ih =>
    have hb := b.toNat_lt
    rw [fromBe_concat, length_append, length_singleton, Nat.pow_succ]
    omega

theorem fromBe_toBe (width n : ℕ) : fromBe (toBe width n) = n % 256 ^ width := by
  induction width generalizing n with
  | zero => simp [toBe, Nat.mod_one]
  | succ width ih =>
    have hpow : 256 ^ (width + 1) = 256 * 256 ^ width := Nat.pow_succ'
    rw [toBe, fromBe_concat, ih, UInt8.toNat_ofNat', hpow, Nat.mod_mul]
    omega

theorem toBe_zero (width : ℕ) : toBe width 0 = List.replicate width 0 := by
  induction width with
  | zero => rfl
  | succ width ih =>
    rw [toBe, Nat.zero_div, ih, replicate_succ']
    rfl

/-- Bytes of a smaller width come behind zeros. -/
theorem toBe_fromBe (bytes : List UInt8) (extra : ℕ) :
    toBe (extra + bytes.length) (fromBe bytes) = List.replicate extra 0 ++ bytes := by
  induction bytes using reverseRecOn with
  | nil => rw [fromBe_nil, length_nil, Nat.add_zero, toBe_zero, append_nil]
  | append_singleton bytes b ih =>
    have hb := b.toNat_lt
    have hdiv : (fromBe bytes * 256 + b.toNat) / 256 = fromBe bytes := by omega
    have hlow : UInt8.ofNat (fromBe bytes * 256 + b.toNat) = b := by
      rw [← UInt8.toNat_inj, UInt8.toNat_ofNat']
      omega
    rw [fromBe_concat, length_append, length_singleton, ← Nat.add_assoc, toBe, hdiv, ih,
      hlow, append_assoc]

variable {bytes : List UInt8}

theorem trimZeros_replicate_append (extra : ℕ) (h : bytes.head? ≠ some 0) :
    trimZeros (List.replicate extra 0 ++ bytes) = bytes := by
  induction extra with
  | zero =>
    cases bytes with
    | nil => rfl
    | cons b bytes =>
      have hb : b ≠ 0 := fun hb => h (by rw [hb]; rfl)
      simp [trimZeros, hb]
  | succ extra ih => simpa [trimZeros, replicate_succ] using ih

theorem trimZeros_toBe_fromBe (h : bytes.head? ≠ some 0) {width : ℕ} (hw : bytes.length ≤ width) :
    trimZeros (toBe width (fromBe bytes)) = bytes := by
  obtain ⟨extra, rfl⟩ := Nat.exists_eq_add_of_le' hw
  rw [toBe_fromBe, trimZeros_replicate_append extra h]

theorem head?_trimZeros (bytes : List UInt8) : (trimZeros bytes).head? ≠ some 0 := by
  induction bytes with
  | nil => exact nofun
  | cons b bytes ih =>
    by_cases hb : b = 0
    · simpa [trimZeros, hb] using ih
    · simp [trimZeros, hb]

theorem fromBe_trimZeros (bytes : List UInt8) : fromBe (trimZeros bytes) = fromBe bytes := by
  induction bytes with
  | nil => rfl
  | cons b bytes ih =>
    by_cases hb : b = 0
    · subst hb
      have ht : trimZeros (0 :: bytes) = trimZeros bytes := by simp [trimZeros]
      rw [ht, ih]
      rfl
    · simp [trimZeros, hb]

end NetGet.Library
