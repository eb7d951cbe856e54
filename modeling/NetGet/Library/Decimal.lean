import Mathlib.Data.List.Basic
import Mathlib.Algebra.Group.Nat.Defs

/-! # Decimal numbers in byte strings -/

namespace NetGet.Library

open List

def utf8 (s : String) : List UInt8 := s.toByteArray.data.toList

def isAsciiDigit (b : UInt8) : Bool := 48 ≤ b.toNat && b.toNat ≤ 57

def decimalValue (digits : List UInt8) : ℕ := digits.foldl (fun n b => 10 * n + (b.toNat - 48)) 0

/-- Read an unsigned number of `w` bits: digits only, with at most one plus sign in front. -/
def parseUnsigned (w : ℕ) (bytes : List UInt8) : Option ℕ :=
  let digits := if bytes.head? = some 43 then bytes.tail else bytes
  if digits ≠ [] ∧ digits.all isAsciiDigit ∧ decimalValue digits < 2 ^ w then
    some (decimalValue digits)
  else none

/-- The number in at least `width` digits. -/
def padded (width n : ℕ) : String :=
  String.ofList (List.replicate (width - (Nat.toDigits 10 n).length) '0' ++ Nat.toDigits 10 n)

@[simp] theorem utf8_ofList (cs : List Char) :
    utf8 (String.ofList cs) = cs.flatMap String.utf8EncodeChar := by
  simp [utf8, utf8Encode]

theorem utf8_injective {s t : String} (h : utf8 s = utf8 t) : s = t := by
  apply String.toByteArray_inj.1
  apply ByteArray.ext
  exact Array.toList_inj.1 h

theorem utf8_eq_nil {s : String} : utf8 s = [] ↔ s = "" := by
  refine ⟨fun h => utf8_injective (h.trans (by decide)), ?_⟩
  intro h
  subst h
  decide

variable {c : Char} {cs : List Char} {width n : ℕ} {b : UInt8} {bytes : List UInt8}

theorem utf8EncodeChar_of_isDigit (h : c.isDigit = true) :
    String.utf8EncodeChar c = [UInt8.ofNat c.toNat] ∧ 48 ≤ c.toNat ∧ c.toNat ≤ 57 := by
  have hle : 48 ≤ c.toNat ∧ c.toNat ≤ 57 := by
    simp only [Char.isDigit, Bool.and_eq_true, decide_eq_true_eq, UInt32.le_iff_toNat_le] at h
    exact h
  have hval : c.val.toNat ≤ 127 := by
    have htn : c.toNat = c.val.toNat := rfl
    omega
  refine ⟨?_, hle⟩
  simp only [String.utf8EncodeChar, hval, if_true]
  rfl

theorem utf8_of_isDigit (h : ∀ c ∈ cs, c.isDigit = true) :
    utf8 (String.ofList cs) = cs.map fun c => UInt8.ofNat c.toNat := by
  rw [utf8_ofList]
  induction cs with
  | nil => rfl
  | cons c cs ih =>
    rw [flatMap_cons, map_cons, (utf8EncodeChar_of_isDigit (h c (by simp))).1,
      ih fun c' hc' => h c' (by simp [hc'])]
    rfl

theorem isAsciiDigit_of_isDigit (h : c.isDigit = true) :
    isAsciiDigit (UInt8.ofNat c.toNat) = true ∧ (UInt8.ofNat c.toNat).toNat = c.toNat := by
  obtain ⟨-, hle, hge⟩ := utf8EncodeChar_of_isDigit h
  have htn : (UInt8.ofNat c.toNat).toNat = c.toNat := by
    rw [UInt8.toNat_ofNat']
    omega
  refine ⟨?_, htn⟩
  simp only [isAsciiDigit, htn, Bool.and_eq_true, decide_eq_true_eq]
  exact ⟨hle, hge⟩

theorem decimalValue_map (h : ∀ c ∈ cs, c.isDigit = true) :
    decimalValue (cs.map fun c => UInt8.ofNat c.toNat) = Nat.ofDigitChars 10 cs 0 := by
  rw [decimalValue, Nat.ofDigitChars_eq_foldl]
  generalize 0 = n
  induction cs generalizing n with
  | nil => rfl
  | cons c cs ih =>
    simp only [map_cons, foldl_cons, (isAsciiDigit_of_isDigit (h c (by simp))).2]
    exact ih (fun c' hc' => h c' (by simp [hc'])) _

theorem isDigit_of_mem_padded
    (h : c ∈ List.replicate (width - (Nat.toDigits 10 n).length) '0' ++ Nat.toDigits 10 n) :
    c.isDigit = true := by
  rw [mem_append] at h
  cases h with
  | inl hz => rw [eq_of_mem_replicate hz]; rfl
  | inr hd => exact Nat.isDigit_of_mem_toDigits (by decide) (by decide) hd

theorem utf8_padded (width n : ℕ) : utf8 (padded width n) =
    (List.replicate (width - (Nat.toDigits 10 n).length) '0' ++ Nat.toDigits 10 n).map
      fun c => UInt8.ofNat c.toNat :=
  utf8_of_isDigit fun _ hc => isDigit_of_mem_padded hc

theorem isAsciiDigit_of_mem_padded (h : b ∈ utf8 (padded width n)) : isAsciiDigit b = true := by
  rw [utf8_padded] at h
  obtain ⟨c, hc, rfl⟩ := mem_map.1 h
  exact (isAsciiDigit_of_isDigit (isDigit_of_mem_padded hc)).1

theorem decimalValue_padded (width n : ℕ) : decimalValue (utf8 (padded width n)) = n := by
  rw [utf8_padded, decimalValue_map fun _ hc => isDigit_of_mem_padded hc, Nat.ofDigitChars_append,
    Nat.ofDigitChars_replicate_zero, Nat.mul_zero, Nat.ofDigitChars_ten_toDigits]

theorem length_utf8_padded (width n : ℕ) :
    (utf8 (padded width n)).length = max width (Nat.toDigits 10 n).length := by
  rw [utf8_padded, length_map, length_append, length_replicate]
  omega

theorem toString_eq_padded (n : ℕ) : toString n = padded 0 n := by
  rw [padded, Nat.zero_sub]
  exact Nat.toString_eq_ofList_toDigits

theorem isAsciiDigit_of_mem_toString (h : b ∈ utf8 (toString n)) : isAsciiDigit b = true := by
  rw [toString_eq_padded] at h
  exact isAsciiDigit_of_mem_padded h

theorem decimalValue_toString (n : ℕ) : decimalValue (utf8 (toString n)) = n := by
  rw [toString_eq_padded]
  exact decimalValue_padded 0 n

theorem length_utf8_toString_le {k : ℕ} (hk : 0 < k) :
    (utf8 (toString n)).length ≤ k ↔ n < 10 ^ k := by
  rw [toString_eq_padded, length_utf8_padded, ← Nat.length_toDigits_le_iff (by decide) hk]
  omega

theorem utf8_toString_ne_nil (n : ℕ) : utf8 (toString n) ≠ [] := by
  intro h
  have hlen := congrArg length h
  rw [toString_eq_padded, length_utf8_padded, length_nil] at hlen
  have hpos : 0 < (Nat.toDigits 10 n).length := Nat.length_toDigits_pos
  omega

/-- Only zero is printed with a leading zero. -/
theorem head?_utf8_toString (n : ℕ) : (utf8 (toString n)).head? = some 48 ↔ n = 0 := by
  rw [toString_eq_padded, utf8_padded, Nat.zero_sub, replicate_zero, nil_append]
  induction n using Nat.strongRecOn with
  | ind n ih =>
    rw [Nat.toDigits_eq_if (by decide)]
    split_ifs with hlt
    · have htn := Nat.toNat_digitChar_of_lt_ten hlt
      rw [map_singleton, head?_cons, htn, Option.some_inj]
      refine ⟨fun h => ?_, fun h => ?_⟩
      · have heq := congrArg UInt8.toNat h
        rw [UInt8.toNat_ofNat'] at heq
        change (48 + n) % 256 = 48 at heq
        omega
      · subst h
        rfl
    · rw [map_append, head?_append_of_ne_nil _ (by simp), ih (n / 10) (by omega)]
      omega

theorem parseUnsigned_toString {w : ℕ} (h : n < 2 ^ w) :
    parseUnsigned w (utf8 (toString n)) = some n := by
  have hv := decimalValue_toString n
  have hp : (utf8 (toString n)).head? ≠ some 43 := by
    intro h
    have hdi := isAsciiDigit_of_mem_toString (mem_of_mem_head? h)
    exact absurd hdi (by decide)
  simp only [parseUnsigned, hp, if_false, hv]
  exact if_pos ⟨utf8_toString_ne_nil n, all_eq_true.2 fun _ => isAsciiDigit_of_mem_toString, h⟩

theorem parseUnsigned_lt {w : ℕ} (h : parseUnsigned w bytes = some n) : n < 2 ^ w := by
  unfold parseUnsigned at h
  extract_lets digits at h
  split at h
  · rename_i hd
    cases h
    exact hd.2.2
  · cases h

end NetGet.Library
