import NetGet.Library.BigEndian
import Mathlib.Data.List.GetD

/-! # Bits packed into bytes

A sequence of bits is stored in bytes, the highest bit of a byte first. A writer appends bits to what
it holds, and a reader that stands at the right place of the bytes finds them there. -/

namespace NetGet.Library

open List

/-- The low `n` bits of a number, the highest first. -/
def bitsOf : ℕ → ℕ → List Bool
  | 0, _ => []
  | n + 1, v => v.testBit n :: bitsOf n v

def bitsOfBytes (bytes : List UInt8) : List Bool := bytes.flatMap fun b => bitsOf 8 b.toNat

/-- The bit at a place; zero behind the end. -/
def bitAt (data : List UInt8) (i : ℕ) : Bool := (data.getD (i / 8) 0).toNat.testBit (7 - i % 8)

@[simp] theorem length_bitsOf (n v : ℕ) : (bitsOf n v).length = n := by
  induction n with
  | zero => rfl
  | succ n ih => rw [bitsOf, length_cons, ih]

@[simp] theorem length_bitsOfBytes (bytes : List UInt8) :
    (bitsOfBytes bytes).length = bytes.length * 8 := by
  induction bytes with
  | nil => rfl
  | cons b bytes ih =>
    rw [bitsOfBytes, flatMap_cons, length_append, length_bitsOf]
    change 8 + (bitsOfBytes bytes).length = _
    rw [ih, length_cons]
    omega

theorem getElem?_bitsOf {n i : ℕ} (hi : i < n) (v : ℕ) :
    (bitsOf n v)[i]? = some (v.testBit (n - 1 - i)) := by
  induction n generalizing i with
  | zero => cases hi
  | succ n ih =>
    cases i with
    | zero => rfl
    | succ i =>
      rw [bitsOf, getElem?_cons_succ, ih (by omega)]
      congr 2
      omega

variable {data : List UInt8} {i : ℕ} {bs : List Bool}

theorem bitAt_of_le (h : data.length * 8 ≤ i) : bitAt data i = false := by
  have hout : data.length ≤ i / 8 := by omega
  rw [bitAt, getD_eq_default _ _ hout]
  exact Nat.zero_testBit _

theorem bitAt_append_left (h : i < data.length * 8) (more : List UInt8) :
    bitAt (data ++ more) i = bitAt data i := by
  rw [bitAt, bitAt, getD_append _ _ _ _ (by omega)]

theorem bitAt_append_right (h : data.length * 8 ≤ i) (more : List UInt8) :
    bitAt (data ++ more) i = bitAt more (i - data.length * 8) := by
  have hb : i / 8 - data.length = (i - data.length * 8) / 8 := by omega
  have hbit : i % 8 = (i - data.length * 8) % 8 := by omega
  rw [bitAt, bitAt, getD_append_right _ _ _ _ (by omega), hb, hbit]

theorem getElem?_bitsOfBytes {bytes : List UInt8} (h : i < bytes.length * 8) :
    (bitsOfBytes bytes)[i]? = some (bitAt bytes i) := by
  induction bytes generalizing i with
  | nil => simp at h
  | cons b bytes ih =>
    rw [length_cons] at h
    change (bitsOf 8 b.toNat ++ bitsOfBytes bytes)[i]? = some (bitAt ([b] ++ bytes) i)
    by_cases hi : i < 8
    · have hf : bitAt [b] i = b.toNat.testBit (8 - 1 - i) := by
        rw [bitAt, Nat.div_eq_of_lt hi, Nat.mod_eq_of_lt hi]
        rfl
      rw [getElem?_append_left (by rwa [length_bitsOf]), getElem?_bitsOf hi,
        bitAt_append_left (by simpa using hi), hf]
    · rw [getElem?_append_right (by rw [length_bitsOf]; omega), length_bitsOf,
        ih (by omega), bitAt_append_right (by simp; omega)]
      rfl

theorem getD_concat_ne (h : i ≠ bs.length) (b : Bool) :
    (bs ++ [b]).getD i false = bs.getD i false := by
  by_cases hi : i < bs.length
  · rw [getD_append _ _ _ _ hi]
  · rw [getD_eq_default _ _ (by rw [length_append, length_singleton]; omega),
      getD_eq_default _ _ (by omega)]

/-- The bytes are just these bits, filled up with zeros. -/
structure Packs (bs : List Bool) (data : List UInt8) : Prop where
  length_eq : data.length = (bs.length + 7) / 8
  bitAt_eq : ∀ i, bitAt data i = bs.getD i false

namespace Packs

variable {bs : List Bool} {data : List UInt8}

theorem nil : Packs [] [] where
  length_eq := rfl
  bitAt_eq := fun i => bitAt_of_le (Nat.zero_le i)

theorem zeros (h : Packs bs data) {k : ℕ} (hk : (bs.length + k + 7) / 8 = (bs.length + 7) / 8) :
    Packs (bs ++ List.replicate k false) data where
  length_eq := by rw [h.length_eq, length_append, length_replicate, hk]
  bitAt_eq := by
    intro i
    rw [h.bitAt_eq]
    by_cases hi : i < bs.length
    · rw [getD_append _ _ _ _ hi]
    · rw [getD_eq_default _ _ (by omega), getD_append_right _ _ _ _ (by omega)]
      simp [getD, getElem?_replicate]
      split <;> rfl

theorem byte (h : Packs bs data) (hf : bs.length % 8 = 0) :
    Packs (bs ++ [false]) (data ++ [0]) where
  length_eq := by
    rw [length_append, h.length_eq, length_append, length_singleton, length_singleton]
    omega
  bitAt_eq := by
    intro i
    have hl := h.length_eq
    by_cases hi : i < data.length * 8
    · rw [bitAt_append_left hi, h.bitAt_eq, getD_append _ _ _ _ (by omega)]
    rw [bitAt_append_right (by omega), getD_append_right _ _ _ _ (by omega)]
    generalize i - bs.length = k
    have hz : bitAt [0] (i - data.length * 8) = false := by
      rw [bitAt]
      cases (i - data.length * 8) / 8 <;> simp
    rw [hz]
    cases k <;> simp

theorem mark (h : Packs (bs ++ [false]) data) :
    Packs (bs ++ [true])
      (data.modify (data.length - 1) (· ||| UInt8.ofNat (2 ^ (7 - bs.length % 8)))) where
  length_eq := by
    rw [length_modify, h.length_eq, length_append, length_append]
    rfl
  bitAt_eq := by
    intro i
    have hl := h.length_eq
    rw [length_append, length_singleton] at hl
    have hm : (UInt8.ofNat (2 ^ (7 - bs.length % 8))).toNat = 2 ^ (7 - bs.length % 8) := by
      rw [UInt8.toNat_ofNat']
      exact Nat.mod_eq_of_lt (Nat.pow_lt_pow_right (by decide) (by omega))
    have hold := h.bitAt_eq i
    rw [bitAt, getD, getElem?_modify]
    by_cases hb : data.length - 1 = i / 8
    · have hin : i / 8 < data.length := by omega
      rw [bitAt, getD, getElem?_eq_getElem hin] at hold
      simp only [if_pos hb]
      rw [getElem?_eq_getElem hin]
      change (data[i / 8].toNat ||| (UInt8.ofNat _).toNat).testBit _ = _
      change data[i / 8].toNat.testBit _ = _ at hold
      rw [Nat.testBit_or, hold, hm, Nat.testBit_two_pow]
      by_cases hi : i = bs.length
      · rw [hi, getD_append_right _ _ _ _ (Nat.le_refl _)]
        simp
      · have hne : ¬ 7 - bs.length % 8 = 7 - i % 8 := by omega
        rw [decide_eq_false hne, Bool.or_false, getD_concat_ne hi, getD_concat_ne hi]
    · have hi : i ≠ bs.length := by omega
      simp only [if_neg hb, id_map']
      rw [getD_concat_ne hi] at hold ⊢
      exact hold

/-- A bit is appended: to the last byte, or as the first one of a new byte. -/
theorem push (h : Packs bs data) (b : Bool) :
    Packs (bs ++ [b])
      (let data := if bs.length % 8 = 0 then data ++ [0] else data
       if b then data.modify (data.length - 1) (· ||| UInt8.ofNat (2 ^ (7 - bs.length % 8)))
       else data) := by
  have hz : Packs (bs ++ [false]) (if bs.length % 8 = 0 then data ++ [0] else data) := by
    split
    · rename_i hf
      exact h.byte hf
    · exact h.zeros (k := 1) (by omega)
  cases b with
  | false => exact hz
  | true => exact hz.mark

theorem bytes (h : Packs bs data) (hf : bs.length % 8 = 0) (more : List UInt8) :
    Packs (bs ++ bitsOfBytes more) (data ++ more) where
  length_eq := by
    rw [length_append, h.length_eq, length_append, length_bitsOfBytes]
    omega
  bitAt_eq := by
    intro i
    have hl := h.length_eq
    have hb : data.length * 8 = bs.length := by omega
    by_cases hi : i < data.length * 8
    · rw [bitAt_append_left hi, h.bitAt_eq, getD_append _ _ _ _ (by omega)]
    rw [bitAt_append_right (by omega), getD_append_right _ _ _ _ (by omega), hb, getD]
    by_cases hin : i - bs.length < more.length * 8
    · rw [getElem?_bitsOfBytes hin]
      rfl
    · rw [bitAt_of_le (by omega), getElem?_eq_none (by rw [length_bitsOfBytes]; omega)]
      rfl

end Packs

/-- The bits are in the bytes, from a place on. -/
structure Has (data : List UInt8) (pos : ℕ) (bs : List Bool) : Prop where
  le : pos + bs.length ≤ data.length * 8
  get : ∀ i b, bs[i]? = some b → bitAt data (pos + i) = b

theorem Packs.has (h : Packs bs data) : Has data 0 bs where
  le := by
    have hl := h.length_eq
    omega
  get := by
    intro i b hb
    rw [Nat.zero_add, h.bitAt_eq, getD, hb]
    rfl

namespace Has

variable {data : List UInt8} {pos : ℕ}

theorem append_iff {bs' : List Bool} :
    Has data pos (bs ++ bs') ↔ Has data pos bs ∧ Has data (pos + bs.length) bs' := by
  constructor
  · rintro ⟨hle, hget⟩
    rw [length_append] at hle
    refine ⟨⟨by omega, fun i b hb => hget i b ?_⟩, ⟨by omega, fun i b hb => ?_⟩⟩
    · rw [getElem?_append_left (List.getElem?_eq_some_iff.1 hb).1, hb]
    · rw [Nat.add_assoc]
      exact hget _ b (by rw [getElem?_append_right (by omega), Nat.add_sub_cancel_left, hb])
  rintro ⟨⟨hle, hget⟩, ⟨hle', hget'⟩⟩
  refine ⟨by rw [length_append]; omega, fun i b hb => ?_⟩
  by_cases hi : i < bs.length
  · exact hget i b (by rwa [getElem?_append_left hi] at hb)
  · rw [getElem?_append_right (by omega)] at hb
    have h := hget' _ b hb
    rwa [Nat.add_assoc, Nat.add_sub_cancel' (by omega)] at h

theorem take_drop {k : ℕ} {bytes : List UInt8} (h : Has data (k * 8) (bitsOfBytes bytes)) :
    (data.drop k).take bytes.length = bytes := by
  have hle := h.le
  rw [length_bitsOfBytes] at hle
  apply ext_getElem
  · rw [length_take, length_drop]
    omega
  intro j hj hj'
  rw [getElem_take, getElem_drop]
  apply UInt8.toNat_inj.1
  apply Nat.eq_of_testBit_eq
  intro t
  by_cases ht : t < 8
  · have hbit := h.get (j * 8 + (7 - t)) (bitAt bytes (j * 8 + (7 - t)))
      (getElem?_bitsOfBytes (by omega))
    have hp : (k * 8 + (j * 8 + (7 - t))) / 8 = k + j := by omega
    have hp' : (j * 8 + (7 - t)) / 8 = j := by omega
    have hs : 7 - (k * 8 + (j * 8 + (7 - t))) % 8 = t := by omega
    have hs' : 7 - (j * 8 + (7 - t)) % 8 = t := by omega
    rw [bitAt, bitAt, hp, hp', hs, hs', getD, getD,
      getElem?_eq_getElem (by omega), getElem?_eq_getElem hj'] at hbit
    exact hbit
  · have hb : ∀ b : UInt8, b.toNat.testBit t = false := fun b =>
      Nat.testBit_lt_two_pow (Nat.lt_of_lt_of_le b.toNat_lt (Nat.pow_le_pow_right (by decide)
        (by omega : 8 ≤ t)))
    rw [hb, hb]

end Has

end NetGet.Library
