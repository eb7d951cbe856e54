import NetGet.Library.Fallible
import NetGet.Model.Libp2pWire

/-! # Protobuf messages read exactly -/

namespace NetGet.Libp2pWire

open Library List

variable {v : UInt64} {b : Bytes}

/-- The number in groups of seven bits, the lowest first, and what follows it. -/
def splitNumber : Bytes → Option (ℕ × Bytes)
  | [] => none
  | byte :: b =>
    if byte.toNat < 128 then some (byte.toNat, b)
    else (splitNumber b).map fun p => (byte.toNat % 128 + 128 * p.1, p.2)

inductive Fault where
  | malformed
  | outOfRange
  deriving DecidableEq

/-- A number that has to fit in `bits` bits. -/
def number (bits : ℕ) (b : Bytes) : Except Fault (ℕ × Bytes) :=
  match splitNumber b with
  | none => .error .malformed
  | some (x, b) => if x < 2 ^ bits then .ok (x, b) else .error .outOfRange

/-- The fields of a message: numbers and strings of bytes. A field number has 29 bits. -/
def fieldsOf : ℕ → Bytes → Except Fault (List (ℕ × (ℕ ⊕ Bytes)))
  | _, [] => .ok []
  | 0, _ => .error .malformed
  | fuel + 1, b => do
    let (key, b) ← number 32 b
    match key % 8 with
    | 0 => do
      let (x, b) ← number 64 b
      return (key / 8, .inl x) :: (← fieldsOf fuel b)
    | 2 => do
      let (len, b) ← number 64 b
      if len ≤ b.length then
        return (key / 8, .inr (b.take len)) :: (← fieldsOf fuel (b.drop len))
      else .error .malformed
    | 1 => if 8 ≤ b.length then fieldsOf fuel (b.drop 8) else .error .malformed
    | 5 => if 4 ≤ b.length then fieldsOf fuel (b.drop 4) else .error .malformed
    | _ => .error .malformed

theorem and_flag_eq_zero (byte : UInt8) : byte &&& 0x80 = 0 ↔ byte.toNat < 128 := by
  have hall : ∀ n < 256, n &&& 0x80 = 0 ↔ n < 128 := by decide +kernel
  rw [← UInt8.toNat_inj, UInt8.toNat_and]
  exact hall _ byte.toNat_lt

/-- One more group, in a number of 64 bits. -/
theorem toNat_or_group {i : ℕ} (hi : i < 10) (hv : v.toNat < 2 ^ (7 * i)) (byte : UInt8) :
    (v ||| ((byte &&& 0x7f).toUInt64 <<< UInt64.ofNat (7 * i))).toNat =
      (v.toNat + 2 ^ (7 * i) * (byte.toNat % 128)) % 2 ^ 64 := by
  have hs : (UInt64.ofNat (7 * i)).toNat % 64 = 7 * i := by
    rw [UInt64.toNat_ofNat']
    omega
  have hlow : (byte &&& 0x7f).toNat = byte.toNat % 128 := by
    rw [UInt8.toNat_and]
    exact Nat.and_two_pow_sub_one_eq_mod byte.toNat 7
  have hvm : v.toNat = v.toNat % 2 ^ 64 := (Nat.mod_eq_of_lt v.toNat_lt).symm
  rw [UInt64.toNat_or, UInt64.toNat_shiftLeft, hs, UInt8.toNat_toUInt64, hlow, Nat.shiftLeft_eq,
    Nat.mul_comm, hvm, ← Nat.or_mod_two_pow, ← hvm, Nat.or_comm,
    ← Nat.two_pow_add_eq_or_of_lt hv, Nat.add_comm]

theorem uvarintFrom_eq_ok {v w : UInt64} {i n : ℕ} (hv : v.toNat < 2 ^ (7 * i))
    (h : uvarintFrom v i b = .ok (w, n)) :
    ∃ x k, splitNumber b = some (x, b.drop (k + 1)) ∧ n = i + k + 1 ∧
      w.toNat = (v.toNat + 2 ^ (7 * i) * x) % 2 ^ 64 := by
  induction b generalizing v i with
  | nil => cases h
  | cons byte b ih =>
    rw [uvarintFrom] at h
    split at h
    · cases h
    rename_i hi
    have hg := toNat_or_group (Nat.not_le.1 hi) hv byte
    rw [splitNumber]
    split_ifs at h with hz
    · rw [and_flag_eq_zero] at hz
      cases h
      exact ⟨byte.toNat, 0, if_pos hz, rfl, by rw [hg, Nat.mod_eq_of_lt hz]⟩
    · rw [and_flag_eq_zero] at hz
      have hnext : 2 ^ (7 * (i + 1)) = 2 ^ (7 * i) * 128 := by rw [Nat.mul_succ, Nat.pow_add]
      have hlt : (v ||| ((byte &&& 0x7f).toUInt64 <<< UInt64.ofNat (7 * i))).toNat <
          2 ^ (7 * (i + 1)) := by
        have hle : 2 ^ (7 * i) * (byte.toNat % 128 + 1) ≤ 2 ^ (7 * i) * 128 :=
          Nat.mul_le_mul_left _ (Nat.mod_lt _ (by decide))
        rw [Nat.mul_succ] at hle
        rw [hg, hnext]
        exact Nat.lt_of_le_of_lt (Nat.mod_le _ _) (by omega)
      obtain ⟨x, k, hs, hn, hw⟩ := ih hlt h
      refine ⟨byte.toNat % 128 + 128 * x, k + 1, ?_, by omega, ?_⟩
      · rw [if_neg hz, hs]
        rfl
      · rw [hw, hg, Nat.mod_add_mod, hnext, Nat.mul_add, Nat.mul_assoc, Nat.add_assoc]

theorem getUvarint_eq_ok {n : ℕ} (h : getUvarint b = .ok (v, n)) :
    0 < n ∧ ∃ x, splitNumber b = some (x, b.drop n) ∧ v.toNat = x % 2 ^ 64 := by
  obtain ⟨x, k, hs, rfl, hv⟩ := uvarintFrom_eq_ok (by decide) h
  refine ⟨Nat.succ_pos _, x, ?_, ?_⟩
  · rw [hs, Nat.zero_add]
  · simpa using hv

def shown (f : UInt32 × PbValue) : ℕ × (ℕ ⊕ Bytes) :=
  (f.1.toNat, match f.2 with
    | .varint v => .inl v.toNat
    | .bytes b => .inr b)

/-- The exact reading is this, unless it comes to a number out of range. -/
def Agrees {α : Type} (r : Except Fault α) (a : α) : Prop := r ≠ .error .outOfRange → r = .ok a

theorem Agrees.number {α : Type} {bits : ℕ} {n : ℕ} {a : α}
    {f : ℕ × Bytes → Except Fault α} (hb : bits ≤ 64) (h : getUvarint b = .ok (v, n))
    (hf : v.toNat < 2 ^ bits → Agrees (f (v.toNat, b.drop n)) a) :
    Agrees (number bits b >>= f) a := by
  obtain ⟨-, x, hs, hv⟩ := getUvarint_eq_ok h
  intro hne
  rw [Libp2pWire.number, hs] at hne ⊢
  simp only at hne ⊢
  split_ifs at hne with hx
  · have hlt : x < 2 ^ 64 := Nat.lt_of_lt_of_le hx (Nat.pow_le_pow_right (by decide) hb)
    rw [Nat.mod_eq_of_lt hlt] at hv
    subst hv
    rw [if_pos hx]
    exact hf hx hne
  · exact absurd rfl hne

theorem Agrees.cons {α : Type} {r : Except Fault (List α)} {a : α} {l : List α} (h : Agrees r l) :
    Agrees (r >>= fun l => pure (a :: l)) (a :: l) := by
  intro hne
  have hr : r ≠ .error .outOfRange := fun he => hne (by rw [he]; rfl)
  rw [h hr]
  rfl

theorem pbFieldsFrom_agrees {max fuel : ℕ} {out res : List (UInt32 × PbValue)}
    (hf : b.length ≤ fuel) (h : pbFieldsFrom max fuel out b = .ok res) :
    ∃ fs, res.map shown = out.map shown ++ fs ∧ Agrees (fieldsOf fuel b) fs := by
  induction fuel generalizing b out with
  | zero =>
    obtain rfl := eq_nil_of_length_eq_zero (Nat.le_zero.1 hf)
    cases h
    exact ⟨[], (append_nil _).symm, fun _ => rfl⟩
  | succ fuel ih =>
    cases b with
    | nil =>
      cases h
      exact ⟨[], (append_nil _).symm, fun _ => rfl⟩
    | cons byte b =>
      obtain ⟨-, -, h⟩ := bind_eq_ok.1 h
      obtain ⟨⟨key, n⟩, hk, h⟩ := bind_eq_ok.1 h
      have hn := (getUvarint_eq_ok hk).1
      have hd : ((byte :: b).drop n).length ≤ fuel := by
        rw [length_drop]
        omega
      have hkey : (key &&& 7).toNat = key.toNat % 8 := by
        rw [UInt64.toNat_and]
        exact Nat.and_two_pow_sub_one_eq_mod key.toNat 3
      have hfield : key.toNat < 2 ^ 32 → (key >>> 3).toUInt32.toNat = key.toNat / 8 := by
        intro hlt
        rw [UInt64.toNat_toUInt32, UInt64.toNat_shiftRight, Nat.shiftRight_eq_div_pow]
        exact Nat.mod_eq_of_lt (Nat.lt_of_le_of_lt (Nat.div_le_self _ _) hlt)
      simp only [hkey] at h
      split at h
      case h_1 hmod =>
        obtain ⟨⟨v, n'⟩, hv, h⟩ := bind_eq_ok.1 h
        obtain ⟨fs, hres, hfs⟩ := ih (by rw [length_drop]; omega) h
        rw [map_append, append_assoc] at hres
        refine ⟨_, hres, .number (by decide) hk fun hlt => ?_⟩
        simp only [hmod, map_cons, shown, hfield hlt]
        exact .number (by decide) hv fun _ => hfs.cons
      case h_2 hmod =>
        obtain ⟨⟨len, n'⟩, hv, h⟩ := bind_eq_ok.1 h
        obtain ⟨_, hle, h⟩ := bind_eq_ok.1 h
        obtain ⟨fs, hres, hfs⟩ := ih (by rw [length_drop, length_drop]; omega) h
        rw [map_append, append_assoc] at hres
        refine ⟨_, hres, .number (by decide) hk fun hlt => ?_⟩
        simp only [hmod, map_cons, shown, hfield hlt]
        refine .number (by decide) hv fun _ => ?_
        rw [if_pos (by simpa using hle)]
        exact hfs.cons
      case h_5 => cases h
      all_goals
        rename_i hmod
        obtain ⟨_, hle, h⟩ := bind_eq_ok.1 h
        obtain ⟨fs, hres, hfs⟩ := ih (by rw [length_drop]; omega) h
        refine ⟨fs, hres, .number (by decide) hk fun _ => ?_⟩
        simp only [hmod]
        rwa [if_pos (by simpa using hle)]

/-- What is accepted is read exactly, as long as no number in it is out of range. -/
theorem pbFields_exact_iff (b : Bytes) (out : List (UInt32 × PbValue)) (h : pbFields b = .ok out) :
    fieldsOf b.length b = .ok (out.map shown) ↔ fieldsOf b.length b ≠ .error .outOfRange := by
  obtain ⟨fs, hout, hfs⟩ := pbFieldsFrom_agrees (Nat.le_refl _) h
  rw [hout]
  exact ⟨fun h he => by simp [h] at he, hfs⟩

theorem pbFields_exact_sample : fieldsOf 4 [8, 1, 18, 0] = .ok [(1, .inl 1), (2, .inr [])] :=
  (pbFields_exact_iff [8, 1, 18, 0] [(1, .varint 1), (2, .bytes [])] (by decide)).2 (by decide)

/-- Field `2 ^ 32 + 1` is read as field 1. -/
theorem pbFields_aliased :
    pbFields [136, 128, 128, 128, 128, 1, 7] = .ok [(1, .varint 7)] ∧
      fieldsOf 7 [136, 128, 128, 128, 128, 1, 7] = .error .outOfRange := by
  decide

end NetGet.Libp2pWire
