import NetGet.Model.Timestamp
import Mathlib.Data.List.Induction

/-! # Timestamps that keep their text -/

namespace NetGet.Gsm

open Library List

variable {t : String} {i : ℕ}

def places : List ℕ := [2, 5, 8, 11, 14, 17, 20, 23]

/-- Two bytes that can be cut out are no number, and no character is split at the places before. -/
def RefusedAt (t : String) : List ℕ → Prop
  | [] => False
  | i :: rest => (∃ s, twoAt t i = some s ∧ parseUnsigned 8 s = none) ∨
      twoAt t i ≠ none ∧ RefusedAt t rest

def valueAt (t : String) (i : ℕ) : ℕ := ((twoAt t i).bind (parseUnsigned 8)).getD 0

theorem run_num (t : String) (i : ℕ) :
    (num t i).run = (twoAt t i).map fun s => (parseUnsigned 8 s).elim (.error ⟨t⟩) .ok := rfl

theorem mapM_num_cases (t : String) (l : List ℕ) :
    ((l.mapM (num t)).run = some (.error ⟨t⟩) ∧ RefusedAt t l) ∨ ¬ RefusedAt t l ∧
      ((l.mapM (num t)).run = none ∧ (∃ i ∈ l, twoAt t i = none) ∨
        (l.mapM (num t)).run = some (.ok (l.map (valueAt t))) ∧ ∀ i ∈ l, twoAt t i ≠ none) := by
  induction l with
  | nil => exact .inr ⟨id, .inr ⟨rfl, forall_mem_nil _⟩⟩
  | cons i l ih =>
    rw [mapM_cons, RefusedAt, ExceptT.run_bind]
    cases hs : twoAt t i with
    | none => simp [run_num, hs]
    | some s =>
      cases hp : parseUnsigned 8 s with
      | none => simp [run_num, hs, hp]
      | some v => rcases ih with ⟨hr, h⟩ | ⟨h, ⟨hr, h'⟩ | ⟨hr, h'⟩⟩ <;>
          simp_all [run_num, valueAt, Except.map]

theorem decimalValue_lt {digits : List UInt8} (h : ∀ b ∈ digits, isAsciiDigit b = true) :
    decimalValue digits < 10 ^ digits.length := by
  induction digits using reverseRecOn with
  | nil => decide
  | append_singleton digits b ih =>
    have hb := h b (by simp)
    have hlt := ih fun b hb => h b (by simp [hb])
    simp only [isAsciiDigit, Bool.and_eq_true, decide_eq_true_eq] at hb
    rw [decimalValue, foldl_concat, ← decimalValue, length_append, length_singleton, Nat.pow_succ]
    omega

theorem valueAt_lt (t : String) (i : ℕ) : valueAt t i < 100 := by
  rw [valueAt]
  cases hv : (twoAt t i).bind (parseUnsigned 8) with
  | none => decide
  | some v =>
    obtain ⟨s, hs, hp⟩ := Option.bind_eq_some_iff.1 hv
    obtain ⟨-, hs⟩ := Option.ite_none_right_eq_some.1 hs
    cases hs
    obtain ⟨⟨-, hall, -⟩, hp⟩ := Option.ite_none_right_eq_some.1 hp
    cases hp
    refine Nat.lt_of_lt_of_le (decimalValue_lt (all_eq_true.1 hall))
      (Nat.pow_le_pow_right (by decide) ?_ : _ ≤ 10 ^ 2)
    split
    · rw [length_tail]
      exact Nat.le_trans (Nat.sub_le _ _) (length_take_le _ _)
    · exact length_take_le _ _

/-- The octets of eight numbers and a sign. -/
def octets (v : ℕ → ℕ) (negative : Bool) : List UInt8 :=
  [semi (v 2), semi (v 5), semi (v 8), semi (v 11), semi (v 14), semi (v 17),
    semi ((v 20 * 60 + v 23) / 15 % 256) ||| if negative then 0x08 else 0]

/-- The text is refused: it has the wrong length or century, a number cannot be read before a
character is split, or there is no sign. -/
def Refused (t : String) : Prop :=
  (utf8 t).length ≠ 25 ∨ (utf8 t).take 2 ≠ utf8 "20" ∨ RefusedAt t places ∨
    (∀ i ∈ places, twoAt t i ≠ none) ∧ (utf8 t).getD 19 0 ≠ 43 ∧ (utf8 t).getD 19 0 ≠ 45

theorem timestampEncode_eq (t : String) : timestampEncode t =
    if (utf8 t).length ≠ 25 ∨ (utf8 t).take 2 ≠ utf8 "20" then throw ⟨t⟩
    else places.mapM (num t) >>= fun vs =>
      if (utf8 t).getD 19 0 ≠ 43 ∧ (utf8 t).getD 19 0 ≠ 45 then throw ⟨t⟩
      else pure ((vs.take 6).map semi ++ [semi ((vs.getD 6 0 * 60 + vs.getD 7 0) / 15 % 256) |||
        if (utf8 t).getD 19 0 = 45 then 0x08 else 0]) := by
  simp only [timestampEncode, places, mapM_cons, mapM_nil, bind_assoc, pure_bind]
  split <;> rfl

theorem timestampEncode_cases (t : String) :
    ((timestampEncode t).run = some (.error ⟨t⟩) ∧ Refused t) ∨ ¬ Refused t ∧
      ((timestampEncode t).run = none ∧ (∃ i ∈ places, twoAt t i = none) ∨
        (timestampEncode t).run = some (.ok (octets (valueAt t) ((utf8 t).getD 19 0 = 45)))) := by
  rw [timestampEncode_eq]
  by_cases h : (utf8 t).length ≠ 25 ∨ (utf8 t).take 2 ≠ utf8 "20"
  · rw [if_pos h]
    exact .inl ⟨rfl, or_assoc.1 (.inl h)⟩
  obtain ⟨hl, hy⟩ := not_or.1 h
  rw [if_neg h, ExceptT.run_bind, Refused, or_iff_right hl, or_iff_right hy]
  rcases mapM_num_cases t places with ⟨hr, hre⟩ | ⟨hno, ⟨hr, i, hi, hn⟩ | ⟨hr, hall⟩⟩
  · rw [hr]
    exact .inl ⟨rfl, .inl hre⟩
  · rw [hr, or_iff_right hno]
    exact .inr ⟨fun hs => hs.1 i hi hn, .inl ⟨rfl, i, hi, hn⟩⟩
  · rw [hr, or_iff_right hno]
    by_cases hs : (utf8 t).getD 19 0 ≠ 43 ∧ (utf8 t).getD 19 0 ≠ 45
    · exact .inl ⟨congr_arg ExceptT.run (if_pos hs), hall, hs⟩
    · refine .inr ⟨fun h => hs h.2, .inr ((congr_arg ExceptT.run (if_neg hs)).trans ?_)⟩
      simp only [octets, decide_eq_true_eq]
      rfl

def zoneOf (q : ℕ) (negative : Bool) : ℤ :=
  let raw := semi q ||| if negative then 0x08 else 0
  ((raw &&& 0x07).toNat * 10 + (raw >>> 4).toNat : ℕ) * if raw &&& 0x08 != 0 then -1 else 1

theorem natAbs_zoneOf : ∀ q < 256, ∀ n, (zoneOf q n).natAbs < 80 := by decide +kernel

theorem zoneOf_of_lt : ∀ q < 80, ∀ n, zoneOf q n = if n then -(q : ℤ) else q := by decide +kernel

theorem semi_back :
    ∀ v < 100, (semi v &&& 0x0f).toNat * 10 + (semi v >>> 4).toNat = v := by decide +kernel

theorem timestampDecode_octets {v : ℕ → ℕ} (h : ∀ i, v i < 100) (negative : Bool) :
    timestampDecode (octets v negative) = render (fun i => v (3 * i + 2))
      (zoneOf ((v 20 * 60 + v 23) / 15 % 256) negative * 15) := by
  have hfield : ∀ i : Fin 6, (octets v negative).getD i 0 = semi (v (3 * i + 2)) := by
    intro i
    match i with
    | 0 | 1 | 2 | 3 | 4 | 5 => rfl
  have hlast : (octets v negative).getD 6 0 =
    semi ((v 20 * 60 + v 23) / 15 % 256) ||| if negative then 0x08 else 0 := rfl
  rw [timestampDecode]
  simp only [hfield, hlast, semi_back _ (h _), zoneOf]
  rw [Int.mul_right_comm]

/-- Six numbers of two digits, and a time zone of less than twenty hours in quarters of an hour. -/
structure Timestamp where
  field : Fin 6 → ℕ
  lt : ∀ i, field i < 100
  zone : ℤ
  near : zone.natAbs < 80

def Timestamp.text (s : Timestamp) : String := render s.field (s.zone * 15)

def two (n : ℕ) : List UInt8 := [UInt8.ofNat (48 + n / 10), UInt8.ofNat (48 + n % 10)]

theorem utf8_join (l : List String) : utf8 (.join l) = (l.map utf8).flatten := by
  induction l with
  | nil => rfl
  | cons a l ih =>
    rw [map_cons, flatten_cons, ← ih, String.join_cons]
    simp [utf8]

theorem two_spec : ∀ n < 100, utf8 (padded 2 n) = two n ∧ parseUnsigned 8 (two n) = some n ∧
    (48 + UInt8.ofNat (n / 10)) &&& 0xc0 ≠ 0x80 := by decide +kernel

namespace Timestamp

variable (s : Timestamp)

theorem utf8_text : utf8 s.text = [[50, 48], two (s.field 0), [45], two (s.field 1), [45],
    two (s.field 2), [84], two (s.field 3), [58], two (s.field 4), [58], two (s.field 5),
    [if s.zone < 0 then 45 else 43], two (s.zone.natAbs * 15 / 60), [58],
    two (s.zone.natAbs * 15 % 60)].flatten := by
  have hz := s.near
  have hsign : utf8 (if s.zone * 15 < 0 then "-" else "+") =
      [if s.zone < 0 then 45 else 43] := by
    have hiff : s.zone * 15 < 0 ↔ s.zone < 0 := by omega
    simp only [hiff]
    split <;> decide
  have hlit : utf8 "20" = [50, 48] ∧ utf8 "-" = [45] ∧ utf8 "T" = [84] ∧ utf8 ":" = [58] := by
    decide
  have habs : (s.zone * 15).natAbs = s.zone.natAbs * 15 := by omega
  have hh := (two_spec (s.zone.natAbs * 15 / 60) (by omega)).1
  have hm := (two_spec (s.zone.natAbs * 15 % 60) (by omega)).1
  have hf : ∀ i, utf8 (padded 2 (s.field i)) = two (s.field i) := fun i => (two_spec _ (s.lt i)).1
  rw [text, render, utf8_join]
  simp only [map_cons, map_nil, hsign, hlit, habs, hf, hh, hm]

def value (i : ℕ) : ℕ :=
  if h : i / 3 < 6 then s.field ⟨i / 3, h⟩
  else if i = 20 then s.zone.natAbs * 15 / 60
  else s.zone.natAbs * 15 % 60

theorem twoAt_text : ∀ i ∈ places, s.value i < 100 ∧ twoAt s.text i = some (two (s.value i)) := by
  have hz := s.near
  have hh : s.zone.natAbs * 15 / 60 < 100 := by omega
  have hm : s.zone.natAbs * 15 % 60 < 100 := by omega
  have hsep : ¬ (45 : UInt8) &&& 192 = 128 ∧ ¬ (58 : UInt8) &&& 192 = 128 ∧
      ¬ (84 : UInt8) &&& 192 = 128 := by decide
  have hsign : ¬ (if s.zone < 0 then 45 else 43 : UInt8) &&& 192 = 128 := by
    split <;> decide
  have htwo : ∀ n < 100, ¬ (48 + UInt8.ofNat (n / 10)) &&& 0xc0 = 0x80 :=
    fun n hn => (two_spec n hn).2.2
  simp [places, value, twoAt, isCharBoundary, s.utf8_text, two, htwo, s.lt, hh, hm, hsep, hsign]

theorem valueAt_text (hi : i ∈ places) : valueAt s.text i = s.value i := by
  obtain ⟨hlt, htwo⟩ := s.twoAt_text i hi
  rw [valueAt, htwo, Option.bind_some, (two_spec _ hlt).2.1, Option.getD_some]

theorem decode_text :
    timestampDecode (octets (valueAt s.text) ((utf8 s.text).getD 19 0 = 45)) = s.text := by
  have hz := s.near
  have hsign : ((utf8 s.text).getD 19 0 = 45) = (s.zone < 0) := by
    rw [s.utf8_text]
    by_cases h : s.zone < 0 <;> simp [two, h]
  have hq : (valueAt s.text 20 * 60 + valueAt s.text 23) / 15 % 256 = s.zone.natAbs := by
    rw [s.valueAt_text (by decide), s.valueAt_text (by decide)]
    simp [value]
    omega
  have hf : (fun i : Fin 6 => valueAt s.text (3 * i + 2)) = s.field := by
    funext i
    match i with
    | 0 | 1 | 2 | 3 | 4 | 5 => exact s.valueAt_text (by decide)
  have hzone : (if s.zone < 0 then -(s.zone.natAbs : ℤ) else s.zone.natAbs) = s.zone := by omega
  rw [timestampDecode_octets (valueAt_lt _), hq, hf, zoneOf_of_lt _ hz]
  simp only [hsign, decide_eq_true_eq, hzone]
  rfl

end Timestamp

/-- **Keeping a timestamp**: the text is refused, or encoded as octets that are decoded as the same
text, exactly when it is one of those above or the encoder refuses it; every other text makes the
encoder panic or comes back changed. -/
theorem timestampEncode_keeps_iff (t : String) :
    (∃ r, (timestampEncode t).run = some r ∧ ∀ o, r = .ok o → timestampDecode o = t) ↔
      Refused t ∨ ∃ s : Timestamp, s.text = t := by
  rcases timestampEncode_cases t with ⟨hr, href⟩ | ⟨hno, ⟨hr, i, hi, hn⟩ | hr⟩
  · exact iff_of_true ⟨_, hr, fun o h => by cases h⟩ (.inl href)
  · rw [or_iff_right hno, hr]
    refine iff_of_false (fun ⟨r, h, _⟩ => by cases h) ?_
    rintro ⟨s, rfl⟩
    cases hn.symm.trans (s.twoAt_text i hi).2
  · rw [or_iff_right hno, hr]
    constructor
    · rintro ⟨r, h, hall⟩
      cases h
      have hdec := hall _ rfl
      rw [timestampDecode_octets (valueAt_lt t)] at hdec
      exact ⟨⟨_, fun i => valueAt_lt t _, _, natAbs_zoneOf _ (Nat.mod_lt _ (by decide)) _⟩, hdec⟩
    · rintro ⟨s, rfl⟩
      refine ⟨_, rfl, fun o h => ?_⟩
      cases h
      exact s.decode_text

/-- A text with a place inside a character makes the encoder panic, and a time zone that is not a
number of quarters of an hour comes back as another. -/
theorem timestampEncode_changes :
    (timestampEncode "202é01-01T00:00:00+00:00").run = none ∧
      (timestampEncode "2026-01-01T00:00:00+00:07").run = some (.ok [98, 16, 16, 0, 0, 0, 0]) ∧
      timestampDecode [98, 16, 16, 0, 0, 0, 0] = "2026-01-01T00:00:00+00:00" := by
  decide +kernel

end NetGet.Gsm
