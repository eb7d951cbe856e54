import NetGet.Verification.Per.Stream
import Mathlib.Data.Nat.Log

/-! # Values without parts -/

namespace NetGet.Per

open Library List Option Mirrors

theorem signed64_eq_ok {i r : ℤ} (h : signed64 i = .ok r) : r = i ∧ -2 ^ 63 ≤ i ∧ i < 2 ^ 63 := by
  rw [signed64] at h
  split at h
  · rename_i hi
    exact ⟨(Except.ok.inj h).symm, hi⟩
  · cases h

theorem unsigned64_eq_ok {n r : ℕ} (h : unsigned64 n = .ok r) : r = n ∧ n < 2 ^ 64 := by
  rw [unsigned64] at h
  split at h
  · rename_i hn
    exact ⟨(Except.ok.inj h).symm, hn⟩
  · cases h

def fromSigned (raw : Bytes) : ℤ :=
  raw.foldl (fun v b => v * 256 + (b.toNat : ℤ)) (if 128 ≤ (raw.headD 0).toNat then -1 else 0)

theorem foldl_signed (raw : Bytes) (start : ℤ) :
    raw.foldl (fun v b => v * 256 + (b.toNat : ℤ)) start =
      start * 256 ^ raw.length + (fromBe raw : ℤ) := by
  induction raw using reverseRecOn with
  | nil => simp
  | append_singleton raw b ih =>
    rw [foldl_append, ih, fromBe_concat, length_append, length_singleton]
    simp only [foldl_cons, foldl_nil]
    push_cast
    ring

theorem fromSigned_eq (raw : Bytes) :
    fromSigned raw = (if 128 ≤ (raw.headD 0).toNat then -1 else 0) * 256 ^ raw.length +
      (fromBe raw : ℤ) :=
  foldl_signed raw _

/-- The bytes that are left out repeat the sign. -/
theorem fromSigned_significant (raw : Bytes) : fromSigned (significant raw) = fromSigned raw := by
  induction raw with
  | nil => rfl
  | cons a raw ih =>
    cases raw with
    | nil => rfl
    | cons b raw =>
      rw [significant]
      split_ifs with hr
      · rw [ih, fromSigned_eq, fromSigned_eq, fromBe_cons a, length_cons (a := a)]
        obtain ⟨rfl, hb⟩ | ⟨rfl, hb⟩ := hr
        · simp [Nat.not_le.2 hb]
        · simp [hb]
          ring
      · rfl

variable {raw : Bytes} {n : ℤ} {w w' : Writer} {what : String} {size : Size}
  {source : Option String} {kind : CharKind}

theorem length_significant_pos (h : raw ≠ []) :
    0 < (significant raw).length ∧ (significant raw).length ≤ raw.length := by
  induction raw with
  | nil => exact absurd rfl h
  | cons a raw ih =>
    cases raw with
    | nil => exact ⟨Nat.one_pos, Nat.le_refl _⟩
    | cons b raw =>
      rw [significant]
      split
      · obtain ⟨hpos, hle⟩ := ih nofun
        exact ⟨hpos, Nat.le_succ_of_le hle⟩
      · exact ⟨Nat.succ_pos _, Nat.le_refl _⟩

theorem fromSigned_toBe (hlow : -2 ^ 63 ≤ n) (hhi : n < 2 ^ 63) :
    fromSigned (toBe 8 (asU64 n)) = n := by
  have hu : asU64 n < 2 ^ 64 := by
    rw [asU64]
    omega
  have hh : ((toBe 8 (asU64 n)).headD 0).toNat = asU64 n / 2 ^ 56 := by
    rw [toBe_succ, headD_cons, UInt8.toNat_ofNat']
    omega
  have hpow : 256 ^ 8 = 2 ^ 64 := by decide
  rw [fromSigned_eq, hh, length_toBe, fromBe_toBe, hpow, Nat.mod_eq_of_lt hu]
  rw [asU64] at hu ⊢
  split <;> omega

theorem mirrors_unconstrained (hlow : -2 ^ 63 ≤ n) (hh : n < 2 ^ 63)
    (h : putUnconstrained w n what = .ok w') (what' : String) :
    Mirrors w w' (fun r => unconstrained r what') n := by
  obtain ⟨w₁, hw₁, h⟩ := bind_eq_ok.1 h
  cases h
  have hne : toBe 8 (asU64 n) ≠ [] := by
    rw [toBe_succ]
    exact nofun
  obtain ⟨hpos, hle⟩ := length_significant_pos hne
  rw [length_toBe] at hle
  have hlen : ¬ ((significant (toBe 8 (asU64 n))).length = 0 ∨
      8 < (significant (toBe 8 (asU64 n))).length) := by omega
  simp only [unconstrained]
  refine bind (mirrors_generalLength hw₁ what') ?_
  simp only [if_neg hlen]
  have hr := (mirrors_octets w₁ (significant (toBe 8 (asU64 n))) what').map fromSigned
  rw [fromSigned_significant, fromSigned_toBe hlow hh] at hr
  exact hr

theorem bmod_of_lt {n m : ℕ} (h : 2 * n < m) : (n : ℤ).bmod m = n := by
  rw [Int.bmod_def, Int.emod_eq_of_lt (by omega) (by omega), if_pos (by omega)]

theorem asI64_eq {n : ℕ} (h : n < 2 ^ 63) : asI64 n = n := bmod_of_lt (by omega)

theorem asU64_eq {i : ℤ} (hlow : 0 ≤ i) (hh : i < 2 ^ 63) : (asU64 i : ℤ) = i := by
  rw [asU64]
  omega

theorem asI64_eq_some {v : Json} (h : v.asI64 = some n) :
    v = .number n ∧ -2 ^ 63 ≤ n ∧ n < 2 ^ 63 := by
  cases v with
  | number k =>
    rw [Json.asI64] at h
    split at h
    · rename_i hk
      cases h
      exact ⟨rfl, hk⟩
    · cases h
  | null | bool | float | string | array | object => cases h

theorem orErr_eq_ok {α : Type} {o : Option α} {problem : Problem} {a : α} :
    orErr o what problem = .ok a ↔ o = some a := elim_eq_ok

theorem mirrors_integer {range : Range} {v : Json} (hput : putInteger w range v what = .ok w') :
    ∃ n, v = .number n ∧ ∀ what', Mirrors w w' (fun r => integer r range what') n := by
  rw [putInteger] at hput
  obtain ⟨n, hn, h⟩ := bind_eq_ok.1 hput
  obtain ⟨hv, hlow, hh⟩ := asI64_eq_some (orErr_eq_ok.1 hn)
  refine ⟨n, hv, fun what' => ?_⟩
  simp only [integer]
  split at h
  · split_ifs at h with hext
    · have hbit := mirrors_extension w range.ext true (fun _ => hext) what'
      rw [Writer.extension, if_pos hext] at hbit
      exact bind hbit (mirrors_unconstrained hlow hh h what')
    · cases h
  rename_i hin
  obtain ⟨hlb, hub⟩ := not_or.1 hin
  refine bind (mirrors_extension w range.ext false nofun what') ?_
  simp only [Bool.toNat_false, Nat.zero_ne_one, if_false]
  cases hl : range.lb with
  | none =>
    rw [hl] at h
    exact mirrors_unconstrained hlow hh h what'
  | some lb =>
    rw [hl] at h hlb
    have hle : lb ≤ n := by simpa using hlb
    cases hu : range.ub with
    | none =>
      rw [hu] at h
      dsimp only at h ⊢
      obtain ⟨v, hva, h⟩ := bind_eq_ok.1 h
      obtain ⟨w₁, hw₁, h⟩ := bind_eq_ok.1 h
      cases h
      obtain ⟨rfl, -, hwh⟩ := signed64_eq_ok hva
      have heq := asU64_eq (by omega : 0 ≤ n - lb) hwh
      have hpos := octetsFor_pos (asU64 (n - lb))
      have height := octetsFor_le_eight (by omega : asU64 (n - lb) < 2 ^ 64)
      refine bind (mirrors_generalLength hw₁ what') ?_
      simp only [if_neg (by omega : ¬ (octetsFor (asU64 (n - lb)) = 0 ∨
        8 < octetsFor (asU64 (n - lb))))]
      have ho := mirrors_octets w₁ (toBe (octetsFor (asU64 (n - lb))) (asU64 (n - lb))) what'
      rw [length_toBe] at ho
      refine bind ho ?_
      have hf : fromBe (toBe (octetsFor (asU64 (n - lb))) (asU64 (n - lb))) = asU64 (n - lb) := by
        rw [fromBe_toBe, Nat.mod_eq_of_lt (lt_pow_octetsFor _)]
      have hsum : lb + (asU64 (n - lb) : ℤ) = n := by omega
      have hfi : asU64 (n - lb) < 2 ^ 63 := by omega
      simp only [hf, hsum, if_pos (⟨hfi, hh⟩ : asU64 (n - lb) < 2 ^ 63 ∧ n < 2 ^ 63)]
      exact .nothing _ n
    | some ub =>
      rw [hu] at h hub
      have hle' : n ≤ ub := by simpa using hub
      dsimp only at h ⊢
      obtain ⟨v, hva, h⟩ := bind_eq_ok.1 h
      obtain ⟨width, hwi, h⟩ := bind_eq_ok.1 h
      obtain ⟨span, hs, h⟩ := bind_eq_ok.1 h
      cases h
      obtain ⟨rfl, -, -⟩ := signed64_eq_ok hva
      obtain ⟨rfl, -, hwh⟩ := signed64_eq_ok hwi
      obtain ⟨rfl, -⟩ := unsigned64_eq_ok hs
      simp only [hwi, hs, ok_bind]
      have heq := asU64_eq (by omega : 0 ≤ n - lb) (by omega)
      have hwv := asU64_eq (by omega : 0 ≤ ub - lb) hwh
      refine bind (mirrors_whole _ (by omega : asU64 (n - lb) < asU64 (ub - lb) + 1)
        (by omega) what') ?_
      have hsum : lb + asI64 (asU64 (n - lb)) = n := by
        rw [asI64_eq (by omega), heq]
        omega
      simp only [hsum, signed64, if_pos (⟨hlow, hh⟩ : -2 ^ 63 ≤ n ∧ n < 2 ^ 63), ok_bind,
        if_neg (Int.not_lt.2 hle')]
      exact .nothing _ n

theorem find?_of_findIdx? {α : Type} {p : α → Bool} {l : List α} {i : ℕ}
    (hi : l.findIdx? p = some i) : ∃ a, l[i]? = some a ∧ l.find? p = some a := by
  obtain ⟨hlt, hp, hb⟩ := List.findIdx?_eq_some_iff_getElem.1 hi
  refine ⟨l[i], getElem?_eq_getElem hlt, ?_⟩
  rw [find?_eq_some_iff_getElem]
  exact ⟨hp, i, hlt, rfl, fun j hj => by simpa using hb j hj⟩

theorem mirrors_enumerated {root : List String} {ext : Option (List String)} {name : String}
    (hr : root.length < 2 ^ 63) (h : putEnumerated w root ext name what = .ok w')
    (what' : String) : Mirrors w w' (fun r => enumerated r root ext what') name := by
  rw [putEnumerated] at h
  simp only [enumerated]
  split at h
  · rename_i i hi
    cases h
    obtain ⟨name', hget, hn⟩ := find?_of_findIdx? hi
    have hlt : i < root.length := (List.getElem?_eq_some_iff.1 hget).1
    refine bind (mirrors_extension w ext.isSome false nofun what') ?_
    simp only [Bool.toNat_false, Nat.zero_ne_one, if_false]
    refine bind (mirrors_whole _ hlt (by omega) what') ?_
    simp only [hget, orErr, elim_some, ok_bind]
    rw [eq_of_beq (find?_some (p := (· == name)) hn)]
    exact .nothing _ name
  split at h
  · rename_i i hi
    obtain ⟨names, rfl, hi⟩ := Option.bind_eq_some_iff.1 hi
    obtain ⟨name', hget, hn⟩ := find?_of_findIdx? hi
    refine bind (mirrors_extension w true true (fun _ => rfl) what') ?_
    simp only [Bool.toNat_true, if_true]
    refine bind (mirrors_normallySmall h what') ?_
    simp only [bind_some, hget, getD_some]
    rw [eq_of_beq (find?_some (p := (· == name)) hn)]
    exact .nothing _ name
  · cases h

theorem mirrors_octetString (h : putOctetString w size raw what = .ok w') (what' : String) :
    Mirrors w w' (fun r => octetString r size what') raw := by
  rw [putOctetString] at h
  obtain ⟨w₁, hw₁, h⟩ := bind_eq_ok.1 h
  simp only [octetString]
  refine bind (mirrors_length hw₁ what') ?_
  cases raw with
  | nil =>
    cases h
    exact .nothing _ []
  | cons b raw =>
    simp only [isEmpty_cons, Bool.false_eq_true, if_false] at h
    simp only [length_cons, Nat.succ_ne_zero, if_false] at h ⊢
    split_ifs at h with hs
    · cases h
      simp only [if_pos hs]
      exact (mirrors_octetsLoop w₁ (b :: raw) what').guard
        (Nat.le_of_eq (bitLen_foldl_bits w₁ (b :: raw) _ 8).symm) _
    cases h
    simp only [if_neg hs]
    exact mirrors_octets w₁ (b :: raw) what'

theorem Mirrors.alignIf {α : Type} {read : Reader → PerResult (α × Reader)} {a : α} {c : Bool}
    (h : Mirrors (if c then w.align else w) w' read a) :
    Mirrors w w' (fun r => read (if c then r.align else r)) a := by
  cases c with
  | true => exact align h
  | false => exact h

theorem bitLen_align_le (w : Writer) : w.bitLen ≤ w.align.bitLen := by
  rw [Writer.align]
  simp only
  omega

theorem bitLen_alignIf_le (w : Writer) (c : Bool) :
    w.bitLen ≤ (if c then w.align else w).bitLen := by
  cases c with
  | true => exact bitLen_align_le w
  | false => exact Nat.le_refl _

theorem mirrors_bitString {s : String} (hs : s.toList.all (fun c => c == '0' || c == '1') = true)
    (h : putBitString w size s what = .ok w') (what' : String) :
    Mirrors w w' (fun r => bitString r size what') s := by
  rw [putBitString] at h
  obtain ⟨w₁, hw₁, h⟩ := bind_eq_ok.1 h
  cases h
  have ht : String.ofList ((s.toList.map (· == '1')).map fun bit => if bit then '1' else '0') =
      s := by
    have hch : (s.toList.map (· == '1')).map (fun bit => if bit then '1' else '0') = s.toList := by
      rw [List.map_map]
      conv_rhs => rw [← map_id s.toList]
      refine map_congr_left fun c hc => ?_
      have hbit := List.all_eq_true.1 hs c hc
      rw [Bool.or_eq_true, beq_iff_eq, beq_iff_eq] at hbit
      obtain rfl | rfl := hbit <;> rfl
    rw [hch, String.ofList_toList]
  simp only [bitString]
  refine bind (mirrors_length hw₁ what') ?_
  have hf := mirrors_flags (if bitsAligned size s.toList.length then w₁.align else w₁)
    (s.toList.map (· == '1')) what'
  rw [length_map] at hf
  have hr := (hf.map fun bits =>
    String.ofList (bits.map fun bit => if bit then '1' else '0')).alignIf
  rw [ht] at hr
  simp only
  refine hr.guard ?_ _
  rw [Writer.flags, bitLen_foldl_bits, length_map, Nat.mul_one]
  exact Nat.add_le_add_right (bitLen_alignIf_le _ _) _

/-- An alphabet that its bits can hold. -/
structure Spelled (kind : CharKind) (source : Option String) : Prop where
  ne_empty : source ≠ some ""
  length_le : (alphabet kind source).1.length ≤ 2 ^ (alphabet kind source).2

theorem alphabet_fst (kind : CharKind) (source : Option String) :
    (alphabet kind source).1 = ((listedChars kind source).insertionSort (· ≤ ·)).dedup := by
  simp only [alphabet]
  split
  · rfl
  · split <;> rfl

theorem le_getLast_alphabet {c max : ℕ} (hc : c ∈ (alphabet kind source).1)
    (hmax : (alphabet kind source).1.getLast? = some max) : c ≤ max := by
  rw [alphabet_fst] at hc hmax
  have hs : (((listedChars kind source).insertionSort (· ≤ ·)).dedup).Pairwise (· ≤ ·) :=
    (pairwise_insertionSort (· ≤ ·) _).sublist (dedup_sublist _)
  obtain ⟨front, hf⟩ := List.getLast?_eq_some_iff.1 hmax
  rw [hf] at hc hs
  obtain hc | hc := List.mem_append.1 hc
  · exact (List.pairwise_append.1 hs).2.2 c hc max (mem_singleton_self max)
  · exact Nat.le_of_eq (List.mem_singleton.1 hc)

theorem listedChars_eq_nil (hne : source ≠ some "") (h : listedChars kind source = []) :
    kind = .bmp ∧ source = none := by
  cases source with
  | some a =>
    have ha : a.toList = [] := List.map_eq_nil_iff.1 h
    exact absurd (congrArg some (String.toList_eq_nil_iff.1 ha)) hne
  | none =>
    cases kind with
    | bmp => exact ⟨rfl, rfl⟩
    | ia5 | general => cases List.range_eq_nil.1 h
    | numeric | printable => exact absurd (List.map_eq_nil_iff.1 h) (by decide)

theorem alphabet_eq_nil (hne : source ≠ some "") (h : (alphabet kind source).1 = []) :
    (alphabet kind source).2 = 16 := by
  rw [alphabet_fst] at h
  have hl : listedChars kind source = [] := by
    apply eq_nil_iff_forall_not_mem.2
    intro c hc
    have hmem : c ∈ ((listedChars kind source).insertionSort (· ≤ ·)).dedup :=
      mem_dedup.2 ((mem_insertionSort _).2 hc)
    rw [h] at hmem
    cases hmem
  obtain ⟨rfl, rfl⟩ := listedChars_eq_nil hne hl
  rfl

section

variable {kind : CharKind} {source : Option String} (h : Spelled kind source) {c : ℕ}
  (hc : permitted (alphabet kind source).1 c = true)

include h hc

theorem charCode_lt : charCode (alphabet kind source).1 (alphabet kind source).2 c <
      2 ^ (alphabet kind source).2 := by
  rw [permitted] at hc
  rw [charCode]
  split at hc
  · -- any character of the basic plane
    rename_i he
    have hnil := List.isEmpty_iff.1 he
    rw [alphabet_eq_nil h.ne_empty hnil, hnil]
    rw [Bool.and_eq_true, decide_eq_true_eq] at hc
    exact Nat.lt_succ_of_le hc.1
  have hmem : c ∈ (alphabet kind source).1 := List.contains_iff_mem.1 hc
  split_ifs with hr
  · exact Nat.lt_of_lt_of_le (idxOf_lt_length_of_mem hmem) h.length_le
  obtain ⟨max, hmax⟩ : ∃ max, (alphabet kind source).1.getLast? = some max :=
    Option.isSome_iff_exists.1 (getLast?_isSome.2 (ne_nil_of_mem hmem))
  have hle := le_getLast_alphabet hmem hmax
  rw [remapped, hmax, any_some, decide_eq_true_eq] at hr
  have := Nat.two_pow_pos (alphabet kind source).2
  omega

omit h in
theorem codeOf_charCode (what : String) : codeOf (alphabet kind source).1 (alphabet kind source).2
      (charCode (alphabet kind source).1 (alphabet kind source).2 c) what = .ok c := by
  rw [codeOf, charCode]
  split_ifs with hr
  · have hne : (alphabet kind source).1.isEmpty = false := by
      cases hset : (alphabet kind source).1 with
      | nil =>
        rw [hset] at hr
        cases hr
      | cons d set => rfl
    rw [permitted, hne] at hc
    exact orErr_eq_ok.2 (getElem?_idxOf (List.contains_iff_mem.1 hc))
  · rfl

end

theorem alphabet_snd_le (kind : CharKind) (source : Option String) :
    (alphabet kind source).2 ≤ 16 := by
  simp only [alphabet]
  split
  · exact Nat.le_refl _
  split
  · exact (by decide : 8 ≤ 16)
  simp only
  split
  · omega
  split
  · decide
  · split
    · decide
    · split <;> decide

theorem charOf_toNat (c : Char) : charOf c.toNat = c := by
  have hv : c.toNat.isValidChar := c.valid
  have hon := Char.ofNat_toNat c
  rw [Char.ofNat, dif_pos hv] at hon
  rw [charOf, dif_pos hv, hon]

theorem mirrors_charsLoop (h : Spelled kind source) (w : Writer) (cs : List Char)
    (hcs : ∀ c ∈ cs, permitted (alphabet kind source).1 c.toNat = true) (what' : String) :
    Mirrors w ((cs.map Char.toNat).foldl (fun w c =>
        w.bits (charCode (alphabet kind source).1 (alphabet kind source).2 c)
          (alphabet kind source).2) w)
      (charsLoop (alphabet kind source).1 (alphabet kind source).2 what' cs.length) cs := by
  induction cs generalizing w with
  | nil => exact .nothing w []
  | cons c cs ih =>
    have hc := hcs c mem_cons_self
    simp only [length_cons, charsLoop]
    refine bind (mirrors_bits w (Nat.le_trans (alphabet_snd_le kind source) (by decide))
      (charCode_lt h hc) what') ?_
    have hp : (!(alphabet kind source).1.isEmpty &&
        !remapped (alphabet kind source).1 (alphabet kind source).2 &&
        !(alphabet kind source).1.contains c.toNat) = false := by
      rw [permitted] at hc
      split_ifs at hc with he
      · rw [he]
        rfl
      · rw [hc, Bool.not_true, Bool.and_false]
    simp only [codeOf_charCode hc, hp, ok_bind, Bool.false_eq_true, if_false, charOf_toNat]
    exact (ih _ fun c hc => hcs c (mem_cons_of_mem _ hc)).map (c :: ·)

theorem mirrors_chars {s : String} (hs : Spelled kind source)
    (h : putChars w kind size source s what = .ok w') (what' : String) :
    Mirrors w w' (fun r => chars r kind size source what') s := by
  simp only [putChars] at h
  split at h
  · cases h
  rename_i hn
  have hp : ∀ c ∈ s.toList, permitted (alphabet kind source).1 c.toNat = true := by
    intro c hc
    have hall := List.find?_eq_none.1 hn c.toNat (mem_map_of_mem hc)
    simpa using hall
  obtain ⟨w₁, hw₁, h⟩ := bind_eq_ok.1 h
  cases h
  simp only [chars]
  rw [length_map] at hw₁ ⊢
  refine bind (mirrors_length hw₁ what') ?_
  have hr := ((mirrors_charsLoop hs (if charsAligned size s.toList.length
    (alphabet kind source).2 then w₁.align else w₁) s.toList hp what').map String.ofList).alignIf
  rw [String.ofList_toList] at hr
  simp only
  refine hr.guard ?_ _
  rw [bitLen_foldl_bits, length_map]
  exact Nat.add_le_add_right (bitLen_alignIf_le _ _) _

/-- The arcs as they are encoded: the first two make one number. -/
def oidNumbers : List ℕ → List ℕ
  | first :: second :: rest => (first * 40 + second) :: rest
  | arcs => arcs

/-- The arcs are small enough for `oidToString`. -/
structure OidFits (arcs : List ℕ) : Prop where
  lt : ∀ v ∈ oidNumbers arcs, v < 2 ^ 63
  length_le : ((oidNumbers arcs).flatMap oidArc).length ≤ 64

def pushNumber (arcs : List ℕ) (v : ℕ) : List ℕ :=
  if arcs.isEmpty then [min (v / 40) 2, v - min (v / 40) 2 * 40] else arcs ++ [v]

theorem oidLoop_septets (rounds : ℕ) {v : ℕ} (hv : v < 128 ^ rounds) (hs : v < 2 ^ 63)
    (b : UInt8) (raw : Bytes) (arcs : List ℕ) (f f' : Bool) :
    oidLoop (septets rounds v ++ b :: raw) arcs 0 f = oidLoop (b :: raw) arcs v f' := by
  induction rounds generalizing v b raw f' with
  | zero =>
    have hz : v = 0 := Nat.lt_one_iff.1 hv
    rw [hz]
    rfl
  | succ rounds ih =>
    rw [septets]
    split_ifs with hz
    · rw [hz]
      rfl
    rw [Nat.pow_succ] at hv
    rw [append_assoc, singleton_append, ih (by omega) (by omega) _ _ false]
    have hb : (UInt8.ofNat (v % 128 + 128)).toNat = v % 128 + 128 := by
      rw [UInt8.toNat_ofNat']
      omega
    conv_lhs => rw [oidLoop]
    rw [if_neg (by omega), hb, if_neg (by omega)]
    have hva : v / 128 * 128 + (v % 128 + 128) % 128 = v := by omega
    rw [hva]
    rfl

theorem oidLoop_numbers {vs : List ℕ} (hvs : ∀ v ∈ vs, v < 2 ^ 64) (arcs : List ℕ) :
    oidLoop (vs.flatMap oidArc) arcs 0 false =
      if ∀ v ∈ vs, v < 2 ^ 63 then some (vs.foldl pushNumber arcs) else none := by
  induction vs generalizing arcs with
  | nil => rfl
  | cons v vs ih =>
    obtain ⟨hv, hvs⟩ := forall_mem_cons.1 hvs
    -- a number is refused from `2 ^ 63` on: the limit is on what stands before its last septet
    have harc : oidLoop (oidArc v ++ vs.flatMap oidArc) arcs 0 false =
        if v < 2 ^ 63 then oidLoop (vs.flatMap oidArc) (pushNumber arcs v) 0 false else none := by
      rw [oidArc, append_assoc, singleton_append,
        oidLoop_septets 10 (by omega) (by omega) _ _ _ _ false, oidLoop]
      split
      · rw [if_neg (by omega)]
      have hb : (UInt8.ofNat (v % 128)).toNat = v % 128 := by
        rw [UInt8.toNat_ofNat']
        omega
      have hva : v / 128 * 128 + v % 128 % 128 = v := by omega
      rw [hb, if_pos (Nat.mod_lt v (by decide)), hva, if_pos (show v < 2 ^ 63 by omega)]
      rfl
    simp only [flatMap_cons, harc, ih hvs, foldl_cons, forall_mem_cons, ite_and]

theorem foldl_pushNumber {arcs : List ℕ} (hne : arcs ≠ []) (vs : List ℕ) :
    vs.foldl pushNumber arcs = arcs ++ vs := by
  induction vs generalizing arcs with
  | nil => rw [foldl_nil, append_nil]
  | cons v vs ih =>
    have hp : pushNumber arcs v = arcs ++ [v] := by
      rw [pushNumber, isEmpty_eq_false_iff.2 hne]
      rfl
    rw [foldl_cons, hp, ih (append_ne_nil_of_left_ne_nil hne _), append_assoc]
    rfl

theorem parsed_lt {parts : List Bytes} {arcs : List ℕ}
    (h : parts.mapM (parseUnsigned 64) = some arcs) : ∀ v ∈ arcs, v < 2 ^ 64 := by
  induction parts generalizing arcs with
  | nil =>
    cases h
    exact forall_mem_nil _
  | cons part parts ih =>
    rw [mapM_cons] at h
    obtain ⟨v, hv, h⟩ := bind_eq_some_iff.1 h
    obtain ⟨vs, hvs, h⟩ := bind_eq_some_iff.1 h
    cases h
    exact forall_mem_cons.2 ⟨parseUnsigned_lt hv, ih hvs⟩

/-- An object identifier is read back with its arcs written out plainly, when they fit. -/
theorem oidToString_of_fromString {s : String} (h : oidFromString s = .ok (some raw)) :
    ∃ arcs, oidArcs s = some arcs ∧ (oidToString raw = some (dotted arcs) ↔ OidFits arcs) := by
  rw [oidFromString] at h
  split at h
  · rename_i first second rest ha
    split_ifs at h with hb
    · cases h
    obtain ⟨head, hh, h⟩ := bind_eq_ok.1 h
    obtain ⟨rfl, hlt⟩ := unsigned64_eq_ok hh
    cases h
    refine ⟨_, ha, ?_⟩
    have hlo := oidLoop_numbers (forall_mem_cons.2
      ⟨hlt, (forall_mem_cons.1 (forall_mem_cons.1 (parsed_lt ha)).2).2⟩) []
    have hf : pushNumber [] (first * 40 + second) = [first, second] := by
      have hmin : min ((first * 40 + second) / 40) 2 = first := by omega
      rw [pushNumber, hmin, Nat.add_sub_cancel_left]
      rfl
    rw [foldl_cons, hf, foldl_pushNumber (cons_ne_nil _ _)] at hlo
    have hne : (oidArc (first * 40 + second) ++ rest.flatMap oidArc).isEmpty = false := by
      simp [oidArc]
    rw [oidToString, hne, ← flatMap_cons, hlo]
    constructor
    · intro h
      split at h
      · cases h
      rename_i hl
      split_ifs at h with hlt
      · exact ⟨hlt, Nat.not_lt.1 fun h => hl (.inr h)⟩
      · cases h
    · rintro ⟨(hlt : ∀ v ∈ (first * 40 + second) :: rest, v < 2 ^ 63), hl⟩
      rw [if_neg fun h => h.elim nofun (Nat.not_lt.2 hl), if_pos hlt]
      rfl
  · cases h

theorem length_oidArc {v : ℕ} (hv : v < 2 ^ 64) : (oidArc v).length = Nat.log 128 v + 1 := by
  have hs (rounds v : ℕ) (hv : v / 128 < 128 ^ rounds) :
      (septets rounds (v / 128)).length = Nat.log 128 v := by
    induction rounds generalizing v with
    | zero => rw [Nat.log_of_lt (by omega), septets, length_nil]
    | succ rounds ih =>
      rw [septets]
      split
      · rw [Nat.log_of_lt (by omega), length_nil]
      · have hp : 0 < Nat.log 128 v := Nat.log_pos (by omega) (by omega)
        rw [Nat.pow_succ] at hv
        rw [length_append, ih _ (by omega), Nat.log_div_base, length_singleton]
        omega
  rw [oidArc, length_append, hs 10 v (by omega), length_singleton]

/-- An identifier that is not refused is coded and read back as the same arcs exactly when
each number it is coded with is below `2 ^ 63` and their digits in base 128 are at most 64. -/
theorem oid_reads_back_iff {s : String} (h : oidFromString s ≠ .ok none) :
    (∃ raw arcs, oidFromString s = .ok (some raw) ∧ oidArcs s = some arcs ∧
      oidToString raw = some (dotted arcs)) ↔
      ∃ arcs, oidArcs s = some arcs ∧ (∀ v ∈ oidNumbers arcs, v < 2 ^ 63) ∧
        ((oidNumbers arcs).map fun v => Nat.log 128 v + 1).sum ≤ 64 := by
  have hlen {vs : List ℕ} (hvs : ∀ v ∈ vs, v < 2 ^ 63) :
      (vs.flatMap oidArc).length = (vs.map fun v => Nat.log 128 v + 1).sum := by
    rw [length_flatMap, map_congr_left fun v hv => length_oidArc (by have := hvs v hv; omega)]
  cases hs : oidFromString s with
  | ok o =>
    obtain ⟨raw, rfl⟩ := ne_none_iff_exists'.1 fun ho => h (ho ▸ hs)
    obtain ⟨arcs, ha, hiff⟩ := oidToString_of_fromString hs
    constructor
    · rintro ⟨raw', arcs', hr, ha', hst⟩
      cases hr
      cases ha.symm.trans ha'
      obtain ⟨hlt, hl⟩ := hiff.1 hst
      exact ⟨arcs, ha, hlt, hlen hlt ▸ hl⟩
    · rintro ⟨arcs', ha', hlt, hl⟩
      cases ha.symm.trans ha'
      exact ⟨raw, arcs, rfl, ha, hiff.2 ⟨hlt, hlen hlt ▸ hl⟩⟩
  | error e =>
    refine ⟨fun ⟨_, _, hr, _⟩ => (nomatch hr), fun ⟨arcs, ha, hlt, _⟩ => ?_⟩
    -- only the first number can overflow
    rw [oidFromString, ha] at hs
    split at hs
    · split at hs
      · cases hs
      · cases ‹some arcs = _›
        have hh := hlt _ mem_cons_self
        rw [unsigned64, if_pos (by omega)] at hs
        cases hs
    · cases hs

theorem oid_reads_back_sample :
    oidFromString "1.3.6" = .ok (some [43, 6]) ∧ oidToString [43, 6] = some "1.3.6" := by
  have h := (oid_reads_back_iff (s := "1.3.6") nofun).2 ⟨[1, 3, 6], rfl, by decide, by decide⟩
  obtain ⟨raw, arcs, hr, ha, hst⟩ := h
  cases hr
  cases ha
  exact ⟨rfl, hst⟩

/-- The first number overflows, or the octets are more than the reader takes. -/
theorem oid_lost :
    oidFromString "2.18446744073709551615" = .error .panic ∧
      ∃ raw, oidFromString "1.3.18446744073709551615" = .ok (some raw) ∧
        oidToString raw = none := by
  exact ⟨rfl, _, rfl, rfl⟩

end NetGet.Per
