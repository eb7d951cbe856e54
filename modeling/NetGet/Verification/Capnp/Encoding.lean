import NetGet.Verification.Capnp.Value

/-! # Pointer words of the builder -/

namespace NetGet.Capnp

open Library

theorem toNat_or_field {w : Word} {n k : ℕ} (hw : w.toNat < 2 ^ k) (hn : n * 2 ^ k < 2 ^ 64) :
    (w ||| BitVec.ofNat 64 n <<< k).toNat = w.toNat + n * 2 ^ k := by
  have hle : n ≤ n * 2 ^ k := Nat.le_mul_of_pos_right n (Nat.two_pow_pos k)
  have hf : n % 2 ^ 64 = n := Nat.mod_eq_of_lt (Nat.lt_of_le_of_lt hle hn)
  rw [BitVec.toNat_or, BitVec.toNat_shiftLeft, BitVec.toNat_ofNat, hf, Nat.shiftLeft_eq,
    Nat.mod_eq_of_lt hn, Nat.or_comm, ← Nat.shiftLeft_eq, ← Nat.shiftLeft_add_eq_or_of_lt hw,
    Nat.shiftLeft_eq, Nat.add_comm]

theorem and_three_eq_iff (w c : Word) : w &&& 3 = c ↔ w.toNat % 4 = c.toNat := by
  have hm : w.toNat &&& 3 = w.toNat % 4 := Nat.and_two_pow_sub_one_eq_mod w.toNat 2
  rw [← hm, ← BitVec.toNat_inj, BitVec.toNat_and]
  exact Iff.rfl

theorem toNat_shiftRight (w : Word) (k : ℕ) : (w >>> k).toNat = w.toNat / 2 ^ k := by
  rw [BitVec.toNat_ushiftRight, Nat.shiftRight_eq_div_pow]

theorem toNat_offset {pos target : ℕ} (hlt : pos < target) (hfar : target - pos - 1 < 2 ^ 29) :
    (Builder.offset pos target).toNat = (target - pos - 1) * 4 := by
  have hint : (target : ℤ) - pos - 1 = ((target - pos - 1 : ℕ) : ℤ) := by omega
  rw [Builder.offset, hint, BitVec.ofInt_natCast, BitVec.toNat_setWidth, BitVec.toNat_shiftLeft,
    BitVec.toNat_ofNat, Nat.shiftLeft_eq]
  omega

theorem toNat_structWord {pos target dataWords ptrCount : ℕ} (hlt : pos < target)
    (hfar : target - pos - 1 < 2 ^ 29) (hd : dataWords < 2 ^ 16) (hp : ptrCount < 2 ^ 16) :
    (Builder.offset pos target ||| BitVec.ofNat 64 dataWords <<< 32 |||
        BitVec.ofNat 64 ptrCount <<< 48).toNat =
      (target - pos - 1) * 4 + dataWords * 2 ^ 32 + ptrCount * 2 ^ 48 := by
  have ho := toNat_offset hlt hfar
  have hlow := toNat_or_field (w := Builder.offset pos target) (n := dataWords) (k := 32)
    (by omega) (by omega)
  rw [toNat_or_field (by omega) (by omega), hlow, ho]

theorem toNat_listWord {pos target bits count : ℕ} (hlt : pos < target)
    (hfar : target - pos - 1 < 2 ^ 29) (hb : bits < 8) (hc : count < 2 ^ 29) :
    (Builder.offset pos target ||| 1#64 ||| BitVec.ofNat 64 bits <<< 32 |||
        BitVec.ofNat 64 count <<< 35).toNat =
      (target - pos - 1) * 4 + 1 + bits * 2 ^ 32 + count * 2 ^ 35 := by
  have hk : (Builder.offset pos target ||| 1#64).toNat = (target - pos - 1) * 4 + 1 := by
    have hor := Nat.shiftLeft_add_eq_or_of_lt (by decide : 1 < 2 ^ 2) (target - pos - 1)
    rw [Nat.shiftLeft_eq] at hor
    rw [BitVec.toNat_or, toNat_offset hlt hfar]
    exact hor.symm
  have hlow := toNat_or_field (w := Builder.offset pos target ||| 1#64) (n := bits) (k := 32)
    (by omega) (by omega)
  rw [toNat_or_field (by omega) (by omega), hlow, hk]

theorem toNat_tagWord {len dataWords ptrCount : ℕ} (hlen : len < 2 ^ 30)
    (hd : dataWords < 2 ^ 16) (hp : ptrCount < 2 ^ 16) :
    (BitVec.ofNat 64 len <<< 2 ||| BitVec.ofNat 64 dataWords <<< 32 |||
        BitVec.ofNat 64 ptrCount <<< 48).toNat =
      len * 4 + dataWords * 2 ^ 32 + ptrCount * 2 ^ 48 := by
  have hc : (BitVec.ofNat 64 len <<< 2).toNat = len * 4 := by
    have h := toNat_or_field (w := 0#64) (n := len) (k := 2) (by decide) (by omega)
    rw [BitVec.zero_or] at h
    exact h.trans (Nat.zero_add _)
  have hlow := toNat_or_field (w := BitVec.ofNat 64 len <<< 2) (n := dataWords) (k := 32)
    (by omega) (by omega)
  rw [toNat_or_field (by omega) (by omega), hlow, hc]

theorem unsigned_of_lt {w n : ℕ} (h : n < 2 ^ w) : unsigned w n = .ok n := if_pos h

theorem signed64_of_lt {i : ℤ} (hlow : -2 ^ 63 ≤ i) (hh : i < 2 ^ 63) : signed64 i = .ok i :=
  if_pos ⟨hlow, hh⟩

theorem ensure_of {p : Prop} [Decidable p] (h : p) (reason : String) :
    ensure (decide p) reason = .ok () := by
  rw [decide_eq_true h]
  rfl

namespace Message

variable {m : Message} {ws : List Word} (hseg : m.segments[0]? = some ws) {w : Word} {pos : ℕ}
  {t : Target}

include hseg

theorem length_first_lt : ws.length < 2 ^ 60 := m.length_lt ws (List.mem_of_getElem? hseg)

theorem word_first (hw : ws[pos]? = some w) : m.word 0 pos = .ok w := by
  rw [word, hseg, Option.bind_some, hw]
  rfl

theorem index_first (hw : ws[pos]? = some w) : m.index 0 pos = .ok w := by
  rw [index, hseg, Option.bind_some, hw]
  rfl

theorem checkRange_first {start words : ℕ} (h : start + words ≤ ws.length) :
    m.checkRange 0 start words = .ok () := by
  have hl := length_first_lt hseg
  rw [checkRange, hseg]
  change (unsigned 64 (start + words) >>= _) = _
  rw [unsigned_of_lt (by omega), ok_bind, ensure_of h]

theorem resolve_near (hw : ws[pos]? = some w) (hne : w ≠ 0) (hk : w.toNat % 4 ≠ 2) (depth : ℕ) :
    m.resolve 0 pos depth =
      m.target { seg := 0, origin := pos + 1, word := w, tagged := false } depth := by
  have hpos : pos < ws.length := (List.getElem?_eq_some_iff.1 hw).1
  have hle := length_first_lt hseg
  have hfar : ¬ w &&& 3 = 2 := fun h => hk ((and_three_eq_iff w 2).1 h)
  have hl : m.locate 0 pos =
      .ok (some { seg := 0, origin := pos + 1, word := w, tagged := false }) := by
    simp only [locate, word_first hseg hw, ok_bind, if_neg hne, if_neg hfar,
      signed64_of_lt (by omega : -2 ^ 63 ≤ (pos : ℤ) + 1) (by omega)]
    rfl
  rw [resolve, hl]
  rfl

omit hseg in
theorem start_near {n : ℕ} (hpos : pos < 2 ^ 60) (hw : w.toNat % 2 ^ 32 / 4 = n) (hn : n < 2 ^ 29) :
    start { seg := 0, origin := pos + 1, word := w, tagged := false } = .ok (pos + 1 + n) := by
  have ho : ({ seg := 0, origin := pos + 1, word := w, tagged := false } : Located).offset = n := by
    have hlow : (w.setWidth 32).toNat = w.toNat % 2 ^ 32 := BitVec.toNat_setWidth 32 w
    have hint : (w.setWidth 32).toInt = ((w.toNat % 2 ^ 32 : ℕ) : ℤ) := by
      rw [BitVec.toInt_eq_toNat_of_lt (by omega), hlow]
    rw [Located.offset, if_neg Bool.false_ne_true, BitVec.toInt_sshiftRight, hint,
      Int.shiftRight_eq_div_pow]
    omega
  rw [start, ho]
  simp only [signed64_of_lt (by omega : -2 ^ 63 ≤ (pos : ℤ) + 1 + n) (by omega), ok_bind,
    ensure_of (by omega : (0 : ℤ) ≤ (pos : ℤ) + 1 + n)]
  exact congrArg Except.ok (by omega)

theorem resolve_struct {n dataWords ptrCount depth : ℕ} (hw : ws[pos]? = some w)
    (hwo : w.toNat = n * 4 + dataWords * 2 ^ 32 + ptrCount * 2 ^ 48) (hne : w ≠ 0)
    (hn : n < 2 ^ 29) (hda : dataWords < 2 ^ 16) (hp : ptrCount < 2 ^ 16)
    (hr : pos + 1 + n + (dataWords + ptrCount) ≤ ws.length) (hd : depth + 1 < 2 ^ 32) :
    m.resolve 0 pos depth = .ok (.struct
      { seg := 0, data := pos + 1 + n, dataWords, ptrs := pos + 1 + n + dataWords, ptrCount,
        depth := depth + 1 }) := by
  have hl := length_first_lt hseg
  have hk : w.toNat % 4 = 0 := by omega
  have hde : (w >>> 32).toNat % 2 ^ 16 = dataWords := by
    rw [toNat_shiftRight]
    omega
  have hpe : (w >>> 48).toNat % 2 ^ 16 = ptrCount := by
    rw [toNat_shiftRight]
    omega
  rw [resolve_near hseg hw hne (by omega), target, if_pos ((and_three_eq_iff w 0).2 hk)]
  simp only [structTarget, hde, hpe, start_near (by omega : pos < 2 ^ 60)
    (by omega : w.toNat % 2 ^ 32 / 4 = n) hn, ok_bind, unsigned_of_lt (by omega :
    dataWords + ptrCount < 2 ^ 64), checkRange_first hseg hr, unsigned_of_lt (by omega :
    pos + 1 + n + dataWords < 2 ^ 64), unsigned_of_lt hd]
  rfl

theorem resolve_capability {index depth : ℕ} (hi : index < 2 ^ 32)
    (hw : ws[pos]? = some (3#64 ||| BitVec.ofNat 64 index <<< 32)) :
    m.resolve 0 pos depth = .ok (.capability index) := by
  have hwo : (3#64 ||| BitVec.ofNat 64 index <<< 32 : Word).toNat = 3 + index * 2 ^ 32 :=
    toNat_or_field (by decide) (by omega)
  have hk := and_three_eq_iff (3#64 ||| BitVec.ofNat 64 index <<< 32)
  have hne : (3#64 ||| BitVec.ofNat 64 index <<< 32 : Word) ≠ 0 := by
    intro h
    rw [h] at hwo
    change 0 = _ at hwo
    omega
  rw [resolve_near hseg hw hne (by omega), target,
    if_neg fun h => absurd ((hk 0).1 h) (by change ¬ _ = 0; omega),
    if_neg fun h => absurd ((hk 1).1 h) (by change ¬ _ = 1; omega),
    if_pos ((hk 3).2 (by change _ = 3; omega))]
  simp only [toNat_shiftRight, hwo]
  rw [ensure_of (by omega), ok_bind]
  have hs : (3 + index * 2 ^ 32) / 2 ^ 32 % 2 ^ 32 = index := by omega
  rw [hs]
  rfl

section List

variable {pos n depth : ℕ} {w : Word} (hw : ws[pos]? = some w) (hn : n < 2 ^ 29)

include hw hn

theorem resolve_list_near {bits count : ℕ} (hb : bits < 8)
    (hwo : w.toNat = n * 4 + 1 + bits * 2 ^ 32 + count * 2 ^ 35) :
    m.resolve 0 pos depth =
      m.listTarget { seg := 0, origin := pos + 1, word := w, tagged := false } depth ∧
    start { seg := 0, origin := pos + 1, word := w, tagged := false } = .ok (pos + 1 + n) ∧
    ((w >>> 32) &&& 7).toNat = bits ∧ (w >>> 35).toNat % 2 ^ 32 = count := by
  have hpos : pos < ws.length := (List.getElem?_eq_some_iff.1 hw).1
  have hl := length_first_lt hseg
  have hk := and_three_eq_iff w
  have hne : w ≠ 0 := by
    rintro rfl
    change 0 = _ at hwo
    omega
  refine ⟨?_, start_near (by omega) (by omega) hn, ?_, ?_⟩
  · rw [resolve_near hseg hw hne (by omega), target,
      if_neg fun h => absurd ((hk 0).1 h) (by change ¬ _ = 0; omega),
      if_pos ((hk 1).2 (by change _ = 1; omega))]
  · have hm : (w >>> 32).toNat &&& 7 = (w >>> 32).toNat % 8 := Nat.and_two_pow_sub_one_eq_mod _ 3
    rw [BitVec.toNat_and]
    change (w >>> 32).toNat &&& 7 = bits
    rw [hm, toNat_shiftRight]
    omega
  · rw [toNat_shiftRight]
    omega

theorem resolve_list {size : ElementSize} {len : ℕ} (hsi : size ≠ .composite)
    (hlen : len < 2 ^ 29) (hwo : w.toNat = n * 4 + 1 + size.bits * 2 ^ 32 + len * 2 ^ 35)
    (hra : pos + 1 + n + (len * size.width + 63) / 64 ≤ ws.length)
    (hd : depth + 1 < 2 ^ 32) :
    m.resolve 0 pos depth = .ok (.list
      { seg := 0, start := pos + 1 + n, len, size, dataWords := 0, ptrCount := 0,
        depth := depth + 1, words := (len * size.width + 63) / 64 }) := by
  have hb : size.bits < 8 := by cases size <;> decide
  have hf : ElementSize.fromBits size.bits = size := by cases size <;> rfl
  have hwi : len * size.width ≤ 2 ^ 29 * 64 :=
    Nat.mul_le_mul (Nat.le_of_lt hlen) (by cases size <;> decide)
  obtain ⟨hr, hs, hk, hc⟩ := resolve_list_near hseg hw hn hb hwo
  rw [hr]
  simp only [listTarget, hk, hc, hf, hs, ok_bind, if_neg hsi, unsigned_of_lt
    (by omega : len * size.width < 2 ^ 64), checkRange_first hseg hra, unsigned_of_lt hd]
  rfl

theorem resolve_composite {len dataWords ptrCount : ℕ} {tag : Word} (hlen : len < 2 ^ 30)
    (hda : dataWords < 2 ^ 16) (hwo : (dataWords + ptrCount) * len < 2 ^ 29)
    (hword : w.toNat = n * 4 + 1 + 7 * 2 ^ 32 + (dataWords + ptrCount) * len * 2 ^ 35)
    (htag : ws[pos + 1 + n]? = some tag)
    (htw : tag.toNat = len * 4 + dataWords * 2 ^ 32 + ptrCount * 2 ^ 48)
    (hra : pos + 1 + n + (1 + (dataWords + ptrCount) * len) ≤ ws.length)
    (hd : depth + 1 < 2 ^ 32) :
    m.resolve 0 pos depth = .ok (.list
      { seg := 0, start := pos + 1 + n + 1, len, size := .composite, dataWords, ptrCount,
        depth := depth + 1, words := (dataWords + ptrCount) * len }) := by
  obtain ⟨hr, hs, hk, hc⟩ := resolve_list_near hseg hw hn (by decide : 7 < 8) hword
  have hl := length_first_lt hseg
  have hde : (tag >>> 32).toNat % 2 ^ 16 = dataWords := by
    rw [toNat_shiftRight]
    omega
  have hpe : (tag >>> 48).toNat % 2 ^ 16 = ptrCount := by
    rw [toNat_shiftRight]
    omega
  have hle : tag.toNat % 2 ^ 32 / 4 = len := by omega
  have hco : len * (dataWords + ptrCount) = (dataWords + ptrCount) * len := Nat.mul_comm _ _
  rw [hr]
  simp only [listTarget, hk, hc, ElementSize.fromBits, hs, ok_bind, if_true,
    compositeTarget, unsigned_of_lt (by omega : (dataWords + ptrCount) * len + 1 < 2 ^ 64),
    checkRange_first hseg (by omega : pos + 1 + n + ((dataWords + ptrCount) * len + 1) ≤ ws.length),
    word_first hseg htag, ensure_of ((and_three_eq_iff tag 0).2 (by change _ = 0; omega)), hde,
    hpe, hle, unsigned_of_lt (by omega : dataWords + ptrCount < 2 ^ 64), hco,
    unsigned_of_lt (by omega : (dataWords + ptrCount) * len < 2 ^ 64),
    ensure_of (Nat.le_refl ((dataWords + ptrCount) * len)),
    unsigned_of_lt (by omega : pos + 1 + n + 1 < 2 ^ 64), unsigned_of_lt hd]
  rfl

end List

omit hseg in
theorem follow_eq {seg depth budget : ℕ} (hd : depth ≤ maxDepth)
    (hr : m.resolve seg pos depth = .ok t) {words : ℕ} (ht : toll t = some words)
    (hp : max words 1 ≤ budget) :
    m.follow budget seg pos depth = (.ok t, budget - max words 1) := by
  simp only [follow, ensure_of hd, hr, ht, charge, ensure_of hp]
  rfl

omit hseg in
theorem follow_free {seg depth budget : ℕ} (hd : depth ≤ maxDepth)
    (hr : m.resolve seg pos depth = .ok t) (ht : toll t = none) :
    m.follow budget seg pos depth = (.ok t, budget) := by
  simp only [follow, ensure_of hd, hr, ht]

end Message

end NetGet.Capnp
