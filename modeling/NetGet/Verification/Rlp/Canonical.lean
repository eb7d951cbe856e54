import Mathlib.Data.List.GetD
import NetGet.Library.Fallible
import NetGet.Model.Rlp

/-! # One encoding for each item -/

namespace NetGet.Rlp

open Library List

def offset (isList : Bool) : UInt8 := if isList then 0xc0 else 0x80

variable {b : UInt8} {k width start len levels items : ℕ} {isList : Bool} {input rest : Bytes}
  {next : Bytes → ℕ → Except String (Rlp × ℕ × ℕ)} {item : Rlp}

/-- A first byte that is not an item of its own: its kind and its place behind the offset. -/
theorem exists_offset (h : 0x7f < b) :
    ∃ isList k, b.toNat = (offset isList).toNat + k ∧ k < 64 := by
  have hlt := b.toNat_lt
  rw [UInt8.lt_iff_toNat_lt] at h
  change 127 < b.toNat at h
  by_cases hl : b.toNat < 192
  · exact ⟨false, b.toNat - 128, by change _ = 128 + _; omega, by omega⟩
  · exact ⟨true, b.toNat - 192, by change _ = 192 + _; omega, by omega⟩

theorem offset_add (isList : Bool) (h : k < 64) :
    (offset isList + UInt8.ofNat k).toNat = (offset isList).toNat + k := by
  cases isList <;> simp [offset] <;> omega

theorem eq_offset_add (h : k < 64) (hb : b.toNat = (offset isList).toNat + k) :
    b = offset isList + UInt8.ofNat k := by
  rw [← UInt8.toNat_inj, hb, offset_add isList h]

theorem lt_of_offset (hb : b.toNat = (offset isList).toNat + k) : 0x7f < b := by
  rw [UInt8.lt_iff_toNat_lt, hb]
  cases isList <;> simp [offset] <;> omega

theorem span_short (hk : k ≤ 55) (hb : b.toNat = (offset isList).toNat + k) (input : Bytes) :
    span b input = .ok (isList, 1, k) := by
  cases isList with
  | false =>
    change b.toNat = 128 + k at hb
    have hle : b ≤ 0xb7 := by
      rw [UInt8.le_iff_toNat_le]
      change b.toNat ≤ 183
      omega
    have hge : 0x80 ≤ b := by
      rw [UInt8.le_iff_toNat_le]
      change 128 ≤ b.toNat
      omega
    rw [span, if_pos hle, UInt8.toNat_sub_of_le _ _ hge, hb]
    simp
  | true =>
    change b.toNat = 192 + k at hb
    have hnot : ¬ b ≤ 0xb7 := by
      rw [UInt8.le_iff_toNat_le]
      change ¬ b.toNat ≤ 183
      omega
    have hge : 0xc0 ≤ b := by
      rw [UInt8.le_iff_toNat_le]
      change 192 ≤ b.toNat
      omega
    have hle : b ≤ 0xf7 := by
      rw [UInt8.le_iff_toNat_le]
      change b.toNat ≤ 247
      omega
    rw [span, if_neg hnot, if_pos ⟨hge, hle⟩, UInt8.toNat_sub_of_le _ _ hge, hb]
    simp

theorem span_long_eq_ok (hpos : 0 < width) (hle : width ≤ 8)
    (hb : b.toNat = (offset isList).toNat + (55 + width)) {r : Bool × ℕ × ℕ} :
    span b input = .ok r ↔
      ∃ lenBytes, slice input 1 (1 + width) = some lenBytes ∧ lenBytes.head? ≠ some 0 ∧
        55 < fromBe lenBytes ∧ (isList, 1 + width, fromBe lenBytes) = r := by
  have hnot : ¬ b ≤ 0xb7 := by
    rw [UInt8.le_iff_toNat_le, hb]
    cases isList <;> simp [offset] <;> omega
  have hm : ¬ (0xc0 ≤ b ∧ b ≤ 0xf7) := by
    rw [UInt8.le_iff_toNat_le, UInt8.le_iff_toNat_le, hb]
    cases isList <;> simp [offset] <;> omega
  have hk : decide (0xf8 ≤ b) = isList := by
    cases isList <;> simp [UInt8.le_iff_toNat_le, hb, offset] <;> omega
  have hge : (if isList then 0xf7 else 0xb7) ≤ b := by
    rw [UInt8.le_iff_toNat_le, hb]
    cases isList <;> simp [offset] <;> omega
  have hw : (b - if isList then 0xf7 else 0xb7).toNat = width := by
    rw [UInt8.toNat_sub_of_le _ _ hge, hb]
    cases isList <;> simp [offset] <;> omega
  rw [span, if_neg hnot, if_neg hm]
  simp only [longSpan, hk, hw, bind_eq_ok, elim_eq_ok, ensure_eq_ok, pure, Except.pure,
    Except.ok.injEq, exists_const, bne_iff_ne, decide_eq_true_eq, hle, true_and]

theorem length_putLength_pos (off : UInt8) (len : ℕ) : 0 < (putLength off len).length := by
  unfold putLength
  split
  · exact Nat.one_pos
  · exact Nat.succ_pos _

theorem putLength_short (h : len ≤ 55) (off : UInt8) :
    putLength off len = [off + UInt8.ofNat len] := if_pos h

theorem putLength_long (h : ¬ len ≤ 55) (off : UInt8) :
    putLength off len = (off + UInt8.ofNat (55 + (trimZeros (toBe 8 len)).length)) ::
      trimZeros (toBe 8 len) := by
  rw [putLength, if_neg h, UInt8.ofNat_add, ← UInt8.add_assoc]
  rfl

theorem slice_one_cons {part : Bytes} (h : slice (b :: rest) 1 (1 + width) = some part) :
    ∃ tail, rest = part ++ tail ∧ width = part.length := by
  unfold slice at h
  split at h
  · rename_i hle
    have hw : width ≤ rest.length := by
      have := hle.2
      rw [length_cons] at this
      omega
    cases h
    rw [Nat.add_sub_cancel_left, drop_one, tail_cons]
    exact ⟨rest.drop width, (take_append_drop width rest).symm, (length_take_of_le hw).symm⟩
  · cases h

theorem span_putLength (isList : Bool) (hlen : len < 2 ^ 64) (tail : Bytes) :
    ∃ b rest, putLength (offset isList) len = b :: rest ∧ 0x7f < b ∧
      span b (b :: (rest ++ tail)) = .ok (isList, 1 + rest.length, len) := by
  by_cases hs : len ≤ 55
  · have hnat := offset_add isList (Nat.lt_of_le_of_lt hs (by decide))
    exact ⟨_, [], putLength_short hs _, lt_of_offset hnat, span_short hs hnat _⟩
  have hv : fromBe (trimZeros (toBe 8 len)) = len := by
    rw [fromBe_trimZeros, fromBe_toBe]
    exact Nat.mod_eq_of_lt hlen
  have hpos : 0 < (trimZeros (toBe 8 len)).length := by
    refine length_pos_iff.2 fun hnil => ?_
    rw [hnil, fromBe_nil] at hv
    omega
  have hle : (trimZeros (toBe 8 len)).length ≤ 8 :=
    (dropWhile_sublist _).length_le.trans_eq (length_toBe 8 len)
  have hnat := offset_add isList (Nat.lt_of_le_of_lt (Nat.add_le_add_left hle 55) (by decide))
  refine ⟨_, _, putLength_long hs _, lt_of_offset hnat, ?_⟩
  rw [span_long_eq_ok hpos hle hnat]
  refine ⟨trimZeros (toBe 8 len), ?_, head?_trimZeros _, by omega, by rw [hv]⟩
  simp [slice, Nat.add_comm]

theorem putLength_of_span (hb : 0x7f < b) (h : span b (b :: rest) = .ok (isList, start, len)) :
    len < 2 ^ 64 ∧ start = (putLength (offset isList) len).length ∧
      ∃ tail, b :: rest = putLength (offset isList) len ++ tail := by
  obtain ⟨kind, k, hnat, hk⟩ := exists_offset hb
  by_cases hs : k ≤ 55
  · rw [span_short hs hnat] at h
    cases h
    rw [putLength_short hs]
    exact ⟨by omega, rfl, rest, by rw [eq_offset_add hk hnat]; rfl⟩
  obtain ⟨width, rfl⟩ := Nat.exists_eq_add_of_le (Nat.le_of_not_le hs)
  have hw : width ≤ 8 := by omega
  rw [span_long_eq_ok (by omega) hw hnat] at h
  obtain ⟨lenBytes, hsl, hh, hl, heq⟩ := h
  cases heq
  obtain ⟨tail, rfl, rfl⟩ := slice_one_cons hsl
  have ht : trimZeros (toBe 8 (fromBe lenBytes)) = lenBytes := trimZeros_toBe_fromBe hh hw
  rw [putLength_long (by omega), ht]
  refine ⟨?_, Nat.add_comm _ _, tail, ?_⟩
  · exact (fromBe_lt lenBytes).trans_le (Nat.pow_le_pow_right (by decide) hw)
  · rw [eq_offset_add hk hnat]
    rfl

theorem header_cons_eq_ok (hb : 0x7f < b) : header (b :: rest) = .ok (isList, start, len) ↔
      span b (b :: rest) = .ok (isList, start, len) ∧ start + len < 2 ^ 64 ∧
        start + len ≤ rest.length + 1 ∧
        (isList = false → start = 1 → len = 1 → 0x80 ≤ rest.getD 0 0) := by
  have hnot : ¬ b ≤ 0x7f := UInt8.not_le.2 hb
  rw [header, if_neg hnot]
  simp only [bind_eq_ok, ite_bind_eq_ok, elim_eq_ok, ensure_eq_ok, checkedAdd_eq_some, pure,
    Except.pure, Except.ok.injEq, Prod.exists, length_cons, decide_eq_true_eq]
  constructor
  · rintro ⟨_, _, _, hsp, _, ⟨rfl, hlt⟩, -, hle, hs, heq⟩
    cases heq
    refine ⟨hsp, hlt, hle, ?_⟩
    rintro rfl rfl rfl
    simpa using hs
  rintro ⟨hsp, hlt, hle, hs⟩
  refine ⟨_, _, _, hsp, _, ⟨rfl, hlt⟩, (), hle, ?_, rfl⟩
  intro hone
  simp only [Bool.and_eq_true, Bool.not_eq_true', beq_iff_eq] at hone
  exact ⟨(), by simpa using hs hone.1.1 hone.1.2 hone.2⟩

theorem header_putLength (isList : Bool) {tail : Bytes} (hle : len ≤ tail.length)
    (hf : (putLength (offset isList) len).length + len < 2 ^ 64)
    (hs : isList = false → len = 1 → 0x80 ≤ tail.getD 0 0) :
    header (putLength (offset isList) len ++ tail) =
      .ok (isList, (putLength (offset isList) len).length, len) := by
  obtain ⟨b, rest, hput, hb, hsp⟩ := span_putLength isList (by omega : len < 2 ^ 64) tail
  rw [hput, length_cons] at hf ⊢
  rw [cons_append, header_cons_eq_ok hb, length_append, hsp]
  refine ⟨by rw [Nat.add_comm], hf, by omega, ?_⟩
  intro hk hst hone
  have hnil : rest = [] := length_eq_zero_iff.1 (by omega)
  rw [hnil]
  exact hs hk hone

/-- An input with a header is a byte below `0x80`, or the prefix of a payload that it holds. -/
theorem header_cases (h : header input = .ok (isList, start, len)) :
    (∃ b rest, b < 0x80 ∧ input = b :: rest ∧ isList = false ∧ start = 0 ∧ len = 1) ∨
      ∃ tail, input = putLength (offset isList) len ++ tail ∧
        start = (putLength (offset isList) len).length ∧ len ≤ tail.length ∧
        (isList = false → len = 1 → 0x80 ≤ tail.getD 0 0) := by
  cases input with
  | nil => cases h
  | cons b rest =>
    by_cases hb : b ≤ 0x7f
    · rw [header, if_pos hb] at h
      cases h
      refine .inl ⟨b, rest, ?_, rfl, rfl, rfl, rfl⟩
      rw [UInt8.le_iff_toNat_le] at hb
      rw [UInt8.lt_iff_toNat_lt]
      change b.toNat ≤ 127 at hb
      change b.toNat < 128
      omega
    have hb := UInt8.not_le.1 hb
    obtain ⟨hsp, -, hle, hsi⟩ := (header_cons_eq_ok hb).1 h
    obtain ⟨-, hs, tail, heq⟩ := putLength_of_span hb hsp
    have hl := congrArg length heq
    rw [length_cons, length_append, ← hs] at hl
    refine .inr ⟨tail, heq, hs, by omega, ?_⟩
    intro hk hone
    have hput := putLength_short (by omega : len ≤ 55) (offset isList)
    rw [hput] at heq hs
    obtain ⟨-, rfl⟩ := cons.inj heq
    exact hsi hk hs hone

theorem length_encodeInto_pos (item : Rlp) : 0 < (encodeInto item).length := by
  cases item with
  | bytes b =>
    rw [encodeInto]
    split_ifs with h
    · omega
    · rw [length_append]
      have := length_putLength_pos 0x80 b.length
      omega
  | list items =>
    simp only [encodeInto, length_append]
    have := length_putLength_pos 0xc0 (encodeAll items).length
    omega

theorem encodeInto_single (h : b < 0x80) : encodeInto (.bytes [b]) = [b] := by
  simp [encodeInto, h]

theorem encodeInto_bytes {b : Bytes} (h : b.length = 1 → 0x80 ≤ b.getD 0 0) :
    encodeInto (.bytes b) = putLength (offset false) b.length ++ b := by
  rw [encodeInto, if_neg]
  · rfl
  rintro ⟨hone, hall⟩
  obtain ⟨x, rfl⟩ := length_eq_one_iff.1 hone
  have hge : 0x80 ≤ x := h rfl
  have hlt : x < 0x80 := by simpa using hall
  exact absurd hlt (UInt8.not_lt.2 hge)

theorem encodeInto_list (items : List Rlp) : encodeInto (.list items) =
      putLength (offset true) (encodeAll items).length ++ encodeAll items := by
  rw [encodeInto]
  rfl

/-- `next` reads back the items that `levels` and the count allow, in front of anything. -/
def ReadsBack (levels : ℕ) (next : Bytes → ℕ → Except String (Rlp × ℕ × ℕ)) : Prop :=
  ∀ item rest items, depth item ≤ levels → items + itemCount item ≤ maxRlpItems →
    (encodeInto item).length < 2 ^ 63 →
    next (encodeInto item ++ rest) items =
      .ok (item, (encodeInto item).length, items + itemCount item)

theorem decodeItems_encodeAll (hn : ReadsBack levels next) (out : List Rlp)
    {rounds : ℕ} (hr : (encodeAll out).length ≤ rounds) (hd : depthAll out ≤ levels)
    (hi : items + itemCountAll out ≤ maxRlpItems) (hf : (encodeAll out).length < 2 ^ 63) :
    decodeItems next rounds (encodeAll out) items = .ok (out, items + itemCountAll out) := by
  induction out generalizing rounds items with
  | nil => cases rounds <;> rfl
  | cons item out ih =>
    rw [encodeAll, length_append] at hr hf
    rw [depthAll, max_le_iff] at hd
    rw [itemCountAll] at hi
    have hpos := length_encodeInto_pos item
    cases rounds with
    | zero => omega
    | succ rounds =>
      have he : (encodeAll (item :: out)).isEmpty = false := by
        rw [isEmpty_eq_false_iff, encodeAll]
        exact append_ne_nil_of_left_ne_nil (ne_nil_of_length_pos hpos) _
      have hit := hn item (encodeAll out) items hd.1 (by omega) (by omega)
      have hre : decodeItems next rounds (encodeAll out) (items + itemCount item) =
          .ok (out, items + itemCount item + itemCountAll out) :=
        ih (by omega) hd.2 (by omega) (by omega)
      rw [decodeItems, he, encodeAll, hit]
      simp only [Bool.false_eq_true, if_false, ok_bind, drop_left, hre, itemCountAll, Nat.add_assoc]
      rfl

/-- The decoder with the header of a string in hand; a byte of its own is the case of start `0`. -/
theorem decodeAt_bytes (hi : items + 1 ≤ maxRlpItems)
    (h : header input = .ok (false, start, len)) (hone : start = 0 → len = 1) :
    decodeAt levels input items = .ok (.bytes ((input.drop start).take len), start + len,
      items + 1) := by
  rw [decodeAt, h, decide_eq_true hi]
  simp only [ensure_true, ok_bind, Bool.not_false, if_true]
  by_cases hs : start = 0
  · obtain rfl := hone hs
    subst hs
    rfl
  · rw [if_neg hs]
    rfl

theorem decodeAt_list (hi : items + 1 ≤ maxRlpItems) (h : header input = .ok (true, start, len)) :
    decodeAt (levels + 1) input items = (decodeItems (decodeAt levels)
      ((input.drop start).take len).length ((input.drop start).take len) (items + 1)) >>= fun r =>
        .ok (.list r.1, start + len, r.2) := by
  rw [decodeAt, h, decide_eq_true hi]
  rfl

theorem decodeAt_string (b rest : Bytes) (hi : items + 1 ≤ maxRlpItems)
    (hf : (encodeInto (.bytes b)).length < 2 ^ 63) :
    decodeAt levels (encodeInto (.bytes b) ++ rest) items =
      .ok (.bytes b, (encodeInto (.bytes b)).length, items + 1) := by
  by_cases hs : b.length = 1 → 0x80 ≤ b.getD 0 0
  · rw [encodeInto_bytes hs] at hf ⊢
    rw [length_append] at hf
    rw [append_assoc]
    have hh : header (putLength (offset false) b.length ++ (b ++ rest)) =
        .ok (false, (putLength (offset false) b.length).length, b.length) := by
      refine header_putLength false ?_ (by omega) ?_
      · rw [length_append]
        exact Nat.le_add_right _ _
      · intro _ hone
        rw [getD_append _ _ _ _ (by omega)]
        exact hs hone
    have hpos := length_putLength_pos (offset false) b.length
    rw [decodeAt_bytes hi hh (by omega), drop_left, take_left, length_append]
  rw [Classical.not_imp] at hs
  obtain ⟨hone, hlow⟩ := hs
  obtain ⟨x, rfl⟩ := length_eq_one_iff.1 hone
  have hx : x < 0x80 := UInt8.not_le.1 hlow
  have hh : header (x :: rest) = .ok (false, 0, 1) := by
    rw [header, if_pos]
    rw [UInt8.lt_iff_toNat_lt] at hx
    rw [UInt8.le_iff_toNat_le]
    change x.toNat < 128 at hx
    change x.toNat ≤ 127
    omega
  rw [encodeInto_single hx, singleton_append, decodeAt_bytes hi hh (fun _ => rfl)]
  rfl

theorem decodeAt_readsBack (levels : ℕ) : ReadsBack levels (decodeAt levels) := by
  induction levels with
  | zero =>
    intro item rest items hd hi hf
    cases item with
    | bytes b => exact decodeAt_string b rest hi hf
    | list out => exact absurd hd (Nat.not_succ_le_zero _)
  | succ levels ih =>
    intro item rest items hd hi hf
    cases item with
    | bytes b => exact decodeAt_string b rest hi hf
    | list out =>
      rw [depth] at hd
      rw [itemCount] at hi ⊢
      rw [encodeInto_list, length_append] at hf
      have hh : header (encodeInto (.list out) ++ rest) =
          .ok (true, (putLength (offset true) (encodeAll out).length).length,
            (encodeAll out).length) := by
        rw [encodeInto_list, append_assoc]
        refine header_putLength true ?_ (by omega) nofun
        rw [length_append]
        exact Nat.le_add_right _ _
      have hl : decodeItems (decodeAt levels) (encodeAll out).length (encodeAll out)
          (items + 1) = .ok (out, items + 1 + itemCountAll out) :=
        decodeItems_encodeAll ih out (Nat.le_refl _) (by omega) (by omega) (by omega)
      rw [decodeAt_list (by omega) hh, encodeInto_list, append_assoc, drop_left,
        take_left, hl, ok_bind, length_append]
      congr 3
      omega

/-- `next` takes from its input the encoding of the item that it returns. -/
def TakesEncoding (next : Bytes → ℕ → Except String (Rlp × ℕ × ℕ)) : Prop :=
  ∀ input items item used items', next input items = .ok (item, used, items') →
    ∃ rest, input = encodeInto item ++ rest ∧ used = (encodeInto item).length

theorem encodeAll_of_decodeItems (hn : TakesEncoding next) {rounds : ℕ} {payload : Bytes}
    {items' : ℕ} {out : List Rlp} (hr : payload.length ≤ rounds)
    (h : decodeItems next rounds payload items = .ok (out, items')) : encodeAll out = payload := by
  induction rounds generalizing payload items out with
  | zero =>
    cases h
    exact (length_eq_zero_iff.1 (Nat.le_zero.1 hr)).symm
  | succ rounds ih =>
    rw [decodeItems] at h
    split_ifs at h with he
    · cases h
      exact (isEmpty_iff.1 he).symm
    simp only [bind_eq_ok, Prod.exists] at h
    obtain ⟨item, used, counted, hi, more, counted', hm, hout⟩ := h
    cases hout
    obtain ⟨rest, rfl, rfl⟩ := hn _ _ _ _ _ hi
    have hpos := length_encodeInto_pos item
    rw [drop_left] at hm
    rw [length_append] at hr
    rw [encodeAll, ih (by omega) hm]

theorem decodeAt_inv {r : Rlp × ℕ × ℕ} (h : decodeAt levels input items = .ok r) :
    items + 1 ≤ maxRlpItems ∧ ∃ isList start len, header input = .ok (isList, start, len) := by
  rw [decodeAt] at h
  simp only [bind_eq_ok, ensure_eq_ok, Prod.exists, decide_eq_true_eq] at h
  obtain ⟨-, hi, isList, start, len, hh, -⟩ := h
  exact ⟨hi, isList, start, len, hh⟩

theorem encodeInto_of_decodeAt_bytes {used items' : ℕ}
    (hi : items + 1 ≤ maxRlpItems) (hh : header input = .ok (false, start, len))
    (h : decodeAt levels input items = .ok (item, used, items')) :
    ∃ rest, input = encodeInto item ++ rest ∧ used = (encodeInto item).length := by
  obtain ⟨b, rest, hb, rfl, -, rfl, rfl⟩ | ⟨tail, rfl, rfl, hle, hs⟩ := header_cases hh
  · rw [decodeAt_bytes hi hh fun _ => rfl] at h
    cases h
    have hone : encodeInto (.bytes (((b :: rest).drop 0).take 1)) = [b] := encodeInto_single hb
    rw [hone]
    exact ⟨rest, rfl, rfl⟩
  have hpos := length_putLength_pos (offset false) len
  rw [decodeAt_bytes hi hh (by omega)] at h
  cases h
  have hl : (tail.take len).length = len := length_take_of_le hle
  have henc : encodeInto (.bytes (tail.take len)) =
      putLength (offset false) len ++ tail.take len := by
    rw [encodeInto_bytes, hl]
    intro hone
    rw [hl] at hone
    subst hone
    cases tail with
    | nil => exact absurd hle (by decide)
    | cons x tail => exact hs rfl rfl
  rw [drop_left, henc, length_append, hl]
  refine ⟨tail.drop len, ?_, rfl⟩
  rw [append_assoc, take_append_drop]

theorem decodeAt_takesEncoding (levels : ℕ) : TakesEncoding (decodeAt levels) := by
  induction levels with
  | zero =>
    intro input items item used items' h
    obtain ⟨hi, isList, start, len, hh⟩ := decodeAt_inv h
    cases isList with
    | false => exact encodeInto_of_decodeAt_bytes hi hh h
    | true =>
      rw [decodeAt, hh, decide_eq_true hi] at h
      cases h
  | succ levels ih =>
    intro input items item used items' h
    obtain ⟨hi, isList, start, len, hh⟩ := decodeAt_inv h
    cases isList with
    | false => exact encodeInto_of_decodeAt_bytes hi hh h
    | true =>
      rw [decodeAt_list hi hh, bind_eq_ok] at h
      obtain ⟨⟨out, counted⟩, hl, heq⟩ := h
      cases heq
      have hp := encodeAll_of_decodeItems ih (Nat.le_refl _) hl
      obtain ⟨_, _, _, _, hk, _⟩ | ⟨tail, rfl, rfl, hle, -⟩ := header_cases hh
      · cases hk
      rw [drop_left] at hp
      rw [encodeInto_list, hp, length_append, length_take_of_le hle]
      refine ⟨tail.drop len, ?_, rfl⟩
      rw [append_assoc, take_append_drop]

theorem encode_eq_some {b : Slice} : encode item = some b ↔ encodeInto item = b.bytes := by
  unfold encode
  split_ifs with h
  · rw [Option.some.injEq, Slice.mk.injEq]
  · refine ⟨nofun, fun heq => absurd b.length_lt ?_⟩
    rwa [← heq]

theorem encodeInto_of_decode (h : decode input = .ok item) : encodeInto item = input := by
  simp only [decode, decodePrefix, bind_eq_ok, ensure_eq_ok, Prod.exists, beq_iff_eq] at h
  obtain ⟨_, used, ⟨_, _, _, hi, heq⟩, -, hall, heq'⟩ := h
  cases heq
  cases heq'
  obtain ⟨rest, rfl, rfl⟩ := decodeAt_takesEncoding _ _ _ _ _ _ hi
  rw [length_append] at hall
  have hnil : rest = [] := length_eq_zero_iff.1 (by omega)
  rw [hnil, append_nil]

/-- The decoder reads back every item within its limits from what the encoder writes, and accepts
a byte string only for the item with that encoding, so that two byte strings never decode to one
item. -/
theorem decode_canonical :
    (∀ (item : Rlp) (b : Slice), depth item ≤ maxRlpDepth → itemCount item ≤ maxRlpItems →
      encode item = some b → decode b.bytes = .ok item) ∧
    (∀ (b : Slice) (item : Rlp), decode b.bytes = .ok item → encode item = some b) ∧
    ∀ (b b' : Slice) (item : Rlp), decode b.bytes = .ok item → decode b'.bytes = .ok item →
      b.bytes = b'.bytes := by
  refine ⟨?_, ?_, ?_⟩
  · intro item b hd hi h
    rw [encode_eq_some] at h
    have hf := b.length_lt
    rw [← h] at hf ⊢
    have hr := decodeAt_readsBack maxRlpDepth item [] 0 hd (by omega) hf
    rw [append_nil] at hr
    rw [decode, decodePrefix, hr]
    simp [ok_bind, pure, Except.pure]
  · intro b item h
    exact encode_eq_some.2 (encodeInto_of_decode h)
  · intro b b' item h h'
    rw [← encodeInto_of_decode h, encodeInto_of_decode h']

end NetGet.Rlp
