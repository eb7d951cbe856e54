import NetGet.Library.BitStream
import NetGet.Library.Fallible
import NetGet.Model.Per
import Mathlib.Tactic.Ring

/-! # Reading back what was written

A writer stands for the bits that it holds. Each of its operations has a counterpart of the reader,
which gives back the value if it starts at the writer's bit, in bytes that have these bits there. -/

namespace NetGet.Per

open Library List Writer

/-- The writer has written these bits. -/
structure Writer.Holds (w : Writer) (bs : List Bool) : Prop where
  bitLen_eq : w.bitLen = bs.length
  packs : Packs bs w.data

/-- What is written between `w` and `w'` is read as `a`. -/
def Mirrors {α : Type} (w w' : Writer) (read : Reader → PerResult (α × Reader)) (a : α) : Prop :=
  ∀ bs, w.Holds bs → ∃ chunk, w'.Holds (bs ++ chunk) ∧ ∀ data, Has data bs.length chunk →
    read { data, pos := bs.length } = .ok (a, { data, pos := (bs ++ chunk).length })

namespace Mirrors

variable {α β : Type} {w w₁ w' : Writer} {read : Reader → PerResult (α × Reader)} {a : α} {b : β}

theorem nothing (w : Writer) (a : α) : Mirrors w w (fun r => .ok (a, r)) a := by
  intro bs hbs
  refine ⟨[], by rwa [append_nil], fun data _ => ?_⟩
  rw [append_nil]

theorem bind {next : α × Reader → PerResult (β × Reader)} (h : Mirrors w w₁ read a)
    (hn : Mirrors w₁ w' (fun r => next (a, r)) b) : Mirrors w w' (fun r => read r >>= next) b := by
  intro bs hbs
  obtain ⟨chunk, hc, hre⟩ := h bs hbs
  obtain ⟨rest, hrest, hr⟩ := hn _ hc
  refine ⟨chunk ++ rest, by rwa [← append_assoc], fun data hd => ?_⟩
  obtain ⟨hf, hs⟩ := Has.append_iff.1 hd
  rw [← length_append] at hs
  simp only [hre data hf, ok_bind]
  have hl := hr data hs
  rwa [append_assoc] at hl

theorem map (f : α → β) (h : Mirrors w w' read a) :
    Mirrors w w' (fun r => read r >>= fun p => .ok (f p.1, p.2)) (f a) :=
  h.bind (nothing w' (f a))

end Mirrors

namespace Writer.Holds

variable {w : Writer} {bs : List Bool}

theorem new : new.Holds [] := ⟨rfl, .nil⟩

theorem bit (h : w.Holds bs) (b : Bool) : (w.bit b).Holds (bs ++ [b]) where
  bitLen_eq := by
    rw [length_append, Writer.bit, h.bitLen_eq]
    rfl
  packs := by
    have hp := h.packs.push b
    rw [← h.bitLen_eq] at hp
    exact hp

theorem bits (h : w.Holds bs) (v n : ℕ) : (w.bits v n).Holds (bs ++ bitsOf n v) := by
  induction n generalizing w bs with
  | zero =>
    rw [bitsOf, append_nil]
    exact h
  | succ n ih =>
    have hr := ih (h.bit (v.testBit n))
    rwa [append_assoc] at hr

theorem align (h : w.Holds bs) :
    w.align.Holds (bs ++ List.replicate ((bs.length + 7) / 8 * 8 - bs.length) false) where
  bitLen_eq := by
    rw [length_append, length_replicate, Writer.align, h.bitLen_eq]
    simp only
    omega
  packs := h.packs.zeros (by omega)

theorem octets (h : w.Holds bs) (hf : bs.length % 8 = 0) (bytes : Bytes) :
    (w.octets bytes).Holds (bs ++ bitsOfBytes bytes) where
  bitLen_eq := by
    rw [length_append, length_bitsOfBytes, Writer.octets, Writer.align, h.bitLen_eq]
    simp only
    omega
  packs := h.packs.bytes hf bytes

end Writer.Holds

variable {w w' : Writer} {n v range : ℕ} {what : String} {size : Size}

theorem Mirrors.align {α : Type} {read : Reader → PerResult (α × Reader)} {a : α}
    (h : Mirrors w.align w' read a) : Mirrors w w' (fun r => read r.align) a := by
  intro bs hbs
  obtain ⟨chunk, hc, hre⟩ := h _ hbs.align
  refine ⟨_, by rwa [append_assoc] at hc, fun data hd => ?_⟩
  obtain ⟨hz, hr⟩ := Has.append_iff.1 hd
  rw [← length_append] at hr
  have hle := hz.le
  have hpos : ({ data, pos := bs.length } : Reader).align = { data, pos :=
      (bs ++ replicate ((bs.length + 7) / 8 * 8 - bs.length) false).length } := by
    rw [length_replicate] at hle
    rw [Reader.align, length_append, length_replicate]
    simp only [Reader.mk.injEq, true_and]
    omega
  beta_reduce
  rw [hpos, hre data hr, append_assoc]

theorem bitsLoop_eq {data : Bytes} {pos : ℕ} (h : Has data pos (bitsOf n v)) (acc : ℕ) :
    Reader.bitsLoop data n pos acc = acc * 2 ^ n + v % 2 ^ n := by
  induction n generalizing pos acc with
  | zero => simp [Reader.bitsLoop, Nat.mod_one]
  | succ n ih =>
    change Has data pos ([v.testBit n] ++ bitsOf n v) at h
    obtain ⟨hf, hr⟩ := Has.append_iff.1 h
    have hbit : bitAt data pos = v.testBit n := hf.get 0 _ rfl
    have hv : (data.getD (pos / 8) 0).toNat / 2 ^ (7 - pos % 8) % 2 = v / 2 ^ n % 2 := by
      rw [← Nat.toNat_testBit, ← Nat.toNat_testBit, ← hbit]
      rfl
    change Reader.bitsLoop data n (pos + [v.testBit n].length) _ = _
    rw [ih hr, hv, Nat.mod_pow_succ, Nat.pow_succ]
    ring

theorem mirrors_bits (w : Writer) (hn : n ≤ 64) (hv : v < 2 ^ n) (what : String) :
    Mirrors w (w.bits v n) (fun r => r.bits n what) v := by
  intro bs hbs
  refine ⟨_, hbs.bits v n, fun data hd => ?_⟩
  have hle := hd.le
  rw [length_bitsOf] at hle
  have hr : ¬ ({ data, pos := bs.length } : Reader).remainingBits < n := by
    rw [Reader.remainingBits]
    simp only
    omega
  beta_reduce
  rw [Reader.bits, if_neg (Nat.not_lt.2 hn), if_neg hr, bitsLoop_eq hd, Nat.zero_mul,
    Nat.zero_add, Nat.mod_eq_of_lt hv, length_append, length_bitsOf]

theorem mirrors_extension (w : Writer) (ext used : Bool) (h : used = true → ext = true)
    (what : String) :
    Mirrors w (w.extension ext used) (fun r => r.extension ext what) used.toNat := by
  cases ext with
  | true => exact mirrors_bits w (by decide) used.toNat_lt what
  | false =>
    cases used with
    | true => cases h rfl
    | false => exact .nothing w 0

theorem mirrors_flags (w : Writer) (flags : List Bool) (what : String) :
    Mirrors w (w.flags flags) (fun r => r.flags what flags.length) flags := by
  induction flags generalizing w with
  | nil => exact .nothing w []
  | cons flag flags ih =>
    simp only [length_cons, Reader.flags]
    refine (mirrors_bits w (by decide) flag.toNat_lt what).bind ?_
    cases flag with
    | false => exact (ih (w.bits 0 1)).map (false :: ·)
    | true => exact (ih (w.bits 1 1)).map (true :: ·)

theorem align_align (w : Writer) : w.align.align = w.align := by
  rw [align, align]
  simp only [mk.injEq, true_and]
  omega

theorem mirrors_of_holds {bytes : Bytes}
    (h : ∀ bs, w.align.Holds bs → w'.Holds (bs ++ bitsOfBytes bytes)) (what : String) :
    Mirrors w w' (fun r => r.octets bytes.length what) bytes := by
  let read (r : Reader) : PerResult (Bytes × Reader) :=
    if r.data.length - r.pos / 8 < bytes.length then
      err what (.declaresOctets bytes.length (r.data.length - r.pos / 8))
    else .ok ((r.data.drop (r.pos / 8)).take bytes.length,
      { r with pos := r.pos + bytes.length * 8 })
  suffices h' : Mirrors w.align w' read bytes from h'.align
  intro bs hbs
  have hf : bs.length % 8 = 0 := by
    rw [← hbs.bitLen_eq, align]
    exact Nat.mul_mod_left _ 8
  refine ⟨_, h bs hbs, fun data hd => ?_⟩
  have hle := hd.le
  rw [length_bitsOfBytes] at hle
  have hpos : bs.length = bs.length / 8 * 8 := by omega
  have hr : ¬ data.length - bs.length / 8 < bytes.length := by omega
  rw [hpos] at hd
  simp only [read, if_neg hr, hd.take_drop, length_append, length_bitsOfBytes]

theorem mirrors_octets (w : Writer) (bytes : Bytes) (what : String) :
    Mirrors w (w.octets bytes) (fun r => r.octets bytes.length what) bytes := by
  refine mirrors_of_holds (fun bs hbs => ?_) what
  have hf : bs.length % 8 = 0 := by
    rw [← hbs.bitLen_eq, align]
    exact Nat.mul_mod_left _ 8
  have ho := hbs.octets hf bytes
  rw [octets, align_align] at ho
  exact ho

theorem mirrors_octetsLoop (w : Writer) (bytes : Bytes) (what : String) :
    Mirrors w (w.octetsUnaligned bytes) (Reader.octetsLoop what bytes.length) bytes := by
  induction bytes generalizing w with
  | nil => exact .nothing w []
  | cons b bytes ih =>
    have hr : Mirrors w (w.octetsUnaligned (b :: bytes))
        (Reader.octetsLoop what (bytes.length + 1)) (UInt8.ofNat b.toNat :: bytes) :=
      (mirrors_bits w (by decide) b.toNat_lt what).bind
        ((ih (w.bits b.toNat 8)).map (UInt8.ofNat b.toNat :: ·))
    rwa [UInt8.ofNat_toNat] at hr

theorem Mirrors.guard {α : Type} {read : Reader → PerResult (α × Reader)} {a : α}
    (h : Mirrors w w' read a) (hn : w.bitLen + n ≤ w'.bitLen) (e : PerResult (α × Reader)) :
    Mirrors w w' (fun r => if r.remainingBits < n then e else read r) a := by
  intro bs hbs
  obtain ⟨chunk, hc, hr⟩ := h bs hbs
  refine ⟨chunk, hc, fun data hd => ?_⟩
  have hle := hd.le
  have hl := hc.bitLen_eq
  rw [length_append] at hl
  have hro : ¬ ({ data, pos := bs.length } : Reader).remainingBits < n := by
    have := hbs.bitLen_eq
    rw [Reader.remainingBits]
    simp only
    omega
  simp only [if_neg hro]
  exact hr data hd

theorem bitLen_bits (w : Writer) (v n : ℕ) : (w.bits v n).bitLen = w.bitLen + n := by
  induction n generalizing w with
  | zero => rfl
  | succ n ih =>
    rw [bits, ih, bit]
    simp only
    omega

theorem bitLen_foldl_bits {α : Type} (w : Writer) (codes : List α) (f : α → ℕ) (b : ℕ) :
    (codes.foldl (fun w c => w.bits (f c) b) w).bitLen = w.bitLen + codes.length * b := by
  induction codes generalizing w with
  | nil => rw [foldl_nil, length_nil, Nat.zero_mul, Nat.add_zero]
  | cons c codes ih =>
    rw [foldl_cons, ih, bitLen_bits, length_cons, Nat.succ_mul]
    omega

theorem lt_two_pow_bitLength (n : ℕ) : n < 2 ^ bitLength n := by
  rw [bitLength]
  split_ifs with hz
  · rw [hz]
    decide
  · exact Nat.lt_log2_self

theorem bitLength_le_iff {k : ℕ} : bitLength n ≤ k ↔ n < 2 ^ k := by
  rw [bitLength]
  split_ifs with hz
  · rw [hz]
    exact ⟨fun _ => Nat.two_pow_pos k, fun _ => Nat.zero_le k⟩
  · exact Nat.log2_lt hz

theorem lt_two_pow_bitsForRange (h : v < range) : v < 2 ^ bitsForRange range := by
  rw [bitsForRange]
  split
  · omega
  · have := lt_two_pow_bitLength (range - 1)
    omega

theorem octetsFor_pos (v : ℕ) : 1 ≤ octetsFor v := Nat.le_max_right _ _

theorem lt_pow_octetsFor (v : ℕ) : v < 256 ^ octetsFor v := by
  have hb : bitLength v ≤ 8 * octetsFor v := by
    rw [octetsFor]
    omega
  have hpow : 2 ^ (8 * octetsFor v) = 256 ^ octetsFor v := by rw [Nat.pow_mul]
  rw [← hpow]
  exact bitLength_le_iff.1 hb

theorem octetsFor_mono {v' : ℕ} (h : v ≤ v') : octetsFor v ≤ octetsFor v' := by
  have hb : bitLength v ≤ bitLength v' :=
    bitLength_le_iff.2 (Nat.lt_of_le_of_lt h (lt_two_pow_bitLength v'))
  rw [octetsFor, octetsFor]
  omega

theorem octetsFor_le_eight (h : v < 2 ^ 64) : octetsFor v ≤ 8 := by
  have hb := bitLength_le_iff.2 h
  rw [octetsFor]
  omega

theorem toBe_succ (len v : ℕ) : toBe (len + 1) v = UInt8.ofNat (v / 256 ^ len) :: toBe len v := by
  induction len generalizing v with
  | zero => rw [toBe, toBe, toBe, Nat.pow_zero, Nat.div_one]
            rfl
  | succ len ih =>
    rw [toBe, ih, Nat.div_div_eq_div_mul, ← Nat.pow_succ', cons_append]
    rfl

theorem holds_wholeOctets {bs : List Bool} (h : w.Holds bs) (v len : ℕ) :
    (w.wholeOctets v len).Holds (bs ++ bitsOfBytes (toBe len v)) := by
  induction len generalizing w bs with
  | zero =>
    change w.Holds (bs ++ [])
    rwa [append_nil]
  | succ len ih =>
    have hr := ih (h.bits (v / 2 ^ (8 * len) % 256) 8)
    have hb : (UInt8.ofNat (v / 256 ^ len)).toNat = v / 2 ^ (8 * len) % 256 := by
      rw [UInt8.toNat_ofNat', Nat.pow_mul]
    rw [toBe_succ]
    change Writer.Holds _ (bs ++ (bitsOf 8 (UInt8.ofNat (v / 256 ^ len)).toNat ++
      bitsOfBytes (toBe len v)))
    rw [hb, ← append_assoc]
    exact hr

theorem mirrors_whole (w : Writer) (hv : v < range) (hr : range ≤ 2 ^ 64) (what : String) :
    Mirrors w (w.whole v range) (fun r => r.whole range what) v := by
  have hb : ∀ k ≤ 2 ^ 64, bitsForRange k ≤ 64 := by
    intro k hk
    rw [bitsForRange]
    split
    · exact Nat.zero_le _
    · exact bitLength_le_iff.2 (by omega)
  simp only [whole, Reader.whole]
  split
  · have hz : v = 0 := by omega
    rw [hz]
    exact .nothing w 0
  split
  · exact mirrors_bits w (hb range hr) (lt_two_pow_bitsForRange hv) what
  split
  · exact (mirrors_bits w.align (by decide) (by omega) what).align
  split
  · exact (mirrors_bits w.align (by decide) (by omega) what).align
  have hlen : octetsFor v - 1 < octetsFor (range - 1) := by
    have hpos := octetsFor_pos v
    have hm := octetsFor_mono (by omega : v ≤ range - 1)
    omega
  have height := octetsFor_le_eight (by omega : range - 1 < 2 ^ 64)
  refine (mirrors_bits w (hb _ (by omega)) (lt_two_pow_bitsForRange hlen) what).bind ?_
  have hre := (mirrors_of_holds (fun bs hbs => holds_wholeOctets hbs v (octetsFor v))
    what : Mirrors (w.bits (octetsFor v - 1) (bitsForRange (octetsFor (range - 1)))) _ _ _)
  rw [length_toBe] at hre
  have hva : fromBe (toBe (octetsFor v) v) = v := by
    rw [fromBe_toBe, Nat.mod_eq_of_lt (lt_pow_octetsFor v)]
  simp only [Nat.sub_add_cancel (octetsFor_pos v)]
  have hmap := hre.map fromBe
  rw [hva] at hmap
  exact hmap

theorem bits_add (w : Writer) (v m n : ℕ) : w.bits v (m + n) = (w.bits (v / 2 ^ n) m).bits v n := by
  induction m generalizing w with
  | zero =>
    rw [Nat.zero_add]
    rfl
  | succ m ih =>
    rw [Nat.succ_add, bits, ih, bits, Nat.testBit_div_two_pow]

theorem bits_mod (w : Writer) (v n : ℕ) {k : ℕ} (h : n ≤ k) : w.bits (v % 2 ^ k) n = w.bits v n := by
  induction n generalizing w with
  | zero => rfl
  | succ n ih =>
    rw [bits, bits, ih _ (by omega), Nat.testBit_mod_two_pow,
      decide_eq_true (by omega : n < k), Bool.true_and]

theorem mirrors_generalLength (h : w.generalLength n what = .ok w') (what' : String) :
    Mirrors w w' (fun r => r.generalLength what') n := by
  simp only [generalLength] at h
  simp only [Reader.generalLength]
  split at h
  · rename_i hs
    cases h
    refine Mirrors.bind (mirrors_bits w.align (v := n) (by decide) (by omega) what').align ?_
    simp only [if_pos hs]
    exact .nothing _ n
  split at h
  · rename_i hl hmax
    cases h
    rw [maxUnfragmented] at hmax
    have hsp : w.align.bits (0x8000 + n) 16 =
        (w.align.bits ((0x8000 + n) / 256) 8).bits ((0x8000 + n) % 256) 8 := by
      rw [bits_add w.align (0x8000 + n) 8 8, ← bits_mod _ (0x8000 + n) 8 (k := 8) (Nat.le_refl 8)]
      rfl
    rw [hsp]
    refine Mirrors.bind
      (mirrors_bits w.align (v := (0x8000 + n) / 256) (by decide) (by omega) what').align ?_
    simp only [if_neg (by omega : ¬ (0x8000 + n) / 256 < 0x80),
      if_pos (by omega : (0x8000 + n) / 256 < 0xC0)]
    have hr := (mirrors_bits (w.align.bits ((0x8000 + n) / 256) 8) (by decide : 8 ≤ 64)
      (by omega : (0x8000 + n) % 256 < 2 ^ 8) what').map
        (fun second => (0x8000 + n) / 256 % 0x40 * 256 + second)
    have hv : (0x8000 + n) / 256 % 0x40 * 256 + (0x8000 + n) % 256 = n := by omega
    rw [hv] at hr
    exact hr
  · cases h

theorem mirrors_normallySmall (h : w.normallySmall v what = .ok w') (what' : String) :
    Mirrors w w' (fun r => r.normallySmall what') v := by
  simp only [normallySmall] at h
  split at h
  · cases h
  cases h
  simp only [Reader.normallySmall]
  refine Mirrors.bind (mirrors_bits w (v := 0) (by decide) (by decide) what') ?_
  exact mirrors_bits _ (by decide) (by omega) what'

theorem mirrors_length (h : w.length n size what = .ok w') (what' : String) :
    Mirrors w w' (fun r => r.length size what') n := by
  simp only [Writer.length] at h
  split_ifs at h with hin
  · cases h
  obtain ⟨hlow, hh⟩ := not_or.1 hin
  simp only [Reader.length]
  refine Mirrors.bind (mirrors_extension w size.ext false nofun what') ?_
  generalize w.extension size.ext false = v at h ⊢
  have hr : Mirrors v w' (fun r => r.rootLength size what') n := by
    simp only [Reader.rootLength]
    cases hub : size.ub with
    | none =>
      rw [hub] at h
      exact mirrors_generalLength h what'
    | some ub =>
      rw [hub] at h hh
      have hle : n ≤ ub := by simpa using hh
      simp only at h ⊢
      split at h
      · rename_i hf
        cases h
        simp only [if_pos hf]
        rw [(by omega : n = ub)]
        exact .nothing _ _
      rename_i hf
      split_ifs at h with hs
      · cases h
        simp only [if_neg hf, if_pos hs, if_neg (by omega : ¬ ub < size.lb)]
        have hr := (mirrors_whole v (by omega : n - size.lb < ub - size.lb + 1) (by omega)
          what').map (size.lb + ·)
        rw [Nat.add_sub_cancel' (Nat.not_lt.1 hlow)] at hr
        exact hr
      · simp only [if_neg hf, if_neg hs]
        exact mirrors_generalLength h what'
  refine Mirrors.bind hr ?_
  simp only [if_neg hin]
  exact .nothing _ n

theorem mirrors_openType {inner : Bytes} (h : w.openType inner what = .ok w') (what' : String) :
    Mirrors w w' (fun r => r.openType what') inner := by
  obtain ⟨w₁, hw₁, h⟩ := bind_eq_ok.1 h
  cases h
  exact Mirrors.bind (mirrors_generalLength hw₁ what') (mirrors_octets w₁ inner what')

end NetGet.Per
