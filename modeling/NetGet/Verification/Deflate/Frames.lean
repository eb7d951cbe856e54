import NetGet.Model.Deflate

/-! # Frames on the wire -/

namespace NetGet.Deflate

open Library Peeling List Option

namespace Frame

theorem applyMask_applyMask (mask : Mask) (payload : Bytes) :
    applyMask mask (applyMask mask payload) = payload := by
  simp only [applyMask, mapIdx_mapIdx, Function.comp_def, UInt8.xor_assoc, UInt8.xor_self,
    UInt8.xor_zero]
  exact ext_getElem (by simp) (by simp)

theorem length_applyMask (mask : Mask) (payload : Bytes) :
    (applyMask mask payload).length = payload.length := length_mapIdx

variable {limit : ℕ} {buf : Bytes} {b1 : UInt8} {rest : Bytes}

theorem parseLength_append {len skip : ℕ} (h : parseLength b1 rest = some (len, skip))
    (more : Bytes) : parseLength b1 (rest ++ more) = some (len, skip) ∧ skip ≤ rest.length := by
  have ht {n : ℕ} (hn : n ≤ rest.length) : (rest ++ more).take n = rest.take n :=
    take_append_of_le_length hn
  unfold parseLength at h ⊢
  grind

theorem parse_append (more : Bytes) :
    (∀ e, parse limit buf = .error e → parse limit (buf ++ more) = .error e) ∧
    ∀ f used, parse limit buf = .ok (some (f, used)) →
      parse limit (buf ++ more) = .ok (some (f, used)) ∧ 0 < used ∧ used ≤ buf.length := by
  match buf with
  | [] | [_] => exact ⟨nofun, nofun⟩
  | b0 :: b1 :: rest =>
    simp only [parse, cons_append]
    cases hlen : parseLength b1 rest with
    | none => exact ⟨nofun, nofun⟩
    | some parsed =>
      obtain ⟨len, skip⟩ := parsed
      obtain ⟨ha, hsk⟩ := parseLength_append hlen more
      simp only [ha, length_append, length_cons]
      generalize hst : (if decide (128 ≤ b1.toNat) = true then skip + 4 else skip) = start
      by_cases hl : limit < len
      · rw [if_pos hl, if_pos hl]
        exact ⟨fun _ h => h, nofun⟩
      rw [if_neg hl, if_neg hl]
      by_cases hs : rest.length < start + len
      · rw [if_pos hs]
        exact ⟨nofun, nofun⟩
      have hlo : ¬rest.length + more.length < start + len := by omega
      rw [if_neg hs, if_neg hlo]
      refine ⟨nofun, fun f used h => ?_⟩
      have hp : ((rest ++ more).drop start).take len = (rest.drop start).take len := by
        rw [drop_append_of_le_length (by omega),
          take_append_of_le_length (by rw [length_drop]; omega)]
      have hma : (if decide (128 ≤ b1.toNat) = true then
            some fun i : Fin 4 => (rest ++ more).getD (skip + i) 0 else none) =
          if decide (128 ≤ b1.toNat) = true then
            some fun i : Fin 4 => rest.getD (skip + i) 0 else none := by
        split
        · rename_i hm
          rw [if_pos hm] at hst
          refine congrArg some (funext fun i => ?_)
          exact getD_append _ _ _ _ (by omega)
        · rfl
      rw [hp, hma]
      refine ⟨h, ?_⟩
      obtain ⟨-, rfl⟩ := Prod.mk.inj (some.inj (Except.ok.inj h))
      omega

theorem lengthBytes_spec (masked : Bool) {len : ℕ} (hlen : len < 2 ^ 64) :
    ∃ b1 tail, lengthBytes masked len = b1 :: tail ∧ decide (128 ≤ b1.toNat) = masked ∧
      ∀ rest, parseLength b1 (tail ++ rest) = some (len, tail.length) := by
  have hb (n : ℕ) (hn : n < 128) :
      (UInt8.ofNat ((if masked then 128 else 0) + n)).toNat = (if masked then 128 else 0) + n := by
    rw [UInt8.toNat_ofNat']
    split <;> omega
  have hm (n : ℕ) (hn : n < 128) :
      decide (128 ≤ (UInt8.ofNat ((if masked then 128 else 0) + n)).toNat) = masked := by
    rw [hb n hn]
    cases masked
    · simp
      omega
    · simp
  have hmod (n : ℕ) (hn : n < 128) :
      (UInt8.ofNat ((if masked then 128 else 0) + n)).toNat % 128 = n := by
    rw [hb n hn]
    split <;> omega
  unfold lengthBytes
  by_cases hs : len < 126
  · refine ⟨_, _, if_pos hs, hm len (by omega), fun rest => ?_⟩
    rw [parseLength, hmod len (by omega), if_neg (by omega), if_neg (by omega)]
    rfl
  rw [if_neg hs]
  by_cases hmi : len ≤ 65535
  · refine ⟨_, _, if_pos hmi, hm 126 (by omega), fun rest => ?_⟩
    rw [parseLength, hmod 126 (by omega), if_pos rfl, length_append, length_toBe,
      if_neg (by omega), take_left' (length_toBe 2 len), fromBe_toBe,
      Nat.mod_eq_of_lt (by omega)]
  refine ⟨_, _, if_neg hmi, hm 127 (by omega), fun rest => ?_⟩
  rw [parseLength, hmod 127 (by omega), if_neg (by omega), if_pos rfl, length_append,
    length_toBe, if_neg (by omega), take_left' (length_toBe 8 len), fromBe_toBe,
    Nat.mod_eq_of_lt (hlen.trans_eq (by decide))]

theorem first_spec (f : Frame) {n : ℕ}
    (hn : n = f.fin.toNat * 128 + f.rsv1.toNat * 64 + f.rsv23 * 16 + f.opcode) :
    decide (128 ≤ (UInt8.ofNat n).toNat) = f.fin ∧
    decide ((UInt8.ofNat n).toNat / 64 % 2 = 1) = f.rsv1 ∧
    Fin.ofNat 4 ((UInt8.ofNat n).toNat / 16) = f.rsv23 ∧
    Fin.ofNat 16 (UInt8.ofNat n).toNat = f.opcode := by
  have hrsv := f.rsv23.isLt
  have ho := f.opcode.isLt
  have hfin := f.fin.toNat_lt
  have hr := f.rsv1.toNat_lt
  have hb : (UInt8.ofNat n).toNat = n := by
    rw [UInt8.toNat_ofNat']
    omega
  rw [hb]
  refine ⟨?_, ?_, Fin.ext ?_, Fin.ext ?_⟩
  · cases hf : f.fin <;> simp [hf] at hn ⊢ <;> omega
  · cases hf : f.rsv1 <;> simp [hf] at hn ⊢ <;> omega
  · simp only [Fin.ofNat]
    omega
  · simp only [Fin.ofNat]
    omega

theorem parse_encode {f : Frame} (hlen : f.payload.length < 2 ^ 64) :
    parse limit f.encode = if limit < f.payload.length then
      .error (.frameExceeds f.payload.length limit) else .ok (some (f, f.encode.length)) := by
  obtain ⟨b1, tail, hb, hm, hp⟩ := lengthBytes_spec f.mask.isSome hlen
  obtain ⟨hfin, hrs, hr, ho⟩ := first_spec f rfl
  simp only [encode, hb, cons_append, parse, hp, hm, hfin, hrs, hr, ho, length_cons]
  refine if_congr Iff.rfl rfl ?_
  cases hma : f.mask with
  | none =>
    have hl : (tail ++ f.payload).length = tail.length + f.payload.length := length_append
    simp only [isSome_none, Bool.false_eq_true, if_false, elim_none,
      if_neg hl.not_lt, drop_left, take_length]
    have hf : ({ f with mask := none } : Frame) = f := by rw [← hma]
    exact congrArg (Except.ok ∘ some) (Prod.ext hf (by omega))
  | some mask =>
    have hl : (tail ++ (ofFn mask ++ applyMask mask f.payload)).length =
        tail.length + 4 + f.payload.length := by
      rw [length_append, length_append, length_ofFn, length_applyMask, Nat.add_assoc]
    have hre : (fun i : Fin 4 => (tail ++ (ofFn mask ++ applyMask mask f.payload)).getD
        (tail.length + i) 0) = mask := by
      funext i
      rw [getD_append_right _ _ _ _ (Nat.le_add_right _ _), Nat.add_sub_cancel_left,
        getD_append _ _ _ _ (by simp), getD_eq_getElem _ _ (by simp),
        List.getElem_ofFn]
    have hd : (tail ++ (ofFn mask ++ applyMask mask f.payload)).drop (tail.length + 4) =
        applyMask mask f.payload := by
      rw [← append_assoc]
      exact drop_left' (by simp)
    simp only [isSome_some, if_true, elim_some, if_neg hl.not_lt, hre, hd,
      take_of_length_le (length_applyMask mask f.payload).le, applyMask_applyMask]
    have hf : ({ f with mask := some mask } : Frame) = f := by rw [← hma]
    exact congrArg (Except.ok ∘ some) (Prod.ext hf (by omega))

end Frame

variable {κ : Type} {limit : ℕ} {turn : Direction κ → Frame → Outcome κ} {d d' : Direction κ}
  {frames out : List Frame}

theorem rule_stable (limit : ℕ) (turn : Direction κ → Frame → Outcome κ) :
    Stable (rule limit turn) := by
  have hc (d : Direction κ) (buf : Bytes) : rule limit turn d buf = .wait ∨
      (∀ more, rule limit turn d (buf ++ more) = rule limit turn d buf) ∧
        ∀ n d' out, rule limit turn d buf = .take n d' out → 0 < n ∧ n ≤ buf.length := by
    cases hp : Frame.parse limit buf with
    | error e =>
      have hm := fun more => (Frame.parse_append more).1 e hp
      exact .inr ⟨fun more => by simp only [rule, hm, hp], by simp [rule, hp]⟩
    | ok parsed =>
      cases parsed with
      | none => exact .inl (by rw [rule, hp])
      | some parsed =>
        have hm := fun more => (Frame.parse_append more).2 parsed.1 parsed.2 hp
        refine .inr ⟨fun more => by simp only [rule, (hm more).1, hp], ?_⟩
        intro n d' out ht
        simp only [rule, hp] at ht
        split at ht
        · cases ht
        · cases ht
          exact (hm []).2
  refine ⟨fun {d _ buf _ _} more h => ?_, fun {d buf _} more h => ?_, fun {d _ buf _ _} h => ?_,
    fun {d _ buf _ _} h => ?_⟩
  all_goals
    obtain hw | ⟨hm, ht⟩ := hc d buf
    · rw [h] at hw
      cases hw
    first
    | exact (hm more).trans h
    | exact (ht _ _ _ h).1
    | exact (ht _ _ _ h).2

def runFrames (turn : Direction κ → Frame → Outcome κ) : Direction κ → List Frame → Outcome κ
  | d, [] => .ok (d, [])
  | d, f :: frames =>
      match turn d f with
      | .error e => .error e
      | .ok (d, out) => (runFrames turn d frames).map fun r => (r.1, out ++ r.2)

theorem runFrames_cons {f : Frame} (h : runFrames turn d (f :: frames) = .ok (d', out)) :
    ∃ d₁ out₁ out₂, turn d f = .ok (d₁, out₁) ∧ runFrames turn d₁ frames = .ok (d', out₂) ∧
      out = out₁ ++ out₂ := by
  rw [runFrames] at h
  cases ht : turn d f with
  | error e =>
    rw [ht] at h
    cases h
  | ok r =>
    simp only [ht] at h
    cases hr : runFrames turn r.1 frames with
    | error e =>
      rw [hr] at h
      cases h
    | ok r' =>
      rw [hr] at h
      cases h
      exact ⟨r.1, r.2, r'.2, rfl, hr, rfl⟩

theorem read_frames (hfit : ∀ f ∈ frames, f.payload.length ≤ limit) (hl : limit < 2 ^ 64)
    (hrun : runFrames turn d frames = .ok (d', out)) (outputs : List (List Frame)) :
    ∃ outputs', outputs'.flatten = outputs.flatten ++ out ∧
      Peeling.read (rule limit turn) ⟨d, [], outputs, none⟩ (frames.flatMap Frame.encode) =
        ⟨d', [], outputs', none⟩ := by
  induction frames generalizing d out outputs with
  | nil =>
    cases hrun
    exact ⟨outputs, (append_nil _).symm, rfl⟩
  | cons f frames ih =>
    obtain ⟨d₁, out₁, out₂, ht, hr, rfl⟩ := runFrames_cons hrun
    have hf := hfit f mem_cons_self
    have hru : rule limit turn d f.encode = .take f.encode.length d₁ (some out₁) := by
      simp only [rule, Frame.parse_encode (hf.trans_lt hl), if_neg hf.not_gt, ht]
    obtain ⟨outputs', ho, hre⟩ :=
      ih (fun g hg => hfit g (mem_cons_of_mem f hg)) hr (outputs ++ [out₁])
    refine ⟨outputs', ?_, ?_⟩
    · rw [ho, flatten_append, flatten_singleton, append_assoc]
    · rw [flatMap_cons, read_unit (rule_stable limit turn) hru]
      exact hre

theorem readAll_frames (hfit : ∀ f ∈ frames, f.payload.length ≤ limit) (hl : limit < 2 ^ 64)
    (hrun : runFrames turn d frames = .ok (d', out)) {chunks : List Bytes}
    (hc : chunks.flatten = frames.flatMap Frame.encode) : ∃ outputs, outputs.flatten = out ∧
      readAll (rule limit turn) (.start d) chunks = ⟨d', [], outputs, none⟩ := by
  obtain ⟨outputs, ho, hr⟩ := read_frames hfit hl hrun []
  refine ⟨outputs, ho, ?_⟩
  rw [readAll_eq (rule_stable limit turn) rfl, hc]
  exact hr

end NetGet.Deflate
