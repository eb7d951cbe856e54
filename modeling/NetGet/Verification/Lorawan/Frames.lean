import NetGet.Library.Fallible
import NetGet.Model.LorawanFrame
import Mathlib.Data.List.GetD

/-! # Frames that are parsed as they were built -/

namespace NetGet.Lorawan

open Library List

variable {aes : Aes} {f : OutFrame} {nwkSKey appSKey : Block}

@[simp] theorem length_dataMic (dir : UInt8) (devAddr fCnt : UInt32) (msg : Bytes) :
    (dataMic aes nwkSKey dir devAddr fCnt msg).length = 4 := by
  simp [dataMic, mic]

theorem ofLeBytes32 (v : UInt32) :
    v.toUInt8.toUInt32 ||| ((v >>> 8).toUInt8.toUInt32 <<< 8) |||
      ((v >>> 16).toUInt8.toUInt32 <<< 16) ||| ((v >>> 24).toUInt8.toUInt32 <<< 24) = v := by
  apply UInt32.toBitVec_inj.1
  apply BitVec.eq_of_getLsbD_eq
  intro i hi
  simp [-UInt32.toUInt32_toUInt8]
  grind

theorem ofLeBytes16 (v : UInt16) :
    v.toUInt8.toUInt16 ||| ((v >>> 8).toUInt8.toUInt16 <<< 8) = v := by
  apply UInt16.toBitVec_inj.1
  apply BitVec.eq_of_getLsbD_eq
  intro i hi
  simp [-UInt16.toUInt16_toUInt8]
  grind

theorem fctrl_bits (hf : f.fOpts.length ≤ maxFopts) :
    (f.fctrl &&& 0x0f).toNat = f.fOpts.length ∧ (f.fctrl &&& 0x80 != 0) = f.adr ∧
      (f.fctrl &&& 0x40 != 0) = f.adrAckReq ∧ (f.fctrl &&& 0x20 != 0) = f.ack ∧
      (f.fctrl &&& 0x10 != 0) = f.fPending := by
  have hall : ∀ n < 16, ∀ a b c d : Bool,
      let x := (a.toUInt8 <<< 7) ||| (b.toUInt8 <<< 6) ||| (c.toUInt8 <<< 5) |||
        (d.toUInt8 <<< 4) ||| UInt8.ofNat n
      (x &&& 0x0f).toNat = n ∧ (x &&& 0x80 != 0) = a ∧ (x &&& 0x40 != 0) = b ∧
        (x &&& 0x20 != 0) = c ∧ (x &&& 0x10 != 0) = d := by decide +kernel
  exact hall _ (Nat.lt_succ_of_le hf) f.adr f.adrAckReq f.ack f.fPending

def dataTypes : List UInt8 :=
  [mtypeUnconfirmedUp, mtypeConfirmedUp, mtypeUnconfirmedDown, mtypeConfirmedDown]

theorem mtypeOf_mhdr (hty : f.mtype ∈ dataTypes) (rest : Bytes) :
    mtypeOf (mhdr f.mtype :: rest) = .ok f.mtype := by
  have hall : ∀ t ∈ dataTypes, mhdr t &&& 0x03 = majorR1 ∧ mhdr t >>> 5 = t := by
    simp only [dataTypes, forall_mem_cons, not_mem_nil, false_imp_iff, implies_true, and_true]
    decide
  obtain ⟨hm, ht⟩ := hall _ hty
  simp only [mtypeOf, hm, ht, beq_self_eq_true, ensure_true]
  rfl

theorem parseData_msg (hty : f.mtype ∈ dataTypes) (hf : f.fOpts.length ≤ maxFopts)
    {tail code phy : Bytes} (hc : code.length = 4) (hl : phy.length ≤ maxPhyPayload)
    (hphy : phy = [mhdr f.mtype] ++ leBytes32 f.devAddr ++ [f.fctrl] ++
      leBytes16 f.fCnt.toUInt16 ++ f.fOpts ++ tail ++ code) :
    parseData phy =
      if tail.head? = some 0 ∧ f.fOpts ≠ [] then
        .error "MAC commands in both FOpts and FPort 0 are not allowed"
      else
        .ok
          { mtype := f.mtype
            devAddr := f.devAddr
            adr := f.adr
            adrAckReq := f.adrAckReq
            ack := f.ack
            fPending := f.fPending
            fCnt := f.fCnt.toUInt16
            fOpts := f.fOpts
            fPort := tail.head?
            frmPayload := tail.tail
            mic := code } := by
  obtain ⟨hn, ha, hr, hk, hp⟩ := fctrl_bits hf
  have hmem : (f.mtype == mtypeUnconfirmedUp || f.mtype == mtypeConfirmedUp ||
      f.mtype == mtypeUnconfirmedDown || f.mtype == mtypeConfirmedDown) = true := by
    simpa [dataTypes, or_assoc] using hty
  have hmt : mtypeOf phy = .ok f.mtype := hphy ▸ mtypeOf_mhdr hty _
  have hdev : (byteAt phy 1).toUInt32 ||| ((byteAt phy 2).toUInt32 <<< 8) |||
      ((byteAt phy 3).toUInt32 <<< 16) ||| ((byteAt phy 4).toUInt32 <<< 24) = f.devAddr :=
    hphy ▸ ofLeBytes32 _
  have hcnt : (byteAt phy 6).toUInt16 ||| ((byteAt phy 7).toUInt16 <<< 8) = f.fCnt.toUInt16 :=
    hphy ▸ ofLeBytes16 _
  have hfc : byteAt phy 5 = f.fctrl := hphy ▸ rfl
  generalize hhd : [mhdr f.mtype] ++ leBytes32 f.devAddr ++ [f.fctrl] ++
    leBytes16 f.fCnt.toUInt16 = hd at hphy
  have hlo : (hd ++ f.fOpts).length = 8 + f.fOpts.length := by
    rw [length_append, ← hhd]
    rfl
  have hlt : (hd ++ f.fOpts ++ tail).length = 8 + f.fOpts.length + tail.length := by
    rw [length_append, hlo]
  have hlen : phy.length - 4 = 8 + f.fOpts.length + tail.length := by
    rw [hphy, length_append, hlt, hc, Nat.add_sub_cancel]
  have hopts : (phy.take (8 + f.fOpts.length)).drop 8 = f.fOpts := by
    rw [hphy, append_assoc, take_left' hlo, drop_left' (hhd ▸ rfl)]
  have hcode : phy.drop (8 + f.fOpts.length + tail.length) = code := by
    rw [hphy, drop_left' hlt]
  have hmin : minDataLen ≤ phy.length := by
    rw [minDataLen]
    have := congrArg length hcode
    rw [length_drop, hc] at this
    omega
  simp only [parseData, hlen, hmt, hmem, hfc, hn, hopts, hcode, hdev, hcnt, ha, hr, hk, hp,
    decide_eq_true hmin, decide_eq_true hl, ensure_true, ok_bind,
    decide_eq_true (Nat.le_add_right (8 + f.fOpts.length) _)]
  cases tail with
  | nil =>
    simp
    rfl
  | cons port tail =>
    have hin : 8 + f.fOpts.length < 8 + f.fOpts.length + (port :: tail).length :=
      Nat.lt_add_of_pos_right (Nat.succ_pos _)
    have htail : (phy.take (8 + f.fOpts.length + (port :: tail).length)).drop
        (8 + f.fOpts.length + 1) = tail := by
      rw [hphy, take_left' hlt, ← drop_drop, drop_left' hlo, drop_one]
      rfl
    have hport : byteAt phy (8 + f.fOpts.length) = port := by
      rw [byteAt, hphy, append_assoc, getD_append_right _ _ _ _ (Nat.le_of_eq hlo), hlo,
        Nat.sub_self]
      rfl
    simp only [htail, hport, if_pos hin, head?_cons, tail_cons]
    by_cases hz : port = 0
    · subst hz
      by_cases ho : f.fOpts = []
      · simp [ho]
      · simp [ho, ensure]
    · simp [hz]
      rfl

/-- The frame is parsed with the same fields, its code verifies and its payload is recovered. -/
def Recovers (aes : Aes) (nwkSKey appSKey : Block) (f : OutFrame) (phy : Bytes) : Prop :=
  (∃ frame, parseData phy = .ok frame ∧ frame.mtype = f.mtype ∧ frame.devAddr = f.devAddr ∧
    frame.adr = f.adr ∧ frame.adrAckReq = f.adrAckReq ∧ frame.ack = f.ack ∧
    frame.fPending = f.fPending ∧ frame.fCnt = f.fCnt.toUInt16 ∧ frame.fOpts = f.fOpts ∧
    frame.fPort = f.fPort ∧
    cryptFrm aes (if f.fPort = some 0 then nwkSKey else appSKey) f.dir f.devAddr f.fCnt
      frame.frmPayload = f.payload) ∧
  dataMicOk aes phy nwkSKey f.dir f.devAddr f.fCnt = true

theorem exists_msg_eq (aes : Aes) (nwkSKey appSKey : Block)
    (hp : f.fPort = none → f.payload = []) :
    ∃ tail, f.msg aes nwkSKey appSKey = [mhdr f.mtype] ++ leBytes32 f.devAddr ++ [f.fctrl] ++
        leBytes16 f.fCnt.toUInt16 ++ f.fOpts ++ tail ∧ tail.head? = f.fPort ∧
      cryptFrm aes (if f.fPort = some 0 then nwkSKey else appSKey) f.dir f.devAddr f.fCnt tail.tail =
        f.payload := by
  refine ⟨_, rfl, ?_⟩
  cases hport : f.fPort with
  | none => exact ⟨rfl, (hp hport).symm⟩
  | some port =>
    refine ⟨rfl, ?_⟩
    simp only [Option.some.injEq, tail_cons, cryptFrm, mapIdx_mapIdx, mapIdx_eq_iff]
    intro i
    cases f.payload[i]? with
    | none => rfl
    | some p =>
      simp only [Option.map_some, Function.comp_apply, UInt8.xor_assoc, UInt8.xor_self,
        UInt8.xor_zero]

/-- A frame is recovered unless it carries commands both in its options and on port 0. -/
theorem encodeData_recovers_iff (aes : Aes) (f : OutFrame) (nwkSKey appSKey : Block) {phy : Bytes}
    (hty : f.mtype ∈ dataTypes) (h : encodeData aes f nwkSKey appSKey = .ok phy) :
    Recovers aes nwkSKey appSKey f phy ↔ f.fPort ≠ some 0 ∨ f.fOpts = [] := by
  obtain ⟨_, hf, h⟩ := bind_eq_ok.1 h
  obtain ⟨hp, h⟩ := ite_bind_eq_ok.1 h
  obtain ⟨_, hl, h⟩ := bind_eq_ok.1 h
  cases h
  simp only [ensure_eq_ok, decide_eq_true_eq] at hf hl
  simp only [ensure_eq_ok, List.isEmpty_iff, Option.isNone_iff_eq_none, exists_const] at hp
  obtain ⟨tail, hmsg, hport, hcrypt⟩ := exists_msg_eq aes nwkSKey appSKey hp
  have hm : 8 ≤ (f.msg aes nwkSKey appSKey).length := by
    rw [hmsg, length_append, length_append, Nat.add_assoc]
    exact Nat.le_add_right 8 _
  have hmic : dataMicOk aes (f.msg aes nwkSKey appSKey ++ dataMic aes nwkSKey f.dir f.devAddr f.fCnt
      (f.msg aes nwkSKey appSKey)) nwkSKey f.dir f.devAddr f.fCnt = true := by
    rw [dataMicOk, length_append, length_dataMic, if_neg (by rw [minDataLen]; omega)]
    simp only [Nat.add_sub_cancel, take_left, drop_left, beq_self_eq_true]
  have hparse := parseData_msg hty hf (length_dataMic f.dir f.devAddr f.fCnt _) hl
    (congrArg (· ++ _) hmsg)
  rw [hport] at hparse
  constructor
  · rintro ⟨⟨frame, hframe, -⟩, -⟩
    by_contra hb
    obtain ⟨hz, ho⟩ := not_or.1 hb
    rw [hparse, if_pos ⟨not_not.1 hz, ho⟩] at hframe
    cases hframe
  · intro hb
    rw [if_neg (fun h => hb.elim (· h.1) h.2)] at hparse
    exact ⟨⟨_, hparse, rfl, rfl, rfl, rfl, rfl, rfl, rfl, rfl, rfl, hcrypt⟩, hmic⟩

theorem encodeData_recovers_sample :
    ∃ phy, Recovers (fun _ b => b) (padded []) (padded [])
      { mtype := 2, devAddr := 1, adr := true, adrAckReq := false, ack := false,
        fPending := false, fCnt := 70000, fOpts := [2], fPort := some 1, payload := [7, 8] } phy :=
  ⟨_, (encodeData_recovers_iff (fun _ b => b) _ (padded []) (padded []) (by decide) rfl).2
    (.inl (by decide))⟩

/-- Options and commands on port 0: the frame is built and refused. -/
theorem encodeData_commands_refused :
    ∃ phy, encodeData (fun _ b => b)
        { mtype := 2, devAddr := 1, adr := false, adrAckReq := false, ack := false,
          fPending := false, fCnt := 1, fOpts := [2], fPort := some 0, payload := [2] }
        (padded []) (padded []) = .ok phy ∧
      parseData phy = .error "MAC commands in both FOpts and FPort 0 are not allowed" :=
  ⟨_, rfl, rfl⟩

end NetGet.Lorawan
