import NetGet.Verification.Lorawan.Counters
import NetGet.Verification.Lorawan.Frames

/-! # The uplinks of a device are accepted -/

namespace NetGet.Lorawan

open Library List Machine

variable {aes : Aes} {f : OutFrame} {nwkSKey appSKey : Block} {phy : Bytes} {devAddr : UInt32}

/-- The integrity check that the uplink handler makes. -/
def uplinkMic (aes : Aes) (nwkSKey : Block) (devAddr : UInt32) : MicOk := fun phy full =>
  dataMicOk aes phy nwkSKey dirUp devAddr full

/-- The bytes are a frame of the device, which does not put commands in two places. -/
structure Sends (aes : Aes) (nwkSKey appSKey : Block) (devAddr : UInt32) (f : OutFrame)
    (phy : Bytes) : Prop where
  up : f.mtype = mtypeUnconfirmedUp ∨ f.mtype = mtypeConfirmedUp
  devAddr_eq : f.devAddr = devAddr
  commands : f.fPort ≠ some 0 ∨ f.fOpts = []
  built : encodeData aes f nwkSKey appSKey = .ok phy

/-- Across wraps of the counter on air, the counter is the one that was sent. -/
theorem classifyFcnt_of_gap {l n : UInt32} (hlt : l < n) (hgap : n.toNat ≤ l.toNat + maxFcntGap) :
    classifyFcnt (some l) n.toUInt16 = some (.fresh n) := by
  have hn := n.toNat_lt
  rw [UInt32.lt_iff_toNat_lt] at hlt
  rw [maxFcntGap] at hgap
  have hf : fullFcnt (some l) n.toUInt16 = n := by
    rw [← UInt32.toNat_inj, toNat_fullFcnt, UInt32.toNat_toUInt16]
    split <;> omega
  have hle : l ≤ n := UInt32.le_iff_toNat_le.2 hlt.le
  have hne : n ≠ l := by
    rintro rfl
    exact lt_irrefl _ hlt
  have hfar : ¬ maxFcntGap < (n - l).toNat := by
    rw [UInt32.toNat_sub_of_le _ _ hle, maxFcntGap]
    omega
  simp only [classifyFcnt, hf]
  rw [if_neg hne, if_neg (UInt32.not_lt.2 hle), if_neg hfar]

/-- The frame is parsed, and its integrity code verifies at its own counter. -/
theorem Sends.parsed (h : Sends aes nwkSKey appSKey devAddr f phy) :
    mtypeOf phy = .ok f.mtype ∧ (∃ frame, parseData phy = .ok frame ∧ frame.devAddr = devAddr ∧
      frame.fCnt = f.fCnt.toUInt16) ∧ uplinkMic aes nwkSKey devAddr phy f.fCnt = true := by
  obtain ⟨hup, rfl, hcom, hb⟩ := h
  have hty : f.mtype ∈ dataTypes := by
    rcases hup with hu | hu <;> simp [dataTypes, hu]
  have hdir : f.dir = dirUp := if_pos (by simpa using hup)
  obtain ⟨_, hf, hb⟩ := bind_eq_ok.1 hb
  obtain ⟨hp, hb⟩ := ite_bind_eq_ok.1 hb
  obtain ⟨_, hl, hb⟩ := bind_eq_ok.1 hb
  cases hb
  simp only [ensure_eq_ok, decide_eq_true_eq] at hf hl
  simp only [ensure_eq_ok, List.isEmpty_iff, Option.isNone_iff_eq_none, exists_const] at hp
  obtain ⟨tail, hmsg, hport, -⟩ := exists_msg_eq aes nwkSKey appSKey hp
  have hparse := parseData_msg hty hf (length_dataMic f.dir f.devAddr f.fCnt _) hl
    (congrArg (· ++ _) hmsg)
  rw [hport, if_neg (fun hz => hcom.elim (· hz.1) hz.2)] at hparse
  refine ⟨mtypeOf_mhdr hty _, ⟨_, hparse, rfl, rfl⟩, ?_⟩
  have hm : 8 ≤ (f.msg aes nwkSKey appSKey).length := by
    rw [hmsg, length_append, length_append, Nat.add_assoc]
    exact Nat.le_add_right 8 _
  rw [uplinkMic, dataMicOk, length_append, length_dataMic, if_neg (by rw [minDataLen]; omega)]
  simp only [hdir, Nat.add_sub_cancel, take_left, drop_left, beq_self_eq_true]

theorem Sends.decision (h : Sends aes nwkSKey appSKey devAddr f phy) {s : Session}
    (hs : s.devAddr = devAddr)
    (hc : classifyFcnt s.fcntUp f.fCnt.toUInt16 = some (.fresh f.fCnt)) :
    s.decision (uplinkMic aes nwkSKey devAddr) phy = .accepted f.fCnt := by
  obtain ⟨hm, ⟨frame, hparse, ha, hw⟩, hmic⟩ := h.parsed
  have hup : (f.mtype == mtypeUnconfirmedUp || f.mtype == mtypeConfirmedUp) = true := by
    simpa using h.up
  simp only [Session.decision, hm, hup, hparse, ha, hs, Session.check, hw, hc, hmic, if_true]

theorem uplinks_from {sent : List (OutFrame × Bytes)} (s : Session) (hs : s.devAddr = devAddr)
    (hsent : ∀ p ∈ sent, Sends aes nwkSKey appSKey devAddr p.1 p.2)
    (hfirst : ∀ p ∈ sent.head?,
      classifyFcnt s.fcntUp p.1.fCnt.toUInt16 = some (.fresh p.1.fCnt))
    (hgap : (sent.map (·.1.fCnt)).IsChain fun a b => a < b ∧ b.toNat ≤ a.toNat + maxFcntGap) :
    (run (Session.uplink (uplinkMic aes nwkSKey devAddr)) s (sent.map (·.2))).accepted =
      s.accepted ++ sent.map fun p => (p.2, p.1.fCnt) := by
  induction sent generalizing s with
  | nil => simp
  | cons p rest ih =>
    have hd := (hsent p mem_cons_self).decision hs (hfirst p rfl)
    rw [map_cons, isChain_cons] at hgap
    rw [map_cons, map_cons, run_cons, Session.uplink, hd, append_cons]
    refine ih _ hs (fun q hq => hsent q (mem_cons_of_mem _ hq)) (fun q hq => ?_) hgap.2
    obtain ⟨hlt, hle⟩ := hgap.1 q.1.fCnt (by rw [head?_map, hq]; rfl)
    exact classifyFcnt_of_gap hlt hle

/-- Whatever a device sends is accepted under the counter it was sent with, as long as the first
counter fits in 16 bits and no more than `maxFcntGap` of them are lost in a row. -/
theorem uplinks_accepted (aes : Aes) (nwkSKey appSKey : Block) (devAddr : UInt32)
    (sent : List (OutFrame × Bytes))
    (hsent : ∀ p ∈ sent, Sends aes nwkSKey appSKey devAddr p.1 p.2)
    (hfirst : ∀ p ∈ sent.head?, p.1.fCnt.toNat < 2 ^ 16)
    (hgap : (sent.map (·.1.fCnt)).IsChain fun a b => a < b ∧ b.toNat ≤ a.toNat + maxFcntGap) :
    (run (Session.uplink (uplinkMic aes nwkSKey devAddr)) (.new devAddr)
      (sent.map (·.2))).accepted = sent.map fun p => (p.2, p.1.fCnt) := by
  refine uplinks_from (.new devAddr) rfl hsent (fun p hp => ?_) hgap
  have hn : p.1.fCnt.toUInt16.toUInt32 = p.1.fCnt := by
    rw [← UInt32.toNat_inj, UInt16.toNat_toUInt32, UInt32.toNat_toUInt16]
    exact Nat.mod_eq_of_lt (hfirst p hp)
  exact congrArg (some ∘ FcntCheck.fresh) hn

/-- An empty frame of device 1. -/
def bare (n : UInt32) : OutFrame :=
  { mtype := 2, devAddr := 1, adr := false, adrAckReq := false, ack := false, fPending := false,
    fCnt := n, fOpts := [], fPort := none, payload := [] }

/-- The second counter is behind a wrap of the counter on air. -/
theorem uplinks_accepted_wrap : ∃ phy phy',
    (run (Session.uplink (uplinkMic (fun _ b => b) (padded []) 1)) (.new 1) [phy, phy']).accepted =
      [(phy, 65000), (phy', 66000)] := by
  have hb : ∀ n ∈ [65000, 66000], ∃ phy,
      encodeData (fun _ b => b) (bare n) (padded []) (padded []) = .ok phy :=
    forall_mem_cons.2 ⟨⟨_, rfl⟩, forall_mem_singleton.2 ⟨_, rfl⟩⟩
  obtain ⟨phy, h⟩ := hb 65000 (by decide)
  obtain ⟨phy', h'⟩ := hb 66000 (by decide)
  refine ⟨phy, phy', uplinks_accepted _ _ (padded []) 1 [(bare 65000, phy), (bare 66000, phy')]
    (forall_mem_cons.2 ⟨?_, forall_mem_singleton.2 ?_⟩) (by simp [bare]) (by simp [bare]; decide)⟩
  · exact ⟨.inl rfl, rfl, .inr rfl, h⟩
  · exact ⟨.inl rfl, rfl, .inr rfl, h'⟩

end NetGet.Lorawan
