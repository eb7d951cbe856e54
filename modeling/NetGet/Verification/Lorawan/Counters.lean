import Mathlib.Data.List.Chain
import NetGet.Model.Lorawan

/-! # The counters of accepted uplinks -/

namespace NetGet.Lorawan

open Library List
open Machine

theorem and_upper_half {n : ℕ} (h : n < 2 ^ 32) : n &&& 0xffff0000 = n / 2 ^ 16 * 2 ^ 16 := by
  rw [show 0xffff0000 = (2 ^ 16 - 1) <<< 16 by decide, ← Nat.shiftRight_eq_div_pow,
    ← Nat.shiftLeft_eq]
  apply Nat.eq_of_testBit_eq
  intro i
  simp only [Nat.testBit_and, Nat.testBit_shiftLeft, Nat.testBit_shiftRight,
    Nat.testBit_two_pow_sub_one]
  by_cases hlow : 16 ≤ i
  · by_cases hh : i < 32
    · have hin : i - 16 < 16 := by omega
      simp [hlow, hin]
    have hz : n.testBit i = false :=
      Nat.testBit_lt_two_pow (Nat.lt_of_lt_of_le h (Nat.pow_le_pow_right (by decide) (by omega)))
    have hb : 16 + (i - 16) = i := by omega
    simp [hz, hb]
  · simp [hlow]

theorem toNat_candidate (last : UInt32) (wire : UInt16) :
    ((last &&& 0xffff0000) ||| wire.toUInt32).toNat =
      last.toNat / 2 ^ 16 * 2 ^ 16 + wire.toNat := by
  have hw := wire.toNat_lt
  rw [UInt32.toNat_or, UInt32.toNat_and, UInt16.toNat_toUInt32]
  rw [show (0xffff0000 : UInt32).toNat = 0xffff0000 from rfl, and_upper_half last.toNat_lt,
    ← Nat.shiftLeft_eq, Nat.shiftLeft_add_eq_or_of_lt hw]

/-- The counter on air is behind the last one, and there is no further wrap. -/
def PastTop (last : Option UInt32) (wire : UInt16) : Prop :=
  ∃ l ∈ last, wire.toNat < l.toNat % 2 ^ 16 ∧ l.toNat / 2 ^ 16 = 2 ^ 16 - 1

theorem toNat_fullFcnt (l : UInt32) (wire : UInt16) : (fullFcnt (some l) wire).toNat =
      if wire.toNat < l.toNat % 2 ^ 16 then ((l.toNat / 2 ^ 16 + 1) * 2 ^ 16 + wire.toNat) % 2 ^ 32
      else l.toNat / 2 ^ 16 * 2 ^ 16 + wire.toNat := by
  have hc := toNat_candidate l wire
  have hs := Nat.div_add_mod l.toNat (2 ^ 16)
  simp only [fullFcnt, UInt32.lt_iff_toNat_lt, hc]
  by_cases hb : wire.toNat < l.toNat % 2 ^ 16
  · rw [if_pos (by omega), if_pos hb, UInt32.toNat_add, hc]
    have hm : l.toNat / 2 ^ 16 * 2 ^ 16 + wire.toNat + 2 ^ 16 =
        (l.toNat / 2 ^ 16 + 1) * 2 ^ 16 + wire.toNat := by omega
    rw [show (0x10000 : UInt32).toNat = 2 ^ 16 from rfl, hm]
  · rw [if_neg (by omega), if_neg hb, hc]

theorem fullFcnt_mod (last : Option UInt32) (wire : UInt16) :
    (fullFcnt last wire).toNat % 2 ^ 16 = wire.toNat := by
  have hw := wire.toNat_lt
  cases last with
  | none => exact Nat.mod_eq_of_lt (by rw [fullFcnt, UInt16.toNat_toUInt32]; exact hw)
  | some l =>
    rw [toNat_fullFcnt]
    split <;> omega

variable {wire : UInt16} {last : Option UInt32}

theorem classifyFcnt_eq_none : classifyFcnt last wire = none ↔ PastTop last wire := by
  cases last with
  | none => simp [classifyFcnt, PastTop]
  | some l =>
    -- the reconstructed counter falls behind the last one exactly at the top of the range
    have hlt : fullFcnt (some l) wire < l ↔ PastTop (some l) wire := by
      have hl := l.toNat_lt
      have hw := wire.toNat_lt
      have htop : PastTop (some l) wire ↔
          wire.toNat < l.toNat % 2 ^ 16 ∧ l.toNat / 2 ^ 16 = 2 ^ 16 - 1 := by
        simp [PastTop]
      rw [htop, UInt32.lt_iff_toNat_lt, toNat_fullFcnt]
      split <;> omega
    rw [← hlt]
    simp only [classifyFcnt]
    by_cases hs : fullFcnt (some l) wire = l
    · simp [hs]
    rw [if_neg hs]
    by_cases hb : fullFcnt (some l) wire < l
    · simp [hb]
    · rw [if_neg hb]
      split <;> simp [hb]

theorem classifyFcnt_fresh {full : UInt32} (h : classifyFcnt last wire = some (.fresh full)) :
    full.toNat % 2 ^ 16 = wire.toNat ∧
      ∀ l ∈ last, l < full ∧ full.toNat ≤ l.toNat + maxFcntGap := by
  have hf : fullFcnt last wire = full ∧
      ∀ l ∈ last, l < full ∧ full.toNat ≤ l.toNat + maxFcntGap := by
    cases last with
    | none =>
      cases h
      exact ⟨rfl, nofun⟩
    | some l =>
      simp only [classifyFcnt] at h
      split at h
      · cases h
      rename_i hne
      split at h
      · cases h
      rename_i hb
      split_ifs at h with hgap
      · cases h
      cases h
      refine ⟨rfl, ?_⟩
      intro l' hl'
      cases hl'
      have hle : l ≤ fullFcnt (some l) wire := UInt32.not_lt.1 hb
      have hlt : l < fullFcnt (some l) wire := UInt32.lt_of_le_of_ne hle (Ne.symm hne)
      refine ⟨hlt, ?_⟩
      rw [UInt32.toNat_sub_of_le _ _ hle] at hgap
      omega
  obtain ⟨rfl, hl⟩ := hf
  exact ⟨fullFcnt_mod last wire, hl⟩

namespace Session

/-- The frame belongs to the session and its counter is past the top of the range. -/
def AtTop (s : Session) (phy : Bytes) : Prop :=
  ∃ mtype frame, mtypeOf phy = .ok mtype ∧
    (mtype == mtypeUnconfirmedUp || mtype == mtypeConfirmedUp) = true ∧
    parseData phy = .ok frame ∧ frame.devAddr = s.devAddr ∧ PastTop s.fcntUp frame.fCnt

variable {micOk : MicOk} {s : Session} {phy : Bytes} {frame : DataFrame} {full : UInt32}

theorem check_panicked : s.check micOk phy frame = .panicked ↔ PastTop s.fcntUp frame.fCnt := by
  rw [← classifyFcnt_eq_none]
  unfold check
  split
  · rename_i hn
    simp [hn]
  · rename_i hc
    simp [hc]
  · rename_i hc
    simp [hc]
  · rename_i hc
    split <;> simp [hc]

theorem decision_cases (micOk : MicOk) (s : Session) (phy : Bytes) :
    (∃ why, s.decision micOk phy = .refused why ∧ ¬ s.AtTop phy) ∨
      ∃ frame, parseData phy = .ok frame ∧ s.decision micOk phy = s.check micOk phy frame ∧
        (s.AtTop phy ↔ PastTop s.fcntUp frame.fCnt) := by
  unfold decision
  cases hm : mtypeOf phy with
  | error e => exact .inl ⟨e, rfl, by simp [AtTop, hm]⟩
  | ok mtype =>
    cases hk : mtype == mtypeUnconfirmedUp || mtype == mtypeConfirmedUp with
    | false =>
      refine .inl ⟨mtypeName mtype ++ " frames are not handled", by simp [hk], ?_⟩
      rintro ⟨mtype', frame, hok, hup, -⟩
      cases hm.symm.trans hok
      cases hk.symm.trans hup
    | true =>
      cases hp : parseData phy with
      | error e => exact .inl ⟨e, by simp [hk], by simp [AtTop, hp]⟩
      | ok frame =>
        by_cases ha : frame.devAddr = s.devAddr
        · refine .inr ⟨frame, rfl, by simp [hk, ha], ?_, fun htop => ?_⟩
          · rintro ⟨mtype', frame', -, -, hok, -, htop⟩
            cases hp.symm.trans hok
            exact htop
          · exact ⟨mtype, frame, hm, hk, hp, ha, htop⟩
        · exact .inl ⟨"fail_closed_unknown_dev_addr", by simp [hk, ha], by simp [AtTop, hp, ha]⟩

theorem decision_panicked : s.decision micOk phy = .panicked ↔ s.AtTop phy := by
  rcases decision_cases micOk s phy with ⟨why, hr, hno⟩ | ⟨frame, -, hc, htop⟩
  · rw [hr]
    exact iff_of_false nofun hno
  · rw [hc, htop, check_panicked]

/-- What the record of a session says about its counter. -/
structure Counted (micOk : MicOk) (s : Session) : Prop where
  last : s.fcntUp = (s.accepted.map (·.2)).getLast?
  increasing : (s.accepted.map (·.2)).Pairwise (· < ·)
  near : (s.accepted.map (·.2)).IsChain fun c c' => c'.toNat ≤ c.toNat + maxFcntGap
  onAir : ∀ a ∈ s.accepted, ∃ frame, parseData a.1 = .ok frame ∧
    a.2.toNat % 2 ^ 16 = frame.fCnt.toNat
  signed : ∀ a ∈ s.accepted, micOk a.1 a.2 = true

theorem Counted.new (micOk : MicOk) (devAddr : UInt32) : Counted micOk (.new devAddr) where
  last := rfl
  increasing := .nil
  near := .nil
  onAir := nofun
  signed := nofun

theorem Counted.le_last (h : Counted micOk s) {c : UInt32} (hc : c ∈ s.accepted.map (·.2)) :
    ∃ l ∈ s.fcntUp, c ≤ l := by
  have hi := h.increasing
  rw [h.last]
  rcases eq_nil_or_concat' (s.accepted.map (·.2)) with hnil | ⟨front, l, hf⟩
  · rw [hnil] at hc
    cases hc
  rw [hf] at hc hi ⊢
  refine ⟨l, getLast?_concat, ?_⟩
  rcases mem_append.1 hc with hmem | hmem
  · exact UInt32.le_of_lt ((pairwise_append.1 hi).2.2 c hmem l (mem_singleton_self l))
  · rw [mem_singleton.1 hmem]
    exact UInt32.le_refl l

theorem Counted.accept (h : Counted micOk s) (hp : parseData phy = .ok frame)
    (hcl : classifyFcnt s.fcntUp frame.fCnt = some (.fresh full)) (hmic : micOk phy full = true) :
    Counted micOk { s with fcntUp := some full, accepted := s.accepted ++ [(phy, full)] } := by
  obtain ⟨hmod, hn⟩ := classifyFcnt_fresh hcl
  have hmap : (s.accepted ++ [(phy, full)]).map (·.2) = s.accepted.map (·.2) ++ [full] := map_append
  refine ⟨?_, ?_, ?_, ?_, ?_⟩
  · rw [hmap, getLast?_concat]
  · rw [hmap, pairwise_append]
    refine ⟨h.increasing, pairwise_singleton _ _, fun c hc => forall_mem_singleton.2 ?_⟩
    obtain ⟨l, hl, hle⟩ := h.le_last hc
    exact UInt32.lt_of_le_of_lt hle (hn l hl).1
  · rw [hmap, isChain_append]
    refine ⟨h.near, .singleton _, ?_⟩
    intro c hc c' hc'
    rw [← h.last] at hc
    cases hc'
    exact (hn c hc).2
  · exact forall_mem_append.2 ⟨h.onAir, forall_mem_singleton.2 ⟨frame, hp, hmod⟩⟩
  · exact forall_mem_append.2 ⟨h.signed, forall_mem_singleton.2 hmic⟩

theorem Counted.uplink (h : Counted micOk s) (phy : Bytes) :
    Counted micOk (s.uplink micOk phy) := by
  unfold Session.uplink
  split
  · rename_i full hd
    rcases decision_cases micOk s phy with ⟨why, hr, -⟩ | ⟨frame, hp, hc, -⟩
    · rw [hr] at hd
      cases hd
    rw [hc] at hd
    unfold check at hd
    split at hd
    · cases hd
    · cases hd
    · cases hd
    · rename_i full' hfr
      split at hd
      · rename_i hmic
        cases hd
        exact h.accept hp hfr hmic
      · cases hd
  · exact h

end Session

/-- In every run of a session, the counters of the frames it accepts increase strictly, agree with
the counters on air and move by `maxFcntGap` at most. No payload is accepted twice if its MIC
verifies at one counter only. A frame makes the handler panic exactly at the top of the range. -/
theorem uplink_counters (micOk : MicOk) (devAddr : UInt32) (frames : List Bytes) :
    let s := run (Session.uplink micOk) (.new devAddr) frames
    (s.accepted.map (·.2)).Pairwise (· < ·) ∧
    ((s.accepted.map (·.2)).IsChain fun c c' => c'.toNat ≤ c.toNat + maxFcntGap) ∧
    (∀ a ∈ s.accepted, ∃ frame, parseData a.1 = .ok frame ∧ a.2.toNat % 2 ^ 16 = frame.fCnt.toNat) ∧
    ((∀ phy c c', micOk phy c = true → micOk phy c' = true → c = c') →
      (s.accepted.map (·.1)).Nodup) ∧
    ∀ phy, s.decision micOk phy ≠ .panicked ↔ ¬ s.AtTop phy := by
  have hc : Session.Counted micOk (run (Session.uplink micOk) (.new devAddr) frames) :=
    run_invariant (Session.Counted.new micOk devAddr) (fun _ phy h => h.uplink phy) frames
  refine ⟨hc.increasing, hc.near, hc.onAir, fun ho => ?_, ?_⟩
  · have hp := pairwise_map.1 hc.increasing
    refine pairwise_map.2 (hp.imp_of_mem ?_)
    intro a b ha hb hlt heq
    have hs := ho a.1 a.2 b.2 (hc.signed a ha) (heq ▸ hc.signed b hb)
    rw [hs] at hlt
    exact UInt32.lt_irrefl _ hlt
  · intro phy
    exact not_congr Session.decision_panicked

def emptyFrame (high : UInt8) : Bytes := [0x40, 0, 0, 0, 0, 0, 0, high, 0, 0, 0, 0]

/-- The first `n` frames of a device that moves its counter by `maxFcntGap` each time. -/
def climb (n : ℕ) : List Bytes :=
  (List.range n).map fun i => emptyFrame (UInt8.ofNat (64 * (i + 1)))

def anyMic : MicOk := fun _ _ => true

def emptyData (high : UInt8) : DataFrame :=
  { mtype := 2
    devAddr := 0
    adr := false
    adrAckReq := false
    ack := false
    fPending := false
    fCnt := high.toUInt16 <<< 8
    fOpts := []
    fPort := none
    frmPayload := []
    mic := [0, 0, 0, 0] }

theorem toNat_fCnt_emptyData (high : UInt8) : (emptyData high).fCnt.toNat = 256 * high.toNat := by
  have hh := high.toNat_lt
  change (high.toUInt16 <<< 8).toNat = _
  rw [UInt16.toNat_shiftLeft, UInt8.toNat_toUInt16, show (8 : UInt16).toNat % 16 = 8 from rfl,
    Nat.shiftLeft_eq]
  omega

theorem decision_emptyFrame {s : Session} (hs : s.devAddr = 0) (high : UInt8) :
    s.decision anyMic (emptyFrame high) = s.check anyMic (emptyFrame high) (emptyData high) := by
  have hm : mtypeOf (emptyFrame high) = .ok 2 := rfl
  have hp : parseData (emptyFrame high) = .ok (emptyData high) := by
    rw [parseData, hm]
    simp [emptyFrame, mtypeUnconfirmedUp, ensure, byteAt, minDataLen,
      maxPhyPayload, emptyData, bind, Except.bind, pure, Except.pure]
  have ha : (emptyData high).devAddr = s.devAddr := hs.symm
  simp only [Session.decision, hm, hp, ha]
  rfl

theorem classifyFcnt_next {l : UInt32} (h : l.toNat + 16384 < 2 ^ 32)
    (hw : wire.toNat = (l.toNat + 16384) % 2 ^ 16) :
    classifyFcnt (some l) wire = some (.fresh (l + 16384)) := by
  have hn : (l + 16384).toNat = l.toNat + 16384 := by
    rw [UInt32.toNat_add]
    exact Nat.mod_eq_of_lt h
  have hf : fullFcnt (some l) wire = l + 16384 := by
    rw [← UInt32.toNat_inj, toNat_fullFcnt, hn]
    split <;> omega
  have hle : l ≤ l + 16384 := by
    rw [UInt32.le_iff_toNat_le]
    omega
  have hne : l + 16384 ≠ l := by
    rw [← UInt32.toNat_inj.ne]
    omega
  have hgap : ¬ maxFcntGap < (l + 16384 - l).toNat := by
    rw [UInt32.toNat_sub_of_le _ _ hle, hn, maxFcntGap]
    omega
  simp only [classifyFcnt, hf]
  rw [if_neg hne, if_neg (UInt32.not_lt.2 hle), if_neg hgap]

theorem climb_succ (n : ℕ) :
    climb (n + 1) = climb n ++ [emptyFrame (UInt8.ofNat (64 * (n + 1)))] := by
  simp [climb, range_succ]

theorem devAddr_climb (n : ℕ) : (run (Session.uplink anyMic) (.new 0) (climb n)).devAddr = 0 := by
  induction n with
  | zero => rfl
  | succ n ih =>
    rw [climb_succ, run_concat, Session.uplink]
    split <;> exact ih

theorem fcntUp_climb (n : ℕ) : n < 2 ^ 18 - 1 →
    (run (Session.uplink anyMic) (.new 0) (climb (n + 1))).fcntUp =
      some (UInt32.ofNat (16384 * (n + 1))) := by
  induction n with
  | zero => decide
  | succ n ih =>
    intro h
    have hl := ih (by omega)
    rw [climb_succ (n + 1), run_concat]
    generalize hs : run (Session.uplink anyMic) (.new 0) (climb (n + 1)) = s at hl ⊢
    have ha : s.devAddr = 0 := hs ▸ devAddr_climb (n + 1)
    have htn : (UInt32.ofNat (16384 * (n + 1))).toNat = 16384 * (n + 1) :=
      UInt32.toNat_ofNat_of_lt' (by simp only [UInt32.size]; omega)
    have hw : (emptyData (UInt8.ofNat (64 * (n + 1 + 1)))).fCnt.toNat =
        ((UInt32.ofNat (16384 * (n + 1))).toNat + 16384) % 2 ^ 16 := by
      rw [toNat_fCnt_emptyData, htn, UInt8.toNat_ofNat']
      omega
    have hc := classifyFcnt_next (by omega) hw
    have hd := decision_emptyFrame ha (UInt8.ofNat (64 * (n + 1 + 1)))
    simp only [Session.check, hl, hc, anyMic, if_true] at hd
    simp only [Session.uplink, hd, Option.some_inj]
    have hn : (UInt32.ofNat (16384 * (n + 1 + 1))).toNat = 16384 * (n + 1 + 1) :=
      UInt32.toNat_ofNat_of_lt' (by simp only [UInt32.size]; omega)
    rw [← UInt32.toNat_inj, UInt32.toNat_add, htn, hn]
    change (16384 * (n + 1) + 16384) % 2 ^ 32 = _
    omega

/-- The counter comes to the top after 2¹⁸ - 1 frames, and the next one makes the handler panic. A
MIC that verifies at every counter lets a payload through again after a wrap. -/
theorem uplink_panics :
    (run (Session.uplink anyMic) (.new 0) (climb (2 ^ 18 - 1))).decision anyMic (emptyFrame 0) =
      .panicked ∧
    ¬ ((run (Session.uplink anyMic) (.new 0) (climb 5)).accepted.map (·.1)).Nodup := by
  refine ⟨?_, by decide +kernel⟩
  have hl := fcntUp_climb (2 ^ 18 - 2) (by decide)
  have ha := devAddr_climb (2 ^ 18 - 2 + 1)
  rw [show 2 ^ 18 - 1 = 2 ^ 18 - 2 + 1 by decide, decision_emptyFrame ha, Session.check_panicked,
    hl]
  refine ⟨_, rfl, ?_, by decide⟩
  rw [toNat_fCnt_emptyData]
  decide

end NetGet.Lorawan
