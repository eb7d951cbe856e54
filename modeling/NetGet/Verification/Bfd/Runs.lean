import NetGet.Verification.Bfd.Timers

/-! # Whole runs of a BFD session -/

namespace NetGet.Bfd

open Library Machine Session

/-- The sequence number `b` may follow `a` under a meticulous authentication type. -/
def Follows (a b : UInt32 × UInt8) : Prop :=
  1 ≤ (b.1 - a.1).toNat ∧ (b.1 - a.1).toNat ≤ 3 * b.2.toNat

namespace World

/-- What holds of a session and its records after every run. -/
structure Inv (auth : Option AuthConfig) (w : World) : Prop where
  auth_eq : w.session.auth = auth
  negotiated : w.session.Negotiated
  last : w.accepted.getLast?.map Prod.fst = w.session.rcvSeq
  follows : ∀ config, auth = some config → config.kind.meticulous = true →
    w.accepted.IsChain Follows
  flags : ∀ bytes ∈ w.sent, ¬(hasPoll bytes ∧ hasFinal bytes)

variable {auth : Option AuthConfig} {w : World}

theorem new_inv (d : UInt32) (t : Timers) (auth : Option AuthConfig)
    (random : UInt32) : (new d t auth random).Inv auth where
  auth_eq := rfl
  negotiated := by
    refine ⟨⟨le_rfl, le_rfl, fun _ => ⟨rfl, rfl⟩⟩, ?_⟩
    simp [new, Session.new, Timers.advertisedIn]
  last := rfl
  follows _ _ _ := .nil
  flags _ h := absurd h List.not_mem_nil

theorem Inv.withSession (h : w.Inv auth) {s : Session} (hs : s.Negotiated)
    (ha : s.auth = w.session.auth) (hseq : s.rcvSeq = w.session.rcvSeq) :
    Inv auth { w with session := s } where
  auth_eq := ha.trans h.auth_eq
  negotiated := hs
  last := h.last.trans hseq.symm
  follows := h.follows
  flags := h.flags

theorem Inv.receive (h : w.Inv auth) (hashes : Hashes) (bytes : Bytes) (now : ℕ) :
    (w.receive hashes bytes now).Inv auth := by
  unfold World.receive
  cases hd : decode bytes with
  | error e => exact h
  | ok p =>
    simp only
    split
    · rename_i s e heq
      have hs := receive_error (congrArg Prod.snd heq)
      rw [heq] at hs
      subst hs
      exact h
    rename_i s out heq
    obtain ⟨e, -, hr⟩ | ⟨hvet, out', hr⟩ := w.session.receive_cases hashes bytes p now <;>
      cases heq.symm.trans hr
    obtain ⟨-, -, hauth, hseq'⟩ := w.session.absorb_frame p now
    have hrcv : (if w.session.state = .adminDown then w.session.absorb p now else
        ((w.session.absorb p now).respond p.state).1).rcvSeq =
          (w.session.sequenceOf p).orElse fun _ => w.session.rcvSeq := by
      split
      · exact hseq'
      · rw [(respond_frame _ _).2.2, hseq']
    refine ⟨?_, ?_, ?_, ?_, h.flags⟩
    · simp only
      split
      · exact hauth.trans h.auth_eq
      · rw [(respond_frame _ _).2.1, hauth, h.auth_eq]
    · simp only
      split
      · exact absorb_negotiated h.negotiated p now
      · exact respond_negotiated (absorb_negotiated h.negotiated p now) p.state
    · cases hseq : w.session.sequenceOf p with
      | none =>
        rw [hseq] at hrcv
        simpa [hrcv] using h.last
      | some seq =>
        rw [hseq] at hrcv
        simp [hrcv]
    · intro config ha hk
      cases hseq : w.session.sequenceOf p with
      | none => simpa using h.follows config ha hk
      | some seq =>
        refine List.isChain_append.2 ⟨h.follows config ha hk, .singleton _, ?_⟩
        intro a hlast b hb
        obtain rfl : (seq, p.detectMult) = b := by simpa using hb
        have hl : w.session.rcvSeq = some a.1 := by
          rw [← h.last, Option.mem_def.1 hlast]
          rfl
        have hin : inWindow config.kind a.1 seq p.detectMult = true := by
          unfold vet at hvet
          cases hv : verify hashes bytes p w.session.auth with
          | error e =>
            rw [hv] at hvet
            cases hvet
          | ok u =>
            rw [hv] at hvet
            simp only [h.auth_eq.trans ha, hseq, hl, Bind.bind, Except.bind, ensure] at hvet
            split at hvet
            · assumption
            · cases hvet
        simpa [inWindow, hk, Follows] using hin

theorem Inv.packet (h : w.Inv auth) (hashes : Hashes) (final : Bool) :
    (w.step hashes (.packet final)).Inv auth := by
  obtain ⟨-, -, ha, hseq⟩ := w.session.packet_frame hashes final
  have hs := h.withSession (packet_negotiated h.negotiated hashes final) ha hseq
  refine ⟨hs.auth_eq, hs.negotiated, hs.last, hs.follows, ?_⟩
  intro bytes hb
  simp only [step, List.mem_append, List.mem_singleton] at hb
  obtain hb | rfl := hb
  · exact h.flags bytes hb
  · exact packet_flags w.session hashes final

theorem step_inv (hashes : Hashes) (w : World) (l : Label) (h : w.Inv auth) :
    (w.step hashes l).Inv auth := by
  cases l with
  | receive bytes now => exact h.receive hashes bytes now
  | setTimers timers =>
    have hf := advertise_frame { w.session with configured := timers }
    have hneg : (w.session.setTimers timers).Negotiated :=
      advertise_negotiated (h.negotiated.toInForce.congr rfl rfl rfl rfl)
    exact h.withSession hneg hf.2.2.1 hf.2.2.2
  | adminDown diag =>
    have hf := w.session.setState_frame .adminDown diag
    exact h.withSession (setState_negotiated h.negotiated _ _) hf.2.1 hf.2.2
  | adminUp =>
    have hf := w.session.adminUp_frame
    exact h.withSession (adminUp_negotiated h.negotiated) hf.1 hf.2
  | detectionExpired =>
    have hneg : Session.Negotiated { w.session with remoteDiscr := 0, rcvSeq := none } :=
      ⟨h.negotiated.toInForce.congr rfl rfl rfl rfl, h.negotiated.advertised_eq⟩
    have hf := setState_frame { w.session with remoteDiscr := 0, rcvSeq := none } .down 1
    exact ⟨hf.2.1.trans h.auth_eq, setState_negotiated hneg _ _,
      hf.2.2.symm, fun _ _ _ => .nil, h.flags⟩
  | packet final => exact h.packet hashes final

end World

/-- Over every run of a new session: the values in force never get ahead of the advertised ones
and equal them outside a Poll Sequence, a session that is not Up advertises at least a second, a
refused packet changes nothing, no packet carries both Poll and Final, and under a meticulous
authentication type every accepted sequence number is in the window after the one before. -/
theorem session_negotiation (hashes : Hashes) (localDiscr : UInt32) (configured : Timers)
    (auth : Option AuthConfig) (random : UInt32) (ls : List Label) :
    let w := run (World.step hashes) (World.new localDiscr configured auth random) ls
    let s := w.session
    (s.txInForceUs ≤ s.advertised.desiredMinTxUs ∧ s.advertised.requiredMinRxUs ≤ s.rxInForceUs) ∧
    (s.poll = false → s.txInForceUs = s.advertised.desiredMinTxUs ∧
      s.rxInForceUs = s.advertised.requiredMinRxUs) ∧
    (s.state ≠ .up → slowTxUs ≤ s.advertised.desiredMinTxUs) ∧
    (∀ bytes p now e, decode bytes = .ok p → (s.receive hashes bytes p now).2 = .error e →
      (s.receive hashes bytes p now).1 = s) ∧
    (∀ bytes ∈ w.sent, ¬(hasPoll bytes ∧ hasFinal bytes)) ∧
    (∀ config, auth = some config → config.kind.meticulous = true →
      w.accepted.IsChain Follows) := by
  intro w s
  have h : w.Inv auth := run_invariant (World.new_inv _ _ _ _) (World.step_inv hashes) ls
  refine ⟨⟨h.negotiated.tx_le, h.negotiated.rx_ge⟩, h.negotiated.settled, ?_, ?_, h.flags,
    h.follows⟩
  · intro hup
    rw [h.negotiated.advertised_eq]
    exact Timers.slow_le_advertisedIn hup
  · intro bytes p now e _ herr
    exact Session.receive_error herr

/-- The transmit interval in force is below a second although a second or more is configured:
the increase waits for the Final of a Poll Sequence. -/
def Session.Deferring (s : Session) : Prop :=
  slowTxUs ≤ s.configured.desiredMinTxUs ∧ s.txInForceUs < slowTxUs

instance (s : Session) : Decidable s.Deferring :=
  inferInstanceAs (Decidable (_ ∧ _))

/-- The label can take a session out of Up without ending its Poll Sequence. -/
def Label.LeavesUp (hashes : Hashes) (s : Session) : Label → Bool
  | .receive bytes _ =>
    match decode bytes with
    | .error _ => false
    | .ok p =>
      (s.vet hashes bytes p).isOk && (p.state == .down || p.state == .adminDown) && !p.final
  | .adminDown _ => true
  | .detectionExpired => true
  | _ => false

/-- No label that takes the session out of Up while an increase of its transmit interval to a
second or more is deferred. -/
def World.Settled (hashes : Hashes) (w : World) (l : Label) : Prop :=
  w.session.state = .up → l.LeavesUp hashes w.session = true → ¬w.session.Deferring

instance (hashes : Hashes) (w : World) (l : Label) : Decidable (w.Settled hashes l) :=
  inferInstanceAs (Decidable (_ → _))

namespace Session

/-- The transmit interval in force is at least a second unless the session is Up. -/
def Slow (s : Session) : Prop := s.state ≠ .up → slowTxUs ≤ s.txInForceUs

theorem Slow.congr {s t : Session} (h : s.Slow) (hs : t.state = s.state)
    (htx : t.txInForceUs = s.txInForceUs) : t.Slow := by
  intro hup
  rw [htx]
  exact h (hs ▸ hup)

variable {s : Session} {remote : State} {p : ControlPacket}

theorem advertise_slow (h : s.advertised = s.configured.advertisedIn s.state → s.Slow) :
    s.advertise.Slow := by
  intro hup
  rw [s.advertise_frame.1] at hup
  simp only [advertise]
  split
  · rename_i heq
    exact h heq.symm hup
  · exact Timers.slow_le_advertisedIn hup

theorem setState_slow (hneg : s.Negotiated) (h : s.Slow) {next : State}
    (hl : s.state = .up → ¬s.Deferring) (diag : UInt8) : (s.setState next diag).1.Slow := by
  unfold setState
  split
  · exact h
  refine advertise_slow fun heq hup => ?_
  by_cases hs : s.state = .up
  · have hadv := hneg.advertised_eq
    rw [hs] at hadv
    have hc : slowTxUs ≤ (s.configured.advertisedIn _).desiredMinTxUs :=
      Timers.slow_le_advertisedIn hup
    rw [← hadv.symm.trans heq] at hc
    by_contra htx
    exact hl hs ⟨hc, not_le.1 htx⟩
  · exact h hs

theorem respond_of_up (hs : s.state = .up) (hd : remote ≠ .down)
    (ha : remote ≠ .adminDown) : (s.respond remote).1 = s := by
  cases remote with
  | adminDown => exact absurd rfl ha
  | down => exact absurd rfl hd
  | init | up => simp only [respond, hs]

theorem absorb_slow (hneg : s.Negotiated) (h : s.Slow) (p : ControlPacket) (now : ℕ) :
    (s.absorb p now).Slow := by
  simp only [absorb]
  split
  · intro hup
    simp only [hneg.advertised_eq]
    exact Timers.slow_le_advertisedIn hup
  · exact h

theorem absorb_not_deferring (hneg : s.Negotiated) (hs : s.state = .up)
    (h : p.final = false → ¬s.Deferring) (now : ℕ) : ¬(s.absorb p now).Deferring := by
  have hadv : s.advertised.desiredMinTxUs = s.configured.desiredMinTxUs := by
    rw [hneg.advertised_eq, hs]
    rfl
  simp only [absorb, Deferring]
  split
  · simp only [hadv]
    omega
  rename_i hend
  cases hf : p.final with
  | false => exact h hf
  | true =>
    have hp : s.poll = false := by simpa [hf] using hend
    have htx := (hneg.settled hp).1
    simp only [htx, hadv]
    omega

theorem receive_slow (hneg : s.Negotiated) (h : s.Slow) {hashes : Hashes} {bytes : Bytes} {now : ℕ}
    (hl : s.state = .up → s.vet hashes bytes p = .ok () →
      p.state = .down ∨ p.state = .adminDown → p.final = false → ¬s.Deferring) :
    (s.receive hashes bytes p now).1.Slow := by
  obtain ⟨e, -, heq⟩ | ⟨hvet, out, heq⟩ := s.receive_cases hashes bytes p now
  · rw [heq]
    exact h
  rw [heq]
  simp only
  split
  · exact absorb_slow hneg h p now
  have hsl := absorb_slow hneg h p now
  by_cases hr : (s.absorb p now).state = .up ∧ ¬(p.state = .down ∨ p.state = .adminDown)
  · obtain ⟨hd, ha⟩ := not_or.1 hr.2
    rw [respond_of_up hr.1 hd ha]
    exact hsl
  have hnot : (s.absorb p now).state = .up → ¬(s.absorb p now).Deferring := by
    intro hup
    have hs := (s.absorb_frame p now).1 ▸ hup
    exact absorb_not_deferring hneg hs (hl hs hvet (not_not.1 fun hno => hr ⟨hup, hno⟩)) now
  obtain heq | ⟨next, diag, heq⟩ := (s.absorb p now).respond_cases p.state
  · rw [heq]
    exact hsl
  · rw [heq]
    exact setState_slow (absorb_negotiated hneg p now) hsl hnot diag

theorem adminUp_slow (hneg : s.Negotiated) (h : s.Slow) : s.adminUp.1.Slow := by
  unfold adminUp
  split
  · exact h
  rename_i hs
  refine setState_slow hneg h ?_ 0
  intro hup
  simp [hup] at hs

end Session

/-- A step keeps a session slow outside Up if it does not leave Up during a deferred increase. -/
theorem World.step_slow {hashes : Hashes} {auth : Option AuthConfig} {w : World} {l : Label}
    (hinv : w.Inv auth) (h : w.session.Slow) (hok : w.Settled hashes l) :
    (w.step hashes l).session.Slow := by
  have hneg := hinv.negotiated
  cases l with
  | receive bytes now =>
    simp only [step, World.receive]
    cases hd : decode bytes with
    | error e => exact h
    | ok p =>
      have hs : (w.session.receive hashes bytes p now).1.Slow := by
        refine receive_slow hneg h fun hst hvet hr hf => ?_
        refine hok hst ?_
        simp [Label.LeavesUp, hd, hvet, hr, hf, Except.isOk, Except.toBool]
      simp only
      split
      · rename_i s e heq
        rw [heq] at hs
        exact hs
      · rename_i s out heq
        rw [heq] at hs
        exact hs
  | setTimers timers => exact advertise_slow fun _ => h
  | adminDown diag =>
    exact setState_slow hneg h (fun hst => hok hst rfl) diag
  | adminUp => exact adminUp_slow hneg h
  | detectionExpired =>
    have hneg : Session.Negotiated { w.session with remoteDiscr := 0, rcvSeq := none } :=
      ⟨hneg.toInForce.congr rfl rfl rfl rfl, hneg.advertised_eq⟩
    exact setState_slow hneg h (fun hst => hok hst rfl) 1
  | packet final =>
    obtain ⟨hst, htx, -, -⟩ := w.session.packet_frame hashes final
    exact h.congr hst htx

/-- A control packet without authentication, from discriminator 7 to discriminator 1, that asks
for intervals of 300 ms. -/
def plainPacket (flags : UInt8) : Bytes :=
  [0x20, flags, 3, 24, 0, 0, 0, 7, 0, 0, 0, 1, 0, 4, 0x93, 0xe0, 0, 4, 0x93, 0xe0, 0, 0, 0, 0]

def Hashes.zero : Hashes where
  md5 _ := List.replicate 16 0
  sha1 _ := List.replicate 20 0
  md5_length _ := List.length_replicate
  sha1_length _ := List.length_replicate

def fastSession : World :=
  .new 1 { desiredMinTxUs := 300000, requiredMinRxUs := 300000, detectMult := 3 } none 0

/-- Its peer says Init, so it is Up, and two seconds are configured. -/
def raising : List Label :=
  [.receive (plainPacket 0x80) 0,
    .setTimers { desiredMinTxUs := 2000000, requiredMinRxUs := 300000, detectMult := 3 }]

/-- Taken down before the Final, the session goes on transmitting every 300 ms. -/
theorem fast_while_down :
    let s := (run (World.step .zero) fastSession (raising ++ [.adminDown 7])).session
    s.state ≠ .up ∧ s.txInForceUs < slowTxUs ∧ s.txIntervalUs < slowTxUs := by
  decide

/-- In every run in which no increase of the transmit interval is deferred when the session
leaves Up, a session that is not Up transmits at most once a second. -/
theorem slow_start (hashes : Hashes) (localDiscr : UInt32) (configured : Timers)
    (auth : Option AuthConfig) (random : UInt32) (ls : List Label)
    (h : Meets (World.step hashes) (World.Settled hashes)
      (World.new localDiscr configured auth random) ls) :
    let s := (run (World.step hashes)
      (World.new localDiscr configured auth random) ls).session
    s.state ≠ .up → slowTxUs ≤ s.txInForceUs ∧ slowTxUs ≤ s.txIntervalUs := by
  intro s hup
  have hk : ∀ (w : World) (l : Label), w.Inv auth ∧ w.session.Slow → w.Settled hashes l →
      (w.step hashes l).Inv auth ∧ (w.step hashes l).session.Slow := by
    intro w l hw hok
    exact ⟨World.step_inv hashes w l hw.1, World.step_slow hw.1 hw.2 hok⟩
  have hrun := run_invariant_of_meets
    ⟨World.new_inv localDiscr configured auth random, fun _ => le_max_right _ _⟩ hk ls h
  have htx : slowTxUs ≤ s.txInForceUs := hrun.2 hup
  exact ⟨htx, htx.trans (le_max_left _ _)⟩

theorem slow_after_final :
    let ls := raising ++ [.receive (plainPacket 0xd0) 0, .adminDown 7]
    let s := (run (World.step .zero) fastSession ls).session
    Meets (World.step .zero) (World.Settled .zero) fastSession ls ∧ s.state ≠ .up ∧
      slowTxUs ≤ s.txInForceUs ∧ slowTxUs ≤ s.txIntervalUs := by
  refine ⟨by decide, by decide, ?_⟩
  exact slow_start .zero _ _ _ _ _ (by decide) (by decide)

end NetGet.Bfd
