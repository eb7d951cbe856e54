import NetGet.Model.Bfd
import Mathlib.Data.List.Chain

/-! # Timer negotiation of a BFD session -/

namespace NetGet.Bfd

open Library

theorem Timers.slow_le_advertisedIn {configured : Timers} {state : State} (h : state ≠ .up) :
    slowTxUs ≤ (configured.advertisedIn state).desiredMinTxUs := by
  simp only [Timers.advertisedIn, h, if_false]
  exact le_max_right _ _

namespace Session

/-- The values in force are never ahead of the advertised ones, and they are the advertised ones
outside a Poll Sequence. -/
structure InForce (s : Session) : Prop where
  tx_le : s.txInForceUs ≤ s.advertised.desiredMinTxUs
  rx_ge : s.advertised.requiredMinRxUs ≤ s.rxInForceUs
  settled : s.poll = false → s.txInForceUs = s.advertised.desiredMinTxUs ∧
    s.rxInForceUs = s.advertised.requiredMinRxUs

/-- Besides, the session advertises what its state and its configuration ask for. -/
structure Negotiated (s : Session) : Prop extends InForce s where
  advertised_eq : s.advertised = s.configured.advertisedIn s.state

theorem InForce.congr {s t : Session} (h : s.InForce) (hadv : t.advertised = s.advertised)
    (htx : t.txInForceUs = s.txInForceUs) (hrx : t.rxInForceUs = s.rxInForceUs)
    (hp : t.poll = s.poll) : t.InForce := by
  refine ⟨?_, ?_, ?_⟩
  · rw [htx, hadv]
    exact h.tx_le
  · rw [hrx, hadv]
    exact h.rx_ge
  · rw [htx, hrx, hadv, hp]
    exact h.settled

variable {s : Session} {p : ControlPacket} {hashes : Hashes} {bytes : Bytes} {now : ℕ}
  {out : Received}

/-- A session whose state or configuration has just changed is negotiated once it has
advertised. -/
theorem advertise_negotiated (h : s.InForce) : s.advertise.Negotiated := by
  have htx := h.tx_le
  have hrx := h.rx_ge
  simp only [advertise]
  split
  · rename_i heq
    exact ⟨h, heq.symm⟩
  split
  · refine ⟨⟨?_, ?_, ?_⟩, rfl⟩
    · simp only
      split <;> omega
    · simp only
      split <;> omega
    · intro hp
      cases hp
  · exact ⟨⟨le_rfl, le_rfl, fun _ => ⟨rfl, rfl⟩⟩, rfl⟩

theorem advertise_frame (s : Session) :
    s.advertise.state = s.state ∧ s.advertise.configured = s.configured ∧
      s.advertise.auth = s.auth ∧ s.advertise.rcvSeq = s.rcvSeq := by
  simp only [advertise]
  split
  · exact ⟨rfl, rfl, rfl, rfl⟩
  · split <;> exact ⟨rfl, rfl, rfl, rfl⟩

theorem setState_negotiated (h : s.Negotiated) (next : State) (diag : UInt8) :
    (s.setState next diag).1.Negotiated := by
  unfold setState
  split
  · exact h
  · exact advertise_negotiated (h.toInForce.congr rfl rfl rfl rfl)

theorem setState_frame (s : Session) (next : State) (diag : UInt8) :
    (s.setState next diag).1.configured = s.configured ∧
      (s.setState next diag).1.auth = s.auth ∧ (s.setState next diag).1.rcvSeq = s.rcvSeq := by
  unfold setState
  split
  · exact ⟨rfl, rfl, rfl⟩
  · exact (advertise_frame _).2

theorem adminUp_negotiated (h : s.Negotiated) : s.adminUp.1.Negotiated := by
  unfold adminUp
  split
  · exact h
  · exact setState_negotiated h _ _

theorem adminUp_frame (s : Session) :
    s.adminUp.1.auth = s.auth ∧ s.adminUp.1.rcvSeq = s.rcvSeq := by
  unfold adminUp
  split
  · exact ⟨rfl, rfl⟩
  · exact (s.setState_frame .down 0).2

theorem respond_cases (s : Session) (remote : State) :
    (s.respond remote).1 = s ∨ ∃ next diag, (s.respond remote).1 = (s.setState next diag).1 := by
  unfold respond
  split
  all_goals first
    | exact .inl rfl
    | exact .inr ⟨_, _, rfl⟩

theorem absorb_negotiated (h : s.Negotiated) (p : ControlPacket) (now : ℕ) :
    (s.absorb p now).Negotiated := by
  simp only [absorb]
  split
  · exact ⟨⟨le_rfl, le_rfl, fun _ => ⟨rfl, rfl⟩⟩, h.advertised_eq⟩
  · exact ⟨h.toInForce.congr rfl rfl rfl rfl, h.advertised_eq⟩

theorem absorb_frame (s : Session) (p : ControlPacket) (now : ℕ) :
    (s.absorb p now).state = s.state ∧ (s.absorb p now).configured = s.configured ∧
      (s.absorb p now).auth = s.auth ∧
      (s.absorb p now).rcvSeq = (s.sequenceOf p).orElse fun _ => s.rcvSeq := by
  simp only [absorb]
  split <;> exact ⟨rfl, rfl, rfl, rfl⟩

/-- A refused packet leaves the session as it was; an admitted one is absorbed, and then the
state machine may move. -/
theorem receive_cases (s : Session) (hashes : Hashes) (bytes : Bytes) (p : ControlPacket)
    (now : ℕ) : (∃ e, s.vet hashes bytes p = .error e ∧
      s.receive hashes bytes p now = (s, .error e)) ∨ (s.vet hashes bytes p = .ok () ∧ ∃ out,
      s.receive hashes bytes p now =
        (if s.state = .adminDown then s.absorb p now else ((s.absorb p now).respond p.state).1,
          .ok out)) := by
  cases hvet : s.vet hashes bytes p with
  | error e =>
    refine .inl ⟨e, rfl, ?_⟩
    simp only [receive, hvet]
  | ok u =>
    refine .inr ⟨rfl, ?_⟩
    simp only [receive, hvet, (absorb_frame s p now).1]
    split <;> exact ⟨_, rfl⟩

theorem receive_error {e : String} (h : (s.receive hashes bytes p now).2 = .error e) :
    (s.receive hashes bytes p now).1 = s := by
  obtain ⟨e', -, heq⟩ | ⟨-, out, heq⟩ := s.receive_cases hashes bytes p now
  · rw [heq]
  · rw [heq] at h
    cases h

theorem respond_negotiated (h : s.Negotiated) (remote : State) :
    (s.respond remote).1.Negotiated := by
  obtain heq | ⟨next, diag, heq⟩ := s.respond_cases remote
  · rw [heq]
    exact h
  · rw [heq]
    exact setState_negotiated h next diag

theorem respond_frame (s : Session) (remote : State) :
    (s.respond remote).1.configured = s.configured ∧
      (s.respond remote).1.auth = s.auth ∧ (s.respond remote).1.rcvSeq = s.rcvSeq := by
  obtain heq | ⟨next, diag, heq⟩ := s.respond_cases remote
  · rw [heq]
    exact ⟨rfl, rfl, rfl⟩
  · rw [heq]
    exact s.setState_frame next diag

theorem packet_negotiated (h : s.Negotiated) (hashes : Hashes) (final : Bool) :
    (s.packet hashes final).1.Negotiated := by
  unfold packet
  split
  · exact h
  simp only
  split
  · exact ⟨h.toInForce.congr rfl rfl rfl rfl, h.advertised_eq⟩
  · exact h

theorem packet_frame (s : Session) (hashes : Hashes) (final : Bool) :
    (s.packet hashes final).1.state = s.state ∧
      (s.packet hashes final).1.txInForceUs = s.txInForceUs ∧
      (s.packet hashes final).1.auth = s.auth ∧ (s.packet hashes final).1.rcvSeq = s.rcvSeq := by
  unfold packet
  split
  · exact ⟨rfl, rfl, rfl, rfl⟩
  · simp only
    split <;> exact ⟨rfl, rfl, rfl, rfl⟩

end Session

def hasPoll (bytes : Bytes) : Bool := byteAt bytes 1 &&& 0x20 != 0

def hasFinal (bytes : Bytes) : Bool := byteAt bytes 1 &&& 0x10 != 0

theorem byteAt_withLength (out : Bytes) : byteAt (withLength out) 1 = byteAt out 1 := by
  simp [byteAt, withLength, List.getD_eq_getElem?_getD]

theorem byteAt_encode (hashes : Hashes) (p : ControlPacket) (auth : Option (AuthConfig × UInt32)) :
    byteAt (p.encode hashes auth) 1 = p.flags auth.isSome := by
  unfold ControlPacket.encode
  cases auth with
  | none =>
    simp only [byteAt_withLength]
    rfl
  | some pair =>
    simp only
    split
    · simp only [byteAt_withLength]
      rfl
    · simp only [byteAt_withLength]
      rfl

theorem Session.packet_flags (s : Session) (hashes : Hashes) (final : Bool) :
    ¬(hasPoll (s.packet hashes final).2 ∧ hasFinal (s.packet hashes final).2) := by
  have hflags : ∀ (p : ControlPacket) authenticated,
      (p.flags authenticated &&& 0x20 != 0) = p.poll ∧
        (p.flags authenticated &&& 0x10 != 0) = p.final := by
    rintro ⟨diag, state, poll, final, cpi, demand⟩ authenticated
    simp only [ControlPacket.flags]
    cases state <;> cases poll <;> cases final <;> cases cpi <;> cases demand <;>
      cases authenticated <;> decide
  unfold packet
  split <;> simp [hasPoll, hasFinal, byteAt_encode, hflags]

end NetGet.Bfd
