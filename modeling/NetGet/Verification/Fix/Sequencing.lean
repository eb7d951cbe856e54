import NetGet.Model.Fix

/-! # Inbound sequence numbers of a FIX session -/

namespace NetGet.Fix

open Library Machine List Option

namespace Session

/-- The parties and the expected number, which sending a message does not touch. -/
structure SameInbound (s s' : Session) : Prop where
  sender : s'.sender = s.sender
  target : s'.target = s.target
  nextIn : s'.nextIn = s.nextIn

theorem SameInbound.refl (s : Session) : SameInbound s s := ⟨rfl, rfl, rfl⟩

theorem SameInbound.trans {s₁ s₂ s₃ : Session} (h₁ : SameInbound s₁ s₂) (h₂ : SameInbound s₂ s₃) :
    SameInbound s₁ s₃ where
  sender := h₂.sender.trans h₁.sender
  target := h₂.target.trans h₁.target
  nextIn := h₂.nextIn.trans h₁.nextIn

variable {s s' : Session} {clock : Clock} {body : List Field} {msgType : String} {bytes : Bytes}
  {out : Step} {m : Message} {seq : ℕ}

theorem encode_sameInbound {out : Except String Bytes}
    (h : s.encode clock msgType body = some (s', out)) : SameInbound s s' := by
  simp only [encode] at h
  split at h
  · cases h
    exact .refl s
  · obtain ⟨next, -, heq⟩ := map_eq_some_iff.1 h
    cases heq
    exact ⟨rfl, rfl, rfl⟩

theorem encodeOrDefault_sameInbound (h : s.encodeOrDefault clock msgType body = some (s', bytes)) :
    SameInbound s s' := by
  obtain ⟨out, hout, heq⟩ := map_eq_some_iff.1 h
  cases heq
  exact encode_sameInbound hout

theorem encodeIfOk_sameInbound {bytes : List Bytes}
    (h : s.encodeIfOk clock msgType body = some (s', bytes)) : SameInbound s s' := by
  obtain ⟨out, hout, heq⟩ := map_eq_some_iff.1 h
  cases heq
  exact encode_sameInbound hout

theorem logout_sameInbound {text : Option String} (h : s.logout clock text = some (s', bytes)) :
    SameInbound s s' := by
  have hs := encodeOrDefault_sameInbound h
  exact ⟨hs.sender, hs.target, hs.nextIn⟩

theorem reject_sameInbound {refSeq reason : ℕ} {refTag : Option ℕ} {text : String}
    (h : s.reject clock refSeq reason refTag text = some (s', bytes)) : SameInbound s s' :=
  encodeOrDefault_sameInbound h

theorem askForResend_sameInbound {request : List Bytes}
    (h : s.askForResend clock = some (s', request)) : SameInbound s s' := by
  simp only [askForResend] at h
  split at h
  · exact encodeIfOk_sameInbound h
  · cases h
    exact .refl s

theorem answerLogout_sameInbound {reason : String}
    (h : s.answerLogout clock reason = some (s', out)) : SameInbound s s' ∧ out.app = none := by
  simp only [answerLogout] at h
  split at h
  · cases h
    exact ⟨.refl s, rfl⟩
  · obtain ⟨⟨t, bytes⟩, hl, heq⟩ := bind_eq_some_iff.1 h
    cases heq
    exact ⟨logout_sameInbound hl, rfl⟩

theorem beat_nextIn {sent : List Bytes} {out : List Bytes × Option String}
    (h : s.beat clock sent = some (s', out)) : s'.nextIn = s.nextIn := by
  simp only [beat] at h
  split at h
  · obtain ⟨⟨t, bytes⟩, he, heq⟩ := bind_eq_some_iff.1 h
    cases heq
    exact (encodeIfOk_sameInbound he).nextIn
  · cases h
    rfl

theorem tick_nextIn {out : List Bytes × Option String} (h : s.tick clock = some (s', out)) :
    s'.nextIn = s.nextIn := by
  simp only [tick] at h
  split at h
  · split at h
    · obtain ⟨⟨t, bytes⟩, hl, heq⟩ := bind_eq_some_iff.1 h
      cases heq
      exact (logout_sameInbound hl).nextIn
    · exact beat_nextIn h
  split at h
  · obtain ⟨counter, -, h⟩ := bind_eq_some_iff.1 h
    obtain ⟨⟨t, bytes⟩, he, h⟩ := bind_eq_some_iff.1 h
    exact (beat_nextIn h).trans (encodeIfOk_sameInbound he).nextIn
  · exact beat_nextIn h

/-- What a message does to the expected number: it stays or is moved forward, and a message for
the application is the expected one. -/
structure Advances (m : Message) (s s' : Session) (out : Step) : Prop where
  le : s.nextIn ≤ s'.nextIn
  lt : s.nextIn < 2 ^ 32 → s'.nextIn < 2 ^ 32
  handed : ∀ m' ∈ out.app, m' = m ∧ m.seq = some s.nextIn ∧ s.nextIn < s'.nextIn

theorem SameInbound.advances (h : SameInbound s s') (happ : out.app = none) :
    Advances m s s' out where
  le := h.nextIn.ge
  lt hlt := h.nextIn.symm ▸ hlt
  handed m' hm' := by
    rw [happ] at hm'
    cases hm'

theorem advances_newSeqNo {n : ℕ} (hn : newSeqNo m = some n) (hne : s'.nextIn = n)
    (hle : s.nextIn ≤ n) (happ : out.app = none) : Advances m s s' out where
  le := hne ▸ hle
  lt _ := by
    obtain ⟨v, -, hp⟩ := bind_eq_some_iff.1 hn
    rw [hne]
    exact parseUnsigned_lt hp
  handed m' hm' := by
    rw [happ] at hm'
    cases hm'

theorem sequenceReset_advances (h : s.sequenceReset clock m seq = some (s', out)) :
    Advances m s s' out := by
  simp only [sequenceReset] at h
  split at h
  · rename_i n hn
    obtain ⟨hnew, hle⟩ := filter_eq_some_iff.1 hn
    cases h
    exact advances_newSeqNo hnew rfl (of_decide_eq_true hle) rfl
  · obtain ⟨⟨t, bytes⟩, hr, heq⟩ := bind_eq_some_iff.1 h
    cases heq
    exact (reject_sameInbound hr).advances rfl

theorem tooHigh_sameInbound (h : s.tooHigh clock m seq = some (s', out)) :
    SameInbound s s' ∧ out.app = none := by
  simp only [tooHigh] at h
  split at h
  · exact answerLogout_sameInbound h
  have ha : SameInbound s (if m.msgType = "2" then s.onResendRequest clock m else (s, [])).1 := by
    split
    · exact ⟨rfl, rfl, rfl⟩
    · exact .refl s
  obtain ⟨⟨t, request⟩, hr, heq⟩ := bind_eq_some_iff.1 h
  cases heq
  have hs : SameInbound s t := ha.trans (askForResend_sameInbound hr)
  exact ⟨⟨hs.sender, hs.target, hs.nextIn⟩, rfl⟩

theorem inSequence_cases (h : s.inSequence clock m seq = some (s', out)) :
    (s'.nextIn = s.nextIn ∧ (out.app = none ∨ out.app = some m)) ∨
      (out.app = none ∧ ∃ n, newSeqNo m = some n ∧ seq < n ∧ s'.nextIn = n) := by
  simp only [inSequence] at h
  split at h
  · cases h
    exact .inl ⟨rfl, .inl rfl⟩
  · obtain ⟨⟨t, bytes⟩, he, heq⟩ := bind_eq_some_iff.1 h
    cases heq
    exact .inl ⟨(encodeIfOk_sameInbound he).nextIn, .inl rfl⟩
  · cases h
    exact .inl ⟨rfl, .inl rfl⟩
  · cases h
    exact .inl ⟨rfl, .inl rfl⟩
  · split at h
    · rename_i n hn
      obtain ⟨hnew, hlt⟩ := filter_eq_some_iff.1 hn
      cases h
      exact .inr ⟨rfl, n, hnew, of_decide_eq_true hlt, rfl⟩
    · obtain ⟨⟨t, bytes⟩, hr, heq⟩ := bind_eq_some_iff.1 h
      cases heq
      exact .inl ⟨(reject_sameInbound hr).nextIn, .inl rfl⟩
  · have hl := answerLogout_sameInbound h
    exact .inl ⟨hl.1.nextIn, .inl hl.2⟩
  · obtain ⟨⟨t, bytes⟩, hr, heq⟩ := bind_eq_some_iff.1 h
    cases heq
    exact .inl ⟨(reject_sameInbound hr).nextIn, .inl rfl⟩
  · split at h
    · obtain ⟨⟨t, bytes⟩, hr, heq⟩ := bind_eq_some_iff.1 h
      cases heq
      exact .inl ⟨(reject_sameInbound hr).nextIn, .inl rfl⟩
    · cases h
      exact .inl ⟨rfl, .inr rfl⟩

theorem onMessage_advances (h : s.onMessage clock m = some (s', out)) : Advances m s s' out := by
  -- the time of the last message is all that differs from `s`
  have hk : ∀ {t : Session} {o : Step}, Advances m { s with lastIn := clock.now } t o →
      Advances m s t o := fun hadv => ⟨hadv.le, hadv.lt, hadv.handed⟩
  refine hk ?_
  simp only [onMessage] at h
  split at h
  · obtain ⟨⟨t, bytes⟩, hl, heq⟩ := bind_eq_some_iff.1 h
    cases heq
    exact (logout_sameInbound hl).advances rfl
  rename_i seq hseq
  split at h
  · obtain ⟨⟨t, r⟩, hr, h⟩ := bind_eq_some_iff.1 h
    obtain ⟨⟨t', bytes⟩, hl, heq⟩ := bind_eq_some_iff.1 h
    cases heq
    exact ((reject_sameInbound hr).trans (logout_sameInbound hl)).advances rfl
  split at h
  · exact sequenceReset_advances h
  split at h
  · simp only [tooLow] at h
    split at h
    · cases h
      exact (SameInbound.refl _).advances rfl
    · obtain ⟨⟨t, bytes⟩, hl, heq⟩ := bind_eq_some_iff.1 h
      cases heq
      exact (logout_sameInbound hl).advances rfl
  split at h
  · have hh := tooHigh_sameInbound h
    exact hh.1.advances hh.2
  rename_i hlow hh
  obtain ⟨next, hn, h⟩ := bind_eq_some_iff.1 h
  obtain rfl : seq = s.nextIn := by omega
  obtain ⟨rfl, hlt⟩ := checkedAdd_eq_some.1 hn
  cases inSequence_cases h with
  | inl hc =>
    have hni : s'.nextIn = s.nextIn + 1 := hc.1
    refine ⟨by simp only; omega, fun _ => by omega, ?_⟩
    intro m' hm'
    cases hc.2 with
    | inl hno =>
      rw [hno] at hm'
      cases hm'
    | inr hs =>
      rw [hs] at hm'
      cases hm'
      exact ⟨rfl, hseq, by simp only; omega⟩
  | inr hm =>
    obtain ⟨happ, n, hn, hgt, hni⟩ := hm
    exact advances_newSeqNo hn hni hgt.le happ

end Session

namespace Connection

/-- Every message was handed over under the number it carries, in increasing order. -/
structure Ordered (c : Connection) : Prop where
  nextIn_lt : c.alive = true → c.session.nextIn < 2 ^ 32
  expected : ∀ p ∈ c.handed, p.2.seq = some p.1 ∧ p.1 < c.session.nextIn
  increasing : (c.handed.map Prod.fst).Pairwise (· < ·)

theorem acceptLogon_ordered (s : Session) (now seq : ℕ) : (acceptLogon s now seq).Ordered := by
  unfold acceptLogon
  cases hl : s.acceptLogon now seq with
  | none => exact ⟨nofun, nofun, .nil⟩
  | some t =>
    obtain ⟨next, hn, rfl⟩ := map_eq_some_iff.1 hl
    obtain ⟨rfl, hlt⟩ := checkedAdd_eq_some.1 hn
    exact ⟨fun _ => hlt, nofun, .nil⟩

variable {c : Connection} {s : Session}

theorem Ordered.dead (h : c.Ordered) : Ordered { c with alive := false } :=
  ⟨nofun, h.expected, h.increasing⟩

theorem Ordered.sending (h : c.Ordered) (hn : s.nextIn = c.session.nextIn) :
    Ordered { c with session := s } := by
  refine ⟨fun ha => hn ▸ h.nextIn_lt ha, fun p hp => ?_, h.increasing⟩
  exact ⟨(h.expected p hp).1, hn ▸ (h.expected p hp).2⟩

theorem Ordered.onMessage (h : c.Ordered) {clock : Clock} {m : Message} {out : Step}
    (hal : c.alive = true) (hout : c.session.onMessage clock m = some (s, out)) :
    Ordered { c with
      session := s
      handed := c.handed ++ out.app.toList.map fun m => (c.session.nextIn, m) } := by
  have hadv := Session.onMessage_advances hout
  refine ⟨fun _ => hadv.lt (h.nextIn_lt hal), ?_, ?_⟩
  · intro p hp
    rw [mem_append] at hp
    cases hp with
    | inl hold => exact ⟨(h.expected p hold).1, Nat.lt_of_lt_of_le (h.expected p hold).2 hadv.le⟩
    | inr hnew =>
      obtain ⟨m', hm', rfl⟩ := mem_map.1 hnew
      obtain ⟨rfl, hseq, hlt⟩ := hadv.handed m' (mem_toList.1 hm')
      exact ⟨hseq, hlt⟩
  rw [map_append, pairwise_append]
  refine ⟨h.increasing, ?_, ?_⟩
  · cases out.app with
    | none => exact .nil
    | some m' => exact pairwise_singleton _ _
  intro a ha b hb
  obtain ⟨p, hp, rfl⟩ := mem_map.1 ha
  obtain ⟨q, hq, rfl⟩ := mem_map.1 hb
  obtain ⟨m', -, rfl⟩ := mem_map.1 hq
  exact (h.expected p hp).2

theorem ofOutcome_cases {α : Type*} (c : Connection) (out : Option (Session × α))
    (hout : ∀ s a, out = some (s, a) → s.nextIn = c.session.nextIn) :
    c.ofOutcome (out.map (·.1)) = { c with alive := false } ∨
      ∃ s : Session, s.nextIn = c.session.nextIn ∧
        c.ofOutcome (out.map (·.1)) = { c with session := s } := by
  cases out with
  | none => exact .inl rfl
  | some pair => exact .inr ⟨pair.1, hout pair.1 pair.2 rfl, rfl⟩

/-- A call is ignored by a dead connection, panics, only sends, or is an inbound message. -/
theorem step_cases (c : Connection) (call : Call) :
    c.step call = c ∨ c.step call = { c with alive := false } ∨
    (∃ s : Session, s.nextIn = c.session.nextIn ∧ c.step call = { c with session := s }) ∨
    ∃ clock m s out, c.alive = true ∧ c.session.onMessage clock m = some (s, out) ∧
      c.step call = { c with
        session := s
        handed := c.handed ++ out.app.toList.map fun m => (c.session.nextIn, m) } := by
  unfold step
  split
  · exact .inl rfl
  rename_i hnot
  refine .inr ?_
  cases call with
  | onMessage clock m =>
    cases hout : c.session.onMessage clock m with
    | none =>
      simp only [hout]
      exact .inl trivial
    | some out =>
      simp only [hout]
      exact .inr (.inr ⟨clock, m, out.1, out.2, by simpa using hnot, hout, rfl⟩)
  | encode clock msgType body =>
    exact (c.ofOutcome_cases _ fun _ _ h => (Session.encode_sameInbound h).nextIn).imp_right .inl
  | logout clock text =>
    exact (c.ofOutcome_cases _ fun _ _ h => (Session.logout_sameInbound h).nextIn).imp_right .inl
  | tick clock =>
    exact (c.ofOutcome_cases _ fun _ _ h => Session.tick_nextIn h).imp_right .inl

theorem step_ordered (c : Connection) (call : Call) (h : c.Ordered) : (c.step call).Ordered := by
  obtain heq | heq | ⟨s, hn, heq⟩ | ⟨clock, m, s, out, ha, hout, heq⟩ := c.step_cases call <;>
    rw [heq]
  · exact h
  · exact h.dead
  · exact h.sending hn
  · exact h.onMessage ha hout

theorem nextIn_le_step (c : Connection) (call : Call) :
    c.session.nextIn ≤ (c.step call).session.nextIn := by
  obtain heq | heq | ⟨s, hn, heq⟩ | ⟨clock, m, s, out, -, hout, heq⟩ := c.step_cases call <;>
    rw [heq]
  · exact hn.ge
  · exact (Session.onMessage_advances hout).le

end Connection

/-- Over every sequence of calls after the Logon was accepted, with whatever messages: the
expected number never decreases or wraps, each message was handed to the application under the
expected number, and these numbers strictly increase. -/
theorem inbound_sequenced (s : Session) (now seq : ℕ) (calls rest : List Call) :
    let c := run Connection.step (.acceptLogon s now seq) calls
    c.session.nextIn ≤ (run Connection.step c rest).session.nextIn ∧
    (c.alive = true → c.session.nextIn < 2 ^ 32) ∧
    (∀ p ∈ c.handed, p.2.seq = some p.1) ∧
    (c.handed.map Prod.fst).Pairwise (· < ·) := by
  intro c
  have h : c.Ordered :=
    run_invariant (Connection.acceptLogon_ordered s now seq) Connection.step_ordered calls
  refine ⟨?_, h.nextIn_lt, fun p hp => (h.expected p hp).1, h.increasing⟩
  exact le_run (μ := fun c : Connection => c.session.nextIn) Connection.nextIn_le_step c rest

end NetGet.Fix
