import NetGet.Model.Breaker

/-! # The generation discipline of the circuit breaker -/

namespace NetGet.Breaker

open Library Option AList CircuitBreaker

@[simp] theorem drop_completed (p : BreakerPermit) (b : CircuitBreaker) (now : ℕ) :
    { p with completed := true }.drop b now = b := by
  simp [BreakerPermit.drop]

variable {p : BreakerPermit} {now openedAt : ℕ}

/-- The breaker is open exactly when the threshold is reached, and a probe is in flight
only while it is open. -/
structure Sound (b : CircuitBreaker) : Prop where
  threshold_pos : 0 < b.failureThreshold
  threshold_lt : b.failureThreshold < 2 ^ 32
  opened_iff : b.inner.openedAt.isSome = true ↔
    b.failureThreshold ≤ b.inner.consecutiveFailures
  probe_opened : b.inner.probeInFlight = true → b.inner.openedAt.isSome = true

theorem sound_new (failureThreshold : UInt32) (cooldown : ℕ) :
    Sound (new failureThreshold cooldown) where
  threshold_pos := by simp [new]
  threshold_lt := by
    have := failureThreshold.toNat_lt
    simp only [new]
    omega
  opened_iff := by simp [new]
  probe_opened := by simp [new]

/-- Everything an outcome can do to the breaker: start a new generation, close it, or
count within the same generation. -/
inductive Move (b : CircuitBreaker) : CircuitBreaker → Prop where
  | renewed {b'} (hsound : Sound b → Sound b')
      (hgen : b'.inner.generation = wrappingAdd 64 b.inner.generation 1) : Move b b'
  | closed {b'} (hsound : Sound b → Sound b')
      (hgen : b'.inner.generation = b.inner.generation)
      (hclosed : b'.inner.openedAt = none) : Move b b'
  | counted {b'} (hsound : Sound b → Sound b')
      (hgen : b'.inner.generation = b.inner.generation)
      (hopened : b'.inner.openedAt = b.inner.openedAt)
      (hprobe : b'.inner.probeInFlight = b.inner.probeInFlight) : Move b b'

theorem Move.same (b : CircuitBreaker) : Move b b := .counted id rfl rfl rfl

theorem Sound.close {b b' : CircuitBreaker} (h : Sound b)
    (ht : b'.failureThreshold = b.failureThreshold)
    (hc : b'.inner.consecutiveFailures = 0) (ho : b'.inner.openedAt = none)
    (hp : b'.inner.probeInFlight = false) : Sound b' := by
  refine ⟨ht ▸ h.threshold_pos, ht ▸ h.threshold_lt, ?_, by simp [hp]⟩
  have := h.threshold_pos
  simp only [ho, hc, ht, isSome_none]
  constructor
  · simp
  · omega

theorem Sound.trip {b : CircuitBreaker} (h : Sound b) {inner : Inner} (now : ℕ)
    (hr : b.failureThreshold ≤ inner.consecutiveFailures) :
    Sound { b with inner := inner.trip now } :=
  { h with
    opened_iff := by simpa [Inner.trip] using hr
    probe_opened := by simp [Inner.trip] }

/-- A failure counted below the threshold, or while already open, changes neither side. -/
theorem Sound.count {b : CircuitBreaker} (h : Sound b) (error : String)
    (hq : b.failureThreshold ≤ (b.inner.countFailure error).consecutiveFailures →
      b.inner.openedAt.isSome = true) :
    Sound { b with inner := b.inner.countFailure error } :=
  { h with
    opened_iff := by
      refine ⟨fun ho => ?_, hq⟩
      have hr := h.opened_iff.1 ho
      apply le_saturatingAdd h.threshold_lt
      omega }

theorem recordFailure_move (b : CircuitBreaker) (error : String) (now : ℕ) :
    Move b (b.recordFailure error now).1 := by
  unfold recordFailure
  simp only
  split_ifs with ho
  · exact .renewed (fun h => h.trip now ho.1) rfl
  refine .counted (fun h => h.count error ?_) rfl rfl rfl
  intro hr
  rw [isSome_iff_ne_none]
  intro hn
  exact ho ⟨hr, .inl (by simp [Inner.countFailure, hn])⟩

theorem drop_move (p : BreakerPermit) (b : CircuitBreaker) (now : ℕ) : Move b (p.drop b now) := by
  unfold BreakerPermit.drop
  split
  · split_ifs with hc
    · refine .renewed (fun h => ?_) rfl
      have ho := h.probe_opened hc.2
      exact { h with opened_iff := by simpa using h.opened_iff.1 ho, probe_opened := by simp }
    · exact .same b
  · exact .same b

theorem permit_recordSuccess_move (p : BreakerPermit) (b : CircuitBreaker) (now : ℕ) :
    Move b (p.recordSuccess b now) := by
  simp only [BreakerPermit.recordSuccess, drop_completed]
  split
  · cases hp : p.probe with
    | true => exact .renewed (fun h => h.close rfl rfl rfl rfl) rfl
    | false => exact .closed (fun h => h.close rfl rfl rfl rfl) rfl rfl
  · exact .same b

theorem permit_recordFailure_move (p : BreakerPermit) (b : CircuitBreaker) (error : String)
    (now : ℕ) : Move b (p.recordFailure b error now).1 := by
  simp only [BreakerPermit.recordFailure, drop_completed]
  split
  · split
    · rename_i hr
      exact .renewed (fun h => h.trip now hr) rfl
    · rename_i hb
      exact .counted (fun h => h.count error fun hr => absurd hr hb) rfl rfl rfl
  · exact .same b

/-- No lease is newer than the breaker. While the breaker is open, a lease of the current
generation is the one probe in flight. -/
structure Fenced (b : CircuitBreaker) (leases : Table ℕ BreakerPermit) : Prop where
  generation_le : ∀ n p, leases.lookup n = some p → p.generation ≤ b.inner.generation
  probe : b.inner.openedAt.isSome = true → ∀ n p, leases.lookup n = some p →
    p.generation = b.inner.generation → p.probe = true ∧ b.inner.probeInFlight = true
  unique : b.inner.openedAt.isSome = true → ∀ n p n' p', leases.lookup n = some p →
    leases.lookup n' = some p' → p.generation = b.inner.generation →
    p'.generation = b.inner.generation → n = n'

variable {b b' breaker : CircuitBreaker} {leases leases' : Table ℕ BreakerPermit} {w : World}

section

variable (h : Fenced b leases)

include h

section

variable (hsub : ∀ n p, leases'.lookup n = some p → leases.lookup n = some p)

include hsub

theorem Fenced.renew (hgen : b'.inner.generation = b.inner.generation + 1) : Fenced b' leases' := by
  have hlt : ∀ n p, leases'.lookup n = some p → p.generation < b'.inner.generation := by
    intro n p hp
    have := h.generation_le n p (hsub n p hp)
    omega
  refine ⟨fun n p hp => (hlt n p hp).le, ?_, ?_⟩
  · intro _ n p hp hc
    exact absurd hc (hlt n p hp).ne
  · intro _ n p _ _ hp _ hc _
    exact absurd hc (hlt n p hp).ne

theorem Fenced.close (hgen : b'.inner.generation = b.inner.generation)
    (hc : b'.inner.openedAt = none) : Fenced b' leases' := by
  refine ⟨?_, by simp [hc], by simp [hc]⟩
  intro n p hp
  rw [hgen]
  exact h.generation_le n p (hsub n p hp)

theorem Fenced.keep (hgen : b'.inner.generation = b.inner.generation)
    (hop : b'.inner.openedAt = b.inner.openedAt)
    (hpr : b'.inner.probeInFlight = b.inner.probeInFlight) : Fenced b' leases' := by
  refine ⟨?_, ?_, ?_⟩
  · intro n p hp
    rw [hgen]
    exact h.generation_le n p (hsub n p hp)
  · rw [hgen, hop, hpr]
    exact fun ho n p hp => h.probe ho n p (hsub n p hp)
  · rw [hgen, hop]
    exact fun ho n p n' p' hp hp' => h.unique ho n p n' p' (hsub n p hp) (hsub n' p' hp')

end

/-- Without a probe in flight an open breaker has no current lease, so the probe issued
now is the only one. -/
theorem Fenced.issueProbe (ho : b.inner.openedAt.isSome = true)
    (hi : b.inner.probeInFlight = false) (n : ℕ) :
    Fenced { b with inner := { b.inner with probeInFlight := true } }
      (leases.insert n
        { generation := b.inner.generation, probe := true, completed := false }) := by
  have hc : ∀ n' p', (leases.insert n
      { generation := b.inner.generation, probe := true, completed := false }).lookup n' =
        some p' → p'.generation = b.inner.generation → n' = n ∧ p'.probe = true := by
    refine forall_insert (fun n' p' hp' hgen => ?_) fun _ => ⟨rfl, rfl⟩
    have hf := (h.probe ho n' p' hp' hgen).2
    simp [hi] at hf
  refine ⟨forall_insert h.generation_le le_rfl, ?_, ?_⟩
  · intro _ n' p' hp' hgen
    exact ⟨(hc n' p' hp' hgen).2, rfl⟩
  · intro _ n₁ p₁ n₂ p₂ hp₁ hp₂ hgen₁ hgen₂
    rw [(hc n₁ p₁ hp₁ hgen₁).1, (hc n₂ p₂ hp₂ hgen₂).1]

end

/-- What every reachable state satisfies while fewer than `2 ^ 64` generations passed. -/
structure Inv (w : World) : Prop where
  sound : Sound w.breaker
  fenced : Fenced w.breaker w.leases
  generation_eq : w.breaker.inner.generation = w.generations

theorem inv_new (failureThreshold : UInt32) (cooldown : ℕ) :
    Inv (World.new failureThreshold cooldown) where
  sound := sound_new failureThreshold cooldown
  fenced := by constructor <;> simp [World.new]
  generation_eq := rfl

theorem Inv.move (h : Inv w) (hb : w.generations < 2 ^ 64) (hm : Move w.breaker breaker)
    (hfew : (w.update breaker).generations < 2 ^ 64) (leases : Table ℕ BreakerPermit)
    (hsub : ∀ n p, leases.lookup n = some p → w.leases.lookup n = some p) :
    Inv { w.update breaker with leases } := by
  cases hm with
  | renewed hs hgen =>
    -- fewer than `2 ^ 64` generations passed, so a new one is a later one
    have heq := h.generation_eq
    unfold World.update at hfew
    unfold wrappingAdd at hgen
    simp only at hfew
    split_ifs at hfew with hne
    · omega
    have hn : breaker.inner.generation = w.breaker.inner.generation + 1 := by omega
    refine ⟨hs h.sound, h.fenced.renew hsub hn, ?_⟩
    simp only [World.update, if_neg hne]
    omega
  | closed hs hgen hcl =>
    refine ⟨hs h.sound, h.fenced.close hsub hgen hcl, ?_⟩
    simp [World.update, hgen, h.generation_eq]
  | counted hs hgen ho hp =>
    refine ⟨hs h.sound, h.fenced.keep hsub hgen ho hp, ?_⟩
    simp [World.update, hgen, h.generation_eq]

theorem Inv.update (h : Inv w) (hb : w.generations < 2 ^ 64) (hm : Move w.breaker breaker)
    (hfew : (w.update breaker).generations < 2 ^ 64) : Inv (w.update breaker) :=
  h.move hb hm hfew w.leases fun _ _ hp => hp

theorem Inv.settle (h : Inv w) (hb : w.generations < 2 ^ 64) (lease : ℕ)
    {outcome : BreakerPermit → CircuitBreaker} (hm : ∀ p, Move w.breaker (outcome p))
    (hfew : (w.settle lease outcome).generations < 2 ^ 64) : Inv (w.settle lease outcome) := by
  unfold World.settle at hfew ⊢
  cases hl : w.leases.lookup lease with
  | none => exact h
  | some p =>
    rw [hl] at hfew
    exact h.move hb (hm p) hfew _ fun _ _ hq => lookup_of_erase hq

theorem Inv.acquire (h : Inv w) : Inv (w.step .acquire) := by
  rcases eq_none_or_eq_some w.breaker.inner.openedAt with hc | ⟨openedAt, ho⟩
  · simp only [World.step, CircuitBreaker.acquire, hc]
    refine ⟨h.sound, ?_, by simpa [World.update] using h.generation_eq⟩
    -- a lease issued while closed leaves the breaker closed
    exact ⟨forall_insert h.fenced.generation_le le_rfl, by simp [World.update, hc],
      by simp [World.update, hc]⟩
  by_cases hb : w.breaker.inner.probeInFlight = true ∨ w.now - openedAt < w.breaker.cooldown
  · simpa only [World.step, CircuitBreaker.acquire, ho, hb, if_true] using h
  have hi : w.breaker.inner.probeInFlight = false := by
    simpa using fun hp => hb (.inl hp)
  have hs : w.breaker.inner.openedAt.isSome = true := by simp [ho]
  have ha : w.breaker.acquire w.now =
      .ok ({ w.breaker with inner := { w.breaker.inner with probeInFlight := true } },
        { generation := w.breaker.inner.generation, probe := true, completed := false }) := by
    simp [CircuitBreaker.acquire, ho, hb]
  simp only [World.step, ha]
  refine ⟨?_, ?_, by simpa [World.update] using h.generation_eq⟩
  · exact { h.sound with probe_opened := fun _ => hs }
  · exact h.fenced.issueProbe hs hi _

theorem inv_step (w : World) (l : Label) (h : Inv w) (hb : w.generations < 2 ^ 64)
    (hfew : (w.step l).generations < 2 ^ 64) : Inv (w.step l) := by
  cases l with
  | acquire => exact h.acquire
  | reportSuccess lease =>
    exact h.settle hb lease (fun p => permit_recordSuccess_move p _ _) hfew
  | reportFailure lease error =>
    exact h.settle hb lease (fun p => permit_recordFailure_move p _ error _) hfew
  | dropLease lease => exact h.settle hb lease (fun p => drop_move p _ _) hfew
  | recordSuccess | reset =>
    exact h.update hb (.renewed (fun h => h.close rfl rfl rfl rfl) rfl) hfew
  | recordFailure error => exact h.update hb (recordFailure_move _ error _) hfew
  | advance time => exact { h with }

theorem generations_le_update (w : World) (breaker : CircuitBreaker) :
    w.generations ≤ (w.update breaker).generations := by
  simp only [World.update]
  split <;> omega

theorem generations_le_step (w : World) (l : Label) : w.generations ≤ (w.step l).generations := by
  have hs : ∀ lease outcome, w.generations ≤ (w.settle lease outcome).generations := by
    intro lease outcome
    unfold World.settle
    split
    · exact le_rfl
    · exact generations_le_update w _
  cases l with
  | acquire =>
    simp only [World.step]
    split
    · exact le_rfl
    · exact generations_le_update w _
  | reportSuccess | reportFailure | dropLease => exact hs _ _
  | recordSuccess | recordFailure | reset => exact generations_le_update w _
  | advance time => exact le_rfl

theorem inv_after (failureThreshold : UInt32) (cooldown : ℕ) (labels : List Label)
    (hfew : (World.after failureThreshold cooldown labels).generations < 2 ^ 64) :
    Inv (World.after failureThreshold cooldown labels) := by
  have hk : ∀ w l, (w.generations < 2 ^ 64 → Inv w) →
      (w.step l).generations < 2 ^ 64 → Inv (w.step l) := by
    intro w l h hfew
    have hb := (generations_le_step w l).trans_lt hfew
    exact inv_step w l (h hb) hb hfew
  exact Machine.run_invariant (fun _ => inv_new failureThreshold cooldown) hk labels hfew

/-- The breaker's invariant over every run. It is open exactly when the threshold is
reached; while it is open the only current lease is the one probe in flight; and a lease
of another generation changes nothing when it is reported or dropped. -/
theorem breaker_invariant (failureThreshold : UInt32) (cooldown : ℕ) (labels : List Label)
    (hfew : (World.after failureThreshold cooldown labels).generations < 2 ^ 64) :
    let w := World.after failureThreshold cooldown labels
    (w.breaker.inner.openedAt.isSome = true ↔
      w.breaker.failureThreshold ≤ w.breaker.inner.consecutiveFailures) ∧
    (∀ now, (w.breaker.status now).state = .halfOpen → w.breaker.inner.openedAt.isSome = true) ∧
    (w.breaker.inner.openedAt.isSome = true → ∀ n p, w.leases.lookup n = some p →
      p.generation = w.breaker.inner.generation →
        p.probe = true ∧ w.breaker.inner.probeInFlight = true ∧
          ∀ n' p', w.leases.lookup n' = some p' →
            p'.generation = w.breaker.inner.generation → n' = n) ∧
    (∀ n p, w.leases.lookup n = some p → p.generation ≠ w.breaker.inner.generation →
      (w.step (.reportSuccess n)).breaker = w.breaker ∧
      (∀ error, (w.step (.reportFailure n error)).breaker = w.breaker) ∧
      (w.step (.dropLease n)).breaker = w.breaker) := by
  intro w
  have h : Inv w := inv_after failureThreshold cooldown labels hfew
  refine ⟨h.sound.opened_iff, fun now hs => ?_, ?_, ?_⟩
  · rw [h.sound.opened_iff]
    by_contra hb
    have ho : w.breaker.inner.openedAt = none := by simpa [h.sound.opened_iff.symm] using hb
    simp [status, ho, hb] at hs
  · intro ho n p hp hc
    obtain ⟨hpr, hf⟩ := h.fenced.probe ho n p hp hc
    refine ⟨hpr, hf, ?_⟩
    intro n' p' hp' hc'
    exact h.fenced.unique ho n' p' n p hp' hp hc' hc
  intro n p hp hs
  refine ⟨?_, ?_, ?_⟩
  · simp [World.step, World.settle, hp, World.update, BreakerPermit.recordSuccess, Ne.symm hs]
  · intro error
    simp [World.step, World.settle, hp, World.update, BreakerPermit.recordFailure, Ne.symm hs]
  · simp [World.step, World.settle, hp, World.update, BreakerPermit.drop, Ne.symm hs]

theorem breaker_invariant_probe :
    let w := World.after 1 30
      [.acquire, .acquire, .reportFailure 0 "timeout", .advance 30, .acquire]
    w.leases.keys = [2, 1] ∧ w.breaker.inner.probeInFlight = true ∧
      (w.breaker.inner.openedAt.isSome = true ↔
        w.breaker.failureThreshold ≤ w.breaker.inner.consecutiveFailures) :=
  ⟨by decide, by decide, (breaker_invariant 1 30 _ (by decide)).1⟩

end NetGet.Breaker
