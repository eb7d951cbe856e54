import NetGet.Verification.ConcurrencyGate.Equations

/-! # The concurrency gate loses no wake-up

While there is capacity, the front waiter has been woken since its last poll, or is owed the wake-up
by a task that has left its critical section. -/

namespace NetGet.ConcurrencyGate

open Library

variable {ω : Type*} {w : World ω}

/-- Whenever there is capacity, the front waiter is owed nothing more than a wake-up that
is already on its way. -/
def FrontWoken (w : World ω) : Prop :=
  ∀ id registered rest, w.gate.queue = (id, registered) :: rest →
    w.gate.active < w.gate.limit →
      registered.invoked = true ∨ registered.waker ∈ w.inflight

theorem mem_takeFront (w : World ω) {queue : List (ℕ × Registration ω)} {id : ℕ}
    {registered : Registration ω} {rest : List (ℕ × Registration ω)}
    (h : queue = (id, registered) :: rest) : registered.waker ∈ w.takeFront queue := by
  simp [World.takeFront, h]

/-- Invoking a waker marks every registration of it, so nobody is owed more than before. -/
theorem FrontWoken.invoke [DecidableEq ω] (h : FrontWoken w) (waker : ω) :
    FrontWoken (w.invoke waker) := by
  intro id registered rest hqu hr
  cases hq : w.gate.queue with
  | nil => simp [World.invoke, hq] at hqu
  | cons entry tail =>
    simp only [World.invoke, hq, List.map_cons, List.cons.injEq] at hqu
    by_cases hw : entry.2.waker = waker
    · rw [if_pos hw] at hqu
      obtain ⟨-, rfl⟩ := Prod.mk.inj hqu.1
      exact .inl rfl
    rw [if_neg hw] at hqu
    obtain ⟨rfl, -⟩ := hqu
    rcases h id registered tail hq hr with hi | hf
    · exact .inl hi
    · exact .inr ((List.mem_erase_of_ne hw).2 hf)

theorem FrontWoken.effect [DecidableEq ω] {l : Label ω} {w' : World ω} (h : FrontWoken w)
    (he : Effect w l w') : FrontWoken w' := by
  cases he with
  | idle | made | left => exact h
  | taken hr hem =>
    intro id registered rest hqu _
    simp [hem] at hqu
  | grantedFresh future waker hw hr hem =>
    intro id registered rest hqu _
    simp [hem] at hqu
  | grantedFront future waker id registered rest hw hr hqu =>
    intro id' registered' rest' hre hm
    have hm' : w.gate.active + 1 < w.gate.limit := hm
    right
    simp only [hm', if_true]
    exact mem_takeFront w hre
  | queued future waker hw hb =>
    intro id registered rest hqu hr
    cases hq : w.gate.queue with
    | nil => exact absurd ⟨hq, hr⟩ hb
    | cons entry tail =>
      simp only [hq, List.cons_append, List.cons.injEq] at hqu
      obtain ⟨rfl, -⟩ := hqu
      exact h id registered tail hq hr
  | requeued future waker id hw hb =>
    intro front registered rest hqu hr
    cases hq : w.gate.queue with
    | nil => simp [hq, register] at hqu
    | cons entry tail =>
      have hfst : entry.1 = front := by
        have := congrArg (fun q => (q.map Prod.fst).head?) hqu
        simpa [hq] using this
      have hne : front ≠ id := by
        rintro rfl
        apply hb
        exact ⟨(isFirst_some _ _).2 ⟨entry.2, tail, by rw [hq, ← hfst]⟩, hr⟩
      simp only [hq, register, beq_iff_eq, if_neg (show entry.1 ≠ id from hfst ▸ hne)] at hqu
      obtain ⟨rfl, -⟩ := List.cons.inj hqu
      exact h front registered tail hq hr
  | cancelled | released | resized =>
    intro id registered rest hqu _
    exact .inr (mem_takeFront w hqu)
  | invoked waker hf => exact h.invoke waker

theorem frontWoken_new (limit : ℕ) : FrontWoken (World.new limit : World ω) := by
  intro id registered rest hq
  simp [World.new, ConcurrencyState.new] at hq

theorem frontWoken_step [DecidableEq ω] (w : World ω) (l : Label ω) (h : FrontWoken w) :
    FrontWoken (w.step l) :=
  h.effect (step_effect w l)

theorem foldl_invoke [DecidableEq ω] (wakers : List ω) (w : World ω)
    (hf : w.inflight = wakers) (h : FrontWoken w) :
    FrontWoken (wakers.foldl World.invoke w) ∧ (wakers.foldl World.invoke w).inflight = [] := by
  induction wakers generalizing w with
  | nil => exact ⟨h, hf⟩
  | cons waker wakers ih =>
    rw [List.foldl_cons]
    apply ih _ _ (h.invoke waker)
    simp [World.invoke, hf]

/-- The world after whole operations, each with the wake-up it owes. -/
def World.afterOperations [DecidableEq ω] (limit : ℕ) (labels : List (Label ω)) : World ω :=
  Machine.run World.operation (World.new limit) labels

/-- No wake-up is lost. After any interleaving of whole operations, a front waiter with
capacity for it has been woken since its last poll; when critical sections and the wake-ups
they owe interleave freely, it has been woken or its waker is about to be invoked. -/
theorem no_lost_wakeup [DecidableEq ω] (limit : ℕ) (labels : List (Label ω)) :
    (∀ id registered rest,
      (World.afterOperations limit labels).gate.queue = (id, registered) :: rest →
      (World.afterOperations limit labels).gate.active <
        (World.afterOperations limit labels).gate.limit → registered.invoked = true) ∧
    (∀ id registered rest, (World.after limit labels).gate.queue = (id, registered) :: rest →
      (World.after limit labels).gate.active < (World.after limit labels).gate.limit →
      registered.invoked = true ∨ registered.waker ∈ (World.after limit labels).inflight) := by
  constructor
  · intro id registered rest hq hr
    have hk : ∀ (w : World ω) l, FrontWoken w ∧ w.inflight = [] →
        FrontWoken (w.operation l) ∧ (w.operation l).inflight = [] := by
      intro w l h
      exact foldl_invoke _ _ rfl (frontWoken_step w l h.1)
    obtain ⟨hw, hf⟩ := Machine.run_invariant ⟨frontWoken_new limit, rfl⟩ hk labels
    simpa [World.afterOperations, hf] using hw id registered rest hq hr
  · exact Machine.run_invariant (frontWoken_new limit) frontWoken_step labels

theorem no_lost_wakeup_chain :
    let labels : List (Label ℕ) := [.acquire, .poll 0 7, .acquire, .poll 1 8, .resize 2,
      .poll 0 7]
    let registered : Registration ℕ := { waker := 8, invoked := true }
    (World.afterOperations 0 labels).gate.queue = [(1, registered)] ∧ registered.invoked = true :=
  ⟨by decide, (no_lost_wakeup 0 [.acquire, .poll 0 7, .acquire, .poll 1 8, .resize 2, .poll 0 7]).1
    1 { waker := 8, invoked := true } [] (by decide) (by decide)⟩

end NetGet.ConcurrencyGate
