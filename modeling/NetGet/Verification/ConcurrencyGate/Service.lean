import NetGet.Verification.ConcurrencyGate.Admission

/-! # Whoever waits at the gate can be served -/

namespace NetGet.ConcurrencyGate

open Library List AList

variable {ω : Type*} {w : World ω} {future id : ℕ}

theorem lookup_of_pendingId (h : pendingId w.waits future = some id) :
    w.waits.lookup future = some { id := some id, granted := false } := by
  obtain ⟨⟨held, granted⟩, hw, hp⟩ := Option.bind_eq_some_iff.1 h
  cases granted with
  | true => cases hp
  | false =>
    obtain rfl : held = some id := hp
    exact hw

variable [DecidableEq ω]

/-- Polling the holder of the first id grants it while there is capacity. -/
theorem step_poll_front (hp : pendingId w.waits future = some id)
    (hr : w.gate.active < w.gate.limit) {registered : Registration ω}
    {rest : List (ℕ × Registration ω)} (hq : w.gate.queue = (id, registered) :: rest) (waker : ω) :
    let w' := w.step (.poll future waker)
    w'.gate.queue = rest ∧ w'.gate.active = w.gate.active + 1 ∧ w'.gate.limit = w.gate.limit ∧
      w'.created = w.created ∧ w'.waits = w.waits.insert future { id := none, granted := true } ∧
      w'.granted = w.granted ++ [future] := by
  have hf := (isFirst_some w.gate id).2 ⟨_, _, hq⟩
  simp [World.step, lookup_of_pendingId hp, World.pollWait, poll_ready _ hf hr, World.unlock,
    World.mint, hq]

/-- A permit is released, or a future is polled. -/
def Label.Serves : Label ω → Prop
  | .dropPermit _ | .poll .. => True
  | _ => False

theorem Inv.served (h : Inv w) (hfew : w.created < 2 ^ 64) (hl : 0 < w.gate.limit)
    (hp : pendingId w.waits future = some id) :
    ∃ more, (∀ l ∈ more, Label.Serves l) ∧ future ∈ (Machine.run World.step w more).granted := by
  -- a released permit and a served front each lower this sum
  induction hn : 2 * w.gate.queue.length + w.gate.active using Nat.strong_induction_on
    generalizing w with
  | _ n ih =>
    by_cases hr : w.gate.active < w.gate.limit
    · cases hq : w.gate.queue with
      | nil =>
        have hid : id ∈ w.gate.queue.map Prod.fst := by
          rw [h.queue_eq]
          exact mem_filterMap.2 ⟨future, h.mem_polled (lookup_of_pendingId hp), hp⟩
        rw [hq] at hid
        cases hid
      | cons entry rest =>
        obtain ⟨i, registered⟩ := entry
        have hi : i ∈ w.gate.queue.map Prod.fst := by simp [hq]
        rw [h.queue_eq] at hi
        obtain ⟨first, -, hfi⟩ := mem_filterMap.1 hi
        obtain ⟨hqu, hac, hli, hcr, hwa, hgr⟩ := step_poll_front hfi hr hq registered.waker
        by_cases heq : first = future
        · refine ⟨[.poll first registered.waker], forall_mem_singleton.2 trivial, ?_⟩
          rw [Machine.run_cons, Machine.run_nil, hgr, heq]
          exact mem_append_right _ (mem_singleton_self future)
        · have hinv := h.effect hfew (step_effect w (.poll first registered.waker))
          have hp' : pendingId (w.step (.poll first registered.waker)).waits future = some id := by
            rw [hwa, pendingId_insert, Function.update_of_ne (Ne.symm heq), hp]
          obtain ⟨more, hs, hm⟩ := ih _ (by rw [hqu, hac, ← hn, hq, length_cons]; omega) hinv
            (hcr ▸ hfew) (hli ▸ hl) hp' rfl
          exact ⟨.poll first registered.waker :: more, forall_mem_cons.2 ⟨trivial, hs⟩, hm⟩
    · have hpos : 0 < w.permits.length := by
        rw [← h.active_eq]
        omega
      obtain ⟨permit, hmem⟩ := exists_mem_of_length_pos hpos
      have hinv := h.effect hfew (step_effect w (.dropPermit permit))
      have hst : w.step (.dropPermit permit) =
          { w.unlock w.gate.dropPermit.1 w.gate.dropPermit.2 with
            permits := w.permits.erase permit } := if_pos hmem
      rw [hst] at hinv
      obtain ⟨more, hs, hm⟩ := ih _ (by
        simp only [World.unlock, ConcurrencyState.dropPermit]
        omega) hinv hfew hl hp rfl
      refine ⟨.dropPermit permit :: more, forall_mem_cons.2 ⟨trivial, hs⟩, ?_⟩
      rwa [Machine.run_cons, hst]

/-- In every reachable state of a gate whose limit is not zero, a future that waits can be served
by nothing but releasing permits and polling. -/
theorem waiter_served (limit : ℕ) (labels : List (Label ω))
    (hfew : (World.after limit labels).created < 2 ^ 64)
    (hl : 0 < (World.after limit labels).gate.limit)
    (hp : pendingId (World.after limit labels).waits future = some id) :
    ∃ more, (∀ l ∈ more, Label.Serves l) ∧
      future ∈ (World.after limit (labels ++ more)).granted := by
  obtain ⟨more, hs, hm⟩ := (inv_after limit labels hfew).served hfew hl hp
  refine ⟨more, hs, ?_⟩
  rwa [World.after, Machine.run_append]

theorem waiter_served_second :
    ∃ more, (∀ l ∈ more, Label.Serves l) ∧ 1 ∈ (World.after 1
      ([.acquire, .poll 0 7, .acquire, .poll 1 8] ++ more : List (Label ℕ))).granted :=
  waiter_served 1 _ (by decide) (by decide) (show pendingId _ 1 = some 0 by decide)

end NetGet.ConcurrencyGate
