import NetGet.Model.ConcurrencyGate

/-! # What one step of the gate can do -/

namespace NetGet.ConcurrencyGate

open Library ConcurrencyState Function

variable {ω : Type*} {s : ConcurrencyState ω}

@[simp] theorem register_map_fst (id : ℕ) (waker : ω) (queue : List (ℕ × ω)) :
    (register id waker queue).map Prod.fst = queue.map Prod.fst := by
  induction queue with
  | nil => rfl
  | cons entry rest ih =>
    by_cases h : entry.1 == id
    · simp [register, h]
    · simp [register, h, ih]

theorem tryAcquireOwned_of_busy (h : ¬(s.active < s.limit ∧ s.queue = [])) :
    s.tryAcquireOwned = none := by
  have hb : s.active ≥ s.limit ∨ s.queue.isEmpty = false := by
    by_cases hr : s.active < s.limit
    · exact .inr (by simpa using fun he => h ⟨hr, he⟩)
    · exact .inl (Nat.le_of_not_lt hr)
  rw [tryAcquireOwned, if_pos hb]

theorem isFirst_none (s : ConcurrencyState ω) : s.isFirst none = true ↔ s.queue = [] :=
  List.isEmpty_iff

theorem isFirst_some (s : ConcurrencyState ω) (id : ℕ) :
    s.isFirst (some id) = true ↔ ∃ waker rest, s.queue = (id, waker) :: rest := by
  cases h : s.queue with
  | nil => simp [isFirst, h]
  | cons entry rest =>
    obtain ⟨front, waker⟩ := entry
    simp only [isFirst, h, List.head?_cons, Option.any_some, beq_iff_eq,
      List.cons.injEq, Prod.mk.injEq]
    constructor
    · intro hid
      exact ⟨waker, rest, ⟨hid, rfl⟩, rfl⟩
    · rintro ⟨_, _, ⟨hid, _⟩, _⟩
      exact hid

theorem poll_ready {id : Option ℕ} (waker : ω) (hf : s.isFirst id = true)
    (hr : s.active < s.limit) :
    s.poll id waker =
      { state := { s with
          queue := if id.isSome then s.queue.tail else s.queue
          active := s.active + 1 }
        id := none
        ready := true
        wake := if s.active + 1 < s.limit then
            (if id.isSome then s.queue.tail else s.queue).head?.map Prod.snd
          else none } := by
  simp [poll, hf, hr, frontWaker]

/-- The first poll of a future is remembered. -/
def World.notePoll (w : World ω) (future : ℕ) : List ℕ :=
  if future ∈ w.polled then w.polled else w.polled ++ [future]

/-- The wakers in flight after a critical section that ended with this queue. -/
def World.takeFront (w : World ω) (queue : List (ℕ × Registration ω)) : List ω :=
  (queue.head?.map fun entry => entry.2.waker).toList ++ w.inflight

/-- Everything a step can do, with the guards that led there. -/
inductive Effect [DecidableEq ω] (w : World ω) : Label ω → World ω → Prop where
  | idle (l) : Effect w l w
  | taken (hroom : w.gate.active < w.gate.limit) (hempty : w.gate.queue = []) :
      Effect w .tryAcquire { w with
        gate := { w.gate with active := w.gate.active + 1 }
        permits := w.minted :: w.permits
        minted := w.minted + 1 }
  | made : Effect w .acquire { w with
        waits := w.waits.insert w.created { id := none, granted := false }
        created := w.created + 1 }
  | grantedFresh (future waker)
      (hwait : w.waits.lookup future = some { id := none, granted := false })
      (hroom : w.gate.active < w.gate.limit) (hempty : w.gate.queue = []) :
      Effect w (.poll future waker) { w with
        gate := { w.gate with active := w.gate.active + 1 }
        waits := w.waits.insert future { id := none, granted := true }
        permits := w.minted :: w.permits
        minted := w.minted + 1
        polled := w.notePoll future
        granted := w.granted ++ [future] }
  | grantedFront (future waker id registered rest)
      (hwait : w.waits.lookup future = some { id := some id, granted := false })
      (hroom : w.gate.active < w.gate.limit) (hqueue : w.gate.queue = (id, registered) :: rest) :
      Effect w (.poll future waker) { w with
        gate := { w.gate with queue := rest, active := w.gate.active + 1 }
        waits := w.waits.insert future { id := none, granted := true }
        permits := w.minted :: w.permits
        minted := w.minted + 1
        inflight := if w.gate.active + 1 < w.gate.limit then w.takeFront rest else w.inflight
        polled := w.notePoll future
        granted := w.granted ++ [future] }
  | queued (future waker)
      (hwait : w.waits.lookup future = some { id := none, granted := false })
      (hblocked : ¬(w.gate.queue = [] ∧ w.gate.active < w.gate.limit)) :
      Effect w (.poll future waker) { w with
        gate := { w.gate with
          nextId := wrappingAdd 64 w.gate.nextId 1
          queue := w.gate.queue ++ [(w.gate.nextId, { waker, invoked := false })] }
        waits := w.waits.insert future { id := some w.gate.nextId, granted := false }
        polled := w.notePoll future }
  | requeued (future waker id)
      (hwait : w.waits.lookup future = some { id := some id, granted := false })
      (hblocked : ¬(w.gate.isFirst (some id) = true ∧ w.gate.active < w.gate.limit)) :
      Effect w (.poll future waker) { w with
        gate := { w.gate with
          queue := register id { waker, invoked := false } w.gate.queue }
        waits := w.waits.insert future { id := some id, granted := false }
        polled := w.notePoll future }
  | left (future granted) (hwait : w.waits.lookup future = some { id := none, granted }) :
      Effect w (.dropWait future) { w with waits := w.waits.erase future }
  | cancelled (future id granted)
      (hwait : w.waits.lookup future = some { id := some id, granted }) :
      Effect w (.dropWait future) { w with
        gate := { w.gate with queue := w.gate.queue.filter fun entry => entry.1 != id }
        waits := w.waits.erase future
        inflight := w.takeFront (w.gate.queue.filter fun entry => entry.1 != id) }
  | released (permit) (hlive : permit ∈ w.permits) :
      Effect w (.dropPermit permit) { w with
        gate := { w.gate with active := w.gate.active - 1 }
        permits := w.permits.erase permit
        inflight := w.takeFront w.gate.queue }
  | resized (limit) : Effect w (.resize limit) { w with
        gate := { w.gate with limit }
        inflight := w.takeFront w.gate.queue }
  | invoked (waker) (hflight : waker ∈ w.inflight) : Effect w (.wake waker) (w.invoke waker)

theorem pollWait_effect [DecidableEq ω] (w : World ω) (future : ℕ) (id : Option ℕ) (waker : ω)
    (hw : w.waits.lookup future = some { id, granted := false }) :
    Effect w (.poll future waker) (w.pollWait future id waker) := by
  by_cases hr : w.gate.isFirst id = true ∧ w.gate.active < w.gate.limit
  · obtain ⟨hf, hro⟩ := hr
    cases id with
    | none =>
      have he := (isFirst_none _).1 hf
      have := Effect.grantedFresh future waker hw hro he
      simpa [World.pollWait, poll_ready _ hf hro, World.unlock, World.mint,
        World.notePoll, he] using this
    | some id =>
      obtain ⟨registered, rest, hq⟩ := (isFirst_some _ _).1 hf
      have := Effect.grantedFront future waker id registered rest hw hro hq
      by_cases hm : w.gate.active + 1 < w.gate.limit
      · simpa [World.pollWait, poll_ready _ hf hro, World.unlock, World.mint,
          World.notePoll, World.takeFront, hq, hm, comp_def] using this
      · simpa [World.pollWait, poll_ready _ hf hro, World.unlock, World.mint,
          World.notePoll, World.takeFront, hq, hm] using this
  · cases id with
    | none =>
      have hb : ¬(w.gate.queue = [] ∧ w.gate.active < w.gate.limit) := by
        rwa [← isFirst_none]
      have := Effect.queued future waker hw hb
      simpa [World.pollWait, poll, if_neg hr, World.unlock, World.notePoll] using this
    | some id =>
      have := Effect.requeued future waker id hw hr
      simpa [World.pollWait, poll, if_neg hr, World.unlock, World.notePoll] using this

theorem step_effect [DecidableEq ω] (w : World ω) (l : Label ω) : Effect w l (w.step l) := by
  cases l with
  | tryAcquire =>
    by_cases h : w.gate.active < w.gate.limit ∧ w.gate.queue = []
    · have := Effect.taken h.1 h.2
      simpa [World.step, tryAcquireOwned, Nat.not_le.2 h.1, h.2, World.unlock, World.mint] using this
    · simpa only [World.step, tryAcquireOwned_of_busy h] using Effect.idle _
  | acquire => exact .made
  | poll future waker =>
    cases hw : w.waits.lookup future with
    | none => simpa [World.step, hw] using Effect.idle _
    | some wait =>
      obtain ⟨id, granted⟩ := wait
      cases granted with
      | true => simpa [World.step, hw] using Effect.idle _
      | false => simpa [World.step, hw] using pollWait_effect w future id waker hw
  | dropWait future =>
    cases hw : w.waits.lookup future with
    | none => simpa [World.step, hw] using Effect.idle _
    | some wait =>
      obtain ⟨id, granted⟩ := wait
      cases id with
      | none =>
        simpa [World.step, hw, dropWait, World.unlock] using
          Effect.left future granted hw
      | some id =>
        simpa [World.step, hw, dropWait, World.unlock,
          frontWaker, World.takeFront, comp_def] using
          Effect.cancelled future id granted hw
  | dropPermit permit =>
    by_cases hl : permit ∈ w.permits
    · simpa [World.step, hl, dropPermit, World.unlock,
        frontWaker, World.takeFront, comp_def] using
        Effect.released permit hl
    · simpa [World.step, hl] using Effect.idle _
  | resize limit =>
    simpa [World.step, resize, World.unlock,
      frontWaker, World.takeFront, comp_def] using
      Effect.resized limit
  | wake waker =>
    by_cases hf : waker ∈ w.inflight
    · simpa [World.step, hf] using Effect.invoked waker hf
    · simpa [World.step, hf] using Effect.idle _

end NetGet.ConcurrencyGate
