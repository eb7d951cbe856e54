import NetGet.Model.WebSocket

/-! # WebSocket messages in order

The messages read stand in one line: those shown and answered, the one held back, those queued. -/

namespace NetGet.WebSocket

open Library Machine Showing List Connection

/-- A message held back is shown again alone, or joined with one more. -/
def Continues (held item : Item) : Prop :=
  item.parts = held.parts ∨ ∃ frame, item.parts = held.parts ++ [frame]

theorem Item.parts_merge {held merged : Item} {frame : Inbound}
    (h : held.merge frame = some merged) : merged.parts = held.parts ++ [frame] := by
  unfold Item.merge at h
  split at h
  · cases h
  · cases h
    rfl

def fresh (item : Item) : Showing Item := { content := item, again := false }

theorem settled_map_fresh (items : List Item) :
    settled Item.parts (items.map fresh) = items.flatMap Item.parts := by
  induction items with
  | nil => rfl
  | cons item items ih =>
    rw [flatMap_cons, ← ih]
    simp [settled, fresh]

theorem not_held_concat_fresh (log : List (Showing Item)) (item held : Item) :
    ¬ Held (log ++ [fresh item]) held := by
  intro h
  cases held_concat.1 h

/-- The newest message of a batch is shown last. -/
theorem batch_eq (first : Item) (more : List Item) :
    ∃ earlier, first :: more = earlier ++ [more.getLastD first] := by
  induction more generalizing first with
  | nil => exact ⟨[], rfl⟩
  | cons second more ih =>
    obtain ⟨earlier, he⟩ := ih second
    exact ⟨first :: earlier, by rw [he]; simp⟩

theorem Chained.batch {log : List (Showing Item)} (h : Chained Continues log) {first : Item}
    (hf : ∀ held, Held log held → Continues held first) (more : List Item) :
    Chained Continues (log ++ (first :: more).map fresh) := by
  induction more using reverseRecOn with
  | nil => exact h.concat hf
  | append_singleton more item ih =>
    obtain ⟨earlier, he⟩ := batch_eq first more
    rw [← cons_append, map_append, ← append_assoc]
    refine Showing.Chained.concat ih ?_
    rw [he, map_append, ← append_assoc]
    intro held hh
    exact absurd hh (not_held_concat_fresh _ _ held)

theorem ConnData.takeData_append (room : ℕ) (queued : List Item) :
    (takeData room queued).1 ++ (takeData room queued).2 = queued := by
  induction room generalizing queued with
  | zero => simp [takeData]
  | succ room ih =>
    cases queued with
    | nil => simp [takeData]
    | cons item queued =>
      rw [takeData]
      split
      · exact congrArg (item :: ·) (ih queued)
      · rfl

theorem ConnData.takeBatch_cases (data : ConnData) (batching : Bool) :
    data.queued = [] ∧ data.takeBatch batching = ({ data with state := .idle }, none) ∨
      ∃ first more rest, data.queued = first :: (more ++ rest) ∧
        data.takeBatch batching = ({ data with queued := rest }, some (first, more)) := by
  cases hq : data.queued with
  | nil => exact .inl ⟨rfl, by simp only [takeBatch, hq]⟩
  | cons first queued =>
    let room := if batching ∧ first.inbound.isData then maxBatchEvents - 1 else 0
    refine .inr ⟨first, (takeData room queued).1, (takeData room queued).2, ?_, ?_⟩
    · rw [takeData_append]
    · simp only [takeBatch, hq, room]

namespace Stage

def inFlight : Stage → Bool
  | .inCall _ => true
  | _ => false

/-- A message in the task's hands that is to be held back. -/
def carried : Stage → List Inbound
  | .hold newest => newest.parts
  | _ => []

/-- The task leaves the queue as it is, or clears it. -/
def leaves : Stage → Bool
  | .hold _ | .abandon => true
  | _ => false

/-- What a task knows of what was shown and of the queue. -/
def Agrees (shown : List (Showing Item)) (queued : List Item) : Stage → Prop
  | .take => ∀ held, Held shown held → ∃ item rest, queued = item :: rest ∧ Continues held item
  | .inCall newest => ∃ earlier, shown = earlier ++ [fresh newest]
  | .hold newest => Held shown newest
  | .abandon => ∀ held, ¬ Held shown held

end Stage

namespace Connection

/-- A task runs when the state is `Processing`, and then one alone. -/
def Phase (s : Connection) : Prop :=
  match s.data.state with
  | .idle =>
    s.tasks = [] ∧ s.data.queued = [] ∧ s.data.pending = none ∧ ∀ held, ¬ Held s.shown held
  | .processing =>
    ∃ stage, s.tasks = [stage] ∧ s.data.pending = none ∧ stage.Agrees s.shown s.data.queued
  | .accumulating =>
    s.tasks = [] ∧ s.data.queued = [] ∧ ∃ held, s.data.pending = some held ∧ Held s.shown held

structure InOrder (s : Connection) : Prop where
  chained : Chained Continues s.shown
  shown : presented Item.parts s.shown <+: s.arrived
  line : settled Item.parts s.shown ++ (s.tasks.flatMap Stage.carried ++
    (s.data.pending.toList.flatMap Item.parts ++ s.data.queued.flatMap Item.parts)) = s.arrived
  phase : s.Phase
  closing : s.closing = true → s.reading = false ∧ s.tasks = []

namespace InOrder

variable {s : Connection} {stage : Stage}

theorem start : start.InOrder where
  chained := isChain_nil
  shown := prefix_rfl
  line := rfl
  phase := ⟨rfl, rfl, rfl, by simp [Connection.start, Held]⟩
  closing := by simp [Connection.start]

section

variable (h : s.InOrder)

include h

theorem phase_of_tasks {k : ℕ} (hk : s.tasks[k]? = some stage) :
    k = 0 ∧ s.tasks = [stage] ∧ s.data.state = .processing ∧ s.data.pending = none ∧
      stage.Agrees s.shown s.data.queued := by
  have hp := h.phase
  unfold Phase at hp
  cases hs : s.data.state with
  | idle | accumulating =>
    rw [hs] at hp
    rw [hp.1] at hk
    cases hk
  | processing =>
    rw [hs] at hp
    obtain ⟨only, ht, hpe, ha⟩ := hp
    rw [ht] at hk
    cases k with
    | zero =>
      cases hk
      exact ⟨rfl, ht, rfl, hpe, ha⟩
    | succ k => cases hk

theorem not_closing (ht : s.tasks = [stage]) : s.closing = false := by
  by_contra hc
  have he := (h.closing (by simpa using hc)).2
  rw [ht] at he
  cases he

theorem spawn (hc : s.closing = false) (ht : s.tasks = [])
    (he : s.data.queued = []) (frame : Inbound) (queued : List Item)
    (hp : queued.flatMap Item.parts = s.data.pending.toList.flatMap Item.parts ++ [frame])
    (ha : Stage.take.Agrees s.shown queued) :
    InOrder
      { s with
        data := { state := .processing, queued, pending := none }
        tasks := [.take]
        arrived := s.arrived ++ [frame] } := by
  have hl := h.line
  rw [ht, he] at hl
  refine ⟨h.chained, h.shown.trans (prefix_append _ _), ?_, ⟨.take, rfl, rfl, ha⟩, ?_⟩
  · simp only
    rw [← hl, hp]
    simp [Stage.carried]
  · simp [hc]

theorem queue (hcl : s.closing = false)
    (hs : s.data.state = .processing) (frame : Inbound) : (s.receive frame).InOrder := by
  have hp := h.phase
  unfold Phase at hp
  rw [hs] at hp
  obtain ⟨stage, ht, hpe, ha⟩ := hp
  have hr : s.receive frame =
      { s with
        data := { s.data with queued := s.data.queued ++ [.ofInbound frame] }
        arrived := s.arrived ++ [frame] } := by
    simp [receive, ConnData.enqueueInbound, hs]
  rw [hr]
  refine ⟨h.chained, h.shown.trans (prefix_append _ _), ?_, ?_, by simp [hcl]⟩
  · simp only
    rw [← h.line]
    simp [Item.ofInbound]
  simp only [Phase, hs]
  refine ⟨stage, ht, hpe, ?_⟩
  cases stage with
  | take =>
    intro held hh
    obtain ⟨item, rest, hq, hc⟩ := ha held hh
    exact ⟨item, rest ++ [.ofInbound frame], by simp [hq], hc⟩
  | inCall | hold | abandon => exact ha

theorem receive (hr : s.reading = true) (frame : Inbound) : (s.receive frame).InOrder := by
  have hc : s.closing = false := by
    by_contra hc
    have hen := (h.closing (by simpa using hc)).1
    rw [hr] at hen
    cases hen
  have hph := h.phase
  unfold Phase at hph
  cases hs : s.data.state with
  | processing => exact h.queue hc hs frame
  | idle =>
    rw [hs] at hph
    obtain ⟨ht, he, hp, hse⟩ := hph
    have hsp := h.spawn hc ht he frame [.ofInbound frame]
      (by simp [hp, Item.ofInbound]) (fun held hh => absurd hh (hse held))
    simpa [Connection.receive, ConnData.enqueueInbound, hs, ht, he, hp] using hsp
  | accumulating =>
    rw [hs] at hph
    obtain ⟨ht, he, held, hp, hh⟩ := hph
    have hl : ∀ held', Held s.shown held' → held' = held := by
      intro held' hh'
      exact congrArg Showing.content (Option.some.inj (hh'.symm.trans hh))
    cases hm : held.merge frame with
    | some merged =>
      have hpa := Item.parts_merge hm
      have hsp := h.spawn hc ht he frame [merged] (by simp [hp, hpa])
        (fun held' hh' => ⟨merged, [], rfl, .inr ⟨frame, hl held' hh' ▸ hpa⟩⟩)
      simpa [Connection.receive, ConnData.enqueueInbound, hs, ht, he, hp, hm] using hsp
    | none =>
      have hsp := h.spawn hc ht he frame [held, .ofInbound frame] (by simp [hp, Item.ofInbound])
        (fun held' hh' => ⟨held, [.ofInbound frame], rfl, .inl (by rw [hl held' hh'])⟩)
      simpa [Connection.receive, ConnData.enqueueInbound, hs, ht, he, hp, hm] using hsp

theorem take (ht : s.tasks = [.take]) (hst : s.data.state = .processing)
    (hp : s.data.pending = none) (ha : Stage.take.Agrees s.shown s.data.queued) (batching : Bool) :
    InOrder { (s.advance batching .take).1 with tasks := (s.advance batching .take).2.toList } := by
  have hl := h.line
  have hc := h.not_closing ht
  rw [ht, hp] at hl
  rcases s.data.takeBatch_cases batching with ⟨hem, hta⟩ | ⟨first, more, rest, hq, hta⟩
  · have hs : ∀ held, ¬ Held s.shown held := by
      intro held hh
      obtain ⟨item, rest, hq, -⟩ := ha held hh
      rw [hem] at hq
      cases hq
    simp only [advance, hta]
    refine ⟨h.chained, h.shown, ?_, ⟨rfl, hem, hp, hs⟩, by simp [hc]⟩
    simp only [hp]
    exact hl
  obtain ⟨earlier, he⟩ := batch_eq first more
  have hf : ∀ held, Held s.shown held → Continues held first := by
    intro held hh
    obtain ⟨item, rest', hi, hco⟩ := ha held hh
    rw [hq] at hi
    obtain ⟨rfl, -⟩ := cons.inj hi
    exact hco
  have hs : settled Item.parts (s.shown ++ (first :: more).map fresh) =
      settled Item.parts s.shown ++ (first :: more).flatMap Item.parts := by
    rw [settled_append, settled_map_fresh]
  have hl' : settled Item.parts (s.shown ++ (first :: more).map fresh) ++
      rest.flatMap Item.parts = s.arrived := by
    rw [← hl, hs, hq]
    simp [Stage.carried]
  have hsh : presented Item.parts (s.shown ++ (first :: more).map fresh) =
      settled Item.parts (s.shown ++ (first :: more).map fresh) := by
    refine presented_of_not_held ?_
    rw [he, map_append, ← append_assoc]
    exact not_held_concat_fresh _ _
  simp only [advance, hta]
  refine ⟨Chained.batch h.chained hf more, ?_, ?_, ?_, by simp [hc]⟩
  · exact ⟨_, hsh.symm ▸ hl'⟩
  · simp only [hp]
    exact hl'
  · simp only [Phase, hst]
    refine ⟨_, rfl, hp, s.shown ++ earlier.map fresh, ?_⟩
    change s.shown ++ (first :: more).map fresh = _
    rw [he, map_append, ← append_assoc]
    rfl

end

end InOrder

/-- A task that leaves the queue as it is, or clears it, finds it empty, and the peer closes
when no handler task is running. -/
def Orderly (s : Connection) : Label → Prop
  | .receiveClose => s.tasks = []
  | .advance k _ => ∀ stage ∈ s.tasks[k]?, stage.leaves = true → s.data.queued = []
  | _ => True

instance (s : Connection) (l : Label) : Decidable (s.Orderly l) := by
  cases l <;> unfold Orderly <;> infer_instance

namespace InOrder

variable {s : Connection} {stage : Stage}

section

variable (h : s.InOrder) (hs : s.data.state = .processing) (hp : s.data.pending = none)

include h hs hp

theorem advance (ht : s.tasks = [stage]) (ha : stage.Agrees s.shown s.data.queued)
    (hl : stage.leaves = true → s.data.queued = []) (batching : Bool) :
    InOrder { (s.advance batching stage).1 with tasks := (s.advance batching stage).2.toList } := by
  have hc := h.not_closing ht
  have hli := h.line
  rw [ht, hp] at hli
  cases stage with
  | take => exact h.take ht hs hp ha batching
  | inCall newest =>
    refine ⟨h.chained, h.shown, ?_, ?_, by simp [advance, hc]⟩
    · simpa [advance, hp] using hli
    · simp only [advance, Phase, hs]
      exact ⟨_, rfl, hp, ha⟩
  | hold newest =>
    have he := hl rfl
    refine ⟨h.chained, h.shown, ?_, ⟨rfl, he, newest, rfl, ha⟩, ?_⟩
    · simpa [advance, ConnData.hold, he, Stage.carried] using hli
    · simp [advance, hc]
  | abandon =>
    have he := hl rfl
    refine ⟨h.chained, h.shown, ?_, ⟨rfl, rfl, hp, ha⟩, ?_⟩
    · simpa [advance, ConnData.abandon, he, hp, Stage.carried] using hli
    · simp [advance, hc]

theorem goes_on {next : Stage} (ht : s.tasks = [stage])
    (ha : next.Agrees s.shown s.data.queued) (hc : next.carried = stage.carried) :
    InOrder { s with tasks := [next] } := by
  refine ⟨h.chained, h.shown, ?_, ?_, by simp [h.not_closing ht]⟩
  · rw [← h.line, ht]
    simp [hc]
  · simp only [Phase, hs]
    exact ⟨next, rfl, hp, ha⟩

theorem answer_wait {newest : Item} (ht : s.tasks = [.inCall newest])
    (ha : (Stage.inCall newest).Agrees s.shown s.data.queued) :
    InOrder
      { s with
        shown := s.shown.modify (s.shown.length - 1) fun x => { x with again := true }
        tasks := [.hold newest] } := by
  obtain ⟨earlier, hsh⟩ := ha
  have hm : s.shown.modify (s.shown.length - 1) (fun x => { x with again := true }) =
      earlier ++ [⟨newest, true⟩] := by
    rw [hsh, length_append, length_singleton, Nat.add_sub_cancel]
    exact modify_length_concat earlier _ _
  have hc := h.chained
  have hpr := h.shown
  have hl := h.line
  rw [hsh] at hc hpr hl
  rw [hm]
  refine ⟨Showing.Chained.mark hc true, ?_, ?_, ?_, by simp [h.not_closing ht]⟩
  · rw [presented_concat] at hpr ⊢
    exact hpr
  · rw [settled_concat, ht, hp] at hl
    rw [settled_concat]
    simpa [Stage.carried, hp, fresh] using hl
  · simp only [Phase, hs]
    exact ⟨_, rfl, hp, held_concat.2 rfl⟩

theorem answer (ht : s.tasks = [stage]) (ha : stage.Agrees s.shown s.data.queued) (a : Answer) :
    InOrder { (s.answer a stage).1 with tasks := (s.answer a stage).2.toList } := by
  cases stage with
  | inCall newest =>
    have hse : ∀ held, ¬ Held s.shown held := by
      obtain ⟨earlier, hsh⟩ := ha
      rw [hsh]
      exact not_held_concat_fresh earlier newest
    rcases a with ⟨_ | _, _ | _⟩ | _
    · exact h.goes_on hs hp ht (fun held hh => absurd hh (hse held)) rfl
    · exact h.goes_on hs hp ht hse rfl
    · exact h.answer_wait hs hp ht ha
    · exact h.answer_wait hs hp ht ha
    · exact h.goes_on hs hp ht hse rfl
  | _ => exact h.goes_on hs hp ht ha rfl

end

theorem step {l : Label} (h : s.InOrder) (hok : s.Orderly l) : (s.step l).InOrder := by
  cases l with
  | receive frame =>
    rw [Connection.step]
    split
    · rename_i hr
      exact h.receive hr frame
    · exact h
  | receiveClose =>
    rw [Connection.step]
    split
    · exact ⟨h.chained, h.shown, h.line, h.phase, fun _ => ⟨rfl, hok⟩⟩
    · exact h
  | closeAnswered => exact ⟨h.chained, h.shown, h.line, h.phase, fun hc => by cases hc⟩
  | readerEnds =>
    exact ⟨h.chained, h.shown, h.line, h.phase, fun hc => ⟨rfl, (h.closing hc).2⟩⟩
  | advance k batching =>
    rw [Connection.step, act]
    cases hk : s.tasks[k]? with
    | none => exact h
    | some stage =>
      obtain ⟨rfl, ht, hs, hp, ha⟩ := h.phase_of_tasks hk
      have hn := h.advance hs hp ht ha (hok stage hk) batching
      rw [ht]
      cases had : (s.advance batching stage).2 <;> simpa [replaceIdx, had] using hn
  | answer k a =>
    rw [Connection.step, act]
    cases hk : s.tasks[k]? with
    | none => exact h
    | some stage =>
      obtain ⟨rfl, ht, hs, hp, ha⟩ := h.phase_of_tasks hk
      have hn := h.answer hs hp ht ha a
      rw [ht]
      cases han : (s.answer a stage).2 <;> simpa [replaceIdx, han] using hn

theorem tasks_length (h : s.InOrder) : s.tasks.length ≤ 1 := by
  cases ht : s.tasks with
  | nil => exact Nat.zero_le _
  | cons stage rest =>
    have hf : s.tasks[0]? = some stage := by rw [ht]; rfl
    obtain ⟨-, hone, -⟩ := h.phase_of_tasks hf
    rw [ht] at hone
    rw [hone]
    rfl

end InOrder

end Connection

/-- In a run in which a handler task holds a message back, or gives up, while nothing is
queued, and the peer closes while no handler task is running:

* one handler call is in flight at most, that for the peer's close included;
* a message held back is shown again alone, or joined with one more;
* the handler is shown the messages read, in order from the first;
* when no handler task is running, nothing is queued and all of them have been shown. -/
theorem messages_in_order (ls : List Label)
    (hok : Meets Connection.step Connection.Orderly .start ls) :
    let s := run Connection.step .start ls
    (s.tasks.filter Stage.inFlight).length + (if s.closing then 1 else 0) ≤ 1 ∧
      Chained Continues s.shown ∧
      presented Item.parts s.shown <+: s.arrived ∧
      (s.tasks = [] → s.data.queued = [] ∧ presented Item.parts s.shown = s.arrived) := by
  have ho : (run Connection.step .start ls).InOrder :=
    run_invariant_of_meets Connection.InOrder.start (fun _ _ => Connection.InOrder.step) ls hok
  refine ⟨?_, ho.chained, ho.shown, ?_⟩
  · split
    · rename_i hc
      simp [(ho.closing hc).2]
    · exact (length_filter_le _ _).trans ho.tasks_length
  intro ht
  have hl := ho.line
  have hp := ho.phase
  unfold Connection.Phase at hp
  rw [ht] at hl
  split at hp
  · obtain ⟨-, he, hpe, hs⟩ := hp
    rw [he, hpe] at hl
    exact ⟨he, by rw [presented_of_not_held hs]; simpa using hl⟩
  · obtain ⟨stage, hone, -⟩ := hp
    rw [ht] at hone
    cases hone
  · obtain ⟨-, he, held, hpe, hh⟩ := hp
    rw [he, hpe] at hl
    exact ⟨he, by rw [presented_of_held hh]; simpa using hl⟩

/-- A message held back, the one that completes it, and a ping. -/
def heldThenCompleted : List Label :=
  [.receive (.binary [1]), .advance 0 true, .answer 0 (.results true false), .advance 0 true,
    .receive (.binary [2]), .receive (.ping []), .advance 0 true, .answer 0 (.results false false),
    .advance 0 true, .answer 0 (.results false false), .advance 0 true]

theorem messages_in_order_heldThenCompleted :
    (run Connection.step .start heldThenCompleted).shown.map (·.content.inbound) =
      [.binary [1], .binary [1, 2], .ping []] ∧
    presented Item.parts (run Connection.step .start heldThenCompleted).shown =
      (run Connection.step .start heldThenCompleted).arrived :=
  ⟨by decide, ((messages_in_order heldThenCompleted (by decide)).2.2.2 rfl).2⟩

/-- A message is held back while the next is queued. -/
def heldTooEarly : List Label :=
  [.receive (.binary [1]), .advance 0 false, .receive (.binary [2]),
    .answer 0 (.results true false), .advance 0 false]

/-- The next message waits with no handler running, and the one after it goes ahead. -/
theorem not_in_order_heldTooEarly : (run Connection.step .start heldTooEarly).tasks.length = 0 ∧
      (run Connection.step .start heldTooEarly).data.queued.map (·.inbound) = [.binary [2]] ∧
      (run Connection.step .start (heldTooEarly ++ [.receive (.binary [3]), .advance 0 false,
        .answer 0 (.results false false), .advance 0 false])).shown.map (·.content.inbound) =
        [.binary [1], .binary [1, 3], .binary [2]] := by
  decide

end NetGet.WebSocket
