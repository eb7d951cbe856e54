import NetGet.Model.Tcp

/-! # Nothing is left in the queue of an idle connection -/

namespace NetGet.Tcp

open Library Machine List

def Stage.owns : Stage → Bool
  | .call _ | .inCall _ _ | .hold _ | .checkQueue | .takeQueue | .goIdle | .opening
  | .handOver => true
  | .check _ | .queue _ | .claim _ _ | .rejoin | .remove _ => false

def Stage.removes : Stage → Bool
  | .remove _ => true
  | _ => false

/-- The task will change the state it is about, or take what is queued. -/
def Stage.serves (stage : Stage) : ConnectionState → Bool
  | .processing => stage.owns || stage.removes
  | .idle => decide (stage = .check [] ∨ stage = .claim [] .idle)
  | .accumulating => false

theorem Stage.processing_of_serves {stage : Stage} {state : ConnectionState}
    (ho : stage.owns = true) (h : stage.serves state = true) : state = .processing := by
  cases state with
  | idle =>
    rcases of_decide_eq_true h with rfl | rfl <;> cases ho
  | processing => rfl
  | accumulating => cases h

namespace ConnectionData

/-- An idle connection has nothing queued, unless a task is about to take it, and a busy one
has a task that is busy with it. -/
def Attended (c : ConnectionData) (tasks : List Task) : Prop :=
  c.state = .accumulating ∨ (c.state = .idle ∧ c.queuedData = []) ∨
    ∃ t ∈ tasks, t.stage.serves c.state = true

variable {c c' : ConnectionData} {tasks front back : List Task} {t : Task} {next : Option Task}

theorem Attended.mono (h : c.Attended tasks) {tasks' : List Task} (hsub : tasks ⊆ tasks') :
    c.Attended tasks' := by
  rcases h with hst | hr | ⟨t, ht, hs⟩
  · exact .inl hst
  · exact .inr (.inl hr)
  · exact .inr (.inr ⟨t, hsub ht, hs⟩)

theorem Attended.of_next (hn : ∃ u ∈ next, u.stage.serves c.state = true) :
    c.Attended (front ++ next.toList ++ back) := by
  obtain ⟨u, hu, hs⟩ := hn
  exact .inr (.inr ⟨u, by simp [Option.mem_def.1 hu], hs⟩)

theorem Attended.replace (h : c.Attended (front ++ t :: back)) (hs : c'.state = c.state)
    (hq : c.queuedData = [] → c.state = .idle → c'.queuedData = [])
    (hn : t.stage.serves c.state = true → ∃ u ∈ next, u.stage.serves c.state = true) :
    c'.Attended (front ++ next.toList ++ back) := by
  rcases h with hacc | ⟨hi, he⟩ | ⟨u, hu, hse⟩
  · exact .inl (hs.trans hacc)
  · exact .inr (.inl ⟨hs.trans hi, hq he hi⟩)
  · rcases mem_append.1 hu with hf | ht
    · exact .inr (.inr ⟨u, by simp [hf], hs ▸ hse⟩)
    · rcases mem_cons.1 ht with rfl | hb
      · exact .of_next (hs ▸ hn hse)
      · exact .inr (.inr ⟨u, by simp [hb], hs ▸ hse⟩)

theorem Attended.replace_owner (h : c.Attended (front ++ t :: back))
    (ho : t.stage.owns = true) (hst : c'.state = c.state)
    (hq : c.queuedData = [] → c'.queuedData = [])
    (hn : ∃ u ∈ next, u.stage.serves .processing = true) :
    c'.Attended (front ++ next.toList ++ back) := by
  refine h.replace hst (fun he _ => hq he) ?_
  intro hs
  rw [Stage.processing_of_serves ho hs]
  exact hn

@[simp] theorem state_queue (data : Bytes) : (c.queue data).state = c.state := by
  unfold queue
  split <;> rfl

@[simp] theorem state_takeNext (batching : Bool) : (c.takeNext batching).2.state = c.state := by
  unfold takeNext
  split <;> rfl

theorem queuedData_queue (data : Bytes) : (c.queue data).queuedData = c.queuedData ++ data := by
  unfold queue
  split
  · rename_i he
    rw [he, append_nil]
  · rfl

theorem takeNext_append (batching : Bool) :
    (c.takeNext batching).1 ++ (c.takeNext batching).2.queuedData = c.queuedData := by
  unfold takeNext
  split
  · exact append_nil _
  · exact take_append_drop _ _

end ConnectionData

/-- What an earlier section of the task saw still stands: the connection is busy when its
bytes are queued, and nothing is queued when it goes to `Idle`. -/
def Stage.Settles (c : ConnectionData) : Stage → Prop
  | .queue _ => c.state = .processing
  | .goIdle => c.queuedData = []
  | _ => True

instance (c : ConnectionData) (stage : Stage) : Decidable (stage.Settles c) := by
  cases stage <;> unfold Stage.Settles <;> infer_instance

structure Server.Attended (s : Server) : Prop where
  reader : s.reader = .gone → s.conn = none
  conn : ∀ c ∈ s.conn, c.Attended s.tasks

namespace Server.Attended

variable {s : Server} {t : Task} {front back : List Task}

theorem start (sendFirst : Bool) : (Server.start sendFirst).Attended := by
  cases sendFirst with
  | false => exact ⟨by simp [Server.start], by rintro _ ⟨⟩; exact .inr (.inl ⟨rfl, rfl⟩)⟩
  | true =>
    refine ⟨by simp [Server.start], ?_⟩
    rintro _ ⟨⟩
    exact .inr (.inr ⟨_, mem_singleton_self _, rfl⟩)

theorem conn_advance (h : s.Attended) (ht : s.tasks = front ++ t :: back) (batching : Bool)
    (hok : ∀ c ∈ s.conn, t.stage.Settles c) : ∀ c ∈ (s.advance batching t).1.conn,
      c.Attended (front ++ (s.advance batching t).2.toList ++ back) := by
  have hold := ht ▸ h.conn
  obtain ⟨own, stage⟩ := t
  intro c' hc'
  cases hco : s.conn with
  | none => cases stage <;> simp_all [advance]
  | some c =>
    have hc := hold c hco
    have hs := hok c hco
    cases stage <;> simp only [advance, hco] at hc' ⊢
    case remove => cases hc'
    case opening =>
      have hr : s.reader ≠ .gone := by
        intro hg
        have hn := h.reader hg
        rw [hco] at hn
        cases hn
      rw [if_neg hr]
      cases hc'
      exact hc.replace_owner rfl rfl (fun h => h) ⟨_, rfl, rfl⟩
    all_goals obtain rfl := Option.some.inj hc'
    case check data =>
      refine hc.replace rfl (fun h _ => h) ?_
      cases c.state <;> simp [Stage.serves, Stage.owns, Stage.removes]
    case queue data =>
      have hb : c.state = .processing := hs
      refine hc.replace (ConnectionData.state_queue data) ?_ ?_
      · rw [hb]
        exact fun _ h => by cases h
      · rw [hb]
        exact fun h => by cases h
    case claim | rejoin => exact .of_next ⟨_, rfl, by simp [Stage.serves, Stage.owns]⟩
    case call | inCall => exact hc.replace_owner rfl rfl (fun h => h) ⟨_, rfl, rfl⟩
    case hold payload => exact .inl rfl
    case checkQueue =>
      refine hc.replace_owner rfl rfl (fun h => h) ⟨_, rfl, ?_⟩
      split <;> rfl
    case takeQueue =>
      refine hc.replace_owner rfl (ConnectionData.state_takeNext own) ?_ ⟨_, rfl, ?_⟩
      · intro he
        have hsp := c.takeNext_append own
        rw [he] at hsp
        exact (append_eq_nil_iff.1 hsp).2
      · split <;> rfl
    case goIdle => exact .inr (.inl ⟨rfl, hs⟩)
    case handOver =>
      split
      · rename_i he
        exact .inr (.inl ⟨rfl, he⟩)
      · exact .of_next ⟨_, rfl, rfl⟩

theorem conn_answer (h : s.Attended) (ht : s.tasks = front ++ t :: back) (a : Answer) :
    ∀ c ∈ (s.answer a t).1.conn, c.Attended (front ++ (s.answer a t).2.toList ++ back) := by
  have hold := ht ▸ h.conn
  obtain ⟨own, stage⟩ := t
  intro c hc
  cases stage with
  | inCall payload number =>
    rcases a with ⟨_ | _, _ | _⟩ | _
    all_goals exact (hold c hc).replace_owner rfl rfl (fun h => h) ⟨_, rfl, rfl⟩
  | opening =>
    rcases a with ⟨_, _ | _⟩ | _
    all_goals exact (hold c hc).replace_owner rfl rfl (fun h => h) ⟨_, rfl, rfl⟩
  | _ => exact (hold c hc).replace rfl (fun h _ => h) fun h => ⟨_, rfl, h⟩

end Server.Attended

namespace Server

variable {s : Server}

theorem Reader.opened_eq_gone {r : Reader} (h : r.opened = .gone) : r = .gone := by
  cases r with
  | waiting | reading => cases h
  | gone => rfl

theorem advance_frame (batching : Bool) (t : Task) :
    (s.conn = none → (s.advance batching t).1.conn = none) ∧
      ((s.advance batching t).1.reader = .gone → s.reader = .gone) ∧
      (s.advance batching t).1.arrived = s.arrived := by
  obtain ⟨own, stage⟩ := t
  cases stage with
  | remove opening =>
    refine ⟨fun _ => rfl, ?_, rfl⟩
    cases opening with
    | false => exact fun h => h
    | true => exact Reader.opened_eq_gone
  | inCall | checkQueue | opening => exact ⟨fun h => h, fun h => h, rfl⟩
  | goIdle => exact ⟨fun h => by simp [advance, h], fun h => h, rfl⟩
  | _ => cases hc : s.conn <;> simp [advance, hc]

theorem answer_frame (a : Answer) (t : Task) :
    (s.answer a t).1.conn = s.conn ∧ ((s.answer a t).1.reader = .gone → s.reader = .gone) := by
  obtain ⟨own, stage⟩ := t
  cases stage with
  | inCall payload number =>
    rcases a with ⟨_ | _, _ | _⟩ | _
    all_goals exact ⟨rfl, fun h => h⟩
  | opening =>
    rcases a with ⟨_, _ | _⟩ | _
    · exact ⟨rfl, Reader.opened_eq_gone⟩
    · exact ⟨rfl, fun h => h⟩
    · exact ⟨rfl, fun h => h⟩
  | _ => exact ⟨rfl, fun h => h⟩

/-- What an earlier section of the acting task saw about the queue still stands. -/
def Settles (s : Server) : Label → Prop
  | .advance k _ => ∀ t ∈ s.tasks[k]?, ∀ c ∈ s.conn, t.stage.Settles c
  | _ => True

instance (s : Server) (l : Label) : Decidable (s.Settles l) := by
  cases l <;> unfold Settles <;> infer_instance

theorem Attended.step {l : Label} (h : s.Attended) (hok : s.Settles l) : (s.step l).Attended := by
  cases l with
  | read data =>
    rw [Server.step]
    split
    · refine ⟨h.reader, ?_⟩
      intro c hc
      exact (h.conn c hc).mono (subset_append_left _ _)
    · exact h
  | readerEnds =>
    rw [Server.step]
    split
    · exact ⟨fun _ => rfl, fun c hc => by cases hc⟩
    · exact h
  | advance k batching =>
    rw [Server.step, act]
    cases ht : s.tasks[k]? with
    | none => exact h
    | some t =>
      obtain ⟨back, hta, hr⟩ := exists_replace ht
      obtain ⟨hco, hre, -⟩ := s.advance_frame batching t
      refine ⟨fun hg => hco (h.reader (hre hg)), ?_⟩
      simp only [hr]
      exact h.conn_advance hta batching (hok t ht)
  | answer k a =>
    rw [Server.step, act]
    cases ht : s.tasks[k]? with
    | none => exact h
    | some t =>
      obtain ⟨back, hta, hr⟩ := exists_replace ht
      obtain ⟨hco, hre⟩ := s.answer_frame a t
      refine ⟨fun hg => hco.trans (h.reader (hre hg)), ?_⟩
      simp only [hr]
      exact h.conn_answer hta a

theorem attended_run {sendFirst : Bool} {ls : List Label}
    (hok : Meets step Settles (start sendFirst) ls) : (run step (start sendFirst) ls).Attended :=
  run_invariant_of_meets (Attended.start sendFirst) (fun _ _ => Attended.step) ls hok

end Server

/-- In a run in which a task queues while the connection is still busy, and goes to `Idle` while
still nothing is queued, an idle connection that no task looks after has nothing queued. -/
theorem idle_queue_empty (sendFirst : Bool) (ls : List Label)
    (hok : Meets Server.step Server.Settles (.start sendFirst) ls) (c : ConnectionData)
    (hconn : (run Server.step (.start sendFirst) ls).conn = some c)
    (htasks : (run Server.step (.start sendFirst) ls).tasks = [])
    (hidle : c.state = .idle) : c.queuedData = [] := by
  have ha := (Server.attended_run hok).conn c hconn
  rw [htasks] at ha
  rcases ha with hacc | hr | ⟨t, ht, -⟩
  · rw [hidle] at hacc
    cases hacc
  · exact hr.2
  · cases ht

def answeredInTurn : List Label :=
  [.read [1], .advance 0 false, .advance 0 false, .advance 0 false, .read [2], .advance 1 false,
    .advance 1 false, .answer 0 (.results false false), .advance 0 false, .advance 0 false,
    .advance 0 false, .answer 0 (.results false false), .advance 0 false, .advance 0 false]

theorem idle_queue_empty_answeredInTurn :
    ∃ c, (run Server.step (.start false) answeredInTurn).conn = some c ∧
      (run Server.step (.start false) answeredInTurn).tasks = [] ∧ c.state = .idle ∧
      c.queuedData = [] :=
  ⟨_, rfl, rfl, rfl, idle_queue_empty false answeredInTurn (by decide) _ rfl rfl rfl⟩

/-- The second read sees `Processing`, the first task sees nothing queued; then the one queues
and the other goes to `Idle`. -/
def queuedTooLate : List Label :=
  [.read [1], .advance 0 false, .advance 0 false, .advance 0 false, .read [2], .advance 1 false,
    .answer 0 (.results false false), .advance 0 false, .advance 1 false, .advance 0 false]

theorem not_idle_queue_empty_queuedTooLate :
    ∃ c, (run Server.step (.start false) queuedTooLate).conn = some c ∧
      (run Server.step (.start false) queuedTooLate).tasks = [] ∧ c.state = .idle ∧
      c.queuedData = [2] :=
  ⟨_, rfl, rfl, rfl, rfl⟩

end NetGet.Tcp
