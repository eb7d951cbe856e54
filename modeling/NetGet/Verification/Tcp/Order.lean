import NetGet.Verification.Tcp.Attendance

/-! # One handler call at a time, and bytes in order

The bytes read stand in one line: those shown and answered, those in a task's hands, those queued,
and those of the tasks that have not queued theirs. -/

namespace NetGet.Tcp

open Library Machine Showing List Option Server ConnectionData

namespace Stage

def carried : Stage → Bytes
  | .call payload | .hold payload => payload
  | _ => []

def pending : Stage → Bytes
  | .check data | .queue data | .claim data _ => data
  | _ => []

def resumes : Stage → Bool
  | .rejoin | .remove _ => true
  | _ => false

def inFlight : Stage → Bool
  | .inCall _ _ | .opening => true
  | _ => false

/-- What a task knows of the calls so far. -/
def Agrees (calls : List (Showing Bytes)) : Stage → Prop
  | .claim _ saw => saw ≠ .processing
  | .call payload => ∀ held, Held calls held → held <+: payload
  | .inCall payload number =>
    ∃ earlier, calls = earlier ++ [⟨payload, false⟩] ∧ number = earlier.length
  | .hold payload => Held calls payload
  | .checkQueue | .takeQueue | .goIdle | .opening | .handOver => ∀ held, ¬ Held calls held
  | .check _ | .queue _ | .rejoin | .remove _ => True

@[simp] theorem carried_call (payload : Bytes) : (call payload).carried = payload := rfl

@[simp] theorem pending_call (payload : Bytes) : (call payload).pending = [] := rfl

variable {stage : Stage}

theorem carried_eq_nil (h : stage.owns = false) : stage.carried = [] := by
  cases stage <;> first | rfl | cases h

theorem pending_eq_nil (h : stage.owns = true) : stage.pending = [] := by
  cases stage <;> first | rfl | cases h

end Stage

abbrev inHand (tasks : List Task) : Bytes := tasks.flatMap (·.stage.carried)

abbrev unqueued (tasks : List Task) : Bytes := tasks.flatMap (·.stage.pending)

theorem inHand_eq_nil {tasks : List Task} (h : ∀ t ∈ tasks, t.stage.owns = false) :
    inHand tasks = [] :=
  flatMap_eq_nil_iff.2 fun t ht => Stage.carried_eq_nil (h t ht)

/-! ## The line of bytes -/

/-- What the state says of the last payload. -/
def ConnectionData.Holds (c : ConnectionData) (calls : List (Showing Bytes))
    (tasks : List Task) : Prop :=
  match c.state with
  | .idle => ∀ held, ¬ Held calls held
  | .processing => True
  | .accumulating =>
    ∃ held, Held calls held ∧ held <+: c.queuedData ∧
      (c.queuedData = held ∨ ∃ t ∈ tasks, t.stage.resumes = true)

structure ConnectionData.InLine (c : ConnectionData) (s : Server) : Prop where
  busy : ∀ t ∈ s.tasks, t.stage.owns = true → c.state = .processing
  holds : c.Holds s.calls s.tasks
  bytes : settled id s.calls ++ (inHand s.tasks ++
    (c.queuedData ++ unqueued s.tasks)) = s.arrived

structure Server.InLine (s : Server) : Prop where
  alone : s.tasks.countP (·.stage.owns) ≤ 1
  agrees : ∀ t ∈ s.tasks, t.stage.Agrees s.calls
  chained : Chained (· <+: ·) s.calls
  shown : presented id s.calls <+: s.arrived
  conn : ∀ c ∈ s.conn, c.InLine s

variable {c : ConnectionData} {calls : List (Showing Bytes)}

theorem ConnectionData.Holds.of_processing (h : c.state = .processing)
    (calls : List (Showing Bytes)) (tasks : List Task) : c.Holds calls tasks := by
  unfold Holds
  rw [h]
  trivial

theorem ConnectionData.Holds.of_idle (h : c.state = .idle) (hc : ∀ held, ¬ Held calls held)
    (tasks : List Task) : c.Holds calls tasks := by
  unfold Holds
  rw [h]
  exact hc

theorem ConnectionData.Holds.of_tasks {tasks tasks' : List Task} (h : c.Holds calls tasks)
    (hsub : ∀ t ∈ tasks, t.stage.resumes = true → t ∈ tasks') : c.Holds calls tasks' := by
  unfold Holds at h ⊢
  cases hs : c.state with
  | idle => rwa [hs] at h
  | processing => trivial
  | accumulating =>
    rw [hs] at h
    obtain ⟨held, hh, hp, hall | ⟨t, ht, hr⟩⟩ := h
    · exact ⟨held, hh, hp, .inl hall⟩
    · exact ⟨held, hh, hp, .inr ⟨t, hsub t ht hr, hr⟩⟩

theorem ConnectionData.Holds.replace {front back : List Task} {t : Task}
    (h : c.Holds calls (front ++ t :: back)) (ht : t.stage.resumes = false) (next : Option Task) :
    c.Holds calls (front ++ next.toList ++ back) := by
  refine h.of_tasks ?_
  intro u hu hr
  rcases mem_append.1 hu with hf | hta
  · simp [hf]
  rcases mem_cons.1 hta with rfl | hb
  · rw [ht] at hr
    cases hr
  · simp [hb]

namespace Server.InLine

variable {s s' : Server} {t : Task} {front back : List Task} {next : Option Task}

theorem start (sendFirst : Bool) : (start sendFirst).InLine := by
  cases sendFirst with
  | false =>
    refine ⟨Nat.zero_le _, by simp [Server.start], isChain_nil, prefix_rfl, ?_⟩
    rintro _ ⟨⟩
    exact ⟨by simp [Server.start], .of_idle rfl (by simp [Server.start, Held]) _, rfl⟩
  | true =>
    refine ⟨le_rfl, ?_, isChain_nil, prefix_rfl, ?_⟩
    · simp [Server.start, Stage.Agrees, Held]
    · rintro _ ⟨⟩
      exact ⟨fun _ _ _ => rfl, .of_processing rfl _ _, rfl⟩

theorem others_of_owns (h : s.InLine) (ht : s.tasks = front ++ t :: back)
    (ho : t.stage.owns = true) : ∀ u ∈ front ++ back, u.stage.owns = false := by
  have ha := h.alone
  rw [ht, countP_append, countP_cons, if_pos ho] at ha
  have hz : (front ++ back).countP (·.stage.owns) = 0 := by
    rw [countP_append]
    omega
  intro u hu
  simpa using countP_eq_zero.1 hz u hu

theorem mem_of_others (ht : s.tasks = front ++ t :: back) {u : Task} (hu : u ∈ front ++ back) :
    u ∈ s.tasks :=
  ht ▸ ((sublist_cons_self t back).append_left front).subset hu

theorem forall_tasks (ht' : s'.tasks = front ++ next.toList ++ back) {P : Task → Prop} :
    (∀ u ∈ s'.tasks, P u) ↔ (∀ u ∈ front ++ back, P u) ∧ ∀ u ∈ next, P u := by
  rw [ht']
  simp only [forall_mem_append, mem_toList]
  tauto

variable {c : ConnectionData}

section

variable (h : s.InLine)

include h

theorem bytes_of_others (ht : s.tasks = front ++ t :: back)
    (ho : ∀ u ∈ front ++ back, u.stage.owns = false) (hc : s.conn = some c) :
    settled id s.calls ++ (t.stage.carried ++ (c.queuedData ++
      (unqueued front ++ (t.stage.pending ++ unqueued back)))) =
      s.arrived := by
  have hb := (h.conn c hc).bytes
  have hf := inHand_eq_nil fun u hu => ho u (mem_append_left _ hu)
  have hba := inHand_eq_nil fun u hu => ho u (mem_append_right _ hu)
  rw [ht] at hb
  simpa [hf, hba] using hb

variable (ht : s.tasks = front ++ t :: back) (ht' : s'.tasks = front ++ next.toList ++ back)
  (ha : s'.arrived = s.arrived)

include ht ht' ha

/-- A step of a task that owns the connection after it or before, when no other task does. -/
theorem exclusive (ho : ∀ u ∈ front ++ back, u.stage.owns = false)
    (hne : ∀ u ∈ next, u.stage.Agrees s'.calls) (hc : Chained (· <+: ·) s'.calls)
    (hs : presented id s'.calls <+: s.arrived)
    (hco : ∀ c' ∈ s'.conn, (∀ u ∈ next, u.stage.owns = true → c'.state = .processing) ∧
      c'.Holds s'.calls s'.tasks ∧
      settled id s'.calls ++ (inHand next.toList ++ (c'.queuedData ++
        (unqueued front ++ (unqueued next.toList ++
          unqueued back)))) = s.arrived) : s'.InLine := by
  have hf := fun u hu => ho u (mem_append_left back hu)
  have hback := fun u hu => ho u (mem_append_right front hu)
  refine ⟨?_, ?_, hc, ha ▸ hs, ?_⟩
  · have hfr : front.countP (·.stage.owns) = 0 := countP_eq_zero.2 fun u hu => by simp [hf u hu]
    have hba : back.countP (·.stage.owns) = 0 := countP_eq_zero.2 fun u hu => by simp [hback u hu]
    have hn : next.toList.countP (·.stage.owns) ≤ 1 := by
      cases next with
      | none => exact Nat.zero_le _
      | some u => exact countP_le_length
    rw [ht', countP_append, countP_append]
    omega
  · refine (forall_tasks ht').2 ⟨fun u hu => ?_, hne⟩
    -- only a task that owns the connection knows of its calls
    have hag := h.agrees u (mem_of_others ht hu)
    have hno := ho u hu
    cases hst : u.stage <;> rw [hst] at hag hno <;> first | exact hag | cases hno
  · intro c' hc'
    obtain ⟨hbu, hh, hb⟩ := hco c' hc'
    refine ⟨(forall_tasks ht').2 ⟨fun u hu how => ?_, hbu⟩, hh, ?_⟩
    · exact absurd how (by simp [ho u hu])
    · rw [ht', ha, ← hb]
      simp [inHand_eq_nil hf, inHand_eq_nil hback]

theorem plain (hca : s'.calls = s.calls) (ho : t.stage.owns = false)
    (hn : ∀ u ∈ next, u.stage.owns = false ∧ u.stage.Agrees s.calls)
    (hco : ∀ c' ∈ s'.conn, ∃ c ∈ s.conn, c'.state = c.state ∧ c'.Holds s.calls s'.tasks ∧
      c'.queuedData ++ (unqueued front ++ (unqueued next.toList ++
        unqueued back)) =
      c.queuedData ++ (unqueued front ++ (t.stage.pending ++
        unqueued back))) : s'.InLine := by
  have hcar : inHand next.toList = [] :=
    inHand_eq_nil fun u hu => (hn u (by simpa using hu)).1
  refine ⟨?_, ?_, hca ▸ h.chained, ?_, ?_⟩
  · have hal := h.alone
    have hz : next.toList.countP (·.stage.owns) = 0 :=
      countP_eq_zero.2 fun u hu => by simp [(hn u (by simpa using hu)).1]
    rw [ht, countP_append, countP_cons] at hal
    rw [ht', countP_append, countP_append, hz]
    omega
  · rw [hca]
    exact (forall_tasks ht').2 ⟨fun u hu => h.agrees u (mem_of_others ht hu),
      fun u hu => (hn u hu).2⟩
  · rw [hca, ha]
    exact h.shown
  · intro c' hc'
    obtain ⟨c, hc, hs, hh, hq⟩ := hco c' hc'
    refine ⟨?_, hca ▸ hh, ?_⟩
    · rw [hs]
      exact (forall_tasks ht').2 ⟨fun u hu => (h.conn c hc).busy u (mem_of_others ht hu),
        fun u hu ho' => absurd ho' (by simp [(hn u hu).1])⟩
    · rw [ha, ← (h.conn c hc).bytes, ht, ht', hca]
      simp only [flatMap_append, flatMap_cons, append_assoc, hcar,
        Stage.carried_eq_nil ho, nil_append]
      rw [hq]

theorem owner (how : t.stage.owns = true)
    (hn : ∀ u ∈ next, u.stage.Agrees s'.calls ∧ u.stage.pending = [])
    (hch : Chained (· <+: ·) s'.calls) (hs : presented id s'.calls <+: s.arrived)
    (hco : ∀ c' ∈ s'.conn, ∃ c ∈ s.conn,
      (∀ u ∈ next, u.stage.owns = true → c'.state = .processing) ∧ c'.Holds s'.calls s'.tasks ∧
      settled id s'.calls ++ (inHand next.toList ++ c'.queuedData) =
        settled id s.calls ++ (t.stage.carried ++ c.queuedData)) : s'.InLine := by
  have ho := h.others_of_owns ht how
  refine h.exclusive ht ht' ha ho (fun u hu => (hn u hu).1) hch hs ?_
  intro c' hc'
  obtain ⟨c, hc, hbu, hh, hf⟩ := hco c' hc'
  have hp : unqueued next.toList = [] :=
    flatMap_eq_nil_iff.2 fun u hu => (hn u (by simpa using hu)).2
  have hb := h.bytes_of_others ht ho hc
  refine ⟨hbu, hh, ?_⟩
  rw [Stage.pending_eq_nil how] at hb
  have hl : settled id s'.calls ++ (inHand next.toList ++ c'.queuedData) ++
      (unqueued front ++ unqueued back) =
      settled id s.calls ++ (t.stage.carried ++ c.queuedData) ++
      (unqueued front ++ unqueued back) := by rw [hf]
  rw [hp, ← hb]
  simpa using hl

theorem owner_on (hca : s'.calls = s.calls) (hco : s'.conn = s.conn) (ho : t.stage.owns = true)
    (hn : ∀ u ∈ next, u.stage.Agrees s.calls ∧ u.stage.pending = [])
    (hcar : inHand next.toList = t.stage.carried) : s'.InLine := by
  refine h.owner ht ht' ha ho (hca ▸ hn) (hca ▸ h.chained) (hca ▸ h.shown) ?_
  intro c hc
  rw [hco] at hc
  have hb := (h.conn c hc).busy t (by simp [ht]) ho
  exact ⟨c, hc, fun _ _ _ => hb, .of_processing hb _ _, by rw [hca, hcar]⟩

theorem vacant (hc : s'.calls = s.calls) (hco : s'.conn = none)
    (hn : ∀ u ∈ next, u.stage.Agrees s.calls ∧ (u.stage.owns = true → t.stage.owns = true)) :
    s'.InLine := by
  refine ⟨?_, ?_, hc ▸ h.chained, ?_, by simp [hco]⟩
  · have hal := h.alone
    have hle : next.toList.countP (·.stage.owns) ≤ [t].countP (·.stage.owns) := by
      cases next with
      | none => exact Nat.zero_le _
      | some u =>
        have ho := (hn u rfl).2
        cases hu : u.stage.owns with
        | false => simp [hu]
        | true => simp [hu, ho hu]
    rw [ht, append_cons, countP_append, countP_append] at hal
    rw [ht', countP_append, countP_append]
    omega
  · rw [hc]
    exact (forall_tasks ht').2 ⟨fun u hu => h.agrees u (mem_of_others ht hu),
      fun u hu => (hn u hu).1⟩
  · rw [hc, ha]
    exact h.shown

end

end Server.InLine

/-! ## The steps of a task -/

/-- What an earlier section of the task saw or wrote still stands. -/
def Stage.Stands (c : ConnectionData) : Stage → Prop
  | .queue _ => c.state = .processing
  | .claim _ saw => c.state = saw
  | .rejoin => c.state = .accumulating
  | .goIdle => c.queuedData = []
  | _ => True

instance (c : ConnectionData) : (stage : Stage) → Decidable (stage.Stands c)
  | .queue _ | .claim .. | .rejoin | .goIdle | .check _ | .call _ | .inCall .. | .hold _
  | .checkQueue | .takeQueue | .remove _ | .opening | .handOver => by
    dsimp only [Stage.Stands]
    infer_instance

theorem Stage.Stands.settles {stage : Stage} (h : stage.Stands c) : stage.Settles c := by
  cases stage <;> first | exact h | trivial

def Stage.hands : Stage → Bool
  | .queue _ | .claim _ _ => true
  | _ => false

namespace Server

/-- What an earlier section of the acting task saw still stands, and it hands over its bytes
after all tasks spawned before it. -/
def Undisturbed (s : Server) : Label → Prop
  | .advance k _ => ∀ t ∈ s.tasks[k]?, (∀ c ∈ s.conn, t.stage.Stands c) ∧
      (t.stage.hands = true → ∀ u ∈ s.tasks.take k, u.stage.pending = [])
  | _ => True

instance (s : Server) : (l : Label) → Decidable (s.Undisturbed l)
  | .advance .. | .read _ | .readerEnds | .answer .. => by
    dsimp only [Undisturbed]
    infer_instance

variable {s : Server} {t : Task} {front back : List Task}

abbrev after (p : Server × Option Task) (front back : List Task) : Server :=
  { p.1 with tasks := front ++ p.2.toList ++ back }

theorem after_self (ht : s.tasks = front ++ t :: back) : after (s, some t) front back = s := by
  cases s
  simp_all

namespace InLine

theorem unregistered (h : s.InLine) (ht : s.tasks = front ++ t :: back)
    (hc : s.conn = none) (batching : Bool) : (after (s.advance batching t) front back).InLine := by
  have hag := h.agrees t (by simp [ht])
  obtain ⟨hn, -, ha⟩ := s.advance_frame batching t
  obtain ⟨own, stage⟩ := t
  cases stage with
  | inCall payload number =>
    exact h.vacant ht rfl ha rfl hc (by rintro _ ⟨⟩; exact ⟨hag, fun h => h⟩)
  | checkQueue =>
    refine h.vacant ht rfl ha rfl hc ?_
    simp only [advance, hc]
    rintro _ ⟨⟩
    exact ⟨hag, fun _ => rfl⟩
  | opening =>
    refine h.vacant ht rfl ha rfl hc ?_
    simp only [advance]
    intro u hu
    split at hu
    · cases hu
    · cases hu
      exact ⟨hag, fun h => h⟩
  | remove opening => exact h.vacant ht rfl ha rfl rfl (by rintro _ ⟨⟩)
  | goIdle => exact h.vacant ht rfl ha rfl (hn hc) (by rintro _ ⟨⟩)
  | _ =>
    refine h.vacant ht rfl ha ?_ (hn hc) ?_
    all_goals simp [advance, hc]

section Registered

variable {c : ConnectionData} {own : Bool} {data payload : Bytes} (h : s.InLine)
  (hc : s.conn = some c)

include h hc

theorem takes {stage : Stage} {q : ConnectionData} {b : Bool}
    (ht : s.tasks = front ++ ⟨own, stage⟩ :: back) (hfr : c.state ≠ .processing)
    (how : stage.owns = false) (hf : stage.pending = [] ∨ ∀ u ∈ front, u.stage.pending = [])
    (hq : q.queuedData = c.queuedData ++ stage.pending) (hs : q.state = .processing)
    (hall : c.state = .accumulating → b = true) :
    (after ({ s with conn := some (q.takeNext b).2 }, some ⟨own, .call (q.takeNext b).1⟩)
      front back).InLine := by
  have ho : ∀ u ∈ front ++ back, u.stage.owns = false := by
    intro u hu
    by_contra ho
    exact hfr ((h.conn c hc).busy u (mem_of_others ht hu) (by simpa using ho))
  have hbu : (q.takeNext b).2.state = .processing := (q.state_takeNext b).trans hs
  refine h.exclusive ht rfl rfl ho ?_ h.chained h.shown ?_
  · rintro _ ⟨⟩ payload hp
    have hh := (h.conn c hc).holds
    unfold ConnectionData.Holds at hh
    cases hst : c.state with
    | idle =>
      rw [hst] at hh
      exact absurd hp (hh payload)
    | processing => exact absurd hst hfr
    | accumulating =>
      rw [hst] at hh
      obtain ⟨last, hla, hpr, -⟩ := hh
      have hsa : last = payload := congrArg Showing.content (some.inj (hla.symm.trans hp))
      rw [hall hst, takeNext, if_pos (.inl rfl), hq, ← hsa]
      exact hpr.trans (prefix_append _ _)
  rintro _ ⟨⟩
  refine ⟨fun _ _ _ => hbu, .of_processing hbu _ _, ?_⟩
  have hb := h.bytes_of_others ht ho hc
  have hsp := q.takeNext_append b
  have hl : settled id s.calls ++ ((q.takeNext b).1 ++ (q.takeNext b).2.queuedData ++
        (unqueued front ++ unqueued back)) =
      settled id s.calls ++ (c.queuedData ++ stage.pending ++
        (unqueued front ++ unqueued back)) := by
    rw [hsp, hq]
  have hm : stage.pending ++ unqueued front =
      unqueued front ++ stage.pending := by
    rcases hf with he | hf
    · simp [he]
    · simp [flatMap_eq_nil_iff.2 hf]
  rw [← hb, Stage.carried_eq_nil how]
  simp only [toList_some, flatMap_singleton, Stage.carried_call, Stage.pending_call,
    nil_append, append_assoc] at hl ⊢
  rw [hl, ← append_assoc stage.pending, hm, append_assoc]

variable (batching : Bool)

theorem check (ht : s.tasks = front ++ ⟨own, .check data⟩ :: back) :
    (after (s.advance batching ⟨own, .check data⟩) front back).InLine := by
  have hh := (h.conn c hc).holds
  rw [ht] at hh
  have ha : s.advance batching ⟨own, .check data⟩ = (s, some ⟨batching,
      if c.state = .processing then .queue data else .claim data c.state⟩) := by
    simp only [advance, hc]
  rw [ha]
  refine h.plain ht rfl rfl rfl rfl ?_ ?_
  · rintro _ ⟨⟩
    split
    · exact ⟨rfl, trivial⟩
    · rename_i hs
      exact ⟨rfl, hs⟩
  · intro c' hc'
    obtain rfl := some.inj (hc.symm.trans hc')
    refine ⟨c, hc, rfl, hh.replace rfl _, ?_⟩
    split <;> simp [Stage.pending]

theorem queue (ht : s.tasks = front ++ ⟨own, .queue data⟩ :: back) (hb : c.state = .processing)
    (hf : ∀ u ∈ front, u.stage.pending = []) :
    (after (s.advance batching ⟨own, .queue data⟩) front back).InLine := by
  have hn : unqueued front = [] := flatMap_eq_nil_iff.2 hf
  simp only [advance, hc]
  refine h.plain ht rfl rfl rfl rfl ?_ ?_
  · intro u hu
    split at hu
    · cases hu
      exact ⟨rfl, trivial⟩
    · cases hu
  rintro _ ⟨⟩
  refine ⟨c, hc, state_queue data, .of_processing ?_ _ _, ?_⟩
  · rw [state_queue, hb]
  · rw [hn, queuedData_queue]
    split <;> simp [Stage.pending]

theorem claim {saw : ConnectionState} (ht : s.tasks = front ++ ⟨own, .claim data saw⟩ :: back)
    (hs : c.state = saw) (hf : ∀ u ∈ front, u.stage.pending = []) :
    (after (s.advance batching ⟨own, .claim data saw⟩) front back).InLine := by
  have ha : saw ≠ .processing := h.agrees ⟨own, .claim data saw⟩ (by simp [ht])
  have hta := h.takes (q := { c with state := .processing }.queue data)
    (b := own || decide (saw = .accumulating)) hc ht (hs ▸ ha) rfl (.inr hf)
    (queuedData_queue data) (state_queue data)
    (fun hacc => by simp [← hs, hacc])
  simpa only [advance, hc] using hta

theorem rejoin (ht : s.tasks = front ++ ⟨own, .rejoin⟩ :: back) (hs : c.state = .accumulating) :
    (after (s.advance batching ⟨own, .rejoin⟩) front back).InLine := by
  have hta := h.takes (q := { c with state := .processing }) (b := true) hc ht
    (by simp [hs]) rfl (.inl rfl) (append_nil _).symm rfl (fun _ => rfl)
  simpa only [advance, hc] using hta

theorem call (ht : s.tasks = front ++ ⟨own, .call payload⟩ :: back) :
    (after (s.advance batching ⟨own, .call payload⟩) front back).InLine := by
  have ha := h.agrees ⟨own, .call payload⟩ (by simp [ht])
  have hbu := (h.conn c hc).busy ⟨own, .call payload⟩ (by simp [ht]) rfl
  have hb := h.bytes_of_others ht (h.others_of_owns ht rfl) hc
  simp only [advance, hc]
  refine h.owner ht rfl rfl rfl ?_ (h.chained.concat ha) ?_ ?_
  · rintro _ ⟨⟩
    exact ⟨⟨s.calls, rfl, rfl⟩, rfl⟩
  · rw [presented_concat, ← hb, ← append_assoc]
    exact prefix_append _ _
  · rintro _ ⟨⟩
    refine ⟨c, hc, fun _ _ _ => hbu, .of_processing hbu _ _, ?_⟩
    rw [settled_concat]
    simp [Stage.carried]

theorem hold (ht : s.tasks = front ++ ⟨own, .hold payload⟩ :: back) :
    (after (s.advance batching ⟨own, .hold payload⟩) front back).InLine := by
  have ha : Held s.calls payload := h.agrees ⟨own, .hold payload⟩ (by simp [ht])
  simp only [advance, hc]
  refine h.owner ht rfl rfl rfl ?_ h.chained h.shown ?_
  · intro u hu
    split at hu
    · cases hu
      exact ⟨trivial, rfl⟩
    split at hu
    · cases hu
      exact ⟨trivial, rfl⟩
    · cases hu
  rintro _ ⟨⟩
  refine ⟨c, hc, ?_, ⟨payload, ha, prefix_append _ _, ?_⟩, ?_⟩
  · intro u hu ho
    split at hu
    · cases hu
      cases ho
    split at hu
    · cases hu
      cases ho
    · cases hu
  · by_cases he : c.queuedData = []
    · exact .inl (by simp [holdAsOne, he])
    refine .inr ?_
    split
    · exact ⟨⟨own, .remove false⟩, by simp, rfl⟩
    · exact ⟨⟨own, .rejoin⟩, by simp, rfl⟩
  · split
    · simp [holdAsOne, Stage.carried]
    · split <;> simp [holdAsOne, Stage.carried]

theorem takeQueue (ht : s.tasks = front ++ ⟨own, .takeQueue⟩ :: back) :
    (after (s.advance batching ⟨own, .takeQueue⟩) front back).InLine := by
  have ha : ∀ held, ¬ Held s.calls held := h.agrees ⟨own, .takeQueue⟩ (by simp [ht])
  have hb := (h.conn c hc).busy ⟨own, .takeQueue⟩ (by simp [ht]) rfl
  have hb' := (c.state_takeNext own).trans hb
  simp only [advance, hc]
  refine h.owner ht rfl rfl rfl ?_ h.chained h.shown ?_
  · rintro _ ⟨⟩
    split
    · exact ⟨ha, rfl⟩
    · exact ⟨fun held hh => absurd hh (ha held), rfl⟩
  rintro _ ⟨⟩
  refine ⟨c, hc, fun _ _ _ => hb', .of_processing hb' _ _, ?_⟩
  have hs := c.takeNext_append own
  split
  · rename_i he
    rw [he] at hs
    simpa [Stage.carried] using hs
  · simpa [Stage.carried] using hs

theorem goIdle (ht : s.tasks = front ++ ⟨own, .goIdle⟩ :: back) :
    (after (s.advance batching ⟨own, .goIdle⟩) front back).InLine := by
  have ha : ∀ held, ¬ Held s.calls held := h.agrees ⟨own, .goIdle⟩ (by simp [ht])
  simp only [advance, hc]
  refine h.owner ht rfl rfl rfl (by rintro _ ⟨⟩) h.chained h.shown ?_
  rintro _ ⟨⟩
  exact ⟨c, hc, by rintro _ ⟨⟩, .of_idle rfl ha _, rfl⟩

theorem handOver (ht : s.tasks = front ++ ⟨own, .handOver⟩ :: back) :
    (after (s.advance batching ⟨own, .handOver⟩) front back).InLine := by
  have ha : ∀ held, ¬ Held s.calls held := h.agrees ⟨own, .handOver⟩ (by simp [ht])
  simp only [advance, hc]
  refine h.owner ht rfl rfl rfl ?_ h.chained h.shown ?_
  · intro u hu
    split at hu
    · cases hu
    · cases hu
      exact ⟨trivial, rfl⟩
  rintro _ ⟨⟩
  refine ⟨c, hc, ?_, .of_idle rfl ha _, ?_⟩
  · intro u hu ho
    split at hu
    · cases hu
    · cases hu
      cases ho
  · split <;> rfl

theorem registered (ht : s.tasks = front ++ t :: back) (hs : t.stage.Stands c)
    (hf : t.stage.hands = true → ∀ u ∈ front, u.stage.pending = []) :
    (after (s.advance batching t) front back).InLine := by
  have ha := h.agrees t (by simp [ht])
  obtain ⟨own, stage⟩ := t
  cases stage with
  | check data => exact h.check hc batching ht
  | queue data => exact h.queue hc batching ht hs (hf rfl)
  | claim data saw => exact h.claim hc batching ht hs (hf rfl)
  | call payload => exact h.call hc batching ht
  | inCall payload number =>
    exact h.owner_on ht rfl rfl rfl rfl rfl (by rintro _ ⟨⟩; exact ⟨ha, rfl⟩) rfl
  | hold payload => exact h.hold hc batching ht
  | rejoin => exact h.rejoin hc batching ht hs
  | checkQueue =>
    refine h.owner_on ht rfl rfl rfl rfl rfl ?_ ?_
    all_goals simp only [advance, hc]
    · rintro _ ⟨⟩
      split <;> exact ⟨ha, rfl⟩
    · split <;> rfl
  | takeQueue => exact h.takeQueue hc batching ht
  | goIdle => exact h.goIdle hc batching ht
  | remove opening => exact h.vacant ht rfl rfl rfl rfl (by rintro _ ⟨⟩)
  | opening =>
    refine h.owner_on ht rfl rfl rfl rfl rfl ?_ ?_
    all_goals simp only [advance]
    · intro u hu
      split at hu
      · cases hu
      · cases hu
        exact ⟨ha, rfl⟩
    · split <;> rfl
  | handOver => exact h.handOver hc batching ht

end Registered

theorem answer_wait {payload : Bytes} {number : ℕ} {own close : Bool} (h : s.InLine)
    (ht : s.tasks = front ++ ⟨own, .inCall payload number⟩ :: back) :
    (after (s.answer (.results true close) ⟨own, .inCall payload number⟩) front back).InLine := by
  obtain ⟨earlier, hca, rfl⟩ := h.agrees ⟨own, .inCall payload number⟩ (by simp [ht])
  have hch := h.chained
  have hs := h.shown
  rw [hca] at hch hs
  have hm : s.calls.modify earlier.length (fun call => { call with again := true }) =
      earlier ++ [⟨payload, true⟩] := by
    rw [hca]
    exact modify_length_concat earlier _ _
  simp only [answer, hm]
  refine h.owner ht rfl rfl rfl ?_ (hch.mark true) ?_ ?_
  · rintro _ ⟨⟩
    exact ⟨held_concat.2 rfl, rfl⟩
  · rw [presented_concat] at hs ⊢
    exact hs
  · intro c hc
    have hb := (h.conn c hc).busy ⟨own, .inCall payload earlier.length⟩ (by simp [ht]) rfl
    refine ⟨c, hc, fun _ _ _ => hb, .of_processing hb _ _, ?_⟩
    rw [hca, settled_concat, settled_concat]
    simp [Stage.carried]

theorem answer (h : s.InLine) (ht : s.tasks = front ++ t :: back) (a : Answer) :
    (after (s.answer a t) front back).InLine := by
  have ha := h.agrees t (by simp [ht])
  obtain ⟨own, stage⟩ := t
  cases stage with
  | inCall payload number =>
    obtain ⟨earlier, hc, -⟩ := ha
    have hs : ∀ held, ¬ Held s.calls held := by
      intro held hh
      rw [hc, held_concat] at hh
      cases hh
    rcases a with ⟨_ | _, _ | _⟩ | _
    · exact h.owner_on ht rfl rfl rfl rfl rfl (by rintro _ ⟨⟩; exact ⟨hs, rfl⟩) rfl
    · exact h.owner_on ht rfl rfl rfl rfl rfl (by rintro _ ⟨⟩; exact ⟨trivial, rfl⟩) rfl
    · exact h.answer_wait ht
    · exact h.answer_wait ht
    · exact h.owner_on ht rfl rfl rfl rfl rfl (by rintro _ ⟨⟩; exact ⟨trivial, rfl⟩) rfl
  | opening =>
    rcases a with ⟨_, _ | _⟩ | _ <;> refine h.owner_on ht rfl rfl rfl rfl rfl ?_ rfl <;>
      rintro _ ⟨⟩
    · exact ⟨ha, rfl⟩
    · exact ⟨trivial, rfl⟩
    · exact ⟨trivial, rfl⟩
  | _ =>
    change (after (s, some _) front back).InLine
    rw [after_self ht]
    exact h

theorem step {l : Label} (h : s.InLine) (hok : s.Undisturbed l) : (s.step l).InLine := by
  cases l with
  | read data =>
    rw [Server.step]
    split
    · refine ⟨?_, ?_, h.chained, h.shown.trans (prefix_append _ _), ?_⟩
      · simpa [countP_append, Stage.owns] using h.alone
      · exact forall_mem_append.2 ⟨h.agrees, forall_mem_singleton.2 trivial⟩
      · intro c hc
        obtain ⟨hbu, hh, hb⟩ := h.conn c hc
        refine ⟨forall_mem_append.2 ⟨hbu, forall_mem_singleton.2 (by simp [Stage.owns])⟩, ?_, ?_⟩
        · exact hh.of_tasks fun t ht _ => mem_append_left _ ht
        · simp only
          rw [← hb]
          simp [inHand, unqueued, Stage.carried, Stage.pending]
    · exact h
  | readerEnds =>
    rw [Server.step]
    split
    · exact ⟨h.alone, h.agrees, h.chained, h.shown, by rintro _ ⟨⟩⟩
    · exact h
  | advance k batching =>
    rw [Server.step, act]
    cases ht : s.tasks[k]? with
    | none => exact h
    | some t =>
      obtain ⟨back, hta, hr⟩ := exists_replace ht
      simp only [hr]
      cases hco : s.conn with
      | none => exact h.unregistered hta hco batching
      | some c =>
        obtain ⟨hs, hf⟩ := hok t ht
        exact h.registered hco batching hta (hs c hco) hf
  | answer k a =>
    rw [Server.step, act]
    cases ht : s.tasks[k]? with
    | none => exact h
    | some t =>
      obtain ⟨back, hta, hr⟩ := exists_replace ht
      simp only [hr]
      exact h.answer hta a

end InLine

theorem Undisturbed.settles {l : Label} (h : s.Undisturbed l) : s.Settles l := by
  cases l with
  | advance k batching =>
    intro t ht c hc
    exact ((h t ht).1 c hc).settles
  | _ => trivial

end Server

/-- In a run in which every section still finds what its task saw before, and tasks hand over
their bytes in the order of the reads:

* one handler call is in flight at most;
* a payload to be shown again is the beginning of the next;
* the handler is shown the bytes read from the socket, in order from the first, and all of them
  whenever the connection is registered and no task of it is left. -/
theorem one_call_bytes_in_order (sendFirst : Bool) (ls : List Label)
    (hok : Meets Server.step Server.Undisturbed (.start sendFirst) ls) :
    let s := run Server.step (.start sendFirst) ls
    (s.tasks.filter (·.stage.inFlight)).length ≤ 1 ∧ Chained (· <+: ·) s.calls ∧
      presented id s.calls <+: s.arrived ∧
      (s.conn.isSome → s.tasks = [] → presented id s.calls = s.arrived) := by
  have hl : (run Server.step (.start sendFirst) ls).InLine :=
    run_invariant_of_meets (Server.InLine.start sendFirst) (fun _ _ => Server.InLine.step) ls hok
  have ha : (run Server.step (.start sendFirst) ls).Attended :=
    Server.attended_run fun front l rest heq => (hok front l rest heq).settles
  refine ⟨?_, hl.chained, hl.shown, ?_⟩
  · rw [← countP_eq_length_filter]
    refine (countP_mono_left ?_).trans hl.alone
    rintro ⟨own, stage⟩ - hf
    cases stage <;> first | rfl | cases hf
  intro hso hn
  obtain ⟨c, hc⟩ := isSome_iff_exists.1 hso
  obtain ⟨-, hh, hb⟩ := hl.conn c hc
  have hs := ha.conn c hc
  rw [hn] at hh hb hs
  simp only [flatMap_nil, nil_append, append_nil] at hb
  unfold ConnectionData.Holds at hh
  rcases hs with hacc | ⟨hi, he⟩ | ⟨t, ht, -⟩
  · rw [hacc] at hh
    obtain ⟨held, hhe, -, hall | ⟨t, ht, -⟩⟩ := hh
    · rw [presented_of_held hhe, ← hall]
      exact hb
    · cases ht
  · rw [hi] at hh
    rw [presented_of_not_held hh, ← hb, he, append_nil]
  · cases ht

def completed : List Label :=
  [.read [1], .advance 0 false, .advance 0 false, .advance 0 false, .answer 0 (.results true false),
    .advance 0 false, .read [2], .advance 0 false, .advance 0 false, .advance 0 false,
    .answer 0 (.results false false), .advance 0 false, .advance 0 false]

theorem one_call_bytes_in_order_completed :
    (run Server.step (.start false) completed).calls.map (·.content) = [[1], [1, 2]] ∧
      presented id (run Server.step (.start false) completed).calls =
        (run Server.step (.start false) completed).arrived :=
  ⟨by decide, (one_call_bytes_in_order false completed (by decide)).2.2.2 rfl rfl⟩

/-- Two reads whose tasks both see `Idle` before either goes to `Processing`. -/
def bothSeeIdle : List Label :=
  [.read [1], .read [2], .advance 0 false, .advance 1 false, .advance 1 false, .advance 1 false,
    .advance 0 false, .advance 0 false]

theorem not_one_call_bothSeeIdle :
    ((run Server.step (.start false) bothSeeIdle).tasks.filter (·.stage.inFlight)).length = 2 ∧
      (run Server.step (.start false) bothSeeIdle).calls.map (·.content) = [[2], [1]] ∧
      (run Server.step (.start false) bothSeeIdle).arrived = [1, 2] := by
  decide

end NetGet.Tcp
