import NetGet.Library.Machine
import NetGet.Verification.AppState.Equations

/-! # Tasks by name -/

namespace NetGet.AppStateInner

open Library Machine AList

def nameOf (s : AppStateInner) (id : TaskId) : Option String :=
  (s.tasks.lookup id).map ScheduledTask.name

/-- With a task go the older ones of its name. -/
def Downward (s : AppStateInner) (ids : List TaskId) : Prop :=
  ∀ i j name, s.nameOf i = some name → s.nameOf j = some name → i ≤ j → j ∈ ids → i ∈ ids

/-- The calls that add and remove tasks, where no removal leaves an older task of the same name. -/
def NamesKept (s : AppStateInner) : Clock × Op → Prop
  | (_, .addTask _) => True
  | (_, .removeTask id) => s.Downward [id]
  | (_, .cleanupServerTasks sid) => s.Downward (s.taskIds (ofServer sid))
  | (_, .cleanupConnectionTasks sid cid) => s.Downward (s.taskIds (ofConnection sid cid))
  | (_, .cleanupClientTasks cid) => s.Downward (s.taskIds (ofClient cid))
  | _ => False

structure Indexed (s : AppStateInner) : Prop where
  newest : ∀ name id, s.taskNames.lookup name = some id →
    s.nameOf id = some name ∧ ∀ i, s.nameOf i = some name → i ≤ id
  found : ∀ name id, s.nameOf id = some name → ∃ i, s.taskNames.lookup name = some i
  lt : ∀ id ∈ s.tasks, id < s.nextTaskId

variable {s : AppStateInner} {id : TaskId} {name : String}

/-- Where the index leads to tasks of the name, a removal drops the entries of the task removed
and no others. -/
theorem lookup_taskNames_removeScheduledTask (id : TaskId)
    (h : ∀ name id, s.taskNames.lookup name = some id → s.nameOf id = some name) {i : TaskId} :
    (s.removeScheduledTask id).2.taskNames.lookup name = some i ↔
      s.taskNames.lookup name = some i ∧ i ≠ id := by
  by_cases hi : s.taskNames.lookup name = some id
  · obtain ⟨task, ht, rfl⟩ := Option.map_eq_some_iff.1 (h name id hi)
    simp [removeScheduledTask, ht, hi, eq_comm]
  · have hkeep : (s.removeScheduledTask id).2.taskNames.lookup name = s.taskNames.lookup name := by
      unfold removeScheduledTask
      dsimp only
      split
      · rfl
      · dsimp only
        split_ifs with hl
        · exact lookup_erase_ne fun he => hi (he ▸ hl)
        · rfl
    rw [hkeep]
    exact .symm (and_iff_left_of_imp fun hl he => hi (he ▸ hl))

theorem nameOf_eraseAll (ids : List TaskId) {s' : AppStateInner}
    (hs : s'.tasks = s.tasks.eraseAll ids) (i : TaskId) :
    s'.nameOf i = if i ∈ ids then none else s.nameOf i := by
  rw [nameOf, hs, lookup_eraseAll]
  split <;> rfl

theorem lookup_taskNames_foldl (ids : List TaskId)
    (h : ∀ name id, s.taskNames.lookup name = some id → s.nameOf id = some name) (name : String)
    (i : TaskId) :
    (ids.foldl (fun s id => (s.removeScheduledTask id).2) s).taskNames.lookup name = some i ↔
      s.taskNames.lookup name = some i ∧ i ∉ ids := by
  induction ids generalizing s with
  | nil => simp
  | cons id ids ih =>
    rw [List.foldl_cons, ih, lookup_taskNames_removeScheduledTask id h, List.mem_cons, not_or,
      and_assoc]
    intro name i hi
    obtain ⟨hi, hne⟩ := (lookup_taskNames_removeScheduledTask id h).1 hi
    rw [nameOf_eraseAll [id] (by rw [removeScheduledTask_snd]; rfl),
      if_neg (by simpa using hne)]
    exact h name i hi

theorem Indexed.remove (h : s.Indexed) {ids : List TaskId} (hd : s.Downward ids) :
    (ids.foldl (fun s id => (s.removeScheduledTask id).2) s).Indexed := by
  have hnames := lookup_taskNames_foldl ids fun name id hi => (h.newest name id hi).1
  obtain ⟨taskNames, hs⟩ := foldl_removeScheduledTask ids s
  generalize ids.foldl (fun s id => (s.removeScheduledTask id).2) s = s' at hs hnames ⊢
  have hof : ∀ i, s'.nameOf i = if i ∈ ids then none else s.nameOf i :=
    nameOf_eraseAll ids (by rw [hs])
  refine ⟨fun name id hi => ?_, fun name id hi => ?_, ?_⟩
  · obtain ⟨hi, hni⟩ := (hnames name id).1 hi
    obtain ⟨hm, hle⟩ := h.newest name id hi
    refine ⟨by rwa [hof, if_neg hni], fun j hj => hle j ?_⟩
    rw [hof] at hj
    split at hj
    · cases hj
    · exact hj
  · rw [hof] at hi
    split at hi
    · cases hi
    · rename_i hni
      obtain ⟨j, hj⟩ := h.found name id hi
      obtain ⟨hm, hle⟩ := h.newest name j hj
      exact ⟨j, (hnames name j).2 ⟨hj, fun hji => hni (hd id j name hi hm (hle id hi) hji)⟩⟩
  · rw [hs]
    exact fun id hi => h.lt id (mem_eraseAll.1 hi).2

theorem Indexed.addTask (h : s.Indexed) (clock : Clock) (task : ScheduledTask) :
    ((Op.addTask task).apply clock s).Indexed := by
  rcases Op.apply_addTask clock s task with hs | hs
  · rwa [hs]
  generalize (Op.addTask task).apply clock s = s' at hs ⊢
  have hnames (name : String) : s'.taskNames.lookup name =
      if name = task.name then some s.nextTaskId else s.taskNames.lookup name := by
    rw [hs, lookup_insert_ite]
  have hof (i : TaskId) :
      s'.nameOf i = if i = s.nextTaskId then some task.name else s.nameOf i := by
    simp only [hs, nameOf, lookup_insert_ite]
    split <;> rfl
  have hlt {i : TaskId} {name} (hi : s.nameOf i = some name) : i < s.nextTaskId := by
    obtain ⟨task, ht, -⟩ := Option.map_eq_some_iff.1 hi
    exact h.lt i (mem_iff_lookup.2 ⟨task, ht⟩)
  refine ⟨fun name id hi => ?_, fun name id hi => ?_, ?_⟩
  · rw [hnames] at hi
    simp only [hof]
    split_ifs at hi with hn
    · cases hi
      refine ⟨by rw [if_pos rfl, hn], fun j hj => ?_⟩
      split at hj
      · exact Nat.le_of_eq ‹_›
      · exact Nat.le_of_lt (hlt hj)
    · obtain ⟨hm, hle⟩ := h.newest name id hi
      refine ⟨by rwa [if_neg (Nat.ne_of_lt (hlt hm))], fun j hj => ?_⟩
      split at hj
      · exact absurd (Option.some.inj hj).symm hn
      · exact hle j hj
  · rw [hof] at hi
    rw [hnames]
    split at hi
    · rw [if_pos (Option.some.inj hi).symm]
      exact ⟨_, rfl⟩
    · split
      · exact ⟨_, rfl⟩
      · exact h.found name id hi
  · rw [hs]
    exact forall_mem_insert (fun id hi => Nat.lt_succ_of_lt (h.lt id hi)) (Nat.lt_succ_self _) _

theorem Indexed.step (h : s.Indexed) {call : Clock × Op} (hk : s.NamesKept call) :
    (s.step call).Indexed := by
  obtain ⟨clock, op⟩ := call
  cases op with
  | addTask task => exact h.addTask clock task
  | removeTask | cleanupServerTasks | cleanupConnectionTasks | cleanupClientTasks =>
    exact h.remove hk
  | _ => exact hk.elim

theorem Indexed.new (limit : ℕ) : (new limit).Indexed :=
  ⟨fun _ _ h => (nomatch h), fun _ _ h => (nomatch h), fun _ h => absurd h (notMem_empty _)⟩

/-- After every run of such calls, looking up a name that is no number finds a task exactly when
there is one of that name, and finds one of that name. -/
theorem getTask_complete (limit : ℕ) (calls : List (Clock × Op))
    (hk : Meets AppStateInner.step NamesKept (new limit) calls) (name : String)
    (hn : parseUnsigned 64 (utf8 name) = none) :
    let s := run AppStateInner.step (new limit) calls
    ((∃ task, s.getTask name = some task) ↔
      ∃ id task, s.tasks.lookup id = some task ∧ task.name = name) ∧
      ∀ task, s.getTask name = some task → task.name = name := by
  have h : (run AppStateInner.step (AppStateInner.new limit) calls).Indexed :=
    run_invariant_of_meets (.new limit) (fun _ _ h hc => h.step hc) calls hk
  generalize run AppStateInner.step (AppStateInner.new limit) calls = s at h
  have hget {task : ScheduledTask} : s.getTask name = some task ↔
      ∃ id, s.taskNames.lookup name = some id ∧ s.tasks.lookup id = some task := by
    rw [getTask, hn]
    exact Option.bind_eq_some_iff
  have hname {task : ScheduledTask} (ht : s.getTask name = some task) : task.name = name := by
    obtain ⟨id, hi, ht⟩ := hget.1 ht
    have hm : s.nameOf id = some name := (h.newest name id hi).1
    rw [nameOf, ht] at hm
    exact Option.some.inj hm
  refine ⟨⟨fun ⟨task, ht⟩ => ?_, fun ⟨id, task, ht, hna⟩ => ?_⟩, fun _ => hname⟩
  · obtain ⟨id, -, hta⟩ := hget.1 ht
    exact ⟨id, task, hta, hname ht⟩
  · obtain ⟨i, hi⟩ := h.found name id (by rw [nameOf, ht, ← hna]; rfl)
    obtain ⟨newest, hta, -⟩ := Option.map_eq_some_iff.1 (h.newest name i hi).1
    exact ⟨newest, hget.2 ⟨i, hi, hta⟩⟩

/-- Two tasks of one name, one of which is removed. -/
def twinCalls (removed : TaskId) : List (Clock × Op) :=
  let task : ScheduledTask :=
    { id := 0, name := "heartbeat", scope := .global, taskType := .oneShot 5,
      status := .scheduled, nextExecution := 5, lastError := none, failureCount := 0 }
  [(.atSecs 0, .addTask task), (.atSecs 0, .addTask task), (.atSecs 1, .removeTask removed)]

theorem getTask_twin_older :
    ∃ task, (run AppStateInner.step (new 100) (twinCalls 1)).getTask "heartbeat" = some task := by
  refine (getTask_complete 100 (twinCalls 1) ?_ "heartbeat" rfl).1.2 ⟨2, _, rfl, rfl⟩
  refine .cons trivial (.cons trivial (.cons ?_ meets_nil))
  intro i j name hi hj hij hm
  obtain rfl := List.mem_singleton.1 hm
  match i with
  | 0 => cases hi
  | 1 => exact hm

/-- With the newer twin gone, the name no longer finds the older. -/
theorem getTask_twin_newer :
    (run AppStateInner.step (new 100) (twinCalls 2)).getTask "heartbeat" = none ∧
      ∃ task, (run AppStateInner.step (new 100) (twinCalls 2)).tasks.lookup 1 = some task ∧
        task.name = "heartbeat" :=
  ⟨rfl, _, rfl, rfl⟩

end NetGet.AppStateInner
