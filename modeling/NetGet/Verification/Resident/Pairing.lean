import NetGet.Library.Focus
import NetGet.Model.Resident

/-! # Replies and events

While the processes write nothing but replies, a process that stands in its slot has no line
of input left to answer and none of output left to read, so the one line that an exchange
reads is the reply to its own event. -/

namespace NetGet.Resident

open Library Machine List Option

variable {ε α : Type*} {fromUtf8 : Bytes → Bool} {chunks : List Bytes} {limit : ℕ} {p : Process ε}
  {text : Bytes} {script : ResidentScript ε}

theorem eq_of_append_newline_prefix {front back more : Bytes} (hf : newline ∉ front)
    (ht : newline ∉ text) (h : front ++ newline :: back <+: text ++ newline :: more) :
    front = text := by
  induction front generalizing text with
  | nil =>
    cases text with
    | nil => rfl
    | cons b text =>
      obtain ⟨rfl, -⟩ := List.cons_prefix_cons.1 h
      simp at ht
  | cons b front ih =>
    cases text with
    | nil =>
      obtain ⟨rfl, -⟩ := List.cons_prefix_cons.1 h
      simp at hf
    | cons c text =>
      obtain ⟨rfl, hta⟩ := List.cons_prefix_cons.1 h
      rw [ih (not_mem_of_not_mem_cons hf) (not_mem_of_not_mem_cons ht) hta]

theorem exists_first_newline {available : Bytes} {n : ℕ}
    (h : available.findIdx? (· == newline) = some n) :
    ∃ back, available = available.take n ++ newline :: back ∧
      available.take (n + 1) = available.take n ++ [newline] ∧ newline ∉ available.take n := by
  obtain ⟨hn, hat, hb⟩ := List.findIdx?_eq_some_iff_getElem.1 h
  have hnew : available[n] = newline := by simpa using hat
  refine ⟨available.drop (n + 1), ?_, ?_, ?_⟩
  · rw [← hnew, ← drop_eq_getElem_cons hn, take_append_drop]
  · rw [take_succ_eq_append_getElem hn, hnew]
  · intro hmem
    obtain ⟨m, hm, hget⟩ := List.mem_take_iff_getElem.1 hmem
    have hne := hb m (by omega)
    simp [hget] at hne

theorem readLineBounded_eq_line {more result : Bytes} (ht : newline ∉ text) :
    ∀ {line : Bytes}, newline ∉ line → line ++ chunks.flatten <+: text ++ newline :: more →
      readLineBounded fromUtf8 limit line chunks = .line result → result = text ++ [newline] := by
  induction chunks with
  | nil =>
    intro line hl hpr hr
    cases hr
  | cons available chunks ih =>
    intro line hl hpr hr
    rw [flatten_cons, ← append_assoc] at hpr
    simp only [readLineBounded] at hr
    split at hr
    · cases hr
    split at hr
    · cases hr
    cases hp : available.findIdx? (· == newline) with
    | none =>
      have hn : newline ∉ available := by
        intro hmem
        have hne := List.findIdx?_eq_none_iff.1 hp newline hmem
        simp at hne
      simp only [hp, map_none, getD_none, take_length,
        isSome_none, Bool.false_eq_true, if_false] at hr
      exact ih (by simp [hl, hn]) hpr hr
    | some n =>
      obtain ⟨back, hcut, hta, hb⟩ := exists_first_newline hp
      simp only [hp, map_some, getD_some, isSome_some, if_true, hta] at hr
      have hs : line ++ available.take n ++ newline :: (back ++ chunks.flatten) <+:
          text ++ newline :: more := by
        rw [hcut] at hpr
        simpa using hpr
      have hf : line ++ available.take n = text :=
        eq_of_append_newline_prefix (by simp [hl, hb]) ht hs
      split at hr
      · cases hr
        rw [← hf, append_assoc]
      · cases hr

theorem Process.Delivers.unread_ne_nil (h : p.Delivers chunks)
    (hr : readLineBounded fromUtf8 limit [] chunks = .line text) : p.unread ≠ [] := by
  intro hu
  have he : chunks.flatten = [] := by simpa [Process.stdout, hu] using h.2.1
  cases chunks with
  | nil => cases hr
  | cons available chunks =>
    have ha : available = [] := (List.append_eq_nil_iff.1 he).1
    simp [readLineBounded, ha] at hr

def Process.Settled (p : Process ε) : Prop := p.requests = [] ∧ p.unread = []

def ResidentScript.FreeFor (script : ResidentScript ε) (holder : Holder) : Prop :=
  ∀ other, script.lock = some other → other = holder

theorem ResidentScript.FreeFor.of_holder {holder : Holder} (h : script.lock = some holder) :
    script.FreeFor holder := by
  intro other ho
  exact some.inj (ho.symm.trans h)

theorem ResidentScript.FreeFor.of_unlocked (h : ¬ script.lock.isSome = true) (holder : Holder) :
    script.FreeFor holder := by
  intro other ho
  simp [ho] at h

namespace Stage

def uses : Stage α → Option ℕ
  | .writing i | .reading i | .reaping i _ => some i
  | _ => none

/-- Before the event is written all is settled; then the process owes the reply to it, or has
written that and nothing else. -/
def Expects (request : Request ε) (replies : List (Request ε × Line)) (p : Process ε) :
    Stage α → Prop
  | .writing _ => p.Settled
  | .reading _ => p.requests = [request] ∧ p.unread = [] ∨
      p.requests = [] ∧ ∃ line, p.unread = [⟨line, some request⟩] ∧ (request, line) ∈ replies
  | _ => True

theorem Expects.mono {request : Request ε} {replies replies' : List (Request ε × Line)}
    {stage : Stage α} (h : stage.Expects request replies p)
    (hr : replies ⊆ replies') : stage.Expects request replies' p := by
  cases stage with
  | reading i =>
    rcases h with ho | ⟨hn, line, hu, hl⟩
    · exact .inl ho
    · exact .inr ⟨hn, line, hu, hr hl⟩
  | _ => exact h

end Stage

/-- A dispatch that returned actions was given them by the reply to its own event. -/
def Dispatch.Answered (host : Host α) (replies : List (Request ε × Line)) (k : ℕ)
    (d : Dispatch ε α) : Prop :=
  ∀ actions, d.stage = .returned (.ok actions) →
    ∃ line, (⟨k, d.input⟩, line) ∈ replies ∧ host.parse line.bytes = some actions

namespace Manager

variable {host : Host α} {s : Manager ε α} {k i j : ℕ} {d : Dispatch ε α}

/-- The slot is locked by the dispatch and the process is as it expects. -/
def Serves (s : Manager ε α) (k : ℕ) (d : Dispatch ε α) (script : ResidentScript ε) : Prop :=
  script.lock = some (.dispatch k) ∧ script.io = false ∧
    d.stage.Expects ⟨k, d.input⟩ s.replies script.process

/-- Every dispatch that returned actions returned those of the reply to its own event, and a
process that can be taken from its slot is in step. -/
structure Paired (host : Host α) (s : Manager ε α) : Prop where
  answered : ∀ (k : ℕ) (d : Dispatch ε α), s.dispatches[k]? = some d → d.Answered host s.replies k
  settled : ∀ (i : ℕ) (script : ResidentScript ε), s.scripts[i]? = some script →
    script.io = true → script.process.Settled

structure InStep (host : Host α) (s : Manager ε α) : Prop extends Paired host s where
  serves : ∀ (k : ℕ) (d : Dispatch ε α), s.dispatches[k]? = some d → ∀ i, d.stage.uses = some i →
    ∃ script, s.scripts[i]? = some script ∧ s.Serves k d script
  reaps : ∀ (j : ℕ) (t : Shutdown), s.shutdowns[j]? = some t → ∀ i, t.killing = some i →
    ∃ script, s.scripts[i]? = some script ∧ script.lock = some (.shutdown j)

namespace InStep

theorem start : (start : Manager ε α).InStep host := by
  constructor
  · constructor <;> simp [Manager.start]
  · simp [Manager.start]
  · simp [Manager.start]

variable {stage : Stage α}

theorem goOn (h : s.InStep host) (hu : stage.uses = none)
    (hok : ∀ actions, stage ≠ .returned (.ok actions)) : (s.goOn k d stage).InStep host := by
  refine ⟨⟨?_, h.settled⟩, ?_, h.reaps⟩
  · refine forall_getElem?_set (fun k' d' _ => h.answered k' d') ?_
    intro actions hs
    exact absurd hs (hok actions)
  refine forall_getElem?_set (fun k' d' _ => h.serves k' d') ?_
  intro i' hi'
  rw [hu] at hi'
  cases hi'

theorem withRegistry (h : s.InStep host) (registry : Table ScopeKey ResidentEntry) :
    { s with registry }.InStep host :=
  ⟨⟨h.answered, h.settled⟩, h.serves, h.reaps⟩

theorem spawn (h : s.InStep host) :
    { s with scripts := s.scripts ++ [ResidentScript.spawn] }.InStep host := by
  refine ⟨⟨h.answered, ?_⟩, ?_, ?_⟩
  · exact forall_getElem?_concat h.settled fun _ => ⟨rfl, rfl⟩
  · intro k d hd i hi
    exact exists_getElem?_concat (h.serves k d hd i hi) _
  · intro j t ht i hi
    exact exists_getElem?_concat (h.reaps j t ht i hi) _

variable {script script' : ResidentScript ε} {t : Shutdown}

theorem exchange (h : s.InStep host) (hs : s.scripts[i]? = some script)
    (hf : script.FreeFor (.dispatch k)) (hset : script'.io = true → script'.process.Settled)
    (hu : ∀ i', stage.uses = some i' → i' = i ∧ s.Serves k { d with stage } script')
    (ha : Dispatch.Answered host s.replies k { d with stage }) :
    ((s.setScript i script').goOn k d stage).InStep host := by
  obtain ⟨hi, -⟩ := List.getElem?_eq_some_iff.1 hs
  refine ⟨⟨?_, ?_⟩, ?_, ?_⟩
  · exact forall_getElem?_set (fun k' d' _ => h.answered k' d') ha
  · exact forall_getElem?_set (fun i' script _ => h.settled i' script) hset
  · refine forall_getElem?_set ?_ ?_
    · intro k' d' hk' hd' i' hi'
      refine exists_getElem?_set hs (h.serves k' d' hd' i' hi') ?_
      intro hse
      cases hf _ hse.1
      exact absurd rfl hk'
    · intro i' hi'
      obtain ⟨rfl, hse⟩ := hu i' hi'
      exact ⟨script', getElem?_set_self hi, hse⟩
  · intro j t ht i' hi'
    refine exists_getElem?_set hs (h.reaps j t ht i' hi') ?_
    intro hr
    cases hf _ hr

section

variable (h : s.InStep host)

include h

theorem close (hs : s.scripts[i]? = some script)
    (hf : script.FreeFor (.shutdown j)) (hse : script'.io = true → script'.process.Settled)
    (hk : ∀ i', t.killing = some i' → i' = i ∧ script'.lock = some (.shutdown j)) :
    { s.setScript i script' with shutdowns := s.shutdowns.set j t }.InStep host := by
  obtain ⟨hi, -⟩ := List.getElem?_eq_some_iff.1 hs
  refine ⟨⟨h.answered, ?_⟩, ?_, ?_⟩
  · exact forall_getElem?_set (fun i' script _ => h.settled i' script) hse
  · intro k d hd i' hi'
    refine exists_getElem?_set hs (h.serves k d hd i' hi') ?_
    intro hser
    cases hf _ hser.1
  · refine forall_getElem?_set ?_ ?_
    · intro j' t' hj' ht' i' hi'
      refine exists_getElem?_set hs (h.reaps j' t' ht' i' hi') ?_
      intro hr
      cases hf _ hr
      exact absurd rfl hj'
    · intro i' hi'
      obtain ⟨rfl, hr⟩ := hk i' hi'
      exact ⟨script', getElem?_set_self hi, hr⟩

theorem live (hs : s.scripts[i]? = some script)
    {replies : List (Request ε × Line)} (hr : s.replies ⊆ replies)
    (hset : script.process.Settled → p.Settled)
    (he : ∀ (stage : Stage α) request, stage.Expects request replies script.process →
      stage.Expects request replies p) :
    { s.setScript i { script with process := p } with replies }.InStep host := by
  refine ⟨⟨?_, ?_⟩, ?_, ?_⟩
  · intro k d hd actions hst
    obtain ⟨line, hl, hp⟩ := h.answered k d hd actions hst
    exact ⟨line, hr hl, hp⟩
  · refine forall_getElem?_set (fun i' script _ => h.settled i' script) ?_
    intro hio
    exact hset (h.settled i script hs hio)
  · intro k d hd i' hi'
    obtain ⟨held, hh, hlo, hio, hexp⟩ := h.serves k d hd i' hi'
    refine exists_getElem?_set hs ⟨held, hh, hlo, hio, hexp.mono hr⟩ ?_
    intro hse
    exact ⟨hse.1, hse.2.1, he _ _ hse.2.2⟩
  · intro j t ht i' hi'
    exact exists_getElem?_set hs (h.reaps j t ht i' hi') id

theorem acquire (now : ℕ) (spawns : Bool) : (s.acquire now spawns k d).InStep host := by
  simp only [Manager.acquire]
  split
  · split
    · exact (h.withRegistry _).goOn rfl (by simp)
    · split
      · exact (h.spawn.withRegistry _).goOn rfl (by simp)
      · exact (h.withRegistry _).goOn rfl (by simp)
  · exact h

section

variable (hd : s.dispatches[k]? = some d)

include hd

theorem breakOff (hu : d.stage.uses = some i) (why : Failure) :
    (s.breakOff k d i why).InStep host := by
  obtain ⟨script, hs, hl, hio, -⟩ := h.serves k d hd i hu
  simp only [Manager.breakOff, hs]
  refine h.exchange hs (.of_holder hl) ?_ ?_ (by simp [Dispatch.Answered])
  · simp [hio]
  · rintro _ ⟨⟩
    exact ⟨rfl, hl, hio, trivial⟩

theorem advance : (s.advance k d).InStep host := by
  cases hst : d.stage with
  | waiting i =>
    cases hs : s.scripts[i]? with
    | none => simpa only [Manager.advance, hst, hs] using h
    | some script =>
      simp only [Manager.advance, hst, hs]
      split
      · exact h
      rename_i hf
      split_ifs with hio
      · refine h.exchange hs (.of_unlocked hf _) (by simp) ?_ (by simp [Dispatch.Answered])
        rintro _ ⟨⟩
        exact ⟨rfl, rfl, rfl, h.settled i script hs hio⟩
      · exact h.goOn rfl (by simp)
  | writing i =>
    obtain ⟨script, hs, hl, hio, hse⟩ := h.serves k d hd i (by rw [hst]; rfl)
    rw [hst] at hse
    simp only [Manager.advance, hst, hs]
    refine h.exchange hs (.of_holder hl) (by simp [hio]) ?_ (by simp [Dispatch.Answered])
    rintro _ ⟨⟩
    exact ⟨rfl, hl, hio, .inl ⟨by simp [hse.1], hse.2⟩⟩
  | reaping i why =>
    obtain ⟨script, hs, hl, hio, -⟩ := h.serves k d hd i (by rw [hst]; rfl)
    simp only [Manager.advance, hst, hs]
    exact h.exchange hs (.of_holder hl)
      (by simp [hio]) (by simp [Stage.uses]) (by simp [Dispatch.Answered])
  | failed i why =>
    simp only [Manager.advance, hst]
    split <;> exact h.goOn rfl (by simp)
  | evicting i why =>
    simp only [Manager.advance, hst]
    exact (h.withRegistry _).goOn rfl (by simp)
  | acquire | reading i | returned result | cancelled =>
    simpa only [Manager.advance, hst] using h

theorem read (chunks : List Bytes) : (s.read host chunks k d).InStep host := by
  cases hs : d.stage with
  | reading i =>
    have hus : d.stage.uses = some i := by rw [hs]; rfl
    obtain ⟨script, hsc, hl, -, he⟩ := h.serves k d hd i hus
    rw [hs] at he
    simp only [Manager.read, hs, hsc]
    split_ifs with hde
    · cases hre : readLineBounded host.fromUtf8 maxStdoutBytes [] chunks with
      | pending => exact h
      | error e => exact h.breakOff hd hus _
      | line text =>
        rcases he with ⟨-, hn⟩ | ⟨hr, line, hu, hli⟩
        · exact absurd hn (hde.unread_ne_nil hre)
        have hp : [] ++ chunks.flatten <+: line.text ++ newline :: [] := by
          simpa [Process.stdout, Line.bytes, hu] using hde.2.1
        have ht : text = line.bytes := readLineBounded_eq_line line.whole not_mem_nil hp hre
        refine h.exchange hsc (.of_holder hl) ?_ ?_ ?_
        · intro _
          exact ⟨hr, by simp [hu]⟩
        · intro i' hi'
          split at hi' <;> cases hi'
        · intro actions ha
          cases hp : host.parse text with
          | none => simp [hp] at ha
          | some actions' =>
            rw [hp] at ha
            cases ha
            exact ⟨line, hli, ht ▸ hp⟩
    · exact h
  | _ => simpa only [Manager.read, hs] using h

theorem expire : (s.expire k d).InStep host := by
  cases hs : d.stage with
  | acquire | waiting i =>
    simp only [Manager.expire, hs]
    exact h.goOn rfl (by simp)
  | writing i | reading i =>
    simp only [Manager.expire, hs]
    exact h.breakOff hd (by rw [hs]; rfl) _
  | _ => simpa only [Manager.expire, hs] using h

theorem writeFails : (s.writeFails k d).InStep host := by
  cases hs : d.stage with
  | writing i =>
    simp only [Manager.writeFails, hs]
    exact h.breakOff hd (by rw [hs]; rfl) _
  | _ => simpa only [Manager.writeFails, hs] using h

theorem cancel : (s.cancel k d).InStep host := by
  cases hs : d.stage with
  | writing i | reading i | reaping i _ =>
    obtain ⟨script, hsc, hl, hio, -⟩ := h.serves k d hd i (by rw [hs]; rfl)
    simp only [Manager.cancel, hs, hsc]
    exact h.exchange hsc (.of_holder hl)
      (by simp [hio]) (by simp [Stage.uses]) (by simp [Dispatch.Answered])
  | returned result | cancelled => simpa only [Manager.cancel, hs] using h
  | acquire | waiting i | failed i why | evicting i why =>
    simp only [Manager.cancel, hs]
    exact h.goOn rfl (by simp)

end

theorem shutdown (closing : Closing) : (s.shutdown closing).InStep host := by
  refine ⟨⟨h.answered, h.settled⟩, h.serves, forall_getElem?_concat h.reaps ?_⟩
  rintro _ ⟨⟩

theorem kill (ht : s.shutdowns[j]? = some t) : (s.kill j t).InStep host := by
  obtain ⟨waiting, killing⟩ := t
  cases killing with
  | some i =>
    obtain ⟨script, hs, hl⟩ := h.reaps j _ ht i rfl
    simp only [Manager.kill, hs]
    refine h.close hs (.of_holder hl) ?_ ?_
    · exact h.settled i script hs
    · rintro _ ⟨⟩
  | none =>
    cases waiting with
    | nil => exact h
    | cons i rest =>
      cases hs : s.scripts[i]? with
      | none => simpa only [Manager.kill, hs] using h
      | some script =>
        simp only [Manager.kill, hs]
        split
        · exact h
        rename_i hf
        split
        · refine h.close hs (.of_unlocked hf _) (by simp) ?_
          rintro _ ⟨⟩
          exact ⟨rfl, rfl⟩
        · refine ⟨⟨h.answered, h.settled⟩, h.serves, ?_⟩
          exact forall_getElem?_set (fun j' t' _ => h.reaps j' t') (by simp)

theorem reply (line : Line) : (s.reply i line).InStep host := by
  cases hs : s.scripts[i]? with
  | none => simpa only [Manager.reply, hs] using h
  | some script =>
    cases hr : script.process.requests with
    | nil => simpa only [Manager.reply, hs, hr] using h
    | cons request rest =>
      simp only [Manager.reply, hs, hr]
      split
      · refine h.live hs (subset_append_left _ _) ?_ ?_
        · intro hse
          rw [hse.1] at hr
          cases hr
        intro stage expected he
        cases stage with
        | writing =>
          rw [he.1] at hr
          cases hr
        | reading =>
          rcases he with ⟨ho, hu⟩ | ⟨hn, -⟩
          · rw [ho] at hr
            cases hr
            exact .inr ⟨rfl, line, by simp [hu], by simp⟩
          · rw [hn] at hr
            cases hr
        | _ => trivial
      · exact h

theorem die : (s.lives i Process.kill).InStep host := by
  cases hs : s.scripts[i]? with
  | none => simpa only [Manager.lives, hs] using h
  | some script =>
    simp only [Manager.lives, hs]
    split
    · refine h.live hs (List.Subset.refl _) id ?_
      intro stage request he
      cases stage <;> exact he
    · exact h

theorem act {f : ℕ → Dispatch ε α → Manager ε α}
    (hf : ∀ d, s.dispatches[k]? = some d → (f k d).InStep host) : (s.act k f).InStep host := by
  simp only [Manager.act]
  cases hd : s.dispatches[k]? with
  | none => exact h
  | some d => exact hf d hd

end

end InStep

/-- User code prints nothing: the processes write replies only. -/
def Quiet (_ : Manager ε α) : Label ε → Prop
  | .print _ _ => False
  | _ => True

instance (s : Manager ε α) (l : Label ε) : Decidable (s.Quiet l) := by
  cases l <;> unfold Quiet <;> infer_instance

theorem InStep.step (h : s.InStep host) {l : Label ε} (hl : s.Quiet l) :
    (s.step host l).InStep host := by
  cases l with
  | dispatch scope input language code privatePayloads =>
    refine ⟨⟨forall_getElem?_concat h.answered ?_, h.settled⟩,
      forall_getElem?_concat h.serves ?_, h.reaps⟩
    · intro actions ha
      split at ha <;> cases ha
    · intro i hi
      split at hi <;> cases hi
  | acquire k now spawns => exact h.act fun d _ => h.acquire now spawns
  | advance k => exact h.act fun d hd => h.advance hd
  | read k chunks => exact h.act fun d hd => h.read hd chunks
  | expire k => exact h.act fun d hd => h.expire hd
  | writeFails k => exact h.act fun d hd => h.writeFails hd
  | cancel k => exact h.act fun d hd => h.cancel hd
  | shutdown closing => exact h.shutdown closing
  | kill j =>
    cases ht : s.shutdowns[j]? with
    | none => simpa only [Manager.step, ht] using h
    | some t => simpa only [Manager.step, ht] using h.kill ht
  | print i line => exact hl.elim
  | reply i line => exact h.reply line
  | die i => exact h.die

end Manager

/-- In every run in which user code prints nothing, a dispatch returns the actions of the reply
to its own event, and only a process that is in step can be used. -/
theorem replies_paired (host : Host α) {ls : List (Label ε)}
    (h : Meets (Manager.step host) Manager.Quiet Manager.start ls) :
    (run (Manager.step host) Manager.start ls).Paired host :=
  (run_invariant_of_meets Manager.InStep.start (fun _ _ ht => ht.step) ls h).toPaired

def digits : Host UInt8 where
  hash _ _ := 0
  fromUtf8 _ := true
  parse line := line.head?.filter fun b => 48 ≤ b ∧ b ≤ 57

/-- One event of a server, from its arrival to the moment its line has been written. -/
def sendEvent (k event : ℕ) : List (Label ℕ) :=
  [.dispatch .server ⟨some 1, none, none, event⟩ .python "" false,
    .acquire k 0 true, .advance k, .advance k]

def answer (b : UInt8) (h : newline ∉ [b]) : Line := ⟨[b], h⟩

theorem replies_paired_twoEvents :
    let ls := sendEvent 0 10 ++ [.reply 0 (answer 49 (by decide)), .read 0 [[49], [10]]] ++
      sendEvent 1 20 ++ [.reply 0 (answer 50 (by decide)), .read 1 [[50, 10]]]
    let s := run (Manager.step digits) Manager.start ls
    s.Paired digits ∧ s.dispatches.map (·.stage) = [.returned (.ok 49), .returned (.ok 50)] :=
  ⟨replies_paired digits (by decide), rfl⟩

/-- The first event's handler prints a line before it answers; the second event is given the
first one's answer. -/
theorem not_paired_printedFirst :
    let ls := sendEvent 0 10 ++ [.print 0 (answer 120 (by decide)),
      .reply 0 (answer 49 (by decide)), .read 0 [[120, 10, 49, 10]], .advance 0] ++
      sendEvent 1 20 ++ [.read 1 [[49, 10]]]
    ¬ (run (Manager.step digits) Manager.start ls).Paired digits := by
  intro ls hp
  obtain ⟨line, hl, -⟩ := hp.answered 1 _ rfl 49 rfl
  cases hl with
  | tail _ h => cases h

end NetGet.Resident
