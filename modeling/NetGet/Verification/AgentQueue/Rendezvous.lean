import NetGet.Model.AgentQueue
import Mathlib.Data.List.Perm.Basic

/-! # Rendezvous of submitters and agents -/

namespace NetGet.AgentQueue

open Json List Option AList AgentQueue.Inner
open Library
open Machine

variable {inner : Inner} {id : ℕ} {entry : Entry} {w : World}

theorem Inner.isUnclaimed_eq_true : inner.isUnclaimed id = true ↔
      ∃ entry, inner.entries.lookup id = some entry ∧ entry.request.claimed = false := by
  unfold isUnclaimed
  cases inner.entries.lookup id <;> simp

/-- Claiming finds nothing unclaimed and changes nothing, or claims the first unclaimed id. -/
theorem Inner.claimNext_cases (inner : Inner) :
    (inner.claimNext = (none, inner) ∧ ∀ id ∈ inner.order, inner.isUnclaimed id = false) ∨
      ∃ front id rest entry, inner.order = front ++ id :: rest ∧
        (∀ x ∈ front, inner.isUnclaimed x = false) ∧ inner.entries.lookup id = some entry ∧
        entry.request.claimed = false ∧ inner.claimNext = (some entry.claim.request,
          { inner with entries := inner.entries.insert id entry.claim }) := by
  rcases eq_none_or_eq_some (inner.order.find? inner.isUnclaimed) with hn | ⟨id, hid⟩
  · refine Or.inl ⟨by simp [claimNext, hn], ?_⟩
    intro id hmem
    simpa using List.find?_eq_none.1 hn id hmem
  obtain ⟨hu, front, rest, ho, hf⟩ := List.find?_eq_some_iff_append.1 hid
  obtain ⟨entry, he, hc⟩ := isUnclaimed_eq_true.1 hu
  refine Or.inr ⟨front, id, rest, entry, ho, ?_, he, hc, ?_⟩
  · intro x hx
    simpa using hf x hx
  · simp [claimNext, hid, he]

theorem Inner.mem_remove {id' : ℕ} :
    id' ∈ (inner.remove id).entries ↔ id' ∈ inner.entries ∧ id' ≠ id := by
  simp [remove, and_comm]

/-- The two collections list the same requests, in the order of their ids. -/
structure Inner.WellFormed (inner : Inner) : Prop where
  increasing : inner.order.Pairwise (· < ·)
  mem_order : ∀ id, id ∈ inner.order ↔ id ∈ inner.entries
  lt_nextId : ∀ id ∈ inner.entries, id < inner.nextId
  request_id : ∀ id entry, inner.entries.lookup id = some entry → entry.request.id = id

theorem Inner.WellFormed.new : new.WellFormed where
  increasing := List.Pairwise.nil
  mem_order := by simp [Inner.new]
  lt_nextId := by simp [Inner.new]
  request_id := by simp [Inner.new]

theorem Inner.WellFormed.push (h : inner.WellFormed) (hid : entry.request.id = inner.nextId) :
    WellFormed
      { order := inner.order ++ [inner.nextId]
        entries := inner.entries.insert inner.nextId entry
        nextId := inner.nextId + 1 } where
  increasing := by
    exact pairwise_append.2 ⟨h.increasing, pairwise_singleton _ _, fun x hx =>
      forall_mem_singleton.2 (h.lt_nextId x ((h.mem_order x).1 hx))⟩
  mem_order := by
    intro id
    simp [h.mem_order, or_comm]
  lt_nextId := forall_mem_insert (fun id hmem => Nat.lt_succ_of_lt (h.lt_nextId id hmem))
    (Nat.lt_succ_self _) _
  request_id := forall_insert h.request_id (by simp_all)

theorem Inner.WellFormed.replace (h : inner.WellFormed) (hmem : id ∈ inner.entries)
    (hid : entry.request.id = id) :
    WellFormed { inner with entries := inner.entries.insert id entry } where
  increasing := h.increasing
  mem_order := by
    intro x
    rw [h.mem_order, mem_insert, or_iff_right_of_imp]
    rintro rfl
    exact hmem
  lt_nextId := forall_mem_insert h.lt_nextId (h.lt_nextId id hmem) _
  request_id := forall_insert h.request_id (by simp_all)

theorem Inner.WellFormed.remove (h : inner.WellFormed) (id : ℕ) : (inner.remove id).WellFormed where
  increasing := h.increasing.filter _
  mem_order := by
    intro x
    rw [mem_remove, ← h.mem_order]
    simp [Inner.remove]
  lt_nextId x hx := h.lt_nextId x (mem_remove.1 hx).1
  request_id x e he := h.request_id x e (lookup_of_erase he)

theorem Inner.WellFormed.claimNext_oldest {inner' : Inner} (h : inner.WellFormed)
    {request : PendingLlmRequest} (hc : inner.claimNext = (some request, inner')) :
    inner.isUnclaimed request.id = true ∧ ∀ id, inner.isUnclaimed id = true → request.id ≤ id := by
  rcases inner.claimNext_cases with ⟨hn, -⟩ | ⟨front, first, rest, entry, ho, hf, hen, hcl, hs⟩
  · simp [hn] at hc
  have hid : request.id = first := by
    rw [hs] at hc
    obtain ⟨hr, -⟩ := Prod.mk.inj hc
    rw [← some.inj hr]
    exact h.request_id first entry hen
  rw [hid]
  refine ⟨isUnclaimed_eq_true.2 ⟨entry, hen, hcl⟩, ?_⟩
  intro id hu
  obtain ⟨e, he, -⟩ := isUnclaimed_eq_true.1 hu
  have hmem : id ∈ front ++ first :: rest := by
    rw [← ho, h.mem_order]
    exact mem_iff_lookup.2 ⟨e, he⟩
  have hi := h.increasing
  rw [ho] at hi
  have hre := (List.pairwise_append.1 hi).2.1
  rcases List.mem_append.1 hmem with hin | hin
  · simp [hf id hin] at hu
  · rcases List.mem_cons.1 hin with heq | hin
    · exact heq.ge
    · exact ((List.pairwise_cons.1 hre).1 id hin).le

def World.taken (w : World) : List Answer := w.sending ++ w.deliveries

/-- The queue is well formed, every id claimed is below every id still to claim, and every
answer taken out of the queue goes to the one channel its id was submitted with. -/
structure World.Consistent (w : World) : Prop where
  wellFormed : w.inner.WellFormed
  claims_increasing : w.claims.Pairwise (· < ·)
  claims_lt_nextId : ∀ c ∈ w.claims, c < w.inner.nextId
  claims_lt_unclaimed : ∀ id, w.inner.isUnclaimed id = true → ∀ c ∈ w.claims, c < id
  submitted_increasing : (w.submitted.map Prod.fst).Pairwise (· < ·)
  submitted_lt_nextId : ∀ s ∈ w.submitted, s.1 < w.inner.nextId
  entry_submitted : ∀ id entry, w.inner.entries.lookup id = some entry →
    (id, entry.responder) ∈ w.submitted
  taken_nodup : (w.taken.map Answer.id).Nodup
  taken_notMem : ∀ answer ∈ w.taken, answer.id ∉ w.inner.entries
  taken_submitted : ∀ answer ∈ w.taken, (answer.id, answer.responder) ∈ w.submitted

theorem World.Consistent.init : World.init.Consistent where
  wellFormed := .new
  claims_increasing := List.Pairwise.nil
  claims_lt_nextId := by simp [World.init]
  claims_lt_unclaimed := by simp [World.init]
  submitted_increasing := List.Pairwise.nil
  submitted_lt_nextId := by simp [World.init]
  entry_submitted := by simp [World.init, new]
  taken_nodup := by simp [World.init, World.taken]
  taken_notMem := by simp [World.init, World.taken]
  taken_submitted := by simp [World.init, World.taken]

theorem World.Consistent.submit (h : w.Consistent) :
    (w.step .submit).Consistent := by
  simp only [World.step, Inner.submit]
  cases hn : checkedAdd 64 w.inner.nextId 1 with
  | none => exact { h with }
  | some nextId =>
    obtain ⟨rfl, -⟩ := checkedAdd_eq_some.1 hn
    have hf : w.inner.nextId ∉ w.inner.entries := fun hmem =>
      absurd (h.wellFormed.lt_nextId _ hmem) (Nat.lt_irrefl _)
    exact
      { h with
        wellFormed := h.wellFormed.push rfl
        claims_lt_nextId := fun c hc => Nat.lt_succ_of_lt (h.claims_lt_nextId c hc)
        claims_lt_unclaimed := by
          intro id hid c hc
          obtain ⟨entry, he, hcl⟩ := Inner.isUnclaimed_eq_true.1 hid
          rw [lookup_insert_ite] at he
          split at he
          · rename_i heq
            rw [heq]
            exact h.claims_lt_nextId c hc
          · exact h.claims_lt_unclaimed id (Inner.isUnclaimed_eq_true.2 ⟨entry, he, hcl⟩) c hc
        submitted_increasing := by
          rw [map_append]
          exact pairwise_append.2 ⟨h.submitted_increasing, pairwise_singleton _ _,
            forall_mem_map.2 fun s hs => forall_mem_singleton.2 (h.submitted_lt_nextId s hs)⟩
        submitted_lt_nextId := forall_mem_append.2
          ⟨fun s hs => Nat.lt_succ_of_lt (h.submitted_lt_nextId s hs),
            forall_mem_singleton.2 (Nat.lt_succ_self _)⟩
        entry_submitted := forall_insert
          (fun id entry he => mem_append_left _ (h.entry_submitted id entry he)) (by simp_all)
        taken_notMem := by
          intro answer ha hmem
          rcases (mem_insert _).1 hmem with heq | hmem
          · have hlt := h.submitted_lt_nextId _ (h.taken_submitted answer ha)
            simp only [heq] at hlt
            exact absurd hlt (Nat.lt_irrefl _)
          · exact h.taken_notMem answer ha hmem
        taken_submitted := fun answer ha =>
          mem_append_left _ (h.taken_submitted answer ha) }

/-- The claimed id is above all earlier claims and below all requests still to claim. -/
theorem World.Consistent.claimNext (h : w.Consistent) : (w.step .claimNext).Consistent := by
  rcases w.inner.claimNext_cases with ⟨hn, -⟩ | ⟨-, id, -, entry, -, -, hen, hcla, hcl⟩
  · simp only [World.step, hn]
    exact h
  simp only [World.step, hcl]
  have hid : entry.claim.request.id = id := h.wellFormed.request_id id entry hen
  have hmem : id ∈ w.inner.entries := mem_iff_lookup.2 ⟨entry, hen⟩
  have hu : w.inner.isUnclaimed id = true := isUnclaimed_eq_true.2 ⟨entry, hen, hcla⟩
  exact
    { h with
      wellFormed := h.wellFormed.replace hmem hid
      claims_increasing := by
        exact pairwise_append.2 ⟨h.claims_increasing, pairwise_singleton _ _, fun c hc =>
          forall_mem_singleton.2 (hid ▸ h.claims_lt_unclaimed id hu c hc)⟩
      claims_lt_nextId := forall_mem_append.2 ⟨h.claims_lt_nextId,
        forall_mem_singleton.2 (hid ▸ h.wellFormed.lt_nextId id hmem)⟩
      claims_lt_unclaimed := by
        intro x hx c hc
        obtain ⟨e, he, hec⟩ := isUnclaimed_eq_true.1 hx
        rw [lookup_insert_ite] at he
        split at he
        · cases he
          simp [Entry.claim] at hec
        rename_i hne
        have hxu : w.inner.isUnclaimed x = true := isUnclaimed_eq_true.2 ⟨e, he, hec⟩
        rcases List.mem_append.1 hc with hc | hc
        · exact h.claims_lt_unclaimed x hxu c hc
        · rw [List.mem_singleton.1 hc]
          have hle := (h.wellFormed.claimNext_oldest hcl).2 x hxu
          exact Nat.lt_of_le_of_ne hle fun heq => hne (heq.symm.trans hid)
      entry_submitted := forall_insert h.entry_submitted
        (by simp_all [Entry.claim, h.entry_submitted id entry hen])
      taken_notMem := by
        intro answer ha hin
        rcases (mem_insert _).1 hin with heq | hin
        · exact h.taken_notMem answer ha (heq ▸ hmem)
        · exact h.taken_notMem answer ha hin }

theorem World.Consistent.remove (h : w.Consistent) (id : ℕ) :
    World.Consistent { w with inner := w.inner.remove id } :=
  { h with
    wellFormed := h.wellFormed.remove id
    claims_lt_unclaimed := by
      intro x hx
      obtain ⟨entry, he, hcl⟩ := isUnclaimed_eq_true.1 hx
      exact h.claims_lt_unclaimed x
        (isUnclaimed_eq_true.2 ⟨entry, lookup_of_erase he, hcl⟩)
    entry_submitted := fun x entry he => h.entry_submitted x entry (lookup_of_erase he)
    taken_notMem := fun answer ha hmem => h.taken_notMem answer ha (mem_remove.1 hmem).1 }

/-- Only what becomes of the answers taken out of the queue has to be checked when the
queue and the other logs stay as they are. -/
theorem World.Consistent.of_taken (h : w.Consistent) {sending deliveries : List Answer}
    (hn : ((sending ++ deliveries).map Answer.id).Nodup) (ht : sending ++ deliveries ⊆ w.taken) :
    World.Consistent { w with sending, deliveries } :=
  { h with
    taken_nodup := hn
    taken_notMem := fun answer ha => h.taken_notMem answer (ht ha)
    taken_submitted := fun answer ha => h.taken_submitted answer (ht ha) }

theorem World.Consistent.answer (h : w.Consistent) (id : ℕ) (actions : List Value) :
    (w.step (.answer id actions)).Consistent := by
  simp only [World.step, Inner.answer]
  cases he : w.inner.entries.lookup id with
  | none => exact h
  | some entry =>
    have hmem : id ∈ w.inner.entries := mem_iff_lookup.2 ⟨entry, he⟩
    have hr := h.remove id
    have ht : ({ id, responder := entry.responder, actions } :: w.taken).Perm
        (w.sending ++ [{ id, responder := entry.responder, actions }] ++ w.deliveries) := by
      simpa [World.taken] using perm_middle.symm
    exact
      { hr with
        taken_nodup := by
          refine (ht.map Answer.id).nodup_iff.1 ?_
          refine nodup_cons.2 ⟨?_, h.taken_nodup⟩
          intro hin
          obtain ⟨answer, ha, heq⟩ := List.mem_map.1 hin
          exact h.taken_notMem answer ha (heq ▸ hmem)
        taken_notMem := by
          intro answer ha
          rcases List.mem_cons.1 (ht.mem_iff.2 ha) with rfl | hold
          · simp [Inner.mem_remove]
          · exact hr.taken_notMem answer hold
        taken_submitted := by
          intro answer ha
          rcases List.mem_cons.1 (ht.mem_iff.2 ha) with rfl | hold
          · exact h.entry_submitted id entry he
          · exact h.taken_submitted answer hold }

theorem World.Consistent.send (h : w.Consistent) (call : ℕ) : (w.step (.send call)).Consistent := by
  simp only [World.step]
  cases hc : w.sending[call]? with
  | none => exact h
  | some answer =>
    obtain ⟨hlt, rfl⟩ := List.getElem?_eq_some_iff.1 hc
    simp only [Answer.send]
    split
    · have hs : (w.sending.eraseIdx call ++ w.deliveries).Sublist w.taken :=
        (eraseIdx_sublist _ _).append_right _
      exact h.of_taken (h.taken_nodup.sublist (hs.map Answer.id)) hs.subset
    have hp : (w.sending.eraseIdx call ++ (w.deliveries ++ [w.sending[call]])).Perm w.taken := by
      rw [← append_assoc]
      exact (perm_append_singleton _ _).trans
        ((getElem_cons_eraseIdx_perm hlt).append_right w.deliveries)
    exact h.of_taken ((hp.map Answer.id).nodup_iff.2 h.taken_nodup) hp.subset

theorem World.Consistent.step (h : w.Consistent) (label : Label) : (w.step label).Consistent := by
  cases label with
  | submit => exact h.submit
  | claimNext => exact h.claimNext
  | answer id actions => exact h.answer id actions
  | send call => exact h.send call
  | expire id => exact h.remove id
  | list => exact h
  | stopWaiting channel => exact { h with }

def Label.Removes (id : ℕ) : Label → Prop
  | .answer id' _ => id' = id
  | .expire id' => id' = id
  | _ => False

theorem World.step_keeps {label : Label} (hmem : id ∈ w.inner.entries) (hl : ¬ label.Removes id) :
    id ∈ (w.step label).inner.entries := by
  cases label with
  | submit =>
    simp only [World.step, submit]
    cases checkedAdd 64 w.inner.nextId 1 with
    | none => exact hmem
    | some nextId => simp [hmem]
  | claimNext =>
    rcases w.inner.claimNext_cases with ⟨hn, -⟩ | ⟨_, _, _, _, _, _, _, _, hc⟩
    · simpa only [World.step, hn] using hmem
    · simp [World.step, hc, hmem]
  | answer id' actions =>
    simp only [World.step, answer]
    cases w.inner.entries.lookup id' with
    | none => exact hmem
    | some entry => exact mem_remove.2 ⟨hmem, fun heq => hl heq.symm⟩
  | send call =>
    simp only [World.step]
    split
    · exact hmem
    · split <;> exact hmem
  | expire id' => exact mem_remove.2 ⟨hmem, fun heq => hl heq.symm⟩
  | list | stopWaiting => exact hmem

theorem World.step_submitted (w : World) (label : Label) : (w.step label).submitted = w.submitted ∨
      ∃ id channel, (w.step label).submitted = w.submitted ++ [(id, channel)] ∧
        id ∈ (w.step label).inner.entries := by
  cases label with
  | submit =>
    simp only [World.step, submit]
    cases checkedAdd 64 w.inner.nextId 1 with
    | none => exact Or.inl rfl
    | some nextId => exact Or.inr ⟨w.inner.nextId, w.channels, rfl, by simp⟩
  | claimNext =>
    rcases w.inner.claimNext_cases with ⟨hn, -⟩ | ⟨_, _, _, _, _, _, _, _, hc⟩
    · simp [World.step, hn]
    · simp [World.step, hc]
  | answer id actions =>
    simp only [World.step, answer]
    cases w.inner.entries.lookup id <;> exact Or.inl rfl
  | send call =>
    simp only [World.step]
    split
    · exact Or.inl rfl
    · split <;> exact Or.inl rfl
  | expire | list | stopWaiting => exact Or.inl rfl

/-- In the run, a step that answers or expires this id was taken while it was in the queue. -/
def RemovedIn (labels : List Label) (id : ℕ) : Prop :=
  ∃ front label rest, labels = front ++ label :: rest ∧
    id ∈ (run World.step World.init front).inner.entries ∧ label.Removes id

theorem RemovedIn.concat {labels : List Label} (h : RemovedIn labels id) (label : Label) :
    RemovedIn (labels ++ [label]) id := by
  obtain ⟨front, l, rest, rfl, hmem, hl⟩ := h
  exact ⟨front, l, rest ++ [label], by simp, hmem, hl⟩

/-- A submitted request is in the queue until its own id is answered or expires. -/
theorem mem_entries_or_removed (labels : List Label) {channel : ℕ}
    (hs : (id, channel) ∈ (run World.step World.init labels).submitted) :
    id ∈ (run World.step World.init labels).inner.entries ∨ RemovedIn labels id := by
  induction labels using reverseRecOn with
  | nil => simp [World.init] at hs
  | append_singleton labels label ih =>
    have hk : id ∈ (run World.step World.init labels).inner.entries ∨ RemovedIn labels id →
        id ∈ ((run World.step World.init labels).step label).inner.entries ∨
          RemovedIn (labels ++ [label]) id := by
      rintro (hmem | hr)
      · by_cases hl : label.Removes id
        · exact .inr ⟨labels, label, [], rfl, hmem, hl⟩
        · exact .inl (World.step_keeps hmem hl)
      · exact .inr (hr.concat label)
    rw [run_concat] at hs ⊢
    rcases World.step_submitted (run World.step World.init labels) label with
      hsa | ⟨id', channel', hnew, hmem⟩
    · exact hk (ih (hsa ▸ hs))
    rw [hnew] at hs
    rcases List.mem_append.1 hs with hin | hin
    · exact hk (ih hin)
    · obtain ⟨rfl, rfl⟩ := Prod.mk.inj (List.mem_singleton.1 hin)
      exact .inl hmem

/-- Whatever submitters and agents do, the queue lists its requests once each in the order of
their ids, which is that of submission; ids are claimed in this order, hence at most once, and each
claim takes the oldest request left; each id has at most one delivery, to the channel it was
submitted with; answering an id that is not in the queue is an error without effect; and a
request leaves the queue only when its own id is answered or expires. -/
theorem rendezvous (labels : List Label) :
    let w := run World.step World.init labels
    (w.inner.order.Pairwise (· < ·) ∧ ∀ id, id ∈ w.inner.order ↔ id ∈ w.inner.entries) ∧
    w.claims.Pairwise (· < ·) ∧
    (∀ request inner, w.inner.claimNext = (some request, inner) →
      w.inner.isUnclaimed request.id = true ∧
        ∀ id, w.inner.isUnclaimed id = true → request.id ≤ id) ∧
    ((w.deliveries.map Answer.id).Nodup ∧ (w.submitted.map Prod.fst).Pairwise (· < ·) ∧
      ∀ answer ∈ w.deliveries, (answer.id, answer.responder) ∈ w.submitted) ∧
    (∀ id actions, id ∉ w.inner.entries →
      (∃ message, w.inner.answer id = .error message) ∧ w.step (.answer id actions) = w) ∧
    ∀ id channel, (id, channel) ∈ w.submitted → id ∈ w.inner.entries ∨ RemovedIn labels id := by
  intro w
  have h : w.Consistent := run_invariant .init (fun _ label h => h.step label) labels
  have hd : w.deliveries.Sublist w.taken := sublist_append_right _ _
  refine ⟨⟨h.wellFormed.increasing, h.wellFormed.mem_order⟩, h.claims_increasing, ?_, ⟨?_, ?_, ?_⟩,
    ?_, ?_⟩
  · intro request inner hc
    exact h.wellFormed.claimNext_oldest hc
  · exact h.taken_nodup.sublist (hd.map Answer.id)
  · exact h.submitted_increasing
  · intro answer ha
    exact h.taken_submitted answer (hd.subset ha)
  · intro id actions hmem
    simp [World.step, answer, lookup_eq_none.2 hmem]
  · intro id channel hs
    exact mem_entries_or_removed labels hs

end NetGet.AgentQueue
