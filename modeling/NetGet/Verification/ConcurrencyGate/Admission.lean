import NetGet.Library.Roster
import NetGet.Verification.ConcurrencyGate.Equations

/-! # Admission safety of the concurrency gate -/

namespace NetGet.ConcurrencyGate

open Library List AList Function
open Roster

variable {ω : Type*} {w : World ω}

/-- The queue id of a future that is not granted yet. -/
def Wait.pending (wait : Wait) : Option ℕ := if wait.granted then none else wait.id

/-- The queue id held by a live future that is not granted yet. -/
def pendingId (waits : Table ℕ Wait) (future : ℕ) : Option ℕ :=
  (waits.lookup future).bind Wait.pending

theorem pendingId_of_lookup {waits : Table ℕ Wait} {future : ℕ} {wait : Wait}
    (h : waits.lookup future = some wait) : pendingId waits future = wait.pending := by
  simp [pendingId, h]

theorem pendingId_insert (waits : Table ℕ Wait) (future : ℕ) (wait : Wait) :
    pendingId (waits.insert future wait) =
      update (pendingId waits) future wait.pending := by
  funext n
  by_cases h : n = future
  · subst h
    simp [pendingId]
  · rw [update_of_ne h, pendingId, lookup_insert_ne h, pendingId]

theorem pendingId_erase (waits : Table ℕ Wait) (future : ℕ) :
    pendingId (waits.erase future) = update (pendingId waits) future none := by
  funext n
  by_cases h : n = future
  · subst h
    simp [pendingId]
  · rw [update_of_ne h, pendingId, lookup_erase_ne h, pendingId]

/-- Futures are named in the order they were made. One that was never polled is as
`acquire_owned` made it; one that was polled holds an id until it is granted. -/
structure Names (waits : Table ℕ Wait) (created : ℕ) (polled : List ℕ) : Prop where
  waits_lt : ∀ n ∈ waits, n < created
  polled_lt : ∀ n ∈ polled, n < created
  polled_nodup : polled.Nodup
  unpolled : ∀ n wait, waits.lookup n = some wait → n ∉ polled →
    wait = { id := none, granted := false }
  settled : ∀ n wait, waits.lookup n = some wait → n ∈ polled →
    (wait.id = none ↔ wait.granted = true)

section Names

variable {waits : Table ℕ Wait} {created future : ℕ} {polled : List ℕ} {granted : Bool}

theorem Names.lt_created (h : Names waits created polled) {wait : Wait}
    (hw : waits.lookup future = some wait) : future < created :=
  h.waits_lt future (mem_iff_lookup.2 ⟨wait, hw⟩)

theorem Names.notMem_polled (h : Names waits created polled)
    (hw : waits.lookup future = some { id := none, granted := false }) : future ∉ polled := by
  intro hmem
  have := (h.settled future _ hw hmem).1 rfl
  simp at this

section

variable (h : Names waits created polled)

include h

theorem Names.mem_polled {id : ℕ}
    (hw : waits.lookup future = some { id := some id, granted }) : future ∈ polled := by
  by_contra hmem
  have := h.unpolled future _ hw hmem
  simp at this

theorem Names.polled_length_le : polled.length ≤ created := by
  have hsub : polled ⊆ range created := fun n hn => mem_range.2 (h.polled_lt n hn)
  simpa using (subperm_of_subset h.polled_nodup hsub).length_le

theorem Names.acquire :
    Names (waits.insert created { id := none, granted := false }) (created + 1) polled := by
  have hnew : created ∉ polled := fun hmem => (h.polled_lt _ hmem).false
  refine ⟨?_, ?_, h.polled_nodup, ?_, ?_⟩
  · exact forall_mem_insert (fun n hn => (h.waits_lt n hn).trans (Nat.lt_succ_self _))
      (Nat.lt_succ_self _) _
  · intro n hn
    exact (h.polled_lt n hn).trans (Nat.lt_succ_self _)
  · exact forall_insert h.unpolled fun _ => rfl
  · intro n wait hw hn
    have hnc : n ≠ created := fun he => hnew (he ▸ hn)
    rw [lookup_insert_ne hnc] at hw
    exact h.settled n wait hw hn

theorem Names.poll {wait new : Wait}
    (hwa : waits.lookup future = some wait) (hnew : new.id = none ↔ new.granted = true) :
    Names (waits.insert future new) created
      (if future ∈ polled then polled else polled ++ [future]) := by
  have hp : ∀ n, n ∈ (if future ∈ polled then polled else polled ++ [future]) ↔
      n ∈ polled ∨ n = future := by
    intro n
    split
    · rename_i hmem
      exact ⟨.inl, fun hn => hn.elim id (fun he => he ▸ hmem)⟩
    · simp
  refine ⟨?_, ?_, ?_, ?_, ?_⟩
  · exact forall_mem_insert h.waits_lt (h.lt_created hwa) _
  · intro n hn
    rcases (hp n).1 hn with hn | rfl
    · exact h.polled_lt n hn
    · exact h.lt_created hwa
  · split
    · exact h.polled_nodup
    · rename_i hmem
      simpa using h.polled_nodup.concat hmem
  · intro n w hw hn
    rw [hp, not_or] at hn
    rw [lookup_insert_ne hn.2] at hw
    exact h.unpolled n w hw hn.1
  · intro n w hw hn
    by_cases hnf : n = future
    · subst hnf
      obtain rfl : new = w := by simpa using hw
      exact hnew
    · rw [lookup_insert_ne hnf] at hw
      exact h.settled n w hw (((hp n).1 hn).resolve_right hnf)

theorem Names.erase (future : ℕ) : Names (waits.erase future) created polled := by
  refine ⟨?_, h.polled_lt, h.polled_nodup, ?_, ?_⟩
  · intro n hn
    exact h.waits_lt n (mem_erase.1 hn).2
  · intro n wait hw hn
    exact h.unpolled n wait (lookup_of_erase hw) hn
  · intro n wait hw hn
    exact h.settled n wait (lookup_of_erase hw) hn

end

end Names

/-- The queue lists the ids of the waiting futures, in the order of their first polls,
and everyone granted so far comes before everyone still waiting in that order. -/
structure Line (queue : List ℕ) (nextId : ℕ) (held : ℕ → Option ℕ) (polled granted : List ℕ) :
    Prop where
  queue_eq : queue = tickets held polled
  increasing : queue.Pairwise (· < ·)
  ids_lt : ∀ i ∈ queue, i < nextId
  nextId_le : nextId ≤ polled.length
  in_order : (granted ++ waiting held polled).Sublist polled

/-- What every reachable state of the gate satisfies while fewer than `2 ^ 64` futures
were made. -/
structure Inv (w : World ω) : Prop extends Names w.waits w.created w.polled,
    Line (w.gate.queue.map Prod.fst) w.gate.nextId (pendingId w.waits) w.polled w.granted where
  active_eq : w.gate.active = w.permits.length

section Line

variable {queue polled granted : List ℕ} {nextId future : ℕ} {held : ℕ → Option ℕ}

theorem Line.tickets_nodup (h : Line queue nextId held polled granted) :
    (tickets held polled).Nodup := by
  rw [← h.queue_eq]
  exact h.increasing.imp fun hlt => hlt.ne

theorem Line.grantFresh (h : Line [] nextId held polled granted) (hnew : future ∉ polled) :
    Line [] nextId (update held future none) (polled ++ [future])
      (granted ++ [future]) := by
  have hno : waiting held polled = [] := by
    apply filter_eq_nil_iff.2
    intro n hn hh
    obtain ⟨i, hi⟩ := Option.isSome_iff_exists.1 hh
    have := mem_tickets_of_held hn hi
    simp [← h.queue_eq] at this
  refine ⟨?_, List.Pairwise.nil, by simp, ?_, ?_⟩
  · simpa [tickets_arrive hnew] using h.queue_eq
  · have := h.nextId_le
    simp only [length_append]
    omega
  · have ho := h.in_order
    rw [hno, append_nil] at ho
    simpa [waiting_arrive hnew, hno] using ho.append_right [future]

theorem Line.grantFront {id : ℕ} (h : Line (id :: queue) nextId held polled granted)
    (hp : polled.Nodup) (hmem : future ∈ polled) (hh : held future = some id) :
    Line queue nextId (update held future none) polled (granted ++ [future]) := by
  obtain ⟨hid, hin⟩ := pairwise_cons.1 h.increasing
  refine ⟨?_, hin, fun i hi => h.ids_lt i (mem_cons_of_mem _ hi), h.nextId_le, ?_⟩
  · rw [tickets_leave h.tickets_nodup hmem hh, ← h.queue_eq, filter_cons_of_neg (by simp)]
    apply (filter_eq_self.2 _).symm
    intro i hi
    simpa using (hid i hi).ne'
  · have ho := h.in_order
    rw [waiting_serve h.tickets_nodup hp hmem hh h.queue_eq.symm] at ho
    simpa using ho

theorem Line.enqueue (h : Line queue nextId held polled granted) (hnew : future ∉ polled) :
    Line (queue ++ [nextId]) (nextId + 1) (update held future (some nextId))
      (polled ++ [future]) granted := by
  refine ⟨?_, ?_, ?_, by simpa using h.nextId_le, ?_⟩
  · rw [tickets_arrive hnew, ← h.queue_eq]
    rfl
  · exact pairwise_append.2 ⟨h.increasing, pairwise_singleton _ _, fun i hi =>
      forall_mem_singleton.2 (h.ids_lt i hi)⟩
  · exact forall_mem_append.2 ⟨fun i hi => (h.ids_lt i hi).trans (Nat.lt_succ_self _),
      forall_mem_singleton.2 (Nat.lt_succ_self _)⟩
  · rw [waiting_arrive hnew]
    simpa using h.in_order.append_right [future]

theorem Line.cancel (h : Line queue nextId held polled granted) {id : ℕ}
    (hmem : future ∈ polled) (hh : held future = some id) :
    Line (queue.filter fun i => decide (i ≠ id)) nextId (update held future none)
      polled granted := by
  have hsub : (queue.filter fun i => decide (i ≠ id)).Sublist queue := filter_sublist
  refine ⟨?_, h.increasing.sublist hsub, fun i hi => h.ids_lt i (hsub.subset hi), h.nextId_le, ?_⟩
  · rw [tickets_leave h.tickets_nodup hmem hh, ← h.queue_eq]
  · apply List.Sublist.trans _ h.in_order
    rw [waiting_leave]
    exact filter_sublist.append_left granted

end Line

theorem inv_new (limit : ℕ) : Inv (World.new limit : World ω) where
  waits_lt := by simp [World.new]
  polled_lt := by simp [World.new]
  polled_nodup := nodup_nil
  unpolled := by simp [World.new]
  settled := by simp [World.new]
  queue_eq := rfl
  increasing := List.Pairwise.nil
  ids_lt := by simp [World.new, ConcurrencyState.new]
  nextId_le := le_rfl
  in_order := List.Sublist.refl _
  active_eq := rfl

/-- One step keeps the invariant. The bound keeps a new queue id from wrapping. -/
theorem Inv.effect [DecidableEq ω] {l : Label ω} {w' : World ω} (h : Inv w)
    (hfew : w.created < 2 ^ 64) (he : Effect w l w') : Inv w' := by
  cases he with
  | idle => exact h
  | taken hr hem =>
    exact ⟨h.toNames, h.toLine, by simp [h.active_eq]⟩
  | made =>
    have hh : pendingId w.waits w.created = none := by
      have hg : w.created ∉ w.waits := fun hmem => (h.waits_lt _ hmem).false
      simp [pendingId, lookup_eq_none.2 hg]
    refine ⟨h.toNames.acquire, ?_, h.active_eq⟩
    have hs : pendingId (w.waits.insert w.created { id := none, granted := false }) =
        pendingId w.waits := by
      rw [pendingId_insert]
      simp only [Wait.pending, Bool.false_eq_true, if_false, ← hh]
      exact update_eq_self _ _
    simpa only [hs] using h.toLine
  | grantedFresh future waker hw hr hem =>
    have hf := h.notMem_polled hw
    refine ⟨h.toNames.poll hw (by simp), ?_, by simp [h.active_eq]⟩
    have hl := h.toLine
    rw [hem] at hl
    simpa [World.notePoll, hf, hem, pendingId_insert, Wait.pending] using hl.grantFresh hf
  | grantedFront future waker id registered rest hw hr hq =>
    have hmem := h.mem_polled hw
    refine ⟨h.toNames.poll hw (by simp), ?_, by simp [h.active_eq]⟩
    have hl := h.toLine
    rw [hq, map_cons] at hl
    simpa [World.notePoll, hmem, pendingId_insert, Wait.pending] using
      hl.grantFront h.polled_nodup hmem (pendingId_of_lookup hw)
  | queued future waker hw hb =>
    have hf := h.notMem_polled hw
    have hn : Names (w.waits.insert future { id := some w.gate.nextId, granted := false })
        w.created (w.notePoll future) :=
      h.toNames.poll hw (by simp)
    have hne : wrappingAdd 64 w.gate.nextId 1 = w.gate.nextId + 1 := by
      apply wrappingAdd_of_lt
      have hc := hn.polled_length_le
      have hle := h.nextId_le
      simp only [World.notePoll, hf, if_false, length_append, length_singleton] at hc
      omega
    refine ⟨hn, ?_, h.active_eq⟩
    simpa [World.notePoll, hf, hne, pendingId_insert, Wait.pending] using h.toLine.enqueue hf
  | requeued future waker id hw hb =>
    have hmem := h.mem_polled hw
    refine ⟨h.toNames.poll hw (by simp), ?_, h.active_eq⟩
    have hs : pendingId (w.waits.insert future { id := some id, granted := false }) =
        pendingId w.waits := by
      rw [pendingId_insert, ← pendingId_of_lookup hw]
      exact update_eq_self _ _
    simpa [World.notePoll, hmem, hs] using h.toLine
  | left future granted hw =>
    refine ⟨h.toNames.erase future, ?_, h.active_eq⟩
    have hh : pendingId w.waits future = none := by
      rw [pendingId_of_lookup hw]
      cases granted <;> rfl
    have hs : pendingId (w.waits.erase future) = pendingId w.waits := by
      rw [pendingId_erase, ← hh]
      exact update_eq_self _ _
    simpa only [hs] using h.toLine
  | cancelled future id granted hw =>
    obtain rfl : granted = false := by simpa using h.settled future _ hw (h.mem_polled hw)
    refine ⟨h.toNames.erase future, ?_, h.active_eq⟩
    have hl := h.toLine.cancel (h.mem_polled hw) (pendingId_of_lookup hw)
    rw [filter_map] at hl
    simpa [pendingId_erase, comp_def, bne, BEq.beq] using hl
  | released permit hli =>
    refine ⟨h.toNames, h.toLine, ?_⟩
    have := h.active_eq
    simp only [length_erase_of_mem hli]
    omega
  | resized limit => exact ⟨h.toNames, h.toLine, h.active_eq⟩
  | invoked waker hfl =>
    refine ⟨h.toNames, ?_, h.active_eq⟩
    have hids : (w.invoke waker).gate.queue.map Prod.fst = w.gate.queue.map Prod.fst := by
      simp only [World.invoke, map_map]
      apply map_congr_left
      intro entry _
      simp only [comp_apply]
      split <;> rfl
    rw [hids]
    exact h.toLine

theorem created_le_step [DecidableEq ω] (w : World ω) (l : Label ω) :
    w.created ≤ (w.step l).created := by
  generalize hw : w.step l = w'
  have he := step_effect w l
  rw [hw] at he
  cases he <;> simp [World.invoke]

theorem inv_after [DecidableEq ω] (limit : ℕ) (labels : List (Label ω))
    (hfew : (World.after limit labels).created < 2 ^ 64) : Inv (World.after limit labels) := by
  have hk : ∀ (w : World ω) l, (w.created < 2 ^ 64 → Inv w) →
      (w.step l).created < 2 ^ 64 → Inv (w.step l) := by
    intro w l h hfew
    have hb : w.created < 2 ^ 64 := (created_le_step w l).trans_lt hfew
    exact (h hb).effect hb (step_effect w l)
  exact Machine.run_invariant (fun _ => inv_new limit) hk labels hfew

/-- Admission safety over every interleaving. The live permits are counted by `active`; the
queue holds, without repetition, the ids of the live futures not granted yet, in the order
of their first polls; grants follow that order; and a permit is handed out only below the
limit, to the front of the queue when anyone waits. -/
theorem admission_safety [DecidableEq ω] (limit : ℕ) (labels : List (Label ω))
    (hfew : (World.after limit labels).created < 2 ^ 64) :
    let w := World.after limit labels
    w.gate.active = w.permits.length ∧
    (w.permits ≠ [] → 0 < w.gate.active) ∧
    (w.gate.queue.map Prod.fst).Nodup ∧
    w.gate.queue.map Prod.fst = w.polled.filterMap (pendingId w.waits) ∧
    (∀ future id, pendingId w.waits future = some id → future ∈ w.polled) ∧
    w.polled.Nodup ∧
    w.granted.Sublist w.polled ∧
    ∀ l, w.permits.length < (w.step l).permits.length → w.gate.active < w.gate.limit ∧
        (w.gate.queue = [] ∨ ∃ future waker id, l = .poll future waker ∧
          pendingId w.waits future = some id ∧
          w.gate.queue.head?.map Prod.fst = some id) := by
  intro w
  have h : Inv w := inv_after limit labels hfew
  refine ⟨h.active_eq, ?_, ?_, h.queue_eq, ?_, h.polled_nodup, ?_, ?_⟩
  · intro hl
    rw [h.active_eq]
    exact length_pos_of_ne_nil hl
  · exact h.increasing.imp fun hlt => hlt.ne
  · intro future id hh
    obtain ⟨⟨held, granted⟩, hw, hp⟩ := Option.bind_eq_some_iff.1 hh
    cases held with
    | none => cases granted <;> simp [Wait.pending] at hp
    | some held => exact h.mem_polled hw
  · exact (sublist_append_left _ _).trans h.in_order
  · intro l hg
    generalize hw : w.step l = w' at hg
    have he := step_effect w l
    rw [hw] at he
    cases he with
    | taken hr hem => exact ⟨hr, .inl hem⟩
    | grantedFresh future waker hwa hr hem => exact ⟨hr, .inl hem⟩
    | grantedFront future waker id registered rest hwa hr hq =>
      refine ⟨hr, .inr ⟨future, waker, id, rfl, ?_, by simp [hq]⟩⟩
      rw [pendingId_of_lookup hwa]
      rfl
    | released permit hl =>
      rw [length_erase_of_mem hl] at hg
      omega
    | _ => exact absurd hg (lt_irrefl _)

/-- One permit, two futures: the second is granted once the first permit is dropped. -/
theorem admission_safety_handover :
    let labels : List (Label ℕ) := [.acquire, .poll 0 7, .acquire, .poll 1 8, .dropPermit 0,
      .poll 1 8]
    (World.after 1 labels).granted = [0, 1] ∧
      (World.after 1 labels).gate.active = (World.after 1 labels).permits.length :=
  ⟨by decide, (admission_safety 1 _ (by decide)).1⟩

end NetGet.ConcurrencyGate
