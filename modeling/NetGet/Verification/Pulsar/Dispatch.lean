import Mathlib.Algebra.BigOperators.Group.List.Basic
import Mathlib.Algebra.Ring.Nat
import NetGet.Model.PulsarQueues
import NetGet.Verification.Pulsar.Equations

/-! # Work conservation -/

namespace NetGet.Pulsar

open Library List Option Function
open Machine

namespace Sub

/-- The consumers a message may go to: the first of an Exclusive or Failover subscription, any of
the others. -/
def eligible (s : Sub) : List Consumer :=
  if s.subType = 0 ∨ s.subType = 2 then s.consumers.take 1 else s.consumers

/-- Nobody who could get a message waits for one while there are some. -/
def Conserving (s : Sub) : Prop := s.backlog ≠ [] → ∀ c ∈ s.eligible, c.permits = 0

def permitsFor (conn : ℕ) (consumers : List Consumer) : ℕ :=
  (consumers.map fun c => if c.conn = conn then c.permits else 0).sum

/-- The most frames that a connection may get once `extra` messages have joined the backlog. -/
def demand (extra conn : ℕ) (s : Sub) : ℕ :=
  min (s.backlog.length + extra) (permitsFor conn s.eligible)

/-- Every connection has room for all it may get. -/
def Fits (free : Queues) (extra : ℕ) (s : Sub) : Prop := ∀ conn, s.demand extra conn ≤ free conn

variable {s : Sub} {c : Consumer} {consumers : List Consumer} {free : Queues} {extra i : ℕ}
  {f : Consumer → Consumer} {backlog : List Stored} {m : Stored}

theorem mem_of_mem_eligible (h : c ∈ s.eligible) : c ∈ s.consumers := by
  unfold eligible at h
  split at h
  · exact mem_of_mem_take h
  · exact h

theorem permitsFor_eq_zero {conn : ℕ} (h : ∀ c ∈ consumers, c.conn ≠ conn) :
    permitsFor conn consumers = 0 := by
  refine sum_eq_zero ?_
  intro p hp
  obtain ⟨c, hc, rfl⟩ := List.mem_map.1 hp
  rw [if_neg (h c hc)]

theorem demand_eq_zero {conn : ℕ} (h : ∀ c ∈ s.eligible, c.conn ≠ conn) :
    s.demand extra conn = 0 := by
  rw [demand, permitsFor_eq_zero h, Nat.min_zero]

theorem fits_iff : s.Fits free extra ↔ ∀ c ∈ s.eligible, s.demand extra c.conn ≤ free c.conn := by
  constructor
  · intro h c _
    exact h c.conn
  intro h conn
  by_cases hco : ∃ c ∈ s.eligible, c.conn = conn
  · obtain ⟨c, hc, rfl⟩ := hco
    exact h c hc
  · rw [demand_eq_zero fun c hc heq => hco ⟨c, hc, heq⟩]
    exact Nat.zero_le _

instance (free : Queues) (extra : ℕ) (s : Sub) : Decidable (s.Fits free extra) :=
  decidable_of_iff _ fits_iff.symm

theorem exists_rotation (next : ℕ) {n j : ℕ} (hj : j < n) : ∃ i < n, (next + i) % n = j := by
  refine ⟨(j + (n - next % n)) % n, Nat.mod_lt _ (by omega), ?_⟩
  have hlt := Nat.mod_lt next (show 0 < n by omega)
  have hw : next + (j + (n - next % n)) = j + n * (next / n + 1) := by
    have hdiv := Nat.div_add_mod next n
    rw [Nat.mul_add]
    omega
  rw [Nat.add_mod_mod, hw, Nat.add_mul_mod_self_left, Nat.mod_eq_of_lt hj]

theorem permits_of_pick_eq_none (h : s.pick = none) : ∀ c ∈ s.eligible, c.permits = 0 := by
  intro c hc
  obtain ⟨j, hj, hget⟩ := getElem_of_mem hc
  have hget? := (getElem?_eq_getElem hj).trans (congrArg some hget)
  unfold pick at h
  unfold eligible at hget? hj
  rw [find?_eq_none] at h
  split at hget?
  · rename_i ht
    rw [if_pos ht] at hj
    obtain rfl : j = 0 := by
      rw [length_take] at hj
      omega
    rw [getElem?_take_of_lt Nat.one_pos] at hget?
    have hlen := (List.getElem?_eq_some_iff.1 hget?).1
    have hn := h 0 (by rw [if_neg (by omega), if_pos ht]; exact mem_singleton_self 0)
    simpa [hget?] using hn
  · rename_i ht
    rw [if_neg ht] at hj
    obtain ⟨i, hi, hrot⟩ := exists_rotation s.next hj
    have hn := h j (by
      rw [if_neg (by omega), if_neg ht]
      exact mem_map.2 ⟨i, mem_range.2 hi, hrot⟩)
    simpa [hget?] using hn

theorem eligible_of_pick (h : s.pick = some i) :
    ∃ c, s.consumers[i]? = some c ∧ s.eligible[i]? = some c ∧ 0 < c.permits := by
  have hlt := pick_lt h
  have hget := getElem?_eq_getElem hlt
  have hp := find?_some h
  have hmem := mem_of_find?_eq_some h
  refine ⟨s.consumers[i], hget, ?_, by simpa [hget] using hp⟩
  unfold eligible
  split_ifs with ht
  · rw [if_neg (by omega), if_pos ht, mem_singleton] at hmem
    rw [getElem?_take_of_lt (by omega), hget]
  · exact hget

theorem eligible_modify (s : Sub) (i : ℕ) (f : Consumer → Consumer) (backlog : List Stored)
    (next : ℕ) (history : History) :
    eligible ⟨s.subType, s.consumers.modify i f, backlog, next, history⟩ =
      s.eligible.modify i f := by
  unfold eligible
  split
  · exact List.take_modify ..
  · rfl

theorem permitsFor_modify (hc : consumers[i]? = some c) (hco : (f c).conn = c.conn) (conn : ℕ) :
    permitsFor conn (consumers.modify i f) + (if c.conn = conn then c.permits else 0) =
      permitsFor conn consumers + (if c.conn = conn then (f c).permits else 0) := by
  have hi := (List.getElem?_eq_some_iff.1 hc).1
  obtain ⟨front, c', back, hf, hget, hm, -⟩ := exists_focus hi
  obtain rfl := Option.some.inj (hget.symm.trans hc)
  rw [hm, hf]
  simp only [permitsFor, List.map_append, List.map_cons, List.sum_append, List.sum_cons, hco]
  omega

theorem permitsFor_map_modify (hc : ∀ c, (f c).conn = c.conn)
    (hp : ∀ c, (f c).permits = c.permits) (conn : ℕ) :
    permitsFor conn (consumers.modify i f) = permitsFor conn consumers := by
  cases hget : consumers[i]? with
  | none => rw [modify_eq_self (List.getElem?_eq_none_iff.1 hget)]
  | some c =>
    have hsum := permitsFor_modify hget (hc c) conn
    rw [hp] at hsum
    exact Nat.add_right_cancel hsum

/-- A consumer that the next message would go to, and the message. -/
structure Turn (s : Sub) (i : ℕ) (c : Consumer) (m : Stored) (backlog : List Stored) : Prop where
  backlog_eq : s.backlog = m :: backlog
  eligible : s.eligible[i]? = some c
  permits : 0 < c.permits

theorem Turn.demand (h : Turn s i c m backlog) (extra conn : ℕ) :
    (s.deliver i m backlog).demand extra conn + (if c.conn = conn then 1 else 0) ≤
      s.demand extra conn := by
  have hsum := permitsFor_modify h.eligible (f := take m) rfl conn
  have he : (s.deliver i m backlog).eligible = s.eligible.modify i (take m) :=
    eligible_modify s i (take m) _ _ _
  have hpa : (take m c).permits = c.permits - 1 := rfl
  have hlen : (s.deliver i m backlog).backlog.length = backlog.length := rfl
  have hp := h.permits
  unfold Sub.demand
  rw [he, hlen, h.backlog_eq, length_cons]
  split_ifs with hc
  · rw [if_pos hc, if_pos hc] at hsum
    omega
  · rw [if_neg hc, if_neg hc] at hsum
    omega

/-- A drain ends: there is nothing to hand out, nobody to hand it to, or no room. -/
inductive Ends (free : Queues) (s : Sub) : Prop
  | empty (h : s.backlog = [])
  | noPermits (h : s.pick = none)
  | full {i : ℕ} {c : Consumer} {m : Stored} {backlog : List Stored} (h : Turn s i c m backlog)
      (hfull : free c.conn = 0)

theorem drain_round (rounds : ℕ) (free : Queues) (s : Sub) :
    (Ends free s ∧ s.drain (trySends (rounds + 1) free s).1 = s ∧
      (trySends (rounds + 1) free s).2 = free) ∨
    ∃ i c m backlog, Turn s i c m backlog ∧ 0 < free c.conn ∧
      let rest := trySends rounds (update free c.conn (free c.conn - 1))
        (s.deliver i m backlog)
      s.drain (trySends (rounds + 1) free s).1 = (s.deliver i m backlog).drain rest.1 ∧
        (trySends (rounds + 1) free s).2 = rest.2 := by
  cases hb : s.backlog with
  | nil => exact .inl ⟨.empty hb, by simp [trySends, hb, drain]⟩
  | cons m backlog =>
    cases hpi : s.pick with
    | none => exact .inl ⟨.noPermits hpi, by simp [trySends, hb, hpi, drain]⟩
    | some i =>
      obtain ⟨c, hget, he, hp⟩ := eligible_of_pick hpi
      by_cases hf : 0 < free c.conn
      · refine .inr ⟨i, c, m, backlog, ⟨hb, he, hp⟩, hf, ?_⟩
        simp only [trySends, hb, hpi, hget, map_some, getD_some, hf, if_true, and_true]
        rw [drain]
        simp only [hb, hpi, if_true]
      · refine .inl ⟨.full ⟨hb, he, hp⟩ (Nat.eq_zero_of_not_pos hf), ?_⟩
        simp [trySends, hb, hpi, hget, hf, drain]

theorem update_add {conn' : ℕ} (hf : 0 < free conn') (conn : ℕ) :
    update free conn' (free conn' - 1) conn + (if conn' = conn then 1 else 0) =
      free conn := by
  by_cases hc : conn' = conn
  · subst hc
    rw [update_self, if_pos rfl]
    omega
  · rw [update_of_ne (Ne.symm hc), if_neg hc]
    rfl

/-- What a drain hands out is taken from the room and from what is still to be handed out. -/
theorem drain_demand (rounds extra conn : ℕ) : ∀ (free : Queues) (s : Sub), ∃ sent,
    free conn = (trySends rounds free s).2 conn + sent ∧
      (s.drain (trySends rounds free s).1).demand extra conn + sent ≤ s.demand extra conn := by
  induction rounds with
  | zero =>
    intro free s
    exact ⟨0, rfl, le_rfl⟩
  | succ rounds ih =>
    intro free s
    rcases drain_round rounds free s with
      ⟨-, hd, hl⟩ | ⟨i, c, m, backlog, ht, hf, hd, hl⟩
    · rw [hd, hl]
      exact ⟨0, rfl, le_rfl⟩
    obtain ⟨sent, hr, hde⟩ :=
      ih (update free c.conn (free c.conn - 1)) (s.deliver i m backlog)
    have hone := ht.demand extra conn
    have hu := update_add hf conn
    rw [hd, hl]
    exact ⟨sent + if c.conn = conn then 1 else 0, by omega, by omega⟩

theorem Fits.deliver (h : s.Fits free 0) (ht : Turn s i c m backlog) (hf : 0 < free c.conn) :
    (s.deliver i m backlog).Fits (update free c.conn (free c.conn - 1)) 0 := by
  intro conn
  have hs := ht.demand 0 conn
  have hr := h conn
  have hu := update_add hf conn
  omega

theorem Fits.ends (h : s.Fits free 0) (hen : Ends free s) : s.Conserving := by
  intro hb
  cases hen with
  | empty he => exact absurd he hb
  | noPermits hn => exact permits_of_pick_eq_none hn
  | @full i c _ _ ht hf =>
    have hs := ht.demand 0 c.conn
    rw [if_pos rfl] at hs
    have hr := h c.conn
    omega

theorem drain_conserving (rounds : ℕ) :
    ∀ {free : Queues} {s : Sub}, s.backlog.length ≤ rounds → s.Fits free 0 →
      (s.drain (trySends rounds free s).1).Conserving := by
  induction rounds with
  | zero =>
    intro free s hlen _ hb
    exact absurd (eq_nil_of_length_eq_zero (Nat.le_zero.1 hlen)) hb
  | succ rounds ih =>
    intro free s hlen hf
    rcases drain_round rounds free s with
      ⟨he, hd, -⟩ | ⟨i, c, m, backlog, ht, hroom, hd, -⟩
    · rw [hd]
      exact hf.ends he
    rw [hd]
    refine ih ?_ (hf.deliver ht hroom)
    rw [ht.backlog_eq, length_cons] at hlen
    exact Nat.le_of_succ_le_succ hlen

theorem Fits.conserving (h : s.Fits free 0) : (s.drain (s.attempt free).1).Conserving :=
  drain_conserving _ le_rfl h

theorem demand_enqueue (m : Stored) (extra conn : ℕ) (s : Sub) :
    (s.enqueue m).demand extra conn ≤ s.demand (extra + 1) conn := by
  have hlen : (s.enqueue m).backlog.length ≤ s.backlog.length + 1 := by
    show (boundedPush maxBacklog s.backlog m).length ≤ _
    unfold boundedPush
    split <;> simp
  have he : (s.enqueue m).eligible = s.eligible := rfl
  unfold demand
  rw [he]
  omega

theorem giveBack_fits {messages : List Stored} (h : ∀ m ∈ messages, m.redelivery + 1 < 2 ^ 32)
    (hf : s.Fits free messages.length) :
    ∃ s', s.giveBack messages = (s', true) ∧ s'.Fits free 0 := by
  obtain ⟨backlog, history, hg, hl⟩ := giveBack_eq h s
  refine ⟨_, hg, fun conn => ?_⟩
  have hr := hf conn
  have he : ({ s with backlog, history } : Sub).eligible = s.eligible := rfl
  unfold demand at hr ⊢
  rw [he]
  dsimp only
  omega

theorem fits_of_eligible {s' : Sub} (h : s.Fits free extra) (hb : s'.backlog = s.backlog)
    (hp : ∀ conn, permitsFor conn s'.eligible = permitsFor conn s.eligible) :
    s'.Fits free extra := by
  intro conn
  have hr := h conn
  unfold demand at hr ⊢
  rw [hb, hp]
  exact hr

theorem Conserving.join (h : s.Conserving) (subType : ℤ) (conn consumerId : ℕ) :
    (s.join subType conn consumerId).Conserving := by
  intro hb c hc
  cases hco : s.consumers with
  | nil =>
    have hnew := mem_of_mem_eligible hc
    rw [Sub.join, hco, nil_append] at hnew
    rw [List.mem_singleton.1 hnew]
  | cons first consumers =>
    have hold := h hb
    unfold eligible Sub.join at hc
    unfold eligible at hold
    rw [hco] at hc hold
    simp only [isEmpty_cons, Bool.false_eq_true, if_false] at hc
    split_ifs at hc with ht
    · rw [if_pos ht] at hold
      exact hold c hc
    rw [if_neg ht] at hold
    cases List.mem_append.1 hc with
    | inl hmem => exact hold c hmem
    | inr hnew => rw [List.mem_singleton.1 hnew]

theorem Conserving.ack (h : s.Conserving) (i : ℕ) (cumulative : Bool) (ids : List MessageId) :
    (s.ack i cumulative ids).Conserving := by
  cases hget : s.consumers[i]? with
  | none =>
    simp only [Sub.ack, hget]
    exact h
  | some c =>
    simp only [Sub.ack, hget]
    intro hb c' hc'
    rw [eligible_modify] at hc'
    rcases mem_of_mem_modify hc' with hmem | ⟨c₁, hmem, rfl⟩
    · exact h hb c' hmem
    · exact h hb c₁ (mem_of_getElem? hmem)

end Sub

namespace Topic

/-- The most frames that a connection may get from a list of subscriptions. -/
def demandOf (extra conn : ℕ) (subs : List (Sigma fun _ : String => Sub)) : ℕ :=
  (subs.map fun e => e.2.demand extra conn).sum

theorem demandOf_cons (extra conn : ℕ) (name : String) (s : Sub)
    (subs : List (Sigma fun _ : String => Sub)) :
    demandOf extra conn (⟨name, s⟩ :: subs) = s.demand extra conn + demandOf extra conn subs := rfl

/-- Every connection has room for all that the subscriptions may hand to it once `extra` messages
are stored. -/
def Fits (free : Queues) (extra : ℕ) (t : Topic) : Prop :=
  ∀ conn, demandOf extra conn t.subs.entries ≤ free conn

variable {free : Queues}

theorem fits_iff {extra : ℕ} {t : Topic} :
    t.Fits free extra ↔ ∀ e ∈ t.subs.entries, ∀ c ∈ e.2.eligible,
      demandOf extra c.conn t.subs.entries ≤ free c.conn := by
  constructor
  · intro h e _ c _
    exact h c.conn
  intro h conn
  by_cases hco : ∃ e ∈ t.subs.entries, ∃ c ∈ e.2.eligible, c.conn = conn
  · obtain ⟨e, he, c, hc, rfl⟩ := hco
    exact h e he c hc
  have hn : demandOf extra conn t.subs.entries = 0 := by
    refine sum_eq_zero ?_
    intro d hd
    obtain ⟨e, he, rfl⟩ := List.mem_map.1 hd
    exact Sub.demand_eq_zero fun c hc heq => hco ⟨e, he, c, hc, heq⟩
  rw [hn]
  exact Nat.zero_le _

instance (free : Queues) (extra : ℕ) (t : Topic) : Decidable (t.Fits free extra) :=
  decidable_of_iff _ fits_iff.symm

def delivered (m : Stored) (sends : String → List Bool)
    (subs : List (Sigma fun _ : String => Sub)) : List (Sigma fun _ : String => Sub) :=
  subs.map fun e => ⟨e.1, (e.2.enqueue m).drain (sends e.1)⟩

theorem delivered_attempts_cons {m : Stored} {name : String} {s : Sub}
    {subs : List (Sigma fun _ : String => Sub)} (hn : (⟨name, s⟩ :: subs).NodupKeys) :
    delivered m (attempts m free (⟨name, s⟩ :: subs)).1 (⟨name, s⟩ :: subs) =
      ⟨name, (s.enqueue m).drain ((s.enqueue m).attempt free).1⟩ ::
        delivered m (attempts m ((s.enqueue m).attempt free).2 subs).1 subs := by
  obtain ⟨hnew, -⟩ := List.nodupKeys_cons.1 hn
  simp only [delivered, attempts, map_cons, if_true, cons.injEq, true_and]
  refine map_congr_left ?_
  intro e he
  have hne : e.1 ≠ name := by
    intro heq
    rw [← heq] at hnew
    exact hnew (mem_keys.2 ⟨e.2, he⟩)
  rw [if_neg hne]

/-- What a message makes the subscriptions hand out is taken from the room and from what they
may still hand out, and with room for all of it none stops short. -/
theorem delivered_spec (m : Stored) (extra : ℕ) :
    ∀ {subs : List (Sigma fun _ : String => Sub)} (free : Queues), subs.NodupKeys →
      (∀ conn, ∃ sent, free conn = (attempts m free subs).2 conn + sent ∧
        demandOf extra conn (delivered m (attempts m free subs).1 subs) + sent ≤
          demandOf (extra + 1) conn subs) ∧
      ((∀ conn, demandOf (extra + 1) conn subs ≤ free conn) →
        ∀ e ∈ delivered m (attempts m free subs).1 subs, e.2.Conserving) := by
  intro subs
  induction subs with
  | nil =>
    intro free _
    exact ⟨fun _ => ⟨0, rfl, le_rfl⟩, fun _ _ he => nomatch he⟩
  | cons e subs ih =>
    intro free hn
    obtain ⟨name, s⟩ := e
    obtain ⟨hrest, hall⟩ := ih ((s.enqueue m).attempt free).2 (List.nodupKeys_cons.1 hn).2
    have hfirst : ∀ conn, ∃ first, free conn = ((s.enqueue m).attempt free).2 conn + first ∧
        ((s.enqueue m).drain ((s.enqueue m).attempt free).1).demand extra conn + first ≤
          s.demand (extra + 1) conn := by
      intro conn
      obtain ⟨first, hr, hf⟩ := Sub.drain_demand _ extra conn free (s.enqueue m)
      exact ⟨first, hr, hf.trans (Sub.demand_enqueue m extra conn s)⟩
    rw [delivered_attempts_cons hn]
    refine ⟨fun conn => ?_, fun hfi => forall_mem_cons.2 ⟨Sub.Fits.conserving ?_, hall ?_⟩⟩
    · obtain ⟨first, hr, hf⟩ := hfirst conn
      obtain ⟨rest, hl, hre⟩ := hrest conn
      exact ⟨rest + first, by rw [hr, hl, Nat.add_assoc]; rfl, by
        rw [demandOf_cons, demandOf_cons]; omega⟩
    · intro conn
      have hs := hfi conn
      have hlow := Sub.demand_enqueue m 0 conn s
      have hm : s.demand (0 + 1) conn ≤ s.demand (extra + 1) conn := by
        unfold Sub.demand
        omega
      rw [demandOf_cons] at hs
      omega
    · intro conn
      obtain ⟨first, hr, hf⟩ := hfirst conn
      have hs := hfi conn
      rw [demandOf_cons] at hs
      omega

theorem storeAll_conserving (entries : List Entry) :
    ∀ {free : Queues} {t : Topic}, t.Fits free entries.length → t.Subs (fun _ _ s => s.Conserving) →
      (t.storeAll (t.attemptAll free entries).1).1.Subs
        fun _ _ s => s.Conserving := by
  induction entries with
  | nil =>
    intro free t _ h
    exact h
  | cons e entries ih =>
    intro free t hf h
    let m := t.stored e
    let sends := (attempts m free t.subs.entries).1
    cases hs : t.store ⟨e, sends⟩ with
    | none =>
      have hse : (t.attemptAll free (e :: entries)).1 = [⟨e, sends⟩] := by
        simp only [attemptAll]
        rw [hs]
      rw [hse, storeAll, hs]
      exact h
    | some t' =>
      have hse : (t.attemptAll free (e :: entries)).1 = ⟨e, sends⟩ ::
          (t'.attemptAll (attempts m free t.subs.entries).2 entries).1 := by
        simp only [attemptAll]
        rw [hs]
      have he : t'.subs.entries = delivered m sends t.subs.entries := by
        obtain ⟨next, -, rfl⟩ := Option.map_eq_some_iff.1 hs
        rfl
      rw [hse, storeAll, hs]
      obtain ⟨hsp, hco⟩ := delivered_spec m entries.length free t.subs.nodupKeys
      refine ih ?_ ?_
      · intro conn
        obtain ⟨sent, hr, hd⟩ := hsp conn
        have hall := hf conn
        rw [he]
        rw [length_cons] at hall
        change demandOf _ _ (delivered m sends t.subs.entries) + _ ≤ _ at hd
        omega
      · intro name s hl
        rw [← AList.mem_entries_iff, he] at hl
        exact hco hf _ hl

end Topic

namespace Net

/-- The writer queues have room for what is handed out once a consumer has left. -/
def HasRoomWithout (n : Net) (place : Place) (conn consumerId : ℕ) : Prop :=
  ∀ found ∈ n.world.broker.findConsumer place conn consumerId,
    ∀ c ∈ found.2.1.consumers[found.2.2]?,
      ({ found.2.1 with consumers := found.2.1.consumers.eraseIdx found.2.2 } : Sub).Fits n.free
        c.unacked.length

instance (n : Net) (place : Place) (conn consumerId : ℕ) :
    Decidable (n.HasRoomWithout place conn consumerId) := by
  unfold HasRoomWithout
  infer_instance

/-- The writer queues have room for what a call may hand out. -/
def HasRoom (n : Net) : Label → Prop
  | .publish topic sends _ =>
    ∀ t ∈ n.world.broker.topics.lookup topic, t.Fits n.free sends.length
  | .flow place conn consumerId permits _ =>
    ∀ found ∈ n.world.broker.findConsumer place conn consumerId,
      (found.2.1.flow found.2.2 permits []).Fits n.free 0
  | .redeliver place conn consumerId ids _ =>
    n.world.broker.ForConsumer place conn consumerId fun s c =>
      s.Fits n.free (c.unacked.filter (Sub.named ids)).length
  | .closeConsumer place conn consumerId _ => n.HasRoomWithout place conn consumerId
  | .leave k place _ => ∀ found ∈ n.world.leaving[k]?, n.HasRoomWithout place found.1 found.2
  | _ => True

instance (n : Net) : (l : Label) → Decidable (n.HasRoom l)
  | .publish .. | .flow .. | .redeliver .. | .closeConsumer .. | .leave .. | .canSubscribe ..
  | .subscribe .. | .ack .. | .unsubscribe .. | .dropConnection .. | .rememberRefusal .. => by
    dsimp only [HasRoom]
    infer_instance

/-- A call of the broker finds the room it may need and overflows no count of returns. -/
def Unblocked (n : Net) : Call → Prop
  | .writers _ => True
  | .broker l =>
    n.HasRoom l ∧ n.world.GivesBack (fun _ given => ∀ m ∈ given, m.redelivery + 1 < 2 ^ 32) l

instance (n : Net) (call : Call) : Decidable (n.Unblocked call) := by
  cases call <;> unfold Unblocked <;> infer_instance

def Conserving (n : Net) : Prop := n.world.broker.Subs fun _ _ s => s.Conserving

theorem Conserving.new : Net.new.Conserving := Broker.Subs.new

variable {n : Net} {conn consumerId : ℕ} {place : Place}

theorem attemptFor_of_find {t : Topic} {s : Sub} {i : ℕ}
    (hf : n.world.broker.findConsumer place conn consumerId = some (t, s, i))
    (f : Sub → ℕ → Option Sub) :
    n.attemptFor place conn consumerId f = Sub.attempt? n.free (f s i) := by
  simp only [attemptFor, hf]

theorem Conserving.publish (h : n.Conserving) {topic : String}
    {sends : List Send} {found : String}
    (hr : n.HasRoom (.publish topic sends found)) :
    (n.step (.broker (.publish topic sends found))).Conserving := by
  have hm := h.makeRoom topic found
  cases he : (n.world.broker.makeRoom topic found).topicEntry topic with
  | mk b opened =>
    obtain ⟨⟨_, rfl⟩, hopen⟩ := Broker.topicEntry_cases he
    cases opened with
    | none =>
      simp only [Conserving, step, attempt, he, World.step, Broker.publish]
      exact hm
    | some t =>
      have hf : t.Fits n.free (sends.map (·.entry)).length := by
        rw [length_map]
        rcases hopen t rfl with hold | ⟨-, hnew⟩
        · refine hr t ?_
          by_cases hmem : topic ∈ n.world.broker.topics
          · rwa [Broker.makeRoom, if_neg fun hf => hf.1 hmem] at hold
          · exact absurd ((Broker.mem_makeRoom found).1 (AList.mem_iff_lookup.2 ⟨t, hold⟩)) hmem
        · intro conn
          rw [hnew]
          exact Nat.zero_le _
      simp only [Conserving, step, attempt, he, World.step, Broker.publish]
      exact Broker.Subs.insert hm (Topic.storeAll_conserving _ hf (hm.of_topicEntry he))

theorem closeConsumer_conserving (h : n.Conserving) (hr : n.HasRoomWithout place conn consumerId)
    (hb : n.world.broker.ForConsumer place conn consumerId fun _ c =>
      ∀ m ∈ c.unacked, m.redelivery + 1 < 2 ^ 32) :
    (n.world.broker.closeConsumer place conn consumerId
      (n.attemptFor place conn consumerId Sub.left).1).Subs fun _ _ s => s.Conserving := by
  refine h.updateSub ?_
  intro t s i hf _
  have hget := getElem?_eq_getElem (Broker.findConsumer_eq_some hf).2.2
  rw [attemptFor_of_find hf]
  have hroom := hr _ hf _ hget
  rw [← length_reverse] at hroom
  obtain ⟨s', hg, hfi⟩ := Sub.giveBack_fits (by simpa using hb _ hf _ hget) hroom
  have hle : s.left i = some { s' with next := 0 } := by
    simp only [Sub.left, hget, bind_some, hg]
  have hl : ∀ sends, s.leave i sends = ({ s' with next := 0 } : Sub).drain sends := by
    intro sends
    simp only [Sub.leave, hget, hg]
  rw [hle, hl]
  exact Sub.Fits.conserving (Sub.fits_of_eligible hfi rfl fun _ => rfl)

theorem Conserving.step {call : Call} (h : n.Conserving) (hok : n.Unblocked call) :
    (n.step call).Conserving := by
  cases call with
  | writers free => exact h
  | broker l =>
    obtain ⟨hr, hb⟩ := hok
    cases l with
    | canSubscribe r =>
      simp only [Conserving, Net.step, attempt, World.step]
      split <;> exact h
    | subscribe k =>
      simp only [Conserving, Net.step, attempt, World.step]
      split
      · exact h
      refine Broker.Subs.subscribe h ?_ ?_
      · intro ledger next
        exact Sub.Conserving.join (fun hn => absurd rfl hn) _ _ _
      · intro ledger next s _ hs
        exact hs.join _ _ _
    | publish topic sends found => exact h.publish hr
    | flow place conn consumerId permits sends =>
      simp only [Conserving, Net.step, attempt, World.step, Broker.flow]
      refine Broker.Subs.updateSub h ?_
      intro t s i hf _
      rw [attemptFor_of_find hf]
      exact Sub.Fits.conserving (hr _ hf)
    | ack place conn consumerId cumulative ids =>
      refine Broker.Subs.updateSub h ?_
      intro t s i _ hs
      exact hs.ack i cumulative ids
    | redeliver place conn consumerId ids sends =>
      simp only [Conserving, Net.step, attempt, World.step, Broker.redeliver]
      refine Broker.Subs.updateSub h ?_
      intro t s i hf _
      have hi := (Broker.findConsumer_eq_some hf).2.2
      have hget := getElem?_eq_getElem hi
      rw [attemptFor_of_find hf]
      have hroom : s.Fits n.free (s.consumers[i].unacked.filter (Sub.named ids)).length :=
        hr _ hf _ hget
      have hsm := hb _ hf _ hget
      generalize s.consumers[i] = c at hget hroom hsm
      have hk : ({ s with consumers := s.consumers.modify i fun c' =>
          { c' with unacked := (c.unacked.partition (Sub.named ids)).2 } } : Sub).Fits n.free
            (c.unacked.partition (Sub.named ids)).1.reverse.length := by
        rw [length_reverse, partition_eq_filter_filter]
        refine Sub.fits_of_eligible hroom rfl fun conn => ?_
        rw [Sub.eligible_modify]
        refine Sub.permitsFor_map_modify ?_ ?_ conn <;> exact fun _ => rfl
      obtain ⟨s', hg, hfi⟩ := Sub.giveBack_fits (by simpa using hsm) hk
      have hre : s.returned i ids = some s' := by
        simp only [Sub.returned, hget, bind_some]
        rw [hg]
      have hd : ∀ sends, s.redeliver i ids sends = s'.drain sends := by
        intro sends
        simp only [Sub.redeliver, hget]
        rw [hg]
      rw [hre, hd]
      exact hfi.conserving
    | unsubscribe place conn consumerId =>
      exact Broker.Subs.unsubscribe h place conn consumerId
    | closeConsumer place conn consumerId sends => exact closeConsumer_conserving h hr hb
    | dropConnection conn => exact h
    | leave k place sends =>
      cases hk : n.world.leaving[k]? with
      | none =>
        simp only [Conserving, Net.step, attempt, World.step, hk]
        exact h
      | some found =>
        simp only [Conserving, Net.step, attempt, World.step, hk]
        exact closeConsumer_conserving h (hr found hk) (hb found hk)
    | rememberRefusal key why => exact h.of_topics rfl

/-- A consumer that could get a message, with permits and with room in its writer queue, waits
while the subscription has some. -/
def Withholds (n : Net) (place : Place) : Prop :=
  ∃ s ∈ n.world.broker.sub? place, s.backlog ≠ [] ∧
    ∃ c ∈ s.eligible, 0 < c.permits ∧ 0 < n.free c.conn

instance (n : Net) (place : Place) : Decidable (n.Withholds place) := by
  unfold Withholds
  infer_instance

end Net

/-- In a run in which every call finds the room it may need, no subscription withholds a message
from a consumer that could get it. -/
theorem dispatch_conserves (calls : List Call) (hok : Meets Net.step Net.Unblocked .new calls) :
    ∀ place, ¬ (run Net.step .new calls).Withholds place := by
  have hco : (run Net.step .new calls).Conserving :=
    run_invariant_of_meets Net.Conserving.new (fun _ _ => Net.Conserving.step) calls hok
  rintro place ⟨s, hs, hb, c, hc, hp, -⟩
  obtain ⟨t, ht, hl⟩ := Broker.sub?_eq_some.1 hs
  rw [hco _ _ ht _ _ hl hb c hc] at hp
  exact absurd hp (Nat.lt_irrefl 0)

def sharedOrders : List Call :=
  [.broker (.canSubscribe ⟨orders, 1, 1, 7⟩), .broker (.subscribe 0),
    .broker (.canSubscribe ⟨orders, 1, 2, 8⟩), .broker (.subscribe 0),
    .broker (.flow orders 1 7 1 []), .broker (.flow orders 2 8 1 [])]

def publishOrders (count : ℕ) : Call :=
  .broker (.publish "orders" (List.replicate count ⟨order, fun _ => []⟩) "")

/-- The third of three orders waits for another permit; then all go back, and two are taken
again. -/
def servedOrders : List Call :=
  sharedOrders ++
    [publishOrders 3, .broker (.flow orders 2 8 1 []), .writers fun _ => 2,
      .broker (.closeConsumer orders 1 7 []), .broker (.redeliver orders 2 8 [] []),
      .broker (.flow orders 2 8 2 [])]

theorem dispatch_conserves_served : ((run Net.step .new servedOrders).world.broker.sub? orders).map
        (fun s => (s.backlog.length, s.consumers.map fun c => (c.permits, c.unacked.length))) =
      some (1, [(0, 2)]) ∧ ∀ place, ¬ (run Net.step .new servedOrders).Withholds place :=
  ⟨by decide +kernel, dispatch_conserves servedOrders (by decide +kernel)⟩

/-- A consumer that stopped reading keeps an order from the other one; and an order whose only
consumer had no room stays, once there is room, through a call for another topic. -/
theorem dispatch_withholds : (run Net.step .new
      (sharedOrders ++ [.writers fun conn => if conn = 1 then 0 else writeQueue,
        publishOrders 1])).Withholds orders ∧ (run Net.step .new
      [.broker (.canSubscribe ⟨orders, 0, 1, 7⟩), .broker (.subscribe 0),
        .broker (.flow orders 1 7 1 []), .writers fun _ => 0, publishOrders 1,
        .writers fun _ => writeQueue,
        .broker (.publish "refunds" [⟨order, fun _ => []⟩] "")]).Withholds orders := by
  decide +kernel

end NetGet.Pulsar
