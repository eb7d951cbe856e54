import NetGet.Verification.Pulsar.Equations

/-! # Memory bounds of the broker -/

namespace NetGet.Pulsar

open Library Machine List AList

/-- The bounds of a subscription with `hand` messages on their way back to the backlog. -/
structure Sub.Bounded (hand : List Stored) (s : Sub) : Prop where
  backlog : hand.length + s.backlog.length ≤ maxBacklog
  unacked : ∀ c ∈ s.consumers, c.unacked.length ≤ maxUnacked

namespace Sub.Bounded

variable {s : Sub} {hand : List Stored} {i : ℕ} {m : Stored} {ids : List MessageId} {c : Consumer}

theorem modify (h : s.Bounded hand) {f : Consumer → Consumer}
    (hf : ∀ c ∈ s.consumers, (f c).unacked.length ≤ maxUnacked) :
    ∀ c ∈ s.consumers.modify i f, c.unacked.length ≤ maxUnacked := by
  intro c hc
  rcases mem_of_mem_modify hc with hs | ⟨x, hx, rfl⟩
  · exact h.unacked c hs
  · exact hf x (mem_of_getElem? hx)

theorem deliver {backlog : List Stored} (hb : s.backlog = m :: backlog) (h : s.Bounded hand) :
    (s.deliver i m backlog).Bounded hand where
  backlog := by
    have hle := h.backlog
    rw [hb, length_cons] at hle
    change hand.length + backlog.length ≤ maxBacklog
    omega
  unacked := by
    refine h.modify ?_
    intro c hc
    have hl := length_boundedPush (by decide : 0 < maxUnacked) (h.unacked c hc) m
    change (boundedPush maxUnacked c.unacked m).length ≤ maxUnacked
    omega

theorem drain (h : s.Bounded hand) (sends : List Bool) : (s.drain sends).Bounded hand :=
  drain_keeps (fun hb _ h => h.deliver hb) sends h

theorem store (h : s.Bounded []) (m : Stored) (sends : List Bool) :
    ((s.enqueue m).drain sends).Bounded [] := by
  have hle : s.backlog.length ≤ maxBacklog := by simpa using h.backlog
  have hl := length_boundedPush (by decide : 0 < maxBacklog) hle m
  have hq : (s.enqueue m).Bounded [] := by
    refine ⟨?_, h.unacked⟩
    change ([] : List Stored).length + (boundedPush maxBacklog s.backlog m).length ≤ maxBacklog
    simp only [length_nil]
    omega
  exact hq.drain sends

theorem pushFront {s' : Sub} (hp : s.pushFront m = some s') (h : s.Bounded (m :: hand)) :
    s'.Bounded hand := by
  obtain ⟨redelivery, -, rfl⟩ := Option.map_eq_some_iff.1 hp
  refine ⟨?_, h.unacked⟩
  have hle := h.backlog
  rw [length_cons] at hle
  change hand.length + (s.backlog.length + 1) ≤ maxBacklog
  omega

theorem forget (h : s.Bounded hand) : s.Bounded [] where
  backlog := by
    have hle := h.backlog
    simp only [length_nil]
    omega
  unacked := h.unacked

theorem flow (h : s.Bounded []) (i permits : ℕ)
    (sends : List Bool) : (s.flow i permits sends).Bounded [] := by
  have hg : Sub.Bounded []
      { s with
        consumers := s.consumers.modify i fun c =>
          { c with permits := saturatingAdd 32 c.permits permits } } :=
    ⟨h.backlog, h.modify h.unacked⟩
  exact hg.drain sends

theorem foldl_filter_length {cumulative : Bool} (unacked : List Stored) :
    (ids.foldl (fun kept key => kept.filter (survives cumulative key)) unacked).length ≤
      unacked.length := by
  induction ids generalizing unacked with
  | nil => exact le_rfl
  | cons key ids ih => exact (ih _).trans (length_filter_le _ _)

theorem ack (h : s.Bounded []) (hi : i < s.consumers.length) (cumulative : Bool)
    (ids : List MessageId) : (s.ack i cumulative ids).Bounded [] := by
  rw [Sub.ack, getElem?_eq_getElem hi]
  refine ⟨h.backlog, h.modify ?_⟩
  intro c _
  exact (foldl_filter_length _).trans (h.unacked _ (getElem_mem hi))

theorem redeliver (h : s.Bounded []) (hc : s.consumers[i]? = some c)
    (hf : (c.unacked.filter (named ids)).length + s.backlog.length ≤ maxBacklog)
    (sends : List Bool) : (s.redeliver i ids sends).Bounded [] := by
  obtain ⟨hi, hget⟩ := List.getElem?_eq_some_iff.1 hc
  have hs : Sub.Bounded (c.unacked.filter (named ids)).reverse
      { s with
        consumers := s.consumers.modify i fun c' =>
          { c' with unacked := c.unacked.filter fun m => !named ids m } } := by
    refine ⟨by rwa [length_reverse], h.modify ?_⟩
    intro _ _
    exact (length_filter_le _ _).trans (h.unacked c (hget ▸ getElem_mem hi))
  obtain ⟨hand, hb, -⟩ := redeliver_keeps (P := Sub.Bounded)
    (fun hp h => pushFront hp h) (fun hba _ h => deliver hba h) hc hs sends
  exact hb.forget

theorem leave (h : s.Bounded []) (hc : s.consumers[i]? = some c)
    (hf : c.unacked.length + s.backlog.length ≤ maxBacklog) (sends : List Bool) :
    (s.leave i sends).Bounded [] := by
  have hs : Sub.Bounded c.unacked.reverse { s with consumers := s.consumers.eraseIdx i } := by
    refine ⟨by rwa [length_reverse], ?_⟩
    intro c' hc'
    exact h.unacked c' (mem_of_mem_eraseIdx hc')
  obtain ⟨hand, hb, -⟩ := leave_keeps (P := Sub.Bounded)
    (fun hp h => pushFront hp h) (fun hba _ h => deliver hba h) hc hs
    (fun h => ⟨h.backlog, h.unacked⟩) sends
  exact hb.forget

theorem join (h : s.Bounded []) (subType : ℤ) (conn consumerId : ℕ) :
    (s.join subType conn consumerId).Bounded [] := by
  exact ⟨h.backlog, List.forall_mem_append.2 ⟨h.unacked,
    List.forall_mem_singleton.2 (Nat.zero_le _)⟩⟩

theorem kept : Sub.Kept (fun s given => given.length + s.backlog.length ≤ maxBacklog)
    fun _ _ s => s.Bounded [] where
  default _ _ := ⟨Nat.zero_le _, by simp [Sub.default]⟩
  store sends _ _ hs := hs.store _ sends
  flow permits sends _ hs := hs.flow _ permits sends
  ack cumulative ids hi hs := hs.ack hi cumulative ids
  redeliver sends hc hf hs := hs.redeliver hc hf sends
  leave sends hc hf hs := hs.leave hc hf sends

end Sub.Bounded

/-- The queue of refusals lists the keys of the map once each. -/
structure Refusals.Sound (r : Refusals) : Prop where
  listed : r.order.Perm r.reasons.keys
  bounded : r.reasons.keys.length ≤ maxRefusals

namespace Broker

variable {b : Broker} {topic : String}

theorem Refusals.Sound.insert {r : Refusals} (h : r.order.Perm r.reasons.keys)
    (hr : r.reasons.keys.length < maxRefusals) (key : SendKey) (why : String) :
    Refusals.Sound
      { reasons := r.reasons.insert key why
        order := if key ∈ r.reasons then r.order else r.order ++ [key] } := by
  by_cases hmem : key ∈ r.reasons
  · have hk := keys_insert_perm hmem why
    have hl := hk.length_eq
    exact ⟨by rw [if_pos hmem]; exact h.trans hk.symm, by simp only; omega⟩
  have hk := keys_insert_of_notMem hmem why
  refine ⟨?_, ?_⟩
  · rw [if_neg hmem, hk]
    exact (perm_append_singleton key r.order).trans (h.cons key)
  · rw [hk]
    exact hr

theorem refusals_rememberRefusal (h : b.refusals.Sound) (key : SendKey) (why : String) :
    (b.rememberRefusal key why).refusals.Sound := by
  have hb := h.bounded
  unfold rememberRefusal
  by_cases hf : b.refusals.reasons.keys.length ≥ maxRefusals
  · have hl := h.listed
    cases ho : b.refusals.order with
    | nil =>
      have hle := hl.length_eq
      have hpos : 0 < maxRefusals := by decide
      rw [ho, length_nil] at hle
      omega
    | cons old order =>
      rw [ho] at hl
      have hmem : old ∈ b.refusals.reasons := mem_keys.2 (hl.subset mem_cons_self)
      have hk := keys_erase_perm hmem
      have hle := hk.length_eq
      rw [length_cons] at hle
      simp only [hf, if_true]
      refine Refusals.Sound.insert (r := ⟨b.refusals.reasons.erase old, order⟩) ?_ ?_ key why
      · exact (hl.trans hk.symm).cons_inv
      · simp only
        omega
  · simp only [hf, if_false]
    exact Refusals.Sound.insert h.listed (Nat.lt_of_not_le hf) key why

/-- There is room for another topic, or one without subscriptions to forget. -/
def HasRoom (b : Broker) (topic : String) : Prop :=
  topic ∈ b.topics ∨ b.topics.keys.length < maxTopics ∨ ∃ name ∈ b.topics.keys, b.bare name = true

theorem forgettable_of_bare (found : String) (h : ∃ name ∈ b.topics.keys, b.bare name = true) :
    ∃ name ∈ b.topics, b.forgettable found = some name := by
  rw [forgettable_eq]
  split_ifs with hf
  · exact ⟨found, mem_of_bare hf, rfl⟩
  obtain ⟨name, hn, hb⟩ := h
  cases hfi : b.topics.keys.find? b.bare with
  | none => exact absurd hb (List.find?_eq_none.1 hfi name hn)
  | some name' => exact ⟨name', mem_of_bare (find?_some hfi), rfl⟩

theorem insert_length {topics : Table String Topic} (t : Topic)
    (hle : topics.keys.length ≤ maxTopics) (hlt : topic ∉ topics → topics.keys.length < maxTopics) :
    (topics.insert topic t).keys.length ≤ maxTopics := by
  by_cases hmem : topic ∈ topics
  · rw [(keys_insert_perm hmem t).length_eq]
    exact hle
  · rw [keys_insert_of_notMem hmem, length_cons]
    exact hlt hmem

theorem publish_frame (sends : List Send) (found : String)
    (hr : b.HasRoom topic) (hle : b.topics.keys.length ≤ maxTopics) :
    (b.publish topic sends found).1.refusals = b.refusals ∧
      (b.publish topic sends found).1.topics.keys.length ≤ maxTopics := by
  obtain ⟨hle', hlt'⟩ : (b.makeRoom topic found).topics.keys.length ≤ maxTopics ∧
      (topic ∉ b.topics → (b.makeRoom topic found).topics.keys.length < maxTopics) := by
    unfold makeRoom
    split_ifs with hf
    · have hb : ∃ name ∈ b.topics.keys, b.bare name = true :=
        (hr.resolve_left hf.1).resolve_left (Nat.not_lt.2 hf.2)
      obtain ⟨name, hmem, hn⟩ := forgettable_of_bare found hb
      have hl := (keys_erase_perm hmem).length_eq
      rw [length_cons] at hl
      simp only [hn]
      omega
    · refine ⟨hle, fun hnew => ?_⟩
      by_contra hge
      exact hf ⟨hnew, Nat.le_of_not_lt hge⟩
  have hr' : (b.makeRoom topic found).refusals = b.refusals := by
    obtain ⟨topics, hm⟩ := b.makeRoom_eq topic found
    rw [hm]
  rw [publish]
  split
  · rename_i b' he
    obtain ⟨⟨_, rfl⟩, -⟩ := topicEntry_cases he
    exact ⟨hr', hle'⟩
  rename_i b' t he
  obtain ⟨⟨_, rfl⟩, -⟩ := topicEntry_cases he
  refine ⟨hr', insert_length _ hle' ?_⟩
  intro hnew
  exact hlt' (fun hmem => hnew ((mem_makeRoom found).2 hmem))

theorem subscribe_frame (r : Subscribe) (hle : b.topics.keys.length ≤ maxTopics) :
    (b.subscribe r).1.refusals = b.refusals ∧ (b.subscribe r).1.topics.keys.length ≤ maxTopics := by
  rw [subscribe]
  split_ifs with hr
  · exact ⟨rfl, hle⟩
  split
  · rename_i b' he
    obtain ⟨⟨_, rfl⟩, -⟩ := topicEntry_cases he
    exact ⟨rfl, hle⟩
  rename_i b' t he
  obtain ⟨⟨_, rfl⟩, -⟩ := topicEntry_cases he
  refine ⟨rfl, insert_length _ hle ?_⟩
  intro hnew
  by_contra hge
  exact hr ⟨hnew, Nat.le_of_not_lt hge⟩

end Broker

structure World.Bounded (w : World) : Prop where
  subs : w.broker.Subs fun _ _ s => s.Bounded []
  topics : w.broker.topics.keys.length ≤ maxTopics
  refusals : w.broker.refusals.Sound

/-- Messages that go back fit the backlog, and a publish that opens a topic finds room. -/
def World.Fits (w : World) (l : Label) : Prop :=
  w.GivesBack (fun s given => given.length + s.backlog.length ≤ maxBacklog) l ∧
    ∀ topic ∈ l.published?, w.broker.HasRoom topic

instance (b : Broker) (topic : String) : Decidable (b.HasRoom topic) := by
  unfold Broker.HasRoom
  infer_instance

instance (w : World) (l : Label) : Decidable (w.Fits l) := by
  unfold World.Fits
  infer_instance

namespace World.Bounded

variable {w : World}

theorem new : World.new.Bounded where
  subs := Broker.Subs.new
  topics := Nat.zero_le _
  refusals := ⟨List.Perm.refl _, Nat.zero_le _⟩

theorem of_withConsumer {w' : World} {place : Place} {conn consumerId : ℕ} {R : Type}
    {f : Topic → Sub → ℕ → Topic × R} (h : w.Bounded)
    (hw : w'.broker = (w.broker.withConsumer place conn consumerId f).1)
    (hs : w'.broker.Subs fun _ _ s => s.Bounded []) : w'.Bounded := by
  rw [Broker.withConsumer] at hw
  cases hf : w.broker.findConsumer place conn consumerId with
  | none =>
    rw [hf] at hw
    exact ⟨hs, hw ▸ h.topics, hw ▸ h.refusals⟩
  | some found =>
    obtain ⟨t, s, i⟩ := found
    rw [hf] at hw
    have hmem : place.topic ∈ w.broker.topics :=
      mem_iff_lookup.2 ⟨t, (Broker.findConsumer_eq_some hf).1⟩
    refine ⟨hs, ?_, hw ▸ h.refusals⟩
    rw [hw]
    exact (keys_insert_perm hmem _).length_eq.trans_le h.topics

theorem step {l : Label} (h : w.Bounded) (hok : w.Fits l) : (w.step l).Bounded := by
  have hs := World.subs_step Sub.Bounded.kept h.subs hok.1 fun _ _ _ _ _ _ _ _ hs => hs.join _ _ _
  cases l with
  | canSubscribe r =>
    simp only [World.step]
    split
    · exact h
    · exact ⟨h.subs, h.topics, h.refusals⟩
  | subscribe k =>
    cases hk : w.joining[k]? with
    | none =>
      rw [World.step, hk]
      exact h
    | some r =>
      obtain ⟨hr, ht⟩ := Broker.subscribe_frame r h.topics
      rw [World.step, hk] at hs ⊢
      exact ⟨hs, ht, by simp only [hr, h.refusals]⟩
  | publish topic sends found =>
    obtain ⟨hr, ht⟩ := Broker.publish_frame sends found (hok.2 topic rfl) h.topics
    exact ⟨hs, ht, by simp only [World.step, hr, h.refusals]⟩
  | flow | ack | redeliver | unsubscribe | closeConsumer => exact h.of_withConsumer rfl hs
  | dropConnection conn => exact ⟨h.subs, h.topics, h.refusals⟩
  | leave k =>
    cases hk : w.leaving[k]? with
    | none =>
      rw [World.step, hk]
      exact h
    | some found =>
      rw [World.step, hk] at hs ⊢
      exact h.of_withConsumer rfl hs
  | rememberRefusal key why =>
    exact ⟨hs, h.topics, Broker.refusals_rememberRefusal h.refusals key why⟩

end World.Bounded

/-- In a run in which messages that go back fit the backlog and a publish finds room for the
topic it opens, every bound holds. -/
theorem memory_bounded (ls : List Label) (hok : Meets World.step World.Fits .new ls) :
    let b := (run World.step .new ls).broker
    (∀ place s, b.sub? place = some s → s.backlog.length ≤ maxBacklog ∧
      ∀ c ∈ s.consumers, c.unacked.length ≤ maxUnacked) ∧
    b.topics.keys.length ≤ maxTopics ∧
    b.refusals.reasons.keys.length ≤ maxRefusals ∧
    b.refusals.order.Nodup ∧ ∀ key, key ∈ b.refusals.order ↔ key ∈ b.refusals.reasons := by
  have hb : (run World.step .new ls).Bounded :=
    run_invariant_of_meets World.Bounded.new (fun _ _ => World.Bounded.step) ls hok
  have hl := hb.refusals.listed
  refine ⟨?_, hb.topics, hb.refusals.bounded, ?_, ?_⟩
  · intro place s hs
    obtain ⟨t, ht, hlo⟩ := Option.bind_eq_some_iff.1 hs
    have hsub : s.Bounded [] := hb.subs _ _ ht _ _ hlo
    exact ⟨by simpa using hsub.backlog, hsub.unacked⟩
  · exact hl.nodup_iff.2 (keys_nodup _)
  · intro key
    rw [hl.mem_iff, AList.mem_keys]

def oneRedelivery : List Label :=
  [.canSubscribe ⟨orders, 1, 1, 7⟩, .subscribe 0, .flow orders 1 7 1 [],
    .publish "orders" [⟨order, fun _ => [true]⟩] "", .redeliver orders 1 7 [] [],
    .dropConnection 1, .leave 0 orders []]

theorem memory_bounded_oneRedelivery :
    ((run World.step .new oneRedelivery).broker.sub? orders).map (·.backlog.length) = some 1 ∧
      (run World.step .new oneRedelivery).broker.topics.keys.length ≤ maxTopics :=
  ⟨by decide, (memory_bounded oneRedelivery (by decide)).2.1⟩

namespace Sub

theorem length_backlog_enqueue {s : Sub} (m : Stored) (h : s.backlog.length < maxBacklog) :
    (s.enqueue m).backlog.length = s.backlog.length + 1 := by
  change (boundedPush maxBacklog s.backlog m).length = s.backlog.length + 1
  rw [boundedPush_of_lt h, length_append, length_singleton]

end Sub

theorem Topic.lookup_storeAll {t : Topic} {name : String} {s : Sub} {n : ℕ} (e : Entry)
    (hs : t.subs.lookup name = some s)
    (hr : s.backlog.length + n ≤ maxBacklog) (he : t.nextEntry + n < 2 ^ 64) :
    ∃ s', (t.storeAll (List.replicate n ⟨e, fun _ => []⟩)).1.subs.lookup name =
        some s' ∧ s'.consumers = s.consumers ∧ s'.backlog.length = s.backlog.length + n := by
  induction n generalizing t s with
  | zero => exact ⟨s, hs, rfl, rfl⟩
  | succ n ih =>
    have hsum := checkedAdd_of_lt (w := 64) (a := t.nextEntry) (b := 1) (by omega)
    have hone := s.length_backlog_enqueue (t.stored e) (by omega)
    have hst : t.store ⟨e, fun _ => []⟩ = some
        { t with
          nextEntry := t.nextEntry + 1
          subs := t.subs.mapValues fun _ s => s.enqueue (t.stored e) } := by
      rw [Topic.store, hsum]
      rfl
    rw [replicate_succ, Topic.storeAll, hst]
    obtain ⟨s', hs', hc, hl⟩ := ih
      (t := { t with
        nextEntry := t.nextEntry + 1
        subs := t.subs.mapValues fun _ s => s.enqueue (t.stored e) })
      (s := s.enqueue (t.stored e))
      (by rw [lookup_mapValues, hs, Option.map_some]) (by omega) (by simp only; omega)
    exact ⟨s', hs', hc, by omega⟩

namespace Broker

variable {b : Broker}

theorem sub?_redeliver {place : Place} {s : Sub} {c : Consumer} (hs : b.sub? place = some s)
    (hc : s.consumers = [c]) (h : ∀ m ∈ c.unacked, m.redelivery + 1 < 2 ^ 32) :
    ∃ s', (b.redeliver place c.conn c.consumerId [] []).sub? place = some s' ∧
      s'.backlog.length = c.unacked.length + s.backlog.length := by
  obtain ⟨t, ht, hl⟩ := sub?_eq_some.1 hs
  have hf : b.findConsumer place c.conn c.consumerId = some (t, s, 0) := by
    simp [findConsumer, ht, hl, hc]
  refine ⟨s.redeliver 0 [] [], sub?_updateSub hf, ?_⟩
  have hall : ∀ m ∈ c.unacked.reverse, m.redelivery + 1 < 2 ^ 32 := by
    simpa using h
  have hn : c.unacked.filter (Sub.named []) = c.unacked := by
    simp [Sub.named]
  have hget : s.consumers[0]? = some c := by
    rw [hc]
    rfl
  rw [Sub.redeliver, hget]
  simp only [partition_eq_filter_filter, hn]
  obtain ⟨backlog, history, hg, hl⟩ := Sub.giveBack_eq hall _
  rw [hg]
  exact hl.trans (by rw [length_reverse])

end Broker

/-- A consumer with one message in its hands. -/
def inHand : List Label :=
  [.canSubscribe ⟨orders, 1, 1, 7⟩, .subscribe 0, .flow orders 1 7 1 [],
    .publish "orders" [⟨order, fun _ => [true]⟩] ""]

/-- A message in a consumer's hands, then `n` that nobody takes, then the first one back. -/
def andOneMore (n : ℕ) : List Label :=
  inHand ++
    [.publish "orders" (List.replicate n ⟨order, fun _ => []⟩) "",
      .redeliver orders 1 7 [] []]

theorem sub?_andOneMore {n : ℕ} (hn : n ≤ maxBacklog) :
    ∃ s, (run World.step .new (andOneMore n)).broker.sub? orders = some s ∧
      s.backlog.length = n + 1 := by
  obtain ⟨t, s, c, ht, hs, hc, he, hb, hconn, hid, hu⟩ : ∃ t s c,
      (run World.step .new inHand).broker.topics.lookup "orders" = some t ∧
      t.subs.lookup "billing" = some s ∧ s.consumers = [c] ∧ t.nextEntry = 1 ∧
      s.backlog.length = 0 ∧ c.conn = 1 ∧ c.consumerId = 7 ∧
      c.unacked.map (·.redelivery) = [0] :=
    ⟨_, _, _, rfl, rfl, rfl, rfl, rfl, rfl, rfl, rfl⟩
  have hsm : ∀ m ∈ c.unacked, m.redelivery + 1 < 2 ^ 32 := by
    intro m hm
    have hmem : m.redelivery ∈ c.unacked.map (·.redelivery) := mem_map_of_mem hm
    rw [hu] at hmem
    have hz := List.mem_singleton.1 hmem
    omega
  have hone : c.unacked.length = 1 := by
    simpa using congrArg length hu
  have hmax : maxBacklog = 10000 := rfl
  obtain ⟨s₁, hlo, hco, hl⟩ := Topic.lookup_storeAll (n := n) order hs (by omega)
    (by omega)
  have hs₁ : (World.step (run World.step .new inHand) (.publish "orders"
      (List.replicate n ⟨order, fun _ => []⟩) "")).broker.sub? orders = some s₁ := by
    have hmem : "orders" ∈ (run World.step .new inHand).broker.topics := mem_iff_lookup.2 ⟨t, ht⟩
    have hth : (run World.step .new inHand).broker.topicEntry "orders" =
        ((run World.step .new inHand).broker, some t) := by rw [Broker.topicEntry, ht]
    rw [World.step, Broker.publish, Broker.makeRoom, if_neg fun h => h.1 hmem, hth,
      Broker.sub?_eq_some]
    exact ⟨_, lookup_insert _, hlo⟩
  obtain ⟨s₂, hs₂, hlength₂⟩ := Broker.sub?_redeliver hs₁ (hco.trans hc) hsm
  rw [hconn, hid] at hs₂
  refine ⟨s₂, ?_, by omega⟩
  rw [andOneMore, run_append]
  exact hs₂

theorem not_bounded_andOneMore :
    ∃ s, (run World.step .new (andOneMore maxBacklog)).broker.sub? orders = some s ∧
      maxBacklog < s.backlog.length := by
  obtain ⟨s, hs, hl⟩ := sub?_andOneMore le_rfl
  exact ⟨s, hs, by omega⟩

end NetGet.Pulsar
