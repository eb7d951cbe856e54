import NetGet.Verification.Pulsar.Equations

/-! # What a subscription has been given -/

namespace NetGet.Pulsar

open Library AList

namespace Sub

variable {s : Sub} {i : ℕ}

theorem published_drain (sends : List Bool) :
    (s.drain sends).history.published = s.history.published :=
  drain_keeps (P := fun s' => s'.history.published = s.history.published) (fun _ _ h => h) sends rfl

theorem published_flow (permits : ℕ) (sends : List Bool) :
    (s.flow i permits sends).history.published = s.history.published :=
  published_drain sends

theorem published_store (m : Stored) (sends : List Bool) :
    ((s.enqueue m).drain sends).history.published = s.history.published ++ [m.id] :=
  published_drain sends

theorem published_pushFront {m : Stored} {s' : Sub} (h : s.pushFront m = some s') :
    s'.history.published = s.history.published := by
  obtain ⟨redelivery, -, rfl⟩ := Option.map_eq_some_iff.1 h
  rfl

theorem published_ack (cumulative : Bool) (ids : List MessageId) :
    (s.ack i cumulative ids).history.published = s.history.published := by
  rw [ack]
  split <;> rfl

theorem published_redeliver (ids : List MessageId) (sends : List Bool) :
    (s.redeliver i ids sends).history.published = s.history.published := by
  cases hc : s.consumers[i]? with
  | none => rw [redeliver, hc]
  | some c =>
    have hk : ∃ hand,
        (s.redeliver i ids sends).history.published = s.history.published ∧ Stuck hand :=
      redeliver_keeps (P := fun _ s' => s'.history.published = s.history.published)
        (fun hp h => (published_pushFront hp).trans h) (fun _ _ h => h) hc rfl sends
    obtain ⟨-, hs, -⟩ := hk
    exact hs

theorem published_leave (sends : List Bool) :
    (s.leave i sends).history.published = s.history.published := by
  cases hc : s.consumers[i]? with
  | none => rw [leave, hc]
  | some c =>
    obtain ⟨-, hs, -⟩ := leave_keeps (P := fun _ s' => s'.history.published = s.history.published)
      (fun hp h => (published_pushFront hp).trans h) (fun _ _ h => h) hc rfl
      (fun h => h) sends
    exact hs

end Sub

theorem Topic.published_storeAll {t : Topic} {name : String} {s : Sub}
    (sends : List Send) (hs : t.subs.lookup name = some s) :
    ∃ s', (t.storeAll sends).1.subs.lookup name = some s' ∧
      s'.history.published = s.history.published ++ (t.storeAll sends).2 := by
  induction sends generalizing t s with
  | nil => exact ⟨s, hs, by simp [storeAll]⟩
  | cons send sends ih =>
    rw [storeAll]
    cases hone : t.store send with
    | none => exact ⟨s, hs, by simp⟩
    | some t' =>
      obtain ⟨next, -, rfl⟩ := Option.map_eq_some_iff.1 hone
      obtain ⟨s', hs', hr⟩ := ih
        (t := { t with
          nextEntry := next
          subs := t.subs.mapValues fun name s =>
            (s.enqueue (t.stored send.entry)).drain (send.sends name) })
        (s := (s.enqueue (t.stored send.entry)).drain (send.sends name))
        (by rw [lookup_mapValues, hs, Option.map_some])
      rw [Sub.published_store, List.append_assoc] at hr
      exact ⟨s', hs', hr⟩

namespace Broker

variable {b b' : Broker} {place at' : Place} {s : Sub}

/-- From one broker to another, the ids given out to a subscription's topic are those its
record gains. -/
def Records (b b' : Broker) (place : Place) : Prop :=
  ∀ s, b.sub? place = some s → ∃ s' given, b'.sub? place = some s' ∧
    b'.assigned = b.assigned ++ given ∧
    s'.history.published =
      s.history.published ++ (given.filter fun a => a.1 = place.topic).map (·.2)

theorem Records.of_eq (ha : b'.assigned = b.assigned)
    (hsub : ∀ s, b.sub? place = some s → ∃ s', b'.sub? place = some s' ∧
      s'.history.published = s.history.published) : b.Records b' place := by
  intro s hs
  obtain ⟨s', hs', hp⟩ := hsub s hs
  exact ⟨s', [], hs', by simp [ha], by simp [hp]⟩

theorem sub?_insert (topic : String) (t : Topic) :
    ({ b with topics := b.topics.insert topic t } : Broker).sub? place =
      if place.topic = topic then t.subs.lookup place.sub else b.sub? place := by
  rw [sub?, lookup_insert_ite]
  split <;> rfl

theorem sub?_makeRoom (topic found : String) (hs : b.sub? place = some s) :
    (b.makeRoom topic found).sub? place = some s := by
  obtain ⟨t, ht, hl⟩ := sub?_eq_some.1 hs
  unfold makeRoom
  split
  · split
    · exact hs
    rename_i name hn
    have hne : place.topic ≠ name := by
      rintro rfl
      have hb := bare_of_forgettable hn
      have hmem := AList.mem_keys.1 (AList.mem_iff_lookup.2 ⟨s, hl⟩)
      simp only [bare, ht, Option.any_some, List.isEmpty_iff] at hb
      rw [hb] at hmem
      cases hmem
    rw [sub?_eq_some, AList.lookup_erase_ite, if_neg hne]
    exact ⟨t, ht, hl⟩
  · exact hs

theorem topicEntry_of_sub? {found : Option Topic} (hs : b.sub? place = some s)
    (h : b.topicEntry place.topic = (b', found)) :
    ∃ t, found = some t ∧ t.subs.lookup place.sub = some s := by
  obtain ⟨t, ht, hl⟩ := sub?_eq_some.1 hs
  rw [topicEntry, ht] at h
  cases h
  exact ⟨t, rfl, hl⟩

theorem records_publish (topic : String) (sends : List Send) (found : String)
    (place : Place) : b.Records (b.publish topic sends found).1 place := by
  intro s hs
  have hr := sub?_makeRoom topic found hs
  have ha : (b.makeRoom topic found).assigned = b.assigned := by
    obtain ⟨topics, hm⟩ := b.makeRoom_eq topic found
    rw [hm]
  rw [publish]
  split
  · rename_i b' he
    obtain ⟨⟨_, rfl⟩, -⟩ := topicEntry_cases he
    exact ⟨s, [], hr, by simp [ha], by simp⟩
  rename_i b' t he
  obtain ⟨⟨_, rfl⟩, -⟩ := topicEntry_cases he
  by_cases hn : place.topic = topic
  · subst hn
    obtain ⟨t', ht', hl⟩ := topicEntry_of_sub? hr he
    cases ht'
    obtain ⟨s', hs', hp⟩ := Topic.published_storeAll sends hl
    refine ⟨s', (t.storeAll sends).2.map fun id => (place.topic, id), ?_, ?_, ?_⟩
    · rw [sub?, lookup_insert]
      exact hs'
    · rw [← ha]
    · simp [hp, List.filter_map, Function.comp_def]
  · refine ⟨s, (t.storeAll sends).2.map fun id => (topic, id), ?_, ?_, ?_⟩
    · rw [sub?, lookup_insert_ite, if_neg hn]
      exact hr
    · rw [← ha]
    · simp [List.filter_map, Function.comp_def, Ne.symm hn]

theorem records_subscribe (r : Subscribe) (place : Place) : b.Records (b.subscribe r).1 place := by
  rw [subscribe]
  split
  · exact .of_eq rfl fun s hs => ⟨s, hs, rfl⟩
  split
  · rename_i b' he
    obtain ⟨⟨_, rfl⟩, -⟩ := topicEntry_cases he
    exact .of_eq rfl fun s hs => ⟨s, hs, rfl⟩
  rename_i b' t he
  obtain ⟨⟨_, rfl⟩, -⟩ := topicEntry_cases he
  refine .of_eq rfl ?_
  intro s hs
  by_cases ht : place.topic = r.place.topic
  · rw [sub?, ← ht, lookup_insert, Option.bind_some, lookup_insert_ite]
    rw [← ht] at he
    obtain ⟨t', ht', hl⟩ := topicEntry_of_sub? hs he
    cases ht'
    split_ifs with hsub
    · refine ⟨_, rfl, ?_⟩
      rw [← hsub, hl]
      rfl
    · exact ⟨s, hl, rfl⟩
  · refine ⟨s, ?_, rfl⟩
    rw [sub?, lookup_insert_ite, if_neg ht]
    exact hs

theorem records_updateSub {conn consumerId : ℕ} {f : Sub → ℕ → Sub}
    (hf : ∀ s i, (f s i).history.published = s.history.published) (place : Place) :
    b.Records (b.updateSub at' conn consumerId f) place := by
  rw [updateSub, withConsumer]
  cases hfi : b.findConsumer at' conn consumerId with
  | none => exact .of_eq rfl fun s hs => ⟨s, hs, rfl⟩
  | some found =>
    obtain ⟨t, s₁, i⟩ := found
    obtain ⟨ht, hs₁, -⟩ := findConsumer_eq_some hfi
    refine .of_eq rfl ?_
    intro s hs
    rw [sub?_insert]
    split_ifs with hto
    · obtain ⟨t', ht', hl⟩ := sub?_eq_some.1 hs
      rw [hto, ht] at ht'
      cases ht'
      rw [lookup_insert_ite]
      split_ifs with hsub
      · rw [hsub, hs₁] at hl
        cases hl
        exact ⟨_, rfl, hf s₁ i⟩
      · exact ⟨s, hl, rfl⟩
    · exact ⟨s, hs, rfl⟩

/-- An unsubscribe takes away its own subscription, and only when it is granted. -/
theorem records_unsubscribe (conn consumerId : ℕ)
    (hrefused : place = at' → (b.unsubscribe at' conn consumerId).2 ≠ .ok ()) :
    b.Records (b.unsubscribe at' conn consumerId).1 place := by
  simp only [unsubscribe, withConsumer] at hrefused ⊢
  cases hf : b.findConsumer at' conn consumerId with
  | none => exact .of_eq rfl fun s hs => ⟨s, hs, rfl⟩
  | some found =>
    obtain ⟨t, s₁, i⟩ := found
    obtain ⟨ht, -, -⟩ := findConsumer_eq_some hf
    refine .of_eq rfl ?_
    intro s hs
    refine ⟨s, ?_, rfl⟩
    rw [sub?_insert]
    split
    · rename_i hto
      obtain ⟨t', ht', hl⟩ := sub?_eq_some.1 hs
      rw [hto, ht] at ht'
      cases ht'
      split
      · exact hl
      rename_i hone
      have hsub : place.sub ≠ at'.sub := by
        intro hsub
        have hat : place = at' := by
          cases place
          cases at'
          simp_all
        simp only [hf, if_neg hone] at hrefused
        exact hrefused hat rfl
      simp only [lookup_erase_ite, if_neg hsub]
      exact hl
    · exact hs

end Broker

/-- One step of a run adds to the record of every subscription it does not take away exactly
the ids it gives out to the topic. -/
theorem World.records_step (w : World) {l : Label} {place : Place}
    (hl : ∀ conn consumerId, l = .unsubscribe place conn consumerId →
      (w.broker.unsubscribe place conn consumerId).2 ≠ .ok ()) :
    w.broker.Records (w.step l).broker place := by
  cases l with
  | canSubscribe r =>
    rw [step]
    split <;> exact .of_eq rfl fun s hs => ⟨s, hs, rfl⟩
  | subscribe k =>
    rw [step]
    cases w.joining[k]? with
    | none => exact .of_eq rfl fun s hs => ⟨s, hs, rfl⟩
    | some r => exact Broker.records_subscribe r place
  | publish topic sends found =>
    exact Broker.records_publish topic sends found place
  | flow => exact Broker.records_updateSub (fun _ _ => Sub.published_flow _ _) place
  | ack => exact Broker.records_updateSub (fun _ _ => Sub.published_ack _ _) place
  | redeliver => exact Broker.records_updateSub (fun _ _ => Sub.published_redeliver _ _) place
  | unsubscribe at' conn consumerId =>
    refine Broker.records_unsubscribe conn consumerId ?_
    rintro rfl
    exact hl conn consumerId rfl
  | closeConsumer => exact Broker.records_updateSub (fun _ _ => Sub.published_leave _) place
  | dropConnection | rememberRefusal => exact .of_eq rfl fun s hs => ⟨s, hs, rfl⟩
  | leave k at' sends =>
    rw [step]
    split
    · exact .of_eq rfl fun s hs => ⟨s, hs, rfl⟩
    · exact Broker.records_updateSub (fun _ _ => Sub.published_leave _) place

end NetGet.Pulsar
