import NetGet.Verification.Pulsar.Equations

/-! # Message ids -/

namespace NetGet.Pulsar

open Library List AList

def Topic.nextId (t : Topic) : MessageId := ⟨t.ledgerId, t.nextEntry⟩

theorem MessageId.before.ne {a b : MessageId} (h : a.before b) : a ≠ b := by
  rintro rfl
  unfold before at h
  omega

namespace Broker

structure Numbered (b : Broker) : Prop where
  ledgers : ∀ name t, b.topics.lookup name = some t → t.ledgerId ≤ b.nextLedger
  apart : ∀ name name' t t', b.topics.lookup name = some t → b.topics.lookup name' = some t' →
    t.ledgerId = t'.ledgerId → name = name'
  given : ∀ a ∈ b.assigned, a.2.ledgerId ≤ b.nextLedger
  own : ∀ a ∈ b.assigned, ∀ t, b.topics.lookup a.1 = some t → a.2.before t.nextId
  others : ∀ a ∈ b.assigned, ∀ name t, b.topics.lookup name = some t → a.1 ≠ name →
    a.2.ledgerId ≠ t.ledgerId
  distinct : (b.assigned.map (·.2)).Nodup
  increasing : b.assigned.Pairwise fun a a' => a.1 = a'.1 → a.2.before a'.2

namespace Numbered

variable {b b' : Broker} {topic : String} {t u : Topic}

theorem new : Broker.new.Numbered where
  ledgers := by intro _ _ h; cases h
  apart := by intro _ _ _ _ h; cases h
  given := by intro _ h; cases h
  own := by intro _ h; cases h
  others := by intro _ h; cases h
  distinct := nodup_nil
  increasing := List.Pairwise.nil

theorem of_topics (h : b.Numbered) (hl : b'.nextLedger = b.nextLedger)
    (has : b'.assigned = b.assigned)
    (hto : ∀ name t', b'.topics.lookup name = some t' →
      ∃ t, b.topics.lookup name = some t ∧ t'.nextId = t.nextId) : b'.Numbered where
  ledgers := by
    intro name t' ht'
    obtain ⟨t, ht, hid⟩ := hto name t' ht'
    have hs : t'.ledgerId = t.ledgerId := congrArg MessageId.ledgerId hid
    rw [hl, hs]
    exact h.ledgers name t ht
  apart := by
    intro name₁ name₂ t₁' t₂' ht₁' ht₂' heq
    obtain ⟨t₁, ht₁, hid₁⟩ := hto name₁ t₁' ht₁'
    obtain ⟨t₂, ht₂, hid₂⟩ := hto name₂ t₂' ht₂'
    have hs : t₁.nextId.ledgerId = t₂.nextId.ledgerId := by
      rw [← hid₁, ← hid₂]
      exact heq
    exact h.apart name₁ name₂ t₁ t₂ ht₁ ht₂ hs
  given := by rw [has, hl]; exact h.given
  own := by
    intro a ha t' ht'
    obtain ⟨t, ht, hid⟩ := hto a.1 t' ht'
    rw [hid]
    exact h.own a (has ▸ ha) t ht
  others := by
    intro a ha name t' ht' hne
    obtain ⟨t, ht, hid⟩ := hto name t' ht'
    have hs : t'.ledgerId = t.ledgerId := congrArg MessageId.ledgerId hid
    rw [hs]
    exact h.others a (has ▸ ha) name t ht hne
  distinct := by rw [has]; exact h.distinct
  increasing := by rw [has]; exact h.increasing

section

variable (h : b.Numbered)

include h

theorem insert (ht : b.topics.lookup topic = some t) (hid : u.nextId = t.nextId) :
    ({ b with topics := b.topics.insert topic u } : Broker).Numbered := by
  exact h.of_topics rfl rfl (forall_insert (fun _ t ht => ⟨t, ht, rfl⟩) ⟨t, ht, hid⟩)

theorem erase (name : String) : ({ b with topics := b.topics.erase name } : Broker).Numbered := by
  exact h.of_topics rfl rfl fun _ t ht => ⟨t, lookup_of_erase ht, rfl⟩

theorem opened (topic : String) :
    ({ b with
      nextLedger := b.nextLedger + 1
      topics := b.topics.insert topic
        { ledgerId := b.nextLedger + 1, nextEntry := 0, subs := ∅ } } : Broker).Numbered where
  ledgers := forall_insert (fun name t ht => Nat.le_succ_of_le (h.ledgers name t ht)) le_rfl
  apart := by
    intro name name' t t' ht ht' heq
    rw [lookup_insert_ite] at ht ht'
    split at ht
    · split at ht'
      · simp_all
      cases ht
      have hle := h.ledgers name' t' ht'
      simp only at heq
      omega
    split at ht'
    · cases ht'
      have hle := h.ledgers name t ht
      simp only at heq
      omega
    · exact h.apart name name' t t' ht ht' heq
  given := by
    intro a ha
    exact Nat.le_succ_of_le (h.given a ha)
  own := by
    intro a ha t ht
    rw [lookup_insert_ite] at ht
    split at ht
    · cases ht
      exact .inl (Nat.lt_succ_of_le (h.given a ha))
    · exact h.own a ha t ht
  others a ha := forall_insert (h.others a ha)
    fun _ => Nat.ne_of_lt (Nat.lt_succ_of_le (h.given a ha))
  distinct := h.distinct
  increasing := h.increasing

/-- The next id of a topic comes after all of its own and is none of another topic's. -/
theorem assign (ht : b.topics.lookup topic = some t)
    (hle : u.ledgerId = t.ledgerId) (he : u.nextEntry = t.nextEntry + 1) :
    ({ b with
      topics := b.topics.insert topic u
      assigned := b.assigned ++ [(topic, t.nextId)] } : Broker).Numbered := by
  have hf : ∀ a ∈ b.assigned, a.2 ≠ t.nextId := by
    intro a ha heq
    by_cases hn : a.1 = topic
    · exact (h.own a ha t (hn ▸ ht)).ne heq
    · exact h.others a ha topic t ht hn (congrArg MessageId.ledgerId heq)
  have hla : ∀ id : MessageId, id.before t.nextId ∨ id = t.nextId → id.before u.nextId := by
    intro id hid
    simp only [MessageId.before, Topic.nextId, hle, he] at hid ⊢
    rcases hid with hb | rfl
    · omega
    · simp
  have hl : ∀ name t₁, (b.topics.insert topic u).lookup name = some t₁ →
      ∃ t₀, b.topics.lookup name = some t₀ ∧ t₁.ledgerId = t₀.ledgerId :=
    forall_insert (fun _ t ht => ⟨t, ht, rfl⟩) ⟨t, ht, hle⟩
  refine ⟨?_, ?_, ?_, ?_, ?_, ?_, ?_⟩
  · intro name t₁ ht₁
    obtain ⟨t₀, ht₀, hs⟩ := hl name t₁ ht₁
    rw [hs]
    exact h.ledgers name t₀ ht₀
  · intro name name' t₁ t₁' ht₁ ht₁' heq
    obtain ⟨t₀, ht₀, hs⟩ := hl name t₁ ht₁
    obtain ⟨t₀', ht₀', hs'⟩ := hl name' t₁' ht₁'
    exact h.apart name name' t₀ t₀' ht₀ ht₀' (hs.symm.trans (heq.trans hs'))
  · exact forall_mem_append.2 ⟨h.given, forall_mem_singleton.2 (h.ledgers topic t ht)⟩
  · intro a ha t₁ ht₁
    rw [lookup_insert_ite] at ht₁
    rcases mem_append.1 ha with hold | hnew
    · split at ht₁
      · rename_i hn
        cases ht₁
        exact hla _ (.inl (h.own a hold t (hn ▸ ht)))
      · exact h.own a hold t₁ ht₁
    · cases mem_singleton.1 hnew
      rw [if_pos rfl] at ht₁
      cases ht₁
      exact hla _ (.inr rfl)
  · intro a ha name t₁ ht₁ hne
    obtain ⟨t₀, ht₀, hs⟩ := hl name t₁ ht₁
    rw [hs]
    rcases mem_append.1 ha with hold | hnew
    · exact h.others a hold name t₀ ht₀ hne
    · cases mem_singleton.1 hnew
      intro heq
      exact hne (h.apart topic name t t₀ ht ht₀ heq)
  · rw [map_append]
    refine h.distinct.append (nodup_singleton _) ?_
    intro id hold hnew
    obtain ⟨a, ha, rfl⟩ := mem_map.1 hold
    exact hf a ha (mem_singleton.1 hnew)
  · exact pairwise_append.2 ⟨h.increasing, pairwise_singleton _ _, fun a ha =>
      forall_mem_singleton.2 fun hs => h.own a ha t (hs ▸ ht)⟩

theorem storeAll (ht : b.topics.lookup topic = some t)
    (sends : List Send) :
    ({ b with
      topics := b.topics.insert topic (t.storeAll sends).1
      assigned := b.assigned ++ (t.storeAll sends).2.map fun id => (topic, id) } :
      Broker).Numbered := by
  induction sends generalizing b t with
  | nil =>
    rw [Topic.storeAll, map_nil, append_nil]
    exact h.insert ht rfl
  | cons send sends ih =>
    rw [Topic.storeAll]
    cases hone : t.store send with
    | none =>
      rw [map_nil, append_nil]
      exact h.insert ht rfl
    | some t' =>
      obtain ⟨next, hn, rfl⟩ := Option.map_eq_some_iff.1 hone
      obtain ⟨rfl, -⟩ := checkedAdd_eq_some.1 hn
      have hr := ih (h.assign ht (u := { t with
          nextEntry := t.nextEntry + 1
          subs := t.subs.mapValues fun name s =>
            (s.enqueue (t.stored send.entry)).drain (send.sends name) }) rfl rfl)
        (lookup_insert _)
      rw [insert_insert, append_assoc] at hr
      exact hr

theorem makeRoom (topic found : String) : (b.makeRoom topic found).Numbered := by
  unfold Broker.makeRoom
  split
  · split
    · exact h
    · exact h.erase _
  · exact h

theorem topicEntry (hl : topic ∉ b.topics → b.nextLedger + 1 < 2 ^ 64) :
    ∃ b' t, b.topicEntry topic = (b', some t) ∧
      ({ b' with topics := b'.topics.insert topic t } : Broker).Numbered := by
  unfold Broker.topicEntry
  cases ht : b.topics.lookup topic with
  | some t => exact ⟨b, t, rfl, h.insert ht rfl⟩
  | none =>
    have hr := hl (lookup_eq_none.1 ht)
    have ho := h.opened topic
    simp only [openTopic, checkedAdd_of_lt hr, wrappingAdd_of_lt hr]
    exact ⟨_, _, rfl, ho⟩

theorem publish (hl : topic ∉ b.topics → b.nextLedger + 1 < 2 ^ 64)
    (sends : List Send) (found : String) :
    (b.publish topic sends found).1.Numbered := by
  have hl' : topic ∉ (b.makeRoom topic found).topics →
      (b.makeRoom topic found).nextLedger + 1 < 2 ^ 64 := by
    rw [mem_makeRoom]
    obtain ⟨topics, hm⟩ := b.makeRoom_eq topic found
    rw [hm]
    exact hl
  obtain ⟨b', t, he, ho⟩ := (h.makeRoom topic found).topicEntry hl'
  have hs := ho.storeAll (lookup_insert _) sends
  rw [insert_insert] at hs
  rw [Broker.publish, he]
  exact hs

theorem subscribe {r : Subscribe} (hl : r.place.topic ∉ b.topics → b.nextLedger + 1 < 2 ^ 64) :
    (b.subscribe r).1.Numbered := by
  rw [Broker.subscribe]
  split
  · exact h
  obtain ⟨b', t, he, ho⟩ := h.topicEntry hl
  rw [he]
  have hi := ho.insert (lookup_insert _)
    (u := { t with
      subs := t.subs.insert r.place.sub
        (((t.subs.lookup r.place.sub).getD .default).join r.subType r.conn r.consumerId) }) rfl
  rw [insert_insert] at hi
  exact hi

theorem withConsumer {R : Type} {place : Place} {conn consumerId : ℕ}
    {f : Topic → Sub → ℕ → Topic × R} (hf : ∀ t s i, (f t s i).1.nextId = t.nextId) :
    (b.withConsumer place conn consumerId f).1.Numbered := by
  rw [Broker.withConsumer]
  cases hfi : b.findConsumer place conn consumerId with
  | none => exact h
  | some found => exact h.insert (findConsumer_eq_some hfi).1 (hf _ _ _)

theorem unsubscribe (place : Place) (conn consumerId : ℕ) :
    (b.unsubscribe place conn consumerId).1.Numbered := by
  simp only [Broker.unsubscribe]
  refine h.withConsumer ?_
  intro t s i
  split <;> rfl

end

end Numbered

end Broker

def World.opens? (w : World) : Label → Option String
  | .publish topic _ _ => some topic
  | .subscribe k => w.joining[k]?.map (·.place.topic)
  | _ => none

/-- A step that opens a topic finds a ledger for it. -/
def World.HasLedger (w : World) (l : Label) : Prop :=
  ∀ topic ∈ w.opens? l, topic ∉ w.broker.topics → w.broker.nextLedger + 1 < 2 ^ 64

instance (w : World) (l : Label) : Decidable (w.HasLedger l) := by
  unfold World.HasLedger
  infer_instance

theorem World.numbered_step {w : World} {l : Label} (h : w.broker.Numbered) (hok : w.HasLedger l) :
    (w.step l).broker.Numbered := by
  cases l with
  | canSubscribe r =>
    rw [step]
    split <;> exact h
  | subscribe k =>
    rw [step]
    cases hk : w.joining[k]? with
    | none => exact h
    | some r =>
      refine h.subscribe (hok r.place.topic ?_)
      rw [World.opens?, hk]
      rfl
  | publish topic sends found =>
    exact h.publish (hok topic rfl) sends found
  | flow | ack | redeliver | closeConsumer => exact h.withConsumer fun _ _ _ => rfl
  | unsubscribe place conn consumerId => exact h.unsubscribe place conn consumerId
  | dropConnection conn => exact h
  | leave k place sends =>
    rw [step]
    split
    · exact h
    · exact h.withConsumer fun _ _ _ => rfl
  | rememberRefusal key why => exact h.of_topics rfl rfl fun _ t ht => ⟨t, ht, rfl⟩

end NetGet.Pulsar
