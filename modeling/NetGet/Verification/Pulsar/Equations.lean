import NetGet.Library.Focus
import NetGet.Model.Pulsar

/-! # What the broker's operations do to its subscriptions -/

namespace NetGet.Pulsar

open Library List Option AList

variable {i : ℕ}

namespace Sub

theorem pick_lt {s : Sub} (h : s.pick = some i) : i < s.consumers.length := by
  have hf := find?_some h
  by_contra hge
  rw [getElem?_eq_none (Nat.le_of_not_lt hge)] at hf
  cases hf

theorem drain_keeps {P : Sub → Prop}
    (hdeliver : ∀ {s i m backlog}, s.backlog = m :: backlog → i < s.consumers.length → P s →
      P (s.deliver i m backlog)) : ∀ {s : Sub} (sends : List Bool), P s → P (s.drain sends) := by
  intro s sends
  induction sends generalizing s with
  | nil => intro h; exact h
  | cons sent sends ih =>
    intro h
    rw [drain]
    split
    · rename_i m backlog i hb hp
      cases sent with
      | true => exact ih (hdeliver hb (pick_lt hp) h)
      | false => exact h
    · exact h

theorem giveBack_eq {messages : List Stored} (h : ∀ m ∈ messages, m.redelivery + 1 < 2 ^ 32) :
    ∀ s : Sub, ∃ backlog history, s.giveBack messages = ({ s with backlog, history }, true) ∧
      backlog.length = messages.length + s.backlog.length := by
  induction messages with
  | nil => exact fun s => ⟨s.backlog, s.history, rfl, (Nat.zero_add _).symm⟩
  | cons m messages ih =>
    intro s
    obtain ⟨hm, h⟩ := forall_mem_cons.1 h
    simp only [giveBack, pushFront, checkedAdd_of_lt hm, map_some]
    obtain ⟨backlog, history, hg, hl⟩ := ih h _
    refine ⟨backlog, history, hg, hl.trans ?_⟩
    simp only [mark, length_cons]
    omega

/-- Messages still in hand after giving messages back: none, or from the one on whose count
the sum overflowed. -/
def Stuck : List Stored → Prop
  | [] => True
  | m :: _ => 2 ^ 32 ≤ m.redelivery + 1

section Rules

variable {P : List Stored → Sub → Prop}
  (hpush : ∀ {m messages s s'}, s.pushFront m = some s' → P (m :: messages) s → P messages s')
  (hdeliver : ∀ {s i m backlog}, s.backlog = m :: backlog → i < s.consumers.length → P [] s →
    P [] (s.deliver i m backlog))
  {s : Sub} {c : Consumer}

theorem giveBack_keeps
    (hpush : ∀ {m messages s s'}, s.pushFront m = some s' → P (m :: messages) s → P messages s') :
    ∀ {messages s}, P messages s → ∃ hand, P hand (s.giveBack messages).1 ∧ Stuck hand ∧
      ((s.giveBack messages).2 = true → hand = []) := by
  intro messages
  induction messages with
  | nil => intro s h; exact ⟨[], h, trivial, fun _ => rfl⟩
  | cons m messages ih =>
    intro s h
    rw [giveBack]
    cases hone : s.pushFront m with
    | none =>
      refine ⟨m :: messages, h, ?_, fun hd => by cases hd⟩
      have hsum := map_eq_none_iff.1 hone
      by_contra hlt
      rw [checkedAdd_of_lt (Nat.lt_of_not_le hlt)] at hsum
      cases hsum
    | some s' => exact ih (hpush hone h)

include hpush hdeliver

theorem giveBack_drain_keeps {messages : List Stored} (h : P messages s) {after : Sub → Sub}
    (ha : ∀ {s}, P [] s → P [] (after s)) (sends : List Bool) :
    ∃ hand, P hand
      (match s.giveBack messages with
        | (s, true) => (after s).drain sends
        | (s, false) => s) ∧ Stuck hand := by
  obtain ⟨hand, hg, hs, hd⟩ := giveBack_keeps hpush h
  cases hb : s.giveBack messages with
  | mk s' done =>
    rw [hb] at hg hd
    cases done with
    | true =>
      obtain rfl := hd rfl
      exact ⟨[], drain_keeps hdeliver sends (ha hg), trivial⟩
    | false => exact ⟨hand, hg, hs⟩

theorem redeliver_keeps {ids : List MessageId} (hc : s.consumers[i]? = some c)
    (h : P (c.unacked.filter (named ids)).reverse
      { s with
        consumers := s.consumers.modify i fun c' =>
          { c' with unacked := c.unacked.filter fun m => !named ids m } }) (sends : List Bool) :
    ∃ hand, P hand (s.redeliver i ids sends) ∧ Stuck hand := by
  rw [redeliver, hc]
  simp only [partition_eq_filter_filter]
  exact giveBack_drain_keeps hpush hdeliver h (fun h => h) sends

theorem leave_keeps (hc : s.consumers[i]? = some c)
    (h : P c.unacked.reverse { s with consumers := s.consumers.eraseIdx i })
    (hn : ∀ {s}, P [] s → P [] { s with next := 0 }) (sends : List Bool) :
    ∃ hand, P hand (s.leave i sends) ∧ Stuck hand := by
  rw [leave, hc]
  exact giveBack_drain_keeps hpush hdeliver h hn sends

end Rules

end Sub

/-- A property of every subscription, which may speak of its topic's ledger and of the next
entry in it. -/
def Topic.Subs (Q : ℕ → ℕ → Sub → Prop) (t : Topic) : Prop :=
  ∀ name s, t.subs.lookup name = some s → Q t.ledgerId t.nextEntry s

section Topics

variable {Q : ℕ → ℕ → Sub → Prop} {t : Topic}

theorem Topic.Subs.insert (h : t.Subs Q) {name : String} {s : Sub}
    (hs : Q t.ledgerId t.nextEntry s) :
    ({ t with subs := t.subs.insert name s } : Topic).Subs Q := by
  exact forall_insert h hs

theorem Topic.Subs.erase (h : t.Subs Q) (name : String) :
    ({ t with subs := t.subs.erase name } : Topic).Subs Q := by
  exact fun name' s' hl => h name' s' (lookup_of_erase hl)

theorem Topic.Subs.storeAll
    (hs : ∀ {ledger next s m} sends, m.id = ⟨ledger, next⟩ → m.redelivery = 0 →
      Q ledger next s → Q ledger (next + 1) ((s.enqueue m).drain sends))
    {sends : List Send} (h : t.Subs Q) :
    (t.storeAll sends).1.Subs Q := by
  induction sends generalizing t with
  | nil => exact h
  | cons send sends ih =>
    rw [Topic.storeAll]
    cases hone : t.store send with
    | none => exact h
    | some t' =>
      refine ih ?_
      obtain ⟨next, hn, rfl⟩ := map_eq_some_iff.1 hone
      obtain ⟨rfl, -⟩ := checkedAdd_eq_some.1 hn
      intro name s hl
      rw [lookup_mapValues] at hl
      obtain ⟨s', hs', rfl⟩ := map_eq_some_iff.1 hl
      exact hs _ rfl rfl (h name s' hs')

end Topics

def Broker.Subs (Q : ℕ → ℕ → Sub → Prop) (b : Broker) : Prop :=
  ∀ name t, b.topics.lookup name = some t → t.Subs Q

namespace Broker

variable {Q : ℕ → ℕ → Sub → Prop} {b b' : Broker} {t : Topic} {name topic : String} {place : Place}
  {conn consumerId : ℕ} {s : Sub} {f : Sub → ℕ → Sub} {found : Option Topic}

theorem Subs.new : Broker.new.Subs Q := by
  intro name t hl
  cases hl

theorem Subs.of_topics (h : b.Subs Q) (ht : b'.topics = b.topics) : b'.Subs Q := by
  intro name t hl
  rw [ht] at hl
  exact h name t hl

theorem Subs.insert (h : b.Subs Q) (ht : t.Subs Q) :
    ({ b with topics := b.topics.insert name t } : Broker).Subs Q := by
  exact forall_insert h ht

theorem findConsumer_eq_some (h : b.findConsumer place conn consumerId = some (t, s, i)) :
    b.topics.lookup place.topic = some t ∧ t.subs.lookup place.sub = some s ∧
      i < s.consumers.length := by
  unfold findConsumer at h
  split at h
  · cases h
  rename_i t' ht
  split at h
  · cases h
  rename_i s' hs
  obtain ⟨i', hi, heq⟩ := map_eq_some_iff.1 h
  cases heq
  obtain ⟨hlt, -⟩ := findIdx?_eq_some_iff_getElem.1 hi
  exact ⟨ht, hs, hlt⟩

theorem sub?_eq_some : b.sub? place = some s ↔
      ∃ t, b.topics.lookup place.topic = some t ∧ t.subs.lookup place.sub = some s :=
  bind_eq_some_iff

theorem sub?_updateSub (h : b.findConsumer place conn consumerId = some (t, s, i)) :
    (b.updateSub place conn consumerId f).sub? place = some (f s i) := by
  rw [Broker.updateSub, withConsumer, h, sub?_eq_some]
  exact ⟨_, lookup_insert _, lookup_insert _⟩

theorem Subs.updateSub (h : b.Subs Q)
    (hf : ∀ {t s i}, b.findConsumer place conn consumerId = some (t, s, i) →
      Q t.ledgerId t.nextEntry s → Q t.ledgerId t.nextEntry (f s i)) :
    (b.updateSub place conn consumerId f).Subs Q := by
  rw [Broker.updateSub, withConsumer]
  cases hfi : b.findConsumer place conn consumerId with
  | none => exact h
  | some found =>
    obtain ⟨t, s, i⟩ := found
    obtain ⟨ht, hs, -⟩ := findConsumer_eq_some hfi
    exact h.insert ((h _ _ ht).insert (hf hfi (h _ _ ht _ _ hs)))

theorem Subs.unsubscribe (h : b.Subs Q) (place : Place) (conn consumerId : ℕ) :
    (b.unsubscribe place conn consumerId).1.Subs Q := by
  simp only [Broker.unsubscribe, withConsumer]
  cases hf : b.findConsumer place conn consumerId with
  | none => exact h
  | some found =>
    obtain ⟨t, s, i⟩ := found
    obtain ⟨ht, -, -⟩ := findConsumer_eq_some hf
    simp only
    split
    · exact h.insert (h _ _ ht)
    · exact h.insert ((h _ _ ht).erase _)

theorem topicEntry_cases (h : b.topicEntry topic = (b', found)) :
    (∃ nextLedger, b' = { b with nextLedger }) ∧
      ∀ t, found = some t → b.topics.lookup topic = some t ∨
        b.topics.lookup topic = none ∧ t.subs = ∅ := by
  unfold topicEntry at h
  split at h
  · rename_i t ht
    obtain ⟨rfl, rfl⟩ := Prod.mk.inj h
    refine ⟨⟨_, rfl⟩, ?_⟩
    intro t' heq
    cases heq
    exact .inl ht
  rename_i hn
  obtain ⟨rfl, rfl⟩ := Prod.mk.inj h
  refine ⟨⟨_, rfl⟩, ?_⟩
  intro t' heq
  obtain ⟨ledger, -, rfl⟩ := map_eq_some_iff.1 heq
  exact .inr ⟨hn, rfl⟩

def bare (b : Broker) (name : String) : Bool :=
  (b.topics.lookup name).any fun t => t.subs.keys.isEmpty

theorem mem_of_bare (h : b.bare name = true) : name ∈ b.topics := by
  cases hl : b.topics.lookup name with
  | none => simp [bare, hl] at h
  | some t => exact mem_iff_lookup.2 ⟨t, hl⟩

theorem forgettable_eq (found : String) :
    b.forgettable found = if b.bare found then some found else b.topics.keys.find? b.bare :=
  rfl

theorem bare_of_forgettable {found : String} (h : b.forgettable found = some name) :
    b.bare name = true := by
  rw [forgettable_eq] at h
  split at h
  · rename_i hb
    cases h
    exact hb
  · exact find?_some h

theorem Subs.of_topicEntry (h : b.Subs Q) (he : b.topicEntry topic = (b', some t)) : t.Subs Q := by
  obtain ⟨-, hf⟩ := topicEntry_cases he
  rcases hf t rfl with hold | ⟨-, hnew⟩
  · exact h _ _ hold
  · intro name s hl
    rw [hnew] at hl
    cases hl

theorem makeRoom_eq (b : Broker) (topic found : String) :
    ∃ topics, b.makeRoom topic found = { b with topics } := by
  unfold makeRoom
  split
  · split <;> exact ⟨_, rfl⟩
  · exact ⟨_, rfl⟩

theorem Subs.makeRoom (h : b.Subs Q) (topic found : String) : (b.makeRoom topic found).Subs Q := by
  unfold Broker.makeRoom
  split
  · split
    · exact h
    exact fun _ _ hl => h _ _ (lookup_of_erase hl)
  · exact h

theorem mem_makeRoom (found : String) :
    topic ∈ (b.makeRoom topic found).topics ↔ topic ∈ b.topics := by
  unfold makeRoom
  split
  · rename_i hf
    split
    · exact Iff.rfl
    constructor
    · intro hmem
      exact (mem_erase.1 hmem).2
    · intro hmem
      exact absurd hmem hf.1
  · exact Iff.rfl

theorem Subs.publish (h : b.Subs Q)
    (hs : ∀ {ledger next s m} sends, m.id = ⟨ledger, next⟩ → m.redelivery = 0 →
      Q ledger next s → Q ledger (next + 1) ((s.enqueue m).drain sends))
    (topic : String) (sends : List Send) (found : String) :
    (b.publish topic sends found).1.Subs Q := by
  have hr := h.makeRoom topic found
  rw [Broker.publish]
  split
  · rename_i b' he
    obtain ⟨⟨_, rfl⟩, -⟩ := topicEntry_cases he
    exact hr
  · rename_i b' t he
    obtain ⟨⟨_, rfl⟩, -⟩ := topicEntry_cases he
    exact Subs.insert hr ((hr.of_topicEntry he).storeAll hs)

theorem Subs.subscribe (h : b.Subs Q) {r : Subscribe}
    (hd : ∀ ledger next, Q ledger next (Sub.default.join r.subType r.conn r.consumerId))
    (hj : ∀ {ledger next s}, b.sub? r.place = some s → Q ledger next s →
      Q ledger next (s.join r.subType r.conn r.consumerId)) : (b.subscribe r).1.Subs Q := by
  rw [Broker.subscribe]
  split
  · exact h
  split
  · rename_i b' he
    obtain ⟨⟨_, rfl⟩, -⟩ := topicEntry_cases he
    exact h
  rename_i b' t he
  obtain ⟨⟨_, rfl⟩, hf⟩ := topicEntry_cases he
  have ht := h.of_topicEntry he
  refine Subs.insert h (ht.insert ?_)
  cases hs : t.subs.lookup r.place.sub with
  | none => exact hd _ _
  | some s =>
    refine hj ?_ (ht _ _ hs)
    rcases hf t rfl with hold | ⟨-, hnew⟩
    · rw [sub?, hold, bind_some, hs, getD_some]
    · rw [hnew] at hs
      cases hs

/-- A property of the consumer that a search finds, and of its subscription. -/
def ForConsumer (b : Broker) (place : Place) (conn consumerId : ℕ) (p : Sub → Consumer → Prop) :
    Prop :=
  ∀ found ∈ b.findConsumer place conn consumerId, ∀ c ∈ found.2.1.consumers[found.2.2]?,
    p found.2.1 c

instance {p : Sub → Consumer → Prop} [∀ s c, Decidable (p s c)] (place : Place)
    (conn consumerId : ℕ) : Decidable (b.ForConsumer place conn consumerId p) := by
  unfold ForConsumer
  infer_instance

end Broker

def Label.published? : Label → Option String
  | .publish topic _ _ => some topic
  | _ => none

/-- A property of the messages that a step takes out of a consumer's hands, and of the
subscription whose backlog they go back to. -/
def World.GivesBack (w : World) (p : Sub → List Stored → Prop) : Label → Prop
  | .redeliver place conn consumerId ids _ =>
    w.broker.ForConsumer place conn consumerId fun s c => p s (c.unacked.filter (Sub.named ids))
  | .closeConsumer place conn consumerId _ =>
    w.broker.ForConsumer place conn consumerId fun s c => p s c.unacked
  | .leave k place _ =>
    ∀ found ∈ w.leaving[k]?, w.broker.ForConsumer place found.1 found.2 fun s c => p s c.unacked
  | _ => True

instance {w : World} {p : Sub → List Stored → Prop} [∀ s given, Decidable (p s given)] (l : Label) :
    Decidable (w.GivesBack p l) := by
  cases l <;> unfold World.GivesBack <;> infer_instance

/-- The operations on a subscription keep the property, where the messages that go back to its
backlog have the property `p`. -/
structure Sub.Kept (p : Sub → List Stored → Prop) (Q : ℕ → ℕ → Sub → Prop) : Prop where
  default : ∀ ledger next, Q ledger next .default
  store : ∀ {ledger next s m} sends, m.id = ⟨ledger, next⟩ → m.redelivery = 0 →
    Q ledger next s → Q ledger (next + 1) ((s.enqueue m).drain sends)
  flow : ∀ {ledger next s i} permits sends, i < s.consumers.length →
    Q ledger next s → Q ledger next (s.flow i permits sends)
  ack : ∀ {ledger next s i} cumulative ids, i < s.consumers.length →
    Q ledger next s → Q ledger next (s.ack i cumulative ids)
  redeliver : ∀ {ledger next s i c ids} sends, s.consumers[i]? = some c →
    p s (c.unacked.filter (Sub.named ids)) → Q ledger next s →
      Q ledger next (s.redeliver i ids sends)
  leave : ∀ {ledger next s i c} sends, s.consumers[i]? = some c → p s c.unacked →
    Q ledger next s → Q ledger next (s.leave i sends)

section Steps

variable {Q : ℕ → ℕ → Sub → Prop} {p : Sub → List Stored → Prop} {w : World} {l : Label}

theorem Broker.Subs.closeConsumer (hk : Sub.Kept p Q) {b : Broker} (h : b.Subs Q) {place : Place}
    {conn consumerId : ℕ} (hp : b.ForConsumer place conn consumerId fun s c => p s c.unacked)
    (sends : List Bool) : (b.closeConsumer place conn consumerId sends).Subs Q := by
  refine h.updateSub fun hf hs => ?_
  have hget := getElem?_eq_getElem (findConsumer_eq_some hf).2.2
  exact hk.leave sends hget (hp _ hf _ hget) hs

theorem World.subs_step (hk : Sub.Kept p Q) (h : w.broker.Subs Q) (hp : w.GivesBack p l)
    (hj : ∀ k r, l = .subscribe k → w.joining[k]? = some r → ∀ ledger next s,
      s = .default ∨ w.broker.sub? r.place = some s → Q ledger next s →
        Q ledger next (s.join r.subType r.conn r.consumerId)) : (w.step l).broker.Subs Q := by
  cases l with
  | canSubscribe r =>
    rw [step]
    split <;> exact h
  | subscribe k =>
    rw [step]
    cases hr : w.joining[k]? with
    | none => exact h
    | some r =>
      have hj := hj k r rfl hr
      exact h.subscribe (fun _ _ => hj _ _ _ (.inl rfl) (hk.default _ _)) fun hs => hj _ _ _ (.inr hs)
  | publish => exact h.publish hk.store _ _ _
  | flow => exact h.updateSub fun hf => hk.flow _ _ (Broker.findConsumer_eq_some hf).2.2
  | ack => exact h.updateSub fun hf => hk.ack _ _ (Broker.findConsumer_eq_some hf).2.2
  | redeliver =>
    refine h.updateSub fun hf hs => ?_
    have hget := getElem?_eq_getElem (Broker.findConsumer_eq_some hf).2.2
    exact hk.redeliver _ hget (hp _ hf _ hget) hs
  | unsubscribe => exact h.unsubscribe _ _ _
  | closeConsumer => exact h.closeConsumer hk hp _
  | dropConnection => exact h
  | leave k =>
    rw [step]
    cases hl : w.leaving[k]? with
    | none => exact h
    | some found => exact h.closeConsumer hk (hp found hl) _
  | rememberRefusal => exact h.of_topics rfl

end Steps

def orders : Place := { topic := "orders", sub := "billing" }

def order : Entry := { payload := [1] }

end NetGet.Pulsar
