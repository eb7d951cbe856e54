import NetGet.Verification.Pulsar.Numbering
import NetGet.Verification.Pulsar.Record

/-! # No message is lost or delivered twice over -/

namespace NetGet.Pulsar

open Library Machine List

/-- The messages that a subscription holds: in its backlog or with a consumer. -/
def Sub.messages (s : Sub) : List Stored := s.backlog ++ s.consumers.flatMap (·.unacked)

/-- The messages held and those acknowledged are those published, each once, and their counts
are right. -/
structure History.Accounts (h : History) (held : List Stored) : Prop where
  distinct : h.published.Nodup
  placed : (held.map (·.id) ++ h.acked).Perm h.published
  counted : ∀ m ∈ held, m.redelivery = h.returned.count m.id
  returned : ∀ id ∈ h.returned, id ∈ h.published

namespace History.Accounts

variable {h : History} {held held' : List Stored} {m : Stored}

theorem of_perm (ha : h.Accounts held) (hp : held'.Perm held) : h.Accounts held' :=
  { ha with
    placed := ((hp.map _).append_right _).trans ha.placed
    counted := fun m hm => ha.counted m (hp.mem_iff.1 hm) }

theorem publish (ha : h.Accounts held) (hnew : m.id ∉ h.published) (hz : m.redelivery = 0) :
    ({ h with published := h.published ++ [m.id] } : History).Accounts (m :: held) where
  distinct := by
    refine ha.distinct.append (nodup_singleton _) ?_
    intro id hold hid
    exact hnew (List.mem_singleton.1 hid ▸ hold)
  placed := (ha.placed.cons m.id).trans (perm_append_singleton _ _).symm
  counted := by
    intro m' hm'
    rcases List.mem_cons.1 hm' with rfl | hold
    · rw [hz, count_eq_zero.2]
      intro hr
      exact hnew (ha.returned _ hr)
    · exact ha.counted m' hold
  returned := by
    intro id hid
    exact mem_append_left _ (ha.returned id hid)

theorem putBack (ha : h.Accounts (m :: held)) :
    ({ h with returned := m.id :: h.returned } : History).Accounts
      ({ m with redelivery := m.redelivery + 1 } :: held) where
  distinct := ha.distinct
  placed := ha.placed
  counted := by
    intro m' hm'
    rcases List.mem_cons.1 hm' with rfl | hold
    · rw [count_cons_self, ha.counted m mem_cons_self]
    have hne : m.id ≠ m'.id := by
      intro heq
      have hn := (ha.placed.nodup_iff.2 ha.distinct).of_append_left
      rw [map_cons, nodup_cons] at hn
      exact hn.1 (heq ▸ mem_map_of_mem hold)
    rw [count_cons_of_ne hne]
    exact ha.counted m' (mem_cons_of_mem _ hold)
  returned := by
    intro id hid
    rcases List.mem_cons.1 hid with rfl | hold
    · exact ha.placed.subset (by simp)
    · exact ha.returned id hold

theorem acknowledge {done : List Stored} (ha : h.Accounts (done ++ held)) :
    ({ h with acked := h.acked ++ done.map (·.id) } : History).Accounts held :=
  { ha with
    placed := by
      refine List.Perm.trans ?_ ha.placed
      rw [map_append, ← append_assoc]
      exact perm_append_comm.trans (append_assoc .. ▸ List.Perm.refl _)
    counted := fun m hm => ha.counted m (mem_append_right _ hm) }

end History.Accounts

namespace Sub

/-- What is told of a subscription that stayed below its bounds, with `hand` messages on their
way back to the backlog. -/
def Conserves (hand : List Stored) (s : Sub) : Prop :=
  s.history.full = false → s.reached = false ∧ s.history.Accounts (hand ++ s.messages)

variable {s : Sub} {c : Consumer}

theorem reached_eq_false : s.reached = false ↔
      s.backlog.length < maxBacklog ∧ ∀ c ∈ s.consumers, c.unacked.length < maxUnacked := by
  simp [reached]

theorem exists_others {i : ℕ} (hc : s.consumers[i]? = some c) :
    ∃ others, (s.consumers.flatMap (·.unacked)).Perm (c.unacked ++ others) ∧
      (∀ f, ((s.consumers.modify i f).flatMap (·.unacked)).Perm ((f c).unacked ++ others)) ∧
      ((s.consumers.eraseIdx i).flatMap (·.unacked)).Perm others := by
  obtain ⟨hi, -⟩ := List.getElem?_eq_some_iff.1 hc
  obtain ⟨front, x, back, hf, hx, hmo, he⟩ := exists_focus hi
  obtain rfl := Option.some.inj (hc.symm.trans hx)
  have hm : ∀ c' : Consumer, ((front ++ c' :: back).flatMap (·.unacked)).Perm
      (c'.unacked ++ (front ++ back).flatMap (·.unacked)) := by
    intro c'
    rw [flatMap_append, flatMap_cons, flatMap_append]
    exact perm_append_comm_assoc _ _ _
  refine ⟨(front ++ back).flatMap (·.unacked), ?_, ?_, ?_⟩
  · rw [hf]
    exact hm c
  · intro f
    rw [hmo]
    exact hm (f c)
  · rw [he]

theorem perm_of_parts {s' : Sub} {all given kept others : List Stored}
    (hb : s'.backlog = s.backlog) (hold : (s.consumers.flatMap (·.unacked)).Perm (all ++ others))
    (hnew : (s'.consumers.flatMap (·.unacked)).Perm (kept ++ others))
    (hs : (given ++ kept).Perm all) : (given ++ s'.messages).Perm s.messages := by
  classical
  rw [messages, messages, hb, perm_iff_count]
  intro m
  have hold := hold.count_eq m
  have hnew := hnew.count_eq m
  have hs := hs.count_eq m
  simp only [count_append] at hold hnew hs ⊢
  omega

theorem reached_modify (h : s.reached = false) {i : ℕ} (hc : s.consumers[i]? = some c)
    {f : Consumer → Consumer} (hf : (f c).unacked.length ≤ c.unacked.length) :
    ({ s with consumers := s.consumers.modify i f } : Sub).reached = false := by
  obtain ⟨hb, hu⟩ := reached_eq_false.1 h
  refine reached_eq_false.2 ⟨hb, ?_⟩
  intro c' hc'
  rcases mem_of_mem_modify hc' with hs | ⟨x, hx, rfl⟩
  · exact hu c' hs
  · obtain rfl := Option.some.inj (hc.symm.trans hx)
    exact hf.trans_lt (hu c (mem_of_getElem? hc))

namespace Conserves

variable {s : Sub} {hand : List Stored} {i : ℕ} {m : Stored}

theorem mark
    (h : s.history.full = false → s.reached = false → s.history.Accounts (hand ++ s.messages)) :
    s.mark.Conserves hand := by
  intro hf
  obtain ⟨hold, hr⟩ := Bool.or_eq_false_iff.1 hf
  exact ⟨hr, { h hold hr with }⟩

theorem deliver {backlog : List Stored} (hb : s.backlog = m :: backlog)
    (hi : i < s.consumers.length) (h : s.Conserves hand) :
    (s.deliver i m backlog).Conserves hand := by
  refine mark ?_
  intro hf _
  obtain ⟨hr, ha⟩ := h hf
  have hc := getElem?_eq_getElem hi
  have hro := (reached_eq_false.1 hr).2 _ (getElem_mem hi)
  obtain ⟨others, hold, hnew, -⟩ := exists_others hc
  refine ha.of_perm (List.Perm.append_left _ ?_)
  have ht : (take m s.consumers[i]).unacked = s.consumers[i].unacked ++ [m] :=
    boundedPush_of_lt hro m
  have haf := hnew (take m)
  rw [ht] at haf
  simp only [messages, hb]
  classical
  rw [perm_iff_count]
  intro m'
  have hold' := hold.count_eq m'
  have ha' := haf.count_eq m'
  simp only [count_append, count_cons, count_nil] at hold' ha' ⊢
  omega

theorem drain (h : s.Conserves hand) (sends : List Bool) : (s.drain sends).Conserves hand :=
  drain_keeps (fun hb hi h => h.deliver hb hi) sends h

theorem enqueue (h : s.Conserves []) (hnew : m.id ∉ s.history.published) (hz : m.redelivery = 0) :
    (s.enqueue m).Conserves [] := by
  refine mark ?_
  intro hf _
  obtain ⟨hr, ha⟩ := h hf
  refine (ha.publish hnew hz).of_perm ?_
  simp only [messages, boundedPush_of_lt (reached_eq_false.1 hr).1, nil_append, append_assoc]
  exact perm_middle

theorem pushFront {s' : Sub} (hp : s.pushFront m = some s') (h : s.Conserves (m :: hand)) :
    s'.Conserves hand := by
  obtain ⟨redelivery, hsum, rfl⟩ := Option.map_eq_some_iff.1 hp
  obtain ⟨rfl, -⟩ := checkedAdd_eq_some.1 hsum
  refine mark ?_
  intro hf _
  obtain ⟨-, ha⟩ := h hf
  exact ha.putBack.of_perm perm_middle

theorem flow (h : s.Conserves []) (hi : i < s.consumers.length) (permits : ℕ) (sends : List Bool) :
    (s.flow i permits sends).Conserves [] := by
  refine drain ?_ sends
  intro hf
  obtain ⟨hr, ha⟩ := h hf
  have hc := getElem?_eq_getElem hi
  obtain ⟨others, hold, hnew, -⟩ := exists_others hc
  exact ⟨reached_modify hr hc le_rfl, ha.of_perm (((hnew _).trans hold.symm).append_left _)⟩

theorem foldl_filter (cumulative : Bool) (ids : List MessageId) (unacked : List Stored) :
    ids.foldl (fun kept key => kept.filter (survives cumulative key)) unacked =
      unacked.filter fun m => !ids.any fun key => !survives cumulative key m := by
  induction ids generalizing unacked with
  | nil => simp
  | cons key ids ih =>
    rw [foldl_cons, ih, filter_filter]
    refine filter_congr ?_
    intro m _
    simp [Bool.and_comm]

theorem ack (h : s.Conserves []) (hi : i < s.consumers.length) (cumulative : Bool)
    (ids : List MessageId) : (s.ack i cumulative ids).Conserves [] := by
  have hc := getElem?_eq_getElem hi
  rw [Sub.ack, hc]
  intro hf
  obtain ⟨hr, ha⟩ := h hf
  simp only [foldl_filter]
  obtain ⟨others, hold, hnew, -⟩ := exists_others hc
  refine ⟨reached_modify hr hc (length_filter_le _ _), History.Accounts.acknowledge ?_⟩
  exact ha.of_perm (perm_of_parts rfl hold (hnew _) (filter_append_perm _ _))

def Counted (hand : List Stored) (s : Sub) : Prop :=
  s.Conserves hand ∧ ∀ m ∈ hand, m.redelivery + 1 < 2 ^ 32

theorem of_stuck (h : Counted hand s) (hs : Stuck hand) : s.Conserves [] := by
  obtain ⟨h, hc⟩ := h
  cases hand with
  | nil => exact h
  | cons m hand =>
    have hlt := hc m mem_cons_self
    exact absurd hlt (Nat.not_lt.2 hs)

variable {c : Consumer}

theorem redeliver (h : s.Conserves []) (hc : s.consumers[i]? = some c) {ids : List MessageId}
    (hcou : ∀ m ∈ c.unacked.filter (named ids), m.redelivery + 1 < 2 ^ 32) (sends : List Bool) :
    (s.redeliver i ids sends).Conserves [] := by
  have hs : Sub.Conserves (c.unacked.filter (named ids)).reverse
      { s with
        consumers := s.consumers.modify i fun c' =>
          { c' with unacked := c.unacked.filter fun m => !named ids m } } := by
    intro hf
    obtain ⟨hr, ha⟩ := h hf
    obtain ⟨others, hold, hnew, -⟩ := exists_others hc
    refine ⟨reached_modify hr hc (length_filter_le _ _), ha.of_perm ?_⟩
    exact perm_of_parts rfl hold (hnew _)
      (((reverse_perm _).append_right _).trans (filter_append_perm _ _))
  obtain ⟨hand, hco, hst⟩ := redeliver_keeps (P := Counted)
    (fun hp h => ⟨h.1.pushFront hp, fun m hm => h.2 m (mem_cons_of_mem _ hm)⟩)
    (fun hb hi h => ⟨h.1.deliver hb hi, h.2⟩) hc
    ⟨hs, fun m hm => hcou m (List.mem_reverse.1 hm)⟩ sends
  exact of_stuck hco hst

theorem leave (h : s.Conserves []) (hc : s.consumers[i]? = some c)
    (hcou : ∀ m ∈ c.unacked, m.redelivery + 1 < 2 ^ 32) (sends : List Bool) :
    (s.leave i sends).Conserves [] := by
  have hs : Sub.Conserves c.unacked.reverse
      { s with consumers := s.consumers.eraseIdx i } := by
    intro hf
    obtain ⟨hr, ha⟩ := h hf
    obtain ⟨hb, hu⟩ := reached_eq_false.1 hr
    obtain ⟨others, hold, -, hg⟩ := exists_others hc
    refine ⟨reached_eq_false.2 ⟨hb, ?_⟩, ha.of_perm ?_⟩
    · intro c' hc'
      exact hu c' (mem_of_mem_eraseIdx hc')
    rw [← nil_append others] at hg
    refine perm_of_parts rfl hold hg ?_
    rw [append_nil]
    exact reverse_perm _
  obtain ⟨hand, hco, hst⟩ := leave_keeps (P := Counted)
    (fun hp h => ⟨h.1.pushFront hp, fun m hm => h.2 m (mem_cons_of_mem _ hm)⟩)
    (fun hb hi h => ⟨h.1.deliver hb hi, h.2⟩) hc
    ⟨hs, fun m hm => hcou m (List.mem_reverse.1 hm)⟩ (fun h => h) sends
  exact of_stuck hco hst

theorem join (h : s.Conserves []) (subType : ℤ) (conn consumerId : ℕ) :
    (s.join subType conn consumerId).Conserves [] := by
  intro hf
  obtain ⟨hr, ha⟩ := h hf
  obtain ⟨hb, hu⟩ := reached_eq_false.1 hr
  refine ⟨reached_eq_false.2 ⟨hb, ?_⟩, ha.of_perm ?_⟩
  · exact forall_mem_append.2 ⟨hu, forall_mem_singleton.2 (by decide : 0 < maxUnacked)⟩
  · simp [messages, Sub.join]

theorem default : Sub.default.Conserves [] := by
  intro _
  exact ⟨by decide, nodup_nil, List.Perm.refl _, by simp [messages, Sub.default],
    by simp [Sub.default]⟩

end Conserves

/-- The ids a subscription was given are those of its topic, below the next. -/
def Given (ledger next : ℕ) (s : Sub) : Prop :=
  ∀ id ∈ s.history.published, id.ledgerId = ledger ∧ id.entryId < next

end Sub

def Sub.Sound (ledger next : ℕ) (s : Sub) : Prop := s.Given ledger next ∧ s.Conserves []

namespace Sub.Sound

variable {ledger next : ℕ} {s s' : Sub}

theorem of_published (h : s.Sound ledger next)
    (hp : s'.history.published = s.history.published) (hc : s'.Conserves []) :
    s'.Sound ledger next := by
  refine ⟨?_, hc⟩
  intro id hid
  exact h.1 id (hp ▸ hid)

theorem store (h : s.Sound ledger next) {m : Stored} (hid : m.id = ⟨ledger, next⟩)
    (hz : m.redelivery = 0) (sends : List Bool) :
    ((s.enqueue m).drain sends).Sound ledger (next + 1) := by
  have hnew : m.id ∉ s.history.published := by
    intro hmem
    have hlt := (h.1 m.id hmem).2
    rw [hid] at hlt
    exact lt_irrefl _ hlt
  refine ⟨?_, (h.2.enqueue hnew hz).drain sends⟩
  rw [Given, published_store, forall_mem_append, forall_mem_singleton, hid]
  exact ⟨fun id hold => ⟨(h.1 id hold).1, Nat.lt_succ_of_lt (h.1 id hold).2⟩, rfl,
    Nat.lt_succ_self next⟩

end Sub.Sound

/-- No count that a step raises overflows, and a step that opens a topic finds a ledger. -/
def World.Counts (w : World) (l : Label) : Prop :=
  w.GivesBack (fun _ given => ∀ m ∈ given, m.redelivery + 1 < 2 ^ 32) l ∧ w.HasLedger l

instance (w : World) (l : Label) : Decidable (w.Counts l) := by
  unfold World.Counts
  infer_instance

variable {w : World} {l : Label}

theorem Sub.Sound.kept :
    Sub.Kept (fun _ given => ∀ m ∈ given, m.redelivery + 1 < 2 ^ 32) Sub.Sound where
  default _ _ := ⟨fun _ hid => absurd hid not_mem_nil, Conserves.default⟩
  store sends hid hz hs := hs.store hid hz sends
  flow permits sends hi hs :=
    hs.of_published (published_flow permits sends) (hs.2.flow hi permits sends)
  ack cumulative ids hi hs :=
    hs.of_published (published_ack cumulative ids) (hs.2.ack hi cumulative ids)
  redeliver sends hc hcou hs :=
    hs.of_published (published_redeliver _ sends) (hs.2.redeliver hc hcou sends)
  leave sends hc hcou hs := hs.of_published (published_leave sends) (hs.2.leave hc hcou sends)

structure World.Accounted (w : World) : Prop where
  subs : w.broker.Subs Sub.Sound
  ids : w.broker.Numbered

theorem World.Accounted.new : World.new.Accounted := ⟨Broker.Subs.new, .new⟩

theorem World.Accounted.step (h : w.Accounted) (hok : w.Counts l) : (w.step l).Accounted := by
  refine ⟨subs_step Sub.Sound.kept h.subs hok.1 ?_, numbered_step h.ids hok.2⟩
  intro k r _ _ ledger next s _ hs
  exact hs.of_published rfl (hs.2.join _ _ _)

/-- In a run in which no count overflows and every new topic finds a ledger:

* a subscription that stayed below its bounds has each message it was given in its backlog, in
  the hands of one consumer or acknowledged, once in all, with the count of its returns;
* until an unsubscribe of it is granted, a subscription is given every message published to its
  topic;
* no id is given out twice, and the ids of a topic increase. -/
theorem messages_conserved (ls : List Label) (hok : Meets World.step World.Counts .new ls) :
    let b := (run World.step .new ls).broker
    (∀ place s, b.sub? place = some s → s.history.full = false → s.history.published.Nodup ∧
      ((s.backlog ++ s.consumers.flatMap (·.unacked)).map (·.id) ++ s.history.acked).Perm
        s.history.published ∧
      ∀ m ∈ s.backlog ++ s.consumers.flatMap (·.unacked),
        m.redelivery = s.history.returned.count m.id) ∧
    (∀ l place, (∀ conn consumerId, l = .unsubscribe place conn consumerId →
        (b.unsubscribe place conn consumerId).2 ≠ .ok ()) →
      b.Records (run World.step .new (ls ++ [l])).broker place) ∧
    (b.assigned.map (·.2)).Nodup ∧
    b.assigned.Pairwise fun a a' => a.1 = a'.1 → a.2.before a'.2 := by
  have ha : (run World.step .new ls).Accounted :=
    run_invariant_of_meets World.Accounted.new (fun _ _ => World.Accounted.step) ls hok
  refine ⟨?_, ?_, ha.ids.distinct, ha.ids.increasing⟩
  · intro place s hs hf
    obtain ⟨t, ht, hlo⟩ := Broker.sub?_eq_some.1 hs
    obtain ⟨-, hac⟩ := (ha.subs _ _ ht _ _ hlo).2 hf
    exact ⟨hac.distinct, hac.placed, hac.counted⟩
  · intro l place hl
    rw [run_concat]
    exact World.records_step _ hl

def backAndForth : List Label :=
  [.canSubscribe ⟨orders, 1, 1, 7⟩, .subscribe 0, .flow orders 1 7 2 [],
    .publish "orders" [⟨order, fun _ => [true]⟩, ⟨order, fun _ => [true]⟩] "",
    .ack orders 1 7 false [⟨1, 1⟩], .redeliver orders 1 7 [] [], .flow orders 1 7 1 [true]]

/-- The first order is in the consumer's hands again, the second is acknowledged, and an
unsubscribe by a stranger is refused. -/
theorem messages_conserved_backAndForth :
    let b := (run World.step .new backAndForth).broker
    (∃ s, b.sub? orders = some s ∧ s.messages.map (·.redelivery) = [1] ∧
      (s.messages.map (·.id) ++ s.history.acked).Perm s.history.published) ∧
    b.Records (run World.step .new (backAndForth ++ [.unsubscribe orders 2 7])).broker orders ∧
    (b.assigned.map (·.2)).Nodup ∧
    b.assigned.Pairwise fun a a' => a.1 = a'.1 → a.2.before a'.2 := by
  obtain ⟨hsubs, hrecords, hids⟩ := messages_conserved backAndForth (by decide)
  refine ⟨⟨_, rfl, by decide, (hsubs orders _ rfl (by decide)).2.1⟩, ?_, hids⟩
  refine hrecords _ orders ?_
  rintro _ _ ⟨⟩
  exact nofun

def firstOrder : Stored := Topic.stored { ledgerId := 1, nextEntry := 0, subs := ∅ } order

namespace Sub

/-- One consumer without permits, and a message that went back `n` times. -/
def wentBack (n : ℕ) : Sub :=
  { subType := 1
    consumers := [{ conn := 1, consumerId := 7, permits := 0, unacked := [], joinedAs := 1 }]
    backlog := [{ firstOrder with redelivery := n }]
    next := 0
    history :=
      { published := [firstOrder.id]
        acked := []
        returned := List.replicate n firstOrder.id
        full := false } }

def taken (n : ℕ) : Sub :=
  { wentBack n with
    consumers :=
      [{ conn := 1
         consumerId := 7
         permits := 0
         unacked := [{ firstOrder with redelivery := n }]
         joinedAs := 1 }]
    backlog := [] }

theorem flow_wentBack (n : ℕ) : (wentBack n).flow 0 1 [true] = taken n := by
  simp [flow, wentBack, drain, pick, deliver, take, mark, reached, saturatingAdd, boundedPush,
    maxBacklog, maxUnacked, taken]

theorem redeliver_taken {n : ℕ} (hn : n + 1 < 2 ^ 32) :
    (taken n).redeliver 0 [] [] = wentBack (n + 1) := by
  have hsum := checkedAdd_of_lt hn
  simp [redeliver, taken, named, giveBack, pushFront, hsum, mark, reached, drain, wentBack,
    replicate_succ, maxBacklog, maxUnacked]

theorem redeliver_taken_of_overflow {n : ℕ} (hn : 2 ^ 32 ≤ n + 1) : (taken n).redeliver 0 [] [] =
      { wentBack n with backlog := [] } := by
  have hsum : checkedAdd 32 n 1 = none := if_neg (Nat.not_lt.2 hn)
  simp [redeliver, taken, named, giveBack, pushFront, hsum, wentBack]

end Sub

/-- A message is published, then taken and asked for again `n` times. -/
def takenAndAskedFor (n : ℕ) : List Label :=
  [.canSubscribe ⟨orders, 1, 1, 7⟩, .subscribe 0,
    .publish "orders" [⟨order, fun _ => []⟩] ""] ++
  (List.replicate n [.flow orders 1 7 1 [true], .redeliver orders 1 7 [] []]).flatten

theorem takenAndAskedFor_succ (n : ℕ) : takenAndAskedFor (n + 1) =
      takenAndAskedFor n ++ [.flow orders 1 7 1 [true], .redeliver orders 1 7 [] []] := by
  simp [takenAndAskedFor, replicate_succ']

theorem Broker.findConsumer_orders {b : Broker} {s : Sub} {c : Consumer}
    (hs : b.sub? orders = some s) (hc : s.consumers = [c]) :
    ∃ t, b.findConsumer orders c.conn c.consumerId = some (t, s, 0) := by
  obtain ⟨t, ht, hl⟩ := sub?_eq_some.1 hs
  exact ⟨t, by simp [findConsumer, ht, hl, hc]⟩

theorem sub?_round {n : ℕ} (h : w.broker.sub? orders = some (.wentBack n)) :
    (run World.step w [.flow orders 1 7 1 [true], .redeliver orders 1 7 [] []]).broker.sub? orders =
      some ((Sub.taken n).redeliver 0 [] []) := by
  obtain ⟨t, hf⟩ := Broker.findConsumer_orders h rfl
  have hfl : (w.step (.flow orders 1 7 1 [true])).broker.sub? orders = some (.taken n) := by
    rw [← Sub.flow_wentBack]
    exact Broker.sub?_updateSub hf
  obtain ⟨t', hf'⟩ := Broker.findConsumer_orders hfl rfl
  exact Broker.sub?_updateSub hf'

theorem sub?_takenAndAskedFor {n : ℕ} (hn : n < 2 ^ 32) :
    (run World.step .new (takenAndAskedFor n)).broker.sub? orders = some (.wentBack n) := by
  induction n with
  | zero => rfl
  | succ n ih =>
    have hr := sub?_round (ih (Nat.lt_of_succ_lt hn))
    rw [Sub.redeliver_taken hn] at hr
    rw [takenAndAskedFor_succ, run_append]
    exact hr

/-- The message is published, not acknowledged, and nowhere. -/
theorem not_conserved_takenAndAskedFor :
    ∃ s, (run World.step .new (takenAndAskedFor (2 ^ 32))).broker.sub? orders = some s ∧
      s.history.full = false ∧ s.history.published = [⟨1, 0⟩] ∧
      s.backlog = [] ∧ (∀ c ∈ s.consumers, c.unacked = []) ∧ s.history.acked = [] := by
  obtain ⟨n, hn⟩ : ∃ n, n + 1 = 2 ^ 32 := ⟨2 ^ 32 - 1, by omega⟩
  have hr := sub?_round (sub?_takenAndAskedFor (Nat.lt_of_succ_le hn.le))
  rw [Sub.redeliver_taken_of_overflow hn.ge, ← run_append, ← takenAndAskedFor_succ, hn] at hr
  exact ⟨_, hr, rfl, rfl, rfl, by simp [Sub.wentBack], rfl⟩

end NetGet.Pulsar
