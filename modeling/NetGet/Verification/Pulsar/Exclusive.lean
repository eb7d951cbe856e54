import NetGet.Verification.Pulsar.Equations

/-! # Exclusive subscriptions -/

namespace NetGet.Pulsar

open Library Machine List Option

def Sub.roster (s : Sub) : List ℤ := s.consumers.map (·.joinedAs)

structure Sub.Exclusive (s : Sub) : Prop where
  single : s.subType = 0 → s.consumers.length ≤ 1
  same : ∀ c ∈ s.consumers, c.joinedAs = s.subType

/-- The subscription keeps its type and no consumer joins. -/
structure Sub.Shrinks (s s' : Sub) : Prop where
  type_eq : s'.subType = s.subType
  sublist : s'.roster.Sublist s.roster

namespace Sub.Shrinks

variable {s s' s'' : Sub} {i : ℕ} {m : Stored}

theorem trans (h : s.Shrinks s') (h' : s'.Shrinks s'') : s.Shrinks s'' :=
  ⟨h'.type_eq.trans h.type_eq, h'.sublist.trans h.sublist⟩

theorem of_roster (ht : s'.subType = s.subType) (hr : s'.roster = s.roster) : s.Shrinks s' :=
  ⟨ht, by rw [hr]⟩

theorem roster_modify (hi : i < s.consumers.length) {f : Consumer → Consumer}
    (hf : ∀ c, (f c).joinedAs = c.joinedAs) :
    (s.consumers.modify i f).map (·.joinedAs) = s.roster := by
  obtain ⟨front, c, back, hfo, -, hm, -⟩ := exists_focus hi
  rw [hm, roster, hfo]
  simp [hf]

theorem deliver (hi : i < s'.consumers.length) {backlog : List Stored} (h : s.Shrinks s') :
    s.Shrinks (s'.deliver i m backlog) := by
  refine h.trans (of_roster rfl (roster_modify hi ?_))
  intro c
  rfl

theorem drain (h : s.Shrinks s') (sends : List Bool) : s.Shrinks (s'.drain sends) :=
  drain_keeps (P := s.Shrinks) (fun _ hi hs => hs.deliver hi) sends h

theorem pushFront (hp : s'.pushFront m = some s'') (h : s.Shrinks s') : s.Shrinks s'' := by
  obtain ⟨redelivery, -, rfl⟩ := map_eq_some_iff.1 hp
  exact ⟨h.type_eq, h.sublist⟩

section

variable (hi : i < s.consumers.length)

include hi

theorem flow (permits : ℕ) (sends : List Bool) : s.Shrinks (s.flow i permits sends) := by
  have hg : s.Shrinks
      { s with
        consumers := s.consumers.modify i fun c =>
          { c with permits := saturatingAdd 32 c.permits permits } } :=
    of_roster rfl (roster_modify hi (by intro c; rfl))
  exact hg.drain sends

theorem ack (cumulative : Bool) (ids : List MessageId) : s.Shrinks (s.ack i cumulative ids) := by
  rw [Sub.ack, getElem?_eq_getElem hi]
  refine of_roster rfl (roster_modify hi ?_)
  intro c
  rfl

theorem redeliver (ids : List MessageId) (sends : List Bool) :
    s.Shrinks (s.redeliver i ids sends) := by
  obtain ⟨hand, h, -⟩ := redeliver_keeps (P := fun _ t => s.Shrinks t)
    (fun hp h => h.pushFront hp) (fun _ hi h => h.deliver hi) (getElem?_eq_getElem hi)
    (of_roster rfl (roster_modify hi (by intro c; rfl))) sends
  exact h

theorem leave (sends : List Bool) : s.Shrinks (s.leave i sends) := by
  have hf : s.Shrinks { s with consumers := s.consumers.eraseIdx i } :=
    ⟨rfl, (eraseIdx_sublist s.consumers i).map _⟩
  obtain ⟨hand, h, -⟩ := leave_keeps (P := fun _ t => s.Shrinks t)
    (fun hp h => h.pushFront hp) (fun _ hi h => h.deliver hi) (getElem?_eq_getElem hi)
    hf
    (fun h => ⟨h.type_eq, h.sublist⟩) sends
  exact h

end

end Sub.Shrinks

namespace Sub.Exclusive

theorem shrinks {s s' : Sub} (h : s.Exclusive) (hs : s.Shrinks s') : s'.Exclusive where
  single := by
    intro ht
    have hle := hs.sublist.length_le
    rw [roster, roster, length_map, length_map] at hle
    exact hle.trans (h.single (hs.type_eq ▸ ht))
  same := by
    intro c hc
    have hmem : c.joinedAs ∈ s.roster := hs.sublist.subset (mem_map_of_mem hc)
    obtain ⟨c', hc', heq⟩ := mem_map.1 hmem
    rw [← heq, h.same c' hc', hs.type_eq]

theorem store {s : Sub} (h : s.Exclusive) (m : Stored) (sends : List Bool) :
    ((s.enqueue m).drain sends).Exclusive := by
  have hs : s.Shrinks (s.enqueue m) := .of_roster rfl rfl
  exact h.shrinks (hs.drain sends)

theorem join {s : Sub} (h : s.Exclusive) {subType : ℤ} (conn consumerId : ℕ)
    (ho : s.consumers = [] ∨ s.subType = subType ∧ s.subType ≠ 0) :
    (s.join subType conn consumerId).Exclusive := by
  rcases ho with he | ⟨ht, hs⟩
  · constructor
    · intro _
      simp [Sub.join, he]
    · intro c hc
      simp only [Sub.join, he, nil_append, mem_singleton] at hc
      simp [Sub.join, he, hc]
  have hk : (s.join subType conn consumerId).subType = s.subType := by
    simp [Sub.join, ht]
  constructor
  · intro hz
    rw [hk] at hz
    exact absurd hz hs
  rw [hk]
  exact forall_mem_append.2 ⟨h.same, forall_mem_singleton.2 ht.symm⟩

end Sub.Exclusive

/-- The check that the subscriber passed in its first section still passes. -/
def World.StillAdmits (w : World) : Label → Prop
  | .subscribe k => ∀ r ∈ w.joining[k]?, w.broker.canSubscribe r.place r.subType = .ok ()
  | _ => True

instance (w : World) : (l : Label) → Decidable (w.StillAdmits l)
  | .subscribe k => inferInstanceAs
      (Decidable (∀ r ∈ w.joining[k]?, w.broker.canSubscribe r.place r.subType = .ok ()))
  | .canSubscribe .. | .publish .. | .flow .. | .ack .. | .redeliver .. | .unsubscribe ..
  | .closeConsumer .. | .dropConnection .. | .leave .. | .rememberRefusal .. => isTrue trivial

def World.Exclusive (w : World) : Prop := w.broker.Subs fun _ _ s => s.Exclusive

theorem Sub.Exclusive.kept : Sub.Kept (fun _ _ => True) fun _ _ s => s.Exclusive where
  default _ _ := ⟨by simp [Sub.default], by simp [Sub.default]⟩
  store sends _ _ hs := hs.store _ sends
  flow permits sends hi hs := hs.shrinks (.flow hi permits sends)
  ack cumulative ids hi hs := hs.shrinks (.ack hi cumulative ids)
  redeliver sends hc _ hs := hs.shrinks (.redeliver (List.getElem?_eq_some_iff.1 hc).1 _ sends)
  leave sends hc _ hs := hs.shrinks (.leave (List.getElem?_eq_some_iff.1 hc).1 sends)

theorem World.Exclusive.step {w : World} {l : Label} (h : w.Exclusive) (hok : w.StillAdmits l) :
    (w.step l).Exclusive := by
  refine subs_step Sub.Exclusive.kept h ?_ ?_
  · cases l <;> simp [World.GivesBack, Broker.ForConsumer]
  rintro k r rfl hr ledger next s (rfl | hs) he
  · exact he.join _ _ (.inl rfl)
  · refine he.join _ _ ?_
    have hc := hok r hr
    rw [Broker.canSubscribe, hs] at hc
    simp only at hc
    split_ifs at hc with ht hsi
    by_cases he : s.consumers = []
    · exact .inl he
    have hso : ¬ s.consumers.isEmpty = true := by simpa using he
    refine .inr ⟨?_, fun hz => hsi ⟨hz, hso⟩⟩
    by_contra hne
    exact ht ⟨hso, hne⟩

/-- In a run whose subscribers all find their check still true when they are let in, an
Exclusive subscription has one consumer at most, and the consumers of a subscription joined
with its type. -/
theorem subscriptions_exclusive (ls : List Label)
    (hok : Meets World.step World.StillAdmits .new ls) (place : Place) (s : Sub)
    (hs : (run World.step .new ls).broker.sub? place = some s) :
    (s.subType = 0 → s.consumers.length ≤ 1) ∧
      ∀ c ∈ s.consumers, ∀ c' ∈ s.consumers, c.joinedAs = c'.joinedAs := by
  have hnew : World.new.Exclusive := Broker.Subs.new
  have he : (run World.step .new ls).Exclusive :=
    run_invariant_of_meets hnew (fun _ _ => World.Exclusive.step) ls hok
  obtain ⟨t, ht, hl⟩ := bind_eq_some_iff.1 hs
  have hsub : s.Exclusive := he _ _ ht _ _ hl
  refine ⟨hsub.single, ?_⟩
  intro c hc c' hc'
  rw [hsub.same c hc, hsub.same c' hc']

/-- An Exclusive consumer, and a Shared one after it has left. -/
def oneAfterTheOther : List Label :=
  [.canSubscribe ⟨orders, 0, 1, 7⟩, .subscribe 0, .closeConsumer orders 1 7 [],
    .canSubscribe ⟨orders, 1, 2, 7⟩, .subscribe 0]

theorem subscriptions_exclusive_oneAfterTheOther :
    ∃ s, (run World.step .new oneAfterTheOther).broker.sub? orders = some s ∧
      s.consumers.length = 1 ∧ (s.subType = 0 → s.consumers.length ≤ 1) ∧
      ∀ c ∈ s.consumers, ∀ c' ∈ s.consumers, c.joinedAs = c'.joinedAs := by
  have hl : ((run World.step .new oneAfterTheOther).broker.sub? orders).map
      (·.consumers.length) = some 1 := by decide
  obtain ⟨s, hs, hone⟩ := map_eq_some_iff.1 hl
  exact ⟨s, hs, hone, subscriptions_exclusive oneAfterTheOther (by decide) orders s hs⟩

/-- Two subscribers whose checks both pass before either is let in. -/
def bothAdmitted : List Label :=
  [.canSubscribe ⟨orders, 0, 1, 7⟩, .canSubscribe ⟨orders, 1, 2, 7⟩, .subscribe 0, .subscribe 0]

theorem not_exclusive_bothAdmitted :
    ∃ s, (run World.step .new bothAdmitted).broker.sub? orders = some s ∧
      s.subType = 0 ∧ s.consumers.length = 2 ∧ s.consumers.map (·.joinedAs) = [0, 1] := by
  have hsub : ((run World.step .new bothAdmitted).broker.sub? orders).map
      (fun s => (s.subType, s.consumers.length, s.consumers.map (·.joinedAs))) =
        some (0, 2, [0, 1]) := by decide
  obtain ⟨s, hs, heq⟩ := map_eq_some_iff.1 hsub
  simp only [Prod.mk.injEq] at heq
  exact ⟨s, hs, heq⟩

end NetGet.Pulsar
