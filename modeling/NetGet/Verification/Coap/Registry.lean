import NetGet.Model.Coap

/-! # Invariants of the registry of observers

Registrations are known by their peer and token, so every bound is one on the list of these. -/

namespace NetGet.Coap

open Library Machine List

theorem map_modifyFirst {α β : Type*} {p : α → Bool} {f : α → α} {g : α → β} (xs : List α)
    (h : ∀ x ∈ xs, p x = true → g (f x) = g x) : (modifyFirst p f xs).map g = xs.map g := by
  induction xs with
  | nil => rfl
  | cons x xs ih =>
    have hr := ih fun y hy => h y (mem_cons_of_mem _ hy)
    rw [modifyFirst]
    split_ifs with hx
    · rw [map_cons, map_cons, h x mem_cons_self hx]
    · rw [map_cons, map_cons, hr]

def Entry.id (e : Entry) : SocketAddr × Bytes := (e.observer.peer, e.observer.token)

theorem Entry.is_iff {e : Entry} {peer : SocketAddr} {token : Bytes} :
    e.is peer token = true ↔ e.id = (peer, token) := by
  simp [Entry.is, Entry.id]

namespace Observers

variable {o o' : Observers} {peer : SocketAddr} {token t : Bytes}
  {pending : Table (SocketAddr × UInt16) Bytes} {k : SocketAddr × UInt16}

def ids (o : Observers) : List (SocketAddr × Bytes) := o.list.map Entry.id

def heldBy (o : Observers) (ip : IpAddr) : List (SocketAddr × Bytes) :=
  o.ids.filter fun id => id.1.ip = ip

theorem any_is_iff : o.list.any (Entry.is peer token) = true ↔ (peer, token) ∈ o.ids := by
  simp only [any_eq_true, Entry.is_iff, ids, mem_map]

/-- The registry is within its bounds, and every pending notification is the only one of a
registered observer. -/
structure Sound (o : Observers) : Prop where
  distinct : o.ids.Nodup
  capacity : o.list.length ≤ o.cap
  perAddress : ∀ ip, (o.heldBy ip).length ≤ o.perIp
  owned : ∀ peer mid token, o.pending.lookup (peer, mid) = some token → (peer, token) ∈ o.ids
  single : ∀ peer mid mid' token, o.pending.lookup (peer, mid) = some token →
    o.pending.lookup (peer, mid') = some token → mid = mid'

def limits (o : Observers) : ℕ × ℕ := (o.cap, o.perIp)

theorem Sound.of_sublist (h : Sound o) (hl : o'.limits = o.limits) (hids : o'.ids.Sublist o.ids)
    (ho : ∀ peer mid token, o'.pending.lookup (peer, mid) = some token → (peer, token) ∈ o'.ids)
    (hs : ∀ peer mid mid' token, o'.pending.lookup (peer, mid) = some token →
      o'.pending.lookup (peer, mid') = some token → mid = mid') : Sound o' := by
  have hcap : o'.cap = o.cap := congrArg Prod.fst hl
  have hpi : o'.perIp = o.perIp := congrArg Prod.snd hl
  refine ⟨h.distinct.sublist hids, ?_, ?_, ho, hs⟩
  · have hle := hids.length_le
    rw [ids, ids, length_map, length_map] at hle
    rw [hcap]
    exact hle.trans h.capacity
  · intro ip
    rw [hpi]
    exact (hids.filter _).length_le.trans (h.perAddress ip)

/-- Fewer registrations and fewer pending notifications are sound when the owners stay. -/
theorem Sound.shrink (h : Sound o) (hl : o'.limits = o.limits) (hids : o'.ids.Sublist o.ids)
    (hp : ∀ k token, o'.pending.lookup k = some token → o.pending.lookup k = some token)
    (ho : ∀ peer mid token, o'.pending.lookup (peer, mid) = some token →
      (peer, token) ∈ o'.ids) : Sound o' := by
  refine h.of_sublist hl hids ho ?_
  intro peer mid mid' token hmid hmid'
  exact h.single peer mid mid' token (hp _ _ hmid) (hp _ _ hmid')

theorem lookup_retainOthers : (retainOthers peer token pending).lookup k = some t ↔
      pending.lookup k = some t ∧ (k.1, t) ≠ (peer, token) := by
  simp [retainOthers, Option.filter_eq_some_iff, ← not_and_or]

theorem Sound.new (cap perIp maxAge : ℕ) : Sound (new cap perIp maxAge) :=
  ⟨nodup_nil, Nat.zero_le _, fun _ => Nat.zero_le _, nofun, nofun⟩

theorem Sound.of_ids (h : Sound o) (hl : o'.limits = o.limits) (hids : o'.ids = o.ids)
    (hp : ∀ k token, o'.pending.lookup k = some token → o.pending.lookup k = some token) :
    Sound o' := by
  refine h.shrink hl (hids ▸ List.Sublist.refl _) hp ?_
  intro peer mid token hmid
  rw [hids]
  exact h.owned peer mid token (hp _ _ hmid)

theorem Sound.concat (h : Sound o) (e : Entry) (hnew : e.id ∉ o.ids)
    (hr : (o.list.filter fun e' => e'.observer.peer.ip = e.observer.peer.ip).length < o.perIp)
    (hcap : o.list.length < o.cap) : Sound { o with list := o.list ++ [e] } := by
  have hids : ids { o with list := o.list ++ [e] } = o.ids ++ [e.id] := map_append
  refine ⟨?_, ?_, ?_, ?_, h.single⟩
  · rw [hids, nodup_append]
    refine ⟨h.distinct, nodup_singleton _, ?_⟩
    intro id hid id' hid'
    rw [mem_singleton.1 hid']
    exact fun heq => hnew (heq ▸ hid)
  · rw [length_append, length_singleton]
    exact hcap
  · intro ip
    rw [heldBy, hids, filter_append, length_append]
    by_cases hip : e.observer.peer.ip = ip
    · have hh : (o.ids.filter fun id => id.1.ip = ip).length < o.perIp := by
        subst hip
        rw [ids, filter_map, length_map]
        exact hr
      have hone : ([e.id].filter fun id => id.1.ip = ip).length ≤ 1 := length_filter_le _ _
      change _ ≤ o.perIp
      omega
    · have hn : ([e.id].filter fun id => id.1.ip = ip) = [] := by
        simp [Entry.id, hip]
      rw [hn, length_nil, Nat.add_zero]
      exact h.perAddress ip
  · intro peer mid token hmid
    rw [hids]
    exact mem_append_left _ (h.owned peer mid token hmid)

theorem Sound.register (h : Sound o) (observer : Observer) (now : ℕ) :
    Sound (o.register observer now).1 := by
  unfold Observers.register
  split
  · refine h.of_ids rfl ?_ fun _ _ hk => hk
    exact map_modifyFirst _ fun e _ he => (Entry.is_iff.1 he).symm
  rename_i hnew
  rw [any_is_iff] at hnew
  split
  · exact h
  rename_i hr
  split_ifs with hcap
  · exact h
  · exact h.concat ⟨observer, now⟩ hnew (Nat.lt_of_not_le hr) (Nat.lt_of_not_le hcap)

theorem Sound.deregister (h : Sound o) (peer : SocketAddr) (token : Bytes) :
    Sound (o.deregister peer token).1 := by
  refine h.shrink rfl (filter_sublist.map _) (fun k t hk => (lookup_retainOthers.1 hk).1) ?_
  intro p mid t hp
  obtain ⟨hl, hne⟩ := lookup_retainOthers.1 hp
  obtain ⟨e, he, heq⟩ := mem_map.1 (h.owned p mid t hl)
  refine mem_map.2 ⟨e, mem_filter.2 ⟨he, ?_⟩, heq⟩
  rw [Bool.not_eq_true', ← Bool.not_eq_true, Entry.is_iff, heq]
  exact hne

theorem lookup_foldl_retainOthers {expired : List Observer} :
    (expired.foldl (fun p observer => retainOthers observer.peer observer.token p)
      pending).lookup k = some t ↔ pending.lookup k = some t ∧
        ∀ observer ∈ expired, (k.1, t) ≠ (observer.peer, observer.token) := by
  induction expired generalizing pending with
  | nil => simp
  | cons observer expired ih =>
    rw [foldl_cons, ih, lookup_retainOthers, forall_mem_cons, and_assoc]

theorem Sound.expire (h : Sound o) (now : ℕ) : Sound (o.expire now).1 := by
  refine h.shrink rfl (filter_sublist.map _) (fun k t hk => (lookup_foldl_retainOthers.1 hk).1) ?_
  intro p mid t hp
  obtain ⟨hl, hne⟩ := lookup_foldl_retainOthers.1 hp
  obtain ⟨e, he, heq⟩ := mem_map.1 (h.owned p mid t hl)
  refine mem_map.2 ⟨e, mem_filter.2 ⟨he, ?_⟩, heq⟩
  by_contra hex
  refine hne e.observer (mem_map.2 ⟨e, mem_filter.2 ⟨he, ?_⟩, rfl⟩) heq.symm
  rw [Bool.not_eq_true', ← Bool.not_eq_true]
  exact hex

theorem ids_record (o : Observers) (peer : SocketAddr) (mid : UInt16) (token : Bytes)
    (confirmable : Bool) : (o.record peer mid token confirmable).ids = o.ids := by
  simp only [ids, Observers.record]

theorem pending_record (o : Observers) (peer : SocketAddr) (mid : UInt16) (token : Bytes)
    (confirmable : Bool) : (o.record peer mid token confirmable).pending = if confirmable then
        (retainOthers peer token (o.pending.erase (peer, mid))).insert (peer, mid) token
      else o.pending.erase (peer, mid) := by
  simp only [Observers.record]

theorem limits_record (o : Observers) (peer : SocketAddr) (mid : UInt16) (token : Bytes)
    (confirmable : Bool) : (o.record peer mid token confirmable).limits = o.limits := by
  simp only [limits, Observers.record]

theorem Sound.record (h : Sound o) {mid : UInt16} (hr : (peer, token) ∈ o.ids)
    (confirmable : Bool) : Sound (o.record peer mid token confirmable) := by
  cases confirmable with
  | false =>
    refine h.of_ids (limits_record o peer mid token false) (ids_record o peer mid token false)
      fun k t hk => ?_
    rw [pending_record] at hk
    exact AList.lookup_of_erase hk
  | true =>
    -- The new notification is the only one of its observer, the others were there before.
    have hl : ∀ k t, (o.record peer mid token true).pending.lookup k = some t →
        k = (peer, mid) ∧ t = token ∨ o.pending.lookup k = some t ∧ (k.1, t) ≠ (peer, token) := by
      intro k t hk
      rw [pending_record, if_pos rfl, AList.lookup_insert_ite] at hk
      split_ifs at hk with heq
      · exact .inl ⟨heq, (Option.some.inj hk).symm⟩
      · obtain ⟨hold, hne⟩ := lookup_retainOthers.1 hk
        exact .inr ⟨AList.lookup_of_erase hold, hne⟩
    refine h.of_sublist (limits_record o peer mid token true) ?_ ?_ ?_
    · rw [ids_record]
    · intro p m t hm
      rw [ids_record]
      obtain ⟨heq, rfl⟩ | ⟨hold, -⟩ := hl _ _ hm
      · cases heq
        exact hr
      · exact h.owned p m t hold
    · intro p m m' t hm hm'
      obtain ⟨heq, rfl⟩ | ⟨hold, hne⟩ := hl _ _ hm
      · obtain ⟨heq', -⟩ | ⟨-, hne'⟩ := hl _ _ hm'
        · cases heq
          cases heq'
          rfl
        · cases heq
          exact absurd rfl hne'
      · obtain ⟨heq', rfl⟩ | ⟨hold', -⟩ := hl _ _ hm'
        · cases heq'
          exact absurd rfl hne
        · exact h.single p m m' t hold hold'

theorem Sound.acknowledge (h : Sound o) (peer : SocketAddr) (mid : UInt16) (now : ℕ) :
    Sound (o.acknowledge peer mid now).1 := by
  unfold Observers.acknowledge
  split
  · exact h
  · refine h.of_ids rfl ?_ fun _ _ hk => AList.lookup_of_erase hk
    exact map_modifyFirst _ fun _ _ _ => rfl

theorem Sound.settle (h : Sound o) (peer : SocketAddr) (mid : UInt16) : Sound (o.settle peer mid) :=
  h.of_ids rfl rfl fun _ _ hk => AList.lookup_of_erase hk

theorem Sound.reset (h : Sound o) (peer : SocketAddr) (mid : UInt16) :
    Sound (o.reset peer mid).1 := by
  simp only [Observers.reset]
  split
  · exact h.settle peer mid
  · split
    · exact h.settle peer mid
    · exact (h.settle peer mid).deregister peer _

def RecordsRegistered (o : Observers) : Call → Prop
  | .record peer _ token _ => (peer, token) ∈ o.ids
  | _ => True

instance (o : Observers) (call : Call) : Decidable (RecordsRegistered o call) := by
  cases call <;> unfold RecordsRegistered <;> infer_instance

theorem Sound.step (h : Sound o) {call : Call} (hc : RecordsRegistered o call) :
    Sound (o.step call) := by
  cases call with
  | register observer now => exact h.register observer now
  | deregister peer token => exact h.deregister peer token
  | expire now => exact h.expire now
  | record peer mid token confirmable => exact h.record hc confirmable
  | acknowledge peer mid now => exact h.acknowledge peer mid now
  | awaitingAck peer mid => exact h
  | settle peer mid => exact h.settle peer mid
  | reset peer mid => exact h.reset peer mid

theorem limits_step (o : Observers) (call : Call) : (o.step call).limits = o.limits := by
  cases call with
  | register observer now =>
    rw [step, register]
    split
    · rfl
    · split
      · rfl
      · split <;> rfl
  | acknowledge peer mid now =>
    rw [step, acknowledge]
    split <;> rfl
  | reset peer mid =>
    simp only [step, reset]
    split
    · rfl
    · split <;> rfl
  | record peer mid token confirmable => exact limits_record o peer mid token confirmable
  | deregister | expire | awaitingAck | settle => rfl

theorem limits_run (o : Observers) (calls : List Call) : (run step o calls).limits = o.limits := by
  induction calls generalizing o with
  | nil => rfl
  | cons call calls ih => rw [run_cons, ih, limits_step]

/-- After every sequence of calls that records notifications for registered observers only, no
observer is registered twice, the registry and every address are within their limits, and every
pending notification is the only one of a registered observer. -/
theorem registry_sound (cap perIp maxAge : ℕ) (calls : List Call)
    (hcalls : Meets step RecordsRegistered (new cap perIp maxAge) calls) :
    let o := run step (new cap perIp maxAge) calls
    o.ids.Nodup ∧ o.list.length ≤ cap ∧ (∀ ip, (o.heldBy ip).length ≤ perIp) ∧
      (∀ peer mid token, o.pending.lookup (peer, mid) = some token → (peer, token) ∈ o.ids) ∧
      ∀ peer mid mid' token, o.pending.lookup (peer, mid) = some token →
        o.pending.lookup (peer, mid') = some token → mid = mid' := by
  have hs : Sound (run step (new cap perIp maxAge) calls) :=
    run_invariant_of_meets (Sound.new cap perIp maxAge) (fun _ _ h hc => h.step hc) calls hcalls
  have hl := limits_run (new cap perIp maxAge) calls
  have hcap : (run step (new cap perIp maxAge) calls).cap = cap := congrArg Prod.fst hl
  have hpi : (run step (new cap perIp maxAge) calls).perIp = perIp := congrArg Prod.snd hl
  refine ⟨hs.distinct, hs.capacity.trans_eq hcap, ?_, hs.owned, hs.single⟩
  intro ip
  exact (hs.perAddress ip).trans_eq hpi

theorem registry_sound_renewed :
    let peer : SocketAddr := ⟨.v4 1, 5683, 0, 0⟩
    let calls : List Call := [.register ⟨peer, [1], "/t", none, none, 0⟩ 0, .record peer 7 [1] true,
      .record peer 8 [1] true]
    (run step (new 64 4 100) calls).ids.Nodup ∧
      (run step (new 64 4 100) calls).pending.lookup (peer, 8) = some [1] :=
  ⟨(registry_sound 64 4 100 _ (by decide)).1, by decide⟩

end Observers

end NetGet.Coap
