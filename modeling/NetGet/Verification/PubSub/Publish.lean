import NetGet.Library.Machine
import NetGet.Verification.PubSub.Delivery

/-! # Publishing, and every run of a server -/

namespace NetGet.PubSub.Server

open Library ByteOrder ReverseIndex List Function

variable {encode : Resp → ℕ → Bytes} {globMatch : Bytes → Bytes → Bool} {s : Server}
  {channel message : Bytes} {shard : Bool} {conn : ConnectionId} {p : Publishing}
  {ts : List (ConnectionId × Option Bytes)}

def frameFor (encode : Resp → ℕ → Bytes) (s : Server) (channel message : Bytes) (shard : Bool)
    (conn : ConnectionId) (pattern : Option Bytes) : OutFrame where
  bytes := encode (messageFrame (if shard then .shard else .channel) pattern channel message)
    (s.protos conn)
  counted := true
  about := .message (subscription channel shard pattern).1 (subscription channel shard pattern).2
    (s.confirmedAt conn (subscription channel shard pattern).1
      (subscription channel shard pattern).2)

/-- The subscriptions of a connection that a message is for: the channel, then the patterns in
order. -/
def matching (globMatch : Bytes → Bytes → Bool) (h : Hub) (channel : Bytes) (shard : Bool)
    (conn : ConnectionId) : List (Option Bytes) :=
  (if channel ∈ h.names conn (if shard then .shard else .channel) then [none] else []) ++
    if shard then []
    else (((h.names conn .pattern).filter (globMatch · channel)).sort (· ≤ ·)).map some

def frames (encode : Resp → ℕ → Bytes) (globMatch : Bytes → Bytes → Bool) (s : Server)
    (channel message : Bytes) (shard : Bool) (conn : ConnectionId) : List OutFrame :=
  (matching globMatch s.hub channel shard conn).map (s.frameFor encode channel message shard conn)

theorem filter_targets {α : Type*} {l : List ConnectionId} (hl : l.Nodup) (conn : ConnectionId)
    (x : α) :
    ((l.map fun c => (c, x)).filter (·.1 = conn)).map (·.2) = if conn ∈ l then [x] else [] := by
  induction l with
  | nil => rfl
  | cons c l ih =>
    obtain ⟨hc, hl⟩ := nodup_cons.1 hl
    by_cases heq : c = conn
    · subst heq
      have hr := ih hl
      rw [if_neg hc] at hr
      simp [hr]
    · have hne : conn ≠ c := Ne.symm heq
      simp [heq, hne, ih hl]

theorem filter_patternTargets {l : Bytes → List ConnectionId} (hl : ∀ pattern, (l pattern).Nodup)
    (conn : ConnectionId) (patterns : List Bytes) :
    ((patterns.flatMap fun pattern => (l pattern).map fun c => (c, some pattern)).filter
      (·.1 = conn)).map (·.2) = (patterns.filter (conn ∈ l ·)).map some := by
  induction patterns with
  | nil => rfl
  | cons pattern patterns ih =>
    rw [flatMap_cons, filter_append, map_append, ih, filter_targets (hl pattern), filter_cons]
    simp only [decide_eq_true_eq]
    split <;> rfl

theorem targets_of (hh : s.hub.Linked) (conn : ConnectionId) :
    ((targets globMatch s.hub channel shard).filter (·.1 = conn)).map (·.2) =
      matching globMatch s.hub channel shard conn := by
  have hd (kind : Kind) : ((((holders (s.hub.index kind) channel).sort (· ≤ ·)).map
        fun conn => (conn, (none : Option Bytes))).filter (·.1 = conn)).map (·.2) =
      if channel ∈ s.hub.names conn kind then [none] else [] := by
    rw [filter_targets (Finset.sort_nodup _ _)]
    simp only [Finset.mem_sort, hh.index_iff]
  have hm : (((s.hub.index .pattern).keys.filter (globMatch · channel)).toFinset.sort
        (· ≤ ·)).filter (fun pattern =>
          conn ∈ (holders (s.hub.index .pattern) pattern).sort (· ≤ ·)) =
      ((s.hub.names conn .pattern).filter (globMatch · channel)).sort (· ≤ ·) := by
    refine (List.Pairwise.filter _ (Finset.sortedLT_sort _).pairwise).sortedLT.eq_of_mem_iff
      (Finset.sortedLT_sort _) fun pattern => ?_
    have hkey : pattern ∈ s.hub.names conn .pattern → pattern ∈ (s.hub.index .pattern).keys :=
      fun hn => hh.mem_index.2 ⟨conn, hn⟩
    simp only [mem_filter, Finset.mem_sort, mem_toFinset, decide_eq_true_eq,
      hh.index_iff, Finset.mem_filter]
    exact ⟨fun h => ⟨h.2, h.1.2⟩, fun h => ⟨⟨hkey h.1, h.2⟩, h.1⟩⟩
  cases shard with
  | true => exact (hd .shard).trans (append_nil _).symm
  | false =>
    simp only [targets, matching, Bool.false_eq_true, if_false, filter_append, map_append]
    rw [hd .channel, filter_patternTargets fun pattern => Finset.sort_nodup _ _, hm]

theorem mem_matching {pattern : Option Bytes}
    (hp : pattern ∈ matching globMatch s.hub channel shard conn) :
    (subscription channel shard pattern).2 ∈
      s.hub.names conn (subscription channel shard pattern).1 := by
  rcases mem_append.1 hp with h | h
  · by_cases hn : channel ∈ s.hub.names conn (if shard then .shard else .channel)
    · rw [if_pos hn, mem_singleton] at h
      rw [h]
      exact hn
    · rw [if_neg hn] at h
      cases h
  · split at h
    · cases h
    · obtain ⟨name, hn, rfl⟩ := mem_map.1 h
      exact (Finset.mem_filter.1 ((Finset.mem_sort _).1 hn)).1

section

variable {frame : ConnectionId → Option Bytes → OutFrame}

/-- The frames for a connection among some targets. -/
def framesAmong (frame : ConnectionId → Option Bytes → OutFrame)
    (ts : List (ConnectionId × Option Bytes)) (conn : ConnectionId) : List OutFrame :=
  ((ts.filter (·.1 = conn)).map (·.2)).map (frame conn)

theorem framesAmong_concat (ts : List (ConnectionId × Option Bytes)) (conn conn' : ConnectionId)
    (pattern : Option Bytes) : framesAmong frame (ts ++ [(conn, pattern)]) conn' =
      framesAmong frame ts conn' ++ if conn' = conn then [frame conn pattern] else [] := by
  unfold framesAmong
  by_cases heq : conn' = conn
  · subst heq
    simp
  · simp [heq, Ne.symm heq]

/-- How far a publish has come after some of its targets. -/
structure Published (frame : ConnectionId → Option Bytes → OutFrame) (s : Server)
    (ts : List (ConnectionId × Option Bytes)) (p : Publishing) : Prop where
  hub : p.server.hub = s.hub
  protos : p.server.protos = s.protos
  confirmedAt : p.server.confirmedAt = s.confirmedAt
  outboxes : ∀ conn, p.server.outboxes conn =
    (s.outboxes conn).deliverAll (framesAmong frame ts conn)
  failed : ∀ conn, conn ∈ p.slow ++ p.gone ↔
    ((s.outboxes conn).accepts (framesAmong frame ts conn)).length <
      (framesAmong frame ts conn).length
  delivered : p.delivered = ∑ conn ∈ s.hub.subscribers.keys.toFinset,
    ((s.outboxes conn).accepts (framesAmong frame ts conn)).length

/-- A publish that comes one target further. -/
structure Delivers (f : OutFrame) (conn : ConnectionId) (p p' : Publishing) : Prop where
  server : p'.server = p.server.updateOutbox conn (fun o => (o.deliver f.bytes f.about).1)
  delivered : p'.delivered = p.delivered +
    if ((p.server.outboxes conn).deliver f.bytes f.about).2 = .queued then 1 else 0
  failed : ∀ conn', conn' ∈ p'.slow ++ p'.gone ↔ conn' ∈ p.slow ++ p.gone ∨
    conn' = conn ∧ ((p.server.outboxes conn).deliver f.bytes f.about).2 ≠ .queued

theorem Published.concat {p' : Publishing} (hp : Published frame s ts p)
    (hc : ∀ conn pattern, (frame conn pattern).counted = true)
    (hso : (s.hub.subscribers.lookup conn).isSome) {pattern : Option Bytes}
    (hp' : Delivers (frame conn pattern) conn p p') :
    Published frame s (ts ++ [(conn, pattern)]) p' := by
  have hd := hp'.delivered
  have hfa := hp'.failed
  rw [hp.outboxes] at hd hfa
  -- only the connection of the target gets a frame more
  have ha (conn' : ConnectionId) :
      (s.outboxes conn').accepts (framesAmong frame (ts ++ [(conn, pattern)]) conn') =
      (s.outboxes conn').accepts (framesAmong frame ts conn') ++
        if conn' = conn ∧ (((s.outboxes conn).deliverAll (framesAmong frame ts conn)).deliver
          (frame conn pattern).bytes (frame conn pattern).about).2 = .queued
        then [frame conn pattern] else [] := by
    rw [framesAmong_concat]
    by_cases heq : conn' = conn
    · subst heq
      rw [if_pos rfl, Outbox.accepts_concat fun f hf => ?_]
      · simp only [true_and]
      · rw [framesAmong, ← map_singleton, ← map_append] at hf
        obtain ⟨pattern', -, rfl⟩ := mem_map.1 hf
        exact hc conn' pattern'
    · simp [heq]
  generalize (((s.outboxes conn).deliverAll (framesAmong frame ts conn)).deliver
    (frame conn pattern).bytes (frame conn pattern).about).2 = delivery at *
  refine ⟨?_, ?_, ?_, fun conn' => ?_, fun conn' => ?_, ?_⟩
  · rw [hp'.server]
    exact hp.hub
  · rw [hp'.server]
    exact hp.protos
  · rw [hp'.server]
    exact hp.confirmedAt
  · rw [hp'.server, framesAmong_concat]
    simp only [updateOutbox, update_apply, hp.outboxes]
    by_cases heq : conn' = conn
    · rw [if_pos heq, if_pos heq, heq, Outbox.deliverAll_concat]
    · rw [if_neg heq, if_neg heq, append_nil]
  · rw [hfa, hp.failed, ha, framesAmong_concat, length_append, length_append]
    have hle : ((s.outboxes conn').accepts (framesAmong frame ts conn')).length ≤
        (framesAmong frame ts conn').length := Outbox.length_accepts_le _ _
    grind
  · rw [hd, hp.delivered]
    simp only [ha, length_append, Finset.sum_add_distrib]
    refine congrArg _ ?_
    have hkey : conn ∈ s.hub.subscribers.keys.toFinset := by
      rw [mem_toFinset, ← AList.mem_keys]
      exact AList.lookup_isSome.1 hso
    by_cases hq : delivery = .queued
    · simp [hq, apply_ite length, hkey]
    · simp [hq]

end

variable (encode channel message shard) in
theorem delivers_publishOne (hso : (p.server.hub.subscribers.lookup conn).isSome)
    (pattern : Option Bytes) :
    Delivers (p.server.frameFor encode channel message shard conn pattern) conn p
      (publishOne encode channel message shard p (conn, pattern)) := by
  obtain ⟨sub, hsub⟩ := Option.isSome_iff_exists.1 hso
  generalize hf : p.server.frameFor encode channel message shard conn pattern = f
  rcases hd : (p.server.outboxes conn).deliver f.bytes f.about with ⟨outbox, d⟩
  have hse : p.server.updateOutbox conn (fun o => (o.deliver f.bytes f.about).1) =
      p.server.updateOutbox conn fun _ => outbox := by
    simp only [updateOutbox, hd]
  have hd' := hd
  rw [← hf] at hd'
  simp only [frameFor] at hd'
  simp only [publishOne, hsub, hd']
  cases d with
  | queued => exact ⟨hse.symm, by simp [hd], by simp [hd]⟩
  | overflow | gone =>
    simp only
    split <;> exact ⟨hse.symm, by simp [hd], by simp only [hd]; grind⟩

theorem published_foldl (ts : List (ConnectionId × Option Bytes))
    (hts : ∀ t ∈ ts, (s.hub.subscribers.lookup t.1).isSome) :
    Published (s.frameFor encode channel message shard) s ts
      (ts.foldl (publishOne encode channel message shard) ⟨s, 0, [], []⟩) := by
  induction ts using reverseRecOn with
  | nil =>
    refine ⟨rfl, rfl, rfl, fun _ => rfl, fun _ => ⟨nofun, nofun⟩, ?_⟩
    exact (Finset.sum_eq_zero fun conn _ => by
      rw [show framesAmong _ [] conn = [] from rfl, Outbox.accepts_nil, length_nil]).symm
  | append_singleton ts t ih =>
    have hp := ih fun t ht => hts t (mem_append_left _ ht)
    have hso := hts t (mem_append_right _ (mem_singleton_self t))
    have hst := delivers_publishOne encode channel message shard (hp.hub ▸ hso) t.2
    have hf : (ts.foldl (publishOne encode channel message shard)
        ⟨s, 0, [], []⟩).server.frameFor encode channel message shard t.1 t.2 =
        s.frameFor encode channel message shard t.1 t.2 := by
      simp only [frameFor, hp.protos, hp.confirmedAt]
    rw [hf] at hst
    rw [foldl_concat]
    exact hp.concat (fun _ _ => rfl) hso hst

/-- What a publish does: each outbox gets the frames it accepts, the connections that did not
accept all of theirs are removed, and the number of the accepted frames is returned. -/
structure Publishes (encode : Resp → ℕ → Bytes) (globMatch : Bytes → Bytes → Bool) (s : Server)
    (channel message : Bytes) (shard : Bool) (s' : Server) (delivered : ℕ) : Prop where
  queued : ∀ conn, (s'.outboxes conn).history = (s.outboxes conn).history ++
    (s.outboxes conn).accepts (s.frames encode globMatch channel message shard conn)
  removed : ∀ conn, s'.hub.subscribers.lookup conn =
    if ((s.outboxes conn).accepts (s.frames encode globMatch channel message shard conn)).length <
      (s.frames encode globMatch channel message shard conn).length then none
    else s.hub.subscribers.lookup conn
  count : delivered = ∑ conn ∈ s.hub.subscribers.keys.toFinset,
    ((s.outboxes conn).accepts (s.frames encode globMatch channel message shard conn)).length

theorem lookup_dropSubscribers (conns : List ConnectionId) (h : Hub) (conn : ConnectionId) :
    (conns.foldl Hub.dropSubscriber h).subscribers.lookup conn =
      if conn ∈ conns then none else h.subscribers.lookup conn := by
  induction conns generalizing h with
  | nil => rfl
  | cons c conns ih =>
    rw [foldl_cons, ih, Hub.lookup_dropSubscriber]
    grind

variable (encode globMatch channel message shard) in
theorem published_targets (hh : s.hub.Linked) :
    Published (s.frameFor encode channel message shard) s (targets globMatch s.hub channel shard)
      ((targets globMatch s.hub channel shard).foldl (publishOne encode channel message shard)
        ⟨s, 0, [], []⟩) := by
  refine published_foldl _ fun t ht => ?_
  have hmem : t.2 ∈ matching globMatch s.hub channel shard t.1 := by
    rw [← targets_of hh]
    exact mem_map.2 ⟨t, mem_filter.2 ⟨ht, decide_eq_true rfl⟩, rfl⟩
  have hn := mem_matching hmem
  unfold Hub.names at hn
  cases hsub : s.hub.subscribers.lookup t.1 with
  | none =>
    rw [hsub] at hn
    cases hn
  | some sub => rfl

theorem framesAmong_targets (hh : s.hub.Linked) (conn : ConnectionId) :
    framesAmong (s.frameFor encode channel message shard) (targets globMatch s.hub channel shard)
      conn = s.frames encode globMatch channel message shard conn := by
  rw [framesAmong, targets_of hh, frames]

theorem counted_frames {f : OutFrame}
    (hf : f ∈ s.frames encode globMatch channel message shard conn) : f.counted = true := by
  obtain ⟨pattern, -, rfl⟩ := mem_map.1 hf
  rfl

theorem outboxes_publish (hh : s.hub.Linked) (conn : ConnectionId) :
    (s.publish encode globMatch channel message shard).1.outboxes conn =
      (s.outboxes conn).deliverAll (s.frames encode globMatch channel message shard conn) := by
  rw [← framesAmong_targets hh]
  exact (published_targets encode globMatch channel message shard hh).outboxes conn

variable {limits : ConnectionId → ℕ}

structure Orderly (limits : ConnectionId → ℕ) (s : Server) : Prop where
  within : ∀ conn, (s.outboxes conn).Within (limits conn)
  ordered : ∀ conn, (s.outboxes conn).Ordered (s.hub.names conn) (s.confirmedAt conn)

section

variable (hs : s.Orderly limits)

include hs

theorem Orderly.shrunk {hub : Hub} (hsh : s.hub.Shrunk hub) :
    ({ s with hub } : Server).Orderly limits :=
  ⟨hs.within, fun conn => (hs.ordered conn).mono (hsh.names conn)⟩

theorem Orderly.updateOutbox (conn : ConnectionId) (f : Outbox → Outbox)
    (hw : (s.outboxes conn).Within (limits conn) → (f (s.outboxes conn)).Within (limits conn))
    (ho : ∀ names confirmedAt, (s.outboxes conn).Ordered names confirmedAt →
      (f (s.outboxes conn)).Ordered names confirmedAt) :
    (s.updateOutbox conn f).Orderly limits := by
  refine ⟨fun conn' => ?_, fun conn' => ?_⟩ <;> by_cases heq : conn' = conn
  · subst heq
    simp only [Server.updateOutbox, update_self]
    exact hw (hs.within conn')
  · simp only [Server.updateOutbox, update_of_ne heq]
    exact hs.within conn'
  · subst heq
    simp only [Server.updateOutbox, update_self]
    exact ho _ _ (hs.ordered conn')
  · simp only [Server.updateOutbox, update_of_ne heq]
    exact hs.ordered conn'

theorem Orderly.reply (conn : ConnectionId) (bytes : Bytes) {about : About}
    (ha : ∀ kind name since, about ≠ .message kind name since) :
    (s.updateOutbox conn (·.queueReply bytes about)).Orderly limits :=
  hs.updateOutbox conn _ (·.queueReply bytes about) fun _ _ ho => ho.queueReply bytes ha

theorem Orderly.subscribeOne (conn : ConnectionId) (kind : Kind) (version : ℕ) (name : Bytes) :
    (s.subscribeOne encode conn kind version name).Orderly limits := by
  rcases ha : s.hub.subscribeName conn kind name with ⟨hub, added⟩
  simp only [Server.subscribeOne, ha]
  generalize encode _ version = frame
  obtain ⟨hhub, rfl⟩ | ⟨rfl, had⟩ := Hub.subscribeName_cases ha
  · rw [hhub]
    exact hs.reply conn frame nofun
  have hr : (s.updateOutbox conn
      (·.queueReply frame (.confirmed kind name))).Orderly limits := hs.reply conn frame nofun
  refine ⟨hr.within, fun conn' => ?_⟩
  by_cases heq : conn' = conn
  · subst heq
    simp only [Server.updateOutbox, update_self, if_true]
    refine (hs.ordered conn').subscribe frame fun kind' name' hn' => ?_
    rw [had.names] at hn'
    split at hn'
    · rename_i hk
      obtain rfl | hold := Finset.mem_insert.1 hn'
      · exact .inl ⟨hk.2, rfl⟩
      · exact .inr (hk.2 ▸ hold)
    · exact .inr hn'
  · have hn : hub.names conn' = s.hub.names conn' := by
      funext kind'
      rw [had.names, if_neg fun h => heq h.1]
    simp only [Server.updateOutbox, update_of_ne heq, if_true, hn]
    exact hs.ordered conn'

theorem Orderly.subscribe (conn : ConnectionId) (kind : Kind)
    (names : List Bytes) : (s.subscribe encode conn kind names).1.Orderly limits := by
  unfold Server.subscribe
  split
  · exact hs
  have he : ({ s with hub := s.hub.enter conn } : Server).Orderly limits :=
    hs.shrunk ⟨fun conn' kind' => (Hub.names_enter s.hub conn conn' kind').subset,
      (Hub.total_enter s.hub conn).le, fun hh => Hub.linked_enter hh conn⟩
  exact foldlRecOn names _ he fun _ ht name _ => ht.subscribeOne conn kind (s.protos conn) name

theorem Orderly.unsubscribe (conn : ConnectionId) (kind : Kind)
    (names : List Bytes) : (s.unsubscribe encode conn kind names).Orderly limits := by
  simp only [Server.unsubscribe]
  generalize (if names.isEmpty then (s.hub.names conn kind).sort (· ≤ ·) else names) = targets
  by_cases he : targets.isEmpty
  · rw [if_pos he]
    exact hs.reply conn _ (by simp)
  rw [if_neg he]
  refine Orderly.shrunk ?_ (Hub.shrunk_leave _ conn)
  exact foldlRecOn targets _ hs fun _ ht name _ =>
    (ht.shrunk (Hub.shrunk_unsubscribeName kind conn _ name)).reply conn _ (by simp)

end

theorem shrunk_publish (hh : s.hub.Linked) :
    s.hub.Shrunk (s.publish encode globMatch channel message shard).1.hub := by
  simp only [Server.publish, (published_targets encode globMatch channel message shard hh).hub]
  exact (Hub.Shrunk.foldl Hub.shrunk_dropSubscriber _ _).trans
    (Hub.Shrunk.foldl Hub.shrunk_dropSubscriber _ _)

theorem Orderly.publish (hs : s.Orderly limits) (hh : s.hub.Linked) :
    (s.publish encode globMatch channel message shard).1.Orderly limits := by
  have hc : (s.publish encode globMatch channel message shard).1.confirmedAt =
      s.confirmedAt := (published_targets encode globMatch channel message shard hh).confirmedAt
  refine ⟨fun conn => ?_, fun conn => ?_⟩ <;> rw [outboxes_publish hh]
  · exact (hs.within conn).deliverAll _
  refine Outbox.Ordered.mono ?_ ((shrunk_publish hh).names conn)
  rw [hc]
  have ho := hs.ordered conn
  refine ho.append (fun h => (Outbox.stopped_deliverAll _ _).trans h)
    (Outbox.history_deliverAll _ (fun _ hf => counted_frames hf) _)
    fun f hf kind name since ha => ?_
  -- an outbox that accepts a message is open, so its subscription has been confirmed
  obtain ⟨hmem, hop⟩ := Outbox.mem_accepts hf
  obtain ⟨pattern, hp, rfl⟩ := mem_map.1 hmem
  obtain ⟨rfl, rfl, rfl⟩ := About.message.inj ha
  exact (ho.confirmed _ _ (mem_matching hp)).resolve_left fun h => hop (.inr h)

structure Sound (limits : ConnectionId → ℕ) (s : Server) : Prop where
  hub : s.hub.Sound
  orderly : s.Orderly limits

theorem sound_new (limits : ConnectionId → ℕ) : (new limits).Sound limits where
  hub := ⟨Hub.linked_new, Hub.capped_new⟩
  orderly := ⟨fun conn => ⟨rfl, le_rfl, Nat.zero_le (limits conn)⟩, fun _ => ⟨nofun, nofun⟩⟩

theorem Sound.step (hs : s.Sound limits) (label : Label) :
    (s.step encode globMatch label).Sound limits := by
  cases label with
  | subscribe conn kind names =>
    exact ⟨sound_subscribe hs.hub conn kind names, hs.orderly.subscribe conn kind names⟩
  | unsubscribe conn kind names =>
    exact ⟨hs.hub.shrunk (shrunk_unsubscribe s conn kind names),
      hs.orderly.unsubscribe conn kind names⟩
  | publish channel message shard =>
    exact ⟨hs.hub.shrunk (shrunk_publish hs.hub.linked), hs.orderly.publish hs.hub.linked⟩
  | removeConnection conn =>
    have hsh := Hub.shrunk_dropSubscriber s.hub conn
    exact ⟨hs.hub.shrunk hsh, hs.orderly.shrunk hsh⟩
  | reply conn bytes => exact ⟨hs.hub, hs.orderly.reply conn bytes nofun⟩
  | take conn =>
    exact ⟨hs.hub, hs.orderly.updateOutbox conn Outbox.take (·.take) fun _ _ ho => ho.take⟩
  | written conn success =>
    exact ⟨hs.hub, hs.orderly.updateOutbox conn (Outbox.written · success)
      (·.written success) fun _ _ ho => ho.written success⟩
  | stop conn =>
    exact ⟨hs.hub, hs.orderly.updateOutbox conn Outbox.stop (·.stop)
      fun _ _ ho => ho.same (fun _ => rfl) rfl⟩
  | kill conn =>
    exact ⟨hs.hub, hs.orderly.updateOutbox conn (fun o => { o with killed := true })
      (fun ho => ⟨ho.limit_eq, ho.load_le, ho.queued_le⟩) fun _ _ ho => ho.same id rfl⟩
  | setProto conn version => exact ⟨hs.hub, ⟨hs.orderly.within, hs.orderly.ordered⟩⟩

/-- In every state that a server reaches, the two directions of the hub and its total agree, the
caps hold, every outbox is within its limit and has no message before the confirmation of its
subscription, a subscribe that fails changes nothing, and a publish does what it is to do. -/
theorem hub_correct (encode : Resp → ℕ → Bytes) (globMatch : Bytes → Bytes → Bool)
    (limits : ConnectionId → ℕ) (labels : List Label) :
    let s := Machine.run (step encode globMatch) (new limits) labels
    s.hub.Linked ∧ s.hub.Capped ∧
    (∀ conn, (s.outboxes conn).load ≤ limits conn ∧
      (s.outboxes conn).Ordered (s.hub.names conn) (s.confirmedAt conn)) ∧
    (∀ conn kind names e, (s.subscribe encode conn kind names).2 = .error e →
      (s.subscribe encode conn kind names).1 = s) ∧
    ∀ channel message shard, Publishes encode globMatch s channel message shard
      (s.publish encode globMatch channel message shard).1
      (s.publish encode globMatch channel message shard).2 := by
  intro s
  have hs : s.Sound limits :=
    Machine.run_invariant (sound_new limits) (fun _ label ht => ht.step label) labels
  have hh := hs.hub.linked
  refine ⟨hh, hs.hub.capped, fun conn => ?_, fun conn kind names e he => ?_,
    fun channel message shard => ?_⟩
  · have hw := hs.orderly.within conn
    exact ⟨hw.load_le.trans hw.queued_le, hs.orderly.ordered conn⟩
  · unfold subscribe at he ⊢
    split at he
    · rfl
    · cases he
  have hp := published_targets encode globMatch channel message shard hh
  refine ⟨fun conn => ?_, fun conn => ?_, ?_⟩
  · rw [outboxes_publish hh, Outbox.history_deliverAll _ fun _ hf => counted_frames hf]
  · have hfa := hp.failed conn
    rw [framesAmong_targets hh, mem_append] at hfa
    simp only [publish, lookup_dropSubscribers, hp.hub]
    grind
  · simp only [← framesAmong_targets hh]
    exact hp.delivered

end NetGet.PubSub.Server
