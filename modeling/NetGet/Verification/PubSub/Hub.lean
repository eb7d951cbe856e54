import NetGet.Model.PubSub

/-! # The two directions of the hub -/

namespace NetGet.PubSub

open Library ByteOrder ReverseIndex List Option AList Function

namespace Subscriber

variable (s : Subscriber) {kind : Kind} {name : Bytes}

theorem names_insert (kind kind' : Kind) (name : Bytes) : (s.insert kind name).names kind' =
      if kind' = kind then Insert.insert name (s.names kind) else s.names kind' := by
  simp only [insert, update_apply]

theorem names_erase (kind kind' : Kind) (name : Bytes) : (s.erase kind name).names kind' =
      if kind' = kind then (s.names kind).erase name else s.names kind' := by
  simp only [erase, update_apply]

theorem total_insert (h : name ∉ s.names kind) : (s.insert kind name).total = s.total + 1 := by
  have hc := Finset.card_insert_of_notMem h
  cases kind <;> simp only [total, names_insert] <;> simp only [reduceCtorEq, if_true, if_false,
    hc] <;> omega

theorem total_erase (h : name ∈ s.names kind) : (s.erase kind name).total + 1 = s.total := by
  have hc := Finset.card_erase_add_one h
  cases kind <;> simp only [total, names_erase] <;> simp only [reduceCtorEq, if_true, if_false]
    <;> omega

theorem names_of_total (h : s.total = 0) (kind : Kind) : s.names kind = ∅ := by
  simp only [total] at h
  cases kind <;> rw [← Finset.card_eq_zero] <;> omega

end Subscriber

namespace Hub

variable {h : Hub} {conn : ConnectionId} {kind : Kind} {name : Bytes} {sub : Subscriber}

theorem held_eq (h : Hub) (conn : ConnectionId) : h.held conn =
      (h.names conn .channel).card + (h.names conn .pattern).card + (h.names conn .shard).card := by
  unfold held names
  cases h.subscribers.lookup conn <;> rfl

/-- Both directions agree, and the total is the number of subscriptions. -/
structure Linked (h : Hub) : Prop where
  index_iff : ∀ kind name conn, conn ∈ holders (h.index kind) name ↔ name ∈ h.names conn kind
  tight : ∀ kind, Tight (h.index kind)
  total_eq : h.total = (h.subscribers.values.map Subscriber.total).sum
  no_underflow : h.underflowed = false

theorem linked_new : Linked new where
  index_iff _ _ _ := by simp [new, holders, names]
  tight _ _ _ hs := nomatch hs
  total_eq := rfl
  no_underflow := rfl

theorem Linked.total_of_lookup (hh : h.Linked) (hsub : h.subscribers.lookup conn = some sub) :
    h.total = sub.total + ((h.subscribers.erase conn).values.map Subscriber.total).sum := by
  rw [hh.total_eq, ((values_perm hsub).map _).sum_eq, map_cons, sum_cons]

theorem Linked.mem_index (hh : h.Linked) :
    name ∈ h.index kind ↔ ∃ conn, name ∈ h.names conn kind := by
  rw [mem_iff_holders (hh.tight kind)]
  simp only [hh.index_iff]

theorem names_of_lookup (hsub : h.subscribers.lookup conn = some sub) :
    h.names conn kind = sub.names kind := by
  rw [names, hsub, elim_some]

theorem names_insertEntry (conn conn' : ConnectionId) (sub : Subscriber) (kind : Kind) :
    ({ h with subscribers := h.subscribers.insert conn sub } : Hub).names conn' kind =
      if conn' = conn then sub.names kind else h.names conn' kind := by
  simp only [names, lookup_insert_ite]
  split <;> rfl

theorem names_eraseEntry (conn conn' : ConnectionId) (kind : Kind) :
    ({ h with subscribers := h.subscribers.erase conn } : Hub).names conn' kind =
      if conn' = conn then ∅ else h.names conn' kind := by
  simp only [names, lookup_erase_ite]
  split <;> rfl

theorem linked_enter (hh : h.Linked) (conn : ConnectionId) : (h.enter conn).Linked := by
  unfold enter
  split
  · exact hh
  rename_i hn
  refine ⟨fun kind name conn' => ?_, hh.tight, ?_, hh.no_underflow⟩
  · rw [names_insertEntry, hh.index_iff]
    split_ifs with heq
    · subst heq
      simp [names, hn, Subscriber.new]
    · rfl
  · have he : h.subscribers.erase conn = h.subscribers := erase_of_notMem (lookup_eq_none.1 hn)
    simp only [values_insert, map_cons, sum_cons, he]
    rw [hh.total_eq]
    exact (Nat.zero_add _).symm

theorem names_enter (h : Hub) (conn conn' : ConnectionId) (kind : Kind) :
    (h.enter conn).names conn' kind = h.names conn' kind := by
  unfold enter
  split
  · rfl
  rename_i hn
  rw [names_insertEntry]
  split_ifs with heq
  · rw [heq, names, hn]
    rfl
  · rfl

/-- What adding a name does: nothing, or one more pair. -/
structure Adds (conn : ConnectionId) (kind : Kind) (name : Bytes) (h h' : Hub) : Prop where
  names : ∀ conn' kind', h'.names conn' kind' =
    if conn' = conn ∧ kind' = kind then insert name (h.names conn kind) else h.names conn' kind'
  total : h'.total + h.held conn = h.total + h'.held conn
  isSome : (h'.subscribers.lookup conn).isSome

theorem adds_subscribeName (hs : (h.subscribers.lookup conn).isSome) (kind : Kind)
    (name : Bytes) : Adds conn kind name h (h.subscribeName conn kind name).1 := by
  obtain ⟨sub, hsub⟩ := isSome_iff_exists.1 hs
  unfold subscribeName
  simp only [hsub]
  split_ifs with hmem
  · refine ⟨fun conn' kind' => ?_, rfl, hs⟩
    split_ifs with heq
    · rw [heq.1, heq.2, names_of_lookup hsub, Finset.insert_eq_of_mem hmem]
    · rfl
  refine ⟨fun conn' kind' => ?_, ?_, by simp [indexAdd]⟩
  · have hn := names_insertEntry (h := h) conn conn' (sub.insert kind name) kind'
    refine hn.trans ?_
    rw [Subscriber.names_insert]
    by_cases hc : conn' = conn
    · subst hc
      rw [if_pos rfl, names_of_lookup hsub, names_of_lookup hsub]
      by_cases hk : kind' = kind <;> simp [hk]
    · rw [if_neg hc, if_neg (fun heq => hc heq.1)]
  · have ht := sub.total_insert hmem
    simp only [indexAdd, held, lookup_insert, hsub, elim_some, ht]
    omega

theorem subscribeName_cases {hub : Hub} {added : Bool}
    (ha : h.subscribeName conn kind name = (hub, added)) :
    (hub = h ∧ added = false) ∨ (added = true ∧ Adds conn kind name h hub) := by
  cases hsub : h.subscribers.lookup conn with
  | none =>
    rw [subscribeName, hsub] at ha
    obtain ⟨rfl, rfl⟩ := Prod.mk.inj ha
    exact .inl ⟨rfl, rfl⟩
  | some sub =>
    have had := adds_subscribeName (isSome_of_eq_some hsub) kind name
    rw [ha] at had
    simp only [subscribeName, hsub] at ha
    split at ha <;> obtain ⟨rfl, rfl⟩ := Prod.mk.inj ha
    · exact .inl ⟨rfl, rfl⟩
    · exact .inr ⟨rfl, had⟩

theorem linked_subscribeName (hh : h.Linked) (conn : ConnectionId) (kind : Kind) (name : Bytes) :
    (h.subscribeName conn kind name).1.Linked := by
  cases hsub : h.subscribers.lookup conn with
  | none =>
    simp only [subscribeName, hsub]
    exact hh
  | some sub =>
    have ha := adds_subscribeName (by rw [hsub]; rfl) kind name
    by_cases hmem : name ∈ sub.names kind
    · simp only [subscribeName, hsub, if_pos hmem]
      exact hh
    simp only [subscribeName, hsub, if_neg hmem] at ha ⊢
    refine ⟨fun kind' name' conn' => ?_, fun kind' => ?_, ?_, hh.no_underflow⟩
    · rw [ha.names]
      simp only [indexAdd, update_apply]
      by_cases hk : kind' = kind
      · subst hk
        rw [if_pos rfl, mem_holders_add, hh.index_iff]
        by_cases hc : conn' = conn
        · subst hc
          simp
        · simp [hc]
      · rw [if_neg hk, if_neg (fun heq => hk heq.2), hh.index_iff]
    · simp only [indexAdd, update_apply]
      split
      · exact tight_add (hh.tight kind)
      · exact hh.tight kind'
    · have ht := hh.total_of_lookup hsub
      simp only [indexAdd, values_insert, map_cons, sum_cons, sub.total_insert hmem]
      omega

theorem linked_unsubscribeName (hh : h.Linked) (conn : ConnectionId) (kind : Kind)
    (name : Bytes) : (h.unsubscribeName conn kind name).Linked := by
  unfold unsubscribeName
  split
  · exact hh
  rename_i sub hsub
  split_ifs with hmem
  · have ht := hh.total_of_lookup hsub
    have he := sub.total_erase hmem
    refine ⟨fun kind' name' conn' => ?_, fun kind' => ?_, ?_, ?_⟩
    · have hn := names_insertEntry (h := h) conn conn' (sub.erase kind name) kind'
      refine Iff.trans ?_ (Eq.to_iff (congrArg (name' ∈ ·) hn.symm))
      simp only [indexRemove, subtract, update_apply]
      rw [Subscriber.names_erase]
      by_cases hk : kind' = kind
      · subst hk
        rw [if_pos rfl, if_pos rfl, mem_holders_remove, hh.index_iff]
        by_cases hc : conn' = conn
        · subst hc
          simp [names_of_lookup hsub, and_comm]
        · simp [hc]
      · rw [if_neg hk, if_neg hk, hh.index_iff]
        by_cases hc : conn' = conn
        · subst hc
          simp [names_of_lookup hsub]
        · simp [hc]
    · simp only [indexRemove, subtract, update_apply]
      split
      · exact tight_remove (hh.tight kind)
      · exact hh.tight kind'
    · simp only [indexRemove, subtract, values_insert, map_cons, sum_cons]
      omega
    · simp only [indexRemove, subtract, hh.no_underflow, Bool.false_or, decide_eq_false_iff_not]
      omega
  · exact hh

theorem linked_leave (hh : h.Linked) (conn : ConnectionId) : (h.leave conn).Linked := by
  unfold leave
  split
  · rename_i sub hsub
    split_ifs with hz
    · refine ⟨fun kind' name' conn' => ?_, hh.tight, ?_, hh.no_underflow⟩
      · rw [names_eraseEntry, hh.index_iff]
        split_ifs with hc
        · rw [hc, names_of_lookup hsub, sub.names_of_total hz]
        · rfl
      · have ht := hh.total_of_lookup hsub
        simp only
        omega
    · exact hh
  · exact hh

theorem names_leave (h : Hub) (conn conn' : ConnectionId) (kind : Kind) :
    (h.leave conn).names conn' kind = h.names conn' kind := by
  unfold leave
  split
  · rename_i sub hsub
    split_ifs with hz
    · rw [names_eraseEntry]
      split_ifs with hc
      · rw [hc, names_of_lookup hsub, sub.names_of_total hz]
      · rfl
    · rfl
  · rfl

/-- A connection is taken out of the index at the names with the property, and nothing else
changes. -/
structure Unindexes (conn : ConnectionId) (P : Kind → Bytes → Prop) (h h' : Hub) : Prop where
  subscribers : h'.subscribers = h.subscribers
  total : h'.total = h.total
  underflowed : h'.underflowed = h.underflowed
  tight : (∀ kind, Tight (h.index kind)) → ∀ kind, Tight (h'.index kind)
  holders : ∀ kind name conn', conn' ∈ ReverseIndex.holders (h'.index kind) name ↔
    conn' ∈ ReverseIndex.holders (h.index kind) name ∧ ¬ (conn' = conn ∧ P kind name)

namespace Unindexes

variable {P Q : Kind → Bytes → Prop} {h₁ h₂ h₃ : Hub}

theorem refl (conn : ConnectionId) (h : Hub) : Unindexes conn (fun _ _ => False) h h where
  subscribers := rfl
  total := rfl
  underflowed := rfl
  tight := id
  holders _ _ _ := by simp

theorem trans (h₁₂ : Unindexes conn P h₁ h₂) (h₂₃ : Unindexes conn Q h₂ h₃) :
    Unindexes conn (fun kind name => P kind name ∨ Q kind name) h₁ h₃ where
  subscribers := h₂₃.subscribers.trans h₁₂.subscribers
  total := h₂₃.total.trans h₁₂.total
  underflowed := h₂₃.underflowed.trans h₁₂.underflowed
  tight ht := h₂₃.tight (h₁₂.tight ht)
  holders kind name conn' := by
    rw [h₂₃.holders, h₁₂.holders]
    tauto

theorem congr (h₁₂ : Unindexes conn P h₁ h₂) (hPQ : ∀ kind name, P kind name ↔ Q kind name) :
    Unindexes conn Q h₁ h₂ := by
  have heq : P = Q := funext fun kind => funext fun name => propext (hPQ kind name)
  exact heq ▸ h₁₂

end Unindexes

theorem unindexes_indexRemove (h : Hub) (conn : ConnectionId) (kind : Kind) (name : Bytes) :
    Unindexes conn (fun kind' name' => kind' = kind ∧ name' = name) h
      (h.indexRemove kind name conn) where
  subscribers := rfl
  total := rfl
  underflowed := rfl
  tight ht kind' := by
    simp only [indexRemove, update_apply]
    split
    · exact tight_remove (ht kind)
    · exact ht kind'
  holders kind' name' conn' := by
    simp only [indexRemove, update_apply]
    split_ifs with hk
    · subst hk
      rw [mem_holders_remove]
      simp
    · simp [hk]

theorem unindexes_names (conn : ConnectionId) (kind : Kind) (names : List Bytes) (h : Hub) :
    Unindexes conn (fun kind' name' => kind' = kind ∧ name' ∈ names) h
      (names.foldl (fun h name => h.indexRemove kind name conn) h) := by
  induction names generalizing h with
  | nil => exact (Unindexes.refl conn h).congr (by simp)
  | cons name names ih =>
    refine ((unindexes_indexRemove h conn kind name).trans (ih _)).congr fun kind' name' => ?_
    rw [mem_cons]
    tauto

theorem unindexes_kinds (conn : ConnectionId) (sub : Subscriber) (kinds : List Kind) (h : Hub) :
    Unindexes conn (fun kind name => kind ∈ kinds ∧ name ∈ sub.names kind) h
      (kinds.foldl (fun h kind => ((sub.names kind).sort (· ≤ ·)).foldl
        (fun h name => h.indexRemove kind name conn) h) h) := by
  induction kinds generalizing h with
  | nil => exact (Unindexes.refl conn h).congr (by simp)
  | cons kind kinds ih =>
    refine ((unindexes_names conn kind _ h).trans (ih _)).congr fun kind' name' => ?_
    rw [mem_cons, Finset.mem_sort]
    constructor
    · rintro (⟨rfl, hn⟩ | ⟨hk, hn⟩)
      · exact ⟨.inl rfl, hn⟩
      · exact ⟨.inr hk, hn⟩
    · rintro ⟨rfl | hk, hn⟩
      · exact .inl ⟨rfl, hn⟩
      · exact .inr ⟨hk, hn⟩

theorem dropSubscriber_cases (h : Hub) (conn : ConnectionId) :
    h.subscribers.lookup conn = none ∧ h.dropSubscriber conn = h ∨
    ∃ sub h', h.subscribers.lookup conn = some sub ∧
      Unindexes conn (fun kind name => name ∈ sub.names kind)
        { h with subscribers := h.subscribers.erase conn } h' ∧
      h.dropSubscriber conn = h'.subtract sub.total := by
  unfold dropSubscriber
  cases hsub : h.subscribers.lookup conn with
  | none => exact .inl ⟨rfl, rfl⟩
  | some sub =>
    refine .inr ⟨sub, _, rfl, (unindexes_kinds conn sub Kind.all _).congr fun kind name => ?_, rfl⟩
    have hall : kind ∈ Kind.all := by cases kind <;> decide
    simp [hall]

theorem lookup_dropSubscriber (h : Hub) (conn conn' : ConnectionId) :
    (h.dropSubscriber conn).subscribers.lookup conn' =
      if conn' = conn then none else h.subscribers.lookup conn' := by
  obtain ⟨hn, heq⟩ | ⟨sub, h', hsub, hu, heq⟩ := dropSubscriber_cases h conn
  · rw [heq]
    split_ifs with hc
    · rw [hc, hn]
    · rfl
  · rw [heq, subtract, hu.subscribers, lookup_erase_ite]

theorem names_dropSubscriber (h : Hub) (conn conn' : ConnectionId) (kind : Kind) :
    (h.dropSubscriber conn).names conn' kind = if conn' = conn then ∅ else h.names conn' kind := by
  simp only [names, lookup_dropSubscriber]
  split <;> rfl

theorem linked_dropSubscriber (hh : h.Linked) (conn : ConnectionId) :
    (h.dropSubscriber conn).Linked := by
  have hn := names_dropSubscriber h conn
  obtain ⟨-, heq⟩ | ⟨sub, h', hsub, hu, heq⟩ := dropSubscriber_cases h conn
  · rw [heq]
    exact hh
  have ht := hh.total_of_lookup hsub
  have ht' : h'.total = h.total := hu.total
  have hun : h'.underflowed = h.underflowed := hu.underflowed
  rw [heq] at hn ⊢
  refine ⟨fun kind name conn' => ?_, fun kind => hu.tight hh.tight kind, ?_, ?_⟩
  · rw [hn]
    refine (hu.holders kind name conn').trans ?_
    simp only [hh.index_iff]
    split_ifs with hc
    · rw [hc, names_of_lookup hsub]
      simp
    · simp [hc]
  · simp only [subtract, hu.subscribers, ht']
    omega
  · simp only [subtract, hun, ht', hh.no_underflow, Bool.false_or, decide_eq_false_iff_not]
    omega

structure Capped (h : Hub) : Prop where
  connection : ∀ conn, h.held conn ≤ maxSubscriptionsPerConnection
  server : h.total ≤ maxSubscriptionsPerServer
  patterns : (h.index .pattern).keys.length ≤ maxPatternsPerServer

theorem capped_new : Capped new where
  connection _ := Nat.zero_le _
  server := Nat.zero_le _
  patterns := Nat.zero_le _

theorem length_keys_le {t t' : Table Bytes (Finset ConnectionId)}
    (hs : ∀ name, name ∈ t' → name ∈ t) : t'.keys.length ≤ t.keys.length := by
  rw [← card_keys, ← card_keys]
  refine Finset.card_le_card fun name hn => ?_
  rw [List.mem_toFinset, ← AList.mem_keys] at hn ⊢
  exact hs name hn

theorem Capped.mono {h' : Hub} (hc : h.Capped) (hh : h.Linked) (hh' : h'.Linked)
    (hn : ∀ conn kind, h'.names conn kind ⊆ h.names conn kind) (ht : h'.total ≤ h.total) :
    h'.Capped where
  connection conn := by
    refine Nat.le_trans ?_ (hc.connection conn)
    rw [held_eq, held_eq]
    have hch := Finset.card_le_card (hn conn .channel)
    have hp := Finset.card_le_card (hn conn .pattern)
    have hs := Finset.card_le_card (hn conn .shard)
    omega
  server := ht.trans hc.server
  patterns := by
    refine (length_keys_le fun name hna => ?_).trans hc.patterns
    obtain ⟨conn, hco⟩ := hh'.mem_index.1 hna
    exact hh.mem_index.2 ⟨conn, hn conn .pattern hco⟩

end Hub

end NetGet.PubSub
