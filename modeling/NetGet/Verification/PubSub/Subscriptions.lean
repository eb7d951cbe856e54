import NetGet.Verification.PubSub.Hub

/-! # Commands of connections and the bounds on subscriptions -/

namespace NetGet.PubSub

open Library ByteOrder ReverseIndex List

variable {encode : Resp → ℕ → Bytes} {globMatch : Bytes → Bytes → Bool}

namespace Hub

variable {h h' : Hub} {conn : ConnectionId} {kind : Kind} {names : List Bytes} {u : Unit}

theorem total_enter (h : Hub) (conn : ConnectionId) : (h.enter conn).total = h.total := by
  unfold enter
  split <;> rfl

/-- What adding a list of names does. -/
structure Grown (conn : ConnectionId) (kind : Kind) (names : List Bytes) (h h' : Hub) : Prop where
  names : ∀ conn' kind', h'.names conn' kind' =
    if conn' = conn ∧ kind' = kind then h.names conn kind ∪ names.toFinset else h.names conn' kind'
  total : h'.total + h.held conn = h.total + h'.held conn
  isSome : (h'.subscribers.lookup conn).isSome
  linked : h.Linked → h'.Linked

theorem grown_subscribeNames (kind : Kind) (names : List Bytes)
    (hs : (h.subscribers.lookup conn).isSome) : Grown conn kind names h
      (names.foldl (fun h name => (h.subscribeName conn kind name).1) h) := by
  induction names generalizing h with
  | nil =>
    refine ⟨fun conn' kind' => ?_, rfl, hs, id⟩
    split_ifs with heq
    · rw [heq.1, heq.2]
      exact (Finset.union_empty _).symm
    · rfl
  | cons name names ih =>
    have ha := adds_subscribeName hs kind name
    have hr := ih ha.isSome
    refine ⟨fun conn' kind' => ?_, ?_, hr.isSome,
      fun hh => hr.linked (linked_subscribeName hh conn kind name)⟩
    · rw [foldl_cons, hr.names]
      split_ifs with hne
      · rw [ha.names, if_pos ⟨rfl, rfl⟩, toFinset_cons, Finset.insert_union, Finset.union_insert]
      · rw [ha.names, if_neg hne]
    · have ht := ha.total
      have hrt := hr.total
      rw [foldl_cons]
      omega

theorem Grown.held (hg : Grown conn kind names h h') :
    h'.held conn = h.held conn + (h.fresh conn kind names).card := by
  have hc : (h.names conn kind ∪ names.toFinset).card =
      (h.names conn kind).card + (h.fresh conn kind names).card := by
    rw [fresh, ← Finset.union_sdiff_self_eq_union]
    exact Finset.card_union_of_disjoint Finset.disjoint_sdiff
  rw [held_eq, held_eq]
  simp only [hg.names]
  cases kind <;> simp only [reduceCtorEq, and_false, and_true, if_true, if_false, hc] <;> omega

theorem Grown.capped (hg : Grown conn kind names h h') (hh : h.Linked) (hca : h.Capped)
    (hch : h.checkLocked conn kind names = .ok u) : h'.Capped := by
  unfold checkLocked at hch
  simp only at hch
  split at hch
  · cases hch
  split at hch
  · cases hch
  split at hch
  · cases hch
  split at hch
  · cases hch
  rename_i hc hs hpat
  have hp : kind = .pattern → (h.index .pattern).keys.length +
      ((h.fresh conn kind names).filter (· ∉ h.index .pattern)).card ≤ maxPatternsPerServer :=
    fun hk => not_lt.1 fun hlt => hpat ⟨hk, hlt⟩
  have hhe := hg.held
  have ht := hg.total
  refine ⟨fun conn' => ?_, by omega, ?_⟩
  · by_cases hco : conn' = conn
    · rw [hco, hhe]
      exact not_lt.1 hc
    have hsa : h'.held conn' = h.held conn' := by
      rw [held_eq, held_eq]
      simp only [hg.names, hco, false_and, if_false]
    rw [hsa]
    exact hca.connection conn'
  have hmem : ∀ name, name ∈ h'.index .pattern → name ∈ h.index .pattern ∨
      kind = .pattern ∧ name ∈ h.fresh conn kind names := by
    intro name hn
    obtain ⟨conn', hc'⟩ := (hg.linked hh).mem_index.1 hn
    rw [hg.names] at hc'
    split at hc'
    · rename_i heq
      by_cases hold : name ∈ h.names conn kind
      · exact .inl (hh.mem_index.2 ⟨conn, heq.2 ▸ hold⟩)
      · refine .inr ⟨heq.2.symm, Finset.mem_sdiff.2 ⟨?_, hold⟩⟩
        exact (Finset.mem_union.1 hc').resolve_left hold
    · exact .inl (hh.mem_index.2 ⟨conn', hc'⟩)
  by_cases hk : kind = .pattern
  · refine le_trans ?_ (hp hk)
    rw [← card_keys, ← card_keys]
    refine le_trans (Finset.card_le_card fun name hn => ?_) (Finset.card_union_le _ _)
    rw [mem_toFinset, ← AList.mem_keys] at hn
    rw [Finset.mem_union, mem_toFinset, ← AList.mem_keys, Finset.mem_filter]
    by_cases hold : name ∈ h.index .pattern
    · exact .inl hold
    · exact .inr ⟨((hmem name hn).resolve_left hold).2, hold⟩
  · refine (length_keys_le fun name hn => ?_).trans hca.patterns
    exact (hmem name hn).resolve_right fun hnew => hk hnew.1

/-- The two directions agree and the bounds hold. -/
structure Sound (h : Hub) : Prop where
  linked : h.Linked
  capped : h.Capped

theorem sound_subscribeNames (hh : h.Sound) (hc : h.checkLocked conn kind names = .ok u) :
    (names.foldl (fun h name => (h.subscribeName conn kind name).1) (h.enter conn)).Sound := by
  have hg : Grown conn kind names h
      (names.foldl (fun h name => (h.subscribeName conn kind name).1) (h.enter conn)) := by
    have hso : ((h.enter conn).subscribers.lookup conn).isSome := by
      unfold enter
      split
      · rename_i hs
        rw [hs]
        rfl
      · rw [AList.lookup_insert]
        rfl
    have he := grown_subscribeNames kind names hso
    have hhe : (h.enter conn).held conn = h.held conn := by
      simp only [held_eq, names_enter]
    refine ⟨fun conn' kind' => ?_, ?_, he.isSome, fun hl => he.linked (linked_enter hl conn)⟩
    · simp only [he.names, names_enter]
    · rw [← hhe, ← total_enter h conn]
      exact he.total
  exact ⟨hg.linked hh.linked, hg.capped hh.linked hh.capped hc⟩

/-- What losing subscriptions does. -/
structure Shrunk (h h' : Hub) : Prop where
  names : ∀ conn kind, h'.names conn kind ⊆ h.names conn kind
  total : h'.total ≤ h.total
  linked : h.Linked → h'.Linked

theorem Shrunk.refl (h : Hub) : Shrunk h h := ⟨fun _ _ => Finset.Subset.refl _, le_rfl, id⟩

theorem Shrunk.trans {h₁ h₂ h₃ : Hub} (h₁₂ : Shrunk h₁ h₂) (h₂₃ : Shrunk h₂ h₃) :
    Shrunk h₁ h₃ where
  names conn kind := (h₂₃.names conn kind).trans (h₁₂.names conn kind)
  total := h₂₃.total.trans h₁₂.total
  linked hh := h₂₃.linked (h₁₂.linked hh)

theorem Shrunk.foldl {ι : Type*} {f : Hub → ι → Hub} (hf : ∀ h i, Shrunk h (f h i)) (is : List ι)
    (h : Hub) : Shrunk h (is.foldl f h) := by
  induction is generalizing h with
  | nil => exact .refl h
  | cons i is ih => exact (hf h i).trans (ih (f h i))

theorem Sound.shrunk (hh : h.Sound) (hs : Shrunk h h') : h'.Sound :=
  ⟨hs.linked hh.linked, hh.capped.mono hh.linked (hs.linked hh.linked) hs.names hs.total⟩

theorem shrunk_unsubscribeName (kind : Kind) (conn : ConnectionId) (h : Hub) (name : Bytes) :
    Shrunk h (h.unsubscribeName conn kind name) where
  names conn' kind' := by
    unfold unsubscribeName
    split
    · exact Finset.Subset.refl _
    rename_i sub hsub
    split
    · have hn := names_insertEntry (h := h) conn conn' (sub.erase kind name) kind'
      refine (Eq.subset hn).trans ?_
      split_ifs with hc
      · rw [hc, names_of_lookup hsub, Subscriber.names_erase]
        split_ifs with hk
        · rw [hk]
          exact Finset.erase_subset _ _
        · exact Finset.Subset.refl _
      · exact Finset.Subset.refl _
    · exact Finset.Subset.refl _
  total := by
    unfold unsubscribeName
    split
    · exact le_rfl
    · split
      · exact Nat.sub_le h.total 1
      · exact le_rfl
  linked hh := linked_unsubscribeName hh conn kind name

theorem shrunk_leave (h : Hub) (conn : ConnectionId) : Shrunk h (h.leave conn) where
  names conn' kind := (names_leave h conn conn' kind).subset
  total := by
    unfold leave
    split
    · split <;> exact le_rfl
    · exact le_rfl
  linked hh := linked_leave hh conn

theorem shrunk_dropSubscriber (h : Hub) (conn : ConnectionId) :
    Shrunk h (h.dropSubscriber conn) where
  names conn' kind := by
    rw [names_dropSubscriber]
    split
    · exact Finset.empty_subset _
    · exact Finset.Subset.refl _
  total := by
    obtain ⟨-, heq⟩ | ⟨sub, h', -, hu, heq⟩ := dropSubscriber_cases h conn
    · rw [heq]
    · have ht' : h'.total = h.total := hu.total
      rw [heq, subtract, ht']
      exact Nat.sub_le _ _
  linked hh := linked_dropSubscriber hh conn

end Hub

namespace Server

variable {s : Server} {conn : ConnectionId} {kind : Kind}

theorem sound_subscribe (hs : s.hub.Sound) (conn : ConnectionId) (kind : Kind)
    (names : List Bytes) : (s.subscribe encode conn kind names).1.hub.Sound := by
  unfold subscribe
  split
  · exact hs
  · rename_i hc
    exact cast (congrArg Hub.Sound (foldl_hom Server.hub fun _ _ => rfl))
      (Hub.sound_subscribeNames hs hc)

theorem shrunk_unsubscribe (s : Server) (conn : ConnectionId) (kind : Kind) (names : List Bytes) :
    s.hub.Shrunk (s.unsubscribe encode conn kind names).hub := by
  simp only [unsubscribe]
  generalize (if names.isEmpty then (s.hub.names conn kind).sort (· ≤ ·) else names) = targets
  by_cases he : targets.isEmpty
  · rw [if_pos he]
    exact .refl s.hub
  rw [if_neg he]
  refine .trans ?_ (Hub.shrunk_leave _ conn)
  exact cast (congrArg s.hub.Shrunk (foldl_hom Server.hub fun _ _ => rfl))
    (.foldl (Hub.shrunk_unsubscribeName kind conn) _ s.hub)

end Server

end NetGet.PubSub
