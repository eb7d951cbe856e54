import NetGet.Model.OpenVpn
import Mathlib.Data.List.Perm.Subperm

/-! # Reliability of the OpenVPN control channel -/

namespace NetGet.OpenVpn

open Library Machine List AList ReliableReceiver

namespace ReliableReceiver

/-- The receiver has the packet: it was delivered or is buffered. -/
def Holds (r : ReliableReceiver) (id : ℕ) : Prop := id < r.nextExpected ∨ id ∈ r.buffered

/-- What is buffered was queued under its id and lies in the window. -/
structure Coherent (queued : List Bytes) (r : ReliableReceiver) : Prop where
  next_le : r.nextExpected ≤ queued.length
  window : ∀ (id : ℕ) (payload : Bytes), r.buffered.lookup id = some payload →
    r.nextExpected ≤ id ∧ id < r.nextExpected + recvWindow ∧ queued[id]? = some payload

/-- What holds between two calls: besides, the next payload is not among the buffered ones, and
only packets that are held wait to be acknowledged. -/
structure Sound (queued : List Bytes) (r : ReliableReceiver) : Prop extends
    Coherent queued r where
  waits : r.nextExpected ∉ r.buffered
  held : ∀ id ∈ r.pendingAcks, r.Holds id
  pending_le : r.pendingAcks.length ≤ maxPendingAcks

/-- What delivering the payloads `delivered` in order does to a receiver. -/
structure Delivers (queued : List Bytes) (r r' : ReliableReceiver) (delivered : List Bytes) :
    Prop where
  delivered_eq : queued.take r.nextExpected ++ delivered = queued.take r'.nextExpected
  holds : ∀ id, r.Holds id → r'.Holds id

variable {queued : List Bytes} {r r' : ReliableReceiver} {payload : Bytes} {id : ℕ}

theorem Delivers.refl (queued : List Bytes) (r : ReliableReceiver) : Delivers queued r r [] where
  delivered_eq := append_nil _
  holds _ h := h

theorem Delivers.trans {r₁ r₂ r₃ : ReliableReceiver} {xs ys : List Bytes}
    (h₁ : Delivers queued r₁ r₂ xs) (h₂ : Delivers queued r₂ r₃ ys) :
    Delivers queued r₁ r₃ (xs ++ ys) where
  delivered_eq := by rw [← append_assoc, h₁.delivered_eq, h₂.delivered_eq]
  holds id h := h₂.holds id (h₁.holds id h)

theorem delivers_next (hp : queued[r.nextExpected]? = some payload)
    (hn : r'.nextExpected = r.nextExpected + 1)
    (hb : ∀ id, id ∈ r.buffered → id = r.nextExpected ∨ id ∈ r'.buffered) :
    Delivers queued r r' [payload] where
  delivered_eq := by rw [hn, take_add_one, hp, Option.toList_some]
  holds id h := by
    cases h with
    | inl hlt => exact .inl (by omega)
    | inr hmem =>
      cases hb id hmem with
      | inl heq => exact .inl (by omega)
      | inr hmem => exact .inr hmem

theorem wrappingAdd_next (hq : queued.length < 2 ^ 32) {n : ℕ}
    (hp : queued[n]? = some payload) : wrappingAdd 32 n 1 = n + 1 := by
  have hlt := (List.getElem?_eq_some_iff.1 hp).1
  exact wrappingAdd_of_lt (by omega)

theorem Coherent.next (h : r.Coherent queued) (hp : queued[r.nextExpected]? = some payload)
    {buffered : Table ℕ Bytes} (hb : ∀ id payload, buffered.lookup id = some payload →
      id ≠ r.nextExpected ∧ r.buffered.lookup id = some payload) :
    Coherent queued { r with nextExpected := r.nextExpected + 1, buffered } where
  next_le := (List.getElem?_eq_some_iff.1 hp).1
  window id payload' hl := by
    obtain ⟨hne, hl⟩ := hb id payload' hl
    obtain ⟨hle, hlt, hq⟩ := h.window id payload' hl
    simp only
    exact ⟨by omega, by omega, hq⟩

theorem drain_spec (hq : queued.length < 2 ^ 32) (rounds : ℕ) :
    ∀ r : ReliableReceiver, r.buffered.keys.length ≤ rounds → r.Coherent queued →
      let out := drain rounds r
      out.1.Coherent queued ∧ out.1.nextExpected ∉ out.1.buffered ∧
        out.1.pendingAcks = r.pendingAcks ∧ Delivers queued r out.1 out.2 := by
  induction rounds with
  | zero =>
    intro r hlen hr
    refine ⟨hr, ?_, rfl, .refl queued r⟩
    change r.nextExpected ∉ r.buffered
    intro hmem
    have hpos := length_pos_of_mem (AList.mem_keys.1 hmem)
    omega
  | succ rounds ih =>
    intro r hlen hr
    cases hl : r.buffered.lookup r.nextExpected with
    | none =>
      have hw : r.nextExpected ∉ r.buffered := by
        rw [mem_iff_lookup, hl]
        simp
      simp only [drain, hl]
      exact ⟨hr, hw, trivial, .refl queued r⟩
    | some payload =>
      have hp := (hr.window _ _ hl).2.2
      have hmem : r.nextExpected ∈ r.buffered := mem_iff_lookup.2 ⟨payload, hl⟩
      have hn : ∀ id payload, (r.buffered.erase r.nextExpected).lookup id = some payload →
          id ≠ r.nextExpected ∧ r.buffered.lookup id = some payload := by
        rintro id payload hl
        exact ⟨by rintro rfl; simp at hl, lookup_of_erase hl⟩
      have hk := (keys_erase_perm hmem).length_eq
      rw [length_cons] at hk
      obtain ⟨hc, hw, hpe, hd⟩ := ih _ (by simp only; omega) (hr.next hp hn)
      simp only [drain, hl, wrappingAdd_next hq hp]
      refine ⟨hc, hw, hpe, (delivers_next hp rfl ?_).trans hd⟩
      intro id hid
      by_cases heq : id = r.nextExpected
      · exact .inl heq
      · exact .inr (mem_erase.2 ⟨heq, hid⟩)

theorem Coherent.noteAck (h : r.Coherent queued) (id : ℕ) : (r.noteAck id).Coherent queued :=
  ⟨h.next_le, h.window⟩

theorem Sound.of_noteAck {delivered : List Bytes} (h : r.Sound queued)
    (hc : r'.Coherent queued) (hw : r'.nextExpected ∉ r'.buffered)
    (hp : r'.pendingAcks = (r.noteAck id).pendingAcks)
    (hd : Delivers queued r r' delivered) (hid : r'.Holds id) : r'.Sound queued where
  toCoherent := hc
  waits := hw
  held id' hmem := by
    have hold := fun hm => hd.holds id' (h.held id' hm)
    simp only [hp, ReliableReceiver.noteAck] at hmem
    split at hmem
    · exact hold hmem
    simp only [mem_append, mem_singleton] at hmem
    obtain hmem | rfl := hmem
    · split at hmem
      · exact hold (mem_of_mem_tail hmem)
      · exact hold hmem
    · exact hid
  pending_le := by
    have hle := h.pending_le
    have hpos : 0 < maxPendingAcks := by decide
    simp only [hp, ReliableReceiver.noteAck]
    split
    · exact hle
    simp only [length_append, length_singleton]
    split
    · rw [length_tail]
      omega
    · omega

theorem noteAck_delivers (r : ReliableReceiver) (id : ℕ) : Delivers queued r (r.noteAck id) [] :=
  ⟨append_nil _, fun _ h => h⟩

/-- There are fewer places in the window behind the next payload than in the window. -/
theorem Sound.length_buffered (h : r.Sound queued) : r.buffered.keys.length ≤ recvWindow - 1 := by
  have hsub : r.buffered.keys ⊆ range' (r.nextExpected + 1) (recvWindow - 1) := by
    intro id hid
    obtain ⟨payload, hl⟩ := AList.mem_iff_lookup.1 (mem_keys.2 hid)
    obtain ⟨hle, hlt, -⟩ := h.window id payload hl
    have hne : id ≠ r.nextExpected := fun heq => h.waits (heq ▸ mem_keys.2 hid)
    have hw : recvWindow = 8 := rfl
    rw [mem_range'_1]
    omega
  have hle := (r.buffered.keys_nodup.subperm hsub).length_le
  rwa [length_range'] at hle

theorem Coherent.insert (h : r.Coherent queued) (hp : queued[id]? = some payload)
    (hlt : r.nextExpected < id) (hw : id < r.nextExpected + recvWindow) :
    Coherent queued { r with buffered := r.buffered.insert id payload } where
  next_le := h.next_le
  window := forall_insert h.window ⟨hlt.le, hw, hp⟩

theorem Sound.accept_next (hq : queued.length < 2 ^ 32) (h : r.Sound queued)
    {payload : Bytes} (hp : queued[r.nextExpected]? = some payload) :
    let out := drain r.buffered.keys.length
      { r.noteAck r.nextExpected with nextExpected := r.nextExpected + 1 }
    out.1.Sound queued ∧ Delivers queued r out.1 (payload :: out.2) := by
  intro out
  obtain ⟨hc, hw, hpe, hd⟩ := drain_spec hq r.buffered.keys.length
      { r.noteAck r.nextExpected with nextExpected := r.nextExpected + 1 } le_rfl
      ((h.toCoherent.noteAck r.nextExpected).next hp fun id payload hl =>
        ⟨fun heq => h.waits (heq ▸ mem_iff_lookup.2 ⟨payload, hl⟩), hl⟩)
  have hn : Delivers queued r
      { r.noteAck r.nextExpected with nextExpected := r.nextExpected + 1 } [payload] :=
    delivers_next hp rfl fun _ hid => .inr hid
  have hall := hn.trans hd
  have hid : out.1.Holds r.nextExpected := hd.holds _ (.inl (Nat.lt_succ_self _))
  exact ⟨h.of_noteAck hc hw hpe hall hid, hall⟩

theorem Sound.accept (hq : queued.length < 2 ^ 32) (h : r.Sound queued)
    (hp : queued[id]? = some payload) : (r.accept id payload).1.Sound queued ∧
      Delivers queued r (r.accept id payload).1 (r.accept id payload).2 := by
  have hn : (r.noteAck id).Holds id → (r.noteAck id).Sound queued :=
    h.of_noteAck (h.toCoherent.noteAck id) h.waits rfl (noteAck_delivers r id)
  unfold ReliableReceiver.accept
  split
  · rename_i hlt
    exact ⟨hn (.inl hlt), noteAck_delivers r id⟩
  split
  · exact ⟨h, .refl queued r⟩
  rename_i hnlt hin
  have hw : id < r.nextExpected + recvWindow := by
    simp only [outsideWindow, Bool.and_eq_true, Bool.not_eq_true', decide_eq_false_iff_not,
      decide_eq_true_eq, not_and, not_le] at hin
    have hlt := hin hnlt
    omega
  simp only
  split
  · rename_i hgt
    split_ifs with hr
    · have hd : Delivers queued r
          { r.noteAck id with buffered := r.buffered.insert id payload } [] := by
        refine ⟨append_nil _, ?_⟩
        intro id' hid
        cases hid with
        | inl hlt => exact .inl hlt
        | inr hmem => exact .inr ((mem_insert _).2 (.inr hmem))
      refine ⟨?_, hd⟩
      refine h.of_noteAck ((h.toCoherent.noteAck id).insert hp hgt hw) ?_ rfl hd (.inr ?_)
      · rw [mem_insert, not_or]
        exact ⟨Nat.ne_of_lt hgt, h.waits⟩
      · exact (mem_insert _).2 (.inl rfl)
    · have hlen : r.buffered.keys.length < maxBuffered :=
        Nat.lt_of_le_of_lt h.length_buffered (by decide)
      have hmem : id ∈ r.buffered := not_not.1 fun hno => hr ⟨hlen, hno⟩
      exact ⟨hn (.inr hmem), noteAck_delivers r id⟩
  · rename_i hngt
    have heq : id = r.nextExpected := Nat.le_antisymm (not_lt.1 hngt) (not_lt.1 hnlt)
    subst heq
    rw [show (r.noteAck r.nextExpected).nextExpected = r.nextExpected from rfl,
      wrappingAdd_next hq hp]
    exact h.accept_next hq hp

theorem Sound.takeAcks (h : r.Sound queued) : r.takeAcks.1.Sound queued :=
  { h with
    held := fun id hmem => h.held id (mem_of_mem_drop hmem)
    pending_le := (drop_sublist _ _).length_le.trans h.pending_le }

theorem getElem?_concat_of_eq_some (h : queued[id]? = some payload) (new : Bytes) :
    (queued ++ [new])[id]? = some payload := by
  rw [getElem?_append_left (List.getElem?_eq_some_iff.1 h).1]
  exact h

theorem Sound.concat (h : r.Sound queued) (new : Bytes) : r.Sound (queued ++ [new]) :=
  { h with
    next_le := h.next_le.trans (by simp)
    window := fun id payload hl => by
      obtain ⟨hle, hlt, hq⟩ := h.window id payload hl
      exact ⟨hle, hlt, getElem?_concat_of_eq_some hq new⟩ }

end ReliableReceiver

def ids (os : List Outgoing) : List ℕ := os.map (·.packetId)

theorem ids_congr {os os' : List Outgoing} (h : os.map (fun o => (o.packetId, o.payload)) =
    os'.map fun o => (o.packetId, o.payload)) : ids os = ids os' := by
  simpa [ids, Function.comp_def] using congrArg (List.map Prod.fst) h

theorem mem_ids {os : List Outgoing} {id : ℕ} : id ∈ ids os ↔ ∃ o ∈ os, o.packetId = id :=
  mem_map

namespace ReliableSender

/-- Packets are numbered in the order they were queued, and behind the window none has been
transmitted. -/
structure Sound (queued : List Bytes) (packets : List Outgoing) (s : ReliableSender) :
    Prop where
  next_eq : s.nextPacketId = queued.length
  ordered : (ids s.outgoing).Pairwise (· < ·)
  numbered : ∀ o ∈ s.outgoing, queued[o.packetId]? = some o.payload
  unsent : ∀ id ∈ ids (s.outgoing.drop sendWindow), id ∉ ids packets

variable {queued : List Bytes} {packets : List Outgoing} {s : ReliableSender}

theorem Sound.length_transmitted (h : s.Sound queued packets) :
    (s.outgoing.filter fun o => o.packetId ∈ ids packets).length ≤ sendWindow := by
  have hb : (s.outgoing.drop sendWindow).filter (fun o => o.packetId ∈ ids packets) = [] := by
    refine filter_eq_nil_iff.2 fun o ho => ?_
    have hu := h.unsent o.packetId (mem_ids.2 ⟨o, ho, rfl⟩)
    simpa using hu
  rw [← take_append_drop sendWindow s.outgoing, filter_append, hb, append_nil]
  exact (length_filter_le _ _).trans (length_take_le _ _)

theorem Sound.map (h : s.Sound queued packets) {outgoing : List Outgoing}
    (hmap : outgoing.map (fun o => (o.packetId, o.payload)) =
      s.outgoing.map fun o => (o.packetId, o.payload)) :
    Sound queued packets { s with outgoing := outgoing } := by
  have hids := ids_congr hmap
  refine ⟨h.next_eq, ?_, ?_, ?_⟩
  · rw [hids]
    exact h.ordered
  · intro o ho
    have hmem : (o.packetId, o.payload) ∈ s.outgoing.map fun o => (o.packetId, o.payload) := by
      rw [← hmap]
      exact mem_map_of_mem ho
    obtain ⟨o', ho', heq⟩ := List.mem_map.1 hmem
    obtain ⟨hid, hp⟩ := Prod.mk.inj heq
    rw [← hid, ← hp]
    exact h.numbered o' ho'
  · intro id hid
    refine h.unsent id ?_
    rw [ids, map_drop] at hid ⊢
    rw [ids] at hids
    rwa [hids] at hid

theorem markAllDue_ids (s : ReliableSender) :
    s.markAllDue.outgoing.map (fun o => (o.packetId, o.payload)) =
      s.outgoing.map fun o => (o.packetId, o.payload) := by
  simp [markAllDue, Function.comp_def]

theorem takeDue_ids (s : ReliableSender) (now : ℕ) :
    (s.takeDue now).1.outgoing.map (fun o => (o.packetId, o.payload)) =
      s.outgoing.map fun o => (o.packetId, o.payload) := by
  have hm : ∀ o : Outgoing, (((if ready now o then transmit now o else o).packetId,
        (if ready now o then transmit now o else o).payload) : ℕ × Bytes) =
        (o.packetId, o.payload) := by
    intro o
    split <;> rfl
  simp only [takeDue, map_append, map_map, Function.comp_def, hm]
  rw [← map_append, take_append_drop]

theorem mem_takeDue {o : Outgoing} {now : ℕ} (h : o ∈ (s.takeDue now).2) :
    ∃ o' ∈ s.outgoing.take sendWindow, o.packetId = o'.packetId ∧ o.payload = o'.payload := by
  obtain ⟨o', ho', rfl⟩ := List.mem_map.1 h
  exact ⟨o', (List.mem_filter.1 ho').1, rfl, rfl⟩

theorem Sound.takeDue (h : s.Sound queued packets) (now : ℕ) :
    (s.takeDue now).1.Sound queued (packets ++ (s.takeDue now).2) := by
  have hmap := h.map (s.takeDue_ids now)
  refine ⟨hmap.next_eq, hmap.ordered, hmap.numbered, ?_⟩
  intro id hid hs
  rw [ids, map_append, mem_append] at hs
  cases hs with
  | inl hold => exact hmap.unsent id hid hold
  | inr hnew =>
    obtain ⟨o, ho, rfl⟩ := List.mem_map.1 hnew
    obtain ⟨o', ho', heq, -⟩ := mem_takeDue ho
    have hor := h.ordered
    rw [ids, ← take_append_drop sendWindow s.outgoing, map_append, pairwise_append] at hor
    have hb : o.packetId ∈ (s.outgoing.drop sendWindow).map (·.packetId) := by
      have hids := ids_congr (s.takeDue_ids now)
      rw [ids, ids] at hids
      rwa [ids, map_drop, hids, ← map_drop] at hid
    have hlt := hor.2.2 o'.packetId (mem_map_of_mem ho') o.packetId hb
    exact absurd hlt (by omega)

theorem Sound.onAck (h : s.Sound queued packets) (acked : List ℕ) :
    (s.onAck acked).Sound queued packets := by
  unfold ReliableSender.onAck
  split
  · exact h
  have hsub := filter_sublist (p := fun o => !acked.contains o.packetId) (l := s.outgoing)
  refine ⟨h.next_eq, h.ordered.sublist (hsub.map _), ?_, ?_⟩
  · intro o ho
    exact h.numbered o (hsub.subset ho)
  · intro id hid
    exact h.unsent id (((hsub.drop sendWindow).map _).subset hid)

theorem mem_onAck {acked : List ℕ} {id : ℕ} (h : id ∈ ids s.outgoing) (hid : id ∉ acked) :
    id ∈ ids (s.onAck acked).outgoing := by
  unfold ReliableSender.onAck
  split
  · exact h
  · obtain ⟨o, ho, rfl⟩ := mem_ids.1 h
    refine mem_ids.2 ⟨o, mem_filter.2 ⟨ho, ?_⟩, rfl⟩
    simpa using hid

theorem Sound.queue (h : s.Sound queued packets) (hq : queued.length + 1 < 2 ^ 32)
    (hp : ∀ o ∈ packets, queued[o.packetId]? = some o.payload) (opcode : Opcode)
    (acks : List ℕ) (payload : Bytes) :
    (s.queue opcode acks payload).1.Sound (queued ++ [payload]) packets := by
  have hlt : ∀ o : Outgoing, queued[o.packetId]? = some o.payload → o.packetId < queued.length :=
    fun o ho => (List.getElem?_eq_some_iff.1 ho).1
  refine ⟨?_, ?_, ?_, ?_⟩
  · simp only [ReliableSender.queue, h.next_eq, length_append, length_singleton]
    exact wrappingAdd_of_lt hq
  · simp only [ReliableSender.queue, ids, map_append, map_cons, map_nil]
    refine pairwise_append.2 ⟨h.ordered, pairwise_singleton _ _, ?_⟩
    intro id hid id' hid'
    obtain ⟨o, ho, rfl⟩ := List.mem_map.1 hid
    rw [List.mem_singleton.1 hid', h.next_eq]
    exact hlt o (h.numbered o ho)
  · exact forall_mem_append.2 ⟨fun o ho => getElem?_concat_of_eq_some
      (h.numbered o ho) payload, forall_mem_singleton.2 (by simp [h.next_eq])⟩
  · intro id hid hs
    obtain ⟨o, ho, rfl⟩ := mem_ids.1 hs
    have hold := hlt o (hp o ho)
    simp only [ReliableSender.queue, ids, drop_append, map_append, mem_append] at hid
    cases hid with
    | inl hb => exact h.unsent _ hb hs
    | inr hnew =>
      obtain ⟨o', ho', heq⟩ := List.mem_map.1 hnew
      have hf := List.mem_singleton.1 (mem_of_mem_drop ho')
      rw [hf] at heq
      simp only [h.next_eq] at heq
      omega

end ReliableSender

namespace Channel

/-- What ties the two ends and everything on the wire together. -/
structure Inv (c : Channel) : Prop where
  sender : c.sender.Sound c.queued c.packets
  receiver : c.receiver.Sound c.queued
  packets : ∀ o ∈ c.packets, c.queued[o.packetId]? = some o.payload
  acks : ∀ acked ∈ c.ackArrays, ∀ id ∈ acked, c.receiver.Holds id
  kept : ∀ id < c.queued.length, id ∈ ids c.sender.outgoing ∨ c.receiver.Holds id
  delivered : c.delivered = c.queued.take c.receiver.nextExpected

variable {c : Channel}

theorem start_inv : start.Inv where
  sender := ⟨rfl, .nil, by simp [start, ReliableSender.new],
    by simp [start, ReliableSender.new, ids]⟩
  receiver :=
    { next_le := le_rfl
      window := by simp [start, new]
      waits := by simp [start, new]
      held := by simp [start, new]
      pending_le := Nat.zero_le _ }
  packets := by simp [start]
  acks := by simp [start]
  kept := by simp [start]
  delivered := rfl

theorem Inv.queue (h : c.Inv) (hq : c.queued.length + 1 < 2 ^ 32) (opcode : Opcode)
    (acks : List ℕ) (payload : Bytes) : (c.step (.queue opcode acks payload)).Inv where
  sender := h.sender.queue hq h.packets opcode acks payload
  receiver := h.receiver.concat payload
  packets o ho := getElem?_concat_of_eq_some (h.packets o ho) payload
  acks := h.acks
  kept id hid := by
    simp only [step, ReliableSender.queue, ids, map_append, mem_append,
      length_append, length_singleton] at hid ⊢
    by_cases hold : id < c.queued.length
    · exact (h.kept id hold).imp_left .inl
    refine .inl (.inr ?_)
    rw [h.sender.next_eq]
    simp only [map_cons, map_nil, mem_singleton]
    omega
  delivered := by
    simp only [step]
    rw [take_append_of_le_length h.receiver.next_le]
    exact h.delivered

theorem Inv.takeDue (h : c.Inv) (now : ℕ) : (c.step (.takeDue now)).Inv := by
  refine { h with sender := h.sender.takeDue now, packets := ?_, kept := ?_ }
  · refine forall_mem_append.2 ⟨h.packets, fun o ho => ?_⟩
    obtain ⟨o', ho', hid, hp⟩ := ReliableSender.mem_takeDue ho
    rw [hid, hp]
    exact h.sender.numbered o' (mem_of_mem_take ho')
  · simp only [step]
    rw [ids_congr (c.sender.takeDue_ids now)]
    exact h.kept

theorem Inv.markAllDue (h : c.Inv) : (c.step .markAllDue).Inv := by
  refine { h with sender := h.sender.map c.sender.markAllDue_ids, kept := ?_ }
  simp only [step]
  rw [ids_congr c.sender.markAllDue_ids]
  exact h.kept

theorem Inv.accept (h : c.Inv) (hq : c.queued.length < 2 ^ 32) (place : ℕ) :
    (c.step (.accept place)).Inv := by
  cases hp : c.packets[place]? with
  | none =>
    simp only [step, hp]
    exact h
  | some o =>
    have hpa := h.packets o (mem_of_getElem? hp)
    obtain ⟨hs, hd⟩ := h.receiver.accept hq hpa
    simp only [step, hp]
    refine ⟨h.sender, hs, h.packets, ?_, ?_, ?_⟩
    · exact fun acked ha id hid => hd.holds id (h.acks acked ha id hid)
    · exact fun id hid => (h.kept id hid).imp_right (hd.holds id)
    · simp only [h.delivered]
      exact hd.delivered_eq

theorem Inv.takeAcks (h : c.Inv) : (c.step .takeAcks).Inv :=
  { h with
    receiver := h.receiver.takeAcks
    acks := forall_mem_append.2 ⟨h.acks, forall_mem_singleton.2 fun id hid =>
      h.receiver.held id (mem_of_mem_take hid)⟩ }

theorem Inv.onAck (h : c.Inv) (place : ℕ) : (c.step (.onAck place)).Inv := by
  cases hp : c.ackArrays[place]? with
  | none =>
    simp only [step, hp]
    exact h
  | some acked =>
    simp only [step, hp]
    refine ⟨h.sender.onAck acked, h.receiver, h.packets, h.acks, ?_, h.delivered⟩
    intro id hid
    by_cases ha : id ∈ acked
    · exact .inr (h.acks acked (mem_of_getElem? hp) id ha)
    · exact (h.kept id hid).imp_left fun hmem => ReliableSender.mem_onAck hmem ha

theorem length_queued_step (c : Channel) (l : Label) :
    c.queued.length ≤ (c.step l).queued.length := by
  cases l with
  | queue opcode acks payload => simp [step]
  | takeDue | markAllDue | takeAcks => exact le_rfl
  | accept | onAck =>
    simp only [step]
    split <;> exact le_rfl

theorem step_inv (h : c.Inv) (l : Label) (hq : (c.step l).queued.length < 2 ^ 32) :
    (c.step l).Inv := by
  have hle := c.length_queued_step l
  cases l with
  | queue opcode acks payload =>
    refine h.queue ?_ opcode acks payload
    simpa [step] using hq
  | takeDue now => exact h.takeDue now
  | markAllDue => exact h.markAllDue
  | accept place => exact h.accept (by omega) place
  | takeAcks => exact h.takeAcks
  | onAck place => exact h.onAck place

theorem run_inv (ls : List Label) (hq : (run step start ls).queued.length < 2 ^ 32) :
    (run step start ls).Inv := by
  have hk : ∀ (c : Channel) (l : Label), (c.queued.length < 2 ^ 32 → c.Inv) →
      (c.step l).queued.length < 2 ^ 32 → (c.step l).Inv := by
    intro c l hinv hlt
    have hle := c.length_queued_step l
    exact step_inv (hinv (by omega)) l hlt
  exact run_invariant (fun _ => start_inv) hk ls hq

theorem Inv.length_delivered (h : c.Inv) : c.delivered.length = c.receiver.nextExpected := by
  rw [h.delivered, length_take, Nat.min_eq_left h.receiver.next_le]

theorem Inv.held (h : c.Inv) {id : ℕ} (hh : c.receiver.Holds id) :
    id < c.delivered.length ∨ ∃ payload, c.receiver.buffered.lookup id = some payload ∧
      c.queued[id]? = some payload := by
  cases hh with
  | inl hlt =>
    rw [h.length_delivered]
    exact .inl hlt
  | inr hmem =>
    obtain ⟨payload, hl⟩ := AList.mem_iff_lookup.1 hmem
    exact .inr ⟨payload, hl, (h.receiver.window id payload hl).2.2⟩

end Channel

/-- For every interleaving of the two ends and every behaviour of the network, with fewer than
`2 ^ 32` packets queued: what is delivered is a prefix of what was queued; a packet that has left
the queue was delivered or is buffered; at most `sendWindow` packets are in flight; a packet whose
predecessors were all delivered is in the window and taken; and the receiver's buffers are
bounded. -/
theorem control_channel_reliable (ls : List Label)
    (hqueued : (run Channel.step .start ls).queued.length < 2 ^ 32) :
    let c := run Channel.step .start ls
    c.delivered <+: c.queued ∧
    (∀ id < c.queued.length, id ∉ ids c.sender.outgoing →
      id < c.delivered.length ∨ ∃ payload, c.receiver.buffered.lookup id = some payload ∧
        c.queued[id]? = some payload) ∧
    ((ids c.sender.outgoing).Pairwise (· < ·) ∧
      (c.sender.outgoing.filter fun o => o.packetId ∈ ids c.packets).length ≤ sendWindow) ∧
    (∀ o ∈ c.packets, (∀ id < o.packetId, id < c.delivered.length) →
      c.receiver.outsideWindow o.packetId = false ∧
        o.packetId < (c.receiver.accept o.packetId o.payload).1.nextExpected) ∧
    c.receiver.buffered.keys.length ≤ recvWindow - 1 ∧
    c.receiver.pendingAcks.length ≤ maxPendingAcks := by
  intro c
  have h : c.Inv := Channel.run_inv ls hqueued
  refine ⟨?_, ?_, ⟨h.sender.ordered, h.sender.length_transmitted⟩, ?_,
    h.receiver.length_buffered, h.receiver.pending_le⟩
  · rw [h.delivered]
    exact take_prefix _ _
  · intro id hid hg
    exact h.held ((h.kept id hid).resolve_left hg)
  · intro o ho hl
    have hle : o.packetId ≤ c.receiver.nextExpected := by
      rw [← h.length_delivered]
      by_contra hgt
      exact absurd (hl c.delivered.length (by omega)) (lt_irrefl _)
    constructor
    · have hw : recvWindow = 8 := rfl
      simp only [ReliableReceiver.outsideWindow, Bool.and_eq_false_iff, Bool.not_eq_false',
        decide_eq_true_eq, decide_eq_false_iff_not]
      omega
    -- the next packet is taken at once: the receiver moves past it
    by_cases hlt : o.packetId < c.receiver.nextExpected
    · rw [ReliableReceiver.accept, if_pos hlt]
      exact hlt
    have hd := congrArg length (h.receiver.accept hqueued (h.packets o ho)).2.delivered_eq
    have hid : o.packetId = c.receiver.nextExpected := by omega
    have hpos : 0 < (c.receiver.accept o.packetId o.payload).2.length := by
      simp [hid, ReliableReceiver.accept, ReliableReceiver.outsideWindow, ReliableReceiver.noteAck,
        recvWindow]
    rw [length_append, length_take, length_take, Nat.min_eq_left h.receiver.next_le] at hd
    omega

/-- The second packet overtakes the first, is acknowledged and forgotten; then the first arrives
twice. -/
def overtaken : List Label :=
  [.queue .controlV1 [] [1], .queue .controlV1 [] [2], .takeDue 0, .accept 1, .takeAcks, .onAck 0,
    .accept 0, .accept 0]

theorem control_channel_reliable_overtaken :
    (run Channel.step .start overtaken).queued.length < 2 ^ 32 ∧
      (run Channel.step .start overtaken).delivered = [[1], [2]] ∧
      (run Channel.step .start overtaken).delivered <+: [[1], [2]] :=
  ⟨by decide, by decide, (control_channel_reliable overtaken (by decide)).1⟩

end NetGet.OpenVpn
