import NetGet.Verification.OpenVpn.Reliable

/-! # The control channel is never stuck -/

namespace NetGet.OpenVpn

open Library Machine List

variable {o : Outgoing} {os : List Outgoing}

namespace ReliableReceiver

variable {r : ReliableReceiver} {id : ℕ}

theorem mem_noteAck : id ∈ (r.noteAck id).pendingAcks := by
  rw [noteAck]
  split_ifs with hc
  · exact contains_iff_mem.1 hc
  all_goals exact mem_append_right _ (mem_singleton_self id)

theorem drain_pendingAcks (rounds : ℕ) :
    ∀ r : ReliableReceiver, (drain rounds r).1.pendingAcks = r.pendingAcks := by
  induction rounds with
  | zero => exact fun r => rfl
  | succ rounds ih =>
    intro r
    rw [drain]
    split
    · rfl
    · exact ih _

/-- A packet that is not ahead of its turn is acknowledged, again if need be. -/
theorem mem_accept (h : id ≤ r.nextExpected) (payload : Bytes) :
    id ∈ (r.accept id payload).1.pendingAcks := by
  have hw : recvWindow = 8 := rfl
  have ho : r.outsideWindow id = false := by
    simp only [outsideWindow, Bool.and_eq_false_iff, decide_eq_false_iff_not]
    omega
  have hn : ¬ (r.noteAck id).nextExpected < id := Nat.not_lt.2 h
  rw [accept, ho]
  simp only [Bool.false_eq_true, if_false, if_neg hn]
  split
  · exact mem_noteAck
  · rw [drain_pendingAcks]
    exact mem_noteAck

end ReliableReceiver

namespace Channel

variable {c : Channel}

/-- The payload expected next is not acknowledged. -/
theorem Inv.next_mem (h : c.Inv) (hlt : c.receiver.nextExpected < c.queued.length) :
    c.receiver.nextExpected ∈ ids c.sender.outgoing := by
  obtain hmem | hl | hb := h.kept _ hlt
  · exact hmem
  · exact absurd hl (lt_irrefl _)
  · exact absurd hb h.receiver.waits

/-- The oldest unacknowledged packet is not ahead of its turn. -/
theorem Inv.head_le (h : c.Inv)
    (ho : c.sender.outgoing = o :: os) : o.packetId ≤ c.receiver.nextExpected := by
  by_contra hgt
  have hlt := (List.getElem?_eq_some_iff.1 (h.sender.numbered o (ho ▸ mem_cons_self))).1
  have hord := h.sender.ordered
  have hmem := h.next_mem (by omega)
  simp only [ho, ids, map_cons, pairwise_cons, mem_cons] at hord hmem
  have := hmem.imp_right (hord.1 _)
  omega

theorem Inv.delivered_of_nil (h : c.Inv) (ho : c.sender.outgoing = []) :
    c.delivered = c.queued := by
  rw [h.delivered, take_of_length_le]
  by_contra hlt
  have hmem := h.next_mem (by omega)
  rw [ho] at hmem
  cases hmem

theorem exists_ackArray {id : ℕ} (n : ℕ) : ∀ c : Channel, c.receiver.pendingAcks.length ≤ n →
    id ∈ c.receiver.pendingAcks → ∃ ls c', run step c ls = c' ∧ c'.sender = c.sender ∧
      c'.queued = c.queued ∧ ∃ acked ∈ c'.ackArrays, id ∈ acked := by
  induction n with
  | zero =>
    intro c hn hid
    rw [length_eq_zero_iff.1 (Nat.le_zero.1 hn)] at hid
    cases hid
  | succ n ih =>
    intro c hn hid
    have hpos := length_pos_of_mem hid
    rw [← take_append_drop (min c.receiver.pendingAcks.length maxAckArray)
      c.receiver.pendingAcks] at hid
    obtain ht | hd := mem_append.1 hid
    · exact ⟨[.takeAcks], _, rfl, rfl, rfl, _, mem_append_right _ (mem_singleton_self _), ht⟩
    · obtain ⟨ls, c', hrun, hrest⟩ := ih (c.step .takeAcks) (by
        simp only [step, ReliableReceiver.takeAcks, length_drop, maxAckArray]
        omega) hd
      exact ⟨.takeAcks :: ls, c', hrun, hrest⟩

theorem exists_transmitted (ho : c.sender.outgoing = o :: os) :
    ∃ ls c', run step c ls = c' ∧ c'.queued = c.queued ∧
      c'.receiver = c.receiver ∧ ids c'.sender.outgoing = ids c.sender.outgoing ∧
      ∃ (place : ℕ) (p : Outgoing), c'.packets[place]? = some p ∧ p.packetId = o.packetId := by
  refine ⟨[.markAllDue, .takeDue 0], _, rfl, rfl, rfl,
    (ids_congr (ReliableSender.takeDue_ids _ 0)).trans (ids_congr c.sender.markAllDue_ids),
    c.packets.length, ReliableSender.transmit 0 { o with sentAt := none }, ?_, rfl⟩
  change (c.packets ++ (c.sender.markAllDue.takeDue 0).2)[c.packets.length]? = _
  rw [getElem?_append_right le_rfl, Nat.sub_self, ReliableSender.takeDue,
    ReliableSender.markAllDue, ho]
  rfl

/-- The oldest packet can be sent, accepted and acknowledged. -/
theorem Inv.acknowledge (h : c.Inv)
    (ho : c.sender.outgoing = o :: os) : ∃ ls c', run step c ls = c' ∧ c'.queued = c.queued ∧
      c'.sender.outgoing.length < c.sender.outgoing.length := by
  obtain ⟨send, c₁, hsend, hq₁, hr, hids, place, p, hp, hid⟩ := exists_transmitted ho
  have hpend : o.packetId ∈ (c₁.step (.accept place)).receiver.pendingAcks := by
    simp only [step, hp, hid, hr]
    exact ReliableReceiver.mem_accept (h.head_le ho) _
  obtain ⟨ls, c₂, hls, hs, hq₂, acked, hmem, hin⟩ := exists_ackArray _ _ le_rfl hpend
  obtain ⟨place', hplace⟩ := getElem?_of_mem hmem
  simp only [step, hp] at hs hq₂
  refine ⟨send ++ .accept place :: (ls ++ [.onAck place']), c₂.step (.onAck place'), ?_, ?_, ?_⟩
  · rw [run_append, hsend, run_cons, run_concat, hls]
  · simp only [step, hplace]
    exact hq₂.trans hq₁
  · have hlen := congrArg length hids
    have hm : o.packetId ∈ ids c₁.sender.outgoing := by
      rw [hids, ho]
      exact mem_cons_self
    obtain ⟨q, hq, hqid⟩ := mem_ids.1 hm
    rw [ids, ids, length_map, length_map] at hlen
    simp only [step, hplace, ReliableSender.onAck, hs, if_neg (ne_nil_of_mem hin), ← hlen]
    refine length_filter_lt_length_iff_exists.2 ⟨q, hq, ?_⟩
    simpa [hqid] using hin

end Channel

/-- Whatever has happened, the sender and the network can go on in such a way that everything
queued so far is delivered, in order, and acknowledged. -/
theorem control_channel_live (ls : List Label)
    (hqueued : (run Channel.step .start ls).queued.length < 2 ^ 32) :
    ∃ more, let c := run Channel.step .start (ls ++ more)
      c.queued = (run Channel.step .start ls).queued ∧ c.delivered = c.queued ∧
        c.sender.outgoing = [] := by
  induction hn : (run Channel.step .start ls).sender.outgoing.length
    using Nat.strong_induction_on generalizing ls with
  | _ n ih =>
    have h := Channel.run_inv ls hqueued
    cases ho : (run Channel.step .start ls).sender.outgoing with
    | nil =>
      refine ⟨[], ?_⟩
      rw [append_nil]
      exact ⟨rfl, h.delivered_of_nil ho, ho⟩
    | cons o os =>
      obtain ⟨first, c', hrun, hq, hlt⟩ := h.acknowledge ho
      rw [← hrun, ← run_append] at hq hlt
      obtain ⟨more, hmore⟩ := ih _ (hn ▸ hlt) (ls ++ first) (hq ▸ hqueued) rfl
      rw [append_assoc, hq] at hmore
      exact ⟨first ++ more, hmore⟩

/-- A packet that was sent and has not arrived. -/
theorem control_channel_live_lost :
    let ls := [.queue .controlV1 [] [1], .takeDue 0]
    ∃ more, let c := run Channel.step .start (ls ++ more)
      c.queued = (run Channel.step .start ls).queued ∧ c.delivered = c.queued ∧
        c.sender.outgoing = [] :=
  control_channel_live _ (by decide)

end NetGet.OpenVpn
