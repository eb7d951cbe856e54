import Mathlib.Data.Finset.Card
import NetGet.Model.Yamux

/-! # The streams of a session -/

namespace NetGet.Yamux

open Library List AList
open Machine

def Cmd.begins : Cmd → Option ℕ
  | .opens id => some id
  | .ack id => some id
  | _ => none

def begun (cmds : List Cmd) : List ℕ := cmds.filterMap Cmd.begins

theorem begun_append (cmds cmds' : List Cmd) : begun (cmds ++ cmds') = begun cmds ++ begun cmds' :=
  filterMap_append

/-- From `r` to `r'` commands were sent, and those that begin a stream begin `ids`. -/
def Begins (r r' : Receiver) (ids : List ℕ) : Prop :=
  ∃ sent, r'.cmds = r.cmds ++ sent ∧ begun sent = ids

namespace Begins

variable {r r' r'' : Receiver} {ids ids' : List ℕ}

theorem of_cmds_eq (h : r'.cmds = r.cmds) : Begins r r' [] := ⟨[], by rw [h, append_nil], rfl⟩

theorem trans (h : Begins r r' ids) (h' : Begins r' r'' ids') : Begins r r'' (ids ++ ids') := by
  obtain ⟨sent, hc, rfl⟩ := h
  obtain ⟨sent', hc', rfl⟩ := h'
  exact ⟨sent ++ sent', by rw [hc', hc, append_assoc], begun_append sent sent'⟩

theorem send (r : Receiver) (cmds : List Cmd) : Begins r (r.send cmds) (begun cmds) :=
  ⟨cmds, rfl, rfl⟩

theorem finish (r : Receiver) : Begins r r.finish [] := ⟨[.goAway 0], rfl, rfl⟩

end Begins

namespace Receiver

variable {r r' : Receiver} {accepted : Bool} {e : Event} {h : Header}

def short (h : Header) : Bool := h.kind = tWindow || h.len = 0

def ends (h : Header) : Bool := h.flags &&& (fFin ||| fRst) ≠ 0

def isSyn (h : Header) : Bool := h.flags &&& fSyn ≠ 0

theorem table_endFrame (r : Receiver) (h : Header) :
    (r.endFrame h).table = if ends h then r.table.erase h.id else r.table := by
  rw [endFrame, ends]
  split <;> simp_all

/-- A frame begins no stream. Its own stream leaves the table, unless there is a payload to
come. -/
theorem onFrame_spec (r : Receiver) (h : Header) : Begins r (r.onFrame h) [] ∧
      ((r.onFrame h).stage = .done ∨
        (r.onFrame h).table = if short h && ends h then r.table.erase h.id else r.table) := by
  rw [onFrame]
  split
  · rename_i hk
    have hs : short h = true := by simp [short, hk]
    rw [table_endFrame, hs, Bool.true_and]
    split
    · exact ⟨.send r _, .inr rfl⟩
    · exact ⟨.of_cmds_eq rfl, .inr rfl⟩
  rename_i hk
  split
  · rename_i hlen
    have hs : short h = false := by simp [short, hk, Nat.ne_of_gt hlen]
    rw [hs, Bool.false_and, if_neg Bool.false_ne_true, charge]
    split
    · simp only
      split
      · exact ⟨.of_cmds_eq rfl, .inr rfl⟩
      · split
        · exact ⟨.of_cmds_eq rfl, .inr rfl⟩
        · exact ⟨.finish _, .inl rfl⟩
    · split
      · exact ⟨.of_cmds_eq rfl, .inr rfl⟩
      · exact ⟨.finish _, .inl rfl⟩
  · rename_i hlen
    have hs : short h = true := by simp [short, Nat.eq_zero_of_not_pos hlen]
    rw [table_endFrame, hs, Bool.true_and]
    exact ⟨.of_cmds_eq rfl, .inr rfl⟩

def opening (r : Receiver) : Event → Bool
  | .header h _ => r.stage = .header && isSyn h
  | .opens _ => true
  | _ => false

/-- The stream that the event takes out of the table while `read_loop` goes on: the application does
not take it over, or the peer ends it. -/
def removes (r : Receiver) : Event → Option ℕ
  | .header h accepted =>
    if isSyn h && !accepted || short h && ends h then some h.id else none
  | .payload _ =>
    match r.stage with
    | .payload h _ => if ends h then some h.id else none
    | _ => none
  | _ => none

/-- What an event does to the table and to the streams that are begun. -/
structure Moves (r : Receiver) (e : Event) (r' : Receiver) (ids : List ℕ) : Prop where
  begins : Begins r r' ids
  opens : ids = [] ∨
    ids.length = 1 ∧ r.opening e = true ∧ r.table.keys.length < maxStreams
  keeps : r'.stage ≠ .done → r.stage ≠ .done ∧
    ∀ id, id ∈ r.table ∨ id ∈ ids → r.removes e ≠ some id → id ∈ r'.table

theorem Moves.quiet (hb : Begins r r' []) (hs : r'.stage ≠ .done → r.stage ≠ .done)
    (ht : r'.table = r.table) : Moves r e r' [] where
  begins := hb
  opens := .inl rfl
  keeps := by
    intro hr
    refine ⟨hs hr, ?_⟩
    intro id hid _
    rw [ht]
    exact hid.resolve_right not_mem_nil

theorem Moves.done (hb : Begins r r' []) (hs : r'.stage = .done) : Moves r e r' [] where
  begins := hb
  opens := .inl rfl
  keeps := fun hr => absurd hs hr

theorem keeps_onFrame {id : ℕ} (hr : (r'.onFrame h).stage ≠ .done) (hid : id ∈ r'.table)
    (hre : r.removes (.header h accepted) ≠ some id) : id ∈ (r'.onFrame h).table := by
  rw [((r'.onFrame_spec h).2).resolve_left hr]
  split_ifs with he
  · refine mem_erase.2 ⟨?_, hid⟩
    rintro rfl
    exact hre (if_pos (Bool.or_eq_true_iff.2 (.inr he)))
  · exact hid

theorem moves_onSyn (hs : r.stage = .header) (hsyn : isSyn h = true)
    (hst : r.onSyn h.id accepted = some r') :
    ∃ ids, Moves r (.header h accepted) (r'.onFrame h) ids := by
  have hru : r.stage ≠ .done := by
    rw [hs]
    exact nofun
  have hf : Begins r' (r'.onFrame h) [] := (r'.onFrame_spec h).1
  simp only [onSyn] at hst
  split at hst
  · cases hst
  split at hst
  · cases hst
    refine ⟨[], (Begins.send r _).trans hf, .inl rfl, fun hd => ⟨hru, fun id hid hr => ?_⟩⟩
    exact keeps_onFrame hd (hid.resolve_right not_mem_nil) hr
  rename_i hro
  cases hst
  have ho : r.opening (.header h accepted) = true := by simp [opening, hs, hsyn]
  have hin : ∀ {id}, id ∈ r.table ∨ id ∈ [h.id] → id ∈ (r.insert h.id accepted).table :=
    fun hid => (mem_insert _).2 (hid.imp_right mem_singleton.1).symm
  -- the stream begins, and one that is not accepted leaves the table again
  cases accepted with
  | true =>
    refine ⟨[h.id], (Begins.send (r.insert h.id true) [.ack h.id]).trans hf,
      .inr ⟨rfl, ho, Nat.lt_of_not_le hro⟩, fun hd => ⟨hru, fun id hid hr => ?_⟩⟩
    exact keeps_onFrame hd (hin hid) hr
  | false =>
    refine ⟨[h.id], (Begins.send (r.insert h.id false) [.ack h.id]).trans hf,
      .inr ⟨rfl, ho, Nat.lt_of_not_le hro⟩, fun hd => ⟨hru, fun id hid hr => ?_⟩⟩
    refine keeps_onFrame hd (mem_erase.2 ⟨?_, hin hid⟩) hr
    rintro rfl
    exact hr (if_pos (by simp [hsyn]))

theorem moves_onHeader (hs : r.stage = .header) :
    ∃ ids, Moves r (.header h accepted) (r.onHeader h accepted) ids := by
  rw [onHeader]
  split
  · exact ⟨[], .done (.finish r) rfl⟩
  split
  · split
    · exact ⟨[], .quiet (.send r _) id rfl⟩
    · exact ⟨[], .quiet (.of_cmds_eq rfl) id rfl⟩
  split
  · exact ⟨[], .done (.finish r) rfl⟩
  split
  · exact ⟨[], .done (.finish r) rfl⟩
  split_ifs with hsyn
  · cases hst : r.onSyn h.id accepted with
    | none => exact ⟨[], .done (.finish r) rfl⟩
    | some r' => exact moves_onSyn hs (by simpa [isSyn] using hsyn) hst
  · have hr : r.stage ≠ .done := by
      rw [hs]
      exact nofun
    exact ⟨[],
      { begins := (r.onFrame_spec h).1
        opens := .inl rfl
        keeps := fun hd => ⟨hr, fun id hid hre =>
          keeps_onFrame hd (hid.resolve_right not_mem_nil) hre⟩ }⟩

theorem moves_onPayload {charged : Option ℕ} {data : Bytes} (hs : r.stage = .payload h charged) :
    Moves r (.payload data) (r.onPayload h data) [] := by
  have hsp : (r.onPayload h data).cmds = r.cmds ∧
      (r.onPayload h data).table = if ends h then r.table.erase h.id else r.table := by
    rw [onPayload]
    split
    · exact ⟨rfl, table_endFrame _ h⟩
    · exact ⟨rfl, table_endFrame r h⟩
  refine ⟨.of_cmds_eq hsp.1, .inl rfl, fun _ => ⟨by rw [hs]; exact nofun, ?_⟩⟩
  intro id hid hr
  have hmem : id ∈ r.table := hid.resolve_right not_mem_nil
  rw [hsp.2]
  split_ifs with he
  · refine mem_erase.2 ⟨?_, hmem⟩
    rintro rfl
    exact hr (by simp only [removes, hs, if_pos he])
  · exact hmem

theorem moves_opens (r : Receiver) (connected : Bool) :
    ∃ ids, Moves r (.opens connected) (r.opens connected) ids := by
  simp only [opens]
  split
  · exact ⟨[], .quiet (.of_cmds_eq rfl) id rfl⟩
  rename_i hro
  cases connected with
  | true =>
    refine ⟨[r.nextId], ⟨[.opens r.nextId], rfl, rfl⟩, .inr ⟨rfl, rfl, Nat.lt_of_not_le hro⟩,
      fun hr => ⟨hr, ?_⟩⟩
    intro id hid _
    exact (mem_insert _).2 (hid.imp_right mem_singleton.1).symm
  | false =>
    refine ⟨[], .of_cmds_eq rfl, .inl rfl, fun hr => ⟨hr, ?_⟩⟩
    intro id hid _
    exact (mem_insert _).2 (.inr (hid.resolve_right not_mem_nil))

/-! A reader sends window grants only. -/

theorem begun_countConsumed (s : Stream) (n : ℕ) : begun (s.countConsumed n).2 = [] := by
  rw [Stream.countConsumed]
  split
  · rfl
  · split <;> rfl

theorem begun_recv (s : Stream) (store : Bytes → Stream → Stream) :
    begun (s.recv store).2 = [] := by
  rw [Stream.recv]
  split
  · rfl
  · exact begun_countConsumed _ _

theorem begun_nextChunk (s : Stream) : begun s.nextChunk.2 = [] := by
  rw [Stream.nextChunk]
  split
  · rfl
  · exact begun_recv s _

theorem begun_readRound (s : Stream) (missing : ℕ) : begun (s.readRound missing).2 = [] := by
  rw [Stream.readRound]
  split
  · exact begun_recv s _
  · rfl

theorem moves_act {k : ℕ} {f : Stream → Stream × List Cmd} (hf : ∀ s, begun (f s).2 = []) :
    Moves r e (r.act k f) [] := by
  rw [act]
  split
  · exact .quiet (.of_cmds_eq rfl) id rfl
  rename_i s _
  split
  · exact .quiet ⟨(f s).2, rfl, hf s⟩ id rfl
  · exact .quiet (.of_cmds_eq rfl) id rfl

theorem moves_step (r : Receiver) (e : Event) : ∃ ids, Moves r e (r.step e) ids := by
  cases e with
  | header h accepted =>
    rw [step]
    split_ifs with hs
    · exact moves_onHeader hs
    · exact ⟨[], .quiet (.of_cmds_eq rfl) id rfl⟩
  | payload data =>
    simp only [step]
    split
    · rename_i hs
      split
      · exact ⟨[], moves_onPayload hs⟩
      · exact ⟨[], .quiet (.of_cmds_eq rfl) id rfl⟩
    · exact ⟨[], .quiet (.of_cmds_eq rfl) id rfl⟩
  | lost =>
    rw [step]
    split
    · exact ⟨[], .quiet (.of_cmds_eq rfl) id rfl⟩
    · exact ⟨[], .done (.finish r) rfl⟩
  | opens connected => exact r.moves_opens connected
  | nextChunk k => exact ⟨[], moves_act begun_nextChunk⟩
  | readRound k missing => exact ⟨[], moves_act fun s => begun_readRound s missing⟩
  | dropped k => exact ⟨[], moves_act fun _ => rfl⟩

end Receiver

variable {streams : Table ℕ Outbound} {w : Writer}

theorem Writer.mem_flush {i id : ℕ} (h : id ∈ (flush streams i).1) : id ∈ streams := by
  rw [flush] at h
  cases hl : streams.lookup i with
  | none =>
    rw [hl] at h
    exact h
  | some s =>
    simp only [hl] at h
    split at h
    · exact (mem_erase.1 h).2
    · obtain rfl | hmem := (mem_insert _).1 h
      · exact mem_iff_lookup.2 ⟨s, hl⟩
      · exact hmem

theorem Writer.mem_process {c : Cmd} {id : ℕ} (h : id ∈ (process streams c).1) :
    id ∈ streams ∨ c.begins = some id := by
  cases c with
  | opens | ack => exact ((mem_insert _).1 h).symm.imp_right fun heq => congrArg some heq.symm
  | data | fin | peerWindow => exact .inl (mem_modify.1 (mem_flush h))
  | rst i => exact .inl (mem_erase.1 h).2
  | grant | pong | goAway => exact .inl h

namespace Session

/-- The streams for which `write_loop` keeps state. With its return they are gone. -/
def kept (s : Session) : List ℕ := if s.writer.closed then [] else s.writer.streams.keys

def outbound (s : Session) : List ℕ :=
  if s.writer.closed then [] else s.writer.streams.keys ++ begun s.queue ++ begun s.opening

def Agrees (s : Session) : Prop := ∀ id ∈ s.outbound, id ∈ s.receiver.table.keys

instance (s : Session) : Decidable s.Agrees :=
  inferInstanceAs (Decidable (∀ id ∈ s.outbound, id ∈ s.receiver.table.keys))

/-- A stream is opened only while those of the writer are in the table. -/
def OpensInAgreement (s : Session) : Step → Prop
  | .receive e => s.receiver.opening e = true → s.Agrees
  | _ => True

/-- A stream is taken out of the table only when the writer keeps nothing for it, and none is opened
after the end of `read_loop` while the writer keeps some. -/
def Released (s : Session) : Step → Prop
  | .receive e =>
    (∀ id ∈ s.receiver.removes e, s.receiver.opening e = false ∧ id ∉ s.outbound) ∧
      (s.receiver.stage = .done → s.receiver.opening e = true → s.Agrees)
  | _ => True

instance (s : Session) (l : Step) : Decidable (Released s l) := by
  cases l <;> unfold Released <;> infer_instance

variable {s : Session} {id : ℕ} {cmds : List Cmd} {st : Step}

theorem mem_outbound : id ∈ s.outbound ↔ s.writer.closed = false ∧
      (id ∈ s.writer.streams ∨ id ∈ begun s.queue ∨ id ∈ begun s.opening) := by
  cases hc : s.writer.closed <;> simp [outbound, hc, AList.mem_keys]

theorem mem_begun : id ∈ begun cmds ↔ ∃ c ∈ cmds, c.begins = some id := mem_filterMap

theorem begun_subset {cmds' : List Cmd} (h : cmds ⊆ cmds') : begun cmds ⊆ begun cmds' := by
  intro id hid
  obtain ⟨c, hc, hb⟩ := mem_begun.1 hid
  exact mem_begun.2 ⟨c, h hc, hb⟩

theorem outbound_enqueue (h : id ∈ (s.enqueue cmds).outbound) :
    id ∈ s.outbound ∨ id ∈ begun cmds := by
  rw [enqueue] at h
  split at h
  · exact .inl h
  · rw [mem_outbound] at h ⊢
    simp only [begun_append, mem_append] at h
    tauto

theorem receiver_enqueue (s : Session) (cmds : List Cmd) :
    (s.enqueue cmds).receiver = s.receiver := by
  rw [enqueue]
  split <;> rfl

theorem writer_enqueue (s : Session) (cmds : List Cmd) : (s.enqueue cmds).writer = s.writer := by
  rw [enqueue]
  split <;> rfl

theorem outbound_receive {e : Event} {ids : List ℕ}
    (hb : Begins s.receiver (s.receiver.step e) ids) (h : id ∈ (s.step (.receive e)).outbound) :
    id ∈ s.outbound ∨ id ∈ ids := by
  obtain ⟨sent, hc, rfl⟩ := hb
  have hs : (s.receiver.step e).cmds.drop s.receiver.cmds.length = sent := by
    rw [hc, drop_left]
  cases e with
  | opens connected =>
    simp only [step, hs] at h
    rw [mem_outbound] at h ⊢
    simp only [begun_append, mem_append] at h
    tauto
  | header _ _ | payload _ | lost | nextChunk _ | readRound _ _ | dropped _ =>
    simp only [step, hs] at h
    have ha := outbound_enqueue h
    exact ha

theorem receiver_receive (s : Session) (e : Event) :
    (s.step (.receive e)).receiver = s.receiver.step e := by
  cases e with
  | opens connected => rfl
  | header _ _ | payload _ | lost | nextChunk _ | readRound _ _ | dropped _ =>
    exact receiver_enqueue _ _

theorem step_spec (s : Session) (st : Step) : (∃ e, st = .receive e) ∨
      (s.step st).receiver = s.receiver ∧ ∀ id ∈ (s.step st).outbound, id ∈ s.outbound := by
  have hse : ∀ c : Cmd, c.begins = none → (s.enqueue [c]).receiver = s.receiver ∧
      ∀ id ∈ (s.enqueue [c]).outbound, id ∈ s.outbound := by
    intro c hc
    refine ⟨receiver_enqueue s _, ?_⟩
    intro id hid
    refine (outbound_enqueue hid).resolve_right ?_
    rw [begun, filterMap_cons_none hc]
    exact not_mem_nil
  cases st with
  | receive e => exact .inl ⟨e, rfl⟩
  | announce k =>
    refine .inr ?_
    rw [step]
    cases ho : s.opening[k]? with
    | none => exact ⟨rfl, fun _ hid => hid⟩
    | some c =>
      refine ⟨receiver_enqueue _ _, ?_⟩
      intro id hid
      have hop := (mem_outbound.1 hid).1
      rw [writer_enqueue] at hop
      have he : s.opening.eraseIdx k ⊆ s.opening := fun _ => mem_of_mem_eraseIdx
      have ho : [c] ⊆ s.opening := cons_subset.2 ⟨mem_of_getElem? ho, nil_subset _⟩
      rw [mem_outbound]
      refine ⟨hop, ?_⟩
      obtain hid | hid := outbound_enqueue hid
      · exact (mem_outbound.1 hid).2.imp_right (Or.imp_right fun h => begun_subset he h)
      · exact .inr (.inr (begun_subset ho hid))
  | data | close | reset | goAway => exact .inr (hse _ rfl)
  | write result =>
    refine .inr ?_
    rw [step]
    cases hq : s.queue with
    | nil => exact ⟨rfl, fun _ hid => hid⟩
    | cons c queue =>
      refine ⟨rfl, ?_⟩
      intro id hid
      rw [mem_outbound] at hid ⊢
      have hop : s.writer.closed = false := by
        by_contra hc
        rw [Bool.not_eq_false] at hc
        have hcl := hid.1
        simp [Writer.step, hc] at hcl
      refine ⟨hop, ?_⟩
      rw [hq]
      obtain hs | hr := hid.2
      · have hp : id ∈ (Writer.process s.writer.streams c).1 := by
          cases result <;> simpa [Writer.step, hop] using hs
        obtain hold | hb := Writer.mem_process hp
        · exact .inl hold
        · exact .inr (.inl (mem_begun.2 ⟨c, mem_cons_self, hb⟩))
      · exact .inr (hr.imp_left fun h => begun_subset (subset_cons_self c queue) h)

/-- The writer has no more streams than the table may have. -/
def Bounded (s : Session) : Prop := s.outbound.toFinset.card ≤ maxStreams

theorem card_le_of_mem {xs ys : List ℕ} (h : ∀ id ∈ xs, id ∈ ys) :
    xs.toFinset.card ≤ ys.toFinset.card :=
  Finset.card_le_card fun id hid => mem_toFinset.2 (h id (mem_toFinset.1 hid))

theorem Bounded.step (h : Bounded s) (hop : OpensInAgreement s st) : Bounded (s.step st) := by
  obtain ⟨e, rfl⟩ | ⟨-, hs⟩ := s.step_spec st
  · obtain ⟨ids, hm⟩ := s.receiver.moves_step e
    have ha : ∀ id ∈ (s.step (.receive e)).outbound, id ∈ s.outbound ∨ id ∈ ids :=
      fun id hid => outbound_receive hm.begins hid
    obtain rfl | ⟨hone, ho, hr⟩ := hm.opens
    · exact (card_le_of_mem fun id hid => (ha id hid).resolve_right not_mem_nil).trans h
    -- all streams of the writer are in the table, which has room for one more
    have hag := hop ho
    have hs : ∀ id ∈ (s.step (.receive e)).outbound, id ∈ s.receiver.table.keys ++ ids :=
      fun id hid => mem_append.2 ((ha id hid).imp_left (hag id))
    refine (card_le_of_mem hs).trans ((toFinset_card_le _).trans ?_)
    rw [length_append, hone]
    exact hr
  · exact (card_le_of_mem hs).trans h

/-- While `read_loop` runs, the streams of the writer are in the table. -/
structure Tracked (s : Session) : Prop where
  bounded : Bounded s
  agrees : s.receiver.stage ≠ .done → s.Agrees

theorem Tracked.opensInAgreement (h : Tracked s) (hr : Released s st) : OpensInAgreement s st := by
  cases st with
  | receive e =>
    intro ho
    by_cases hd : s.receiver.stage = .done
    · exact hr.2 hd ho
    · exact h.agrees hd
  | announce _ | data _ _ | close _ | reset _ | goAway | write _ => trivial

theorem Tracked.step (h : Tracked s) (hr : Released s st) : Tracked (s.step st) := by
  refine ⟨h.bounded.step (h.opensInAgreement hr), ?_⟩
  obtain ⟨e, rfl⟩ | ⟨hrec, hs⟩ := s.step_spec st
  · obtain ⟨ids, hm⟩ := s.receiver.moves_step e
    rw [Agrees, receiver_receive]
    intro hru id hid
    obtain ⟨hb, hk⟩ := hm.keeps hru
    obtain hold | hnew := outbound_receive hm.begins hid
    · refine hk id (.inl (h.agrees hb id hold)) ?_
      intro hre
      exact (hr.1 id hre).2 hold
    refine hk id (.inr hnew) ?_
    intro hre
    obtain rfl | ⟨-, ho, -⟩ := hm.opens
    · exact not_mem_nil hnew
    · rw [(hr.1 id hre).1] at ho
      cases ho
  · rw [Agrees, hrec]
    intro hru id hid
    exact h.agrees hru id (hs id hid)

theorem kept_sublist_outbound (s : Session) : s.kept.Sublist s.outbound := by
  rw [kept, outbound]
  split
  · exact List.Sublist.refl _
  · rw [append_assoc]
    exact sublist_append_left _ _

theorem nodup_kept (s : Session) : s.kept.Nodup := by
  rw [kept]
  split
  · exact nodup_nil
  · exact s.writer.streams.keys_nodup

theorem Bounded.kept (h : Bounded s) : s.kept.length ≤ maxStreams := by
  rw [← toFinset_card_of_nodup s.nodup_kept]
  exact (card_le_of_mem s.kept_sublist_outbound.subset).trans h

theorem bounded_start (client : Bool) : Bounded (start client) := Nat.zero_le _

/-- If streams are opened only while the writer's streams are in the table, `write_loop` never keeps
more than `maxStreams`. If, moreover, streams leave the table only once the writer has nothing for
them, it keeps none that has left the table while `read_loop` runs. -/
theorem outbound_streams (client : Bool) (steps : List Step) :
    (Meets step OpensInAgreement (start client) steps →
        (run step (start client) steps).kept.length ≤ maxStreams) ∧
      (Meets step Released (start client) steps →
        (run step (start client) steps).kept.length ≤ maxStreams ∧
          ((run step (start client) steps).receiver.stage ≠ .done →
            ∀ id ∈ (run step (start client) steps).kept,
              id ∈ (run step (start client) steps).receiver.table)) := by
  constructor
  · intro ho
    exact Bounded.kept (run_invariant_of_meets (bounded_start client)
      (fun _ _ h hs => h.step hs) steps ho)
  intro hr
  have ht : Tracked (run step (start client) steps) :=
    run_invariant_of_meets ⟨bounded_start client, fun _ => nofun⟩
      (fun _ _ h hs => h.step hs) steps hr
  refine ⟨ht.bounded.kept, ?_⟩
  intro hru id hid
  exact ht.agrees hru id ((kept_sublist_outbound _).subset hid)

/-- A stream of the peer that is closed here before the peer closes it. -/
def answered : List Step :=
  [.receive (.header (header tWindow fSyn 1 0) true), .write none, .close 1, .write none,
    .receive (.header (header tWindow fFin 1 0) true)]

theorem outbound_streams_answered : (run step (start false) answered).kept.length ≤ maxStreams ∧
      ∀ id ∈ (run step (start false) answered).kept,
        id ∈ (run step (start false) answered).receiver.table :=
  have hr := (outbound_streams false answered).2 (by decide)
  ⟨hr.1, hr.2 (by decide)⟩

/-- The peer opens a stream and resets it. -/
def openReset (id : ℕ) : List Step :=
  [.receive (.header (header tWindow fSyn id 0) true), .write none,
    .receive (.header (header tWindow fRst id 0) true)]

/-- The peer opens `n` streams and resets each of them. -/
def flood : ℕ → List Step
  | 0 => []
  | n + 1 => flood n ++ openReset (2 * n + 1)

/-- The table is empty and the writer keeps a stream for each of the ids below. -/
structure Flooded (n : ℕ) (s : Session) : Prop where
  client : s.receiver.client = false
  stage : s.receiver.stage = .header
  table : s.receiver.table.keys = []
  queue : s.queue = []
  closed : s.writer.closed = false
  count : s.writer.streams.keys.length = n
  below : ∀ id ∈ s.writer.streams, id < 2 * n + 1

theorem Flooded.next {n : ℕ} (h : Flooded n s) :
    Flooded (n + 1) (run step s (openReset (2 * n + 1))) := by
  have hf : 2 * n + 1 ∉ s.receiver.table := by
    rw [AList.mem_keys, h.table]
    exact not_mem_nil
  have hnew : 2 * n + 1 ∉ s.writer.streams := fun hmem => Nat.lt_irrefl _ (h.below _ hmem)
  have hodd : (2 * n + 1) % 2 = 1 := by omega
  -- the SYN enters the stream and queues its ACK, the ACK begins it, the RST takes it out again
  have hrun : run step s (openReset (2 * n + 1)) =
      { s with
        receiver := { s.receiver with
          streams := s.receiver.streams ++ [.new (2 * n + 1) true]
          table := (s.receiver.table.insert (2 * n + 1) s.receiver.streams.length).erase (2 * n + 1)
          cmds := s.receiver.cmds ++ [.ack (2 * n + 1)] }
        writer := { s.writer with
          streams := s.writer.streams.insert (2 * n + 1) .fresh
          emitted := s.writer.emitted ++ [.ack (2 * n + 1)] } } := by
    simp [openReset, run, step, enqueue, Receiver.step, Receiver.onHeader, Receiver.onSyn,
      Receiver.onFrame, Receiver.endFrame, Receiver.send, Receiver.insert, Writer.step, Writer.process, header,
      tData, tWindow, tPing, tGoAway, fSyn, fFin, fRst, maxStreams, h.client, h.stage, h.table,
      h.queue, h.closed, hodd, lookup_eq_none.2 hf]
  rw [hrun]
  refine ⟨h.client, h.stage, ?_, h.queue, h.closed, ?_, ?_⟩
  · change (erase _ (insert _ _ _)).keys = []
    rw [keys_erase, keys_insert_of_notMem hf, h.table, erase_cons_head]
  · change (insert _ _ _).keys.length = n + 1
    rw [keys_insert_of_notMem hnew, length_cons, h.count]
  · intro id hid
    obtain rfl | hold := (mem_insert _).1 hid
    · omega
    · have hb := h.below id hold
      omega

theorem flooded (n : ℕ) : Flooded n (run step (start false) (flood n)) := by
  induction n with
  | zero => exact ⟨rfl, rfl, rfl, rfl, rfl, rfl, nofun⟩
  | succ n ih =>
    rw [flood, run_append]
    exact ih.next

/-- The streams a peer has opened and reset stay with the writer, without a bound. -/
theorem writer_keeps_reset_streams : (run step (start false) (flood 257)).receiver.table.keys = [] ∧
      (run step (start false) (flood 257)).kept.length = maxStreams + 1 := by
  have hf := flooded 257
  refine ⟨hf.table, ?_⟩
  rw [kept, hf.closed]
  exact hf.count

end Session

end NetGet.Yamux
