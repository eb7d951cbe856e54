import NetGet.Model.Bolt

/-! # Messages come through however they are chunked and cut -/

namespace NetGet.Bolt

open Library Peeling List Dechunker

theorem frameChunk_eq {piece : Bytes} (h : piece.length ≤ maxChunkBytes) :
    ∃ a b, frameChunk piece = a :: b :: piece ∧ fromBe [a, b] = piece.length := by
  refine ⟨_, _, rfl, ?_⟩
  rw [show [_, _] = toBe 2 piece.length from rfl, fromBe_toBe]
  apply Nat.mod_eq_of_lt
  rw [maxChunkBytes] at h
  omega

namespace Dechunker

variable {limit : ℕ} {message body : Bytes} {a b : UInt8} {d : Dechunker}

theorem turn_zero (h : fromBe [a, b] = 0) : turn limit message (a :: b :: body) =
      .take 2 [] (if message.isEmpty then none else some message) := by
  simp only [turn, if_pos h]
  cases message <;> rfl

theorem turn_full (h : fromBe [a, b] ≠ 0) (hl : message.length + fromBe [a, b] ≤ limit)
    (hb : fromBe [a, b] ≤ body.length) : turn limit message (a :: b :: body) =
      .take (2 + fromBe [a, b]) (message ++ body.take (fromBe [a, b])) none := by
  simp only [turn, if_neg h, if_neg hl.not_gt, if_neg hb.not_gt]

/-- A turn that takes bytes ends a message or takes a chunk, whatever comes after them. -/
theorem turn_take {message' buffer : Bytes} {length : ℕ} {output : Option Bytes}
    (h : turn limit message buffer = .take length message' output) :
    2 ≤ length ∧ length ≤ buffer.length ∧ message'.length ≤ limit ∧
      ∀ more, turn limit message (buffer ++ more) = .take length message' output := by
  match buffer, h with
  | a :: b :: body, h =>
    by_cases hz : fromBe [a, b] = 0
    · cases (turn_zero hz).symm.trans h
      exact ⟨le_rfl, by simp, Nat.zero_le _, fun _ => turn_zero hz⟩
    simp only [turn, if_neg hz] at h
    split at h
    · cases h
    split at h
    · cases h
    rename_i hl hb
    rw [not_lt] at hl hb
    cases h
    refine ⟨Nat.le_add_right 2 _, ?_, ?_, fun more => ?_⟩
    · simp only [length_cons]
      omega
    · rwa [length_append, length_take_of_le hb]
    · rw [cons_append, cons_append, turn_full hz hl (by rw [length_append]; omega),
        take_append_of_le_length hb]

theorem turn_stable (limit : ℕ) : Stable (turn limit) where
  take more h := (turn_take h).2.2.2 more
  refuse := by
    intro message buffer reason more h
    match buffer, h with
    | a :: b :: body, h =>
      by_cases hz : fromBe [a, b] = 0
      · cases (turn_zero hz).symm.trans h
      simp only [cons_append, turn, if_neg hz] at h ⊢
      split at h
      · rename_i hl
        rwa [if_pos hl]
      · split at h <;> cases h
  pos h := Nat.zero_lt_of_lt (turn_take h).1
  le h := (turn_take h).2.1

theorem next_le_limit (h : message.length ≤ limit) (fuel : ℕ) (buffer : Bytes) :
    (next (turn limit) fuel message buffer).1.length ≤ limit := by
  induction fuel generalizing message buffer with
  | zero => exact h
  | succ fuel ih =>
    rw [Peeling.next]
    cases ht : turn limit message buffer with
    | wait | refuse => exact h
    | take length message' output =>
      cases output with
      | none => exact ih (turn_take ht).2.2.1 _
      | some m => exact (turn_take ht).2.2.1

inductive Call where
  | push (bytes : Bytes)
  | nextMessage

def call (d : Dechunker) : Call → Dechunker
  | .push bytes => d.push bytes
  | .nextMessage => d.nextMessage.1

theorem nextMessage_eq (d : Dechunker) {input : Bytes} {result : Except FrameError (Option Bytes)}
    (h : next (turn d.limit) (d.input.length + 1) d.message d.input = (message, input, result)) :
    d.nextMessage = ({ d with message, input }, result) := by
  rw [nextMessage, h]

theorem call_le_limit (h : d.message.length ≤ d.limit) (c : Call) :
    (d.call c).message.length ≤ d.limit := by
  cases c with
  | push bytes => exact h
  | nextMessage =>
    obtain ⟨⟨message, input, result⟩, hn⟩ :
        ∃ r, next (turn d.limit) (d.input.length + 1) d.message d.input = r := ⟨_, rfl⟩
    have hle := next_le_limit h (d.input.length + 1) d.input
    rw [hn] at hle
    rw [call, d.nextMessage_eq hn]
    exact hle

theorem calls_le_limit (h : d.message.length ≤ d.limit) (calls : List Call) :
    (calls.foldl call d).message.length ≤ d.limit := by
  induction calls generalizing d with
  | nil => exact h
  | cons c calls ih =>
    have hs := call_le_limit h c
    rw [← show (d.call c).limit = d.limit by cases c <;> rfl] at hs ⊢
    exact ih hs

end Dechunker

namespace Session

def view (s : Session) : Reader Bytes UInt8 Bytes FrameError where
  state := s.dechunker.message
  buffer := if s.refused.isSome then [] else s.dechunker.input
  outputs := s.queue
  refused := s.refused

theorem drain_limit (rounds : ℕ) (s : Session) :
    (s.drain rounds).dechunker.limit = s.dechunker.limit := by
  induction rounds generalizing s with
  | zero => rfl
  | succ rounds ih =>
    have hl : s.dechunker.nextMessage.1.limit = s.dechunker.limit := rfl
    rw [drain]
    split
    · rename_i d message h
      rw [ih]
      rwa [h] at hl
    · rename_i d h
      rwa [h] at hl
    · rename_i d e h
      rwa [h] at hl

theorem receive_limit (s : Session) (bytes : Bytes) :
    (s.receive bytes).dechunker.limit = s.dechunker.limit := by
  unfold receive
  split
  · rfl
  · exact drain_limit _ _

theorem view_drain {rounds : ℕ} {s : Session} (ho : s.refused = none)
    (hr : s.dechunker.input.length < rounds) :
    (s.drain rounds).view = finish (turn s.dechunker.limit) s.view := by
  induction rounds generalizing s with
  | zero => omega
  | succ rounds ih =>
    have hs := turn_stable s.dechunker.limit
    have hb : s.view.buffer = s.dechunker.input := by simp only [view, ho]; rfl
    rw [finish_eq_next hs (Nat.lt_succ_self _), hb, drain]
    obtain ⟨⟨message, input, result⟩, hn⟩ :
        ∃ r, next (turn s.dechunker.limit) (s.dechunker.input.length + 1)
          s.dechunker.message s.dechunker.input = r := ⟨_, rfl⟩
    rw [s.dechunker.nextMessage_eq hn, show s.view.state = s.dechunker.message from rfl, hn]
    match result with
    | .ok none =>
      simp only [view, ho]
      rfl
    | .ok (some m) =>
      have hlt := length_next hs hn
      have hre : input.length < rounds := by omega
      refine (@ih { s with dechunker := ⟨input, message, _⟩, queue := s.queue ++ [m] }
        ho hre).trans ?_
      simp only [view, ho]
      rfl
    | .error e =>
      simp only [view]
      rfl

theorem view_receive (s : Session) (bytes : Bytes) :
    (s.receive bytes).view = Peeling.read (turn s.dechunker.limit) s.view bytes := by
  cases hr : s.refused with
  | some e => simp only [receive, Peeling.read, hr, view]
  | none =>
    rw [read_of_open hr]
    simp only [receive, hr]
    refine (view_drain rfl (Nat.lt_succ_self _)).trans ?_
    simp only [view, hr, Reader.push, push]
    rfl

theorem view_receiveAll (s : Session) (reads : List Bytes) :
    (s.receiveAll reads).view = readAll (turn s.dechunker.limit) s.view reads := by
  induction reads generalizing s with
  | nil => rfl
  | cons bytes reads ih =>
    rw [receiveAll, foldl_cons, ← receiveAll, ih, view_receive, receive_limit]
    rfl

theorem view_new_receiveAll (limit : ℕ) (reads : List Bytes) : ((new limit).receiveAll reads).view =
      Peeling.read (turn limit) (.start []) reads.flatten := by
  rw [view_receiveAll]
  exact readAll_eq (turn_stable limit) rfl reads

end Session

/-- The stream frames the messages: each in chunks and ended by a zero chunk, with any number of
zero chunks around it. -/
inductive Framed : List Bytes → Bytes → Prop where
  | nil : Framed [] []
  | noop {messages : List Bytes} {stream : Bytes} (rest : Framed messages stream) :
      Framed messages (0 :: 0 :: stream)
  | message {chunks messages : List Bytes} {stream : Bytes} (chunks_ne_nil : chunks ≠ [])
      (chunk_sizes : ∀ piece ∈ chunks, piece ≠ [] ∧ piece.length ≤ maxChunkBytes)
      (rest : Framed messages stream) :
      Framed (chunks.flatten :: messages) (chunks.flatMap frameChunk ++ 0 :: 0 :: stream)

variable {message : Bytes} {limit : ℕ}

theorem chunk_framed (h : message ≠ []) : Framed [message] (chunk message) := by
  have hs : 0 < maxChunkBytes := by decide
  have hf := flatten_pieces hs message
  have hne : pieces maxChunkBytes message ≠ [] := fun hnil => h (by rw [← hf, hnil]; rfl)
  have hfr := Framed.message hne (fun _ hp => mem_pieces hs hp) .nil
  rwa [hf] at hfr

theorem read_zero (message : Bytes) (outputs : List Bytes) (rest : Bytes) :
    Peeling.read (turn limit) ⟨message, [], outputs, none⟩ (0 :: 0 :: rest) =
      Peeling.read (turn limit)
        ⟨[], [], outputs ++ (if message.isEmpty then none else some message).toList, none⟩ rest := by
  have ht : turn limit message [0, 0] = _ := turn_zero rfl
  exact read_unit (turn_stable limit) ht outputs rest

theorem read_chunks {chunks : List Bytes}
    (hs : ∀ piece ∈ chunks, piece ≠ [] ∧ piece.length ≤ maxChunkBytes)
    (hl : message.length + chunks.flatten.length ≤ limit) (outputs : List Bytes) (rest : Bytes) :
    Peeling.read (turn limit) ⟨message, [], outputs, none⟩ (chunks.flatMap frameChunk ++ rest) =
      Peeling.read (turn limit) ⟨message ++ chunks.flatten, [], outputs, none⟩ rest := by
  induction chunks generalizing message with
  | nil => rw [flatMap_nil, flatten_nil, append_nil, nil_append]
  | cons piece chunks ih =>
    obtain ⟨⟨hne, hsi⟩, hr⟩ := forall_mem_cons.1 hs
    rw [flatten_cons, length_append] at hl
    obtain ⟨a, b, hf, hp⟩ := frameChunk_eq hsi
    have hpos : fromBe [a, b] ≠ 0 := by
      rw [hp]
      exact fun h => hne (length_eq_zero_iff.1 h)
    have ht : turn limit message (frameChunk piece) =
        .take (frameChunk piece).length (message ++ piece) none := by
      rw [hf, turn_full hpos (by omega) (Nat.le_of_eq hp), hp, take_length, Nat.add_comm]
      rfl
    rw [flatMap_cons, append_assoc, read_unit (turn_stable limit) ht, Option.toList_none, append_nil,
      ih hr (by rw [length_append]; omega), flatten_cons, append_assoc]

theorem read_framed {messages : List Bytes} {stream : Bytes} (h : Framed messages stream)
    (hl : ∀ m ∈ messages, m.length ≤ limit) (outputs : List Bytes) :
    Peeling.read (turn limit) ⟨[], [], outputs, none⟩ stream =
      ⟨[], [], outputs ++ messages, none⟩ := by
  induction h generalizing outputs with
  | nil =>
    rw [append_nil]
    exact finish_wait rfl
  | noop rest ih =>
    rw [read_zero]
    simpa using ih hl outputs
  | @message chunks messages stream hne hs rest ih =>
    obtain ⟨hme, hm⟩ := forall_mem_cons.1 hl
    have hf : chunks.flatten ≠ [] := by
      obtain ⟨piece, hp⟩ := exists_mem_of_ne_nil _ hne
      exact fun hnil => (hs piece hp).1 (flatten_eq_nil_iff.1 hnil piece hp)
    rw [read_chunks hs (by simpa using hme), read_zero]
    simp only [nil_append, List.isEmpty_iff, if_neg hf, Option.toList_some]
    rw [ih hm, append_assoc, singleton_append]

/-- Framed messages are received in order, however they are chunked and cut; `chunk` frames a
message; on any stream messages and refusal depend on its bytes alone; and under any calls the
message that is put together stays within the limit. -/
theorem dechunking_transparent (limit : ℕ) :
    (∀ messages stream reads, Framed messages stream → (∀ m ∈ messages, m.length ≤ limit) →
      reads.flatten = stream → ((Session.new limit).receiveAll reads).queue = messages ∧
        ((Session.new limit).receiveAll reads).refused = none) ∧
    (∀ message, message ≠ [] → Framed [message] (chunk message)) ∧
    (∀ reads reads' : List Bytes, reads.flatten = reads'.flatten →
      ((Session.new limit).receiveAll reads).queue = ((Session.new limit).receiveAll reads').queue ∧
        ((Session.new limit).receiveAll reads).refused =
          ((Session.new limit).receiveAll reads').refused) ∧
    ∀ calls : List Dechunker.Call, (calls.foldl Dechunker.call (.new limit)).message.length ≤ limit := by
  refine ⟨?_, fun _ => chunk_framed, ?_,
    Dechunker.calls_le_limit (d := .new limit) (Nat.zero_le limit)⟩
  · intro messages stream reads hf hl hr
    have hv := Session.view_new_receiveAll limit reads
    rw [hr, Reader.start, read_framed hf hl, nil_append] at hv
    exact ⟨congrArg Reader.outputs hv, congrArg Reader.refused hv⟩
  intro reads reads' hr
  have hv := Session.view_new_receiveAll limit reads
  rw [hr, ← Session.view_new_receiveAll] at hv
  exact ⟨congrArg Reader.outputs hv, congrArg Reader.refused hv⟩

end NetGet.Bolt
