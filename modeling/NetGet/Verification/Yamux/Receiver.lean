import NetGet.Library.Focus
import NetGet.Model.Yamux

/-! # What a receiver keeps for its peer -/

namespace NetGet.Yamux

open Library List AList
open Machine

def Stream.queued (s : Stream) : ℕ := s.queue.flatten.length

def Stage.inFlight : Stage → ℕ → ℕ
  | .payload h (some k'), k => if k' = k then h.len else 0
  | _, _ => 0

def Stage.receiving : Stage → Option ℕ
  | .payload h _ => some h.id
  | _ => none

@[simp] theorem Stage.inFlight_header (k : ℕ) : Stage.header.inFlight k = 0 := rfl

/-- The books of one stream, whose reader is there. -/
structure Balanced (stage : Stage) (k : ℕ) (s : Stream) : Prop where
  reading : s.reading = true
  window : 0 ≤ s.window
  sum : s.window + s.queued + s.consumed + stage.inFlight k = initialWindow

theorem Balanced.queued_le {stage : Stage} {k : ℕ} {s : Stream} (h : Balanced stage k s) :
    s.queued ≤ initialWindow := by
  have hw := h.window
  have hsum := h.sum
  omega

section Reader

variable {stage : Stage} {k : ℕ} {s : Stream}

/-- The addition that could end the reader does not overflow. -/
theorem Balanced.countConsumed {n : ℕ} (hr : s.reading = true) (hw : 0 ≤ s.window)
    (hsum : s.window + s.queued + s.consumed + n + stage.inFlight k = initialWindow) :
    Balanced stage k (s.countConsumed n).1 := by
  have hlt : s.consumed + n < 2 ^ 32 := by
    have hi : initialWindow < 2 ^ 32 := by decide
    omega
  simp only [Stream.countConsumed, checkedAdd_of_lt hlt]
  split
  · refine ⟨hr, ?_, ?_⟩
    · change 0 ≤ s.window + ((s.consumed + n : ℕ) : ℤ)
      omega
    · change s.window + ((s.consumed + n : ℕ) : ℤ) + s.queued + ((0 : ℕ) : ℤ) + _ = _
      omega
  · refine ⟨hr, hw, ?_⟩
    change s.window + s.queued + ((s.consumed + n : ℕ) : ℤ) + _ = _
    omega

theorem Balanced.recv (h : Balanced stage k s) {store : Bytes → Stream → Stream}
    (hs : ∀ chunk s, (store chunk s).window = s.window ∧ (store chunk s).queue = s.queue ∧
      (store chunk s).consumed = s.consumed ∧ (store chunk s).reading = s.reading) :
    Balanced stage k (s.recv store).1 := by
  unfold Stream.recv
  cases hq : s.queue with
  | nil => exact h
  | cons chunk queue =>
    obtain ⟨hw, hre, hc, hst⟩ := hs chunk { s with queue := queue }
    have hsum := h.sum
    have hqu : s.queued = chunk.length + queue.flatten.length := by
      rw [Stream.queued, hq, flatten_cons, length_append]
    refine Balanced.countConsumed (hst.trans h.reading) (by rw [hw]; exact h.window) ?_
    rw [hw, hc, Stream.queued, hre]
    simp only
    omega

theorem Balanced.nextChunk (h : Balanced stage k s) : Balanced stage k s.nextChunk.1 := by
  unfold Stream.nextChunk
  split
  · exact ⟨h.reading, h.window, h.sum⟩
  · exact h.recv fun _ _ => ⟨rfl, rfl, rfl, rfl⟩

theorem Balanced.readRound (h : Balanced stage k s) (missing : ℕ) :
    Balanced stage k (s.readRound missing).1 := by
  unfold Stream.readRound
  split
  · exact h.recv fun _ _ => ⟨rfl, rfl, rfl, rfl⟩
  · exact ⟨h.reading, h.window, h.sum⟩

end Reader

/-- What the table, the streams and the stage of `read_loop` say about each other. -/
structure Books (r : Receiver) : Prop where
  allocated : r.allocated ≤ initialWindow
  valid : ∀ id k, r.table.lookup id = some k → k < r.streams.length
  stage : ∀ h charged, r.stage = .payload h charged → r.table.lookup h.id = charged
  balanced : ∀ id k s, r.table.lookup id = some k → r.streams[k]? = some s →
    Balanced r.stage k s

namespace Books

variable {r : Receiver} {hd : Header} {accepted : Bool}

theorem session (client : Bool) : Books (.session client) where
  allocated := Nat.zero_le _
  valid _ _ h := nomatch h
  stage _ _ h := nomatch h
  balanced _ _ _ h := nomatch h

theorem finish (h : r.allocated ≤ initialWindow) : Books r.finish where
  allocated := h
  valid _ _ h := nomatch h
  stage _ _ h := nomatch h
  balanced _ _ _ h := nomatch h

variable (h : Books r)

include h

theorem send (cmds : List Cmd) : Books (r.send cmds) :=
  ⟨h.allocated, h.valid, h.stage, h.balanced⟩

theorem inFlight_new : r.stage.inFlight r.streams.length = 0 := by
  cases hs : r.stage with
  | header | done => rfl
  | payload hd charged =>
    cases charged with
    | none => rfl
    | some k =>
      have hlt := h.valid hd.id k (h.stage hd _ hs)
      exact if_neg (by omega)

theorem insert {id : ℕ} (hf : ∀ hd charged, r.stage = .payload hd charged → hd.id ≠ id) :
    Books (r.insert id true) where
  allocated := h.allocated
  valid id' k hk := by
    simp only [Receiver.insert, length_append, length_singleton]
    simp only [Receiver.insert, lookup_insert_ite] at hk
    split at hk
    · cases hk
      omega
    · have := h.valid id' k hk
      omega
  stage hd charged hst := by
    simp only [Receiver.insert, lookup_insert_ite]
    rw [if_neg (hf hd charged hst)]
    exact h.stage hd charged hst
  balanced id' k s hk hs := by
    simp only [Receiver.insert] at hs
    simp only [Receiver.insert, lookup_insert_ite] at hk
    split at hk
    · cases hk
      rw [getElem?_concat_length] at hs
      cases hs
      refine ⟨rfl, Int.natCast_nonneg _, ?_⟩
      change (initialWindow : ℤ) + ((0 : ℕ) : ℤ) + ((0 : ℕ) : ℤ) +
        (r.stage.inFlight r.streams.length : ℕ) = initialWindow
      rw [h.inFlight_new]
      omega
    · rw [getElem?_append_left (h.valid id' k hk)] at hs
      exact h.balanced id' k s hk hs

theorem erase (hst : r.stage = .header) (id : ℕ) :
    Books { r with table := r.table.erase id } where
  allocated := h.allocated
  valid id' k hk := h.valid id' k (lookup_of_erase hk)
  stage _ _ hp := nomatch hst.symm.trans hp
  balanced id' k s hk hs := h.balanced id' k s (lookup_of_erase hk) hs

/-- A stream that nobody takes over leaves the table at once. -/
theorem reject (hst : r.stage = .header) (id : ℕ) :
    Books { r.insert id false with table := (r.insert id false).table.erase id } := by
  have hold : ∀ id' k, ((r.insert id false).table.erase id).lookup id' = some k →
      r.table.lookup id' = some k := by
    intro id' k hk
    rw [lookup_erase_ite] at hk
    split_ifs at hk with hne
    rwa [Receiver.insert, lookup_insert_ite, if_neg hne] at hk
  refine ⟨h.allocated, ?_, fun _ _ hp => (nomatch hst.symm.trans hp), ?_⟩
  · intro id' k hk
    simp only [Receiver.insert, length_append, length_singleton]
    exact Nat.lt_succ_of_lt (h.valid id' k (hold id' k hk))
  · intro id' k s hk hs
    simp only [Receiver.insert] at hs
    rw [getElem?_append_left (h.valid id' k (hold id' k hk))] at hs
    exact h.balanced id' k s (hold id' k hk) hs

theorem endFrame (hs : r.stage = .header) (hd : Header) : Books (r.endFrame hd) := by
  unfold Receiver.endFrame
  rw [← hs]
  split
  · exact h.erase hs hd.id
  · exact h

theorem modify {k : ℕ} {f : Stream → Stream} {stage : Stage}
    (ho : ∀ k', k' ≠ k → stage.inFlight k' = r.stage.inFlight k')
    (hst : ∀ hd charged, stage = .payload hd charged → r.table.lookup hd.id = charged)
    (hf : ∀ id s, r.table.lookup id = some k → r.streams[k]? = some s → Balanced r.stage k s →
      Balanced stage k (f s)) :
    Books { r with streams := r.streams.modify k f, stage := stage } where
  allocated := h.allocated
  valid id k' hk := by
    rw [length_modify]
    exact h.valid id k' hk
  stage := hst
  balanced id k' s hk hs := by
    simp only [getElem?_modify] at hs
    obtain ⟨s', hs', rfl⟩ := Option.map_eq_some_iff.1 hs
    have hb := h.balanced id k' s' hk hs'
    by_cases heq : k = k'
    · subst heq
      simp only [if_true]
      exact hf id s' hk hs' hb
    · simp only [heq, if_false]
      exact ⟨hb.reading, hb.window, by rw [ho k' (Ne.symm heq)]; exact hb.sum⟩

theorem charge (hst : r.stage = .header) : Books (r.charge hd) := by
  unfold Receiver.charge
  cases hl : r.table.lookup hd.id with
  | none =>
    simp only
    split
    · refine ⟨h.allocated, h.valid, ?_, ?_⟩
      · intro hd' charged heq
        cases heq
        exact hl
      intro id k s hk hs
      have hb := h.balanced id k s hk hs
      rw [hst] at hb
      exact ⟨hb.reading, hb.window, hb.sum⟩
    · exact finish h.allocated
  | some k =>
    have hlt := h.valid hd.id k hl
    simp only [getElem?_eq_getElem hlt]
    split_ifs with hro
    · refine h.modify ?_ ?_ ?_
      · intro k' hne
        rw [hst]
        exact if_neg (Ne.symm hne)
      · intro hd' charged heq
        cases heq
        exact hl
      · intro _ s _ hs hb
        rw [getElem?_eq_getElem hlt] at hs
        cases hs
        rw [hst] at hb
        refine ⟨hb.reading, ?_, ?_⟩
        · change 0 ≤ _ - (hd.len : ℤ)
          omega
        have hsum := hb.sum
        have hc : (Stage.payload hd (some k)).inFlight k = hd.len := if_pos rfl
        rw [hc]
        rw [Stage.inFlight_header] at hsum
        change r.streams[k].window - (hd.len : ℤ) + r.streams[k].queued +
          r.streams[k].consumed + _ = _
        omega
    · exact finish h.allocated

theorem onSyn (hs : r.stage = .header) {id : ℕ} {r' : Receiver}
    (hr' : r.onSyn id accepted = some r') : Books r' ∧ r'.stage = .header := by
  have hf : ∀ hd charged, r.stage = .payload hd charged → hd.id ≠ id :=
    fun hd charged heq => nomatch hs.symm.trans heq
  unfold Receiver.onSyn at hr'
  simp only at hr'
  split at hr'
  · cases hr'
  split at hr'
  · cases hr'
    exact ⟨h.send _, hs⟩
  cases hr'
  cases accepted with
  | true => exact ⟨(h.insert hf).send _, hs⟩
  | false => exact ⟨(h.reject hs id).send _, hs⟩

theorem onFrame (hs : r.stage = .header) (hlen : hd.kind = tData → hd.len ≤ initialWindow)
    (hk : ¬(hd.kind ≠ tData ∧ hd.kind ≠ tWindow)) : Books (r.onFrame hd) := by
  unfold Receiver.onFrame
  split
  · split
    · exact (h.send _).endFrame hs hd
    · exact h.endFrame hs hd
  rename_i hnot
  have hda : hd.kind = tData := by
    by_contra hno
    exact hk ⟨hno, hnot⟩
  split
  · have hb : Books { r with allocated := hd.len } := ⟨hlen hda, h.valid, h.stage, h.balanced⟩
    exact hb.charge hs
  · exact h.endFrame hs hd

theorem onHeader (hs : r.stage = .header)
    (hlen : hd.kind = tData → hd.len ≤ initialWindow) : Books (r.onHeader hd accepted) := by
  have hend : Books r.finish := finish h.allocated
  unfold Receiver.onHeader
  split
  · exact hend
  split
  · split
    · exact h.send _
    · exact h
  split
  · exact hend
  split
  · exact hend
  rename_i hk
  split
  · cases hsyn : r.onSyn hd.id accepted with
    | none => exact hend
    | some r' =>
      obtain ⟨hb, hs'⟩ := h.onSyn hs hsyn
      exact hb.onFrame hs' hlen hk
  · exact h.onFrame hs hlen hk

theorem onPayload {charged : Option ℕ} {data : Bytes}
    (hst : r.stage = .payload hd charged) (hlen : data.length = hd.len) :
    Books (r.onPayload hd data) := by
  have hc := h.stage hd charged hst
  unfold Receiver.onPayload
  cases hl : r.table.lookup hd.id with
  | none =>
    have hn : charged = none := hc.symm.trans hl
    subst hn
    have hdo : Books { r with stage := .header } := by
      refine ⟨h.allocated, h.valid, nofun, ?_⟩
      intro id k s hk hs
      have hb := h.balanced id k s hk hs
      rw [hst] at hb
      exact ⟨hb.reading, hb.window, hb.sum⟩
    exact hdo.endFrame rfl hd
  | some k =>
    have hso : charged = some k := hc.symm.trans hl
    subst hso
    have hdo : Books { r with
        streams := r.streams.modify k fun s => s.push data, stage := .header } := by
      refine h.modify ?_ nofun ?_
      · intro k' hne
        rw [hst]
        exact (if_neg (Ne.symm hne)).symm
      intro _ s _ hs hb
      rw [hst] at hb
      rw [Stream.push, if_pos hb.reading]
      refine ⟨hb.reading, hb.window, ?_⟩
      have hsum := hb.sum
      have hf : (Stage.payload hd (some k)).inFlight k = hd.len := if_pos rfl
      have hq : (Stream.queued { s with queue := s.queue ++ [data] }) =
          s.queued + data.length := by
        simp [Stream.queued]
      rw [hf] at hsum
      rw [hq, Stage.inFlight_header]
      change s.window + _ + (s.consumed : ℤ) + _ = _
      omega
    exact hdo.endFrame rfl hd

theorem act {k : ℕ} {f : Stream → Stream × List Cmd}
    (hf : ∀ id s, r.table.lookup id = some k → Balanced r.stage k s →
      Balanced r.stage k (f s).1) :
    Books (r.act k f) := by
  unfold Receiver.act
  cases hs : r.streams[k]? with
  | none => exact h
  | some s =>
    simp only
    split_ifs with hr
    · rw [set_eq_modify]
      refine (h.modify (fun _ _ => rfl) h.stage fun id s' hk hs' hb => ?_).send _
      obtain rfl := Option.some.inj (hs.symm.trans hs')
      exact hf id s hk hb
    · exact h

end Books

/-- No data frame announces more than a window, no stream is opened under the id of a frame that is
being received, and every stream in the table has a reader: none is opened without a writer while
the table has room, and no reader goes while its stream is there. -/
def Orderly (r : Receiver) : Event → Prop
  | .header h _ => h.kind = tData → h.len ≤ initialWindow
  | .opens connected => r.stage.receiving ≠ some r.nextId ∧
      (connected = true ∨ maxStreams ≤ r.table.keys.length)
  | .dropped k => k ∉ r.table.values
  | _ => True

instance (r : Receiver) (e : Event) : Decidable (Orderly r e) := by
  cases e <;> unfold Orderly <;> infer_instance

variable {r : Receiver}

theorem Books.opens (h : Books r) {connected : Bool} (ho : Orderly r (.opens connected)) :
    Books (r.opens connected) := by
  obtain ⟨hf, hc⟩ := ho
  have hb : Books { r with nextId := wrappingAdd 32 r.nextId 2 } :=
    ⟨h.allocated, h.valid, h.stage, h.balanced⟩
  have ho : ∀ hd charged, r.stage = .payload hd charged → hd.id ≠ r.nextId := by
    intro hd charged hs heq
    rw [hs] at hf
    exact hf (congrArg some heq)
  unfold Receiver.opens
  simp only
  split
  · exact hb
  · rename_i hroom
    rw [hc.resolve_right hroom, if_pos rfl]
    exact (hb.insert ho).send _

theorem Books.step {e : Event} (h : Books r) (ho : Orderly r e) : Books (r.step e) := by
  cases e with
  | header hd accepted =>
    simp only [Receiver.step]
    split_ifs with hst
    · exact h.onHeader hst ho
    · exact h
  | payload data =>
    cases hst : r.stage with
    | header | done => simpa [Receiver.step, hst] using h
    | payload hd charged =>
      simp only [Receiver.step, hst]
      split_ifs with hlen
      · exact h.onPayload hst hlen
      · exact h
  | lost =>
    simp only [Receiver.step]
    split
    · exact h
    · exact Books.finish h.allocated
  | opens connected => exact h.opens ho
  | nextChunk k => exact h.act fun _ _ _ hs => hs.nextChunk
  | readRound k missing => exact h.act fun _ _ _ hs => hs.readRound missing
  | dropped k => exact h.act fun _ _ hk _ => absurd (mem_values_iff.2 ⟨_, hk⟩) ho

/-- In every orderly run, at every moment, the buffer for a payload is at most a window, and for
each stream in the table the window is not negative and makes up the initial window with the bytes
queued, those read but not granted back and those of the frame on its way to the stream. So at most
a window is queued. -/
theorem receiver_balanced (client : Bool) (events : List Event)
    (h : Meets Receiver.step Orderly (.session client) events) :
    (run Receiver.step (.session client) events).allocated ≤ initialWindow ∧
      ∀ id k s, (run Receiver.step (.session client) events).table.lookup id = some k →
        (run Receiver.step (.session client) events).streams[k]? = some s →
        0 ≤ s.window ∧ s.queued ≤ initialWindow ∧
          s.window + s.queued + s.consumed +
            (run Receiver.step (.session client) events).stage.inFlight k = initialWindow := by
  have hbo : Books (run Receiver.step (.session client) events) :=
    run_invariant_of_meets (Books.session client) (fun r e hr he => hr.step he) events h
  refine ⟨hbo.allocated, ?_⟩
  intro id k s hk hs
  have hb := hbo.balanced id k s hk hs
  exact ⟨hb.window, hb.queued_le, hb.sum⟩

/-- The peer opens a stream and sends three bytes on it, of which the reader takes two. -/
def greeting : List Event :=
  [.header (header tData fSyn 2 3) true, .payload [1, 2, 3], .readRound 0 2, .readRound 0 2]

theorem receiver_balanced_greeting :
    let r := run Receiver.step (.session true) greeting
    r.streams =
        [{ Stream.new 2 true with window := 262141, buf := [1, 2, 3], pos := 2, consumed := 3 }] ∧
      r.allocated ≤ initialWindow ∧ ∀ id k s, r.table.lookup id = some k → r.streams[k]? = some s →
        0 ≤ s.window ∧ s.queued ≤ initialWindow ∧
          s.window + s.queued + s.consumed + r.stage.inFlight k = initialWindow :=
  ⟨by decide, receiver_balanced true greeting (by decide)⟩

/-- A header alone makes the receiver allocate what it announces. And data for a stream that is
opened while it is being received is queued without being charged. -/
theorem receiver_unbalanced : initialWindow < (run Receiver.step (.session true)
        [.header (header tData 0 2 4294967295) true]).allocated ∧ (run Receiver.step (.session true)
        [.header (header tData 0 1 3) true, .opens true, .payload [1, 2, 3]]).table.lookup 1 =
        some 0 ∧ (run Receiver.step (.session true)
        [.header (header tData 0 1 3) true, .opens true, .payload [1, 2, 3]]).streams =
        [{ Stream.new 1 true with queue := [[1, 2, 3]] }] := by
  decide

end NetGet.Yamux
