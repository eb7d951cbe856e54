import Mathlib.Algebra.Ring.Nat
import Mathlib.Data.List.TakeWhile
import NetGet.Model.Yamux

/-! # What the writer sends for a stream

The frames of one stream are read as a transcript: an opening, chunks of data, perhaps a FIN, and
resets. The transcript is kept in step with the commands the stream has had since its opening. -/

namespace NetGet.Yamux

open Library List AList Writer
open Machine

/-! ## Commands -/

def Cmd.starts (id : ℕ) : Cmd → Bool
  | .opens i => i == id
  | .ack i => i == id
  | _ => false

def Cmd.bytes (id : ℕ) : Cmd → Bytes
  | .data i bytes => if i = id then bytes else []
  | _ => []

def Cmd.delta (id : ℕ) : Cmd → ℕ
  | .peerWindow i delta => if i = id then delta else 0
  | _ => 0

def life (id : ℕ) (cmds : List Cmd) : List Cmd := (cmds.dropWhile fun c => !c.starts id).tail

def sentBytes (id : ℕ) (cmds : List Cmd) : Bytes :=
  (cmds.takeWhile fun c => c ≠ .fin id).flatMap (Cmd.bytes id)

def granted (id : ℕ) (cmds : List Cmd) : ℕ := (cmds.map (Cmd.delta id)).sum

variable {cmds : List Cmd} {id : ℕ} {f : Frame} {t : Transcript} {w : Writer} {emitted : List Frame}
  {streams : Table ℕ Outbound}

theorem dropWhile_of_unstarted (h : ∀ c ∈ cmds, c.starts id = false) :
    (cmds.dropWhile fun c => !c.starts id) = [] := by
  rw [dropWhile_eq_nil_iff]
  intro c hc
  simp [h c hc]

theorem life_eq_nil (h : ∀ c ∈ cmds, c.starts id = false) : life id cmds = [] := by
  rw [life, dropWhile_of_unstarted h, tail_nil]

theorem life_concat_of_started (h : ∃ c ∈ cmds, c.starts id = true) (c : Cmd) :
    life id (cmds ++ [c]) = life id cmds ++ [c] := by
  have hne : (cmds.dropWhile fun c => !c.starts id) ≠ [] := by
    rw [Ne, dropWhile_eq_nil_iff]
    obtain ⟨c', hc', hs⟩ := h
    exact fun hall => absurd (hall c' hc') (by simp [hs])
  rw [life, dropWhile_append, if_neg (by simpa using hne), tail_append_of_ne_nil hne, life]

theorem life_concat_of_unstarted (h : ∀ c ∈ cmds, c.starts id = false) (c : Cmd) :
    life id (cmds ++ [c]) = [] := by
  cases hc : c.starts id <;> simp [life, dropWhile_append, dropWhile_of_unstarted h, hc]

theorem sentBytes_concat (id : ℕ) (cmds : List Cmd) (c : Cmd) : sentBytes id (cmds ++ [c]) =
      if .fin id ∈ cmds then sentBytes id cmds else sentBytes id cmds ++ c.bytes id := by
  have hall : (cmds.takeWhile fun c => c ≠ .fin id) = cmds ↔ .fin id ∉ cmds := by
    rw [takeWhile_eq_self_iff]
    simpa using forall_mem_ne'
  rw [sentBytes, takeWhile_append]
  by_cases hfin : .fin id ∈ cmds
  · rw [if_pos hfin, if_neg fun h => hall.1 (( takeWhile_prefix _).eq_of_length h) hfin, sentBytes]
  · rw [if_neg hfin, if_pos (congrArg length (hall.2 hfin)), flatMap_append, sentBytes,
      hall.2 hfin]
    by_cases hc : c = .fin id <;> simp [hc, Cmd.bytes]

theorem granted_concat (id : ℕ) (cmds : List Cmd) (c : Cmd) :
    granted id (cmds ++ [c]) = granted id cmds + c.delta id := by
  simp [granted]

/-! ## Frames -/

/-- The frame is one of the stream's, and no window grant. -/
def Frame.concerns (id : ℕ) (f : Frame) : Bool :=
  f.header.id == id &&
    (f.header.kind == tData || f.header.kind == tWindow && f.header.flags != 0)

def streamFrames (id : ℕ) (frames : List Frame) : List Frame := frames.filter (Frame.concerns id)

/-- The frames of a stream in order: resets from before it was opened, the opening, chunks of
data, the FIN, and resets after that. -/
structure Transcript where
  refused : ℕ
  opening : Option Frame
  chunks : List Bytes
  finished : Bool
  resets : ℕ

namespace Transcript

def frames (id : ℕ) (t : Transcript) : List Frame :=
  List.replicate t.refused (.rst id) ++ t.opening.toList ++ t.chunks.map (.chunk id) ++
    (if t.finished then [.fin id] else []) ++ List.replicate t.resets (.rst id)

def data (t : Transcript) : Bytes := t.chunks.flatten

end Transcript

/-- What the loop sends was pending and is taken off the window. It stops when nothing is pending
or the window is used up. -/
theorem Outbound.drain_spec (id : ℕ) (pending : List Bytes) :
    ∀ {window window' : ℕ} {pending' : List Bytes} {out : List Frame},
      drain id window pending = (window', pending', out) →
      ∃ chunks : List Bytes, out = chunks.map (.chunk id) ∧
        chunks.flatten ++ pending'.flatten = pending.flatten ∧
        chunks.flatten.length + window' = window ∧ (pending' = [] ∨ window' = 0) := by
  induction pending with
  | nil =>
    intro window window' pending' out h
    cases h
    exact ⟨[], rfl, rfl, Nat.zero_add _, .inl rfl⟩
  | cons front pending ih =>
    intro window window' pending' out h
    rw [drain] at h
    by_cases hz : window = 0
    · rw [if_pos hz] at h
      cases h
      exact ⟨[], rfl, rfl, Nat.zero_add _, .inr hz⟩
    rw [if_neg hz] at h
    by_cases hall : front.drop (min front.length window) = []
    · have hf : front.length ≤ window := by
        have := drop_eq_nil_iff.1 hall
        omega
      rw [Nat.min_eq_left hf] at h
      simp only [drop_length, if_true, take_length] at h
      cases hr : drain id (window - front.length) pending with
      | mk rest more =>
        obtain ⟨kept, frames⟩ := more
        rw [hr] at h
        cases h
        obtain ⟨chunks, hout, hb, hw, hi⟩ := ih hr
        refine ⟨front :: chunks, by rw [hout, map_cons], ?_, ?_, hi⟩
        · rw [flatten_cons, append_assoc, hb, flatten_cons]
        · rw [flatten_cons, length_append]
          omega
    · simp only [hall, if_false] at h
      cases h
      refine ⟨[front.take (min front.length window)], rfl, ?_, ?_, .inr ?_⟩
      · simp [← append_assoc]
      · simp
      · have : ¬front.length ≤ window := by
          intro hle
          exact hall (drop_eq_nil_iff.2 (by omega))
        omega

/-- The frames of a flush: chunks, and the FIN. -/
def written (id : ℕ) (chunks : List Bytes) (fin : Bool) : List Frame :=
  chunks.map (.chunk id) ++ if fin then [.fin id] else []

theorem Outbound.flush_spec (id : ℕ) (s : Outbound) :
    ∃ (chunks pending : List Bytes) (window : ℕ),
      chunks.flatten ++ pending.flatten = s.pending.flatten ∧
      chunks.flatten.length + window = s.window ∧ (pending = [] ∨ window = 0) ∧
      s.flush id =
        (if s.fin && pending.isEmpty then none
          else some { s with window := window, pending := pending },
          written id chunks (s.fin && pending.isEmpty)) := by
  cases hd : Outbound.drain id s.window s.pending with
  | mk window more =>
    obtain ⟨pending, out⟩ := more
    obtain ⟨chunks, hout, hb, hw, hi⟩ := Outbound.drain_spec id s.pending hd
    refine ⟨chunks, pending, window, hb, hw, hi, ?_⟩
    simp only [Outbound.flush, hd, hout]
    cases s.fin && pending.isEmpty <;> simp [written]

/-! ## The law of a stream -/

/-- The writer still has the stream, and what has been sent and what is pending is what it was
given. This holds after a command, before what can be sent is sent. -/
structure Ready (id : ℕ) (cmds : List Cmd) (t : Transcript) (s : Outbound) : Prop where
  opened : t.opening.isSome = true
  unfinished : t.finished = false
  unreset : t.resets = 0
  bytes : t.data ++ s.pending.flatten = sentBytes id cmds
  fin : s.fin = true ↔ .fin id ∈ cmds
  window : t.data.length + s.window ≤ initialWindow + granted id cmds

/-- Something is pending only while the window is used up. A FIN that was asked for waits. -/
structure Live (id : ℕ) (cmds : List Cmd) (t : Transcript) (s : Outbound) : Prop
    extends Ready id cmds t s where
  idle : s.pending = [] ∨ s.window = 0
  waiting : s.fin = true → s.pending ≠ []

/-- What has been sent for a stream that has had the commands `cmds`. -/
structure Told (id : ℕ) (cmds : List Cmd) (emitted : List Frame) (t : Transcript) : Prop where
  frames : streamFrames id emitted = t.frames id
  opening : ∀ f ∈ t.opening, f = .syn id ∨ f = .ack id
  unopened : t.opening = none → t.chunks = [] ∧ t.finished = false ∧ t.resets = 0
  bytes : t.data <+: sentBytes id cmds
  window : t.data.length ≤ initialWindow + granted id cmds
  finished : t.finished = true → .fin id ∈ cmds ∧ t.data = sentBytes id cmds
  reset : 0 < t.resets → .rst id ∈ cmds

/-- The state of the writer after the commands `cmds`, as far as the stream is concerned. While the
connection is up, a stream that was started is either still there, or it has been finished or
reset. -/
structure Sends (id : ℕ) (cmds : List Cmd) (w : Writer) (t : Transcript) : Prop where
  told : Told id (life id cmds) w.emitted t
  started : w.closed = false → (t.opening.isSome = true ↔ ∃ c ∈ cmds, c.starts id = true)
  live : w.closed = false → ∀ s, w.streams.lookup id = some s → Live id (life id cmds) t s
  gone : w.closed = false → w.streams.lookup id = none → t.opening.isSome = true →
    t.finished = true ∨ 0 < t.resets

theorem Told.sends (h : Told id (life id cmds) w.emitted t) (hd : w.closed ≠ false) :
    Sends id cmds w t where
  told := h
  started hup := absurd hup hd
  live hup := absurd hup hd
  gone hup := absurd hup hd

theorem streamFrames_bare (id len : ℕ) {flags : ℕ} (h : flags ≠ 0) :
    streamFrames id [.bare (header tWindow flags id len)] =
      [.bare (header tWindow flags id len)] := by
  simp [streamFrames, Frame.concerns, Frame.bare, header, tWindow, h]

theorem streamFrames_append (id : ℕ) (xs ys : List Frame) :
    streamFrames id (xs ++ ys) = streamFrames id xs ++ streamFrames id ys :=
  filter_append xs ys

theorem Told.concat (h : Told id cmds emitted t) (c : Cmd) : Told id (cmds ++ [c]) emitted t where
  frames := h.frames
  opening := h.opening
  unopened := h.unopened
  bytes := by
    rw [sentBytes_concat]
    split
    · exact h.bytes
    · exact h.bytes.trans (prefix_append _ _)
  window := by
    have := h.window
    rw [granted_concat]
    omega
  finished hf := by
    obtain ⟨hfin, hd⟩ := h.finished hf
    exact ⟨mem_append_left _ hfin, by rw [sentBytes_concat, if_pos hfin, hd]⟩
  reset hr := mem_append_left _ (h.reset hr)

theorem life_concat (id : ℕ) (cmds : List Cmd) (c : Cmd) :
    life id (cmds ++ [c]) = life id cmds ++ [c] ∨ life id (cmds ++ [c]) = life id cmds := by
  by_cases h : ∃ c ∈ cmds, c.starts id = true
  · exact .inl (life_concat_of_started h c)
  · have hno : ∀ c ∈ cmds, c.starts id = false := by simpa using h
    exact .inr (by rw [life_concat_of_unstarted hno, life_eq_nil hno])

theorem Told.life_concat (h : Told id (life id cmds) emitted t) (c : Cmd) :
    Told id (life id (cmds ++ [c])) emitted t := by
  rcases Yamux.life_concat id cmds c with hg | hs
  · rw [hg]
    exact h.concat c
  · rwa [hs]

theorem Told.quiet {out : List Frame} (h : Told id cmds emitted t)
    (hout : ∀ f ∈ out, f.concerns id = false) : Told id cmds (emitted ++ out) t := by
  have hn : streamFrames id out = [] := by
    rw [streamFrames, filter_eq_nil_iff]
    intro f hf
    simp [hout f hf]
  exact { h with frames := by rw [streamFrames_append, hn, append_nil, h.frames] }

def Cmd.target : Cmd → Option ℕ
  | .opens id => some id
  | .ack id => some id
  | .data id _ => some id
  | .fin id => some id
  | .rst id => some id
  | .grant _ _ => none
  | .peerWindow id _ => some id
  | .pong _ => none
  | .goAway _ => none

/-- While the loop runs, a round does what its command says. If it goes on after that, all frames
have been written. -/
theorem Writer.step_of_open (hopen : w.closed = false) (c : Cmd) (result : Option ℕ) :
    ∃ n b, w.step (c, result) =
      { streams := (process w.streams c).1
        emitted := w.emitted ++ (process w.streams c).2.take n
        closed := b } ∧ (b = false → (process w.streams c).2.length ≤ n) := by
  cases result with
  | none =>
    refine ⟨(process w.streams c).2.length, (w.step (c, none)).closed, ?_, fun _ => le_rfl⟩
    simp [step, hopen]
  | some n =>
    refine ⟨n, !(process w.streams c).2.isEmpty, ?_, ?_⟩
    · simp [step, hopen]
    · intro he
      have hnil : (process w.streams c).2 = [] := by simpa using he
      simp [hnil]

theorem concerns_of_ne (h : f.header.id ≠ id) : f.concerns id = false := by
  simp [Frame.concerns, h]

theorem Writer.flush_eq {s : Outbound} (h : streams.lookup id = some s) : flush streams id =
      (match (s.flush id).1 with
        | none => streams.erase id
        | some s => streams.insert id s, (s.flush id).2) := by
  simp only [flush, h]
  cases s.flush id with
  | mk s' out =>
    cases s' <;> rfl

theorem Writer.flush_other (streams : Table ℕ Outbound) {i : ℕ} (hne : i ≠ id) :
    (flush streams i).1.lookup id = streams.lookup id ∧
      ∀ f ∈ (flush streams i).2, f.concerns id = false := by
  cases hl : streams.lookup i with
  | none =>
    unfold flush
    rw [hl]
    exact ⟨rfl, nofun⟩
  | some s =>
    obtain ⟨chunks, pending, window, -, -, -, hfl⟩ := s.flush_spec i
    rw [flush_eq hl]
    constructor
    · cases (s.flush i).1 with
      | none => exact lookup_erase_ne (Ne.symm hne)
      | some s' => exact lookup_insert_ne (Ne.symm hne)
    · intro f hf
      rw [hfl] at hf
      refine concerns_of_ne ?_
      rcases mem_append.1 hf with hf | hf
      · obtain ⟨bytes, -, rfl⟩ := mem_map.1 hf
        exact hne
      · split at hf
        · cases mem_singleton.1 hf
          exact hne
        · cases hf

theorem Writer.process_other (streams : Table ℕ Outbound) {c : Cmd} (hne : c.target ≠ some id) :
    (process streams c).1.lookup id = streams.lookup id ∧
      ∀ f ∈ (process streams c).2, f.concerns id = false := by
  cases c with
  | opens i | ack i =>
    have hi : i ≠ id := fun h => hne (congrArg some h)
    exact ⟨lookup_insert_ne (Ne.symm hi), forall_mem_singleton.2 (concerns_of_ne hi)⟩
  | data i | fin i | peerWindow i =>
    have hi : i ≠ id := fun h => hne (congrArg some h)
    obtain ⟨hl, hfr⟩ := flush_other (streams.modify i _) hi
    rw [lookup_modify, if_neg (Ne.symm hi)] at hl
    exact ⟨hl, hfr⟩
  | rst i =>
    have hi : i ≠ id := fun h => hne (congrArg some h)
    exact ⟨lookup_erase_ne (Ne.symm hi), forall_mem_singleton.2 (concerns_of_ne hi)⟩
  | grant | pong | goAway =>
    exact ⟨rfl, forall_mem_singleton.2 (by simp [Frame.concerns, Frame.grant, Frame.bare, header,
      tPing, tGoAway, tWindow, tData])⟩

/-! ## One round of the loop -/

section Round

variable {id : ℕ} {cmds : List Cmd} {w : Writer} {t : Transcript} {c : Cmd} {s : Outbound}

theorem Cmd.starts_of_target_ne (h : c.target ≠ some id) : c.starts id = false := by
  cases c with
  | opens | ack => exact beq_eq_false_iff_ne.2 fun heq => h (congrArg some heq)
  | data | fin | rst | grant | peerWindow | pong | goAway => rfl

theorem Live.concat_other (h : Live id cmds t s) (hne : c.target ≠ some id) :
    Live id (cmds ++ [c]) t s := by
  have hb : c.bytes id = [] := by
    cases c with
    | data i bytes => exact if_neg fun heq => hne (congrArg some heq)
    | _ => rfl
  have hd : c.delta id = 0 := by
    cases c with
    | peerWindow i delta => exact if_neg fun heq => hne (congrArg some heq)
    | _ => rfl
  have hfin : c ≠ .fin id := by
    intro heq
    subst heq
    exact hne rfl
  have hs : sentBytes id (cmds ++ [c]) = sentBytes id cmds := by
    rw [sentBytes_concat, hb, append_nil, ite_self]
  exact { h with
    bytes := h.bytes.trans hs.symm
    fin := by simpa [hfin.symm] using h.fin
    window := by rw [granted_concat, hd]; exact h.window }

theorem Sends.started_concat (h : Sends id cmds w t) (hopen : w.closed = false)
    (hc : c.starts id = false) :
    t.opening.isSome = true ↔ ∃ c' ∈ cmds ++ [c], c'.starts id = true := by
  rw [h.started hopen]
  simp [or_and_right, exists_or, hc]

theorem Sends.other (h : Sends id cmds w t) (hopen : w.closed = false) (hne : c.target ≠ some id)
    (result : Option ℕ) : Sends id (cmds ++ [c]) (w.step (c, result)) t := by
  obtain ⟨n, b, hst, -⟩ := step_of_open hopen c result
  obtain ⟨hl, hfr⟩ := process_other w.streams hne
  rw [hst]
  refine ⟨(h.told.life_concat c).quiet fun f hf => hfr f (mem_of_mem_take hf),
    fun _ => h.started_concat hopen (Cmd.starts_of_target_ne hne), ?_, ?_⟩
  · intro _ s hs
    have hli := h.live hopen s (hl.symm.trans hs)
    rw [life_concat_of_started ((h.started hopen).1 hli.opened)]
    exact hli.concat_other hne
  · intro _ hn
    exact h.gone hopen (hl.symm.trans hn)

theorem Sends.unstarted (h : Sends id cmds w t) (hopen : w.closed = false)
    (hno : ∀ c ∈ cmds, c.starts id = false) :
    t.opening = none ∧ t.chunks = [] ∧ t.finished = false ∧ t.resets = 0 := by
  have hn : t.opening = none := by
    cases ho : t.opening with
    | none => rfl
    | some f =>
      obtain ⟨c, hc, hs⟩ := (h.started hopen).1 (by rw [ho]; rfl)
      rw [hno c hc] at hs
      cases hs
  exact ⟨hn, h.told.unopened hn⟩

theorem Sends.start (h : Sends id cmds w t) (hopen : w.closed = false)
    (hno : ∀ c ∈ cmds, c.starts id = false) (hc : c.starts id = true) (f : Frame)
    (hf : f = .syn id ∨ f = .ack id)
    (hprocess : process w.streams c = (w.streams.insert id .fresh, [f])) (result : Option ℕ) :
    ∃ t', Sends id (cmds ++ [c]) (w.step (c, result)) t' := by
  obtain ⟨n, b, hst, hall⟩ := step_of_open hopen c result
  obtain ⟨ho, hch, hfi, hr⟩ := h.unstarted hopen hno
  have hl : life id (cmds ++ [c]) = [] := life_concat_of_unstarted hno c
  have ht := h.told
  rw [life_eq_nil hno] at ht
  rw [hprocess] at hst hall
  rw [hst]
  cases n with
  | zero =>
    refine ⟨t, Told.sends ?_ fun hb => absurd (hall hb) (by simp)⟩
    rw [hl, take_zero, append_nil]
    exact ht
  | succ n =>
    have hco : streamFrames id [f] = [f] := by
      obtain rfl | rfl := hf <;> exact streamFrames_bare id 0 (by decide)
    refine ⟨{ t with opening := some f }, ?_, ?_, ?_, ?_⟩
    · rw [hl]
      refine { ht with frames := ?_, opening := ?_, unopened := nofun }
      · change streamFrames id (w.emitted ++ [f].take (n + 1)) = _
        rw [take_of_length_le (by simp), streamFrames_append, ht.frames, hco]
        simp [Transcript.frames, ho, hch, hfi, hr]
      · intro g hg
        cases hg
        exact hf
    · intro _
      exact ⟨fun _ => ⟨c, by simp, hc⟩, fun _ => rfl⟩
    · intro _ s hs
      rw [lookup_insert] at hs
      cases hs
      rw [hl]
      refine ⟨⟨rfl, hfi, hr, ?_, ?_, ?_⟩, .inl rfl, nofun⟩
      · simp [Transcript.data, hch, Outbound.fresh, sentBytes]
      · simp [Outbound.fresh]
      · simp [Transcript.data, hch, Outbound.fresh, granted]
    · intro _ hn
      rw [lookup_insert] at hn
      cases hn

theorem concerns_rst (id : ℕ) : streamFrames id [.rst id] = [.rst id] :=
  streamFrames_bare id 0 (by decide)

theorem Sends.rst (h : Sends id cmds w t) (hopen : w.closed = false) (result : Option ℕ) :
    ∃ t', Sends id (cmds ++ [.rst id]) (w.step (.rst id, result)) t' := by
  obtain ⟨n, b, hstep, hall⟩ := step_of_open hopen (.rst id) result
  have ht := h.told.life_concat (.rst id)
  have hst := h.started_concat (c := .rst id) hopen rfl
  have hg : ∀ s, (w.streams.erase id).lookup id ≠ some s := by simp [lookup_erase]
  simp only [process] at hstep hall
  rw [hstep]
  cases n with
  | zero =>
    refine ⟨t, Told.sends ?_ fun hb => absurd (hall hb) (by simp)⟩
    rw [take_zero, append_nil]
    exact ht
  | succ n =>
    have hta : [Frame.rst id].take (n + 1) = [.rst id] := take_of_length_le (by simp)
    rw [hta]
    by_cases hyes : ∃ c ∈ cmds, c.starts id = true
    · have ho := (h.started hopen).2 hyes
      refine ⟨{ t with resets := t.resets + 1 }, ?_, fun _ => hst, fun _ s hs => absurd hs (hg s),
        fun _ _ _ => .inr (Nat.succ_pos _)⟩
      refine { ht with frames := ?_, unopened := ?_, reset := ?_ }
      · rw [streamFrames_append, ht.frames, concerns_rst]
        simp [Transcript.frames, replicate_succ']
      · intro hn
        rw [hn] at ho
        cases ho
      · intro _
        rw [life_concat_of_started hyes]
        exact mem_append_right _ (mem_singleton_self _)
    · have hno : ∀ c ∈ cmds, c.starts id = false := by simpa using hyes
      obtain ⟨hop, hch, hf, hr⟩ := h.unstarted hopen hno
      refine ⟨{ t with refused := t.refused + 1 }, ?_, fun _ => hst,
        fun _ s hs => absurd hs (hg s), ?_⟩
      · refine { ht with frames := ?_ }
        rw [streamFrames_append, ht.frames, concerns_rst]
        simp [Transcript.frames, hop, hch, hf, hr, replicate_succ']
      · intro _ _ ho
        rw [hop] at ho
        cases ho

/-- The transcript with the first `n` of the frames that are written. -/
def Transcript.extend (t : Transcript) (chunks : List Bytes) (fin : Bool) (n : ℕ) : Transcript :=
  { t with chunks := t.chunks ++ chunks.take n, finished := fin && decide (chunks.length < n) }

theorem streamFrames_chunks (id : ℕ) (chunks : List Bytes) :
    streamFrames id (chunks.map (.chunk id)) = chunks.map (.chunk id) := by
  rw [streamFrames, filter_eq_self]
  intro f hf
  obtain ⟨bytes, -, rfl⟩ := mem_map.1 hf
  simp [Frame.concerns, Frame.chunk, header]

section Flush

variable {s : Outbound} {chunks pending : List Bytes} {window : ℕ}

theorem Ready.told {fin : Bool} (h : Ready id cmds t s)
    (ht : Told id cmds emitted t) (hb : chunks.flatten ++ pending.flatten = s.pending.flatten)
    (hw : chunks.flatten.length + window = s.window)
    (hfin : fin = true → s.fin = true ∧ pending = []) (n : ℕ) :
    Told id cmds (emitted ++ (written id chunks fin).take n) (t.extend chunks fin n) := by
  have hd : (t.extend chunks fin n).data = t.data ++ (chunks.take n).flatten := by
    simp [Transcript.data, Transcript.extend]
  have hs : chunks.flatten = (chunks.take n).flatten ++ (chunks.drop n).flatten := by
    rw [← flatten_append, take_append_drop]
  refine ⟨?_, ht.opening, ?_, ?_, ?_, ?_, ht.reset⟩
  · have hbare : streamFrames id [.fin id] = [.fin id] := streamFrames_bare id 0 (by decide)
    have htail : streamFrames id (take (n - chunks.length) (if fin then [.fin id] else [])) =
        if (fin && decide (chunks.length < n)) = true then [.fin id] else [] := by
      cases fin with
      | false => simp [streamFrames]
      | true =>
        by_cases hlt : chunks.length < n
        · rw [take_of_length_le (by simp; omega)]
          simp [hlt, hbare]
        · rw [show n - chunks.length = 0 by omega]
          simp [hlt, streamFrames]
    rw [streamFrames_append, ht.frames, written, take_append, streamFrames_append, ← map_take,
      streamFrames_chunks, length_map, htail]
    simp [Transcript.frames, Transcript.extend, h.unfinished, h.unreset]
  · intro hn
    have ho := h.opened
    rw [show t.opening = none from hn] at ho
    cases ho
  · rw [hd, ← h.bytes, ← hb, hs, append_assoc]
    exact ⟨_, append_assoc _ _ _⟩
  · have hr := h.window
    have hle := congrArg length hs
    rw [length_append] at hle
    rw [hd, length_append]
    omega
  · intro hf
    obtain ⟨hyes, hlt⟩ := Bool.and_eq_true_iff.1 hf
    obtain ⟨hsf, hp⟩ := hfin hyes
    refine ⟨h.fin.1 hsf, ?_⟩
    rw [hd, take_of_length_le (Nat.le_of_lt (of_decide_eq_true hlt)), ← h.bytes, ← hb,
      hp, flatten_nil, append_nil]

theorem Ready.live {n : ℕ} (h : Ready id cmds t s)
    (hb : chunks.flatten ++ pending.flatten = s.pending.flatten)
    (hw : chunks.flatten.length + window = s.window) (hi : pending = [] ∨ window = 0)
    (hwa : (s.fin && pending.isEmpty) = false) (hall : chunks.length ≤ n) :
    Live id cmds (t.extend chunks false n) { s with window := window, pending := pending } := by
  have hd : (t.extend chunks false n).data = t.data ++ chunks.flatten := by
    simp [Transcript.data, Transcript.extend, take_of_length_le hall]
  refine ⟨⟨h.opened, rfl, h.unreset, ?_, h.fin, ?_⟩, hi, ?_⟩
  · rw [hd, append_assoc, hb, h.bytes]
  · have hr := h.window
    rw [hd, length_append]
    change t.data.length + chunks.flatten.length + window ≤ _
    omega
  · intro hs hnil
    rw [show s.fin = true from hs, show pending = [] from hnil] at hwa
    cases hwa

end Flush

section Flushed

variable {c : Cmd} {f : Outbound → Outbound} (h : Sends id cmds w t) (hopen : w.closed = false)
  (hc : c.starts id = false)
  (hprocess : process w.streams c = flush (w.streams.modify id f) id)

include h hopen hc hprocess

theorem Sends.flushed_missing (hl : w.streams.lookup id = none) (result : Option ℕ) :
    Sends id (cmds ++ [c]) (w.step (c, result)) t := by
  obtain ⟨n, b, hst, -⟩ := step_of_open hopen c result
  have hm : (w.streams.modify id f).lookup id = none := by
    rw [lookup_modify, if_pos rfl, hl]
    rfl
  have hf : flush (w.streams.modify id f) id = (w.streams.modify id f, []) := by
    unfold flush
    rw [hm]
  rw [hprocess, hf] at hst
  rw [hst]
  refine ⟨?_, fun _ => h.started_concat hopen hc, ?_, fun _ _ => h.gone hopen hl⟩
  · rw [take_nil, append_nil]
    exact h.told.life_concat c
  · intro _ s hs
    rw [hm] at hs
    cases hs

/-- A command after which the stream is flushed, with the change it makes to the stream. -/
theorem Sends.flushed
    (hre : ∀ s, Live id (life id cmds) t s → Ready id (life id cmds ++ [c]) t (f s))
    (result : Option ℕ) : ∃ t', Sends id (cmds ++ [c]) (w.step (c, result)) t' := by
  cases hl : w.streams.lookup id with
  | none => exact ⟨t, h.flushed_missing hopen hc hprocess hl result⟩
  | some s =>
    obtain ⟨n, b, hs, hall⟩ := step_of_open hopen c result
    rw [hprocess] at hs hall
    rw [hs]
    have hli := h.live hopen s hl
    have hyes := (h.started hopen).1 hli.opened
    have hlife : life id (cmds ++ [c]) = life id cmds ++ [c] := life_concat_of_started hyes c
    have ht : (w.streams.modify id f).lookup id = some (f s) := by
      rw [lookup_modify, if_pos rfl, hl]
      rfl
    obtain ⟨chunks, pending, window, hby, hw, hi, hf⟩ := (f s).flush_spec id
    have hr := hre s hli
    have hto := h.told.concat c
    rw [flush_eq ht, hf] at hall ⊢
    refine ⟨t.extend chunks ((f s).fin && pending.isEmpty) n, ?_,
      fun _ => h.started_concat hopen hc, ?_, ?_⟩
    · rw [hlife]
      exact hr.told hto hby hw (fun hfin => by simpa using hfin) n
    · intro hb s' hs'
      cases hfin : (f s).fin && pending.isEmpty with
      | true => simp [hfin] at hs'
      | false =>
        simp only [hfin, Bool.false_eq_true, if_false, lookup_insert] at hs'
        cases hs'
        have hn := hall hb
        rw [hfin] at hn
        rw [hlife]
        exact hr.live hby hw hi hfin (by simpa [written] using hn)
    · intro hb hno _
      cases hfin : (f s).fin && pending.isEmpty with
      | false => simp [hfin] at hno
      | true =>
        have hn := hall hb
        rw [hfin] at hn
        have hlt : chunks.length + 1 ≤ n := by simpa [written] using hn
        exact .inl (by simp [Transcript.extend, Nat.lt_of_succ_le hlt])

end Flushed

theorem Live.ready_data (h : Live id cmds t s) (bytes : Bytes) :
    Ready id (cmds ++ [.data id bytes]) t
      (if s.fin then s else { s with pending := s.pending ++ [bytes] }) := by
  have hfin : (Cmd.fin id ∈ cmds ++ [.data id bytes]) ↔ .fin id ∈ cmds := by simp
  have hg : granted id (cmds ++ [.data id bytes]) = granted id cmds := granted_concat id cmds _
  cases hs : s.fin with
  | true =>
    have hmem := h.fin.1 hs
    refine ⟨h.opened, h.unfinished, h.unreset, ?_, ?_, hg ▸ h.window⟩
    · rw [sentBytes_concat, if_pos hmem]
      exact h.bytes
    · rw [hfin]
      exact h.fin
  | false =>
    have hmem : ¬Cmd.fin id ∈ cmds := by
      rw [← h.fin, hs]
      exact Bool.false_ne_true
    refine ⟨h.opened, h.unfinished, h.unreset, ?_, ?_, hg ▸ h.window⟩
    · rw [sentBytes_concat, if_neg hmem, ← h.bytes]
      simp [Cmd.bytes]
    · rw [hfin, ← h.fin, hs]
      rfl

theorem Live.ready_fin (h : Live id cmds t s) :
    Ready id (cmds ++ [.fin id]) t { s with fin := true } := by
  have hg : granted id (cmds ++ [.fin id]) = granted id cmds := granted_concat id cmds _
  refine ⟨h.opened, h.unfinished, h.unreset, ?_, by simp, hg ▸ h.window⟩
  rw [sentBytes_concat, show (Cmd.fin id).bytes id = [] from rfl, append_nil, ite_self]
  exact h.bytes

theorem Live.ready_peerWindow (h : Live id cmds t s) (delta : ℕ) :
    Ready id (cmds ++ [.peerWindow id delta]) t
      { s with window := saturatingAdd 32 s.window delta } := by
  refine ⟨h.opened, h.unfinished, h.unreset, ?_, ?_, ?_⟩
  · rw [sentBytes_concat, show (Cmd.peerWindow id delta).bytes id = [] from rfl, append_nil,
      ite_self]
    exact h.bytes
  · simpa using h.fin
  · have hw := h.window
    have hd : (Cmd.peerWindow id delta).delta id = delta := if_pos rfl
    rw [granted_concat, hd]
    change t.data.length + min (s.window + delta) (2 ^ 32 - 1) ≤ _
    omega

theorem Sends.closed (h : Sends id cmds w t) (hcl : w.closed = true) (result : Option ℕ) :
    Sends id (cmds ++ [c]) (w.step (c, result)) t := by
  have hs : w.step (c, result) = w := by simp [step, hcl]
  rw [hs]
  exact (h.told.life_concat c).sends (by simp [hcl])

theorem Sends.step (h : Sends id cmds w t)
    (ho : c.starts id = true → ∀ c ∈ cmds, c.starts id = false) (result : Option ℕ) :
    ∃ t', Sends id (cmds ++ [c]) (w.step (c, result)) t' := by
  cases hopen : w.closed with
  | true => exact ⟨t, h.closed hopen result⟩
  | false =>
    by_cases ht : c.target = some id
    · cases c with
      | opens i =>
        cases ht
        have hst : (Cmd.opens id).starts id = true := beq_self_eq_true id
        exact h.start hopen (ho hst) hst _ (.inl rfl) rfl result
      | ack i =>
        cases ht
        have hst : (Cmd.ack id).starts id = true := beq_self_eq_true id
        exact h.start hopen (ho hst) hst _ (.inr rfl) rfl result
      | data i bytes =>
        cases ht
        exact h.flushed hopen rfl rfl (fun s hs => hs.ready_data bytes) result
      | fin i =>
        cases ht
        exact h.flushed hopen rfl rfl (fun s hs => hs.ready_fin) result
      | rst i =>
        cases ht
        exact h.rst hopen result
      | grant | pong | goAway => cases ht
      | peerWindow i delta =>
        cases ht
        exact h.flushed hopen rfl rfl (fun s hs => hs.ready_peerWindow delta) result
    · exact ⟨t, h.other hopen ht result⟩

end Round

/-- In every run of the writer in which the stream is started at most once, its frames make up a
transcript: only resets before it is opened, then chunks that are a prefix of the data given before
its first Fin and within the windows granted, then the FIN when all of it is out, and only resets
after that. While the connection is up, data is pending only when the window is used up, and a FIN
waits only for that. -/
theorem sender_transcript (id : ℕ) (rounds : List (Cmd × Option ℕ))
    (honce : ((rounds.map Prod.fst).filter (Cmd.starts id)).length ≤ 1) :
    ∃ t, Sends id (rounds.map Prod.fst) (run Writer.step .start rounds) t := by
  induction rounds using reverseRecOn with
  | nil =>
    exact ⟨⟨0, none, [], false, 0⟩,
      { told := ⟨rfl, nofun, fun _ => ⟨rfl, rfl, rfl⟩, nil_prefix, Nat.zero_le _, nofun,
          fun h => absurd h (lt_irrefl 0)⟩
        started _ := ⟨nofun, fun ⟨_, hc, _⟩ => nomatch hc⟩
        live _ _ hs := nomatch hs
        gone _ _ h := nomatch h }⟩
  | append_singleton rounds round ih =>
    rw [map_append, filter_append, length_append] at honce
    obtain ⟨t, ht⟩ := ih (by omega)
    rw [run_concat, map_append]
    refine ht.step ?_ round.2
    intro hs
    have hone : ([round].map Prod.fst).filter (Cmd.starts id) = [round.1] := by simp [hs]
    have hn : (rounds.map Prod.fst).filter (Cmd.starts id) = [] := by
      rw [hone, length_singleton] at honce
      exact eq_nil_of_length_eq_zero (by omega)
    simpa [filter_eq_nil_iff] using hn

theorem sender_transcript_half_closed :
    ([Cmd.opens 1, .data 1 [1, 2, 3], .fin 1].filter (Cmd.starts 1)).length ≤ 1 ∧
      ∃ t, Sends 1 [.opens 1, .data 1 [1, 2, 3], .fin 1] (run Writer.step .start
          [(.opens 1, none), (.data 1 [1, 2, 3], none), (.fin 1, none)]) t :=
  ⟨by decide, sender_transcript 1 [(.opens 1, none), (.data 1 [1, 2, 3], none), (.fin 1, none)]
    (by decide)⟩

/-- A stream can be reset after its FIN, and then the reset is written. Data that comes before the
stream is opened is lost, and what comes later is no prefix of all the data. -/
theorem reset_after_fin : (([Cmd.opens 1, .fin 1, .rst 1].filter (Cmd.starts 1)).length ≤ 1 ∧
      streamFrames 1 (run Writer.step .start
        [(.opens 1, none), (.fin 1, none), (.rst 1, none)]).emitted = [.syn 1, .fin 1, .rst 1]) ∧
      ([Cmd.data 1 [7], .opens 1, .data 1 [8]].filter (Cmd.starts 1)).length ≤ 1 ∧
      streamFrames 1 (run Writer.step .start
        [(.data 1 [7], none), (.opens 1, none), (.data 1 [8], none)]).emitted =
        [.syn 1, .chunk 1 [8]] ∧ ¬[8] <+: sentBytes 1 [.data 1 [7], .opens 1, .data 1 [8]] := by
  decide

end NetGet.Yamux
