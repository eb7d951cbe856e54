import Mathlib.Data.List.Infix
import NetGet.Model.Netconf

/-! # Frames are read back whatever the cut -/

namespace NetGet.Netconf

open Library Transducer List Progress

namespace Progress

def chunkedByte (p : Progress) (byte : UInt8) : Except String (Progress × Option Bytes) :=
  if 0 < p.remaining then
    .ok ({ p with body := p.body ++ [byte], remaining := p.remaining - 1 }, none)
  else p.headerByte byte

def byte : Framing → Progress → UInt8 → Except String (Progress × Option Bytes)
  | .delimiter => delimitedByte
  | .chunked => chunkedByte

variable {p : Progress}

theorem chunkedByte_body (h : 0 < p.remaining) (b : UInt8) : p.chunkedByte b =
      .ok ({ p with body := p.body ++ [b], remaining := p.remaining - 1 }, none) :=
  if_pos h

theorem chunkedByte_header (h : p.remaining = 0) (b : UInt8) : p.chunkedByte b = p.headerByte b :=
  if_neg (by omega)

theorem next_body (p : Progress) (front input : Bytes) (h : front.length ≤ p.remaining) :
    next chunkedByte p (front ++ input) = next chunkedByte
        { p with body := p.body ++ front, remaining := p.remaining - front.length } input := by
  induction front generalizing p with
  | nil => simp
  | cons b front ih =>
    rw [length_cons] at h
    rw [cons_append, Transducer.next, chunkedByte_body (by omega)]
    simp only [ok_bind]
    rw [ih _ (by simp only; omega)]
    simp [Nat.sub_sub, Nat.add_comm]

theorem nextChunked_eq_next {rounds : ℕ} (p : Progress) {input : Bytes}
    (h : input.length < rounds) : nextChunked rounds p input = next chunkedByte p input := by
  induction rounds generalizing p input with
  | zero => omega
  | succ rounds ih =>
    have hl : (input.take (min p.remaining input.length)).length =
        min p.remaining input.length := length_take_of_le (Nat.min_le_right _ _)
    have htake := next_body p (input.take (min p.remaining input.length))
      (input.drop (min p.remaining input.length)) (by omega)
    rw [take_append_drop, hl] at htake
    rw [htake]
    change _ = next chunkedByte (p.takeRemaining input).1 (p.takeRemaining input).2
    simp only [nextChunked]
    have hle : (p.takeRemaining input).2.length ≤ input.length := by
      simp [takeRemaining]
    have hd : 0 < (p.takeRemaining input).1.remaining → (p.takeRemaining input).2 = [] := by
      simp only [takeRemaining, drop_eq_nil_iff]
      omega
    split_ifs with hm
    · rw [hd hm]
      rfl
    cases hi : (p.takeRemaining input).2 with
    | nil => rfl
    | cons b rest =>
      rw [hi, length_cons] at hle
      simp only
      rw [Transducer.next, chunkedByte_header (by omega)]
      cases hs : (p.takeRemaining input).1.headerByte b with
      | error e => rfl
      | ok r =>
        obtain ⟨p', message⟩ := r
        cases message with
        | some message => rfl
        | none => exact ih p' (by omega)

end Progress

namespace Decoder

theorem nextMessage_eq (d : Decoder) :
    d.nextMessage = (next (byte d.framing) d.progress d.input).map fun r =>
      ({ d with progress := r.1, input := r.2.1 }, r.2.2) := by
  cases hf : d.framing with
  | delimiter =>
    simp only [nextMessage, hf, byte]
    cases next delimitedByte d.progress d.input <;> rfl
  | chunked =>
    simp only [nextMessage, hf, byte]
    rw [nextChunked_eq_next _ (Nat.lt_succ_self _)]
    cases next chunkedByte d.progress d.input <;> rfl

theorem messages_eq (rounds : ℕ) (d : Decoder) (h : d.input.length < rounds) :
    messages rounds d = (scan (byte d.framing) d.progress d.input).map fun r =>
      ({ d with progress := r.1, input := [] }, r.2) := by
  rw [← drain_eq_scan d.progress h]
  induction rounds generalizing d with
  | zero => omega
  | succ rounds ih =>
    rw [messages, drain, nextMessage_eq]
    cases hn : next (byte d.framing) d.progress d.input with
    | error e => rfl
    | ok r =>
      obtain ⟨p, rest, message⟩ := r
      cases message with
      | none =>
        obtain rfl := next_rest_of_none hn
        rfl
      | some message =>
        have hl := length_next hn
        let d' : Decoder := { d with progress := p, input := rest }
        have hr := ih d' (by simp only [d']; omega)
        simp only [Except.map, ok_bind]
        rw [hr]
        cases drain (byte d.framing) rounds p rest <;> rfl

theorem readAll_eq {d : Decoder} (hi : d.input = []) {chunks : List Bytes}
    (hb : ∀ chunk ∈ chunks, chunk.length ≤ maxBufferBytes) :
    d.readAll chunks = (scan (byte d.framing) d.progress chunks.flatten).map fun r =>
      ({ d with progress := r.1, input := [] }, r.2) := by
  induction chunks generalizing d with
  | nil =>
    cases d
    cases hi
    rfl
  | cons chunk chunks ih =>
    have hf : d.feed chunk = .ok { d with input := chunk } := by
      have hle := hb chunk mem_cons_self
      rw [feed, hi, length_nil, Nat.sub_zero, decide_eq_true hle]
      rfl
    rw [readAll, hf, ok_bind, messages_eq _ _ (Nat.lt_succ_self _), flatten_cons, scan_append]
    cases hch : scan (byte d.framing) d.progress chunk with
    | error e => rfl
    | ok r =>
      have hr := ih (d := { d with progress := r.1, input := [] }) rfl
        fun c hc => hb c (mem_cons_of_mem _ hc)
      simp only [Except.map, ok_bind] at hr ⊢
      rw [hr]
      cases scan (byte d.framing) r.1 chunks.flatten <;> rfl

end Decoder

theorem hasWindow_iff {part bytes : Bytes} : hasWindow part bytes = true ↔ part <:+: bytes := by
  induction bytes with
  | nil => simp [hasWindow]
  | cons b bytes ih => simp [hasWindow, ih, infix_cons_iff]

def half : Bytes := [93, 93, 62]

/-- The delimiter overlaps itself in one way only. -/
theorem overlap {front back : Bytes} (h : delimiter ++ back = front ++ delimiter)
    (hpos : 0 < back.length) (hlt : back.length < delimiter.length) : front = half := by
  have hl := congrArg List.length h
  rw [length_append, length_append] at hl
  have hf : front = delimiter.take front.length := by
    have hta := congrArg (List.take front.length) h
    rw [take_left, take_append_of_le_length (by omega)] at hta
    exact hta.symm
  have hr : delimiter.drop front.length <+: delimiter := by
    have hd := congrArg (List.drop front.length) h
    rw [drop_left, drop_append_of_le_length (by omega)] at hd
    exact ⟨back, hd⟩
  have hc : front.length = 1 ∨ front.length = 2 ∨ front.length = 3 ∨ front.length = 4 ∨
      front.length = 5 := by
    change back.length < 6 at hlt
    omega
  rcases hc with hone | htwo | ht | hfo | hfi
  · rw [hone] at hr
    exact absurd hr (by decide)
  · rw [htwo] at hr
    exact absurd hr (by decide)
  · rw [ht] at hf
    exact hf
  · rw [hfo] at hr
    exact absurd hr (by decide)
  · rw [hfi] at hr
    exact absurd hr (by decide)

/-- Behind a message without the delimiter and without its half at the end, the delimiter is not
found before its last byte. -/
theorem not_suffix_of_prefix {message read : Bytes} (hi : ¬ delimiter <:+: message)
    (hend : ¬ half <:+ message) (hr : read <+: message ++ delimiter)
    (hlt : read.length < (message ++ delimiter).length) : ¬ delimiter <:+ read := by
  rintro ⟨front, rfl⟩
  obtain ⟨back, hb⟩ := hr
  have hl := congrArg List.length hb
  rw [append_assoc] at hb
  simp only [length_append] at hl hlt
  by_cases hlo : delimiter.length ≤ back.length
  · -- The delimiter and what follows it lie in the message.
    have hs := take_append_drop (back.length - delimiter.length) back
    rw [← hs, ← append_assoc, ← append_assoc] at hb
    have ht : (back.drop (back.length - delimiter.length)).length = delimiter.length := by
      rw [length_drop]
      omega
    obtain ⟨hm, -⟩ := append_inj' hb ht
    exact hi ⟨front, back.take (back.length - delimiter.length), hm⟩
  · -- It overlaps the delimiter at the end.
    obtain ⟨rest, rfl⟩ : front <+: message :=
      prefix_of_prefix_length_le ⟨_, hb⟩ (prefix_append _ _) (by omega)
    rw [append_assoc] at hb
    have hh := overlap (append_cancel_left hb) (by omega) (by omega)
    exact hend ⟨front, by rw [hh]⟩

namespace Progress

theorem scan_delimited (p : Progress) {bytes : Bytes}
    (hn : ∀ read, read <+: bytes → read ≠ [] → ¬ delimiter <:+ p.body ++ read)
    (hb : p.body.length + bytes.length < maxMessageBytes + delimiter.length) :
    scan delimitedByte p bytes = .ok ({ p with body := p.body ++ bytes }, []) := by
  induction bytes generalizing p with
  | nil => rw [scan_nil, append_nil]
  | cons b bytes ih =>
    rw [length_cons] at hb
    have hf : delimiter.isSuffixOf (p.body ++ [b]) = false := by
      rw [← Bool.not_eq_true, isSuffixOf_iff_suffix]
      exact hn [b] (prefix_cons_inj b |>.2 nil_prefix) (cons_ne_nil _ _)
    have hs : p.delimitedByte b = .ok ({ p with body := p.body ++ [b] }, none) := by
      have hlt : (p.body ++ [b]).length < maxMessageBytes + delimiter.length := by
        rw [length_append, length_singleton]
        omega
      simp only [delimitedByte, hf, Bool.false_eq_true, if_false, decide_eq_true hlt]
      rfl
    have hr : scan delimitedByte { p with body := p.body ++ [b] } bytes =
        .ok ({ p with body := p.body ++ [b] ++ bytes }, []) := by
      refine ih { p with body := p.body ++ [b] } ?_ ?_
      · intro read hre hne
        rw [append_assoc]
        exact hn (b :: read) ((prefix_cons_inj b).2 hre) (cons_ne_nil _ _)
      · simp only [length_append, length_singleton]
        omega
    rw [scan_cons_ok hs, hr, append_assoc]
    rfl

variable {message digits : Bytes} {b c : UInt8}

theorem scan_delimited_frame (hl : message.length ≤ maxMessageBytes)
    (hi : ¬ delimiter <:+: message) (hend : ¬ half <:+ message) :
    scan delimitedByte .new (message ++ delimiter) = .ok (.new, [message]) := by
  have hs : message ++ delimiter = (message ++ [93, 93, 62, 93, 93]) ++ [62] := by
    rw [append_assoc]
    rfl
  have hf : scan delimitedByte .new (message ++ [93, 93, 62, 93, 93]) =
      .ok ({ body := message ++ [93, 93, 62, 93, 93], header := [], remaining := 0, chunks := 0 },
        []) := by
    refine scan_delimited .new ?_ ?_
    · intro read hr hne
      change ¬ delimiter <:+ read
      apply not_suffix_of_prefix hi hend
      · exact hr.trans ⟨[62], hs.symm⟩
      · have hle := hr.length_le
        simp only [length_append, length_cons, length_nil, delimiter] at hle ⊢
        omega
    · simp only [new, length_append, length_cons, length_nil, delimiter]
      omega
  have hla : delimitedByte
      { body := message ++ [93, 93, 62, 93, 93], header := [], remaining := 0, chunks := 0 } 62 =
      .ok (.new, some message) := by
    have hfo : delimiter.isSuffixOf (message ++ delimiter) = true :=
      isSuffixOf_iff_suffix.2 (suffix_append _ _)
    have hb : (message ++ delimiter).take ((message ++ delimiter).length - delimiter.length) =
        message := by
      rw [length_append, Nat.add_sub_cancel, take_left]
    simp only [delimitedByte, ← hs, hfo, if_true, hb, decide_eq_true hl]
    rfl
  rw [hs, scan_append_ok hf, scan_cons_ok hla]
  rfl

def inHeader (digits : Bytes) : Progress :=
  { body := [], header := 10 :: 35 :: digits, remaining := 0, chunks := 0 }

def inBody (body : Bytes) (remaining : ℕ) : Progress :=
  { body, header := [], remaining, chunks := 1 }

theorem ne_hash_of_isAsciiDigit (h : isAsciiDigit b = true) : b ≠ 35 := by
  rintro rfl
  exact absurd h (by decide)

theorem ne_lf_of_isAsciiDigit (h : isAsciiDigit b = true) : b ≠ 10 := by
  rintro rfl
  exact absurd h (by decide)

theorem chunkedByte_first (hb : isAsciiDigit b = true) (hz : b ≠ 48) :
    chunkedByte (inHeader []) b = .ok (inHeader [b], none) := by
  have hr : (b == 35 || (49 ≤ b && b ≤ 57)) = true := by
    simp only [isAsciiDigit, Bool.and_eq_true, decide_eq_true_eq] at hb
    have hne : b.toNat ≠ 48 := fun h => hz (UInt8.toNat_inj.1 h)
    simp only [Bool.or_eq_true, Bool.and_eq_true, decide_eq_true_eq, UInt8.le_iff_toNat_le]
    exact .inr ⟨by change 49 ≤ b.toNat; omega, hb.2⟩
  rw [chunkedByte_header rfl]
  simp [headerByte, inHeader, hr, ok_bind, pure, Except.pure]

theorem scan_digits {more : Bytes} (hc : isAsciiDigit c = true)
    (hl : digits.length + more.length ≤ 9) (hm : ∀ b ∈ more, isAsciiDigit b = true) :
    scan chunkedByte (inHeader (c :: digits)) more = .ok (inHeader (c :: digits ++ more), []) := by
  induction more generalizing digits with
  | nil => rw [scan_nil, append_nil]
  | cons b more ih =>
    rw [length_cons] at hl
    have hs : chunkedByte (inHeader (c :: digits)) b =
        .ok (inHeader (c :: (digits ++ [b])), none) := by
      have hbo : digits.length + 1 + 1 + 1 < 13 := by omega
      have hd := hm b mem_cons_self
      rw [chunkedByte_header rfl]
      simp [headerByte, inHeader, hbo, ne_hash_of_isAsciiDigit hc, ne_lf_of_isAsciiDigit hd, hd,
        ok_bind, pure, Except.pure]
    have hr : scan chunkedByte (inHeader (c :: (digits ++ [b]))) more =
        .ok (inHeader (c :: (digits ++ [b]) ++ more), []) :=
      ih (by rw [length_append, length_singleton]; omega)
        fun x hx => hm x (mem_cons_of_mem _ hx)
    rw [scan_cons_ok hs, hr]
    simp [Except.map]

theorem scan_header {n : ℕ} (hpos : 0 < n) (hle : n ≤ maxMessageBytes) :
    scan chunkedByte .new ([10, 35] ++ utf8 (toString n) ++ [10]) = .ok (inBody [] n, []) := by
  have hd : ∀ b ∈ utf8 (toString n), isAsciiDigit b = true :=
    fun b hb => isAsciiDigit_of_mem_toString hb
  have hl : (utf8 (toString n)).length ≤ 9 :=
    (length_utf8_toString_le (by decide)).2 (Nat.lt_of_le_of_lt hle (by decide))
  have hv := decimalValue_toString n
  have hz : (utf8 (toString n)).head? ≠ some 48 := by
    rw [ne_eq, head?_utf8_toString]
    omega
  cases hf : utf8 (toString n) with
  | nil => exact absurd hf (utf8_toString_ne_nil n)
  | cons c digits =>
    rw [hf] at hd hl hv hz
    rw [length_cons] at hl
    have hc := hd c mem_cons_self
    have hs : scan chunkedByte .new [10, 35] = .ok (inHeader [], []) := by decide
    have hone : scan chunkedByte (inHeader []) [c] = .ok (inHeader [c], []) := by
      rw [scan_cons_ok (chunkedByte_first hc fun h => hz (by rw [h]; rfl))]
      rfl
    have hm : scan chunkedByte (inHeader [c]) digits = .ok (inHeader (c :: digits), []) :=
      scan_digits hc (by rw [length_nil]; omega)
        fun b hb => hd b (mem_cons_of_mem _ hb)
    have hend : chunkedByte (inHeader (c :: digits)) 10 = .ok (inBody [] n, none) := by
      have hb : digits.length + 1 + 1 + 1 < 13 := by omega
      have hst : startChunk { inHeader (c :: digits) with
          header := 10 :: 35 :: c :: (digits ++ [10]) } = .ok (inBody [] n) := by
        have hmax : n ≤ 2 ^ 32 - 1 := hle.trans (by decide)
        have hr : (((10 : UInt8) :: 35 :: c :: (digits ++ [10])).take
            (((10 : UInt8) :: 35 :: c :: (digits ++ [10])).length - 1)).drop 2 = c :: digits := by
          simp
        simp only [startChunk, hr, hv, decide_eq_true hmax]
        simp [inHeader, hle, ok_bind, inBody, maxChunks, pure, Except.pure]
      rw [chunkedByte_header rfl]
      simp [headerByte, inHeader, hb, ne_hash_of_isAsciiDigit hc, ok_bind] at hst ⊢
      rw [hst]
      rfl
    rw [append_assoc, scan_append_ok hs, ← singleton_append, append_assoc,
      scan_append_ok hone, scan_append_ok hm, scan_cons_ok hend]
    rfl

theorem scan_inBody (body : Bytes) : scan chunkedByte (inBody body message.length) message =
      .ok (inBody (body ++ message) 0, []) := by
  induction message generalizing body with
  | nil => rw [scan_nil, append_nil, length_nil]
  | cons b message ih =>
    have hs : chunkedByte (inBody body (b :: message).length) b =
        .ok (inBody (body ++ [b]) message.length, none) := chunkedByte_body (Nat.succ_pos _) b
    rw [scan_cons_ok hs, ih, append_assoc]
    rfl

end Progress

variable {message framed : Bytes} {framing : Framing} {messages frames : List Bytes}

theorem frame_delimiter_eq_ok : frame message .delimiter = .ok framed ↔
      message ≠ [] ∧ message.length ≤ maxMessageBytes ∧ ¬ delimiter <:+: message ∧
        message ++ delimiter = framed := by
  simp [frame, bind_eq_ok, pure, Except.pure, ← hasWindow_iff, and_assoc]

/-- The messages that survive their framing: with a delimiter, those that do not end with its
first half. -/
def Survives (framing : Framing) (message : Bytes) : Prop :=
  framing = .delimiter → ¬ half <:+ message

theorem scan_frame (h : frame message framing = .ok framed) (hend : Survives framing message) :
    scan (byte framing) .new framed = .ok (.new, [message]) := by
  cases framing with
  | delimiter =>
    obtain ⟨-, hle, hi, rfl⟩ := frame_delimiter_eq_ok.1 h
    exact scan_delimited_frame hle hi (hend rfl)
  | chunked =>
    obtain ⟨_, hm, h⟩ := bind_eq_ok.1 h
    cases h
    simp only [ensure_eq_ok, Bool.and_eq_true, Bool.not_eq_true', decide_eq_true_eq] at hm
    have hb : scan chunkedByte (inBody [] message.length) message = .ok (inBody message 0, []) :=
      scan_inBody []
    have hl : scan chunkedByte (inBody message 0) [10, 35, 35, 10] = .ok (.new, [message]) := rfl
    have hpos := length_pos_of_ne_nil (l := message) (by simpa using hm.1)
    change scan chunkedByte .new _ = _
    rw [append_assoc, scan_append_ok (scan_header hpos hm.2), scan_append_ok hb, hl]
    rfl

/-- A message that ends with the first half of the delimiter loses it. -/
theorem scan_frame_cut (h : frame message .delimiter = .ok framed) (hend : half <:+ message)
    (more : Bytes) {r : Progress × List Bytes}
    (hsc : scan (byte .delimiter) .new (framed ++ more) = .ok r) :
    ∃ first rest, r.2 = first :: rest ∧ first ≠ message := by
  obtain ⟨-, hle, hi, rfl⟩ := frame_delimiter_eq_ok.1 h
  obtain ⟨front, rfl⟩ := hend
  have hf : scan delimitedByte .new (front ++ delimiter) = .ok (.new, [front]) := by
    refine scan_delimited_frame ?_ ?_ ?_
    · rw [length_append] at hle
      omega
    · exact fun hfo => hi (hfo.trans (prefix_append _ _).isInfix)
    · rintro ⟨first, rfl⟩
      refine hi ⟨first, [], ?_⟩
      rw [append_nil, append_assoc]
      rfl
  have hs : front ++ half ++ delimiter ++ more = (front ++ delimiter) ++ (half ++ more) := by
    simp [half, delimiter]
  rw [hs, byte, scan_append_ok hf] at hsc
  cases hr : scan delimitedByte .new (half ++ more) with
  | error e =>
    rw [hr] at hsc
    cases hsc
  | ok q =>
    rw [hr] at hsc
    cases hsc
    refine ⟨front, q.2, rfl, fun heq => ?_⟩
    have hl := congrArg List.length heq
    rw [length_append] at hl
    change front.length = front.length + 3 at hl
    omega

theorem scan_frames
    (h : List.Forall₂ (fun message framed => frame message framing = .ok framed) messages frames)
    (hend : ∀ message ∈ messages, Survives framing message) :
    scan (byte framing) .new frames.flatten = .ok (.new, messages) := by
  induction h with
  | nil => rfl
  | cons hf _ ih =>
    have hfi := scan_frame hf (hend _ mem_cons_self)
    have hr := ih fun m hm => hend m (mem_cons_of_mem _ hm)
    rw [flatten_cons, scan_append_ok hfi, hr]
    rfl

theorem survives_of_scan_frames {p : Progress}
    (h : List.Forall₂ (fun message framed => frame message framing = .ok framed) messages frames)
    (hs : scan (byte framing) .new frames.flatten = .ok (p, messages)) :
    ∀ message ∈ messages, Survives framing message := by
  induction h with
  | nil => exact nofun
  | @cons message framed messages frames hf _ ih =>
    rw [flatten_cons] at hs
    by_cases hend : Survives framing message
    · rw [scan_append_ok (scan_frame hf hend)] at hs
      cases hr : scan (byte framing) .new frames.flatten with
      | error e =>
        rw [hr] at hs
        cases hs
      | ok q =>
        rw [hr] at hs
        cases hs
        exact forall_mem_cons.2 ⟨hend, ih hr⟩
    · obtain ⟨rfl, hh⟩ := Classical.not_imp.1 hend
      obtain ⟨first, rest, heq, hne⟩ := scan_frame_cut hf (Classical.not_not.1 hh) frames.flatten hs
      exact absurd (List.cons.inj heq).1.symm hne

/-- For every list of messages that the encoder accepts and every cut of their frames into chunks
that the input queue takes, the decoder returns these messages and keeps nothing, except when a
message before the delimiter ends with `]]>`. -/
theorem readAll_frames_iff (framing : Framing) (messages frames chunks : List Bytes)
    (hframes : List.Forall₂ (fun message framed => frame message framing = .ok framed)
      messages frames) (hcut : chunks.flatten = frames.flatten)
    (hbound : ∀ chunk ∈ chunks, chunk.length ≤ maxBufferBytes) :
    (∃ d, (Decoder.new framing).readAll chunks = .ok (d, messages) ∧ d.isPartial = false) ↔
      framing = .chunked ∨ ∀ message ∈ messages, ¬ half <:+ message := by
  have hr : (Decoder.new framing).readAll chunks =
      (scan (Progress.byte framing) .new frames.flatten).map fun r =>
        ({ framing, progress := r.1, input := [] }, r.2) := by
    rw [← hcut]
    exact Decoder.readAll_eq rfl hbound
  constructor
  · rintro ⟨d, hd, -⟩
    rw [hr] at hd
    cases hs : scan (Progress.byte framing) .new frames.flatten with
    | error e =>
      rw [hs] at hd
      cases hd
    | ok r =>
      rw [hs] at hd
      cases hd
      have hend := survives_of_scan_frames hframes hs
      cases framing with
      | delimiter => exact .inr fun message hm => hend message hm rfl
      | chunked => exact .inl rfl
  · intro hend
    have hs : scan (Progress.byte framing) .new frames.flatten = .ok (.new, messages) := by
      refine scan_frames hframes fun message hm hde => ?_
      obtain rfl | hend := hend
      · cases hde
      · exact hend message hm
    refine ⟨Decoder.new framing, ?_, rfl⟩
    rw [hr, hs]
    rfl

theorem readAll_frames_split :
    (∃ d, (Decoder.new .chunked).readAll [[10, 35, 49], [10, 93, 10, 35], [35, 10]] =
      .ok (d, [[93]]) ∧ d.isPartial = false) :=
  (readAll_frames_iff .chunked [[93]] [[10, 35, 49, 10, 93, 10, 35, 35, 10]]
    [[10, 35, 49], [10, 93, 10, 35], [35, 10]] (.cons (by decide) .nil) (by decide)
    (by decide)).2 (.inl rfl)

/-- The message `a]]>` is accepted, and comes back as `a` with three bytes left over. -/
theorem readAll_loses_end :
    frame [97, 93, 93, 62] .delimiter = .ok [97, 93, 93, 62, 93, 93, 62, 93, 93, 62] ∧
      ((Decoder.new .delimiter).readAll [[97, 93, 93, 62, 93, 93, 62, 93, 93, 62]]).map
        (fun r => (r.2, r.1.isPartial)) = .ok ([[97]], true) := by
  decide

end NetGet.Netconf
