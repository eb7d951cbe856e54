import NetGet.Verification.Fix.Codec
import NetGet.Verification.Fix.Sequencing

/-! # Answering a ResendRequest -/

namespace NetGet.Fix

open Library List Session

/-! ## Pieces of an answer -/

/-- A piece of an answer: a stored message, or a gap fill up to the number `next`. -/
inductive Item where
  | app (m : Sent)
  | fill (first next : ℕ)

namespace Item

def seq : Item → ℕ
  | app m => m.seq
  | fill first _ => first

def next : Item → ℕ
  | app m => m.seq + 1
  | fill _ next => next

def apps : Item → List Sent
  | app m => [m]
  | fill _ _ => []

def fields (s : Session) (clock : Clock) : Item → List Field
  | app m => s.resendFields clock m
  | fill first next =>
    s.header clock "4" first (some (clock.origSendingTime first).text) ++
      [(123, "Y"), (36, toString next)]

/-- The frames of a piece: none for a message that cannot be encoded, an empty one for such a
gap fill. -/
def frames (s : Session) (clock : Clock) : Item → List Bytes
  | app m => (encode s.beginString (s.resendFields clock m)).toOption.toList
  | fill first next => [s.gapFill clock first next]

end Item

/-- The pieces of the answer for `rounds` numbers from `seq` on, with the start of a gap that is
still open. -/
def plan (sent : List Sent) : ℕ → ℕ → Option ℕ → List Item
  | 0, seq, gapFrom => (gapFrom.map fun g => Item.fill g seq).toList
  | rounds + 1, seq, gapFrom =>
    match sent.find? (·.seq == seq) with
    | some m =>
      (gapFrom.map fun g => Item.fill g seq).toList ++ .app m :: plan sent rounds (seq + 1) none
    | none => plan sent rounds (seq + 1) (some (gapFrom.getD seq))

theorem resendLoop_eq_plan (s : Session) (clock : Clock) (rounds : ℕ) :
    ∀ (seq : ℕ) (gapFrom : Option ℕ), s.resendLoop clock rounds seq gapFrom =
      (plan s.sent rounds seq gapFrom).flatMap (Item.frames s clock) := by
  induction rounds with
  | zero =>
    intro seq gapFrom
    cases gapFrom <;> rfl
  | succ rounds ih =>
    intro seq gapFrom
    cases hf : s.sent.find? (·.seq == seq) with
    | none => simp only [resendLoop, plan, hf, ih]
    | some m =>
      simp only [resendLoop, plan, hf, ih, flatMap_append, flatMap_cons, append_assoc]
      cases gapFrom <;> rfl

variable {rounds n seq start stop first : ℕ} {sent log : List Sent} {lossy : Lossy} {item : Item}
  {s p : Session} {m : Message} {type : String} {clock peerClock : Clock} {out : Step}
  {items : List Item} {outs : List Step} {o : Outbox}

theorem plan_congr : ∀ {seq : ℕ} {gapFrom : Option ℕ},
      (∀ n, seq ≤ n → sent.find? (·.seq == n) = log.find? (·.seq == n)) →
      plan sent rounds seq gapFrom = plan log rounds seq gapFrom := by
  induction rounds with
  | zero =>
    intro seq gapFrom _
    rfl
  | succ rounds ih =>
    intro seq gapFrom h
    have hr : ∀ n, seq + 1 ≤ n → sent.find? (·.seq == n) = log.find? (·.seq == n) :=
      fun n hn => h n (by omega)
    simp only [plan, h seq le_rfl, ih hr]

/-- The pieces follow each other without gap or overlap from `start` to `stop`. -/
inductive Tiles : ℕ → ℕ → List Item → Prop where
  | nil (stop : ℕ) : Tiles stop stop []
  | cons {start stop : ℕ} {item : Item} {items : List Item} (hseq : item.seq = start)
      (hlt : start < item.next) (hrest : Tiles item.next stop items) :
      Tiles start stop (item :: items)

theorem plan_tiles (sent : List Sent) (rounds : ℕ) :
    ∀ (seq : ℕ) (gapFrom : Option ℕ), (∀ g ∈ gapFrom, g < seq) →
      Tiles (gapFrom.getD seq) (seq + rounds) (plan sent rounds seq gapFrom) := by
  induction rounds with
  | zero =>
    intro seq gapFrom hgap
    cases gapFrom with
    | none => exact .nil seq
    | some g => exact .cons rfl (hgap g rfl) (.nil seq)
  | succ rounds ih =>
    intro seq gapFrom hgap
    rw [show seq + (rounds + 1) = seq + 1 + rounds by omega]
    cases hf : sent.find? (·.seq == seq) with
    | none =>
      simp only [plan, hf]
      have ho : ∀ g ∈ some (gapFrom.getD seq), g < seq + 1 := by
        intro g hg
        cases hg
        cases gapFrom with
        | none => exact Nat.lt_succ_self seq
        | some g => exact Nat.lt_succ_of_lt (hgap g rfl)
      exact ih (seq + 1) _ ho
    | some m =>
      have hm : m.seq = seq := by simpa using find?_some hf
      have happ : Tiles seq (seq + 1 + rounds) (.app m :: plan sent rounds (seq + 1) none) := by
        refine .cons hm (hm ▸ Nat.lt_succ_self _) ?_
        have hr := ih (seq + 1) none (fun g hg => by cases hg)
        rwa [← hm] at hr ⊢
      simp only [plan, hf]
      cases gapFrom with
      | none => exact happ
      | some g => exact .cons rfl (hgap g rfl) happ

theorem plan_apps (sent : List Sent) (rounds : ℕ) :
    ∀ (seq : ℕ) (gapFrom : Option ℕ), (plan sent rounds seq gapFrom).flatMap Item.apps =
      (range' seq rounds).filterMap fun n => sent.find? (·.seq == n) := by
  induction rounds with
  | zero =>
    intro seq gapFrom
    cases gapFrom <;> rfl
  | succ rounds ih =>
    intro seq gapFrom
    rw [range'_succ, filterMap_cons]
    cases hf : sent.find? (·.seq == seq) with
    | none => simp only [plan, hf, ih]
    | some m =>
      simp only [plan, hf, flatMap_append, flatMap_cons, ih]
      cases gapFrom <;> rfl

/-! ## What the peer reads -/

def Frame.message? : Frame → Option Message
  | .message _ m _ => some m
  | _ => none

/-- The message the peer reads from the frame of a piece. -/
def Item.read (lossy : Lossy) (s : Session) (clock : Clock) (item : Item) : Option Message :=
  (encode s.beginString (item.fields s clock)).toOption.bind fun bytes =>
    (frame lossy bytes).message?

theorem feed_cons (p : Session) (lossy : Lossy) (clock : Clock) (bytes : Bytes)
    (rest : List Bytes) : p.feed lossy clock (bytes :: rest) =
      match (frame lossy bytes).message? with
      | none => p.feed lossy clock rest
      | some m => do
        let (p, out) ← p.onMessage clock m
        let (p, outs) ← p.feed lossy clock rest
        return (p, out :: outs) := by
  rw [feed]
  cases frame lossy bytes <;> rfl

theorem feed_frames (p : Session) (lossy : Lossy) (peerClock : Clock) (s : Session)
    (clock : Clock) (item : Item) (rest : List Bytes) :
    p.feed lossy peerClock (item.frames s clock ++ rest) =
      match item.read lossy s clock with
      | none => p.feed lossy peerClock rest
      | some m => do
        let (p, out) ← p.onMessage peerClock m
        let (p, outs) ← p.feed lossy peerClock rest
        return (p, out :: outs) := by
  unfold Item.read
  cases item with
  | app m =>
    have hf : Item.fields s clock (.app m) = s.resendFields clock m := rfl
    cases he : encode s.beginString (s.resendFields clock m) with
    | error e => simp [Item.frames, hf, he, Except.toOption]
    | ok bytes => simp [Item.frames, hf, he, Except.toOption, feed_cons]
  | fill first next =>
    have hgap : s.gapFill clock first next =
        (encode s.beginString (Item.fields s clock (.fill first next))).toOption.getD [] := rfl
    have hem : (frame lossy []).message? = none := rfl
    cases he : encode s.beginString (Item.fields s clock (.fill first next)) with
    | error e =>
      simp [Item.frames, hgap, he, Except.toOption, feed_cons, hem]
    | ok bytes => simp [Item.frames, hgap, he, Except.toOption, feed_cons]

theorem Item.read_eq_some (h : item.read lossy s clock = some m) :
    ∃ bytes name n, encode s.beginString (item.fields s clock) = .ok bytes ∧
      frame lossy bytes = .message name m n := by
  obtain ⟨bytes, he, hf⟩ := Option.bind_eq_some_iff.1 h
  obtain ⟨name, n, hm⟩ : ∃ name n, frame lossy bytes = .message name m n := by
    cases hr : frame lossy bytes with
    | incomplete | garbled => simp [hr, Frame.message?] at hf
    | message name m' n =>
      rw [hr] at hf
      cases hf
      exact ⟨name, n, rfl⟩
  cases hr : encode s.beginString (item.fields s clock) with
  | error e => simp [hr, Except.toOption] at he
  | ok out =>
    simp only [hr, Except.toOption, Option.some_inj] at he
    exact ⟨bytes, name, n, by rw [he], hm⟩

theorem Item.read_eq_fields_iff (hb : soh ∉ utf8 s.beginString) :
    item.read lossy s clock = some { fields := item.fields s clock } ↔
      Carried (item.fields s clock) := by
  constructor
  · intro h
    obtain ⟨bytes, name, n, he, hf⟩ := Item.read_eq_some h
    exact carried_of_frame hb he hf
  · intro h
    obtain ⟨he, hf⟩ := h.reads lossy hb (by cases item <;> rfl)
    simp [Item.read, he, Except.toOption, hf, Frame.message?]

def Item.msgType : Item → String
  | app m => m.msgType
  | fill _ _ => "4"

def Item.header (s : Session) (clock : Clock) (item : Item) : List Field :=
  match item with
  | app m => s.header clock m.msgType m.seq (some m.sendingTime)
  | fill first _ => s.header clock "4" first (some (clock.origSendingTime first).text)

def Item.Application : Item → Prop
  | app m => adminTypes.contains m.msgType = false
  | fill _ _ => True

def Item.tail : Item → List Field
  | app m => m.body
  | fill _ next => [(123, "Y"), (36, toString next)]

theorem Item.fields_eq (s : Session) (clock : Clock) (item : Item) :
    item.fields s clock = item.header s clock ++ item.tail := by
  cases item <;> rfl

theorem Item.ordinary_header (s : Session) (clock : Clock) (item : Item) :
    ∀ f ∈ item.header s clock, ordinary f.1 = true := by
  have ht : (item.header s clock).map Prod.fst = [35, 49, 56, 34, 43, 52, 122] := by
    cases item <;> rfl
  have hall : ∀ tag ∈ [35, 49, 56, 34, 43, 52, 122], ordinary tag = true := by decide
  intro f hf
  exact hall f.1 (ht ▸ mem_map_of_mem hf)

theorem Item.length_header (s : Session) (clock : Clock) (item : Item) :
    (item.header s clock).length = 7 := by
  cases item <;> rfl

/-- The peer reads the ordinary fields at the front of a piece as they were written. -/
theorem Item.parseLoop_of_read {front rest : List Field} (hb : soh ∉ utf8 s.beginString)
    (h : item.read lossy s clock = some m) (hf : item.fields s clock = front ++ rest)
    (ho : ∀ f ∈ front, ordinary f.1 = true) (hl : front.length ≤ maxFields) :
    ∃ rounds, parseLoop lossy rounds none front (renderAll rest) = .ok m.fields := by
  obtain ⟨bytes, name, n, he, hfr⟩ := Item.read_eq_some h
  have hlo := parseLoop_of_frame hb he hfr
  have hr := length_le_renderAll (item.fields s clock)
  rw [hf, renderAll_append] at hlo hr
  have hc : ∀ f ∈ front, clean f = true := by
    intro f hmem
    exact clean_of_writable (ho f hmem) ((encode_eq_ok he).2.2 f (hf ▸ mem_append_left _ hmem))
  rw [length_append] at hr
  exact ⟨_, parseLoop_clean hc (by simpa using hl) (by omega) hlo⟩

theorem Item.header_of_read (hb : soh ∉ utf8 s.beginString) (h : item.read lossy s clock = some m) :
    item.header s clock <+: m.fields := by
  have hl : (item.header s clock).length ≤ maxFields := by
    rw [Item.length_header]
    decide
  obtain ⟨rounds, hr⟩ := Item.parseLoop_of_read hb h (item.fields_eq s clock)
    (item.ordinary_header s clock) hl
  exact isPrefix_of_parseLoop hr

theorem Item.fields_of_read_fill {next : ℕ}
    (hb : soh ∉ utf8 s.beginString) (h : (Item.fill first next).read lossy s clock = some m) :
    m.fields = (Item.fill first next).fields s clock := by
  have ho : ∀ f ∈ (Item.fill first next).fields s clock, ordinary f.1 = true := by
    rw [Item.fields_eq, forall_mem_append]
    have hall : ∀ tag ∈ [123, 36], ordinary tag = true := by decide
    exact ⟨Item.ordinary_header s clock _, fun f hf => hall f.1 (mem_map_of_mem hf)⟩
  have hl : ((Item.fill first next).fields s clock).length ≤ maxFields := by
    rw [Item.fields_eq, length_append, Item.length_header]
    change 7 + 2 ≤ maxFields
    decide
  obtain ⟨rounds, hr⟩ := Item.parseLoop_of_read hb h (append_nil _).symm ho hl
  cases rounds with
  | zero => exact (Except.ok.inj hr).symm
  | succ rounds =>
    simp only [renderAll_nil, parseLoop, if_true] at hr
    exact (Except.ok.inj hr).symm

/-! ## What the peer does -/

structure Mirrors (s p : Session) : Prop where
  target : p.target = s.sender
  sender : p.sender = s.target

/-- The message carries the header of `s` for the type `type` and the number `seq`. -/
structure Headed (s : Session) (m : Message) (type : String) (seq : ℕ) : Prop where
  sender : m.get 49 = some s.sender
  target : m.get 56 = some s.target
  msgType : m.msgType = type
  number : m.get 34 = some (toString seq)
  time : (m.get 52).isNone = false

theorem Item.headed (h : item.header s clock <+: m.fields) : Headed s m item.msgType item.seq := by
  obtain ⟨rest, hr⟩ := h
  cases item <;> constructor <;>
    simp [Message.msgType, Message.get, ← hr, Item.header, Session.header, Item.msgType, Item.seq]

theorem Headed.seq_eq (h : Headed s m type seq) (hlt : seq < 2 ^ 32) : m.seq = some seq := by
  rw [Message.seq, h.number]
  exact parseUnsigned_toString hlt

theorem Headed.not_reset (h : Headed s m type seq) (hr : type = "4" → m.get 123 = some "Y") :
    ¬(m.msgType = "4" ∧ m.get 123 ≠ some "Y") := by
  rw [h.msgType]
  exact fun hno => hno.2 (hr hno.1)

theorem Headed.onMessage_expected (h : Headed s m type seq) (hm : Mirrors s p)
    (hn : p.nextIn = seq) (hlt : seq + 1 < 2 ^ 32)
    (hr : type = "4" → m.get 123 = some "Y") :
    p.onMessage clock m =
      inSequence (settle { p with lastIn := clock.now, nextIn := seq + 1 })
        clock m seq := by
  simp only [onMessage, h.seq_eq (by omega : seq < 2 ^ 32), h.sender, h.target,
    hm.target, hm.sender, hn, ne_eq, not_true_eq_false, or_self, if_false,
    lt_irrefl, checkedAdd_of_lt hlt]
  rw [if_neg (h.not_reset hr)]
  rfl

theorem Headed.onMessage_app (h : Headed s m type seq) (clock : Clock) (hm : Mirrors s p)
    (hn : p.nextIn = seq) (hlt : seq + 1 < 2 ^ 32) (happ : adminTypes.contains type = false) :
    ∃ p', p.onMessage clock m = some (p', { send := [], app := some m, close := none }) ∧
      p'.nextIn = seq + 1 ∧ Mirrors s p' := by
  have ha : ∀ t : String, adminTypes.contains t = true → m.msgType ≠ t := by
    intro t ht heq
    rw [← h.msgType, heq, ht] at happ
    cases happ
  rw [h.onMessage_expected hm hn hlt (fun heq => absurd (h.msgType.trans heq) (ha "4" (by decide)))]
  refine ⟨settle { p with lastIn := clock.now, nextIn := seq + 1 }, ?_, rfl,
    hm.target, hm.sender⟩
  unfold inSequence
  split
  iterate 7 exact absurd ‹_› (ha _ (by decide))
  · rw [h.time]
    rfl

theorem Tiles.le (h : Tiles start stop items) : start ≤ stop := by
  induction h with
  | nil stop => exact le_rfl
  | cons hseq hlt hr ih => omega

theorem feed_items_cases {p' : Session}
    (h : p.feed lossy peerClock ((item :: items).flatMap (Item.frames s clock)) = some (p', outs)) :
    (item.read lossy s clock = none ∧
      p.feed lossy peerClock (items.flatMap (Item.frames s clock)) = some (p', outs)) ∨
    ∃ m q out outs', item.read lossy s clock = some m ∧ p.onMessage peerClock m = some (q, out) ∧
      q.feed lossy peerClock (items.flatMap (Item.frames s clock)) = some (p', outs') ∧
      outs = out :: outs' := by
  rw [flatMap_cons, feed_frames] at h
  cases hr : item.read lossy s clock with
  | none =>
    simp only [hr] at h
    exact .inl ⟨rfl, h⟩
  | some m =>
    simp only [hr] at h
    obtain ⟨⟨q, out⟩, hout, ht⟩ := Option.bind_eq_some_iff.1 h
    obtain ⟨⟨q', outs'⟩, hre, heq⟩ := Option.bind_eq_some_iff.1 ht
    cases heq
    exact .inr ⟨m, q, out, outs', rfl, hout, hre, rfl⟩

theorem Tiles.stuck (h : Tiles start stop items) (hb : soh ∉ utf8 s.beginString)
    (hs : stop < 2 ^ 32) (happ : ∀ item ∈ items, item.Application) :
    ∀ {p p' : Session} {outs : List Step}, Mirrors s p → p.nextIn < start →
      p.feed lossy peerClock (items.flatMap (Item.frames s clock)) = some (p', outs) →
      p'.nextIn = p.nextIn := by
  induction h with
  | nil stop =>
    intro p p' outs _ _ hf
    cases hf
    rfl
  | @cons start stop item items hseq hlt hre ih =>
    intro p p' outs hm hbe hf
    have hle := hre.le
    obtain ⟨ha, hra⟩ := forall_mem_cons.1 happ
    rcases feed_items_cases hf with ⟨-, hrf⟩ | ⟨m, q, out, outs', hr, hout, hrf, rfl⟩
    · exact ih hs hra hm (by omega) hrf
    have hh := Item.headed (Item.header_of_read hb hr)
    have hmo : item.msgType = "4" → m.get 123 = some "Y" := by
      intro ht
      cases item with
      | app stored =>
        rw [Item.Application, show stored.msgType = "4" from ht] at ha
        exact absurd ha (by decide)
      | fill first next =>
        rw [Message.get, Item.fields_of_read_fill hb hr]
        rfl
    simp only [onMessage, hh.seq_eq (by omega), hh.sender, hh.target,
      hm.target, hm.sender, ne_eq, not_true_eq_false, or_self, if_false] at hout
    rw [if_neg (hh.not_reset hmo), if_neg (by omega), if_pos (by omega)] at hout
    have hq := (tooHigh_sameInbound hout).1
    have hn : q.nextIn = p.nextIn := hq.nextIn
    exact (ih hs hra ⟨hq.target, hq.sender⟩ (by omega) hrf).trans hn

/-- The application messages of an answer, as the peer is meant to read them. -/
def resent (s : Session) (clock : Clock) (items : List Item) : List Message :=
  (items.flatMap Item.apps).map fun m => { fields := s.resendFields clock m }

theorem resent_cons (s : Session) (clock : Clock) (item : Item) (items : List Item) :
    resent s clock (item :: items) = resent s clock [item] ++ resent s clock items := by
  simp [resent]

theorem Item.onMessage_carried (item : Item) (clock peerClock : Clock) (hm : Mirrors s p)
    (hn : p.nextIn = item.seq) (hlt : item.seq < item.next) (hs : item.next < 2 ^ 32)
    (happ : item.Application) :
    ∃ p' out, p.onMessage peerClock { fields := item.fields s clock } = some (p', out) ∧
      p'.nextIn = item.next ∧ Mirrors s p' ∧ out.send = [] ∧ out.close = none ∧
      out.app.toList = resent s clock [item] := by
  have hh : Headed s { fields := item.fields s clock } item.msgType item.seq := by
    have hp : item.header s clock <+: item.fields s clock := by
      rw [Item.fields_eq]
      exact prefix_append _ _
    exact Item.headed hp
  cases item with
  | app stored =>
    obtain ⟨p', hout, hn', hm'⟩ := hh.onMessage_app peerClock hm hn hs happ
    exact ⟨p', _, hout, hn', hm', rfl, rfl, rfl⟩
  | fill first next =>
    change Headed s _ "4" first at hh
    change first < next at hlt
    change next < 2 ^ 32 at hs
    have hnew : (newSeqNo { fields := (Item.fill first next).fields s clock }).filter
        (first < ·) = some next := by
      rw [newSeqNo, show Message.get _ 36 = some (toString next) from rfl, Option.bind_some,
        parseUnsigned_toString hs, Option.filter_some_pos]
      simpa using hlt
    rw [hh.onMessage_expected hm hn (by omega) fun _ => rfl]
    simp only [inSequence, hh.msgType, hnew]
    exact ⟨_, _, rfl, rfl, ⟨hm.target, hm.sender⟩, rfl, rfl, rfl⟩

/-- A peer that can read every piece follows the answer to its end and is quiet. -/
theorem Tiles.followed (h : Tiles start stop items) (hb : soh ∉ utf8 s.beginString)
    (hs : stop < 2 ^ 32) (happ : ∀ item ∈ items, item.Application)
    (hc : ∀ item ∈ items, Carried (item.fields s clock)) :
    ∀ {p : Session}, Mirrors s p → p.nextIn = start →
      ∃ p' outs, p.feed lossy peerClock (items.flatMap (Item.frames s clock)) = some (p', outs) ∧
        p'.nextIn = stop ∧ outs.flatMap (·.app.toList) = resent s clock items ∧
        ∀ out ∈ outs, out.send = [] ∧ out.close = none := by
  induction h with
  | nil stop =>
    intro p _ hn
    exact ⟨p, [], rfl, hn, rfl, fun out hout => by cases hout⟩
  | @cons start stop item items hseq hlt hre ih =>
    intro p hm hn
    have hle := hre.le
    obtain ⟨hi, hra⟩ := forall_mem_cons.1 happ
    obtain ⟨hci, hrc⟩ := forall_mem_cons.1 hc
    have hread : item.read lossy s clock = some { fields := item.fields s clock } :=
      (Item.read_eq_fields_iff hb).2 hci
    obtain ⟨q, out, hout, hn', hm', hse, hcl, ha⟩ := item.onMessage_carried clock peerClock hm
        (hn.trans hseq.symm) (by omega) (by omega) hi
    obtain ⟨p', outs, hf, hend, hr, hq⟩ := ih hs hra hrc hm' hn'
    refine ⟨p', out :: outs, ?_, hend, ?_, ?_⟩
    · rw [flatMap_cons, feed_frames, hread]
      simp [hout, hf]
    · rw [flatMap_cons, ha, hr, ← resent_cons]
    · exact forall_mem_cons.2 ⟨⟨hse, hcl⟩, hq⟩

/-- A peer that has come to the end of the answer with the right messages could read every
piece. -/
theorem Tiles.carried (h : Tiles start stop items) (hb : soh ∉ utf8 s.beginString)
    (hst : stop < 2 ^ 32) (happ : ∀ item ∈ items, item.Application) :
    ∀ {p p' : Session} {outs : List Step}, Mirrors s p → p.nextIn = start →
      p.feed lossy peerClock (items.flatMap (Item.frames s clock)) = some (p', outs) →
      p'.nextIn = stop → outs.flatMap (·.app.toList) = resent s clock items →
      ∀ item ∈ items, Carried (item.fields s clock) := by
  induction h with
  | nil stop =>
    intro p p' outs _ _ _ _ _ item hi
    cases hi
  | @cons start stop item items hseq hlt hrest ih =>
    intro p p' outs hm hn hfe hend hre
    have hle := hrest.le
    obtain ⟨hf, hra⟩ := forall_mem_cons.1 happ
    rcases feed_items_cases hfe with ⟨-, hrf⟩ | ⟨m, q, out, outs', hread, hout, hrf, rfl⟩
    · have hs := hrest.stuck hb hst hra hm (by omega) hrf
      omega
    obtain rfl : m = { fields := item.fields s clock } := by
      cases item with
      | fill first next => exact congrArg Message.mk (Item.fields_of_read_fill hb hread)
      | app stored =>
        have hh := Item.headed (Item.header_of_read hb hread)
        obtain ⟨r, hr, -, -⟩ := hh.onMessage_app peerClock hm (hn.trans hseq.symm) (by omega) hf
        rw [hr] at hout
        cases hout
        have hhe := congrArg head? hre
        simpa [resent, Item.apps, Item.fields] using hhe
    obtain ⟨r, o, hr, hn', hm', -, -, ha⟩ := item.onMessage_carried clock peerClock hm
        (hn.trans hseq.symm) (by omega) (by omega) hf
    rw [hr] at hout
    cases hout
    rw [flatMap_cons, ha, resent_cons s clock item items] at hre
    exact forall_mem_cons.2 ⟨(Item.read_eq_fields_iff hb).1 hread,
      ih hst hra hm' hn' hrf hend (append_cancel_left hre)⟩

/-! ## What is stored -/

/-- The log runs upwards, so what is found number by number is what it holds from `first` on. -/
def Ascending (log : List Sent) : Prop := (log.map (·.seq)).Pairwise (· < ·)

theorem filter_of_above (h : ∀ m ∈ log, first < m.seq) {k : ℕ} (hk : k ≤ first + 1) :
    log.filter (k ≤ ·.seq) = log := by
  rw [filter_eq_self]
  intro m hm
  have := h m hm
  simp only [decide_eq_true_eq]
  omega

theorem Ascending.find?_then (h : Ascending log) (first : ℕ) : log.filter (first ≤ ·.seq) =
      (log.find? (·.seq == first)).toList ++ log.filter (first + 1 ≤ ·.seq) := by
  induction log with
  | nil => rfl
  | cons m log ih =>
    obtain ⟨hh, ht⟩ := pairwise_cons.1 h
    have ha : ∀ m' ∈ log, m.seq < m'.seq := fun m' hm' => hh m'.seq (mem_map_of_mem hm')
    rcases Nat.lt_trichotomy m.seq first with hlt | heq | hgt
    · rw [filter_cons_of_neg (by simpa using hlt), List.find?_cons_of_neg (by simp; omega),
        filter_cons_of_neg (by simp; omega)]
      exact ih ht
    · rw [filter_cons_of_pos (by simp; omega), List.find?_cons_of_pos (by simpa using heq),
        filter_cons_of_neg (by simp; omega), filter_of_above ha (by omega),
        filter_of_above ha (by omega)]
      rfl
    · have hall : ∀ m' ∈ m :: log, first < m'.seq :=
        forall_mem_cons.2 ⟨hgt, fun m' hm' => hgt.trans (ha m' hm')⟩
      have hn : (m :: log).find? (·.seq == first) = none :=
        List.find?_eq_none.2 fun m' hm' => by simpa using (hall m' hm').ne'
      rw [hn, filter_of_above hall (by omega), filter_of_above hall (by omega)]
      rfl

theorem Ascending.filterMap_find? (h : Ascending log) (rounds : ℕ) :
    ∀ first : ℕ, (∀ m ∈ log, m.seq < first + rounds) →
      ((range' first rounds).filterMap fun n => log.find? (·.seq == n)) =
        log.filter (first ≤ ·.seq) := by
  induction rounds with
  | zero =>
    intro first hb
    symm
    rw [range'_zero, filterMap_nil, filter_eq_nil_iff]
    intro m hm
    have := hb m hm
    simpa using this
  | succ rounds ih =>
    intro first hb
    have hr := ih (first + 1) (fun m hm => by have := hb m hm; omega)
    rw [h.find?_then first, ← hr, range'_succ, filterMap_cons]
    cases log.find? (·.seq == first) <;> rfl

/-- A message that has been dropped from the store has a number below those asked for, as long as
the store has room for all of these. -/
theorem Ascending.find?_keepLast (h : Ascending log) {bound : ℕ}
    (hr : (log.filter (first ≤ ·.seq)).length ≤ bound) (hn : first ≤ n) :
    (keepLast bound log).find? (·.seq == n) = log.find? (·.seq == n) := by
  obtain ⟨k, hk⟩ : ∃ k, k = log.length - bound := ⟨_, rfl⟩
  have hs : log = log.take k ++ log.drop k := (take_append_drop k log).symm
  have ha : ∀ m ∈ log.take k, ∀ m' ∈ log.drop k, m.seq < m'.seq := by
    intro m hm m' hm'
    have hp := h
    rw [Ascending, hs, map_append, pairwise_append] at hp
    exact hp.2.2 _ (mem_map_of_mem hm) _ (mem_map_of_mem hm')
  have hd : ∀ m ∈ log.take k, m.seq < first := by
    intro m hm
    by_contra hno
    have hke : (log.drop k).filter (first ≤ ·.seq) = log.drop k :=
      filter_of_above (ha m hm) (by omega)
    have hone : 0 < ((log.take k).filter (first ≤ ·.seq)).length :=
      length_pos_of_mem (mem_filter.2 ⟨hm, by simpa using hno⟩)
    have hk0 : 0 < k := by
      have := length_pos_of_mem hm
      rw [length_take] at this
      omega
    rw [hs, filter_append, length_append, hke, length_drop] at hr
    omega
  have hnone : (log.take k).find? (·.seq == n) = none := by
    rw [List.find?_eq_none]
    intro m hm
    have := hd m hm
    simp only [beq_iff_eq]
    omega
  rw [keepLast, ← hk]
  conv_rhs => rw [hs, List.find?_append, hnone, Option.none_or]

/-- What holds of a session that has only sent messages since its numbers were reset. -/
structure Outbox.Stored (s : Session) (o : Outbox) : Prop where
  beginString : o.session.beginString = s.beginString
  sender : o.session.sender = s.sender
  target : o.session.target = s.target
  nextOut : o.session.nextOut < 2 ^ 32
  sent : o.session.sent = keepLast resendStore o.log
  ascending : Ascending o.log
  below : ∀ m ∈ o.log, m.seq < o.session.nextOut
  application : ∀ m ∈ o.log, adminTypes.contains m.msgType = false

theorem Outbox.start_stored (s : Session) : Outbox.Stored s (.start s) where
  beginString := rfl
  sender := rfl
  target := rfl
  nextOut := (by decide : 1 < 2 ^ 32)
  sent := drop_nil.symm
  ascending := List.Pairwise.nil
  below := nofun
  application := nofun

theorem Session.sendingTime_header (s : Session) (clock : Clock) (msgType : String) (seq : ℕ) :
    (((s.header clock msgType seq none).find? (·.1 == 52)).map (·.2)).getD "" =
      (clock.sendingTime seq).text :=
  rfl

theorem Outbox.Stored.send {o' : Outbox} {m : Outbound} (h : Outbox.Stored s o)
    (hs : o.send m = some o') : Outbox.Stored s o' := by
  obtain ⟨⟨s', result⟩, he, heq⟩ := Option.map_eq_some_iff.1 hs
  simp only [Session.encode] at he
  cases hby : encode o.session.beginString
      (o.session.header m.clock m.msgType o.session.nextOut none ++ m.body) with
  | error e =>
    simp only [hby] at he
    cases he
    cases heq
    exact { h with }
  | ok bytes =>
    simp only [hby] at he
    obtain ⟨next, hn, hout⟩ := Option.map_eq_some_iff.1 he
    cases hout
    cases heq
    obtain ⟨rfl, hlt⟩ := checkedAdd_eq_some.1 hn
    cases had : adminTypes.contains m.msgType with
    | true =>
      simp only [if_true, append_nil]
      exact { h with nextOut := hlt, below := fun m' hm' => Nat.lt_succ_of_lt (h.below m' hm') }
    | false =>
      simp only [Bool.false_eq_true, if_false]
      refine ⟨h.beginString, h.sender, h.target, hlt, ?_, ?_, ?_, ?_⟩
      · rw [h.sent, keepLast_concat, sendingTime_header]
      · rw [Ascending, map_append, pairwise_append]
        exact ⟨h.ascending, pairwise_singleton _ _,
          forall_mem_map.2 fun m' hm' => forall_mem_singleton.2 (h.below m' hm')⟩
      · exact forall_mem_append.2 ⟨fun m' hm' => Nat.lt_succ_of_lt (h.below m' hm'),
          forall_mem_singleton.2 (Nat.lt_succ_self _)⟩
      · exact forall_mem_append.2 ⟨h.application, forall_mem_singleton.2 had⟩

theorem Outbox.Stored.sendAll {ms : List Outbound} :
    ∀ {o o' : Outbox}, Outbox.Stored s o → o.sendAll ms = some o' → Outbox.Stored s o' := by
  induction ms with
  | nil =>
    intro o o' h hs
    cases hs
    exact h
  | cons m ms ih =>
    intro o o' h hs
    obtain ⟨o₁, hf, hr⟩ := Option.bind_eq_some_iff.1 hs
    exact ih (h.send hf) hr

def Outbox.answer (o : Outbox) (clock : Clock) (first : ℕ) : List Bytes :=
  (o.session.onResendRequest clock (resendRequest first)).2

/-- The pieces the answer should have, from everything that was sent. -/
def Outbox.pieces (o : Outbox) (first : ℕ) : List Item :=
  plan o.log (o.session.nextOut - first) first none

/-- The answer brings the peer to the sender's next number, hands exactly the application messages
it had missed to the application, in order and with their bodies, and has it send nothing. -/
def Heals (lossy : Lossy) (clock peerClock : Clock) (o : Outbox) (p : Session) : Prop :=
  ∃ p' outs, p.feed lossy peerClock (o.answer clock p.nextIn) = some (p', outs) ∧
    p'.nextIn = o.session.nextOut ∧
    outs.flatMap (·.app.toList) = ((o.log.filter (p.nextIn ≤ ·.seq)).map fun m =>
      { fields := o.session.resendFields clock m }) ∧
    ∀ out ∈ outs, out.send = [] ∧ out.close = none

theorem Outbox.Stored.answer_eq (h : Outbox.Stored s o) (clock : Clock)
    (hf : 1 ≤ first) (hl : first ≤ o.session.nextOut - 1)
    (hro : (o.log.filter (first ≤ ·.seq)).length ≤ resendStore) :
    o.answer clock first = (o.pieces first).flatMap (Item.frames o.session clock) := by
  have hne := h.nextOut
  have hget : (resendRequest first).get 7 = some (toString first) := rfl
  have ho : (resendRequest first).get 16 = some "0" := rfl
  have hz : parseUnsigned 32 (utf8 "0") = some 0 := by decide
  have hr : o.session.nextOut - 1 + 1 - first = o.session.nextOut - first := by omega
  simp only [Outbox.answer, onResendRequest, resend, hget, ho, hz,
    Option.bind_some, parseUnsigned_toString (show first < 2 ^ 32 by omega), Option.getD_some,
    true_or, if_true, max_eq_left hf, hr, resendLoop_eq_plan]
  rw [Outbox.pieces, h.sent, plan_congr fun n hn => h.ascending.find?_keepLast hro hn]

theorem Outbox.tiles (hl : first ≤ o.session.nextOut) :
    Tiles first o.session.nextOut (o.pieces first) := by
  have ht := plan_tiles o.log (o.session.nextOut - first) first none nofun
  rwa [Option.getD_none, Nat.add_sub_cancel' hl] at ht

theorem Outbox.Stored.resent_pieces (h : Outbox.Stored s o) (clock : Clock)
    (hl : first ≤ o.session.nextOut) :
    resent o.session clock (o.pieces first) = (o.log.filter (first ≤ ·.seq)).map fun m =>
      { fields := o.session.resendFields clock m } := by
  rw [resent, Outbox.pieces, plan_apps, h.ascending.filterMap_find?]
  intro m hm
  have := h.below m hm
  omega

theorem Outbox.Stored.heals_iff (h : Outbox.Stored s o) (lossy : Lossy) (clock peerClock : Clock)
    (hb : soh ∉ utf8 s.beginString) (hm : Mirrors s p) (hf : 1 ≤ p.nextIn)
    (hl : p.nextIn ≤ o.session.nextOut - 1)
    (hro : (o.log.filter (p.nextIn ≤ ·.seq)).length ≤ resendStore) :
    Heals lossy clock peerClock o p ↔
      ∀ item ∈ o.pieces p.nextIn, Carried (item.fields o.session clock) := by
  have hle : p.nextIn ≤ o.session.nextOut := by omega
  have ht : Tiles p.nextIn o.session.nextOut (o.pieces p.nextIn) := Outbox.tiles hle
  have hb' : soh ∉ utf8 o.session.beginString := by rwa [h.beginString]
  have hm' : Mirrors o.session p := ⟨hm.target.trans h.sender.symm, hm.sender.trans h.target.symm⟩
  have happ : ∀ item ∈ o.pieces p.nextIn, item.Application := by
    intro item hi
    cases item with
    | app stored =>
      have ha : stored ∈ (o.pieces p.nextIn).flatMap Item.apps :=
        mem_flatMap.2 ⟨_, hi, mem_singleton.2 rfl⟩
      rw [Outbox.pieces, plan_apps, mem_filterMap] at ha
      obtain ⟨n, -, hs⟩ := ha
      exact h.application stored (mem_of_find?_eq_some hs)
    | fill _ _ => trivial
  rw [Heals, h.answer_eq clock hf hl hro, ← h.resent_pieces clock hle]
  constructor
  · rintro ⟨p', outs, hfe, hend, hr, -⟩
    exact ht.carried hb' h.nextOut happ hm' rfl hfe hend hr
  · intro hc
    exact ht.followed hb' h.nextOut happ hc hm' rfl

/-- The answer heals the gap exactly when each of its pieces is a message the framer carries: the
stored messages with the two fields that a resend adds, and the gap fills between them. -/
theorem resend_heals_iff (lossy : Lossy) (clock peerClock : Clock) (s p : Session)
    (ms : List Outbound) (o : Outbox) (hsent : (Outbox.start s).sendAll ms = some o)
    (hbegin : soh ∉ utf8 s.beginString) (hmirror : Mirrors s p) (hfirst : 1 ≤ p.nextIn)
    (hlast : p.nextIn ≤ o.session.nextOut - 1)
    (hroom : (o.log.filter (p.nextIn ≤ ·.seq)).length ≤ resendStore) :
    Heals lossy clock peerClock o p ↔
      ∀ item ∈ o.pieces p.nextIn, Carried (item.fields o.session clock) :=
  ((Outbox.start_stored s).sendAll hsent).heals_iff lossy clock peerClock hbegin hmirror hfirst
    hlast hroom

def Clock.stopped : Clock :=
  { now := 0
    sendingTime := fun _ => ⟨2024, 5, 6, 7, 8, 9, 10⟩
    origSendingTime := fun _ => ⟨2024, 5, 6, 7, 8, 9, 10⟩ }

def acceptor : Session := .new "FIX.4.4" "SELL" "BUY" 30 0

def initiator : Session := .new "FIX.4.4" "BUY" "SELL" 30 0

def text (n : ℕ) : String := String.ofList (replicate n 'x')

theorem utf8_text (n : ℕ) : utf8 (text n) = replicate n 120 := by
  rw [text, utf8_ofList]
  induction n with
  | zero => rfl
  | succ n ih =>
    rw [replicate_succ, flatMap_cons, ih]
    rfl

def heartbeat : Outbound := { clock := .stopped, msgType := "0", body := [] }

def news (n : ℕ) : Outbound := { clock := .stopped, msgType := "B", body := [(58, text n)] }

def newsStored (seq n : ℕ) : Sent :=
  { seq := seq
    msgType := "B"
    sendingTime := (Clock.stopped.sendingTime seq).text
    body := (news n).body }

/-- The acceptor after a number of messages, of which the one numbered `seq` was such news. -/
def newsSent (nextOut seq n : ℕ) : Outbox :=
  { session := { acceptor with nextOut := nextOut, sent := [newsStored seq n] }
    log := [newsStored seq n] }

theorem resend_heals_iff_amid_heartbeats :
    (Outbox.start acceptor).sendAll [heartbeat, heartbeat, news 5, heartbeat] =
        some (newsSent 5 3 5) ∧ Heals .strict .stopped .stopped (newsSent 5 3 5) initiator := by
  have hs : (Outbox.start acceptor).sendAll [heartbeat, heartbeat, news 5, heartbeat] =
      some (newsSent 5 3 5) := by decide +kernel
  refine ⟨hs, ?_⟩
  refine (resend_heals_iff .strict .stopped .stopped acceptor initiator _ _ hs (by decide)
    ⟨rfl, rfl⟩ (by decide) (by decide) (by decide)).2 ?_
  decide +kernel

theorem length_renderAll_news (fields : List Field) (n : ℕ) :
    (renderAll (fields ++ (news n).body)).length = (renderAll fields).length + n + 4 := by
  have htag : (utf8 (toString 58)).length = 2 := by decide
  simp only [news, renderAll_append, renderAll_cons, renderAll_nil, renderField, utf8_text,
    length_append, length_cons, length_nil, length_replicate, htag]
  omega

theorem encode_news (h : 54 + n ≤ maxBody) : acceptor.encode .stopped "B" (news n).body =
      some ((newsSent 2 1 n).session, .ok (wire acceptor.beginString
        (acceptor.header .stopped "B" 1 none ++ (news n).body))) := by
  have hh : (renderAll (acceptor.header .stopped "B" 1 none)).length = 50 := by decide
  have hl : (renderAll (acceptor.header .stopped "B" 1 none ++ (news n).body)).length ≤
      maxBody := by
    rw [length_renderAll_news, hh]
    omega
  have he : encode acceptor.beginString
      (acceptor.header .stopped "B" acceptor.nextOut none ++ (news n).body) = .ok _ :=
    encode_of_writable (forall_mem_append.2 ⟨by decide, forall_mem_singleton.2
      (by simp [writable, utf8_text, soh])⟩) hl
  have hn : checkedAdd 32 acceptor.nextOut 1 = some 2 := by decide
  have ha : adminTypes.contains "B" = false := by decide
  have hem : acceptor.sent = [] := rfl
  have hk : ∀ m : Sent, keepLast resendStore [m] = [m] := fun m => by
    simp [keepLast, resendStore]
  simp only [Session.encode, he, hn, Option.map_some, ha, Session.sendingTime_header,
    Bool.false_eq_true, if_false, hem, nil_append, hk]
  rfl

theorem sendAll_news (h : 54 + n ≤ maxBody) :
    (Outbox.start acceptor).sendAll [news n] = some (newsSent 2 1 n) := by
  have hs : (Outbox.start acceptor).send (news n) = some (newsSent 2 1 n) := by
    have ha : adminTypes.contains (news n).msgType = false := by
      change adminTypes.contains "B" = false
      decide
    change Option.map _ (acceptor.encode .stopped "B" (news n).body) = _
    simp only [encode_news h, Option.map_some, ha]
    rfl
  rw [Outbox.sendAll, hs]
  rfl

/-- With the two fields that a resend adds, this message is over the limit. It is left out of the
answer, and the peer stays where it was. -/
theorem resend_drops_oversized :
    (Outbox.start acceptor).sendAll [news 262090] = some (newsSent 2 1 262090) ∧
      Mirrors acceptor initiator ∧ 1 ≤ initiator.nextIn ∧
      initiator.nextIn ≤ (newsSent 2 1 262090).session.nextOut - 1 ∧
      ((newsSent 2 1 262090).log.filter (initiator.nextIn ≤ ·.seq)).length ≤ resendStore ∧
      ¬Heals .strict .stopped .stopped (newsSent 2 1 262090) initiator := by
  have hs : (Outbox.start acceptor).sendAll [news 262090] = some (newsSent 2 1 262090) :=
    sendAll_news (by decide)
  have hr : ((newsSent 2 1 262090).log.filter (initiator.nextIn ≤ ·.seq)).length ≤ resendStore :=
    Nat.le_trans (length_filter_le _ _) (by decide : 1 ≤ resendStore)
  refine ⟨hs, ⟨rfl, rfl⟩, le_rfl, le_rfl, hr, ?_⟩
  intro hhe
  have hp : (newsSent 2 1 262090).pieces 1 = [.app (newsStored 1 262090)] := rfl
  have hall := (((Outbox.start_stored acceptor).sendAll hs).heals_iff .strict .stopped
    .stopped (by decide) ⟨rfl, rfl⟩ le_rfl le_rfl hr).1 hhe
  have hb := (hall (.app (newsStored 1 262090)) (hp ▸ mem_singleton_self _)).body_le
  have hh : (renderAll (acceptor.header .stopped "B" 1
      (some (Clock.stopped.sendingTime 1).text))).length = 81 := by decide
  change (renderAll (acceptor.header .stopped "B" 1 (some (Clock.stopped.sendingTime 1).text) ++
    (news 262090).body)).length ≤ maxBody at hb
  rw [length_renderAll_news, hh] at hb
  exact absurd hb (by decide)

end NetGet.Fix
