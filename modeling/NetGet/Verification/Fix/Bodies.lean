import NetGet.Model.FixActions
import NetGet.Verification.Fix.Resend
import Mathlib.Tactic.SplitIfs

/-! # Bodies from actions on the wire -/

namespace NetGet.Fix

open Json Library List

variable {lossy : Lossy} {dict : Dict} {body fields : List Field} {f : Field} {tag n : ℕ}
  {value : String} {s s' : Session} {clock : Clock} {msgType : String} {bytes : Bytes}

/-- Each length field holds a number within bounds and, in front of its data field, the length of
that one. -/
def LengthsMatch : List Field → Prop
  | [] => True
  | (tag, value) :: body =>
    (∀ dataTag, (tag, dataTag) ∈ dataPairs →
      ∃ n ≤ maxBody, parseUnsigned 64 (utf8 value) = some n ∧
        ∀ data rest, body = (dataTag, data) :: rest → (utf8 data).length = n) ∧
      LengthsMatch body

/-- A field the check lets through. -/
structure Printable (f : Field) : Prop where
  tag : 1 ≤ f.1 ∧ f.1 < 10 ^ 9
  ne : f.2 ≠ ""
  soh : soh ∉ utf8 f.2

theorem soh_notMem_of_not_hasControls (h : hasControls value = false) : soh ∉ utf8 value := by
  rw [← String.ofList_toList (s := value), utf8_ofList, mem_flatMap]
  rintro ⟨c, hc, hs⟩
  have hone : c.toNat = 1 := by
    have hv : c.toNat = c.val.toNat := rfl
    have hs := congrArg UInt8.toNat (show soh = 1 from rfl) ▸ mem_map_of_mem (f := UInt8.toNat) hs
    simp only [String.utf8EncodeChar] at hs
    split_ifs at hs <;> simp at hs <;> omega
  have hf := any_eq_false.1 h c hc
  simp [isControl, hone] at hf

theorem printable_of_bodyField {v : Value} (h : bodyField dict v = .ok f) : Printable f := by
  obtain ⟨tag, ht, h⟩ := bind_eq_ok.1 h
  obtain ⟨-, -, h⟩ := bind_eq_ok.1 h
  obtain ⟨value, -, h⟩ := bind_eq_ok.1 h
  obtain ⟨u, hv, h⟩ := bind_eq_ok.1 h
  cases h
  simp only [ensure_eq_ok, Bool.and_eq_true, bne_iff_ne, Bool.not_eq_true'] at hv
  refine ⟨?_, hv.1.1, soh_notMem_of_not_hasControls hv.2⟩
  rw [fieldTagOf] at ht
  split at ht
  · split at ht <;> cases ht
    omega
  · split at ht <;> cases ht
    exact dict.fieldTag_range _ _ ‹_›
  · cases ht

theorem printable_of_bodyFields {v : Value} (h : bodyFields dict v = .ok body) :
    (∀ f ∈ body, Printable f) ∧ body.length ≤ 500 := by
  rw [bodyFields] at h
  split at h
  · split at h
    · rename_i hl
      have hm := mapM_eq_ok.1 h
      refine ⟨?_, hm.length_eq ▸ hl⟩
      clear hl h ‹v.get _ = _›
      induction hm with
      | nil => exact forall_mem_nil _
      | cons hf _ ih => exact forall_mem_cons.2 ⟨printable_of_bodyField hf, ih⟩
    · cases h
  · cases h

theorem printable_of_writable (ho : ordinary f.1 = true) (hne : f.2 ≠ "")
    (hw : writable f = true) : Printable f := by
  have hc := clean_of_writable ho hw
  simp only [clean, ordinary, Bool.and_eq_true, decide_eq_true_eq, Bool.not_eq_true',
    contains_eq_mem, decide_eq_false_iff_not] at hc
  exact ⟨hc.1.1.1, hne, hc.2⟩

theorem fits_of_printable (hf : Printable (tag, value)) {dataLen : Option (ℕ × ℕ)} :
    fits dataLen tag value = true ↔ ∀ n, dataLen = some (tag, n) → (utf8 value).length = n := by
  cases dataLen with
  | none => simp [fits, hf.ne, hf.soh]
  | some p =>
    obtain ⟨t, n⟩ := p
    by_cases ht : t = tag
    · simp [fits, Option.filter_some, ht]
    · simp [fits, Option.filter_some, ht, hf.ne, hf.soh]

theorem mem_dataPairs {dataTag : ℕ} :
    (tag, dataTag) ∈ dataPairs ↔ dataPairs.find? (·.1 == tag) = some (tag, dataTag) := by
  have h : ∀ p ∈ dataPairs, dataPairs.find? (·.1 == p.1) = some p := by decide
  exact ⟨h _, mem_of_find?_eq_some⟩

theorem wellFormed_iff (hp : ∀ f ∈ body, Printable f) {dataLen : Option (ℕ × ℕ)} :
    wellFormed dataLen body = true ↔ (∀ t n data rest, dataLen = some (t, n) →
      body = (t, data) :: rest → (utf8 data).length = n) ∧ LengthsMatch body := by
  induction body generalizing dataLen with
  | nil => simp [wellFormed, LengthsMatch]
  | cons f body ih =>
    obtain ⟨tag, value⟩ := f
    obtain ⟨hf, hp⟩ := forall_mem_cons.1 hp
    have hhead : (∀ n, dataLen = some (tag, n) → (utf8 value).length = n) ↔
        ∀ t n data rest, dataLen = some (t, n) → (tag, value) :: body = (t, data) :: rest →
          (utf8 data).length = n := by
      refine ⟨fun h t n data rest hd hb => ?_, fun h n hd => h tag n value body hd rfl⟩
      cases hb
      exact h n hd
    simp only [wellFormed, Bool.and_eq_true, decide_eq_true_eq, hf.tag, true_and,
      fits_of_printable hf, LengthsMatch, ← hhead, announces, mem_dataPairs]
    refine and_congr_right fun _ => ?_
    cases hd : dataPairs.find? (·.1 == tag) with
    | none => simp [ih hp]
    | some p =>
      obtain ⟨l, dataTag⟩ := p
      have hl : l = tag := by simpa using find?_some hd
      cases hn : (parseUnsigned 64 (utf8 value)).filter (· ≤ maxBody) with
      | none =>
        refine iff_of_false Bool.false_ne_true fun h => ?_
        obtain ⟨n, hle, hn', -⟩ := h.1 dataTag (by rw [hl])
        simp [hn', Option.filter_some, hle] at hn
      | some n =>
        obtain ⟨hn, hle⟩ := Option.filter_eq_some_iff.1 hn
        simp only [ih hp, hn, Option.some.injEq, Prod.mk.injEq]
        refine and_congr_left fun _ => ⟨?_, ?_⟩
        · rintro h _ ⟨-, rfl⟩
          exact ⟨n, by simpa using hle, rfl, fun data rest hb => h _ n data rest ⟨rfl, rfl⟩ hb⟩
        · rintro h _ _ data rest ⟨rfl, rfl⟩ hb
          obtain ⟨n', -, hn', h⟩ := h dataTag ⟨hl, rfl⟩
          exact hn' ▸ h data rest hb

/-- A session between two named parties. -/
structure Session.Named (s : Session) : Prop where
  beginString : soh ∉ utf8 s.beginString
  sender : s.sender ≠ ""
  target : s.target ≠ ""

theorem encode_of_session (h : s.encode clock msgType body = some (s', .ok bytes)) :
    Fix.encode s.beginString (s.header clock msgType s.nextOut none ++ body) = .ok bytes := by
  simp only [Session.encode] at h
  split at h
  · cases h
  · rename_i he
    obtain ⟨next, -, h⟩ := Option.map_eq_some_iff.1 h
    cases h
    exact he

theorem Timestamp.text_ne (t : Timestamp) : t.text ≠ "" := by
  simp [Timestamp.text]

/-- A message that an action asks for reads back as it was sent exactly when it has a type and its
length fields are right. -/
theorem encode_reads_iff (hn : s.Named) {v : Value} (hbody : bodyFields dict v = .ok body)
    (he : s.encode clock msgType body = some (s', .ok bytes)) (lossy : Lossy) :
    frame lossy bytes = .message s.beginString
        { fields := s.header clock msgType s.nextOut none ++ body } bytes.length ↔
      msgType ≠ "" ∧ LengthsMatch body := by
  obtain ⟨hpb, hlen⟩ := printable_of_bodyFields hbody
  have he := encode_of_session he
  obtain ⟨rfl, hle, hw⟩ := encode_eq_ok he
  have hh : s.header clock msgType s.nextOut none = [(35, msgType), (49, s.sender),
    (56, s.target), (34, toString s.nextOut), (52, (clock.sendingTime s.nextOut).text)] := rfl
  have hwf (hm : msgType ≠ "") :
      wellFormed none (s.header clock msgType s.nextOut none ++ body) = true ↔
        LengthsMatch body := by
    have hp : ∀ f ∈ s.header clock msgType s.nextOut none ++ body, Printable f := by
      have hw := (forall_mem_append.1 hw).1
      refine forall_mem_append.2 ⟨?_, hpb⟩
      have hne : toString s.nextOut ≠ "" := fun h => utf8_toString_ne_nil s.nextOut (h ▸ rfl)
      simp only [hh, forall_mem_cons] at hw ⊢
      obtain ⟨h35, h49, h56, h34, h52, -⟩ := hw
      exact ⟨printable_of_writable rfl hm h35,
        printable_of_writable rfl hn.sender h49,
        printable_of_writable rfl hn.target h56,
        printable_of_writable rfl hne h34,
        printable_of_writable rfl (Timestamp.text_ne _) h52, forall_mem_nil _⟩
    rw [wellFormed_iff hp]
    simp [hh, LengthsMatch, dataPairs]
  constructor
  · intro h
    have hc := (carried_of_frame hn.beginString he h).wellFormed
    have hm : msgType ≠ "" := by
      rintro rfl
      simp [hh, wellFormed, fits] at hc
    exact ⟨hm, (hwf hm).1 hc⟩
  · rintro ⟨hm, hl⟩
    have hc : Carried (s.header clock msgType s.nextOut none ++ body) :=
      ⟨(hwf hm).2 hl, by simp [hh, maxFields]; omega, hle⟩
    exact (hc.reads lossy hn.beginString rfl).2

def noNames : Dict where
  fieldTag _ := none
  fieldTag_range := nofun
  floatText _ := ""
  debugText := String.quote

def rawData (length : String) : Value :=
  .object [("fields", .array
    [.object [("tag", .number (.posInt 95)), ("value", .string length)],
      .object [("tag", .number (.posInt 96)), ("value", .string "x")]])]

theorem encode_reads_rawData : ∃ s' bytes,
    acceptor.encode .stopped "B" [(95, "1"), (96, "x")] = some (s', .ok bytes) ∧
      frame .strict bytes = .message "FIX.4.4"
        { fields := acceptor.header .stopped "B" 1 none ++ [(95, "1"), (96, "x")] }
        bytes.length := by
  have hn : acceptor.Named := ⟨by decide, by decide, by decide⟩
  have hb : bodyFields noNames (rawData "1") = .ok [(95, "1"), (96, "x")] := rfl
  refine ⟨_, _, rfl, (encode_reads_iff hn hb rfl .strict).2 ⟨by decide, ?_⟩⟩
  refine ⟨fun dataTag _ => ⟨1, by decide, rfl, ?_⟩, fun dataTag hd => ?_, trivial⟩
  · intro data rest h
    cases h
    rfl
  · simp [dataPairs] at hd

/-- A length that is not the length of the data is let through and sent, and not read. -/
theorem rawData_lost :
    bodyFields noNames (rawData "2") = .ok [(95, "2"), (96, "x")] ∧
      ∃ s' bytes, acceptor.encode .stopped "B" [(95, "2"), (96, "x")] = some (s', .ok bytes) ∧
        ∀ name n, frame .strict bytes ≠ .message name
          { fields := acceptor.header .stopped "B" 1 none ++ [(95, "2"), (96, "x")] } n := by
  refine ⟨rfl, _, _, rfl, fun name n h => ?_⟩
  have hc := (carried_of_frame (by decide) (encode_of_session rfl) h).wellFormed
  exact absurd hc (by decide)

end NetGet.Fix
