import NetGet.Library.Fallible
import NetGet.Library.Machine
import NetGet.Model.Capnp

/-! # Bounds and budget of the reader

Indices rely on the check made when a pointer was resolved, so the invariant is about all readers. -/

namespace NetGet.Capnp

open Library List Option
open Machine

/-- The computation does not panic, and its result has `P`. -/
abbrev Safe {α : Type} (P : α → Prop) (r : Result α) : Prop := Ensures (· ≠ Failure.panic) P r

theorem safe_ensure (condition : Bool) (reason : String) :
    Safe (fun _ => condition = true) (ensure condition reason) := by
  cases condition with
  | true => exact .ok rfl
  | false => exact .error nofun

theorem safe_unsigned {w n : ℕ} (h : n < 2 ^ w) : Safe (fun r => r = n) (unsigned w n) := by
  rw [unsigned, if_pos h]
  exact .ok rfl

theorem safe_signed64 {i : ℤ} (hlow : -2 ^ 63 ≤ i) (hh : i < 2 ^ 63) :
    Safe (fun r => r = i) (signed64 i) := by
  rw [signed64, if_pos ⟨hlow, hh⟩]
  exact .ok rfl

/-- The segment exists and reaches up to `stop`. -/
def Message.Reaches (m : Message) (seg stop : ℕ) : Prop :=
  ∃ s, m.segments[seg]? = some s ∧ stop ≤ s.length

namespace Message

variable {m : Message}

theorem Reaches.lt {seg stop : ℕ} (h : m.Reaches seg stop) : stop < 2 ^ 60 := by
  obtain ⟨s, hs, hst⟩ := h
  exact Nat.lt_of_le_of_lt hst (m.length_lt s (mem_of_getElem? hs))

theorem Reaches.mono {seg stop stop' : ℕ} (h : m.Reaches seg stop) (hle : stop' ≤ stop) :
    m.Reaches seg stop' := by
  obtain ⟨s, hs, hst⟩ := h
  exact ⟨s, hs, Nat.le_trans hle hst⟩

theorem safe_word (m : Message) (seg pos : ℕ) :
    Safe (fun _ => m.Reaches seg (pos + 1)) (m.word seg pos) := by
  refine (Ensures.elim nofun).mono fun w hw => ?_
  obtain ⟨s, hs, hpos⟩ := Option.bind_eq_some_iff.1 hw
  exact ⟨s, hs, (List.getElem?_eq_some_iff.1 hpos).1⟩

theorem safe_index {seg pos : ℕ} (h : m.Reaches seg (pos + 1)) :
    Safe (fun _ => True) (m.index seg pos) := by
  obtain ⟨s, hs, hpos⟩ := h
  rw [index, hs, bind_some, getElem?_eq_getElem hpos]
  exact .ok trivial

theorem safe_checkRange {seg start words : ℕ} (h : start + words < 2 ^ 64) :
    Safe (fun _ => m.Reaches seg (start + words)) (m.checkRange seg start words) := by
  refine (Ensures.elim nofun).bind fun s hs => ?_
  refine (safe_unsigned h).bind fun stop hst => ?_
  refine (safe_ensure _ _).mono fun _ hle => ?_
  subst hst
  exact ⟨s, hs, of_decide_eq_true hle⟩

end Message

def ListReader.span (l : ListReader) : ℕ :=
  if l.size = .composite then l.len * (l.dataWords + l.ptrCount)
  else (l.len * l.size.width + 63) / 64

structure StructReader.InBounds (m : Message) (s : StructReader) : Prop where
  ptrs_eq : s.ptrs = s.data + s.dataWords
  reaches : m.Reaches s.seg (s.ptrs + s.ptrCount)

structure ListReader.InBounds (m : Message) (l : ListReader) : Prop where
  reaches : m.Reaches l.seg (l.start + l.span)
  words_eq : l.size ≠ .composite → l.words = l.span
  len_lt : l.len < 2 ^ 32
  layout_lt : l.dataWords + l.ptrCount < 2 ^ 17

def Target.InBounds (m : Message) : Target → Prop
  | .struct s => s.InBounds m
  | .list l => l.InBounds m
  | _ => True

/-- The size in words of a struct or list, or its number of elements if these take no room, and at
least 1. -/
def Target.cost : Target → ℕ
  | .null => 0
  | .struct s => max 1 (s.dataWords + s.ptrCount)
  | .list l =>
    match l.size with
    | .void => max 1 l.len
    | .composite => max 1 (if l.dataWords + l.ptrCount = 0 then l.len else l.words)
    | size => max 1 ((l.len * size.width + 63) / 64)
  | .capability _ => 0

namespace Message

variable {m : Message} {l : Located} {depth : ℕ} {t : Target}

def Placed (l : Located) : Prop := 0 ≤ l.origin ∧ l.origin ≤ 2 ^ 60

theorem pad_lt (word : Word) : ((word >>> 3) &&& 0x1fffffff).toNat < 2 ^ 29 := by
  rw [BitVec.toNat_and]
  exact Nat.lt_of_le_of_lt Nat.and_le_right (by decide)

theorem safe_locate (m : Message) (seg pos : ℕ) :
    Safe (fun o => ∀ l ∈ o, Placed l) (m.locate seg pos) := by
  refine (m.safe_word seg pos).bind fun word hw => ?_
  have hpos := hw.lt
  split
  · exact .ok nofun
  refine (safe_signed64 (by omega) (by omega)).bind fun origin ho => ?_
  subst ho
  split
  · have hpad := pad_lt word
    simp only
    split
    · refine (m.safe_word _ _).bind fun word' _ => ?_
      refine (safe_ensure _ _).bind fun _ _ => ?_
      refine (safe_signed64 (by omega) (by omega)).bind fun origin ho => ?_
      subst ho
      refine .ok ?_
      rintro l ⟨rfl⟩
      exact ⟨by simp only; omega, by simp only; omega⟩
    refine (m.safe_word _ _).bind fun landing _ => ?_
    refine (safe_unsigned (by omega)).bind fun next _ => ?_
    refine (m.safe_word _ _).bind fun tag _ => ?_
    refine (safe_ensure _ _).bind fun _ _ => ?_
    refine (safe_ensure _ _).bind fun _ _ => ?_
    have hpad' := pad_lt landing
    refine .ok ?_
    rintro l ⟨rfl⟩
    exact ⟨by simp only; omega, by simp only; omega⟩
  · refine .ok ?_
    rintro l ⟨rfl⟩
    exact ⟨by simp only; omega, by simp only; omega⟩

theorem offset_bounds (l : Located) : -2 ^ 31 ≤ l.offset ∧ l.offset < 2 ^ 31 := by
  rw [Located.offset]
  split
  · decide
  · exact ⟨BitVec.le_toInt _, BitVec.toInt_lt⟩

theorem safe_start (h : Placed l) : Safe (fun start => start < 2 ^ 61) (start l) := by
  obtain ⟨hlow, hh⟩ := h
  obtain ⟨ho, ho'⟩ := offset_bounds l
  refine (safe_signed64 (by omega) (by omega)).bind fun start hs => ?_
  refine (safe_ensure _ _).bind fun _ _ => ?_
  exact .ok (by omega)

theorem safe_structTarget (hp : Placed l) (hd : depth ≤ maxDepth) :
    Safe (Target.InBounds m) (m.structTarget l depth) := by
  have hda : (l.word >>> 32).toNat % 2 ^ 16 < 2 ^ 16 := Nat.mod_lt _ (by decide)
  have hpt : (l.word >>> 48).toNat % 2 ^ 16 < 2 ^ 16 := Nat.mod_lt _ (by decide)
  rw [maxDepth] at hd
  refine (safe_start hp).bind fun start hs => ?_
  refine (safe_unsigned (by omega)).bind fun size hsi => ?_
  subst hsi
  refine (safe_checkRange (by omega)).bind fun _ hr => ?_
  refine (safe_unsigned (by omega)).bind fun ptrs hpe => ?_
  refine (safe_unsigned (by omega)).bind fun depth' _ => ?_
  subst hpe
  exact .ok ⟨rfl, by rw [Nat.add_assoc]; exact hr⟩

theorem safe_compositeTarget {seg start words : ℕ} (hs : start < 2 ^ 61)
    (hw : words < 2 ^ 32) (hd : depth ≤ maxDepth) :
    Safe (Target.InBounds m) (m.compositeTarget seg start words depth) := by
  rw [maxDepth] at hd
  refine (safe_unsigned (by omega)).bind fun range hra => ?_
  subst hra
  refine (safe_checkRange (by omega)).bind fun _ hr => ?_
  refine (m.safe_word _ _).bind fun tag _ => ?_
  refine (safe_ensure _ _).bind fun _ _ => ?_
  have hlen : tag.toNat % 2 ^ 32 / 4 < 2 ^ 32 :=
    Nat.lt_of_le_of_lt (Nat.div_le_self _ _) (Nat.mod_lt _ (by decide))
  have hda : (tag >>> 32).toNat % 2 ^ 16 < 2 ^ 16 := Nat.mod_lt _ (by decide)
  have hpt : (tag >>> 48).toNat % 2 ^ 16 < 2 ^ 16 := Nat.mod_lt _ (by decide)
  refine (safe_unsigned (by omega)).bind fun per hper => ?_
  subst hper
  have hp : tag.toNat % 2 ^ 32 / 4 *
      ((tag >>> 32).toNat % 2 ^ 16 + (tag >>> 48).toNat % 2 ^ 16) ≤ 2 ^ 32 * 2 ^ 17 :=
    Nat.mul_le_mul (Nat.le_of_lt hlen) (by omega)
  refine (safe_unsigned (by omega)).bind fun size hsi => ?_
  subst hsi
  refine (safe_ensure _ _).bind fun _ hfi => ?_
  refine (safe_unsigned (by omega)).bind fun first hf => ?_
  refine (safe_unsigned (by omega)).bind fun depth' _ => ?_
  subst hf
  refine .ok ⟨hr.mono ?_, fun h => absurd rfl h, hlen, by simp only; omega⟩
  have hle := of_decide_eq_true hfi
  simp only [ListReader.span, if_true]
  omega

theorem width_le (size : ElementSize) : size.width ≤ 64 := by
  cases size <;> decide

theorem safe_listTarget (hp : Placed l) (hd : depth ≤ maxDepth) :
    Safe (Target.InBounds m) (m.listTarget l depth) := by
  have hc : (l.word >>> 35).toNat % 2 ^ 32 < 2 ^ 32 := Nat.mod_lt _ (by decide)
  refine (safe_start hp).bind fun start hs => ?_
  split_ifs with hsi
  · exact safe_compositeTarget hs hc hd
  have hb : (l.word >>> 35).toNat % 2 ^ 32 *
      (ElementSize.fromBits ((l.word >>> 32) &&& 7).toNat).width ≤ 2 ^ 32 * 64 :=
    Nat.mul_le_mul (Nat.le_of_lt hc) (width_le _)
  rw [maxDepth] at hd
  refine (safe_unsigned (by omega)).bind fun bits hbe => ?_
  subst hbe
  refine (safe_checkRange (by omega)).bind fun _ hr => ?_
  refine (safe_unsigned (by omega)).bind fun depth' _ => ?_
  have hsp : ∀ l' : ListReader, l'.size = _ → l'.span = _ := fun l' h => if_neg (h ▸ hsi)
  refine .ok ⟨?_, ?_, hc, Nat.two_pow_pos 17⟩
  · rw [hsp _ rfl]
    exact hr
  · intro _
    rw [hsp _ rfl]

theorem safe_target (hp : Placed l) (hd : depth ≤ maxDepth) :
    Safe (Target.InBounds m) (m.target l depth) := by
  rw [target]
  split
  · exact safe_structTarget hp hd
  split
  · exact safe_listTarget hp hd
  · split
    · exact (safe_ensure _ _).bind fun _ _ => .ok trivial
    · exact .error nofun

theorem safe_resolve (seg pos : ℕ) (hd : depth ≤ maxDepth) :
    Safe (Target.InBounds m) (m.resolve seg pos depth) := by
  refine (m.safe_locate seg pos).bind fun o ho => ?_
  cases o with
  | none => exact .ok trivial
  | some l => exact safe_target (ho l rfl) hd

/-- A pointer was followed safely: what it points at is in bounds and paid for. -/
structure Followed (m : Message) (budget : ℕ) (r : Result Target × ℕ) : Prop where
  safe : Safe (fun t => t.InBounds m ∧ r.2 + t.cost ≤ budget) r.1
  le : r.2 ≤ budget

theorem Followed.failed {budget : ℕ} {e : Failure} (h : e ≠ .panic) :
    Followed m budget (.error e, budget) := ⟨.error h, Nat.le_refl _⟩

theorem cost_le_toll (ht : t.InBounds m) {words : ℕ} (h : toll t = some words) :
    t.cost ≤ max words 1 := by
  cases t with
  | null | capability => cases h
  | struct s =>
    cases h
    exact Nat.le_of_eq (Nat.max_comm _ _)
  | list l =>
    simp only [toll] at h
    simp only [Target.cost]
    cases hs : l.size with
    | void =>
      simp only [hs, some.injEq] at h ⊢
      omega
    | composite =>
      simp only [hs, some.injEq] at h ⊢
      split <;> omega
    | bit | byte | twoBytes | fourBytes | eightBytes | pointer =>
      have hw := ht.words_eq (by rw [hs]; decide)
      rw [ListReader.span, hs, if_neg (by decide)] at hw
      simp only [hs, some.injEq] at h ⊢
      omega

theorem cost_of_free (h : toll t = none) : t.cost = 0 := by
  cases t with
  | null | capability => rfl
  | struct s => cases h
  | list l =>
    simp only [toll] at h
    split at h <;> cases h

theorem safe_charge (budget words : ℕ) :
    Safe (fun left => left + max words 1 = budget) (charge budget words) := by
  refine (safe_ensure _ _).bind fun _ hle => ?_
  exact .ok (Nat.sub_add_cancel (of_decide_eq_true hle))

theorem followed_follow (budget seg pos depth : ℕ) :
    Followed m budget (m.follow budget seg pos depth) := by
  have hd := safe_ensure (depth ≤ maxDepth) s!"nesting deeper than {maxDepth}"
  simp only [follow]
  cases he : ensure (depth ≤ maxDepth) s!"nesting deeper than {maxDepth}" with
  | error e => exact .failed (hd.of_eq_error he)
  | ok _ =>
    have hr := safe_resolve (m := m) seg pos (of_decide_eq_true (hd.of_eq_ok he))
    simp only
    cases ht : m.resolve seg pos depth with
    | error e => exact .failed (hr.of_eq_error ht)
    | ok t =>
      have hb := hr.of_eq_ok ht
      simp only
      cases hto : toll t with
      | none =>
        have hf := cost_of_free hto
        refine ⟨.ok ⟨hb, ?_⟩, Nat.le_refl _⟩
        simp only
        omega
      | some words =>
        have hco := cost_le_toll hb hto
        simp only
        cases hc : charge budget words with
        | error e => exact .failed ((safe_charge budget words).of_eq_error hc)
        | ok left =>
          have hl := (safe_charge budget words).of_eq_ok hc
          refine ⟨.ok ⟨hb, ?_⟩, ?_⟩
          · simp only
            omega
          · simp only
            omega

theorem followed_root (m : Message) (budget : ℕ) : Followed m budget (m.root budget) := by
  rw [root]
  split
  · rename_i he
    exact .failed ((safe_ensure _ _).of_eq_error he)
  · exact followed_follow budget 0 0 0

end Message

open Message

variable {m : Message} {s : StructReader}

namespace StructReader

variable {s : StructReader} {t : Target}

theorem InBounds.safe_bits (h : s.InBounds m) {offset bits : ℕ} (hw : offset % 64 + bits ≤ 64) :
    Safe (fun _ => True) (s.bits m offset bits) := by
  rw [StructReader.bits]
  split
  · exact .ok trivial
  rename_i hd
  have hp := h.ptrs_eq
  have hr : m.Reaches s.seg (s.data + offset / 64 + 1) := h.reaches.mono (by omega)
  have hlt := hr.lt
  refine (safe_unsigned (by omega)).bind fun pos hpos => ?_
  subst hpos
  refine (safe_index hr).bind fun w _ => ?_
  split
  · exact .ok trivial
  · rw [if_pos (by omega)]
    exact .ok trivial

theorem InBounds.followed_pointer (h : s.InBounds m) (budget index : ℕ) :
    Followed m budget (s.pointer m budget index) := by
  rw [pointer]
  split_ifs with hi
  · exact ⟨.ok ⟨trivial, Nat.le_refl _⟩, Nat.le_refl _⟩
  have hlt := h.reaches.lt
  have hs : Safe (fun r => r = s.ptrs + index) (unsigned 64 (s.ptrs + index)) :=
    safe_unsigned (by omega)
  cases hpos : unsigned 64 (s.ptrs + index) with
  | error e => exact .failed (hs.of_eq_error hpos)
  | ok pos => exact followed_follow budget s.seg pos s.depth

theorem safe_asList (index : ℕ) (ht : t.InBounds m) :
    Safe (fun o => ∀ l ∈ o, l.InBounds m) (asList index t) := by
  cases t with
  | null => exact .ok nofun
  | struct | capability => exact .error nofun
  | list l =>
    refine .ok ?_
    rintro l' ⟨rfl⟩
    exact ht

theorem InBounds.safe_listField (h : s.InBounds m) (budget index : ℕ) :
    Safe (fun o => ∀ l ∈ o, l.InBounds m) (s.listField m budget index).1 :=
  (h.followed_pointer budget index).safe.bind fun _ ht => safe_asList index ht.1

end StructReader

namespace ListReader

variable {l : ListReader}

theorem InBounds.safe_word (h : l.InBounds m) {i : ℕ} (hi : i < l.span) :
    Safe (fun _ => True) (l.word m i) := by
  have hr : m.Reaches l.seg (l.start + i + 1) := h.reaches.mono (by omega)
  have hlt := hr.lt
  refine (safe_unsigned (by omega)).bind fun pos hpos => ?_
  subst hpos
  exact safe_index hr

theorem word_lt_span (hs : l.size ≠ .composite) {i : ℕ} (hi : i < l.len)
    (hw : 0 < l.size.width) : i * l.size.width / 64 < l.span := by
  have hb : (i + 1) * l.size.width ≤ l.len * l.size.width := Nat.mul_le_mul_right _ hi
  rw [Nat.succ_mul] at hb
  rw [span, if_neg hs]
  omega

section

variable (h : l.InBounds m)

include h

theorem InBounds.safe_bytes : Safe (fun _ => True) (l.bytes m) := by
  refine (safe_ensure _ _).bind fun _ hs => ?_
  have hb : l.size = .byte := of_decide_eq_true hs
  refine Ensures.mapM fun i hi => ?_
  have hw := word_lt_span (l := l) (by rw [hb]; decide) (List.mem_range.1 hi)
    (by rw [hb]; decide)
  rw [hb] at hw
  have heq : i * ElementSize.byte.width / 64 = i / 8 := by
    change i * 8 / 64 = i / 8
    omega
  rw [heq] at hw
  exact (h.safe_word hw).bind fun _ _ => .ok trivial

theorem InBounds.safe_text : Safe (fun _ => True) (l.text m) := by
  refine h.safe_bytes.bind fun bytes _ => ?_
  refine (safe_ensure _ _).bind fun _ _ => ?_
  exact (Ensures.elim nofun).mono fun _ _ => trivial

theorem InBounds.safe_primitive (i : ℕ) : Safe (fun _ => True) (l.primitive m i) := by
  refine (safe_ensure _ _).bind fun _ hi => ?_
  have hlt : i < l.len := of_decide_eq_true hi
  split
  · exact .error nofun
  rename_i hc
  split
  · exact .error nofun
  split
  · exact .ok trivial
  rename_i hw
  have hb : i * l.size.width ≤ 2 ^ 32 * 64 :=
    Nat.mul_le_mul (Nat.le_of_lt (Nat.lt_trans hlt h.len_lt)) (width_le _)
  refine (safe_unsigned (by omega)).bind fun bit hbit => ?_
  subst hbit
  refine (h.safe_word (word_lt_span hc hlt (by omega))).bind fun w _ => ?_
  simp only
  split <;> exact .ok trivial

theorem InBounds.safe_structAt (i : ℕ) : Safe (StructReader.InBounds m) (l.structAt i) := by
  refine (safe_ensure _ _).bind fun _ hi => ?_
  refine (safe_ensure _ _).bind fun _ hsi => ?_
  have hlt : i < l.len := of_decide_eq_true hi
  have hc : l.size = .composite := of_decide_eq_true hsi
  have hl := h.layout_lt
  have he : (l.dataWords + l.ptrCount) * (i + 1) ≤ l.span := by
    rw [span, if_pos hc, Nat.mul_comm l.len]
    exact Nat.mul_le_mul_left _ hlt
  rw [Nat.mul_succ] at he
  have hr := h.reaches.lt
  refine (safe_unsigned (by omega)).bind fun per hper => ?_
  subst hper
  refine (safe_unsigned (by omega)).bind fun skipped hs => ?_
  subst hs
  refine (safe_unsigned (by omega)).bind fun pos hpos => ?_
  subst hpos
  refine (safe_unsigned (by omega)).bind fun ptrs hp => ?_
  subst hp
  exact .ok ⟨rfl, h.reaches.mono (by simp only; omega)⟩

theorem InBounds.followed_pointerAt (budget i : ℕ) :
    Followed m budget (l.pointerAt m budget i) := by
  rw [pointerAt]
  have hp : Safe (fun _ => True) (do
      ensure (i < l.len) "index past the list"
      ensure (l.size = .pointer) "expected a pointer list"
      unsigned 64 (l.start + i)) := by
    refine (safe_ensure _ _).bind fun _ hi => ?_
    refine (safe_ensure _ _).bind fun _ _ => ?_
    have hlt : i < l.len := of_decide_eq_true hi
    have hlen := h.len_lt
    have hr := h.reaches.lt
    exact (safe_unsigned (by omega)).mono fun _ _ => trivial
  split
  · rename_i hf
    exact .failed (hp.of_eq_error hf)
  · exact followed_follow budget l.seg _ l.depth

end

end ListReader

theorem StructReader.InBounds.safe_text (h : s.InBounds m) (budget index : ℕ) :
    Safe (fun _ => True) (s.text m budget index).1 := by
  refine (h.safe_listField budget index).bind fun o ho => ?_
  cases o with
  | none => exact .ok trivial
  | some l => exact (ho l rfl).safe_text.bind fun _ _ => .ok trivial

theorem StructReader.InBounds.safe_dataField (h : s.InBounds m) (budget index : ℕ) :
    Safe (fun _ => True) (s.dataField m budget index).1 := by
  refine (h.safe_listField budget index).bind fun o ho => ?_
  cases o with
  | none => exact .ok trivial
  | some l => exact (ho l rfl).safe_bytes.bind fun _ _ => .ok trivial

/-- A range of bits does not cross a word. -/
def Call.WithinWord : Call → Prop
  | .bits _ offset n => offset % 64 + n ≤ 64
  | _ => True

instance (c : Call) : Decidable c.WithinWord := by
  cases c <;> unfold Call.WithinWord <;> infer_instance

namespace Session

/-- All readers that were given out are in bounds, and what was resolved is paid for. -/
structure Sound (m : Message) (s : Session) : Prop where
  structs : ∀ r ∈ s.structs, r.InBounds m
  lists : ∀ r ∈ s.lists, r.InBounds m
  paid : s.budget + (s.resolved.map Target.cost).sum ≤ traversalLimitWords

/-- A call ends without a panic in a sound session. -/
def Ends (m : Message) (r : Result Unit × Session) : Prop := Safe (fun _ => True) r.1 ∧ Sound m r.2

variable {s : Session} {r : Result Target × ℕ}

theorem sound_start (m : Message) : Sound m start := ⟨nofun, nofun, Nat.le_refl _⟩

section

variable (h : Sound m s)

include h

theorem Sound.visit (hr : Followed m s.budget r) : Sound m (s.visit r) := by
  refine ⟨h.structs, h.lists, ?_⟩
  have hp := h.paid
  rw [Session.visit]
  cases hre : r.1 with
  | error e =>
    have hle := hr.le
    simp only
    omega
  | ok t =>
    have hc := (hr.safe.of_eq_ok hre).2
    simp only [map_append, sum_append, map_cons, map_nil, sum_singleton]
    omega

theorem Sound.giveStruct {r : StructReader} (hr : r.InBounds m) : Sound m (s.giveStruct r) := by
  exact ⟨List.forall_mem_append.2 ⟨h.structs, List.forall_mem_singleton.2 hr⟩, h.lists, h.paid⟩

theorem Sound.giveList {r : ListReader} (hr : r.InBounds m) : Sound m (s.giveList r) := by
  exact ⟨h.structs, List.forall_mem_append.2 ⟨h.lists, List.forall_mem_singleton.2 hr⟩, h.paid⟩

theorem Sound.give {t : Target} (ht : t.InBounds m) : Sound m (s.give t) := by
  cases t with
  | null | capability => exact h
  | struct r => exact h.giveStruct ht
  | list r => exact h.giveList ht

theorem Sound.finish {α : Type} {P : α → Prop} {r : Result α} {give : Session → α → Session}
    (hr : Safe P r) (hg : ∀ a, P a → Sound m (give s a)) : Ends m (s.finish give r) := by
  cases hr with
  | ok ha => exact ⟨.ok trivial, hg _ ha⟩
  | error he => exact ⟨.error he, h⟩

theorem Sound.follow (hr : Followed m s.budget r) : Ends m ((s.visit r).finish Session.give r.1) :=
  (h.visit hr).finish hr.safe fun _ ht => (h.visit hr).give ht.1

theorem Sound.onStruct {r : StructReader} (hr : r.InBounds m) {c : Call}
    (hc : c.WithinWord) : Ends m (s.onStruct m r c) := by
  have hs : Ends m (.ok (), s) := ⟨.ok trivial, h⟩
  have hv := fun index => h.visit (hr.followed_pointer s.budget index)
  cases c with
  | pointer k index => exact h.follow (hr.followed_pointer _ _)
  | structField k index =>
    have hsa : Safe (fun o => ∀ s' ∈ o, s'.InBounds m) (r.structField m s.budget index).1 := by
      refine (hr.followed_pointer s.budget index).safe.bind fun t ht => ?_
      cases t with
      | null => exact .ok nofun
      | struct s =>
        refine .ok ?_
        rintro s' ⟨rfl⟩
        exact ht.1
      | list | capability => exact .error nofun
    refine (hv index).finish hsa fun o ho => ?_
    cases o with
    | none => exact hv index
    | some r' => exact (hv index).giveStruct (ho r' rfl)
  | listField k index =>
    refine (hv index).finish (hr.safe_listField _ _) fun o ho => ?_
    cases o with
    | none => exact hv index
    | some r' => exact (hv index).giveList (ho r' rfl)
  | text k index =>
    exact (hv index).finish (hr.safe_text _ _) fun _ _ => hv index
  | data k index =>
    exact (hv index).finish (hr.safe_dataField _ _) fun _ _ => hv index
  | bits k offset bits => exact h.finish (hr.safe_bits hc) fun _ _ => h
  | root | bytes _ | listText _ | primitive _ _ | structAt _ _ | pointerAt _ _ => exact hs

theorem Sound.onList {r : ListReader} (hr : r.InBounds m) (c : Call) : Ends m (s.onList m r c) := by
  have hs : Ends m (.ok (), s) := ⟨.ok trivial, h⟩
  cases c with
  | bytes k => exact h.finish hr.safe_bytes fun _ _ => h
  | listText k => exact h.finish hr.safe_text fun _ _ => h
  | primitive k i => exact h.finish (hr.safe_primitive i) fun _ _ => h
  | structAt k i => exact h.finish (hr.safe_structAt i) fun _ hr' => h.giveStruct hr'
  | pointerAt k i => exact h.follow (hr.followed_pointerAt _ _)
  | root | pointer _ _ | structField _ _ | listField _ _ | text _ _ | data _ _ | bits _ _ _ =>
    exact hs

theorem Sound.call {c : Call} (hc : c.WithinWord) : Ends m (s.call m c) := by
  have hs : ∀ k : ℕ, Ends m (s.structs[k]?.elim (.ok (), s) fun r => s.onStruct m r c) := by
    intro k
    cases hr : s.structs[k]? with
    | none => exact ⟨.ok trivial, h⟩
    | some r => exact h.onStruct (h.structs r (mem_of_getElem? hr)) hc
  have hl : ∀ k : ℕ, Ends m (s.lists[k]?.elim (.ok (), s) fun r => s.onList m r c) := by
    intro k
    cases hr : s.lists[k]? with
    | none => exact ⟨.ok trivial, h⟩
    | some r => exact h.onList (h.lists r (mem_of_getElem? hr)) c
  cases c with
  | root => exact h.follow (followed_root m s.budget)
  | pointer k _ | structField k _ | listField k _ | text k _ | data k _ | bits k _ _ =>
    exact hs k
  | bytes k | listText k | primitive k _ | structAt k _ | pointerAt k _ => exact hl k

end

theorem sound_run (m : Message) {calls : List Call} (h : ∀ c ∈ calls, c.WithinWord) :
    Sound m (run (step m) start calls) := by
  have hm : Meets (step m) (fun _ c => c.WithinWord) start calls := by
    rintro front c rest rfl
    exact h c (mem_append_right _ mem_cons_self)
  exact run_invariant_of_meets (sound_start m) (fun _ _ hs hc => (hs.call hc).2) calls hm

/-- Whatever a program reads, no call on its readers panics, by an index out of range or by an
overflow, and the sizes of all that was resolved for it add up to the limit at most. -/
theorem reads_in_bounds (m : Message) (calls : List Call) (h : ∀ c ∈ calls, c.WithinWord) :
    (∀ front c rest, calls = front ++ c :: rest →
      ((run (step m) start front).call m c).1 ≠ .error .panic) ∧
      ((run (step m) start calls).resolved.map Target.cost).sum ≤ traversalLimitWords := by
  constructor
  · rintro front c rest rfl hp
    have hf : ∀ c' ∈ front, c'.WithinWord := fun c' hc' => h c' (mem_append_left _ hc')
    have hc : c.WithinWord := h c (mem_append_right _ mem_cons_self)
    exact ((sound_run m hf).call hc).1.of_eq_error hp rfl
  · have hpa := (sound_run m h).paid
    omega

/-- A struct with a data word and a pointer back to itself, through a far pointer of another
segment. -/
def circular : Message where
  segments := [[2 + (1 <<< 32)], [0 + (1 <<< 32) + (1 <<< 48), 42, 2 + (1 <<< 32)]]
  length_lt := by decide

theorem reads_in_bounds_circular :
    let calls := [.root, .bits 0 0 64, .bits 0 8 16, .pointer 0 0, .structField 1 0, .bits 2 0 64]
    (run (step circular) start calls).structs.length = 3 ∧
      ((run (step circular) start calls).resolved.map Target.cost).sum ≤ traversalLimitWords :=
  ⟨by decide, (reads_in_bounds circular _ (by decide)).2⟩

end Session

end NetGet.Capnp
