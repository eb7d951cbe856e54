import NetGet.Library.Footprint
import NetGet.Verification.Capnp.Readback

/-! # Deep copies

A copy allocates at the end of the message and writes only there and into its own slot. -/

namespace NetGet.Capnp

open Library List Message Packed

/-! ## The builder -/

namespace Builder

variable {b b' b₁ b₂ : Builder} {w : Word}

theorem set_eq_ok {i : ℕ} (h : b.set i w = .ok b') :
    i < b.words.length ∧ b'.words = b.words.set i w := by
  rw [set] at h
  split at h
  · rename_i hi
    cases h
    exact ⟨hi, rfl⟩
  · cases h

theorem writes_set {i : ℕ} (h : b.set i w = .ok b') :
    Writes (Row i 1) b.words b'.words 0 fun ws => ws[i]? = some w := by
  obtain ⟨hi, hw⟩ := set_eq_ok h
  rw [hw]
  exact .set hi w

theorem alloc_eq_ok {n pos : ℕ} (h : b.alloc n = .ok (b', pos)) :
    pos = b.words.length ∧ b'.words = b.words ++ List.replicate n 0 ∧
      b.words.length + n < maxMessageWords := by
  rw [alloc] at h
  split at h
  · rename_i hr
    cases h
    exact ⟨rfl, rfl, hr⟩
  · cases h

/-- An object behind a pointer: its words are allocated, the pointer is set, and then its content
is written. -/
theorem writes_object {slot n pos k : ℕ} {Q : List Word → Prop} (ha : b.alloc n = .ok (b₁, pos))
    (hset : b₁.set slot w = .ok b₂) (hslot : slot < b.words.length)
    (hc : Writes (Row pos n) b₂.words b'.words k Q) : Writes (Row slot 1) b.words b'.words (n + k)
      fun ws => b.words.length + n ≤ ws.length ∧ ws[slot]? = some w ∧ Q ws := by
  obtain ⟨rfl, hw, -⟩ := alloc_eq_ok ha
  have hp := writes_set hset
  have hl : b₁.words.length = b.words.length + n := by
    rw [hw, length_append, length_replicate]
  have hb := hp.trans hc (fun i hi => hl ▸ hi.2) fun i hi hi' => by
    unfold Row at hi hi'
    omega
  have hl' : b'.words.length = b.words.length + n + k := by
    rw [hc.length_eq, hp.length_eq, hl]
    rfl
  rw [hw] at hb
  have hf : Writes (Row slot 1) b.words b'.words _ _ := hb.fresh fun i hi => hi.imp_right And.left
  rw [length_replicate, Nat.zero_add] at hf
  exact hf.mono (fun _ hi => hi) fun ws hws hQ => ⟨by omega, hQ⟩

theorem length_of_alloc {slot n pos : ℕ} (ha : b.alloc n = .ok (b₁, pos))
    (hset : b₁.set slot w = .ok b₂) : b₂.words.length = b.words.length + n := by
  obtain ⟨-, hw, -⟩ := alloc_eq_ok ha
  rw [(writes_set hset).length_eq, hw, length_append, length_replicate]
  rfl

theorem zero_of_alloc {slot n pos i : ℕ} (ha : b.alloc n = .ok (b₁, pos))
    (hset : b₁.set slot w = .ok b₂) (hslot : slot < b.words.length) (hi : Row pos n i) :
    b₂.words[i]? = some 0 := by
  obtain ⟨rfl, hw, -⟩ := alloc_eq_ok ha
  obtain ⟨hlow, hh⟩ := hi
  obtain ⟨-, hw'⟩ := set_eq_ok hset
  rw [hw', getElem?_set_ne (by omega), hw, getElem?_append_right hlow,
    getElem?_replicate, if_pos (by omega)]

end Builder

theorem of_ensure {p : Prop} [Decidable p] {reason : String} {u : Unit}
    (h : ensure (decide p) reason = .ok u) : p := by
  rw [ensure] at h
  split at h
  · rename_i hp
    exact of_decide_eq_true hp
  · cases h

/-- The fields of a target fit the pointer word that they come from. -/
def Target.Typed (depth : ℕ) : Target → Prop
  | .null => True
  | .struct s => s.dataWords < 2 ^ 16 ∧ s.ptrCount < 2 ^ 16 ∧ s.depth = depth + 1
  | .list l =>
    l.len < 2 ^ 32 ∧ (l.size = .composite → l.len < 2 ^ 30) ∧ l.dataWords < 2 ^ 16 ∧
      l.ptrCount < 2 ^ 16 ∧ l.depth = depth + 1
  | .capability index => index < 2 ^ 32

namespace Message

variable {m : Message} {t : Target} {l : Located} {depth : ℕ}

theorem unsigned_eq_ok {w n r : ℕ} (h : unsigned w n = .ok r) : r = n := by
  rw [unsigned] at h
  split at h
  · exact (Except.ok.inj h).symm
  · cases h

theorem typed_compositeTarget {seg start words : ℕ}
    (h : m.compositeTarget seg start words depth = .ok t) : t.Typed depth ∧ t ≠ .null := by
  simp only [compositeTarget, bind_eq_ok] at h
  obtain ⟨range, -, _, -, tag, -, _, -, per, -, size, -, _, -, first, -, next, hn, h⟩ := h
  cases h
  exact ⟨⟨by simp only; omega, fun _ => by simp only; omega, Nat.mod_lt _ (by decide),
    Nat.mod_lt _ (by decide), unsigned_eq_ok hn⟩, by simp⟩

theorem typed_listTarget (h : m.listTarget l depth = .ok t) : t.Typed depth ∧ t ≠ .null := by
  obtain ⟨start, -, h⟩ := bind_eq_ok.1 h
  split_ifs at h with hs
  · exact typed_compositeTarget h
  obtain ⟨bits, -, h⟩ := bind_eq_ok.1 h
  obtain ⟨_, -, h⟩ := bind_eq_ok.1 h
  obtain ⟨next, hn, h⟩ := bind_eq_ok.1 h
  cases h
  exact ⟨⟨Nat.mod_lt _ (by decide), fun hc => absurd hc hs,
    Nat.two_pow_pos 16, Nat.two_pow_pos 16, unsigned_eq_ok hn⟩, by simp⟩

theorem typed_target (h : m.target l depth = .ok t) : t.Typed depth ∧ t ≠ .null := by
  rw [target] at h
  split at h
  · simp only [structTarget, bind_eq_ok] at h
    obtain ⟨start, -, size, -, _, -, ptrs, -, next, hn, h⟩ := h
    cases h
    exact ⟨⟨Nat.mod_lt _ (by decide), Nat.mod_lt _ (by decide), unsigned_eq_ok hn⟩, by simp⟩
  split at h
  · exact typed_listTarget h
  split at h
  · obtain ⟨_, -, h⟩ := bind_eq_ok.1 h
    cases h
    exact ⟨Nat.mod_lt _ (by decide), by simp⟩
  · cases h

theorem typed_of_resolve {seg pos : ℕ} (h : m.resolve seg pos depth = .ok t) : t.Typed depth := by
  obtain ⟨o, -, h⟩ := bind_eq_ok.1 h
  cases o with
  | none =>
    cases h
    exact trivial
  | some l => exact (typed_target h).1

theorem resolve_of_follow {budget seg pos : ℕ} (h : (m.follow budget seg pos depth).1 = .ok t)
    : m.resolve seg pos depth = .ok t ∧ depth ≤ maxDepth := by
  rw [follow] at h
  split at h
  · cases h
  rename_i hd
  split at h
  · cases h
  rename_i r hre
  have hr : r = t := by
    split at h
    · exact Except.ok.inj h
    · split at h
      · cases h
      · exact Except.ok.inj h
  exact ⟨hr ▸ hre, of_ensure hd⟩

theorem zero_of_resolve {seg pos : ℕ} (h : m.resolve seg pos depth = .ok .null) :
    m.word seg pos = .ok 0 := by
  obtain ⟨o, ho, h⟩ := bind_eq_ok.1 h
  cases o with
  | some l => exact absurd rfl (typed_target h).2
  | none =>
    obtain ⟨w, hw, ho⟩ := bind_eq_ok.1 ho
    split at ho
    · rename_i hz
      rw [hw, hz]
    obtain ⟨origin, -, ho⟩ := bind_eq_ok.1 ho
    split at ho
    · split at ho
      · simp only [bind_eq_ok] at ho
        obtain ⟨_, -, _, -, _, -, ho⟩ := ho
        cases ho
      simp only [bind_eq_ok] at ho
      obtain ⟨_, -, _, -, _, -, _, -, _, -, ho⟩ := ho
      cases ho
    · cases ho

end Message

variable {m : Message} {t : Target} {budget i slot : ℕ} {b : Builder}

theorem resolve_of_pointer {s : StructReader} (hi : i < s.ptrCount)
    (h : (s.pointer m budget i).1 = .ok t) :
    m.resolve s.seg (s.ptrs + i) s.depth = .ok t ∧ s.depth ≤ maxDepth := by
  rw [StructReader.pointer, if_neg (Nat.not_le.2 hi)] at h
  split at h
  · cases h
  · rename_i pos hpos
    rw [← unsigned_eq_ok hpos]
    exact resolve_of_follow h

theorem resolve_of_pointerAt {l : ListReader} (h : (l.pointerAt m budget i).1 = .ok t) :
    m.resolve l.seg (l.start + i) l.depth = .ok t ∧ l.depth ≤ maxDepth := by
  simp only [ListReader.pointerAt] at h
  split at h
  · cases h
  rename_i pos hpos
  obtain ⟨_, -, hpos⟩ := bind_eq_ok.1 hpos
  obtain ⟨_, -, hpos⟩ := bind_eq_ok.1 hpos
  rw [← unsigned_eq_ok hpos]
  exact resolve_of_follow h

/-! ## The loops of a copy -/

/-- A copy writes its slot and new words, and what they show is the value of the source. -/
def CopySpec (m : Message) (levels : ℕ)
    (copy : Builder × ℕ → ℕ → Target → Result (Builder × ℕ)) : Prop :=
  ∀ {st st' : Builder × ℕ} {slot depth : ℕ} {t : Target}, copy st slot t = .ok st' →
    t.Typed depth → slot < st.1.words.length → (t = .null → st.1.words[slot]? = some 0) →
    ∃ v, (∀ budget, m.readLevels m.free levels budget t = .ok (v, budget)) ∧
      Writes (Row slot 1) st.1.words st'.1.words v.size fun ws =>
        Shows levels ws slot (v.settle slot st.1.words.length)

namespace Builder

variable {m : Message} {b b' : Builder} {values : List Word} {pos width : ℕ} {size : ElementSize}

theorem writes_copyData {seg n source : ℕ} (h : b.copyData m seg source pos n = .ok b')
    (hfi : pos + n ≤ b.words.length) : ∃ data, data.length = n ∧ m.words seg source n = .ok data ∧
      Writes (Row pos n) b.words b'.words 0 fun ws => Stored ws pos data := by
  induction n generalizing source pos b with
  | zero =>
    cases h
    exact ⟨[], rfl, rfl, .nothing _ _⟩
  | succ n ih =>
    obtain ⟨w, hw, h⟩ := bind_eq_ok.1 h
    obtain ⟨b₁, hset, h⟩ := bind_eq_ok.1 h
    have hf := writes_set hset
    have hl := hf.length_eq
    obtain ⟨data, hd, hwo, hr⟩ := ih h (by omega)
    refine ⟨w :: data, by rw [length_cons, hd], ?_, ?_⟩
    · rw [Message.words, hw, ok_bind, hwo]
      rfl
    · rw [Nat.add_comm n 1]
      exact hf.row_append hr (by omega)

section

variable {levels : ℕ} {copy : Builder × ℕ → ℕ → Target → Result (Builder × ℕ)}
  (hcopy : CopySpec m levels copy) {st st' : Builder × ℕ} {s : StructReader} {l : ListReader}

include hcopy

theorem writes_copyPointers {next : ℕ → ℕ → Result Target × ℕ} {seg depth first total : ℕ}
    (hn : ∀ budget i t, i < total → (next budget i).1 = .ok t →
      m.resolve seg (first + i) depth = .ok t) {n : ℕ}
    (h : copyPointers copy next st slot i n = .ok st') (hi : i + n = total)
    (hfi : slot + n ≤ st.1.words.length) (hz : ∀ j, Row slot n j → st.1.words[j]? = some 0) :
    ∃ vs, vs.length = n ∧
      (∀ budget, readPointers (m.readLevels m.free levels) m.free seg depth budget
        (first + i) n = .ok (vs, budget)) ∧
      Writes (Row slot n) st.1.words st'.1.words (Value.sizeAll vs) fun ws =>
        ShowsAll levels ws slot (Value.settleAll slot st.1.words.length vs) := by
  induction n generalizing slot i st with
  | zero =>
    cases h
    exact ⟨[], rfl, fun _ => rfl, .nothing _ _⟩
  | succ n ih =>
    simp only [copyPointers] at h
    obtain ⟨t, ht, h⟩ := bind_eq_ok.1 h
    obtain ⟨st₁, hst₁, h⟩ := bind_eq_ok.1 h
    have hr := hn _ _ _ (by omega) ht
    obtain ⟨v, hread, hf⟩ := hcopy hst₁ (typed_of_resolve hr)
      (by omega : slot < st.1.words.length)
      fun _ => hz slot ⟨Nat.le_refl _, Nat.lt_add_of_pos_right (Nat.succ_pos n)⟩
    simp only at hf
    have hl := hf.length_eq
    have hrest : ∀ j, Row (slot + 1) n j → st₁.1.words[j]? = some 0 := by
      intro j hj
      unfold Row at hj
      rw [hf.frame j (by omega) (by unfold Row; omega)]
      exact hz j ⟨by omega, by omega⟩
    obtain ⟨vs, hvs, hre, hw⟩ := ih h (by omega) (by omega) hrest
    refine ⟨v :: vs, by rw [length_cons, hvs], fun budget => ?_, ?_⟩
    · simp only [readPointers, free, hr, ok_bind]
      rw [hread, ok_bind]
      simp only
      rw [Nat.add_assoc, hre, ok_bind]
      rfl
    · rw [Nat.add_comm n 1]
      rw [hl] at hw
      exact hf.row_append hw (by omega)

theorem writes_copyStruct {child : StructBuilder} (h : copyStruct copy m st s child = .ok st')
    (hp : child.ptrs = child.data + s.dataWords)
    (hfi : child.data + (s.dataWords + s.ptrCount) ≤ st.1.words.length)
    (hz : ∀ j, Row child.data (s.dataWords + s.ptrCount) j → st.1.words[j]? = some 0) :
    ∃ data vs, data.length = s.dataWords ∧ vs.length = s.ptrCount ∧
      (∀ budget, readStruct (m.readLevels m.free levels) m.free m s budget =
        .ok ((data, vs), budget)) ∧
      Writes (Row child.data (s.dataWords + s.ptrCount)) st.1.words st'.1.words (Value.sizeAll vs)
        fun ws => Stored ws child.data data ∧ ShowsAll levels ws (child.data + data.length)
          (Value.settleAll (child.data + data.length) st.1.words.length vs) := by
  obtain ⟨b, hb, h⟩ := bind_eq_ok.1 h
  obtain ⟨data, hd, hwo, hf⟩ := writes_copyData hb (by omega)
  have hl := hf.length_eq
  obtain ⟨vs, hvs, hr, hw⟩ := writes_copyPointers hcopy
    (fun _ _ _ hi ht => (resolve_of_pointer hi ht).1) h (Nat.zero_add _) (by simp only; omega)
    (fun j hj => by
      unfold Row at hj
      rw [hf.frame j (by omega) (by unfold Row; omega)]
      exact hz j ⟨by omega, by omega⟩)
  refine ⟨data, vs, hd, hvs, fun budget => ?_, ?_⟩
  · rw [readStruct, hwo, ok_bind, ← Nat.add_zero s.ptrs, hr]
    rfl
  rw [hp] at hw
  simp only [hl] at hw
  have hbo := hf.row_append hw (by omega)
  rw [hd]
  simpa only [Nat.zero_add, Nat.add_zero] using hbo

omit hcopy in
theorem layout_of_structAt (h : l.structAt i = .ok s) :
    s.dataWords = l.dataWords ∧ s.ptrCount = l.ptrCount ∧ s.depth = l.depth := by
  simp only [ListReader.structAt, bind_eq_ok] at h
  obtain ⟨_, -, _, -, per, -, skipped, -, pos, -, ptrs, -, h⟩ := h
  cases h
  exact ⟨rfl, rfl, rfl⟩

theorem writes_copyStructs {tag n : ℕ} (h : copyStructs copy m l tag st i n = .ok st')
    (hfi : tag + 1 + (l.dataWords + l.ptrCount) * i + (l.dataWords + l.ptrCount) * n ≤
      st.1.words.length) (hz : ∀ j, Row (tag + 1 + (l.dataWords + l.ptrCount) * i)
      ((l.dataWords + l.ptrCount) * n) j → st.1.words[j]? = some 0) :
    ∃ es, es.length = n ∧ (∀ e ∈ es, e.1.length = l.dataWords ∧ e.2.length = l.ptrCount) ∧
      (∀ budget, readStructs (m.readLevels m.free levels) m.free m l budget i n =
        .ok (es, budget)) ∧
      Writes (Row (tag + 1 + (l.dataWords + l.ptrCount) * i) ((l.dataWords + l.ptrCount) * n))
        st.1.words st'.1.words (Value.sizeInner es) fun ws =>
          ShowsInner levels ws (tag + 1 + (l.dataWords + l.ptrCount) * i) (Value.settleInner
            (tag + 1 + (l.dataWords + l.ptrCount) * i) st.1.words.length es) := by
  induction n generalizing i st with
  | zero =>
    cases h
    exact ⟨[], rfl, nofun, fun _ => rfl, .nothing _ _⟩
  | succ n ih =>
    obtain ⟨s, hs, h⟩ := bind_eq_ok.1 h
    obtain ⟨st₁, hst₁, h⟩ := bind_eq_ok.1 h
    obtain ⟨hdw, hpc, -⟩ := layout_of_structAt hs
    generalize hper : l.dataWords + l.ptrCount = per at hfi hz ih ⊢
    have hsi : s.dataWords + s.ptrCount = per := by omega
    have hnp : tag + 1 + per * (i + 1) = tag + 1 + per * i + per := by
      rw [Nat.mul_succ]
      omega
    have hns : per * (n + 1) = per + per * n := by
      rw [Nat.mul_succ, Nat.add_comm]
    rw [hns] at hfi hz ⊢
    have hc : (element tag l.dataWords l.ptrCount i).data = tag + 1 + per * i := by
      rw [element, hper]
    obtain ⟨data, vs, hd, hvs, hre, hf⟩ := writes_copyStruct hcopy hst₁
      (by rw [element, hdw]) (by rw [hc, hsi]; omega) (by
        rw [hc, hsi]
        exact fun j hj => hz j ⟨hj.1, Nat.lt_of_lt_of_le hj.2 (by omega)⟩)
    rw [hc, hsi] at hf
    have hl := hf.length_eq
    obtain ⟨es, hes, hla, hr, hw⟩ := ih h (by rw [hnp]; omega) (by
      rw [hnp]
      intro j hj
      unfold Row at hj
      rw [hf.frame j (by omega) (by unfold Row; omega)]
      exact hz j ⟨by omega, by omega⟩)
    refine ⟨(data, vs) :: es, by rw [length_cons, hes], ?_, fun budget => ?_, ?_⟩
    · intro e he
      obtain rfl | he := List.mem_cons.1 he
      · exact ⟨hd.trans hdw, hvs.trans hpc⟩
      · exact hla e he
    · rw [readStructs, hs, ok_bind, hre, ok_bind]
      simp only
      rw [hr, ok_bind]
      rfl
    · rw [hnp, hl] at hw
      have hb := hf.row_append hw (by omega)
      refine hb.mono (fun _ hi => hi) fun ws _ hws => ⟨hws.1, ?_⟩
      have hend : tag + 1 + per * i + data.length + vs.length = tag + 1 + per * i + per := by
        omega
      rw [Value.length_settleAll, hend]
      exact hws.2

end

theorem fieldAt_setPrimitives (hwi : width ∣ 64)
    (h : b.setPrimitives pos width i values = .ok b') (hz : ∀ j, i ≤ j → j < i + values.length →
      fieldAt b.words pos width j = some 0) : b'.words.length = b.words.length ∧
    (∀ k, (∀ j, j < i + values.length → k ≠ pos + j * width / 64) → b'.words[k]? = b.words[k]?) ∧
    (∀ j < i, fieldAt b'.words pos width j = fieldAt b.words pos width j) ∧
    ∀ j v, values[j]? = some v →
      fieldAt b'.words pos width (i + j) = some (low width v) := by
  induction values generalizing i b with
  | nil =>
    cases h
    exact ⟨rfl, fun _ _ => rfl, fun _ _ => rfl, nofun⟩
  | cons v values ih =>
    obtain ⟨b₁, hb₁, h⟩ := bind_eq_ok.1 h
    rw [setOr] at hb₁
    split at hb₁
    · cases hb₁
    rename_i old hold
    have hwo : b₁.words = writeField b.words pos width i old v := (set_eq_ok hb₁).2
    rw [length_cons] at hz ⊢
    obtain ⟨hl, hf, hb, ha⟩ := ih h (by
      intro j hj hj'
      rw [hwo, fieldAt_writeField_ne hwi (by decide) (by omega) hold]
      exact hz j (by omega) (by omega))
    have hfi : fieldAt b₁.words pos width i = some (low width v) := by
      rw [hwo]
      exact fieldAt_writeField_self hwi (by decide) hold
        (hz i (Nat.le_refl i) (by omega)) v
    refine ⟨?_, fun k hk => ?_, fun j hj => ?_, fun j w hw => ?_⟩
    · rw [hl, hwo, writeField, length_set]
    · rw [hf k fun j hj => hk j (by omega), hwo, writeField,
        getElem?_set_ne (Ne.symm (hk i (by omega)))]
    · rw [hb j (by omega), hwo, fieldAt_writeField_ne hwi (by decide) (by omega) hold]
    · cases j with
      | zero =>
        cases hw
        rw [Nat.add_zero, hb i (Nat.lt_succ_self i), hfi]
      | succ j =>
        have := ha j w hw
        rwa [Nat.add_assoc, Nat.add_comm 1 j] at this

theorem width_dvd (h : size.width ≠ 0) : size.width ∣ 64 := by
  cases size with
  | void | composite => exact absurd rfl h
  | bit | byte | twoBytes | fourBytes | eightBytes | pointer => decide

theorem writes_setPrimitives (hw : width ∣ 64) (h : b.setPrimitives pos width 0 values = .ok b')
    (hfits : pos + (values.length * width + 63) / 64 ≤ b.words.length)
    (hz : ∀ j, Row pos ((values.length * width + 63) / 64) j → b.words[j]? = some 0) :
    Writes (Row pos ((values.length * width + 63) / 64)) b.words b'.words 0 fun ws =>
      ∀ i v, values[i]? = some v → fieldAt ws pos width i = some (low width v) := by
  -- the word of an element is one of the words of the list
  have hp : ∀ j < values.length,
      Row pos ((values.length * width + 63) / 64) (pos + j * width / 64) := by
    intro j hj
    have hpos : 0 < width := Nat.pos_of_dvd_of_pos hw (by decide)
    have hmul : (j + 1) * width ≤ values.length * width := Nat.mul_le_mul_right width hj
    rw [Nat.succ_mul] at hmul
    exact ⟨Nat.le_add_right _ _, by omega⟩
  obtain ⟨hl, hfr, -, hfi⟩ := fieldAt_setPrimitives hw h fun j _ hj =>
    by simp [fieldAt, hz _ (hp j (by omega)), low]
  refine ⟨hl, fun k _ hk => hfr k fun j hj hkj => hk ?_, fun later hla i v hv => ?_⟩
  · rw [hkj]
    exact hp j (by omega)
  have hrow := hp i (List.getElem?_eq_some_iff.1 hv).1
  have hf := hfi i v hv
  rw [Nat.zero_add] at hf
  rw [fieldAt, hla.get _ (by unfold Row at hrow; omega) (.inl hrow)]
  exact hf

theorem listAtSlot_eq_ok {b₂ : Builder} {len : ℕ} (h : b.listAtSlot slot size len = .ok (b₂, pos)) :
    len < 2 ^ 29 ∧ ∃ b₁, b.alloc ((len * size.width + 63) / 64) = .ok (b₁, pos) ∧
      b₁.set slot (offset slot pos ||| 1#64 ||| BitVec.ofNat 64 size.bits <<< 32 |||
        BitVec.ofNat 64 len <<< 35) = .ok b₂ := by
  obtain ⟨_, hlen, h⟩ := bind_eq_ok.1 h
  obtain ⟨⟨b₁, pos'⟩, ha, h⟩ := bind_eq_ok.1 h
  obtain ⟨b₂', hset, h⟩ := bind_eq_ok.1 h
  cases h
  exact ⟨of_ensure hlen, b₁, ha, hset⟩

theorem far_of_alloc {b₁ : Builder} {n : ℕ} (h : b.alloc n = .ok (b₁, pos))
    (hslot : slot < b.words.length) :
    pos = b.words.length ∧ pos = slot + 1 + (pos - slot - 1) ∧ pos - slot - 1 < 2 ^ 29 := by
  obtain ⟨rfl, -, hr⟩ := alloc_eq_ok h
  have hmax : maxMessageWords = 2 ^ 19 := by decide
  omega

section

variable {levels budget slot : ℕ} {copy : Builder × ℕ → ℕ → Target → Result (Builder × ℕ)}
  (hcopy : CopySpec m levels copy) {b b₂ : Builder} {st' : Builder × ℕ}
  (hslot : slot < b.words.length) {l : ListReader}

include hcopy hslot

theorem writes_struct {s : StructReader} (hdw : s.dataWords < 2 ^ 16)
    (hpc : s.ptrCount < 2 ^ 16) {child : StructBuilder}
    (ho : b.structAtSlot slot s.dataWords s.ptrCount = .ok (b₂, child))
    (hc : copyStruct copy m (b₂, budget) s child = .ok st') :
    ∃ data vs, (∀ budget, readStruct (m.readLevels m.free levels) m.free m s budget =
        .ok ((data, vs), budget)) ∧
      Writes (Row slot 1) b.words st'.1.words (Value.struct data vs).size fun ws =>
        Shows (levels + 1) ws slot ((Value.struct data vs).settle slot b.words.length) := by
  obtain ⟨⟨b₁, pos⟩, ha, h⟩ := bind_eq_ok.1 ho
  obtain ⟨b₂', hset, h⟩ := bind_eq_ok.1 h
  cases h
  obtain ⟨rfl, hpos, hfar⟩ := far_of_alloc ha hslot
  have hle := length_of_alloc ha hset
  obtain ⟨data, vs, hd, hvs, hre, hw⟩ := writes_copyStruct hcopy hc rfl
    (by simp only; omega) fun j hj => zero_of_alloc ha hset hslot hj
  have hwo := toNat_structWord hslot hfar hdw hpc
  refine ⟨data, vs, hre, ?_⟩
  rw [Value.size, hd, hvs]
  refine (writes_object ha hset hslot hw).mono (fun _ hi => hi) ?_
  rintro ws - ⟨hr, hp, hs, hsh⟩
  rw [Value.settle]
  split
  · -- the pointer is the zero word
    rename_i he
    obtain ⟨rfl, hvs', hla⟩ := he
    refine shows_null ?_
    rw [hp, Option.some.injEq, ← BitVec.toNat_inj, hwo, ← hd, ← hvs, hvs', length_nil]
    change _ = 0
    omega
  rename_i hso
  have hb : b.words.length + data.length + vs.length = b₂.words.length := by omega
  rw [hb]
  rw [← hd, ← hvs] at hwo hp
  have hl := Value.length_settleAll (b.words.length + data.length) b₂.words.length vs
  refine shows_struct hp hpos (by rwa [hl]) (fun hz => hso ?_) hfar (by omega)
    (by omega) (by omega) hs hsh
  rw [hz] at hwo
  change 0 = _ at hwo
  exact ⟨eq_nil_of_length_eq_zero (by omega), by omega, by omega⟩

theorem writes_pointers (ho : b.pointerListAtSlot slot l.len = .ok (b₂, pos))
    (hc : copyPointers copy (fun budget i => l.pointerAt m budget i) (b₂, budget) pos 0 l.len =
      .ok st') :
    ∃ vs, (∀ budget, readPointers (m.readLevels m.free levels) m.free l.seg l.depth budget
        l.start l.len = .ok (vs, budget)) ∧
      Writes (Row slot 1) b.words st'.1.words (Value.pointers vs).size fun ws =>
        Shows (levels + 1) ws slot ((Value.pointers vs).settle slot b.words.length) := by
  obtain ⟨hlen, b₁, ha, hset⟩ := listAtSlot_eq_ok ho
  have hwi : (l.len * ElementSize.pointer.width + 63) / 64 = l.len := by
    rw [ElementSize.width]
    omega
  rw [hwi] at ha
  obtain ⟨rfl, hpos, hfar⟩ := far_of_alloc ha hslot
  have hle := length_of_alloc ha hset
  obtain ⟨vs, hvs, hr, hw⟩ := writes_copyPointers hcopy
    (fun _ _ _ _ ht => (resolve_of_pointerAt ht).1) hc (Nat.zero_add _) (by simp only; omega)
    fun j hj => zero_of_alloc ha hset hslot hj
  refine ⟨vs, fun budget => by simpa only [Nat.add_zero] using hr budget, ?_⟩
  have hwo := toNat_listWord hslot hfar (by decide : ElementSize.pointer.bits < 8) hlen
  rw [Value.size, hvs]
  refine (writes_object ha hset hslot hw).mono (fun _ hi => hi) ?_
  rintro ws - ⟨hra, hp, hs⟩
  rw [Value.settle]
  simp only [hle] at hs
  rw [hvs]
  have hl := Value.length_settleAll b.words.length (b.words.length + l.len) vs
  rw [hvs] at hl
  exact shows_pointers hp hpos (by rwa [hl]) hfar (by rwa [hl])
    (by rwa [hl]) hs

theorem writes_structs (hlen : l.len < 2 ^ 30) (hdw : l.dataWords < 2 ^ 16)
    (hpc : l.ptrCount < 2 ^ 16) {b₃ : Builder} {tag : ℕ}
    (ho : b.structListAtSlot slot l.len l.dataWords l.ptrCount = .ok (b₃, tag))
    (hco : copyStructs copy m l tag (b₃, budget) 0 l.len = .ok st') :
    ∃ es, (∀ budget, readStructs (m.readLevels m.free levels) m.free m l budget 0 l.len =
        .ok (es, budget)) ∧
      Writes (Row slot 1) b.words st'.1.words (Value.structs l.dataWords l.ptrCount es).size fun ws =>
        Shows (levels + 1) ws slot
          ((Value.structs l.dataWords l.ptrCount es).settle slot b.words.length) := by
  obtain ⟨_, hw, h⟩ := bind_eq_ok.1 ho
  obtain ⟨⟨b₁, tag'⟩, ha, h⟩ := bind_eq_ok.1 h
  obtain ⟨b₂, hset, h⟩ := bind_eq_ok.1 h
  obtain ⟨b₃', htag, h⟩ := bind_eq_ok.1 h
  cases h
  replace hw := of_ensure hw
  obtain ⟨rfl, hpos, hfar⟩ := far_of_alloc ha hslot
  have hle := length_of_alloc ha hset
  have htw := writes_set htag
  have hlength₃ := htw.length_eq
  obtain ⟨es, hes, hla, hr, hwr⟩ := writes_copyStructs hcopy hco
    (by simp only [Nat.mul_zero]; omega) fun j hj => by
      unfold Row at hj
      rw [htw.frame j (by omega) (by unfold Row; omega)]
      exact zero_of_alloc ha hset hslot ⟨by omega, by omega⟩
  refine ⟨es, hr, ?_⟩
  rw [Nat.mul_zero, Nat.add_zero] at hwr
  have hc := htw.row_append hwr (by omega)
  have hwo := toNat_listWord hslot hfar (by decide : 7 < 8) hw
  have htaw := toNat_tagWord hlen hdw hpc
  rw [Value.size, hes, ← Nat.zero_add (Value.sizeInner es)]
  refine (writes_object ha hset hslot hc).mono (fun _ hi => hi) ?_
  rintro ws - ⟨hra, hp, hta, hs⟩
  rw [Value.settle, hes]
  simp only [hlength₃, hle, Nat.add_zero, ← Nat.add_assoc] at hs
  have hl := Value.length_settleInner (b.words.length + 1)
    (b.words.length + 1 + (l.dataWords + l.ptrCount) * l.len) es
  rw [hes] at hl
  exact shows_structs hp hpos (by rwa [hl]) hfar (by rwa [hl]) hdw
    (by rwa [hl]) hta (by rwa [hl]) (by rwa [hl])
    (Value.layout_settleInner hla _ _) hs

omit hcopy in
theorem writes_primitives (hlen : l.len < 2 ^ 32) (hc : l.size ≠ .composite)
    (hp : l.size ≠ .pointer) (hva : (List.range l.len).mapM (fun i => l.primitive m i) = .ok values)
    (ho : b.primitiveListAtSlot slot l.size values = .ok b') :
    Writes (Row slot 1) b.words b'.words (Value.primitives l.size values).size fun ws =>
      Shows (levels + 1) ws slot ((Value.primitives l.size values).settle slot b.words.length) := by
  obtain ⟨hco, hre⟩ := mapM_range_eq_ok.1 hva
  obtain ⟨⟨b₂, pos⟩, ho, h⟩ := bind_eq_ok.1 ho
  rw [hco, Nat.mod_eq_of_lt hlen, ← hco] at ho
  obtain ⟨hlen, b₁, ha, hset⟩ := listAtSlot_eq_ok ho
  obtain ⟨rfl, hpos, hfar⟩ := far_of_alloc ha hslot
  have hl := length_of_alloc ha hset
  have hw := toNat_listWord hslot hfar (by cases l.size <;> decide : l.size.bits < 8) hlen
  have hcon : Writes (Row b.words.length ((values.length * l.size.width + 63) / 64))
      b₂.words b'.words 0 fun ws => ∀ i v, values[i]? = some v → if l.size.width = 0 then v = 0
        else fieldAt ws b.words.length l.size.width i = some v := by
    simp only at h
    split at h
    · -- elements without content
      rename_i hvo
      cases h
      refine (Writes.nothing _ _).mono (fun _ hi => hi) fun ws _ _ i v hv => ?_
      rw [if_pos hvo]
      exact eq_zero_of_primitive (hre i v hv) hvo
    · rename_i hs
      refine (writes_setPrimitives (width_dvd hs) h (by omega) fun j hj =>
        zero_of_alloc ha hset hslot hj).mono (fun _ hi => hi) fun ws _ hws i v hv => ?_
      rw [if_neg hs, hws i v hv, low_of_primitive (hre i v hv)]
  refine (writes_object ha hset hslot hcon).mono (fun _ hi => hi) ?_
  rintro ws - ⟨hr, hpw, hf⟩
  exact shows_primitives hpw hpos hw hfar hlen hc hp hr hf

end

theorem copySpec_copyLevels (m : Message) (levels : ℕ) :
    CopySpec m levels (copyLevels m levels) := by
  induction levels with
  | zero =>
    intro st st' slot depth t h
    cases h
  | succ levels ih =>
    rintro ⟨b, budget⟩ st' slot depth t h ht hslot hn
    cases t with
    | null =>
      cases h
      exact ⟨.null, fun _ => rfl,
        (Writes.keep (hn rfl)).mono (fun _ hi => hi) fun ws _ hws => shows_null hws⟩
    | capability index =>
      obtain ⟨b', hset, h⟩ := bind_eq_ok.1 h
      cases h
      exact ⟨.capability index, fun _ => rfl,
        (writes_set hset).mono (fun _ hi => hi) fun ws _ hws => shows_capability ht hws⟩
    | struct s =>
      obtain ⟨⟨b₂, child⟩, ho, hco⟩ := bind_eq_ok.1 h
      obtain ⟨data, vs, hr, hw⟩ := writes_struct ih hslot ht.1 ht.2.1 ho hco
      refine ⟨.struct data vs, fun budget => ?_, hw⟩
      rw [readLevels, hr, ok_bind]
      rfl
    | list l =>
      obtain ⟨hlen, hcou, hdw, hpc, -⟩ := ht
      rw [copyLevels] at h
      simp only [readLevels]
      split at h
      · rename_i hc
        obtain ⟨⟨b₂, tag⟩, ho, hco⟩ := bind_eq_ok.1 h
        obtain ⟨es, hr, hw⟩ := writes_structs ih hslot (hcou hc) hdw hpc ho hco
        refine ⟨_, fun budget => ?_, hw⟩
        rw [if_pos hc, hr, ok_bind]
        rfl
      rename_i hc
      split_ifs at h with hp
      · obtain ⟨⟨b₂, pos⟩, ho, hco⟩ := bind_eq_ok.1 h
        obtain ⟨vs, hr, hw⟩ := writes_pointers ih hslot ho hco
        refine ⟨_, fun budget => ?_, hw⟩
        rw [if_neg hc, if_pos hp, hr, ok_bind]
        rfl
      obtain ⟨values, hv, h⟩ := bind_eq_ok.1 h
      obtain ⟨b', ho, h⟩ := bind_eq_ok.1 h
      cases h
      refine ⟨.primitives l.size values, fun budget => ?_, writes_primitives hslot hlen hc hp hv ho⟩
      rw [if_neg hc, if_neg hp, hv, ok_bind]
      rfl

end Builder

/-! ## What is read back -/

theorem null_of_readLevels {follow : Follow} {levels left : ℕ}
    (h : m.readLevels follow levels budget t = .ok (.null, left)) : t = .null := by
  cases levels with
  | zero => cases h
  | succ levels =>
    cases t with
    | null => rfl
    | capability index => cases h
    | struct s =>
      obtain ⟨_, -, h⟩ := bind_eq_ok.1 h
      cases h
    | list l =>
      rw [readLevels] at h
      simp only at h
      split at h
      · obtain ⟨_, -, h⟩ := bind_eq_ok.1 h
        cases h
      split at h
      · obtain ⟨_, -, h⟩ := bind_eq_ok.1 h
        cases h
      · obtain ⟨_, -, h⟩ := bind_eq_ok.1 h
        cases h

/-- A copy is read back as the value of its source, if the value is within the limits, just if the
slot of a null pointer was zero before and no struct without content comes to be stored right behind
its pointer. -/
theorem copyInto_reads_back_iff {m : Message} {b b' : Builder} {seg pos depth : ℕ} {source : Target}
    (hsource : m.resolve seg pos depth = .ok source) {budget budget' slot : ℕ}
    (hslot : slot < b.words.length) (hcopy : b.copyInto m budget slot source = .ok (b', budget')) :
    ∃ v, m.value source = some v ∧ (v.Fits → (b'.message.readSlot slot = .ok v ↔
      (source = .null → b.words[slot]? = some 0) ∧ v.kept slot b.words.length = true)) := by
  by_cases hn : source = .null → b.words[slot]? = some 0
  · obtain ⟨v, hr, hw⟩ := Builder.copySpec_copyLevels m (maxDepth + 2) hcopy
      (Message.typed_of_resolve hsource) hslot hn
    refine ⟨v, by rw [Message.value, hr]; rfl, fun hf => ?_⟩
    have hfi := hf.settle slot b.words.length
    obtain ⟨t, left, hfo, hre⟩ := hw.post_self b'.message rfl 0 traversalLimitWords
      (by rw [Nat.zero_add]; exact hfi.height_le) hfi.cost_le
    have hrs : b'.message.readSlot slot = .ok (v.settle slot b.words.length) := by
      simp only [readSlot, hfo, ok_bind, hre]
      rfl
    rw [hrs, Except.ok.injEq, Value.settle_eq_iff]
    exact ⟨fun h => ⟨hn, h⟩, And.right⟩
  · obtain ⟨rfl, hwo⟩ := Classical.not_imp.1 hn
    cases hcopy
    refine ⟨.null, rfl, fun _ => ⟨fun h => absurd ?_ hwo, fun h => absurd h.1 hn⟩⟩
    simp only [readSlot] at h
    obtain ⟨t, ht, h⟩ := bind_eq_ok.1 h
    obtain ⟨⟨v, left⟩, hv, h⟩ := bind_eq_ok.1 h
    cases h
    rw [null_of_readLevels hv] at ht
    exact elim_eq_ok.1 (zero_of_resolve (resolve_of_follow ht).1)

/-- Behind a far pointer, a struct with a data word, a pointer to a struct without content and a
capability. -/
def farMessage : Message where
  segments := [[0x100000002], [0x0002000100000000, 7, 0xfffffffc, 0x500000003]]
  length_lt := by decide

def farStruct : StructReader :=
  { seg := 1, data := 1, dataWords := 1, ptrs := 2, ptrCount := 2, depth := 1 }

def emptyBuilder : Builder := { words := [0], length_lt := by decide }

def copiedBuilder : Builder :=
  { words := [0x0002000100000000, 7, 4, 0x500000003], length_lt := by decide }

theorem copyInto_reads_back_far :
    emptyBuilder.copyInto farMessage traversalLimitWords 0 (.struct farStruct) =
      .ok (copiedBuilder, traversalLimitWords - 1) ∧
    copiedBuilder.message.readSlot 0 = .ok (.struct [7] [.struct [] [], .capability 5]) := by
  have hr : farMessage.resolve 0 0 0 = .ok (.struct farStruct) := by rfl
  have hcopy : emptyBuilder.copyInto farMessage traversalLimitWords 0 (.struct farStruct) =
      .ok (copiedBuilder, traversalLimitWords - 1) := by rfl
  obtain ⟨v, hv, hiff⟩ := copyInto_reads_back_iff hr (by decide) hcopy
  obtain rfl : .struct [7] [.struct [] [], .capability 5] = v := Option.some.inj hv
  exact ⟨hcopy, (hiff ⟨by decide, by decide⟩).2 ⟨nofun, by decide⟩⟩

/-- A pointer to a struct without content. -/
def unitMessage : Message where
  segments := [[0xfffffffc]]
  length_lt := by decide

def unitStruct : StructReader :=
  { seg := 0, data := 0, dataWords := 0, ptrs := 0, ptrCount := 0, depth := 1 }

/-- A root with a single null pointer. -/
def rootBuilder : Builder := { words := [0x0001000000000000, 0], length_lt := by decide }

/-- The pointer written for the empty struct is zero, hence null. -/
theorem copyInto_loses_unit : unitMessage.resolve 0 0 0 = .ok (.struct unitStruct) ∧
    unitMessage.value (.struct unitStruct) = some (.struct [] []) ∧ (Value.struct [] []).Fits ∧
    rootBuilder.copyInto unitMessage traversalLimitWords 1 (.struct unitStruct) =
      .ok (rootBuilder, traversalLimitWords) ∧ rootBuilder.message.readSlot 1 = .ok .null :=
  ⟨rfl, rfl, ⟨by decide, by decide⟩, rfl, rfl⟩

end NetGet.Capnp
