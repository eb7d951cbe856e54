import NetGet.Library.Packed
import NetGet.Verification.Capnp.Encoding

/-! # Values stored in the first segment -/

namespace NetGet.Capnp

open Library Message

def Stored (ws : List Word) (pos : ℕ) : List Word → Prop
  | [] => True
  | w :: data => ws[pos]? = some w ∧ Stored ws (pos + 1) data

/-- The value is read from the pointer at `slot`, if the limits allow it. -/
def Shows (levels : ℕ) (ws : List Word) (slot : ℕ) (v : Value) : Prop :=
  ∀ m : Message, m.segments[0]? = some ws → ∀ depth budget, depth + v.height ≤ maxDepth →
    v.cost ≤ budget → ∃ t left, m.follow budget 0 slot depth = (.ok t, left) ∧
      m.readLevels m.follow levels left t = .ok (v, budget - v.cost)

/-- The values are read from the pointers that start at `slot`. -/
def ShowsAll (levels : ℕ) (ws : List Word) (slot : ℕ) : List Value → Prop
  | [] => True
  | v :: vs => Shows levels ws slot v ∧ ShowsAll levels ws (slot + 1) vs

/-- The structs are read from the words that start at `pos`. -/
def ShowsInner (levels : ℕ) (ws : List Word) (pos : ℕ) : List Value.Fields → Prop
  | [] => True
  | (data, ptrs) :: es =>
    (Stored ws pos data ∧ ShowsAll levels ws (pos + data.length) ptrs) ∧
      ShowsInner levels ws (pos + data.length + ptrs.length) es

section

variable {m : Message} {ws data : List Word} (hseg : m.segments[0]? = some ws) {levels : ℕ}
  {l : ListReader}

include hseg

theorem words_of_stored {pos : ℕ} (h : Stored ws pos data) :
    m.words 0 pos data.length = .ok data := by
  induction data generalizing pos with
  | nil => rfl
  | cons w data ih =>
    rw [List.length_cons, words, index_first hseg h.1, ok_bind, ih h.2]
    rfl

theorem readPointers_of_shows {depth : ℕ} {vs : List Value} {slot budget : ℕ}
    (h : ShowsAll levels ws slot vs) (hh : depth + Value.heightAll vs ≤ maxDepth + 1)
    (hc : Value.costAll vs ≤ budget) :
    readPointers (m.readLevels m.follow levels) m.follow 0 depth budget slot vs.length =
      .ok (vs, budget - Value.costAll vs) := by
  induction vs generalizing slot budget with
  | nil => rfl
  | cons v vs ih =>
    rw [Value.heightAll] at hh
    rw [Value.costAll] at hc
    obtain ⟨t, left, hf, hr⟩ := h.1 m hseg depth budget (by omega) (by omega)
    have hre := ih h.2 (by omega) (by omega : Value.costAll vs ≤ budget - v.cost)
    simp only [List.length_cons, readPointers, hf, ok_bind, hr, hre]
    rw [Value.costAll, Nat.sub_add_eq]
    rfl

theorem readStruct_of_shows {s : StructReader} {ptrs : List Value} {budget : ℕ} (hs : s.seg = 0)
    (hd : s.dataWords = data.length) (hp : s.ptrCount = ptrs.length)
    (hst : Stored ws s.data data) (hsh : ShowsAll levels ws s.ptrs ptrs)
    (hh : s.depth + Value.heightAll ptrs ≤ maxDepth + 1) (hc : Value.costAll ptrs ≤ budget) :
    readStruct (m.readLevels m.follow levels) m.follow m s budget =
      .ok ((data, ptrs), budget - Value.costAll ptrs) := by
  rw [readStruct, hs, hd, words_of_stored hseg hst, ok_bind, hp,
    readPointers_of_shows hseg hsh hh hc]
  rfl

omit hseg in
theorem structAt_of_lt {i : ℕ} (hi : i < l.len) (hs : l.size = .composite)
    (hf : l.start + (l.dataWords + l.ptrCount) * (i + 1) < 2 ^ 64) :
    l.structAt i = .ok
      { seg := l.seg
        data := l.start + (l.dataWords + l.ptrCount) * i
        dataWords := l.dataWords
        ptrs := l.start + (l.dataWords + l.ptrCount) * i + l.dataWords
        ptrCount := l.ptrCount
        depth := l.depth } := by
  rw [Nat.mul_succ] at hf
  simp only [ListReader.structAt, ensure_of hi, ensure_of hs, ok_bind,
    unsigned_of_lt (by omega : l.dataWords + l.ptrCount < 2 ^ 64),
    unsigned_of_lt (by omega : (l.dataWords + l.ptrCount) * i < 2 ^ 64),
    unsigned_of_lt (by omega : l.start + (l.dataWords + l.ptrCount) * i < 2 ^ 64),
    unsigned_of_lt (by omega : l.start + (l.dataWords + l.ptrCount) * i + l.dataWords < 2 ^ 64)]
  rfl

theorem readStructs_of_shows (hl : l.seg = 0) (hsi : l.size = .composite)
    (hf : l.start + (l.dataWords + l.ptrCount) * l.len ≤ ws.length)
    {es : List Value.Fields} {i budget : ℕ} (hlen : i + es.length = l.len)
    (hla : ∀ e ∈ es, e.1.length = l.dataWords ∧ e.2.length = l.ptrCount)
    (hsh : ShowsInner levels ws (l.start + (l.dataWords + l.ptrCount) * i) es)
    (hh : l.depth + Value.heightInner es ≤ maxDepth + 1) (hc : Value.costInner es ≤ budget) :
    readStructs (m.readLevels m.follow levels) m.follow m l budget i es.length =
      .ok (es, budget - Value.costInner es) := by
  induction es generalizing i budget with
  | nil => rfl
  | cons e es ih =>
    obtain ⟨data, ptrs⟩ := e
    have hd : data.length = l.dataWords := (hla _ List.mem_cons_self).1
    have hp : ptrs.length = l.ptrCount := (hla _ List.mem_cons_self).2
    rw [Value.heightInner] at hh
    rw [Value.costInner] at hc
    rw [List.length_cons] at hlen
    have hleng := length_first_lt hseg
    have hle : (l.dataWords + l.ptrCount) * (i + 1) ≤ (l.dataWords + l.ptrCount) * l.len :=
      Nat.mul_le_mul_left _ (by omega)
    have hn : l.start + (l.dataWords + l.ptrCount) * i + data.length + ptrs.length =
        l.start + (l.dataWords + l.ptrCount) * (i + 1) := by
      rw [Nat.mul_succ, hd, hp]
      omega
    obtain ⟨⟨hs, hps⟩, hr⟩ := hsh
    rw [hn] at hr
    rw [hd] at hps
    have ht := ih (by omega) (fun e he => hla e (List.mem_cons_of_mem _ he)) hr
      (by omega) (by omega : Value.costInner es ≤ budget - Value.costAll ptrs)
    simp only [List.length_cons, readStructs,
      structAt_of_lt (by omega : i < l.len) hsi (by omega), ok_bind]
    rw [readStruct_of_shows hseg hl hd.symm hp.symm hs hps (by simp only; omega)
      (by omega), ok_bind]
    simp only [ht, ok_bind]
    rw [Value.costInner, Nat.sub_add_eq]
    rfl

end

variable {ws : List Word} {levels slot n base i : ℕ} {w v : Word} {l : ListReader} {m : Message}

theorem shows_null (hw : ws[slot]? = some 0) : Shows (levels + 1) ws slot .null := by
  intro m hseg depth budget hh _
  have hd : depth ≤ maxDepth := Nat.le_of_add_right_le hh
  have hr : m.resolve 0 slot depth = .ok .null := by
    rw [resolve, locate, word_first hseg hw]
    rfl
  exact ⟨.null, budget, follow_free hd hr rfl, rfl⟩

theorem shows_capability {index : ℕ} (hi : index < 2 ^ 32)
    (hw : ws[slot]? = some (3#64 ||| BitVec.ofNat 64 index <<< 32)) :
    Shows (levels + 1) ws slot (.capability index) := by
  intro m hseg depth budget hh _
  have hd : depth ≤ maxDepth := Nat.le_of_add_right_le hh
  exact ⟨.capability index, budget,
    follow_free hd (resolve_capability hseg hi hw) rfl, rfl⟩

theorem depth_lt {depth : ℕ} (h : depth ≤ maxDepth) : depth + 1 < 2 ^ 32 :=
  Nat.lt_of_le_of_lt (Nat.succ_le_succ h) (by decide)

theorem shows_struct {data : List Word} {ptrs : List Value} (hw : ws[slot]? = some w)
    (hb : base = slot + 1 + n)
    (hwo : w.toNat = n * 4 + data.length * 2 ^ 32 + ptrs.length * 2 ^ 48) (hne : w ≠ 0)
    (hn : n < 2 ^ 29) (hda : data.length < 2 ^ 16) (hp : ptrs.length < 2 ^ 16)
    (hra : base + (data.length + ptrs.length) ≤ ws.length) (hs : Stored ws (base) data)
    (hsh : ShowsAll levels ws (base + data.length) ptrs) :
    Shows (levels + 1) ws slot (.struct data ptrs) := by
  subst hb
  intro m hseg depth budget hh hc
  rw [Value.height] at hh
  rw [Value.cost] at hc ⊢
  have hd : depth ≤ maxDepth := Nat.le_of_add_right_le hh
  have hr := resolve_struct hseg hw hwo hne hn hda hp hra (depth_lt hd)
  refine ⟨_, _, follow_eq hd hr rfl (by simp only; omega), ?_⟩
  simp only [readLevels]
  rw [readStruct_of_shows hseg rfl rfl rfl hs hsh (by simp only; omega) (by omega), ok_bind]
  simp only
  rw [← Nat.sub_add_eq, Nat.max_comm 1]
  rfl

theorem shows_pointers {vs : List Value} (hw : ws[slot]? = some w) (hb : base = slot + 1 + n)
    (hword : w.toNat = n * 4 + 1 + ElementSize.pointer.bits * 2 ^ 32 + vs.length * 2 ^ 35)
    (hn : n < 2 ^ 29) (hlen : vs.length < 2 ^ 29) (hra : base + vs.length ≤ ws.length)
    (hs : ShowsAll levels ws (base) vs) : Shows (levels + 1) ws slot (.pointers vs) := by
  subst hb
  intro m hseg depth budget hh hc
  rw [Value.height] at hh
  rw [Value.cost] at hc ⊢
  have hd : depth ≤ maxDepth := Nat.le_of_add_right_le hh
  have hwo : (vs.length * ElementSize.pointer.width + 63) / 64 = vs.length := by
    rw [ElementSize.width]
    omega
  have hr := resolve_list hseg hw hn (by decide) hlen hword (by rwa [hwo]) (depth_lt hd)
  rw [hwo] at hr
  refine ⟨_, _, follow_eq hd hr rfl (by simp only; omega), ?_⟩
  simp only [readLevels, reduceCtorEq, if_false, if_true]
  rw [readPointers_of_shows hseg hs (by omega) (by omega), ok_bind]
  simp only
  rw [← Nat.sub_add_eq, Nat.max_comm 1]
  rfl

theorem shows_structs {tag : Word} {dataWords ptrCount : ℕ} {es : List Value.Fields}
    (hw : ws[slot]? = some w) (hb : base = slot + 1 + n)
    (hword : w.toNat = n * 4 + 1 + 7 * 2 ^ 32 + (dataWords + ptrCount) * es.length * 2 ^ 35)
    (hn : n < 2 ^ 29) (hlen : es.length < 2 ^ 30) (hda : dataWords < 2 ^ 16)
    (hwo : (dataWords + ptrCount) * es.length < 2 ^ 29) (htag : ws[base]? = some tag)
    (htw : tag.toNat = es.length * 4 + dataWords * 2 ^ 32 + ptrCount * 2 ^ 48)
    (hra : base + (1 + (dataWords + ptrCount) * es.length) ≤ ws.length)
    (hl : ∀ e ∈ es, e.1.length = dataWords ∧ e.2.length = ptrCount)
    (hs : ShowsInner levels ws (base + 1) es) :
    Shows (levels + 1) ws slot (.structs dataWords ptrCount es) := by
  subst hb
  intro m hseg depth budget hh hc
  rw [Value.height] at hh
  rw [Value.cost] at hc ⊢
  have hd : depth ≤ maxDepth := Nat.le_of_add_right_le hh
  have hr := resolve_composite hseg hw hn hlen hda hwo hword htag htw hra (depth_lt hd)
  refine ⟨_, _, follow_eq hd hr rfl (by simp only; omega), ?_⟩
  simp only [readLevels, if_true]
  rw [readStructs_of_shows hseg rfl rfl (by simp only; omega) (Nat.zero_add _) hl
    (by simpa only [Nat.mul_zero] using hs) (by simp only; omega) (by omega), ok_bind]
  simp only
  rw [← Nat.sub_add_eq, Nat.max_comm 1]
  rfl

theorem low_of_primitive (h : l.primitive m i = .ok v) : Packed.low l.size.width v = v := by
  have hw : l.size.width ≤ 64 := by cases l.size <;> decide
  obtain ⟨_, -, h⟩ := bind_eq_ok.1 h
  split at h
  · cases h
  split at h
  · cases h
  split at h
  · rename_i hvo
    cases h
    rw [hvo]
    rfl
  obtain ⟨bit, -, h⟩ := bind_eq_ok.1 h
  obtain ⟨w, -, h⟩ := bind_eq_ok.1 h
  have hv : v = Packed.low l.size.width (w >>> (bit % 64)) := by
    rw [Packed.low]
    split_ifs at h with hf
    · rw [if_pos hf]
      exact (Except.ok.inj h).symm
    · rw [if_neg hf]
      exact (Except.ok.inj h).symm
  rw [hv, Packed.low_low hw]

theorem eq_zero_of_primitive (h : l.primitive m i = .ok v) (hv : l.size.width = 0) : v = 0 := by
  have hlow := low_of_primitive h
  rw [hv] at hlow
  rw [← hlow]
  exact BitVec.and_zero

theorem primitive_of_fieldAt (hseg : m.segments[0]? = some ws) (hl : l.seg = 0) (hi : i < l.len)
    (hlen : l.len < 2 ^ 29) (hc : l.size ≠ .composite) (hp : l.size ≠ .pointer)
    (hf : if l.size.width = 0 then v = 0
      else Packed.fieldAt ws l.start l.size.width i = some v) : l.primitive m i = .ok v := by
  have hle := length_first_lt hseg
  simp only [ListReader.primitive, ensure_of hi, ok_bind, if_neg hc, if_neg hp]
  split_ifs at hf with hv
  · rw [if_pos hv, hf]
    rfl
  have hwi : i * l.size.width ≤ 2 ^ 29 * 64 :=
    Nat.mul_le_mul (by omega) (by cases l.size <;> decide)
  obtain ⟨w, hw, hlow⟩ := Option.map_eq_some_iff.1 hf
  have hpl : l.start + i * l.size.width / 64 < ws.length := (List.getElem?_eq_some_iff.1 hw).1
  rw [if_neg hv, unsigned_of_lt (by omega), ok_bind, ListReader.word,
    unsigned_of_lt (by omega), ok_bind, hl, index_first hseg hw, ok_bind, ← hlow]
  simp only [Packed.low]
  split <;> rfl

theorem shows_primitives {size : ElementSize} {elements : List Word} (hw : ws[slot]? = some w)
    (hb : base = slot + 1 + n)
    (hwo : w.toNat = n * 4 + 1 + size.bits * 2 ^ 32 + elements.length * 2 ^ 35) (hn : n < 2 ^ 29)
    (hlen : elements.length < 2 ^ 29) (hc : size ≠ .composite) (hp : size ≠ .pointer)
    (hra : base + (elements.length * size.width + 63) / 64 ≤ ws.length)
    (hf : ∀ i v, elements[i]? = some v → if size.width = 0 then v = 0
      else Packed.fieldAt ws (base) size.width i = some v) :
    Shows (levels + 1) ws slot (.primitives size elements) := by
  subst hb
  intro m hseg depth budget hh hco
  rw [Value.cost] at hco ⊢
  have hd : depth ≤ maxDepth := Nat.le_of_add_right_le hh
  have hr := resolve_list hseg hw hn hc hlen hwo hra (depth_lt hd)
  have ht : toll (.list
      { seg := 0, start := slot + 1 + n, len := elements.length, size, dataWords := 0,
        ptrCount := 0, depth := depth + 1, words := (elements.length * size.width + 63) / 64 }) =
      some (if size = .void then elements.length else (elements.length * size.width + 63) / 64) := by
    cases size with
    | composite => exact absurd rfl hc
    | void | bit | byte | twoBytes | fourBytes | eightBytes | pointer => rfl
  refine ⟨_, _, follow_eq hd hr ht (by rwa [Nat.max_comm]), ?_⟩
  simp only [readLevels, if_neg hc, if_neg hp]
  rw [mapM_range_eq_ok.2 ⟨rfl, fun i v hv => ?_⟩, ok_bind, Nat.max_comm 1]
  · rfl
  · have hi : i < elements.length := (List.getElem?_eq_some_iff.1 hv).1
    exact primitive_of_fieldAt hseg rfl hi hlen hc hp (hf i v hv)

end NetGet.Capnp
