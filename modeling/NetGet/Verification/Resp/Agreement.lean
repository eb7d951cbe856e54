import NetGet.Library.ArrayStack
import NetGet.Verification.Resp.Turn

/-! # The scan agrees with the grammar

The counters of the open arrays say which values are still owed. A turn takes the header of
one value from what is owed, and closing arrays changes nothing of it. -/

namespace NetGet.Resp

open Library.ArrayStack List

section Owed

variable (limits : RespLimits)

/-- The values owed to the open arrays, innermost first, stand in front of `rest`; there
are `count` of them and they keep the limits. -/
def Forest : List ℕ → Bytes → ℕ → Bytes → Prop
  | [], data, count, rest => count = 0 ∧ rest = data
  | owed :: others, data, count, rest => ∃ shape mid count',
      Values owed data shape mid ∧ others.length + 1 + shape.nesting ≤ limits.depth ∧
      shape.bulk ≤ limits.maxBulkLen ∧ count = shape.values + count' ∧
      Forest others mid count' rest

def Pending (others : List ℕ) (data : Bytes) (count : ℕ) (rest : Bytes) : Prop :=
  ∃ shape mid count', Value data shape mid ∧ others.length + shape.nesting ≤ limits.depth ∧
    shape.bulk ≤ limits.maxBulkLen ∧ count = shape.values + count' ∧
    Forest limits others mid count' rest

variable {limits} {owed count len : ℕ} {others : List ℕ} {data after rest : Bytes}

theorem forest_zero (hd : others.length + 1 ≤ limits.depth) :
    Forest limits (0 :: others) data count rest ↔ Forest limits others data count rest := by
  constructor
  · rintro ⟨shape, mid, count', hv, -, -, rfl, hf⟩
    obtain ⟨rfl, rfl⟩ := values_zero.1 hv
    simpa using hf
  · intro hf
    exact ⟨⟨0, 0, 0⟩, data, count, values_zero.2 ⟨rfl, rfl⟩, by simpa using hd, by simp,
      by simp, hf⟩

theorem forest_succ : Forest limits ((owed + 1) :: others) data count rest ↔
      Pending limits (owed :: others) data count rest := by
  constructor
  · rintro ⟨shape, mid, count', hv, hd, hb, rfl, hf⟩
    obtain ⟨first, next, more, hfi, hm, rfl⟩ := values_succ.1 hv
    have hn : others.length + 1 + max first.nesting more.nesting ≤ limits.depth := hd
    have hl : max first.bulk more.bulk ≤ limits.maxBulkLen := hb
    have hsum : first.values + more.values + count' = first.values + (more.values + count') := by
      omega
    exact ⟨first, next, more.values + count', hfi, by simp only [length_cons]; omega,
      by omega, hsum, more, mid, count', hm, by omega, by omega, rfl, hf⟩
  rintro ⟨first, next, -, hfi, hd, hb, rfl, more, mid, count', hm, hd', hb', rfl, hf⟩
  refine ⟨first.join more, mid, count', values_succ.2 ⟨first, next, more, hfi, hm, rfl⟩,
    ?_, ?_, ?_, hf⟩
  · change others.length + 1 + max first.nesting more.nesting ≤ limits.depth
    simp only [length_cons] at hd
    omega
  · change max first.bulk more.bulk ≤ limits.maxBulkLen
    omega
  · change first.values + (more.values + count') = first.values + more.values + count'
    omega

theorem values_count {shape : Shape} (h : Values count data shape rest) : count ≤ shape.values := by
  induction count generalizing data shape with
  | zero => omega
  | succ count ih =>
    obtain ⟨first, mid, more, hf, hm, rfl⟩ := values_succ.1 h
    have hle := ih hm
    have hone := hf.one_le
    change count + 1 ≤ first.values + more.values
    omega

theorem pending_short (hh : readHeader data = .short) :
    ¬ Pending limits others data count rest := by
  rintro ⟨shape, mid, count', hv, -⟩
  exact value_short hh hv

theorem pending_bad (hh : readHeader data = .bad) : ¬ Pending limits others data count rest := by
  rintro ⟨shape, mid, count', hv, -⟩
  exact value_bad hh hv

theorem pending_bulk (hh : readHeader data = .bulk len after) (hd : others.length ≤ limits.depth) :
    Pending limits others data count rest ↔ len ≤ limits.maxBulkLen ∧ len + 2 ≤ after.length ∧
      ∃ count', count = count' + 1 ∧ Forest limits others (after.drop (len + 2)) count' rest := by
  constructor
  · rintro ⟨shape, mid, count', hv, -, hb, rfl, hf⟩
    obtain ⟨hlen, rfl, rfl⟩ := (value_bulk hh).1 hv
    exact ⟨hb, hlen, count', Nat.add_comm 1 count', hf⟩
  · rintro ⟨hb, hlen, count', rfl, hf⟩
    exact ⟨⟨0, 1, len⟩, after.drop (len + 2), count', (value_bulk hh).2 ⟨hlen, rfl, rfl⟩,
      by simpa using hd, hb, Nat.add_comm count' 1, hf⟩

theorem pending_array (hh : readHeader data = .array len after) :
    Pending limits others data count rest ↔
      ∃ count', count = count' + 1 ∧ Forest limits (len :: others) after count' rest := by
  constructor
  · rintro ⟨shape, mid, count', hv, hd, hb, rfl, hf⟩
    obtain ⟨inner, hi, rfl⟩ := (value_array hh).1 hv
    refine ⟨inner.values + count', ?_, inner, mid, count', hi, ?_, hb, rfl, hf⟩
    · change inner.values + 1 + count' = inner.values + count' + 1
      omega
    · change others.length + (inner.nesting + 1) ≤ limits.depth at hd
      omega
  rintro ⟨-, rfl, inner, mid, count', hi, hd, hb, rfl, hf⟩
  refine ⟨⟨inner.nesting + 1, inner.values + 1, inner.bulk⟩, mid, count',
    (value_array hh).2 ⟨inner, hi, rfl⟩, ?_, hb, ?_, hf⟩
  · change others.length + (inner.nesting + 1) ≤ limits.depth
    omega
  · change inner.values + count' + 1 = inner.values + 1 + count'
    omega

theorem pending_one_le (h : Pending limits others data count rest) : 1 ≤ count := by
  obtain ⟨shape, mid, count', hv, -, -, rfl, -⟩ := h
  have hone := hv.one_le
  omega

theorem forest_count_le (h : Forest limits (owed :: others) data count rest) : owed ≤ count := by
  obtain ⟨shape, mid, count', hv, -, -, rfl, -⟩ := h
  have hle := values_count hv
  omega

end Owed

def owedBy (remaining : List ℕ) (depth : ℕ) : List ℕ := (contents remaining depth).map (· - 1)

variable {remaining : List ℕ} {depth : ℕ}

theorem owedBy_set (value : ℕ) :
    owedBy (remaining.set depth value) depth = owedBy remaining depth := by
  rw [owedBy, contents_set le_rfl, owedBy]

theorem owedBy_push (h : depth < remaining.length) (value : ℕ) :
    owedBy (remaining.set depth value) (depth + 1) = (value - 1) :: owedBy remaining depth := by
  rw [owedBy, contents_push h, map_cons, owedBy]

/-- The counters of a scan between two turns. -/
structure Counters (limits : RespLimits) (remaining : List ℕ) (depth : ℕ) : Prop where
  length_eq : remaining.length = maxRespDepth
  depth_le : depth ≤ limits.depth
  pos : ∀ count ∈ contents remaining depth, 1 ≤ count

namespace Counters

variable {limits : RespLimits} {remaining : List ℕ} {depth : ℕ}

theorem le_length (h : Counters limits remaining depth) : limits.depth ≤ remaining.length := by
  have hd : limits.depth = min limits.maxDepth maxRespDepth := rfl
  rw [h.length_eq]
  omega

theorem length_owedBy (h : Counters limits remaining depth) :
    (owedBy remaining depth).length = depth := by
  rw [owedBy, length_map, length_contents (h.depth_le.trans h.le_length)]

theorem outer (h : Counters limits remaining (depth + 1)) (value : ℕ) :
    Counters limits (remaining.set depth value) depth where
  length_eq := by rw [length_set, h.length_eq]
  depth_le := (Nat.le_succ depth).trans h.depth_le
  pos := by
    have hlt : depth < remaining.length := h.depth_le.trans h.le_length
    intro count hc
    rw [contents_set le_rfl] at hc
    refine h.pos count ?_
    rw [contents_succ hlt]
    exact mem_cons_of_mem _ hc

theorem push (h : Counters limits remaining depth) (hd : depth + 1 ≤ limits.depth)
    {value : ℕ} (hv : 1 ≤ value) :
    Counters limits (remaining.set depth value) (depth + 1) where
  length_eq := by rw [length_set, h.length_eq]
  depth_le := hd
  pos := by
    rw [contents_push (hd.trans h.le_length)]
    intro count hc
    rcases mem_cons.1 hc with rfl | hc
    · exact hv
    · exact h.pos count hc

theorem closeArrays_spec (h : Counters limits remaining depth) :
    ∃ remaining' depth', closeArrays remaining depth = some (remaining', depth') ∧
      Counters limits remaining' depth' ∧ (depth' = 0 → ∀ data count rest,
        Forest limits (owedBy remaining depth) data count rest ↔ count = 0 ∧ rest = data) ∧
      (depth' ≠ 0 → ∀ data count rest, Forest limits (owedBy remaining depth) data count rest ↔
          Pending limits (owedBy remaining' depth') data count rest) := by
  induction depth generalizing remaining with
  | zero => exact ⟨remaining, 0, rfl, h, fun _ _ _ _ => Iff.rfl, fun hne => absurd rfl hne⟩
  | succ depth ih =>
    have hlt : depth < remaining.length := h.depth_le.trans h.le_length
    have hpos := h.pos remaining[depth] (by simp [contents_succ hlt])
    obtain ⟨count, hc⟩ : ∃ count, remaining[depth] = count + 1 := ⟨remaining[depth] - 1, by omega⟩
    have how : owedBy remaining (depth + 1) = count :: owedBy remaining depth := by
      rw [owedBy, contents_succ hlt, map_cons, hc, Nat.add_sub_cancel, owedBy]
    rw [how]
    simp only [closeArrays, getElem?_eq_getElem hlt, hc]
    cases count with
    | succ count =>
      refine ⟨remaining.set depth (count + 1), depth + 1, by simp, ?_, by simp, ?_⟩
      · have ho := (h.outer (count + 1)).push h.depth_le (Nat.succ_le_succ count.zero_le)
        rwa [set_set] at ho
      · intro _ data total rest
        rw [owedBy_push hlt, Nat.add_sub_cancel]
        exact forest_succ
    | zero =>
      have ho := h.outer 0
      have hd : (owedBy remaining depth).length + 1 ≤ limits.depth := by
        rw [← owedBy_set 0, ho.length_owedBy]
        exact h.depth_le
      obtain ⟨remaining', depth', hcl, hco, hdo, hm⟩ := ih ho
      rw [owedBy_set] at hdo hm
      refine ⟨remaining', depth', by simpa using hcl, hco, ?_, ?_⟩
      · intro hz data total rest
        rw [forest_zero hd]
        exact hdo hz data total rest
      · intro hne data total rest
        rw [forest_zero hd]
        exact hm hne data total rest

end Counters

section Loop

variable (data : Bytes) (limits : RespLimits)

/-- The scan stands in front of a value. -/
structure At (s : ScanState) : Prop where
  counters : Counters limits s.remaining s.depth
  i_le : s.i ≤ data.length

/-- The rest of the frame ends in front of `rest`, within the limits. -/
def Left (s : ScanState) (rest : Bytes) : Prop :=
  ∃ count, s.values + count ≤ limits.maxElements ∧
    Pending limits (owedBy s.remaining s.depth) (data.drop s.i) count rest

/-- The same after a value, before the arrays are closed. -/
def LeftClosing (s : ScanState) (rest : Bytes) : Prop :=
  ∃ count, s.values + count ≤ limits.maxElements ∧
    Forest limits (owedBy s.remaining s.depth) (data.drop s.i) count rest

/-- A turn stops only when the frame has no end within the limits, and otherwise moves on
in it. An index that overflows stops it too, but only past the largest slice. -/
def PassSpec (s : ScanState) : Pass → Prop
  | .stop verdict => (∀ consumed, verdict ≠ .complete consumed) ∧
      (data.length < 2 ^ 63 → ∀ rest, ¬ Left data limits s rest)
  | .opened t => At data limits t ∧ s.i < t.i ∧
      ∀ rest, Left data limits s rest ↔ Left data limits t rest
  | .finished t => At data limits t ∧ s.i < t.i ∧ t.values ≤ limits.maxElements ∧
      ∀ rest, Left data limits s rest ↔ LeftClosing data limits t rest

variable {data limits} {s : ScanState} {after : Bytes} {len : ℕ}

theorem left_stop (verdict : RespScan) (hv : ∀ consumed, verdict ≠ .complete consumed)
    (h : ∀ count rest, Pending limits (owedBy s.remaining s.depth) (data.drop s.i) count rest →
      limits.maxElements < s.values + count) : PassSpec data limits s (.stop verdict) := by
  refine ⟨hv, ?_⟩
  rintro - rest ⟨count, hle, hp⟩
  have hlt := h count rest hp
  omega

theorem left_iff {others : List ℕ} {rest : Bytes}
    (h : ∀ count, Pending limits (owedBy s.remaining s.depth) (data.drop s.i) count rest ↔
      ∃ count', count = count' + 1 ∧ Forest limits others after count' rest) :
    Left data limits s rest ↔ ∃ count, s.values + 1 + count ≤ limits.maxElements ∧
        Forest limits others after count rest := by
  constructor
  · rintro ⟨count, hle, hp⟩
    obtain ⟨count', rfl, hf⟩ := (h count).1 hp
    exact ⟨count', by omega, hf⟩
  · rintro ⟨count, hle, hf⟩
    exact ⟨count + 1, by omega, (h (count + 1)).2 ⟨count, rfl, hf⟩⟩

theorem drop_after (hi : s.i ≤ data.length) (h : (readHeader (data.drop s.i)).rest? = some after) :
    data.drop (data.length - after.length) = after ∧ s.i + 3 ≤ data.length - after.length ∧
      after.length ≤ data.length := by
  have hlen := readHeader_length h
  obtain ⟨kind, line, hd⟩ := readHeader_rest h
  have hs : after <:+ data := by
    refine List.IsSuffix.trans ?_ (drop_suffix s.i data)
    rw [hd]
    exact ⟨kind :: (line ++ [13, 10]), by simp⟩
  simp only [length_drop] at hlen
  exact ⟨(suffix_iff_eq_drop.1 hs).symm, by omega, by omega⟩

theorem At.length_owedBy_le (hat : At data limits s) :
    (owedBy s.remaining s.depth).length ≤ limits.depth := by
  rw [hat.counters.length_owedBy]
  exact hat.counters.depth_le

section

variable (hat : At data limits s)

include hat

theorem headerPass_bulk_spec (hv : s.values + 1 ≤ limits.maxElements)
    (hh : readHeader (data.drop s.i) = .bulk len after) :
    ∃ pass, headerPass limits data.length { s with values := s.values + 1 } (.bulk len after) =
      some pass ∧ PassSpec data limits s pass := by
  have hd := hat.length_owedBy_le
  obtain ⟨hdr, hn, ha⟩ := drop_after hat.i_le (by rw [hh]; rfl)
  simp only [headerPass]
  by_cases hb : len > limits.maxBulkLen
  · rw [if_pos hb]
    refine ⟨_, rfl, left_stop _ (by simp) ?_⟩
    intro count rest h
    have hle := ((pending_bulk hh hd).1 h).1
    omega
  rw [if_neg hb]
  by_cases hsum : data.length - after.length + len + 2 < 2 ^ 64
  · rw [if_pos hsum]
    by_cases hf : len + 2 ≤ after.length
    · rw [if_pos hf]
      refine ⟨_, rfl, ⟨hat.counters, by simp only; omega⟩, by simp only; omega, hv, ?_⟩
      intro rest
      have hs : data.drop (data.length - after.length + len + 2) = after.drop (len + 2) := by
        rw [Nat.add_assoc, ← drop_drop, hdr]
      simp only [LeftClosing, hs]
      refine left_iff fun count => ?_
      rw [pending_bulk hh hd]
      exact ⟨fun h => h.2.2, fun h => ⟨by omega, hf, h⟩⟩
    · rw [if_neg hf]
      refine ⟨_, rfl, left_stop _ (by simp) ?_⟩
      intro count rest h
      exact absurd ((pending_bulk hh hd).1 h).2.1 hf
  · rw [if_neg hsum]
    refine ⟨_, rfl, by simp, ?_⟩
    rintro hlen rest ⟨count, -, h⟩
    have hf := ((pending_bulk hh hd).1 h).2.1
    omega

theorem headerPass_array_spec (hv : s.values + 1 ≤ limits.maxElements)
    (hh : readHeader (data.drop s.i) = .array len after) :
    ∃ pass, headerPass limits data.length { s with values := s.values + 1 } (.array len after) =
      some pass ∧ PassSpec data limits s pass := by
  obtain ⟨hdr, hn, -⟩ := drop_after hat.i_le (by rw [hh]; rfl)
  simp only [headerPass]
  by_cases hm : len > limits.maxElements - (s.values + 1)
  · rw [if_pos hm]
    refine ⟨_, rfl, left_stop _ (by simp) ?_⟩
    intro count rest h
    obtain ⟨count', rfl, hf⟩ := (pending_array hh).1 h
    have hle := forest_count_le hf
    omega
  rw [if_neg hm]
  by_cases hd : s.depth + 1 > limits.depth
  · rw [if_pos hd]
    refine ⟨_, rfl, left_stop _ (by simp) ?_⟩
    intro count rest h
    obtain ⟨count', rfl, hf⟩ := (pending_array hh).1 h
    obtain ⟨shape, mid, rest', -, hle, -⟩ := hf
    rw [hat.counters.length_owedBy] at hle
    omega
  rw [if_neg hd]
  have hl : s.depth + 1 ≤ limits.depth := Nat.le_of_not_lt hd
  cases len with
  | zero =>
    refine ⟨_, rfl, ⟨hat.counters, Nat.sub_le _ _⟩, by simp only; omega, hv, ?_⟩
    intro rest
    simp only [LeftClosing, hdr]
    have ho : (owedBy s.remaining s.depth).length + 1 ≤ limits.depth := by
      rwa [hat.counters.length_owedBy]
    refine left_iff fun count => ?_
    simp only [pending_array hh, forest_zero ho]
  | succ len =>
    have hs : s.depth < s.remaining.length := hl.trans hat.counters.le_length
    rw [if_pos (Nat.succ_pos len), if_pos hs]
    refine ⟨_, rfl, ⟨hat.counters.push hl (Nat.succ_pos len), Nat.sub_le _ _⟩,
      by simp only; omega, ?_⟩
    intro rest
    simp only [Left, hdr, owedBy_push hs, Nat.add_sub_cancel, ← forest_succ]
    exact left_iff fun _ => pending_array hh

theorem headerPass_spec (hv : s.values + 1 ≤ limits.maxElements) :
    ∃ pass, headerPass limits data.length { s with values := s.values + 1 }
      (readHeader (data.drop s.i)) = some pass ∧ PassSpec data limits s pass := by
  cases hh : readHeader (data.drop s.i) with
  | short =>
    exact ⟨_, rfl, left_stop _ (by simp) fun _ _ h => absurd h (pending_short hh)⟩
  | bad =>
    exact ⟨_, rfl, left_stop _ (by simp) fun _ _ h => absurd h (pending_bad hh)⟩
  | leaf after =>
    obtain ⟨hd, hn, -⟩ := drop_after hat.i_le (by rw [hh]; rfl)
    refine ⟨_, rfl, ⟨hat.counters, Nat.sub_le _ _⟩, by simp only; omega, hv, ?_⟩
    intro rest
    simp only [LeftClosing, hd]
    refine left_iff fun _ => ⟨?_, ?_⟩
    · rintro ⟨shape, mid, count', hv, -, -, rfl, hf⟩
      obtain ⟨rfl, rfl⟩ := (value_leaf hh).1 hv
      exact ⟨count', Nat.add_comm 1 count', hf⟩
    · rintro ⟨count', rfl, hf⟩
      exact ⟨⟨0, 1, 0⟩, after, count', (value_leaf hh).2 ⟨rfl, rfl⟩,
        by simpa using hat.length_owedBy_le, by simp, Nat.add_comm count' 1, hf⟩
  | bulk len after => exact headerPass_bulk_spec hat hv hh
  | array len after => exact headerPass_array_spec hat hv hh

theorem scanValue_spec :
    ∃ pass, scanValue data limits s = some pass ∧ PassSpec data limits s pass := by
  by_cases hend : data.length ≤ s.i
  · have hh : readHeader (data.drop s.i) = .short := by
      rw [drop_eq_nil_of_le hend]
      rfl
    exact ⟨_, scanValue_end hend, left_stop _ (by simp) fun _ _ h => absurd h (pending_short hh)⟩
  rw [scanValue_eq (Nat.lt_of_not_le hend)]
  by_cases hf : s.values + 1 > limits.maxElements
  · rw [if_pos hf]
    refine ⟨_, rfl, left_stop _ (by simp) ?_⟩
    intro count rest h
    have hone := pending_one_le h
    omega
  · rw [if_neg hf]
    exact headerPass_spec hat (Nat.le_of_not_lt hf)

end

/-- The verdict names the end of the frame exactly when it has one. -/
def Finds (data : Bytes) (ends : Bytes → Prop) (verdict : RespScan) : Prop :=
  ∀ consumed,
    (verdict = .complete consumed → ∃ rest, ends rest ∧ consumed + rest.length = data.length) ∧
    (data.length < 2 ^ 63 → ∀ rest, ends rest → consumed + rest.length = data.length →
      verdict = .complete consumed)

theorem scanLoop_spec {fuel : ℕ} : ∀ s, At data limits s → data.length - s.i < fuel →
      ∃ verdict, scanLoop data limits fuel s = some verdict ∧
        Finds data (Left data limits s) verdict := by
  induction fuel with
  | zero => intro s _ hfu; omega
  | succ fuel ih =>
    intro s hat hfu
    obtain ⟨pass, hp, hs⟩ := scanValue_spec hat
    cases pass with
    | stop verdict =>
      refine ⟨verdict, by simp [scanLoop, hp], fun consumed => ?_⟩
      constructor
      · intro h
        exact absurd h (hs.1 consumed)
      · intro hlen rest hl
        exact absurd hl (hs.2 hlen rest)
    | opened t =>
      obtain ⟨hat', hm, hl⟩ := hs
      have hi := hat'.i_le
      obtain ⟨verdict, hlo, hv⟩ := ih t hat' (by omega)
      refine ⟨verdict, by simp [scanLoop, hp, hlo], ?_⟩
      simpa only [Finds, hl] using hv
    | finished t =>
      obtain ⟨hat', hm, hva, hl⟩ := hs
      obtain ⟨remaining, depth, hc, hco, hd, hmo⟩ := hat'.counters.closeArrays_spec
      have hi := hat'.i_le
      simp only [Finds, hl, LeftClosing]
      cases depth with
      | zero =>
        refine ⟨.complete t.i, by simp [scanLoop, hp, hc], fun consumed => ?_⟩
        constructor
        · intro h
          obtain rfl := RespScan.complete.inj h
          refine ⟨data.drop t.i, ⟨0, hva, (hd rfl _ _ _).2 ⟨rfl, rfl⟩⟩, ?_⟩
          rw [length_drop]
          omega
        rintro - rest ⟨count, -, hf⟩ hcon
        obtain ⟨-, rfl⟩ := (hd rfl _ _ _).1 hf
        rw [length_drop] at hcon
        have heq : t.i = consumed := by omega
        rw [heq]
      | succ depth =>
        obtain ⟨verdict, hlo, hv⟩ :=
          ih { t with remaining, depth := depth + 1 } ⟨hco, hi⟩ (by simp only; omega)
        refine ⟨verdict, by simp [scanLoop, hp, hc, hlo], ?_⟩
        simpa only [Finds, Left, hmo (Nat.succ_ne_zero depth)] using hv

end Loop

theorem left_new {data : Bytes} {limits : RespLimits} {rest : Bytes} :
    Left data limits .new rest ↔ ∃ shape, Value data shape rest ∧
      shape.nesting ≤ limits.depth ∧ shape.values ≤ limits.maxElements ∧
      shape.bulk ≤ limits.maxBulkLen := by
  constructor
  · rintro ⟨-, hle, shape, mid, -, hv, hd, hb, rfl, rfl, rfl⟩
    exact ⟨shape, hv, by simpa [ScanState.new, owedBy] using hd,
      by simpa [ScanState.new] using hle, hb⟩
  · rintro ⟨shape, hv, hd, hle, hb⟩
    exact ⟨shape.values, by simpa [ScanState.new] using hle, shape, rest, 0, hv,
      by simpa [ScanState.new, owedBy] using hd, hb, rfl, rfl, rfl⟩

theorem scanResp2Frame_spec (data : Bytes) (limits : RespLimits) :
    ∃ verdict, scanResp2Frame data limits = some verdict ∧
      Finds data (Left data limits .new) verdict :=
  scanLoop_spec .new ⟨⟨length_replicate, Nat.zero_le _, by simp [ScanState.new]⟩, Nat.zero_le _⟩
    (Nat.lt_succ_of_le (Nat.sub_le _ _))

/-- The scan returns on every input, with no access out of bounds and no underflow, and
finds a complete frame exactly when the parser accepts a prefix within the limits. -/
theorem scanResp2Frame_agrees (data : Slice) (limits : RespLimits) :
    ∃ verdict, scanResp2Frame data.bytes limits = some verdict ∧
      ∀ consumed, verdict = .complete consumed ↔
        ∃ shape rest, parse data.bytes = some (shape, rest) ∧
          consumed + rest.length = data.bytes.length ∧
          shape.nesting ≤ min limits.maxDepth maxRespDepth ∧
          shape.values ≤ limits.maxElements ∧ shape.bulk ≤ limits.maxBulkLen := by
  obtain ⟨verdict, hs, hv⟩ := scanResp2Frame_spec data.bytes limits
  refine ⟨verdict, hs, fun consumed => ?_⟩
  constructor
  · intro h
    obtain ⟨rest, hle, hc⟩ := (hv consumed).1 h
    obtain ⟨shape, hva, hl⟩ := left_new.1 hle
    exact ⟨shape, rest, parse_eq_some.2 hva, hc, hl⟩
  · rintro ⟨shape, rest, hp, hc, hl⟩
    have hle := left_new.2 ⟨shape, parse_eq_some.1 hp, hl⟩
    exact (hv consumed).2 data.length_lt rest hle hc

end NetGet.Resp
