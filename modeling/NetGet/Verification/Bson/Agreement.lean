import NetGet.Library.ArrayStack
import NetGet.Verification.Bson.Turn

/-! # The scan of a BSON document agrees with the grammar

The elements still to read reach from where the scan stands to the end of each open document. -/

namespace NetGet.Bson

open Library.ArrayStack List

section Loop

variable (data : Bytes) (maxDepth : ℕ)

/-- The scan stands inside the innermost document, and each document inside the next. -/
def Inside : ℕ → List ℕ → Prop
  | _, [] => True
  | pos, stop :: outer => pos < stop ∧ stop ≤ data.length ∧ Inside stop outer

/-- What is left of the open documents are elements, nested within the limit. -/
def Nested : List ℕ → ℕ → Prop
  | [], _ => True
  | stop :: outer, pos => ∃ depth, Elements (segment data pos (stop - 1)) depth ∧
      outer.length + 1 + depth ≤ maxDepth ∧ Nested outer stop

/-- The scan of a document that ends at `total`, between two turns. -/
structure At (total : ℕ) (s : ScanState) : Prop where
  ends_le : maxDepth ≤ s.ends.length
  depth_le : s.depth ≤ maxDepth
  last : (contents s.ends s.depth).getLast? = some total
  inside : Inside data s.pos (contents s.ends s.depth)

def Left (s : ScanState) : Prop := Nested data maxDepth (contents s.ends s.depth) s.pos

/-- A turn that stops says whether the rest of the document is sound, and one that goes on
keeps the answer. -/
def PassSpec (total : ℕ) (s : ScanState) : Pass → Prop
  | .stop verdict => ∀ consumed, verdict = .complete consumed ↔
      consumed = total ∧ Left data maxDepth s
  | .next t => At data maxDepth total t ∧ s.pos < t.pos ∧
      (Left data maxDepth s ↔ Left data maxDepth t)

variable {data maxDepth} {total : ℕ} {s : ScanState} {outer : List ℕ}

theorem passSpec_stop {verdict : BsonScan} (hv : ∀ consumed, verdict ≠ .complete consumed)
    (h : ¬ Left data maxDepth s) : PassSpec data maxDepth total s (.stop verdict) := by
  intro consumed
  constructor
  · intro heq
    exact absurd heq (hv consumed)
  · intro hl
    exact absurd hl.2 h

theorem At.innermost (hat : At data maxDepth total s) :
    ∃ depth limit, s.depth = depth + 1 ∧ s.ends[depth]? = some (limit + 1) ∧
      contents s.ends s.depth = (limit + 1) :: contents s.ends depth ∧
      (contents s.ends depth).length = depth ∧ s.pos ≤ limit ∧ limit < data.length := by
  have he := hat.ends_le
  have hde := hat.depth_le
  cases hd : s.depth with
  | zero =>
    have hla := hat.last
    rw [hd] at hla
    cases hla
  | succ depth =>
    have hs : depth < s.ends.length := by omega
    have hc := contents_succ hs
    have hi := hat.inside
    rw [hd, hc] at hi
    obtain ⟨hpos, hst, -⟩ := hi
    obtain ⟨limit, hl⟩ : ∃ limit, s.ends[depth] = limit + 1 := ⟨s.ends[depth] - 1, by omega⟩
    refine ⟨depth, limit, rfl, ?_, ?_, length_contents hs.le, by omega, by omega⟩
    · rw [getElem?_eq_getElem hs, hl]
    · rw [hc, hl]

section

variable (hat : At data maxDepth total s)

include hat

theorem At.move {limit pos : ℕ} (hc : contents s.ends s.depth = (limit + 1) :: outer)
    (hpos : pos ≤ limit) : At data maxDepth total { s with pos } := by
  refine ⟨hat.ends_le, hat.depth_le, hat.last, ?_⟩
  have hi := hat.inside
  change Inside data pos (contents s.ends s.depth)
  rw [hc] at hi ⊢
  exact ⟨Nat.lt_succ_of_le hpos, hi.2⟩

theorem At.push {limit start stop : ℕ} (hc : contents s.ends s.depth = (limit + 1) :: outer)
    (hd : s.depth < maxDepth) (hs : start + 5 ≤ stop) (hst : stop ≤ limit)
    (hl : limit < data.length) : At data maxDepth total
      { ends := s.ends.set s.depth stop, depth := s.depth + 1, pos := start + 4 } := by
  have hp := contents_push (hd.trans_le hat.ends_le) stop
  refine ⟨?_, hd, ?_, ?_⟩
  · change maxDepth ≤ (s.ends.set s.depth stop).length
    rw [length_set]
    exact hat.ends_le
  · change (contents (s.ends.set s.depth stop) (s.depth + 1)).getLast? = some total
    rw [hp, hc, getLast?_cons_cons, ← hc]
    exact hat.last
  · change Inside data (start + 4) (contents (s.ends.set s.depth stop) (s.depth + 1))
    have hi := hat.inside
    rw [hc] at hi
    rw [hp, hc]
    exact ⟨by omega, by omega, Nat.lt_succ_of_le hst, hi.2⟩

theorem scanElement_spec {depth limit : ℕ} (hlen : data.length < 2 ^ 63) (hd : s.depth = depth + 1)
    (hc : contents s.ends s.depth = (limit + 1) :: contents s.ends depth)
    (ho : (contents s.ends depth).length = depth) (hpos : s.pos < limit)
    (hl : limit < data.length) : ∃ pass, scanElement data maxDepth limit s = some pass ∧
      PassSpec data maxDepth total s pass := by
  have hi : s.pos < data.length := hpos.trans hl
  have hco := segment_cons hi hpos
  have hle : Left data maxDepth s ↔ ∃ nesting,
      Elements (data[s.pos] :: segment data (s.pos + 1) limit) nesting ∧
      depth + 1 + nesting ≤ maxDepth ∧
      Nested data maxDepth (contents s.ends depth) (limit + 1) := by
    rw [Left, hc, Nested, ho, Nat.add_sub_cancel, hco]
  rw [scanElement, getElem?_eq_getElem hi, slice_eq_segment hpos hl.le]
  simp only
  rcases nulPosition_cases (s.pos + 1) hl.le with ⟨hnul, hkey⟩ | ⟨nul, hnul, hf, hkey⟩
  · rw [hnul]
    refine ⟨_, rfl, passSpec_stop (by simp) ?_⟩
    rw [hle]
    rintro ⟨nesting, he, -⟩
    exact elements_none (by rw [splitElement, hkey]; rfl) he
  rw [hnul]
  let value : ScanState := { s with pos := s.pos + 1 + nul + 1 }
  obtain ⟨pass, hp, hstep⟩ := scanValue_step (s := value) hf hl.le hlen data[s.pos] hat.ends_le
  refine ⟨pass, hp, ?_⟩
  have hs : splitElement data[s.pos] (segment data (s.pos + 1) limit) =
      splitValue data[s.pos] (segment data value.pos limit) := by
    rw [splitElement, hkey, Option.bind_some]
  generalize splitValue data[s.pos] (segment data value.pos limit) = found at hstep hs
  cases hstep with
  | malformed =>
    refine passSpec_stop (by simp) ?_
    rw [hle]
    rintro ⟨nesting, he, -⟩
    exact elements_none hs he
  | tooDeep body rest hde =>
    refine passSpec_stop (by simp) ?_
    rw [hle]
    rintro ⟨nesting, he, hne, -⟩
    obtain ⟨inner, others, -, -, rfl⟩ := (elements_nested hs).1 he
    have hd' : maxDepth ≤ depth + 1 := hd ▸ hde
    omega
  | skipped pos hm hpos' =>
    refine ⟨hat.move hc hpos', ?_, ?_⟩
    · change s.pos + 1 + nul + 1 ≤ pos at hm
      change s.pos < pos
      omega
    rw [hle]
    change _ ↔ Nested data maxDepth (contents s.ends s.depth) pos
    rw [hc, Nested, ho, Nat.add_sub_cancel]
    simp only [elements_flat hs]
  | opened start stop hm hst hstop hde =>
    change s.pos + 1 + nul + 1 ≤ start at hm
    change s.depth < maxDepth at hde
    have hpu := contents_push (hde.trans_le hat.ends_le) stop
    refine ⟨hat.push hc hde hst hstop hl, ?_, ?_⟩
    · change s.pos < start + 4
      omega
    rw [hle]
    change _ ↔ Nested data maxDepth (contents (s.ends.set s.depth stop) (s.depth + 1)) (start + 4)
    rw [hpu, hc, Nested, Nested, length_cons, ho, Nat.add_sub_cancel]
    simp only [elements_nested hs]
    constructor
    · rintro ⟨nesting, ⟨inner, others, hb, hr, rfl⟩, hne, hn⟩
      exact ⟨inner, hb, by omega, others, hr, by omega, hn⟩
    · rintro ⟨inner, hb, hin, others, hr, hot, hn⟩
      exact ⟨_, ⟨inner, others, hb, hr, rfl⟩, by omega, hn⟩

theorem scanTurn_spec (hlen : data.length < 2 ^ 63) :
    ∃ pass, scanTurn data maxDepth s = some pass ∧ PassSpec data maxDepth total s pass := by
  obtain ⟨depth, limit, hd, hs, hc, ho, hpos, hl⟩ := hat.innermost
  simp only [scanTurn, hd, hs]
  by_cases hend : s.pos = limit
  · have hleft : Left data maxDepth s ↔
        Nested data maxDepth (contents s.ends depth) (limit + 1) := by
      have hle := hat.depth_le
      rw [Left, hc, Nested, ho, Nat.add_sub_cancel, hend, segment_self]
      simp only [elements_nil]
      constructor
      · rintro ⟨nesting, -, -, hn⟩
        exact hn
      · intro hn
        exact ⟨0, rfl, by omega, hn⟩
    rw [if_pos hend]
    cases depth with
    | zero =>
      have ht : limit + 1 = total := by
        have hla := hat.last
        rw [hc] at hla
        exact Option.some.inj hla
      refine ⟨_, rfl, fun consumed => ?_⟩
      rw [hleft, ← ht]
      simp only [BsonScan.complete.injEq, contents_zero, Nested, and_true]
      exact eq_comm
    | succ depth =>
      refine ⟨_, rfl, ⟨hat.ends_le, ?_, ?_, ?_⟩, ?_, hleft⟩
      · have hle := hat.depth_le
        change depth + 1 ≤ maxDepth
        omega
      · have hla := hat.last
        have hne : contents s.ends (depth + 1) ≠ [] := by
          intro hnil
          rw [hnil] at ho
          cases ho
        rw [hc] at hla
        change (contents s.ends (depth + 1)).getLast? = some total
        cases hca : contents s.ends (depth + 1) with
        | nil => exact absurd hca hne
        | cons stop outer =>
          rw [hca, getLast?_cons_cons] at hla
          exact hla
      · have hi := hat.inside
        rw [hc] at hi
        exact hi.2.2
      · change s.pos < limit + 1
        omega
  · have hlt : s.pos < limit := Nat.lt_of_le_of_ne hpos hend
    rw [if_neg hend, if_neg (Nat.not_lt.2 hpos)]
    exact scanElement_spec hat hlen hd hc ho hlt hl

end

theorem scanLoop_spec {fuel : ℕ} (hlen : data.length < 2 ^ 63) :
    ∀ s, At data maxDepth total s → data.length - s.pos < fuel →
      ∃ verdict, scanLoop data maxDepth fuel s = some verdict ∧
        ∀ consumed, verdict = .complete consumed ↔ consumed = total ∧ Left data maxDepth s := by
  induction fuel with
  | zero => intro s _ hf; omega
  | succ fuel ih =>
    intro s hat hf
    obtain ⟨pass, hp, hs⟩ := scanTurn_spec hat hlen
    cases pass with
    | stop verdict => exact ⟨verdict, by simp [scanLoop, hp], hs⟩
    | next t =>
      obtain ⟨hat', hm, hle⟩ := hs
      obtain ⟨depth, limit, -, -, -, -, hpos, hl⟩ := hat'.innermost
      obtain ⟨verdict, hlo, hv⟩ := ih t hat' (by omega)
      refine ⟨verdict, by simp [scanLoop, hp, hlo], fun consumed => ?_⟩
      rw [hv, hle]

end Loop

def firstTurn (stop : ℕ) : ScanState :=
  { ends := (List.replicate maxBsonDepth 0).set 0 stop, depth := 1, pos := 4 }

theorem contents_firstTurn (stop : ℕ) :
    contents (firstTurn stop).ends (firstTurn stop).depth = [stop] :=
  contents_push (Nat.succ_pos _) stop

variable {maxDepth stop : ℕ} {data : Bytes}

/-- The scan returns on every input, with no access out of bounds, and finds a complete
document exactly when the grammar accepts one within the limit. -/
theorem scanBsonDocument_agrees (data : Slice) (maxDepth : ℕ) :
    ∃ verdict, scanBsonDocumentWithLimit data.bytes maxDepth = some verdict ∧
      ∀ consumed, verdict = .complete consumed ↔
        ∃ depth rest, parseDocument data.bytes = some (depth, rest) ∧
          consumed + rest.length = data.bytes.length ∧ depth ≤ min maxDepth maxBsonDepth := by
  have hlen := data.length_lt
  have hall : segment data.bytes 0 data.bytes.length = data.bytes := by
    rw [segment, take_length, drop_zero]
  have hc := documentEnd_cases (Nat.zero_le data.bytes.length) le_rfl hlen
  rw [hall] at hc
  simp only [parseDocument_eq_some]
  rw [scanBsonDocumentWithLimit]
  rcases hc with ⟨hend, hs⟩ | ⟨stop, hend, hst, hstop, hs⟩
  · refine ⟨.malformed, by rw [hend], fun consumed => ?_⟩
    simp [hs]
  simp only [hend]
  have hr : (segment data.bytes stop data.bytes.length).length = data.bytes.length - stop :=
    length_segment le_rfl
  by_cases hz : min maxDepth maxBsonDepth = 0
  · refine ⟨.tooDeep 0, by rw [if_pos hz, hz], fun consumed => ?_⟩
    constructor
    · intro h
      cases h
    · rintro ⟨depth, rest, ⟨body, inner, -, -, rfl⟩, -, hd⟩
      omega
  rw [if_neg hz]
  have hat : At data.bytes (min maxDepth maxBsonDepth) stop (firstTurn stop) :=
    { ends_le := by simp [firstTurn]
      depth_le := Nat.one_le_iff_ne_zero.2 hz
      last := by rw [contents_firstTurn]; rfl
      inside := by
        rw [contents_firstTurn]
        exact ⟨show 5 ≤ stop by omega, hstop, trivial⟩ }
  obtain ⟨verdict, hl, hv⟩ := scanLoop_spec hlen (firstTurn stop) hat
    (Nat.lt_succ_of_le (Nat.sub_le _ _))
  refine ⟨verdict, hl, fun consumed => ?_⟩
  rw [hv, Left, contents_firstTurn]
  simp only [Nested, firstTurn, length_nil, Nat.zero_add, and_true, Nat.add_comm 1]
  constructor
  · rintro ⟨rfl, inner, he, hd⟩
    exact ⟨inner + 1, _, ⟨_, inner, hs, he, rfl⟩, by omega, hd⟩
  rintro ⟨depth, rest, ⟨body, inner, hb, he, rfl⟩, hco, hd⟩
  rw [hs] at hb
  cases hb
  exact ⟨by omega, inner, he, hd⟩

example : scanBsonDocument [13, 0, 0, 0, 3, 97, 0, 5, 0, 0, 0, 0, 0, 7] = some (.complete 13) := by
  decide

end NetGet.Bson
