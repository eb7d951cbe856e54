import NetGet.Model.Resp

/-! # The grammar of RESP2 -/

namespace NetGet.Resp

open Option

def splitLine : Bytes → Option (Bytes × Bytes)
  | [] => none
  | [_] => none
  | first :: second :: rest =>
    if first = 13 ∧ second = 10 then some ([], rest)
    else (splitLine (second :: rest)).map fun (line, rest) => (first :: line, rest)

/-- The type byte and the line of a value, with the bytes after it. -/
inductive Header where
  | short
  | bad
  | leaf (rest : Bytes)
  | bulk (len : ℕ) (rest : Bytes)
  | array (count : ℕ) (rest : Bytes)

def lineHeader : Option (Bytes × Bytes) → Header
  | none => .short
  | some (_, rest) => .leaf rest

def integerHeader : Option (Bytes × Bytes) → Header
  | none => .short
  | some (line, rest) => if (parseI64 line).isSome then .leaf rest else .bad

/-- A length of `-1` is a null value. -/
def lengthHeader (header : ℕ → Bytes → Header) : Option (Bytes × Bytes) → Header
  | none => .short
  | some (line, rest) =>
    match parseIsize line with
    | none => .bad
    | some len =>
      if len = -1 then .leaf rest else if len < 0 then .bad else header len.toNat rest

def readHeader : Bytes → Header
  | [] => .short
  | kind :: data =>
    if kind = 43 ∨ kind = 45 then lineHeader (splitLine data)
    else if kind = 58 then integerHeader (splitLine data)
    else if kind = 36 then lengthHeader .bulk (splitLine data)
    else if kind = 42 then lengthHeader .array (splitLine data)
    else .bad

structure Shape where
  nesting : ℕ
  values : ℕ
  bulk : ℕ
  deriving DecidableEq

def Shape.join (s t : Shape) : Shape :=
  { nesting := max s.nesting t.nesting
    values := s.values + t.values
    bulk := max s.bulk t.bulk }

@[grind] def parseMany (parse : Bytes → Option (Shape × Bytes)) : ℕ → Bytes → Option (Shape × Bytes)
  | 0, data => some (⟨0, 0, 0⟩, data)
  | count + 1, data =>
    match parse data with
    | none => none
    | some (first, data) =>
      (parseMany parse count data).map fun (others, rest) => (first.join others, rest)

/-- One value nested at most `fuel` deep; a null array opens no level, an empty one does. -/
@[grind] def parseValue : ℕ → Bytes → Option (Shape × Bytes)
  | 0, _ => none
  | fuel + 1, data =>
    match readHeader data with
    | .short => none
    | .bad => none
    | .leaf rest => some (⟨0, 1, 0⟩, rest)
    | .bulk len rest =>
      if len + 2 ≤ rest.length then some (⟨0, 1, len⟩, rest.drop (len + 2)) else none
    | .array count rest =>
      (parseMany (parseValue fuel) count rest).map fun (inner, rest) =>
        (⟨inner.nesting + 1, inner.values + 1, inner.bulk⟩, rest)

/-- The parser. A level takes bytes of its own, so the length of the input bounds them. -/
def parse (data : Bytes) : Option (Shape × Bytes) := parseValue data.length data

theorem splitLine_spec {data line rest : Bytes} (h : splitLine data = some (line, rest)) :
    data = line ++ 13 :: 10 :: rest ∧
      ∀ more, splitLine (data ++ more) = some (line, rest ++ more) := by
  induction data generalizing line with
  | nil => simp [splitLine] at h
  | cons first data ih =>
    cases data with
    | nil => simp [splitLine] at h
    | cons second data =>
      simp only [List.cons_append] at ih ⊢
      simp only [splitLine] at h ⊢
      split_ifs at h with hc
      · cases h
        exact ⟨by simp [hc.1, hc.2], fun more => if_pos hc⟩
      · obtain ⟨⟨tail, rest'⟩, ht, ⟨⟩⟩ := map_eq_some_iff.1 h
        obtain ⟨heq, hmore⟩ := ih ht
        exact ⟨congrArg (first :: ·) heq, fun more => by rw [if_neg hc, hmore, map_some]⟩

def Header.rest? : Header → Option Bytes
  | .short => none
  | .bad => none
  | .leaf rest => some rest
  | .bulk _ rest => some rest
  | .array _ rest => some rest

variable {rest data : Bytes} {shape : Shape}

theorem lengthHeader_rest {header : ℕ → Bytes → Header} {found : Option (Bytes × Bytes)}
    (hh : ∀ len after, (header len after).rest? = some after)
    (h : (lengthHeader header found).rest? = some rest) : ∃ line, found = some (line, rest) := by
  cases found with
  | none => simp [lengthHeader, Header.rest?] at h
  | some found =>
    obtain ⟨line, after⟩ := found
    refine ⟨line, ?_⟩
    simp only [lengthHeader] at h
    cases hlen : parseIsize line with
    | none => simp [hlen, Header.rest?] at h
    | some len =>
      simp only [hlen] at h
      split_ifs at h
      · simpa [Header.rest?] using h
      · simp [Header.rest?] at h
      · rw [hh] at h
        simpa using h

theorem readHeader_line {kind : UInt8} (h : (readHeader (kind :: data)).rest? = some rest) :
    ∃ line, splitLine data = some (line, rest) := by
  simp only [readHeader] at h
  split_ifs at h
  · cases hs : splitLine data with
    | none => simp [hs, lineHeader, Header.rest?] at h
    | some found => simp_all [lineHeader, Header.rest?, Prod.ext_iff]
  · cases hs : splitLine data with
    | none => simp [hs, integerHeader, Header.rest?] at h
    | some found =>
      simp only [hs, integerHeader] at h
      split_ifs at h
      · simp_all [Header.rest?, Prod.ext_iff]
      · simp [Header.rest?] at h
  · exact lengthHeader_rest (fun _ _ => rfl) h
  · exact lengthHeader_rest (fun _ _ => rfl) h
  · simp [Header.rest?] at h

theorem readHeader_rest (h : (readHeader data).rest? = some rest) :
    ∃ kind line, data = kind :: (line ++ 13 :: 10 :: rest) := by
  cases data with
  | nil => simp [readHeader, Header.rest?] at h
  | cons kind data =>
    obtain ⟨line, hl⟩ := readHeader_line h
    exact ⟨kind, line, by rw [(splitLine_spec hl).1]⟩

theorem readHeader_length (h : (readHeader data).rest? = some rest) :
    rest.length + 3 ≤ data.length := by
  obtain ⟨kind, line, rfl⟩ := readHeader_rest h
  simp only [List.length_cons, List.length_append]
  omega

theorem parseMany_congr {p q : Bytes → Option (Shape × Bytes)} {bound : ℕ}
    (hpq : ∀ data shape rest, p data = some (shape, rest) → shape.nesting < bound →
      q data = some (shape, rest)) : ∀ {count : ℕ} {data : Bytes} {shape : Shape} {rest : Bytes},
      parseMany p count data = some (shape, rest) → shape.nesting < bound →
      parseMany q count data = some (shape, rest) := by
  intro count
  induction count with
  | zero => intro data shape rest h _; exact h
  | succ count ih =>
    intro data shape rest h hb
    cases hp : p data with
    | none => simp [parseMany, hp] at h
    | some found =>
      obtain ⟨first, mid⟩ := found
      simp only [parseMany, hp] at h
      obtain ⟨⟨others, rest'⟩, ho, ⟨⟩⟩ := map_eq_some_iff.1 h
      have hmax : max first.nesting others.nesting < bound := hb
      have hf := hpq data first mid hp (by omega)
      simp only [parseMany, hf, ih ho (by omega), map_some]

theorem parseValue_congr {fuel bound : ℕ} (h : parseValue fuel data = some (shape, rest))
    (hb : shape.nesting < bound) : parseValue bound data = some (shape, rest) := by
  induction fuel generalizing bound data shape rest with
  | zero => simp [parseValue] at h
  | succ fuel ih =>
    cases bound with
    | zero => omega
    | succ bound =>
      cases hh : readHeader data with
      | short | bad => simp [parseValue, hh] at h
      | leaf | bulk => simpa [parseValue, hh] using h
      | array count after =>
        simp only [parseValue, hh] at h ⊢
        obtain ⟨⟨inner, rest'⟩, hi, ⟨⟩⟩ := map_eq_some_iff.1 h
        have hd : inner.nesting < bound := Nat.lt_of_succ_lt_succ hb
        have hm := parseMany_congr (fun _ _ _ hp hlt => ih hp hlt) hi hd
        rw [hm, map_some]

/-- A value of this shape stands in front of `rest`. -/
def Value (data : Bytes) (shape : Shape) (rest : Bytes) : Prop :=
  ∃ fuel, parseValue fuel data = some (shape, rest)

def Values (count : ℕ) (data : Bytes) (shape : Shape) (rest : Bytes) : Prop :=
  ∃ fuel, parseMany (parseValue fuel) count data = some (shape, rest)

theorem values_zero : Values 0 data shape rest ↔ shape = ⟨0, 0, 0⟩ ∧ rest = data := by
  simp [Values, parseMany, eq_comm]

theorem values_succ {count : ℕ} : Values (count + 1) data shape rest ↔ ∃ first mid others,
      Value data first mid ∧ Values count mid others rest ∧ shape = first.join others := by
  constructor
  · rintro ⟨fuel, h⟩
    cases hp : parseValue fuel data with
    | none => simp [parseMany, hp] at h
    | some found =>
      simp only [parseMany, hp] at h
      obtain ⟨⟨others, rest'⟩, ho, ⟨⟩⟩ := map_eq_some_iff.1 h
      exact ⟨found.1, found.2, others, ⟨fuel, hp⟩, ⟨fuel, ho⟩, rfl⟩
  rintro ⟨first, mid, others, ⟨fuel, hf⟩, ⟨fuel', ho⟩, rfl⟩
  let bound := max first.nesting others.nesting + 1
  refine ⟨bound, ?_⟩
  have hf' : parseValue bound data = some (first, mid) := parseValue_congr hf (by omega)
  have ho' : parseMany (parseValue bound) count mid = some (others, rest) :=
    parseMany_congr (fun _ _ _ hp hlt => parseValue_congr hp hlt) ho (by omega)
  simp only [parseMany, hf', ho', map_some]

section Headers

variable {data after : Bytes} {shape : Shape} {rest : Bytes}

theorem value_iff :
    Value data shape rest ↔ ∃ fuel, parseValue (fuel + 1) data = some (shape, rest) := by
  constructor
  · rintro ⟨_ | fuel, h⟩
    · cases h
    · exact ⟨fuel, h⟩
  · rintro ⟨fuel, h⟩
    exact ⟨fuel + 1, h⟩

theorem value_short (hh : readHeader data = .short) : ¬ Value data shape rest := by
  simp [value_iff, parseValue, hh]

theorem value_bad (hh : readHeader data = .bad) : ¬ Value data shape rest := by
  simp [value_iff, parseValue, hh]

theorem value_leaf (hh : readHeader data = .leaf after) :
    Value data shape rest ↔ shape = ⟨0, 1, 0⟩ ∧ rest = after := by
  simp [value_iff, parseValue, hh, eq_comm]

theorem value_bulk {len : ℕ} (hh : readHeader data = .bulk len after) : Value data shape rest ↔
      len + 2 ≤ after.length ∧ shape = ⟨0, 1, len⟩ ∧ rest = after.drop (len + 2) := by
  simp [value_iff, parseValue, hh, eq_comm]

theorem value_array {count : ℕ} (hh : readHeader data = .array count after) :
    Value data shape rest ↔ ∃ inner, Values count after inner rest ∧
      shape = ⟨inner.nesting + 1, inner.values + 1, inner.bulk⟩ := by
  simp only [value_iff, parseValue, hh]
  constructor
  · rintro ⟨fuel, h⟩
    obtain ⟨⟨inner, rest'⟩, hi, ⟨⟩⟩ := map_eq_some_iff.1 h
    exact ⟨inner, ⟨fuel, hi⟩, rfl⟩
  · rintro ⟨inner, ⟨fuel, hi⟩, rfl⟩
    exact ⟨fuel, by rw [hi, map_some]⟩

end Headers

/-- Each value takes bytes of its own, and each level is a value. -/
structure Takes (data : Bytes) (shape : Shape) (rest : Bytes) : Prop where
  bytes : rest.length + shape.values ≤ data.length
  levels : shape.nesting ≤ shape.values

theorem parseMany_takes {p : Bytes → Option (Shape × Bytes)}
    (hp : ∀ data shape rest, p data = some (shape, rest) → Takes data shape rest) :
    ∀ {count : ℕ} {data : Bytes} {shape : Shape} {rest : Bytes},
      parseMany p count data = some (shape, rest) → Takes data shape rest := by
  intro count
  induction count with
  | zero =>
    intro data shape rest h
    cases h
    exact ⟨by simp, by simp⟩
  | succ count ih =>
    intro data shape rest h
    cases hf : p data with
    | none => simp [parseMany, hf] at h
    | some found =>
      obtain ⟨first, mid⟩ := found
      simp only [parseMany, hf] at h
      obtain ⟨⟨others, rest'⟩, ho, ⟨⟩⟩ := map_eq_some_iff.1 h
      have hone := hp data first mid hf
      have hm := ih ho
      have hb := hone.bytes
      have hl := hone.levels
      have hb' := hm.bytes
      have hl' := hm.levels
      constructor
      · change rest'.length + (first.values + others.values) ≤ data.length
        omega
      · change max first.nesting others.nesting ≤ first.values + others.values
        omega

theorem parseValue_takes {fuel : ℕ} (h : parseValue fuel data = some (shape, rest)) :
    Takes data shape rest ∧ rest.length + shape.values < data.length := by
  induction fuel generalizing data shape rest with
  | zero => simp [parseValue] at h
  | succ fuel ih =>
    cases hh : readHeader data with
    | short | bad => simp [parseValue, hh] at h
    | leaf after =>
      have hlen : after.length + 3 ≤ data.length := readHeader_length (by rw [hh]; rfl)
      obtain ⟨rfl, rfl⟩ := (value_leaf hh).1 ⟨_, h⟩
      exact ⟨⟨by simp; omega, by simp⟩, by simp; omega⟩
    | bulk len after =>
      have hlen : after.length + 3 ≤ data.length := readHeader_length (by rw [hh]; rfl)
      obtain ⟨hle, rfl, rfl⟩ := (value_bulk hh).1 ⟨_, h⟩
      exact ⟨⟨by simp; omega, by simp⟩, by simp; omega⟩
    | array count after =>
      have hlen : after.length + 3 ≤ data.length := readHeader_length (by rw [hh]; rfl)
      simp only [parseValue, hh] at h
      obtain ⟨⟨inner, rest'⟩, hi, ⟨⟩⟩ := map_eq_some_iff.1 h
      have ht := parseMany_takes (fun _ _ _ hp => (ih hp).1) hi
      have hb := ht.bytes
      have hl := ht.levels
      exact ⟨⟨by simp; omega, by simp; omega⟩, by simp; omega⟩

theorem parse_eq_some : parse data = some (shape, rest) ↔ Value data shape rest := by
  constructor
  · intro h
    exact ⟨data.length, h⟩
  rintro ⟨fuel, h⟩
  have ht := parseValue_takes h
  have hl := ht.1.levels
  exact parseValue_congr h (by omega)

theorem Value.length_lt (h : Value data shape rest) : rest.length < data.length := by
  obtain ⟨fuel, h⟩ := h
  have ht := (parseValue_takes h).2
  omega

theorem Value.one_le (h : Value data shape rest) : 1 ≤ shape.values := by
  cases hh : readHeader data with
  | short => exact absurd h (value_short hh)
  | bad => exact absurd h (value_bad hh)
  | leaf after =>
    obtain ⟨rfl, -⟩ := (value_leaf hh).1 h
    exact le_rfl
  | bulk len after =>
    obtain ⟨-, rfl, -⟩ := (value_bulk hh).1 h
    exact le_rfl
  | array count after =>
    obtain ⟨inner, -, rfl⟩ := (value_array hh).1 h
    exact Nat.le_add_left 1 inner.values

end NetGet.Resp
