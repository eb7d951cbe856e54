import NetGet.Model.Bson

/-! # The grammar of BSON documents -/

namespace NetGet.Bson

open List Option

def splitLength (data : Bytes) : Option ℕ :=
  if 4 ≤ data.length then toUsize (i32FromLeBytes (data.take 4)) else none

def splitDocument (data : Bytes) : Option (Bytes × Bytes) :=
  match splitLength data with
  | none => none
  | some len =>
    if 5 ≤ len ∧ len ≤ data.length ∧ data[len - 1]? = some 0 then
      some ((data.take (len - 1)).drop 4, data.drop len)
    else none

def splitString (data : Bytes) : Option Bytes :=
  match splitLength data with
  | none => none
  | some len => if 1 ≤ len ∧ len + 4 ≤ data.length then some (data.drop (len + 4)) else none

def splitBinary (data : Bytes) : Option Bytes :=
  match splitLength data with
  | none => none
  | some len => if len + 5 ≤ data.length then some (data.drop (len + 5)) else none

def splitFixed (size : ℕ) (data : Bytes) : Option Bytes :=
  if size ≤ data.length then some (data.drop size) else none

def splitCString : Bytes → Option Bytes
  | [] => none
  | byte :: rest => if byte = 0 then some rest else splitCString rest

/-- The elements of a scope that nothing follows within its code with scope. -/
def scopeAlone (rest : Bytes) : Option (Bytes × Bytes) → Option (Bytes × Bytes)
  | some (body, []) => some (body, rest)
  | _ => none

/-- The elements of the scope in front, and what follows the code with scope. -/
def splitCodeWithScope (data : Bytes) : Option (Bytes × Bytes) :=
  match splitLength data with
  | none => none
  | some total =>
    if 14 ≤ total ∧ total ≤ data.length then
      scopeAlone (data.drop total) ((splitString ((data.take total).drop 4)).bind splitDocument)
    else none

/-- The elements nested in a value, when it is a document, and what follows the value. -/
def splitValue (kind : UInt8) (data : Bytes) : Option (Option Bytes × Bytes) :=
  match elementKind kind with
  | none => none
  | some (.fixed size) => (splitFixed size data).map fun rest => (none, rest)
  | some .string => (splitString data).map fun rest => (none, rest)
  | some .dbPointer => ((splitString data).bind (splitFixed 12)).map fun rest => (none, rest)
  | some .binary => (splitBinary data).map fun rest => (none, rest)
  | some .regex => ((splitCString data).bind splitCString).map fun rest => (none, rest)
  | some .document => (splitDocument data).map fun (body, rest) => (some body, rest)
  | some .codeWithScope => (splitCodeWithScope data).map fun (body, rest) => (some body, rest)

/-- The same after the type byte, with the key in front of the value. -/
def splitElement (kind : UInt8) (data : Bytes) : Option (Option Bytes × Bytes) :=
  (splitCString data).bind (splitValue kind)

/-- How deep the documents among the elements nest. -/
def parseElements : ℕ → Bytes → Option ℕ
  | 0, _ => none
  | _ + 1, [] => some 0
  | fuel + 1, kind :: data =>
    match splitElement kind data with
    | none => none
    | some (none, rest) => parseElements fuel rest
    | some (some body, rest) =>
      match parseElements fuel body, parseElements fuel rest with
      | some inner, some others => some (max (inner + 1) others)
      | _, _ => none

/-- The nesting depth of the document in front, itself being level one, and what follows
it. An element takes bytes of its own, so the length of the input bounds the recursion. -/
def parseDocument (data : Bytes) : Option (ℕ × Bytes) :=
  match splitDocument data with
  | none => none
  | some (body, rest) => (parseElements data.length body).map fun depth => (depth + 1, rest)

variable {data rest : Bytes} {nested : Option Bytes} {kind : UInt8} {depth : ℕ}

theorem splitCString_length (h : splitCString data = some rest) : rest.length < data.length := by
  induction data with
  | nil => simp [splitCString] at h
  | cons byte data ih =>
    rw [splitCString] at h
    split at h
    · cases h
      simp
    · have hlt := ih h
      simp only [length_cons]
      omega

theorem splitFixed_length {size : ℕ} (h : splitFixed size data = some rest) :
    rest.length ≤ data.length := by
  unfold splitFixed at h
  split at h
  · cases h
    simp
  · cases h

theorem splitString_length (h : splitString data = some rest) : rest.length ≤ data.length := by
  unfold splitString at h
  split at h
  · cases h
  split at h
  · cases h
    simp
  · cases h

theorem splitBinary_length (h : splitBinary data = some rest) : rest.length ≤ data.length := by
  unfold splitBinary at h
  split at h
  · cases h
  split at h
  · cases h
    simp
  · cases h

theorem splitDocument_length {body : Bytes} (h : splitDocument data = some (body, rest)) :
    body.length + rest.length + 5 = data.length := by
  unfold splitDocument at h
  split at h
  · cases h
  split at h
  · cases h
    rename_i hlen
    simp only [length_drop, length_take]
    omega
  · cases h

theorem splitCodeWithScope_length {body : Bytes} (h : splitCodeWithScope data = some (body, rest)) :
    body.length + rest.length ≤ data.length := by
  unfold splitCodeWithScope at h
  split at h
  · cases h
  split at h
  · rename_i hlen
    unfold scopeAlone at h
    split at h
    · rename_i hsc
      cases h
      obtain ⟨scope, hs, hd⟩ := bind_eq_some_iff.1 hsc
      have hle := splitString_length hs
      have hb := splitDocument_length hd
      simp only [length_drop, length_take, length_nil] at hle hb ⊢
      omega
    · cases h
  · cases h

theorem splitValue_length (h : splitValue kind data = some (nested, rest)) :
    (nested.getD []).length ≤ data.length ∧ rest.length ≤ data.length := by
  unfold splitValue at h
  split at h
  · cases h
  · obtain ⟨_, hr, ⟨⟩⟩ := map_eq_some_iff.1 h
    exact ⟨Nat.zero_le _, splitFixed_length hr⟩
  · obtain ⟨_, hr, ⟨⟩⟩ := map_eq_some_iff.1 h
    exact ⟨Nat.zero_le _, splitString_length hr⟩
  · obtain ⟨_, hr, ⟨⟩⟩ := map_eq_some_iff.1 h
    obtain ⟨mid, hs, hf⟩ := bind_eq_some_iff.1 hr
    exact ⟨Nat.zero_le _, (splitFixed_length hf).trans (splitString_length hs)⟩
  · obtain ⟨_, hr, ⟨⟩⟩ := map_eq_some_iff.1 h
    exact ⟨Nat.zero_le _, splitBinary_length hr⟩
  · obtain ⟨_, hr, ⟨⟩⟩ := map_eq_some_iff.1 h
    obtain ⟨mid, hp, ho⟩ := bind_eq_some_iff.1 hr
    have hlt := splitCString_length hp
    have hlt' := splitCString_length ho
    exact ⟨Nat.zero_le _, by omega⟩
  · obtain ⟨⟨body, _⟩, hd, ⟨⟩⟩ := map_eq_some_iff.1 h
    have hlen := splitDocument_length hd
    exact ⟨by simp only [getD_some]; omega, by omega⟩
  · obtain ⟨⟨body, _⟩, hsc, ⟨⟩⟩ := map_eq_some_iff.1 h
    have hlen := splitCodeWithScope_length hsc
    exact ⟨by simp only [getD_some]; omega, by omega⟩

theorem splitElement_length (h : splitElement kind data = some (nested, rest)) :
    (nested.getD []).length < data.length ∧ rest.length < data.length := by
  obtain ⟨value, hkey, hv⟩ := bind_eq_some_iff.1 h
  have hlt := splitCString_length hkey
  have hle := splitValue_length hv
  omega

theorem parseElements_congr {fuel fuel' : ℕ}
    (h : parseElements fuel data = some depth) (hf : data.length < fuel') :
    parseElements fuel' data = some depth := by
  induction fuel generalizing fuel' data depth with
  | zero => simp [parseElements] at h
  | succ fuel ih =>
    cases fuel' with
    | zero => omega
    | succ fuel' =>
      cases data with
      | nil => exact h
      | cons kind data =>
        rw [length_cons] at hf
        rw [parseElements] at h ⊢
        cases hs : splitElement kind data with
        | none => simp [hs] at h
        | some found =>
          obtain ⟨nested, rest⟩ := found
          have hlen := splitElement_length hs
          rw [hs] at h
          cases nested with
          | none => exact ih h (by omega)
          | some body =>
            simp only [getD_some] at hlen
            cases hb : parseElements fuel body with
            | none => simp [hb] at h
            | some inner =>
              cases hr : parseElements fuel rest with
              | none => simp [hb, hr] at h
              | some others =>
                simp only [hb, hr] at h
                have hb' : parseElements fuel' body = some inner := ih hb (by omega)
                have hr' : parseElements fuel' rest = some others := ih hr (by omega)
                simp only [hb', hr', h]

/-- These bytes are elements, with documents nested `depth` deep among them. -/
def Elements (data : Bytes) (depth : ℕ) : Prop := ∃ fuel, parseElements fuel data = some depth

theorem elements_iff : Elements data depth ↔ ∃ fuel, parseElements (fuel + 1) data = some depth := by
  constructor
  · rintro ⟨_ | fuel, h⟩
    · cases h
    · exact ⟨fuel, h⟩
  · rintro ⟨fuel, h⟩
    exact ⟨fuel + 1, h⟩

theorem elements_nil : Elements [] depth ↔ depth = 0 := by
  simp [elements_iff, parseElements, eq_comm]

theorem elements_none (hs : splitElement kind data = none) : ¬ Elements (kind :: data) depth := by
  simp [elements_iff, parseElements, hs]

theorem elements_flat (hs : splitElement kind data = some (none, rest)) :
    Elements (kind :: data) depth ↔ Elements rest depth := by
  simp only [@elements_iff (kind :: data), parseElements, hs]
  rfl

theorem elements_nested {body : Bytes} (hs : splitElement kind data = some (some body, rest)) :
    Elements (kind :: data) depth ↔ ∃ inner others, Elements body inner ∧ Elements rest others ∧
        depth = max (inner + 1) others := by
  simp only [@elements_iff (kind :: data), parseElements, hs]
  constructor
  · rintro ⟨fuel, h⟩
    split at h
    · rename_i inner others hb hr
      exact ⟨inner, others, ⟨fuel, hb⟩, ⟨fuel, hr⟩, (some.inj h).symm⟩
    · cases h
  · rintro ⟨inner, others, ⟨fuel, hb⟩, ⟨fuel', hr⟩, rfl⟩
    let bound := max body.length rest.length + 1
    have hb' : parseElements bound body = some inner := parseElements_congr hb (by omega)
    have hr' : parseElements bound rest = some others := parseElements_congr hr (by omega)
    exact ⟨bound, by simp only [hb', hr']⟩

theorem parseDocument_eq_some : parseDocument data = some (depth, rest) ↔
      ∃ body inner, splitDocument data = some (body, rest) ∧ Elements body inner ∧
        depth = inner + 1 := by
  unfold parseDocument
  cases hs : splitDocument data with
  | none => simp
  | some found =>
    obtain ⟨body, after⟩ := found
    have hlen := splitDocument_length hs
    simp only [map_eq_some_iff, Prod.mk.injEq, some.injEq]
    constructor
    · rintro ⟨inner, hb, rfl, rfl⟩
      exact ⟨body, inner, ⟨rfl, rfl⟩, ⟨_, hb⟩, rfl⟩
    · rintro ⟨_, inner, ⟨rfl, rfl⟩, ⟨fuel, hb⟩, rfl⟩
      exact ⟨inner, parseElements_congr hb (by omega), rfl, rfl⟩

end NetGet.Bson
