import NetGet.Library.Fallible
import NetGet.Model.Capnp

/-! # The value of a message

What a pointer points at, unfolded into a tree. Reading follows pointers in one of two ways: `free`
resolves them only, `Message.follow` also keeps the limits on depth and traversal. -/

namespace NetGet.Capnp

open Library

inductive Value where
  | null
  | struct (data : List Word) (ptrs : List Value)
  | primitives (size : ElementSize) (elements : List Word)
  | pointers (elements : List Value)
  /-- A composite list: its layout, and the data and the pointers of each element. -/
  | structs (dataWords ptrCount : ℕ) (elements : List (List Word × List Value))
  | capability (index : ℕ)

/-- The data words and the pointers of a struct. -/
abbrev Value.Fields := List Word × List Value

/-- A way to follow the pointer at a place: from the budget, the segment, the position and the
depth. -/
abbrev Follow := ℕ → ℕ → ℕ → ℕ → Result Target × ℕ

namespace Message

def free (m : Message) : Follow := fun budget seg pos depth => (m.resolve seg pos depth, budget)

def words (m : Message) (seg pos : ℕ) : ℕ → Result (List Word)
  | 0 => .ok []
  | n + 1 => do
    let w ← m.index seg pos
    let ws ← m.words seg (pos + 1) n
    return w :: ws

def readPointers (read : ℕ → Target → Result (Value × ℕ)) (follow : Follow)
    (seg depth budget pos : ℕ) : ℕ → Result (List Value × ℕ)
  | 0 => .ok ([], budget)
  | n + 1 => do
    let (t, budget) := follow budget seg pos depth
    let (v, budget) ← read budget (← t)
    let (vs, budget) ← readPointers read follow seg depth budget (pos + 1) n
    return (v :: vs, budget)

def readStruct (read : ℕ → Target → Result (Value × ℕ)) (follow : Follow) (m : Message)
    (s : StructReader) (budget : ℕ) : Result (Value.Fields × ℕ) := do
  let data ← m.words s.seg s.data s.dataWords
  let (ptrs, budget) ← readPointers read follow s.seg s.depth budget s.ptrs s.ptrCount
  return ((data, ptrs), budget)

def readStructs (read : ℕ → Target → Result (Value × ℕ)) (follow : Follow) (m : Message)
    (l : ListReader) (budget i : ℕ) : ℕ → Result (List Value.Fields × ℕ)
  | 0 => .ok ([], budget)
  | n + 1 => do
    let s ← l.structAt i
    let (e, budget) ← readStruct read follow m s budget
    let (es, budget) ← readStructs read follow m l budget (i + 1) n
    return (e :: es, budget)

/-- The value of a target with at most this many levels of nesting, and the budget after it. -/
def readLevels (m : Message) (follow : Follow) : ℕ → ℕ → Target → Result (Value × ℕ)
  | 0, _, _ => .error .panic
  | levels + 1, budget, t =>
    match t with
    | .null => .ok (.null, budget)
    | .capability index => .ok (.capability index, budget)
    | .struct s => do
      let ((data, ptrs), budget) ← readStruct (m.readLevels follow levels) follow m s budget
      return (.struct data ptrs, budget)
    | .list l =>
      if l.size = .composite then do
        let (es, budget) ← readStructs (m.readLevels follow levels) follow m l budget 0 l.len
        return (.structs l.dataWords l.ptrCount es, budget)
      else if l.size = .pointer then do
        let (vs, budget) ←
          readPointers (m.readLevels follow levels) follow l.seg l.depth budget l.start l.len
        return (.pointers vs, budget)
      else do
        let elements ← (List.range l.len).mapM fun i => l.primitive m i
        return (.primitives l.size elements, budget)

/-- The value of a target, whatever it costs to read. -/
def value (m : Message) (t : Target) : Option Value :=
  ((m.readLevels m.free (maxDepth + 2) 0 t).toOption).map Prod.fst

/-- Read the value behind the pointer at `pos` of the first segment, within the limits. -/
def readSlot (m : Message) (pos : ℕ) : Result Value := do
  let (t, budget) := m.follow traversalLimitWords 0 pos 0
  let (v, _) ← m.readLevels m.follow (maxDepth + 2) budget (← t)
  return v

end Message

namespace Value

mutual

/-- The words that a copy of the value takes, its pointer apart. -/
def size : Value → ℕ
  | .null => 0
  | .struct data ptrs => data.length + ptrs.length + sizeAll ptrs
  | .primitives size elements => (elements.length * size.width + 63) / 64
  | .pointers elements => elements.length + sizeAll elements
  | .structs dataWords ptrCount elements =>
    1 + (dataWords + ptrCount) * elements.length + sizeInner elements
  | .capability _ => 0

def sizeAll : List Value → ℕ
  | [] => 0
  | v :: vs => v.size + sizeAll vs

def sizeInner : List Fields → ℕ
  | [] => 0
  | (_, ptrs) :: es => sizeAll ptrs + sizeInner es

end

mutual

def cost : Value → ℕ
  | .null => 0
  | .struct data ptrs => max 1 (data.length + ptrs.length) + costAll ptrs
  | .primitives size elements =>
    max 1 (if size = .void then elements.length else (elements.length * size.width + 63) / 64)
  | .pointers elements => max 1 elements.length + costAll elements
  | .structs dataWords ptrCount elements =>
    max 1 (max ((dataWords + ptrCount) * elements.length) elements.length) + costInner elements
  | .capability _ => 0

def costAll : List Value → ℕ
  | [] => 0
  | v :: vs => v.cost + costAll vs

def costInner : List Fields → ℕ
  | [] => 0
  | (_, ptrs) :: es => costAll ptrs + costInner es

end

mutual

def height : Value → ℕ
  | .null => 0
  | .struct _ ptrs => heightAll ptrs
  | .primitives _ _ => 0
  | .pointers elements => heightAll elements
  | .structs _ _ elements => heightInner elements
  | .capability _ => 0

def heightAll : List Value → ℕ
  | [] => 0
  | v :: vs => max (v.height + 1) (heightAll vs)

def heightInner : List Fields → ℕ
  | [] => 0
  | (_, ptrs) :: es => max (heightAll ptrs) (heightInner es)

end

/-- The value can be read within the limits on depth and traversal. -/
structure Fits (v : Value) : Prop where
  height_le : v.height ≤ maxDepth
  cost_le : v.cost ≤ traversalLimitWords

mutual

/-- What is read back when the value is copied to `slot` of a message with `base` words. -/
def settle (slot base : ℕ) : Value → Value
  | .null => .null
  | .struct data ptrs =>
    if data = [] ∧ ptrs.length = 0 ∧ slot + 1 = base then .null
    else .struct data (settleAll (base + data.length) (base + data.length + ptrs.length) ptrs)
  | .primitives size elements => .primitives size elements
  | .pointers elements => .pointers (settleAll base (base + elements.length) elements)
  | .structs dataWords ptrCount elements =>
    .structs dataWords ptrCount
      (settleInner (base + 1) (base + 1 + (dataWords + ptrCount) * elements.length) elements)
  | .capability index => .capability index

/-- The same for values behind pointers that are stored from `slot` on. -/
def settleAll (slot base : ℕ) : List Value → List Value
  | [] => []
  | v :: vs => v.settle slot base :: settleAll (slot + 1) (base + v.size) vs

/-- The same for the elements of a composite list, which are stored from `pos` on. -/
def settleInner (pos base : ℕ) : List Fields → List Fields
  | [] => []
  | (data, ptrs) :: es =>
    (data, settleAll (pos + data.length) base ptrs) ::
      settleInner (pos + data.length + ptrs.length) (base + sizeAll ptrs) es

end

mutual

/-- No struct without content comes to be stored right behind its pointer, when the value is copied
to `slot` of a message with `base` words. -/
def kept (slot base : ℕ) : Value → Bool
  | .struct data ptrs =>
    !(data = [] ∧ ptrs.length = 0 ∧ slot + 1 = base) &&
      keptAll (base + data.length) (base + data.length + ptrs.length) ptrs
  | .pointers elements => keptAll base (base + elements.length) elements
  | .structs dataWords ptrCount elements =>
    keptInner (base + 1) (base + 1 + (dataWords + ptrCount) * elements.length) elements
  | .null => true
  | .primitives _ _ => true
  | .capability _ => true

def keptAll (slot base : ℕ) : List Value → Bool
  | [] => true
  | v :: vs => v.kept slot base && keptAll (slot + 1) (base + v.size) vs

def keptInner (pos base : ℕ) : List Fields → Bool
  | [] => true
  | (data, ptrs) :: es =>
    keptAll (pos + data.length) base ptrs &&
      keptInner (pos + data.length + ptrs.length) (base + sizeAll ptrs) es

end

mutual

theorem settle_eq_iff (slot base : ℕ) :
    ∀ v : Value, v.settle slot base = v ↔ v.kept slot base = true
  | .null => by simp [settle, kept]
  | .struct data ptrs => by
    rw [settle, kept]
    split_ifs with he
    · simp [he]
    · rw [decide_eq_false he, Bool.not_false, Bool.true_and, ← settleAll_eq_iff]
      simp
  | .primitives size elements => by simp [settle, kept]
  | .pointers elements => by
    rw [settle, kept, ← settleAll_eq_iff]
    simp
  | .structs dataWords ptrCount elements => by
    rw [settle, kept, ← settleInner_eq_iff]
    simp
  | .capability index => by simp [settle, kept]

theorem settleAll_eq_iff (slot base : ℕ) :
    ∀ vs : List Value, settleAll slot base vs = vs ↔ keptAll slot base vs = true
  | [] => by simp [settleAll, keptAll]
  | v :: vs => by
    rw [settleAll, keptAll, Bool.and_eq_true, ← settle_eq_iff, ← settleAll_eq_iff, List.cons.injEq]

theorem settleInner_eq_iff (pos base : ℕ) : ∀ es : List Fields,
    settleInner pos base es = es ↔ keptInner pos base es = true
  | [] => by simp [settleInner, keptInner]
  | (data, ptrs) :: es => by
    rw [settleInner, keptInner, Bool.and_eq_true, ← settleAll_eq_iff, ← settleInner_eq_iff]
    simp

end

theorem length_settleAll (slot base : ℕ) (vs : List Value) :
    (settleAll slot base vs).length = vs.length := by
  induction vs generalizing slot base with
  | nil => rfl
  | cons v vs ih => rw [settleAll, List.length_cons, ih, List.length_cons]

theorem length_settleInner (pos base : ℕ) (es : List Fields) :
    (settleInner pos base es).length = es.length := by
  induction es generalizing pos base with
  | nil => rfl
  | cons e es ih => rw [settleInner, List.length_cons, ih, List.length_cons]

theorem layout_settleInner {dataWords ptrCount : ℕ} {es : List Fields}
    (h : ∀ e ∈ es, e.1.length = dataWords ∧ e.2.length = ptrCount) (pos base : ℕ) :
    ∀ e ∈ settleInner pos base es, e.1.length = dataWords ∧ e.2.length = ptrCount := by
  induction es generalizing pos base with
  | nil => nofun
  | cons e es ih =>
    intro e' he'
    rw [settleInner] at he'
    obtain rfl | he' := List.mem_cons.1 he'
    · obtain ⟨hd, hp⟩ := h e List.mem_cons_self
      exact ⟨hd, (length_settleAll _ _ _).trans hp⟩
    · exact ih (fun e he => h e (List.mem_cons_of_mem _ he)) _ _ e' he'

mutual

/-- A settled value costs no more and is no higher. -/
theorem settle_le (slot base : ℕ) : ∀ v : Value,
    (v.settle slot base).cost ≤ v.cost ∧ (v.settle slot base).height ≤ v.height
  | .null => ⟨Nat.le_refl _, Nat.le_refl _⟩
  | .struct data ptrs => by
    rw [settle]
    split
    · exact ⟨Nat.zero_le _, Nat.zero_le _⟩
    · rw [cost, cost, height, height, length_settleAll]
      exact ⟨Nat.add_le_add_left (settleAll_le _ _ ptrs).1 _, (settleAll_le _ _ ptrs).2⟩
  | .primitives _ _ => ⟨Nat.le_refl _, Nat.le_refl _⟩
  | .pointers elements => by
    rw [settle, cost, cost, height, height, length_settleAll]
    exact ⟨Nat.add_le_add_left (settleAll_le _ _ elements).1 _, (settleAll_le _ _ elements).2⟩
  | .structs dataWords ptrCount elements => by
    rw [settle, cost, cost, height, height, length_settleInner]
    exact ⟨Nat.add_le_add_left (settleInner_le _ _ elements).1 _, (settleInner_le _ _ elements).2⟩
  | .capability _ => ⟨Nat.le_refl _, Nat.le_refl _⟩

theorem settleAll_le (slot base : ℕ) : ∀ vs : List Value,
    costAll (settleAll slot base vs) ≤ costAll vs ∧ heightAll (settleAll slot base vs) ≤ heightAll vs
  | [] => ⟨Nat.le_refl _, Nat.le_refl _⟩
  | v :: vs => by
    have hv := settle_le slot base v
    have hvs := settleAll_le (slot + 1) (base + v.size) vs
    rw [settleAll, costAll, costAll, heightAll, heightAll]
    omega

theorem settleInner_le (pos base : ℕ) : ∀ es : List Fields,
    costInner (settleInner pos base es) ≤ costInner es ∧
      heightInner (settleInner pos base es) ≤ heightInner es
  | [] => ⟨Nat.le_refl _, Nat.le_refl _⟩
  | (data, ptrs) :: es => by
    have hp := settleAll_le (pos + data.length) base ptrs
    have hes := settleInner_le (pos + data.length + ptrs.length) (base + sizeAll ptrs) es
    rw [settleInner, costInner, costInner, heightInner, heightInner]
    omega

end

theorem Fits.settle {v : Value} (h : v.Fits) (slot base : ℕ) : (v.settle slot base).Fits where
  height_le := Nat.le_trans (settle_le slot base v).2 h.height_le
  cost_le := Nat.le_trans (settle_le slot base v).1 h.cost_le

end Value

end NetGet.Capnp
