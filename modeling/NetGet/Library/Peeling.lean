import Mathlib.Data.List.Induction

/-! # Taking units off the front of a stream

A reader appends what arrives to a buffer and takes units off its front by a rule on its state and
the buffer. When the rule does not change its mind on more input, outputs and refusal do not depend
on how the stream is cut. -/

namespace NetGet.Library.Peeling

open List

variable {σ α β ε : Type*}

/-- What to do with the front of a buffer. -/
inductive Move (σ β ε : Type*) where
  | wait
  | take (length : ℕ) (next : σ) (output : Option β)
  | refuse (reason : ε)

/-- Only `wait` can change on more input. -/
structure Stable (rule : σ → List α → Move σ β ε) : Prop where
  take : ∀ {s s' : σ} {buffer : List α} {length : ℕ} {output : Option β} (more : List α),
    rule s buffer = .take length s' output → rule s (buffer ++ more) = .take length s' output
  refuse : ∀ {s : σ} {buffer : List α} {reason : ε} (more : List α),
    rule s buffer = .refuse reason → rule s (buffer ++ more) = .refuse reason
  pos : ∀ {s s' : σ} {buffer : List α} {length : ℕ} {output : Option β},
    rule s buffer = .take length s' output → 0 < length
  le : ∀ {s s' : σ} {buffer : List α} {length : ℕ} {output : Option β},
    rule s buffer = .take length s' output → length ≤ buffer.length

/-- A reader; one that has refused keeps nothing. -/
structure Reader (σ α β ε : Type*) where
  state : σ
  buffer : List α
  outputs : List β
  refused : Option ε

namespace Reader

def start (s : σ) : Reader σ α β ε := { state := s, buffer := [], outputs := [], refused := none }

def push (r : Reader σ α β ε) (chunk : List α) : Reader σ α β ε :=
  { r with buffer := r.buffer ++ chunk }

def taken (r : Reader σ α β ε) (length : ℕ) (next : σ) (output : Option β) : Reader σ α β ε :=
  { r with
    state := next
    buffer := r.buffer.drop length
    outputs := r.outputs ++ output.toList }

def refusing (r : Reader σ α β ε) (reason : ε) : Reader σ α β ε :=
  { r with buffer := [], refused := some reason }

end Reader

variable (rule : σ → List α → Move σ β ε)

/-- Take units, at most `fuel` of them. -/
def settle : ℕ → Reader σ α β ε → Reader σ α β ε
  | 0, r => r
  | fuel + 1, r =>
    match rule r.state r.buffer with
    | .wait => r
    | .take length next output => settle fuel (r.taken length next output)
    | .refuse reason => r.refusing reason

/-- Take units while there are any: each has at least one symbol. -/
def finish (r : Reader σ α β ε) : Reader σ α β ε := settle rule (r.buffer.length + 1) r

def read (r : Reader σ α β ε) (chunk : List α) : Reader σ α β ε :=
  match r.refused with
  | some _ => r
  | none => finish rule (r.push chunk)

def readAll (r : Reader σ α β ε) (chunks : List (List α)) : Reader σ α β ε :=
  chunks.foldl (read rule) r

/-- Take units up to the first output: the state, what is left and the output. -/
def next : ℕ → σ → List α → σ × List α × Except ε (Option β)
  | 0, s, buffer => (s, buffer, .ok none)
  | fuel + 1, s, buffer =>
    match rule s buffer with
    | .wait => (s, buffer, .ok none)
    | .take length s' none => next fuel s' (buffer.drop length)
    | .take length s' (some b) => (s', buffer.drop length, .ok (some b))
    | .refuse reason => (s, buffer, .error reason)

variable {rule} {r : Reader σ α β ε} {output : Option β} {s s' : σ} {fuel size : ℕ}

/-- More fuel than symbols changes nothing. -/
theorem settle_congr (hr : Stable rule) {fuel' : ℕ} (h : r.buffer.length < fuel)
    (h' : r.buffer.length < fuel') : settle rule fuel r = settle rule fuel' r := by
  induction fuel generalizing fuel' r with
  | zero => omega
  | succ fuel ih =>
    cases fuel' with
    | zero => omega
    | succ fuel' =>
      rw [settle, settle]
      cases hm : rule r.state r.buffer with
      | wait | refuse => rfl
      | take length s output =>
        have hpos := hr.pos hm
        have hle := hr.le hm
        apply ih <;> simp only [Reader.taken, length_drop] <;> omega

theorem finish_wait (h : rule r.state r.buffer = .wait) : finish rule r = r := by
  rw [finish, settle, h]

theorem finish_refuse {reason : ε} (h : rule r.state r.buffer = .refuse reason) :
    finish rule r = r.refusing reason := by
  rw [finish, settle, h]

theorem finish_take (hr : Stable rule) {length : ℕ}
    (h : rule r.state r.buffer = .take length s output) :
    finish rule r = finish rule (r.taken length s output) := by
  have hpos := hr.pos h
  have hle := hr.le h
  rw [finish, settle, h, finish]
  apply settle_congr hr <;> simp only [Reader.taken, length_drop] <;> omega

/-- Induction over the units of a buffer. -/
theorem finish_induction (hru : Stable rule) {motive : Reader σ α β ε → Prop}
    (hw : ∀ r, rule r.state r.buffer = .wait → motive r)
    (hr : ∀ r reason, rule r.state r.buffer = .refuse reason → motive r)
    (ht : ∀ r length s output, rule r.state r.buffer = .take length s output →
      motive (r.taken length s output) → motive r) (r : Reader σ α β ε) : motive r := by
  induction hn : r.buffer.length using Nat.strongRecOn generalizing r with
  | ind n ih =>
    cases hm : rule r.state r.buffer with
    | wait => exact hw r hm
    | refuse reason => exact hr r reason hm
    | take length s output =>
      have hpos := hru.pos hm
      have hle := hru.le hm
      refine ht r length s output hm (ih _ ?_ _ rfl)
      simp only [Reader.taken, length_drop]
      omega

theorem read_of_open (h : r.refused = none) (chunk : List α) :
    read rule r chunk = finish rule (r.push chunk) := by
  simp only [read, h]

/-- Taking the units of a part first makes no difference. -/
theorem finish_push (hru : Stable rule) (ho : r.refused = none) (chunk : List α) :
    finish rule (r.push chunk) = read rule (finish rule r) chunk := by
  induction r using finish_induction hru with
  | hw r h => rw [finish_wait h, read_of_open ho]
  | hr r reason h =>
    rw [finish_refuse h, finish_refuse (hru.refuse chunk h)]
    rfl
  | ht r length s output h ih =>
    have hd : (r.push chunk).taken length s output = (r.taken length s output).push chunk := by
      simp only [Reader.taken, Reader.push, drop_append_of_le_length (hru.le h)]
    rw [finish_take hru h, finish_take hru (hru.take chunk h), hd]
    exact ih ho

theorem read_append (hru : Stable rule) (r : Reader σ α β ε) (chunk more : List α) :
    read rule r (chunk ++ more) = read rule (read rule r chunk) more := by
  cases hr : r.refused with
  | some reason => simp only [read, hr]
  | none =>
    have hp : r.push (chunk ++ more) = (r.push chunk).push more := by
      simp only [Reader.push, append_assoc]
    rw [read_of_open hr, read_of_open hr, hp]
    exact finish_push hru (r := r.push chunk) hr more

/-- However the stream is cut, the reader ends in the same state. -/
theorem readAll_eq (hru : Stable rule) (hw : rule r.state r.buffer = .wait)
    (chunks : List (List α)) : readAll rule r chunks = read rule r chunks.flatten := by
  induction chunks using reverseRecOn with
  | nil =>
    cases hr : r.refused with
    | some reason => simp [readAll, read, hr]
    | none =>
      have hp : r.push [] = r := by simp only [Reader.push, append_nil]
      rw [flatten_nil, read_of_open hr, hp, finish_wait hw]
      rfl
  | append_singleton chunks chunk ih =>
    rw [readAll, foldl_append, flatten_append, flatten_singleton, read_append hru, ← ih]
    rfl

theorem read_unit (hr : Stable rule) {front : List α}
    (h : rule s front = .take front.length s' output) (outputs : List β) (rest : List α) :
    read rule ⟨s, [], outputs, none⟩ (front ++ rest) =
      read rule ⟨s', [], outputs ++ output.toList, none⟩ rest := by
  have hf := finish_take hr (r := ⟨s, front ++ rest, outputs, none⟩) (hr.take rest h)
  rw [Reader.taken, drop_left] at hf
  exact hf

theorem length_next (hr : Stable rule) {buffer rest : List α} {b : β}
    (h : next rule fuel s buffer = (s', rest, .ok (some b))) : rest.length < buffer.length := by
  induction fuel generalizing s buffer with
  | zero => cases h
  | succ fuel ih =>
    rw [next] at h
    cases hm : rule s buffer with
    | wait | refuse =>
      rw [hm] at h
      cases h
    | take length s₁ output =>
      have hpos := hr.pos hm
      have hle := hr.le hm
      rw [hm] at h
      cases output with
      | none =>
        have hlt := ih h
        rw [length_drop] at hlt
        omega
      | some b' =>
        cases h
        rw [length_drop]
        omega

theorem finish_eq_next (hr : Stable rule) (hf : r.buffer.length < fuel) :
    finish rule r =
      match next rule fuel r.state r.buffer with
      | (s, rest, .ok none) => { r with state := s, buffer := rest }
      | (s, rest, .ok (some b)) =>
        finish rule { r with state := s, buffer := rest, outputs := r.outputs ++ [b] }
      | (s, _, .error reason) =>
        { r with state := s, buffer := [], refused := some reason } := by
  induction fuel generalizing r with
  | zero => omega
  | succ fuel ih =>
    rw [next]
    cases hm : rule r.state r.buffer with
    | wait => rw [finish_wait hm]
    | refuse reason =>
      rw [finish_refuse hm]
      rfl
    | take length s output =>
      have hpos := hr.pos hm
      have hle := hr.le hm
      rw [finish_take hr hm]
      cases output with
      | none =>
        rw [ih (by simp only [Reader.taken, length_drop]; omega)]
        simp only [Reader.taken, Option.toList_none, append_nil]
      | some b => rfl

/-- The pieces of a list, each `size` long but for the last one. -/
def piecesLoop (size : ℕ) : ℕ → List α → List (List α)
  | 0, _ => []
  | _ + 1, [] => []
  | rounds + 1, a :: rest =>
    (a :: rest).take size :: piecesLoop size rounds ((a :: rest).drop size)

def pieces (size : ℕ) (data : List α) : List (List α) := piecesLoop size data.length data

theorem flatten_pieces (hs : 0 < size) (data : List α) : (pieces size data).flatten = data := by
  suffices h : ∀ rounds, data.length ≤ rounds → (piecesLoop size rounds data).flatten = data from
    h _ (Nat.le_refl _)
  intro rounds
  induction rounds generalizing data with
  | zero =>
    intro h
    rw [length_eq_zero_iff.1 (Nat.le_zero.1 h)]
    rfl
  | succ rounds ih =>
    intro h
    cases data with
    | nil => rfl
    | cons a rest =>
      rw [piecesLoop, flatten_cons, ih _ (by simp at h ⊢; omega), take_append_drop]

theorem mem_pieces (hs : 0 < size) {data piece : List α} (h : piece ∈ pieces size data) :
    piece ≠ [] ∧ piece.length ≤ size := by
  suffices hl : ∀ rounds, piece ∈ piecesLoop size rounds data →
      piece ≠ [] ∧ piece.length ≤ size from hl _ h
  clear h
  intro rounds
  induction rounds generalizing data with
  | zero => exact fun h => absurd h not_mem_nil
  | succ rounds ih =>
    intro h
    cases data with
    | nil => exact absurd h not_mem_nil
    | cons a rest =>
      rw [piecesLoop, mem_cons] at h
      rcases h with h | h
      · rw [h]
        refine ⟨?_, length_take_le _ _⟩
        simp
        omega
      · exact ih h

end NetGet.Library.Peeling
