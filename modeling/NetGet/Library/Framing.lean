import NetGet.Library.Peeling

/-! # Framing a stream

A reader appends what arrives to a buffer and cuts frames off its front. When the verdict
on a buffer survives more input, the frames do not depend on how the stream is cut. -/

namespace NetGet.Library.Framing

open List

variable {α ρ : Type*}

/-- The verdict on the front of a buffer. -/
inductive Verdict (ρ : Type*) where
  | frame (length : ℕ)
  | more
  | refuse (reason : ρ)

/-- A verdict other than `more` is final. -/
structure Stable (scan : List α → Verdict ρ) : Prop where
  nil : scan [] = .more
  frame : ∀ {buffer length} (more : List α),
    scan buffer = .frame length → scan (buffer ++ more) = .frame length
  refuse : ∀ {buffer reason} (more : List α),
    scan buffer = .refuse reason → scan (buffer ++ more) = .refuse reason
  pos : ∀ {buffer length}, scan buffer = .frame length → 0 < length
  le : ∀ {buffer length}, scan buffer = .frame length → length ≤ buffer.length

/-- A reader; one that has refused keeps nothing. -/
structure Reader (α ρ : Type*) where
  buffer : List α
  frames : List (List α)
  refused : Option ρ

variable (scan : List α → Verdict ρ)

/-- Cut frames off the buffer, at most `fuel` of them. -/
def deliver : ℕ → Reader α ρ → Reader α ρ
  | 0, r => r
  | fuel + 1, r =>
    match scan r.buffer with
    | .frame length =>
      deliver fuel
        { r with
          buffer := r.buffer.drop length
          frames := r.frames ++ [r.buffer.take length] }
    | .more => r
    | .refuse reason => { r with buffer := [], refused := some reason }

def Reader.new : Reader α ρ := { buffer := [], frames := [], refused := none }

/-- One read from the socket; a frame takes at least one element of the buffer. -/
def read (r : Reader α ρ) (chunk : List α) : Reader α ρ :=
  match r.refused with
  | some _ => r
  | none =>
    deliver scan (r.buffer.length + chunk.length + 1) { r with buffer := r.buffer ++ chunk }

def readAll (r : Reader α ρ) (chunks : List (List α)) : Reader α ρ := chunks.foldl (read scan) r

/-- The rule of a reader that takes frames as units. -/
def rule (_ : Unit) (buffer : List α) : Peeling.Move Unit (List α) ρ :=
  match scan buffer with
  | .frame length => .take length () (some (buffer.take length))
  | .more => .wait
  | .refuse reason => .refuse reason

def Reader.peeling (r : Reader α ρ) : Peeling.Reader Unit α (List α) ρ :=
  ⟨(), r.buffer, r.frames, r.refused⟩

variable {scan}

theorem rule_eq_take {s s' : Unit} {buffer : List α} {length : ℕ} {output : Option (List α)}
    (h : rule scan s buffer = .take length s' output) :
    scan buffer = .frame length ∧ output = some (buffer.take length) := by
  unfold rule at h
  split at h <;> cases h
  exact ⟨by assumption, rfl⟩

theorem Stable.rule (hs : Stable scan) : Peeling.Stable (rule scan) where
  take := by
    intro s s' buffer length output more h
    obtain ⟨hv, rfl⟩ := rule_eq_take h
    simp only [Framing.rule, hs.frame more hv, take_append_of_le_length (hs.le hv)]
  refuse := by
    intro s buffer reason more h
    unfold Framing.rule at h ⊢
    split at h <;> cases h
    rename_i hv
    rw [hs.refuse more hv]
  pos h := hs.pos (rule_eq_take h).1
  le h := hs.le (rule_eq_take h).1

theorem peeling_deliver (fuel : ℕ) (r : Reader α ρ) :
    (deliver scan fuel r).peeling = Peeling.settle (rule scan) fuel r.peeling := by
  induction fuel generalizing r with
  | zero => rfl
  | succ fuel ih =>
    simp only [deliver, Peeling.settle, rule, Reader.peeling]
    cases scan r.buffer with
    | frame length => exact ih _
    | more | refuse => rfl

theorem peeling_read (r : Reader α ρ) (chunk : List α) :
    (read scan r chunk).peeling = Peeling.read (rule scan) r.peeling chunk := by
  unfold read Peeling.read
  cases h : r.refused with
  | some reason => simp [Reader.peeling, h]
  | none =>
    simp only [Reader.peeling, h, Peeling.finish, Peeling.Reader.push, length_append]
    exact peeling_deliver _ _

theorem peeling_readAll (r : Reader α ρ) (chunks : List (List α)) :
    (readAll scan r chunks).peeling = Peeling.readAll (rule scan) r.peeling chunks := by
  induction chunks generalizing r with
  | nil => rfl
  | cons chunk chunks ih => exact (ih _).trans (congrArg (foldl _ · _) (peeling_read r chunk))

/-- However the stream is cut, the reader ends in the same state. -/
theorem readAll_eq (hs : Stable scan) (chunks : List (List α)) :
    readAll scan .new chunks = read scan .new chunks.flatten := by
  have hw : rule scan () [] = .wait := by rw [rule, hs.nil]
  have h := Peeling.readAll_eq hs.rule (r := Reader.new.peeling) hw chunks
  rw [← peeling_readAll, ← peeling_read] at h
  generalize readAll scan .new chunks = a, read scan .new chunks.flatten = b at h
  cases a
  cases b
  cases h
  rfl

end NetGet.Library.Framing
