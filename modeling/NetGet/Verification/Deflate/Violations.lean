import NetGet.Verification.Deflate.Transparency

/-! # Which violations of the framing reach the layer above -/

namespace NetGet.Deflate

open Library Peeling

inductive Violation where
  | nested
  | stray
  | reserved
  | unmasked
  deriving DecidableEq

/-- The frame itself, where `opened` says whether a message is unfinished. -/
def Frame.violates (v : Violation) (opened : Bool) (f : Frame) : Bool :=
  match v with
  | .nested => !f.isControlFrame && f.opcode != 0 && opened
  | .stray => f.opcode == 0 && !opened
  | .reserved => f.rsv23 != 0
  | .unmasked => f.mask.isNone

def Frame.leaves (opened : Bool) (f : Frame) : Bool :=
  if f.isControlFrame then opened
  else if f.opcode ≠ 0 then !f.fin
  else opened && !f.fin

def violates (v : Violation) : Bool → List Frame → Bool
  | _, [] => false
  | opened, f :: frames => f.violates v opened || violates v (f.leaves opened) frames

variable {κ : Type} {v : Violation} {opened : Bool} {f : Frame} {frames xs ys out : List Frame}
  {inflate : κ → Bytes → Except String (Bytes × κ)} {maxMessage maxFrame : ℕ} {d d' : Direction κ}

/-- A frame that `process_read` does not hide. -/
def Careful (d : Direction κ) (f : Frame) : Prop :=
  f.isControlFrame = true ∨
    match d.pending with
    | none => f.opcode ≠ 0 → f.rsv1 = true → f.fin = false → f.rsv23 = 0
    | some p => f.opcode = 0 ∧ (f.fin = false → f.rsv23 = 0) ∧ (f.mask = none → p.mask = none)

def Direction.inMessage (d : Direction κ) : Bool := d.pending.isSome || d.passing

/-- What the message that is held back will show when it is put out. -/
def Owes (d : Direction κ) (v : Violation) : Prop :=
  v = .unmasked ∧ ∃ p, d.pending = some p ∧ p.mask = none

/-- Either a compressed message is unfinished or another one. -/
def Apart (d : Direction κ) : Prop := d.pending.isSome = true → d.passing = false

/-- What a frame and the frames put out for it do. -/
structure Shows (d : Direction κ) (f : Frame) (d' : Direction κ) (out : List Frame) : Prop where
  apart : Apart d'
  inMessage : f.leaves d.inMessage = d'.inMessage
  passing : out.foldl Frame.leaves d.passing = d'.passing
  shown : ∀ v, f.violates v d.inMessage = true ∨ Owes d v → violates v d.passing out = true ∨ Owes d' v

/-- An uncompressed message inside a compressed one. -/
def inside : List Frame :=
  [⟨false, true, 0, 1, some fun _ => 7, [0xca, 0xc8]⟩, ⟨true, false, 0, 2, some fun _ => 7, [1]⟩,
    ⟨true, false, 0, 0, some fun _ => 7, [0x04, 0x00]⟩]

end NetGet.Deflate
