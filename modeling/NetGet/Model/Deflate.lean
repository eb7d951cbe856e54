import Mathlib
import NetGet.Library.BigEndian
import NetGet.Library.Peeling
import NetGet.Model.Bytes

/-! # permessage-deflate beneath a WebSocket

A stream in `Active` mode, one direction of it at a time. The compressor and the decompressor are
parameters: a state and what a call returns. -/

namespace NetGet.Deflate

open Library Peeling

scoped instance neZero_four : NeZero 4 := ⟨by decide⟩

scoped instance neZero_sixteen : NeZero 16 := ⟨by decide⟩

abbrev Mask := Fin 4 → UInt8

structure Frame where
  fin : Bool
  rsv1 : Bool
  rsv23 : Fin 4
  opcode : Fin 16
  mask : Option Mask
  payload : Bytes
  deriving DecidableEq

inductive Refusal where
  | frameExceeds (len limit : ℕ)
  | beganInside
  | rsv1OnContinuation
  | messageExceeds (limit : ℕ)
  | codec (message : String)
  deriving DecidableEq

namespace Frame

def isControlFrame (f : Frame) : Bool := 8 ≤ f.opcode

def applyMask (mask : Mask) (payload : Bytes) : Bytes :=
  payload.mapIdx fun i b => b ^^^ mask (Fin.ofNat 4 i)

def parseLength (b1 : UInt8) (rest : Bytes) : Option (ℕ × ℕ) :=
  if b1.toNat % 128 = 126 then if rest.length < 2 then none else some (fromBe (rest.take 2), 2)
  else if b1.toNat % 128 = 127 then
    if rest.length < 8 then none else some (fromBe (rest.take 8), 8)
  else some (b1.toNat % 128, 0)

def parse (limit : ℕ) : Bytes → Except Refusal (Option (Frame × ℕ))
  | b0 :: b1 :: rest =>
      match parseLength b1 rest with
      | none => .ok none
      | some (len, skip) =>
          let masked := decide (128 ≤ b1.toNat)
          let start := if masked then skip + 4 else skip
          if limit < len then .error (.frameExceeds len limit)
          else if rest.length < start + len then .ok none
          else
            let mask := if masked then some fun i : Fin 4 => rest.getD (skip + i) 0 else none
            let payload := (rest.drop start).take len
            let frame : Frame :=
              { fin := 128 ≤ b0.toNat
                rsv1 := b0.toNat / 64 % 2 = 1
                rsv23 := Fin.ofNat 4 (b0.toNat / 16)
                opcode := Fin.ofNat 16 b0.toNat
                mask
                payload := mask.elim payload (applyMask · payload) }
            .ok (some (frame, 2 + start + len))
  | _ => .ok none

def lengthBytes (masked : Bool) (len : ℕ) : Bytes :=
  let bit := if masked then 128 else 0
  if len < 126 then [UInt8.ofNat (bit + len)]
  else if len ≤ 65535 then UInt8.ofNat (bit + 126) :: toBe 2 len
  else UInt8.ofNat (bit + 127) :: toBe 8 len

def encode (f : Frame) : Bytes :=
  UInt8.ofNat (f.fin.toNat * 128 + f.rsv1.toNat * 64 + f.rsv23 * 16 + f.opcode) ::
    (lengthBytes f.mask.isSome f.payload.length ++
      f.mask.elim f.payload fun mask => List.ofFn mask ++ applyMask mask f.payload)

end Frame

structure Partial where
  opcode : Fin 16
  mask : Option Mask
  payload : Bytes
  deriving DecidableEq

/-- One direction, with the state of its half of the codec. -/
structure Direction (κ : Type) where
  pending : Option Partial
  passing : Bool
  codec : κ

def Direction.new {κ : Type} (codec : κ) : Direction κ :=
  { pending := none, passing := false, codec }

abbrev Outcome (κ : Type) := Except Refusal (Direction κ × List Frame)

/-- The first frame of a message has its opcode, and only the last one is final. -/
def emitChunks (rsv23 : Fin 4) (mask : Option Mask) : Fin 16 → List Bytes → List Frame
  | _, [] => []
  | opcode, [payload] => [{ fin := true, rsv1 := false, rsv23, opcode, mask, payload }]
  | opcode, payload :: rest =>
      { fin := false, rsv1 := false, rsv23, opcode, mask, payload } :: emitChunks rsv23 mask 0 rest

/-- An inflated message as frames of at most `maxFrame` bytes each. -/
def emitMessage (maxFrame : ℕ) (opcode : Fin 16) (rsv23 : Fin 4) (mask : Option Mask)
    (payload : Bytes) : List Frame :=
  if payload.length ≤ maxFrame then emitChunks rsv23 mask opcode [payload]
  else emitChunks rsv23 mask opcode (pieces maxFrame payload)

section

variable {κ : Type} (call : κ → Bytes → Except String (Bytes × κ))

/-- The message is whole: call the codec, and put out what `emit` makes of the result. -/
def complete (d : Direction κ) (payload : Bytes) (emit : Bytes → List Frame) : Outcome κ :=
  match call d.codec payload with
  | .error message => .error (.codec message)
  | .ok (payload, codec) => .ok ({ d with pending := none, codec }, emit payload)

/-- A round of `process_read`; `call` inflates. -/
def readFrame (maxMessage maxFrame : ℕ) (d : Direction κ) (f : Frame) : Outcome κ :=
  if f.isControlFrame then .ok (d, [f])
  else if f.opcode ≠ 0 ∧ f.rsv1 then
    if d.pending.isSome ∨ d.passing then .error .beganInside
    else if f.fin then
      complete call d f.payload (emitMessage (max maxFrame 1) f.opcode f.rsv23 f.mask)
    else .ok ({ d with pending := some { f with } }, [])
  else
    match if f.opcode = 0 then d.pending else none with
    | some p =>
        if f.rsv1 then .error .rsv1OnContinuation
        else if maxMessage < p.payload.length + f.payload.length then
          .error (.messageExceeds maxMessage)
        else if f.fin then
          complete call d (p.payload ++ f.payload)
            (emitMessage (max maxFrame 1) p.opcode f.rsv23 p.mask)
        else .ok ({ d with pending := some { p with payload := p.payload ++ f.payload } }, [])
    -- an uncompressed message, or a stray continuation
    | none =>
        let passing := if f.opcode ≠ 0 then !f.fin else d.passing && !f.fin
        .ok ({ d with passing }, [f])

/-- A round of `process_write`; `call` deflates. -/
def writeFrame (d : Direction κ) (f : Frame) : Outcome κ :=
  if f.isControlFrame then .ok (d, [f])
  else
    match if f.opcode = 0 then d.pending.map fun p => { p with payload := p.payload ++ f.payload }
      else some { f with } with
    | none => .ok (d, [f])
    | some p =>
        if f.fin then
          complete call d p.payload fun payload =>
            [{ p with fin := true, rsv1 := true, rsv23 := 0, payload }]
        else .ok ({ d with pending := some p }, [])

end

/-- What either loop does with the front of its raw bytes. -/
def rule {κ : Type} (limit : ℕ) (turn : Direction κ → Frame → Outcome κ) (d : Direction κ)
    (raw : Bytes) : Move (Direction κ) (List Frame) Refusal :=
  match Frame.parse limit raw with
  | .error e => .refuse e
  | .ok none => .wait
  | .ok (some (f, used)) =>
      match turn d f with
      | .error e => .refuse e
      | .ok (d, out) => .take used d (some out)

/-- `process_read` on bytes that arrive in chunks. -/
def processRead {κ : Type} (inflate : κ → Bytes → Except String (Bytes × κ))
    (maxMessage maxFrame : ℕ) (codec : κ) (chunks : List Bytes) :
    Reader (Direction κ) UInt8 (List Frame) Refusal :=
  readAll (rule maxMessage (readFrame inflate maxMessage maxFrame)) (.start (.new codec)) chunks

/-- `process_write` on bytes that are written in chunks. -/
def processWrite {κ : Type} (deflate : κ → Bytes → Except String (Bytes × κ)) (codec : κ)
    (chunks : List Bytes) : Reader (Direction κ) UInt8 (List Frame) Refusal :=
  readAll (rule (2 ^ 63 - 1) (writeFrame deflate)) (.start (.new codec)) chunks

def putOut {κ : Type} (r : Reader (Direction κ) UInt8 (List Frame) Refusal) : Bytes :=
  r.outputs.flatten.flatMap Frame.encode

end NetGet.Deflate
