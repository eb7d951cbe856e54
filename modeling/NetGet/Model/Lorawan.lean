import NetGet.Library.Machine
import NetGet.Model.Bytes

/-! # LoRaWAN uplinks

A data frame, the reconstruction of its 32-bit frame counter and the part of the uplink handler
that runs under the lock of the sessions. A subtraction that underflows panics: `none`. -/

namespace NetGet.Lorawan

open Library

def mtypeUnconfirmedUp : UInt8 := 2
def mtypeUnconfirmedDown : UInt8 := 3
def mtypeConfirmedUp : UInt8 := 4
def mtypeConfirmedDown : UInt8 := 5

def majorR1 : UInt8 := 0

def maxFcntGap : ℕ := 16384

def maxPhyPayload : ℕ := 255
def minDataLen : ℕ := 12

def mtypeName (mtype : UInt8) : String :=
  match mtype.toNat with
  | 0 => "join_request"
  | 1 => "join_accept"
  | 2 => "unconfirmed_data_up"
  | 3 => "unconfirmed_data_down"
  | 4 => "confirmed_data_up"
  | 5 => "confirmed_data_down"
  | 6 => "rejoin_request"
  | _ => "proprietary"

structure DataFrame where
  mtype : UInt8
  devAddr : UInt32
  adr : Bool
  adrAckReq : Bool
  ack : Bool
  /-- FPending on a downlink; ClassB on an uplink. -/
  fPending : Bool
  fCnt : UInt16
  fOpts : Bytes
  fPort : Option UInt8
  frmPayload : Bytes
  mic : Bytes

def mtypeOf (phy : Bytes) : Except String UInt8 :=
  match phy with
  | [] => .error "empty PHYPayload"
  | first :: _ => do
    ensure (first &&& 0x03 == majorR1)
      s!"MHDR major version {first &&& 0x03} is not LoRaWAN R1"
    return first >>> 5

/-- The byte at `i`. Every index that is read lies below a length that was checked before. -/
def byteAt (phy : Bytes) (i : ℕ) : UInt8 := phy.getD i 0

def parseData (phy : Bytes) : Except String DataFrame := do
  ensure (minDataLen ≤ phy.length) s!"a data frame is at least {minDataLen} bytes"
  ensure (phy.length ≤ maxPhyPayload) s!"a PHYPayload is at most {maxPhyPayload} bytes"
  let mtype ← mtypeOf phy
  ensure (mtype == mtypeUnconfirmedUp || mtype == mtypeConfirmedUp ||
      mtype == mtypeUnconfirmedDown || mtype == mtypeConfirmedDown)
    (mtypeName mtype ++ " is not a data frame")
  let fctrl := byteAt phy 5
  let foptsLen := (fctrl &&& 0x0f).toNat
  let bodyEnd := phy.length - 4
  let foptsEnd := 8 + foptsLen
  ensure (foptsEnd ≤ bodyEnd) "FOptsLen runs past the frame"
  let fOpts := (phy.take foptsEnd).drop 8
  let (fPort, frmPayload) :=
    if foptsEnd < bodyEnd then
      (some (byteAt phy foptsEnd), (phy.take bodyEnd).drop (foptsEnd + 1))
    else (none, [])
  if fPort == some 0 then
    ensure fOpts.isEmpty "MAC commands in both FOpts and FPort 0 are not allowed"
  return {
    mtype := mtype
    devAddr := (byteAt phy 1).toUInt32 ||| ((byteAt phy 2).toUInt32 <<< 8) |||
      ((byteAt phy 3).toUInt32 <<< 16) ||| ((byteAt phy 4).toUInt32 <<< 24)
    adr := fctrl &&& 0x80 != 0
    adrAckReq := fctrl &&& 0x40 != 0
    ack := fctrl &&& 0x20 != 0
    fPending := fctrl &&& 0x10 != 0
    fCnt := (byteAt phy 6).toUInt16 ||| ((byteAt phy 7).toUInt16 <<< 8)
    fOpts := fOpts
    fPort := fPort
    frmPayload := frmPayload
    mic := phy.drop bodyEnd }

/-- The full 32-bit counter a 16-bit one on air stands for, given the last one accepted: the last
counter's upper half, moved on by one wrap when the low half went backwards. -/
def fullFcnt (last : Option UInt32) (wire : UInt16) : UInt32 :=
  match last with
  | none => wire.toUInt32
  | some last =>
    let candidate := (last &&& 0xffff0000) ||| wire.toUInt32
    if candidate < last then candidate + 0x10000 else candidate

inductive FcntCheck where
  /-- Newer than anything accepted, within `maxFcntGap`. -/
  | fresh (full : UInt32)
  /-- The same counter as the last accepted frame: a retransmission. -/
  | repetition (full : UInt32)
  /-- Further ahead than `maxFcntGap`. -/
  | tooFar (full : UInt32)
  deriving DecidableEq

/-- What to do with a counter; `none` is a panic in `full - l`. -/
def classifyFcnt (last : Option UInt32) (wire : UInt16) : Option FcntCheck :=
  let full := fullFcnt last wire
  match last with
  | none => some (.fresh full)
  | some l =>
    if full = l then some (.repetition full)
    else if full < l then none
    else if maxFcntGap < (full - l).toNat then some (.tooFar full)
    else some (.fresh full)

/-- Whether the MIC of a PHYPayload verifies with the session's key at a full counter. -/
abbrev MicOk := Bytes → UInt32 → Bool

/-- A session as the uplink handler sees it, with the frames it accepted; the record is not in the
source and read by nothing. -/
structure Session where
  devAddr : UInt32
  fcntUp : Option UInt32
  accepted : List (Bytes × UInt32)
  deriving DecidableEq

inductive Decision where
  | refused (why : String)
  | accepted (full : UInt32)
  | panicked
  deriving DecidableEq

namespace Session

def new (devAddr : UInt32) : Session := { devAddr := devAddr, fcntUp := none, accepted := [] }

def check (micOk : MicOk) (s : Session) (phy : Bytes) (frame : DataFrame) : Decision :=
  match classifyFcnt s.fcntUp frame.fCnt with
  | none => .panicked
  | some (.repetition _) => .refused "fail_closed_repeated_fcnt"
  | some (.tooFar _) => .refused "fail_closed_fcnt_replay"
  | some (.fresh full) =>
    if micOk phy full then .accepted full else .refused "fail_closed_bad_mic"

def decision (micOk : MicOk) (s : Session) (phy : Bytes) : Decision :=
  match mtypeOf phy with
  | .error e => .refused e
  | .ok mtype =>
    if mtype == mtypeUnconfirmedUp || mtype == mtypeConfirmedUp then
      match parseData phy with
      | .error e => .refused e
      | .ok frame =>
        if frame.devAddr = s.devAddr then s.check micOk phy frame
        else .refused "fail_closed_unknown_dev_addr"
    else .refused (mtypeName mtype ++ " frames are not handled")

def uplink (micOk : MicOk) (s : Session) (phy : Bytes) : Session :=
  match s.decision micOk phy with
  | .accepted full =>
    { s with fcntUp := some full, accepted := s.accepted ++ [(phy, full)] }
  | _ => s

end Session

end NetGet.Lorawan
