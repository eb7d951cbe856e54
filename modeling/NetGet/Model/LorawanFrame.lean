import NetGet.Model.Lorawan

/-! # LoRaWAN data frames that are sent

`aes` is the encryption of one block under a key. -/

namespace NetGet.Lorawan

/-- Sixteen bytes: a key or a block. -/
abbrev Block := Vector UInt8 16

abbrev Aes := Block → Block → Block

def maxFopts : ℕ := 15
def dirUp : UInt8 := 0
def dirDown : UInt8 := 1

def mhdr (mtype : UInt8) : UInt8 := (mtype <<< 5) ||| majorR1

def shiftLeft (b : Block) : Block :=
  .ofFn fun i => (b[i] <<< 1) ||| (b.toList.getD (i + 1) 0 >>> 7)

/-- A subkey from the one before it. -/
def subkey (b : Block) : Block :=
  let k := shiftLeft b
  if b[0] &&& 0x80 != 0 then k.set 15 (k[15] ^^^ 0x87) else k

def xor (a b : Block) : Block := .ofFn fun i => a[i] ^^^ b[i]

/-- A block that starts with the given bytes. -/
def padded (bytes : Bytes) : Block := .ofFn fun i => bytes.getD i 0

def aesCmac (aes : Aes) (key : Block) (message : Bytes) : Block :=
  let k1 := subkey (aes key (padded []))
  let k2 := subkey k1
  let blocks := max ((message.length + 15) / 16) 1
  let complete := !message.isEmpty && message.length % 16 == 0
  (List.range blocks).foldl (fun x i =>
    let tail := message.drop (i * 16)
    let block :=
      if i + 1 < blocks then padded (tail.take 16)
      else if complete then xor (padded tail) k1
      else xor (padded (tail ++ [0x80])) k2
    aes key (xor x block)) (padded [])

def mic (aes : Aes) (key : Block) (message : Bytes) : Bytes :=
  (aesCmac aes key message).toList.take 4

def leBytes32 (v : UInt32) : Bytes :=
  [v.toUInt8, (v >>> 8).toUInt8, (v >>> 16).toUInt8, (v >>> 24).toUInt8]

def leBytes16 (v : UInt16) : Bytes := [v.toUInt8, (v >>> 8).toUInt8]

def block (first dir : UInt8) (devAddr fCnt : UInt32) (last : UInt8) : Block :=
  padded ([first, 0, 0, 0, 0, dir] ++ leBytes32 devAddr ++ leBytes32 fCnt ++ [0, last])

def dataMic (aes : Aes) (nwkSKey : Block) (dir : UInt8) (devAddr fCnt : UInt32) (msg : Bytes) :
    Bytes :=
  mic aes nwkSKey ((block 0x49 dir devAddr fCnt (UInt8.ofNat msg.length)).toList ++ msg)

def dataMicOk (aes : Aes) (phy : Bytes) (nwkSKey : Block) (dir : UInt8) (devAddr fCnt : UInt32) :
    Bool :=
  if phy.length < minDataLen then false
  else
    let n := phy.length - 4
    dataMic aes nwkSKey dir devAddr fCnt (phy.take n) == phy.drop n

/-- The keystream XOR: a byte is byte `j % 16` of the chunk `j / 16`. -/
def cryptFrm (aes : Aes) (key : Block) (dir : UInt8) (devAddr fCnt : UInt32) (payload : Bytes) :
    Bytes :=
  payload.mapIdx fun j p =>
    let s := aes key (block 0x01 dir devAddr fCnt (UInt8.ofNat (j / 16 + 1)))
    p ^^^ s[j % 16]

/-- A frame to build: the payload is plaintext. -/
structure OutFrame where
  mtype : UInt8
  devAddr : UInt32
  adr : Bool
  adrAckReq : Bool
  ack : Bool
  fPending : Bool
  fCnt : UInt32
  fOpts : Bytes
  fPort : Option UInt8
  payload : Bytes

def OutFrame.dir (f : OutFrame) : UInt8 :=
  if f.mtype == mtypeUnconfirmedUp || f.mtype == mtypeConfirmedUp then dirUp else dirDown

def OutFrame.fctrl (f : OutFrame) : UInt8 :=
  (f.adr.toUInt8 <<< 7) ||| (f.adrAckReq.toUInt8 <<< 6) ||| (f.ack.toUInt8 <<< 5) |||
    (f.fPending.toUInt8 <<< 4) ||| UInt8.ofNat f.fOpts.length

/-- What the integrity code is computed over. -/
def OutFrame.msg (aes : Aes) (f : OutFrame) (nwkSKey appSKey : Block) : Bytes :=
  [mhdr f.mtype] ++ leBytes32 f.devAddr ++ [f.fctrl] ++ leBytes16 f.fCnt.toUInt16 ++ f.fOpts ++
    match f.fPort with
    | none => []
    | some port =>
      let key := if port = 0 then nwkSKey else appSKey
      port :: cryptFrm aes key f.dir f.devAddr f.fCnt f.payload

def encodeData (aes : Aes) (f : OutFrame) (nwkSKey appSKey : Block) : Except String Bytes := do
  ensure (f.fOpts.length ≤ maxFopts) "FOpts is at most 15 bytes"
  if f.fPort.isNone then
    ensure f.payload.isEmpty "a payload needs an FPort"
  let b := f.msg aes nwkSKey appSKey
  let b := b ++ dataMic aes nwkSKey f.dir f.devAddr f.fCnt b
  ensure (b.length ≤ maxPhyPayload) "the frame exceeds 255 bytes"
  return b

end NetGet.Lorawan
