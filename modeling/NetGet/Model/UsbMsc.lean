import NetGet.Library.Arith
import NetGet.Library.Machine
import NetGet.Library.Overwrite
import NetGet.Model.Bytes

/-! # USB mass storage: Bulk-Only Transport and SCSI over a disk image

The handler is driven by the host's transfers and by the actions that mount, eject and protect
the medium. The disks are kept beside it, since an unmounted disk still exists. -/

namespace NetGet.UsbMsc

open Library

/-! ## Numbers in byte strings -/

/-- `from_be_bytes` -/
def fromBe (bytes : Bytes) : ℕ := bytes.foldl (fun n b => n * 256 + b.toNat) 0

/-- `from_le_bytes` -/
def fromLe (bytes : Bytes) : ℕ := fromBe bytes.reverse

/-- `u32::to_le_bytes` -/
def toLe32 (n : ℕ) : Bytes :=
  [UInt8.ofNat n, UInt8.ofNat (n / 2 ^ 8), UInt8.ofNat (n / 2 ^ 16), UInt8.ofNat (n / 2 ^ 24)]

/-- `u32::to_be_bytes` -/
def toBe32 (n : ℕ) : Bytes := (toLe32 n).reverse

/-! ## The disk -/

def bytesPerSector : ℕ := 512

/-- A flat array of sectors, in memory or mapped from a file. -/
structure DiskImage where
  bytes : Bytes
  totalSectors : ℕ
  mapped : Bool
  length_bytes : bytes.length = totalSectors * bytesPerSector
  totalSectors_lt : totalSectors < 2 ^ 32
  deriving DecidableEq

namespace DiskImage

def sectors (d : DiskImage) (lba count : ℕ) : Bytes :=
  (d.bytes.drop (lba * bytesPerSector)).take (count * bytesPerSector)

def readSectors (d : DiskImage) (lba count : ℕ) : Except String Bytes :=
  match checkedAdd 32 lba count with
  | none => .error "Read beyond disk bounds: LBA + count overflows"
  | some stop =>
    if d.totalSectors < stop then
      .error s!"Read beyond disk bounds: LBA {lba} + {count} > {d.totalSectors}"
    else .ok (d.sectors lba count)

/-- Copy the data into the array, which the callers have checked to be long enough. -/
def put (d : DiskImage) (offset : ℕ) (data : Bytes) : DiskImage :=
  if h : offset + data.length ≤ d.bytes.length then
    { d with
      bytes := overwrite d.bytes offset data
      length_bytes := (length_overwrite h).trans d.length_bytes }
  else d

/-- Write the data, with whether a mapped file can be flushed. A failed flush leaves the data in
the array. -/
def writeSectors (d : DiskImage) (lba : ℕ) (data : Bytes) (flushes : Bool) :
    DiskImage × Except String ℕ :=
  let count := (data.length + (bytesPerSector - 1)) / bytesPerSector
  if 2 ^ 32 ≤ count then (d, .error "Write payload is too large to address in sectors")
  else
    match checkedAdd 32 lba count with
    | none => (d, .error "Write beyond disk bounds: LBA + count overflows")
    | some stop =>
      if d.totalSectors < stop then
        (d, .error s!"Write beyond disk bounds: LBA {lba} + {count} > {d.totalSectors}")
      else
        (d.put (lba * bytesPerSector) data,
          if d.mapped && !flushes then .error "Failed to flush disk writes" else .ok count)

end DiskImage

/-! ## The wrappers -/

structure Cbw where
  tag : ℕ
  dataTransferLength : ℕ
  flags : UInt8
  lun : UInt8
  cbLength : UInt8
  cb : Bytes
  deriving DecidableEq

def Cbw.parse (data : Bytes) : Option Cbw :=
  if data.length ≠ 31 then none
  else if fromLe (data.take 4) ≠ 0x43425355 then none
  else
    some
      { tag := fromLe ((data.drop 4).take 4)
        dataTransferLength := fromLe ((data.drop 8).take 4)
        flags := data.getD 12 0
        lun := data.getD 13 0
        cbLength := data.getD 14 0
        cb := data.drop 15 }

def Cbw.scsiCommand (cbw : Cbw) : Bytes := cbw.cb.take (min cbw.cbLength.toNat 16)

def statusPassed : UInt8 := 0
def statusFailed : UInt8 := 1

def cswBytes (tag residue : ℕ) (status : UInt8) : Bytes :=
  toLe32 0x53425355 ++ toLe32 tag ++ toLe32 residue ++ [status]

/-! ## The handler -/

/-- A completed sector transfer that is reported to the connection task. -/
inductive IoEvent where
  | read (lba sectors bytes : ℕ)
  | write (lba sectors bytes : ℕ)
  deriving DecidableEq

/-- The handler. Its disk is given by its place among the disks. -/
structure Handler where
  disk : ℕ
  mediumPresent : Bool
  currentCbw : Option Cbw
  pendingData : Bytes
  lastTag : ℕ
  expectedTransfer : ℕ
  transferred : ℕ
  cswPending : Bool
  commandStatus : UInt8
  senseKey : UInt8
  senseAsc : UInt8
  senseAscq : UInt8
  pendingWrite : Option (ℕ × ℕ)
  writeProtect : Bool
  io : List IoEvent
  deriving DecidableEq

namespace Handler

def new (disk : ℕ) (writeProtect : Bool) : Handler :=
  { disk := disk
    mediumPresent := true
    currentCbw := none
    pendingData := []
    lastTag := 0
    expectedTransfer := 0
    transferred := 0
    cswPending := false
    commandStatus := statusPassed
    senseKey := 0
    senseAsc := 0
    senseAscq := 0
    pendingWrite := none
    writeProtect := writeProtect
    io := [] }

def setSense (h : Handler) (key asc ascq : UInt8) : Handler :=
  { h with senseKey := key, senseAsc := asc, senseAscq := ascq }

def clearSense (h : Handler) : Handler := h.setSense 0 0 0

def reportIo (h : Handler) (event : IoEvent) : Handler := { h with io := h.io ++ [event] }

def resetBotState (h : Handler) : Handler :=
  clearSense
    { h with
      currentCbw := none
      pendingData := []
      cswPending := false
      pendingWrite := none
      expectedTransfer := 0
      transferred := 0
      commandStatus := statusPassed }

def mountDisk (h : Handler) (disk : ℕ) : Handler :=
  resetBotState { h with disk := disk, mediumPresent := true }

def ejectDisk (h : Handler) : Handler := setSense { h with mediumPresent := false } 0x02 0x3A 0x00

def setWriteProtect (h : Handler) (enabled : Bool) : Handler := { h with writeProtect := enabled }

def respond (h : Handler) (data : Bytes) : Handler × UInt8 :=
  (clearSense { h with pendingData := data }, statusPassed)

def noMedium (h : Handler) : Handler × UInt8 := (h.setSense 0x02 0x3A 0x00, statusFailed)

def malformedCdb (h : Handler) : Handler × UInt8 := (h.setSense 0x05 0x24 0x00, statusFailed)

def unsupported (h : Handler) : Handler × UInt8 := (h.setSense 0x05 0x20 0x00, statusFailed)

/-- The disk's mutex is poisoned. -/
def hardwareError (h : Handler) : Handler × UInt8 := (h.setSense 0x04 0x44 0x00, statusFailed)

def inquiryResponse : Bytes :=
  [0x00, 0x80, 0x05, 0x02, 0x1F, 0x00, 0x00, 0x00,
    78, 101, 116, 71, 101, 116, 32, 32,
    86, 105, 114, 116, 117, 97, 108, 32, 68, 105, 115, 107, 32, 32, 32, 32,
    49, 46, 48, 32]

def scsiInquiry (h : Handler) (cmd : Bytes) : Handler × UInt8 :=
  match cmd[4]? with
  | none => h.malformedCdb
  | some allocLen => h.respond (inquiryResponse.take allocLen.toNat)

def scsiTestUnitReady (h : Handler) : Handler × UInt8 :=
  if !h.mediumPresent then h.noMedium else (h.clearSense, statusPassed)

def scsiReadCapacity (h : Handler) (disk : Option DiskImage) : Handler × UInt8 :=
  if !h.mediumPresent then h.noMedium
  else
    match disk with
    | none => h.hardwareError
    | some d => h.respond (toBe32 (d.totalSectors - 1) ++ toBe32 bytesPerSector)

def cdbLba (cmd : Bytes) : ℕ := fromBe ((cmd.drop 2).take 4)

def cdbTransferLen (cmd : Bytes) : ℕ := fromBe ((cmd.drop 7).take 2)

def scsiRead10 (h : Handler) (disk : Option DiskImage) (cmd : Bytes) : Handler × UInt8 :=
  if cmd.length < 9 then h.malformedCdb
  else if !h.mediumPresent then h.noMedium
  else
    match disk with
    | none => (h.setSense 0x05 0x21 0x00, statusFailed)
    | some d =>
      match d.readSectors (cdbLba cmd) (cdbTransferLen cmd) with
      | .ok data =>
        ((clearSense { h with pendingData := data }).reportIo
          (.read (cdbLba cmd) (cdbTransferLen cmd) data.length), statusPassed)
      | .error _ => (h.setSense 0x05 0x21 0x00, statusFailed)

/-- The data of the write will arrive in a separate transfer. -/
def scsiWrite10 (h : Handler) (cmd : Bytes) : Handler × UInt8 :=
  if cmd.length < 9 then h.malformedCdb
  else if !h.mediumPresent then h.noMedium
  else if h.writeProtect then (h.setSense 0x07 0x27 0x00, statusFailed)
  else
    (clearSense { h with pendingWrite := some (cdbLba cmd, cdbTransferLen cmd) }, statusPassed)

/-- A missing medium is a standing condition. -/
def rearm (h : Handler) : Handler :=
  if !h.mediumPresent then h.setSense 0x02 0x3A 0x00 else h

/-- Reporting the sense consumes it. -/
def scsiRequestSense (h : Handler) : Handler × UInt8 :=
  let (h, status) := h.respond
    [0x70, 0x00, h.senseKey, 0x00, 0x00, 0x00, 0x00, 0x0A, 0x00, 0x00, 0x00, 0x00, h.senseAsc,
      h.senseAscq, 0x00, 0x00, 0x00, 0x00]
  (h.rearm, status)

def scsiModeSense (h : Handler) : Handler × UInt8 :=
  h.respond [0x03, 0x00, if h.writeProtect then 0x80 else 0x00, 0x00]

def scsiPreventAllowRemoval (h : Handler) : Handler × UInt8 := (h.clearSense, statusPassed)

def scsiReadFormatCapacities (h : Handler) (disk : Option DiskImage) : Handler × UInt8 :=
  if !h.mediumPresent then h.noMedium
  else
    match disk with
    | none => h.hardwareError
    | some d =>
      h.respond ([0x00, 0x00, 0x00, 0x08] ++ toBe32 d.totalSectors ++ [0x02] ++
        (toBe32 bytesPerSector).drop 1)

def handleScsiCommand (h : Handler) (disk : Option DiskImage) (cmd : Bytes) : Handler × UInt8 :=
  match cmd.head? with
  | none => h.unsupported
  | some opcode =>
    if opcode = 0x12 then h.scsiInquiry cmd
    else if opcode = 0x00 then h.scsiTestUnitReady
    else if opcode = 0x25 then h.scsiReadCapacity disk
    else if opcode = 0x28 then h.scsiRead10 disk cmd
    else if opcode = 0x2A then h.scsiWrite10 cmd
    else if opcode = 0x03 then h.scsiRequestSense
    else if opcode = 0x1A then h.scsiModeSense
    else if opcode = 0x1E then h.scsiPreventAllowRemoval
    else if opcode = 0x23 then h.scsiReadFormatCapacities disk
    else h.unsupported

def beginCommand (h : Handler) (disk : Option DiskImage) (cbw : Cbw) : Handler :=
  let (h, status) := handleScsiCommand
    { h with
      lastTag := cbw.tag
      expectedTransfer := cbw.dataTransferLength
      transferred := 0
      pendingData := [] } disk cbw.scsiCommand
  { h with
    commandStatus := status
    currentCbw := some cbw
    cswPending := h.cswPending || (h.pendingData.isEmpty && h.pendingWrite.isNone) }

/-- The CSW that ends the current command. -/
def buildCsw (h : Handler) : Handler × Bytes :=
  ({ h with
      cswPending := false
      currentCbw := none
      expectedTransfer := 0
      transferred := 0
      commandStatus := statusPassed },
    cswBytes h.lastTag (h.expectedTransfer - h.transferred) h.commandStatus)

/-- A transfer on the bulk IN endpoint: data, then the CSW. -/
def bulkIn (h : Handler) (transferBufferLength : ℕ) : Handler × Bytes :=
  if h.pendingData ≠ [] then
    let take := if transferBufferLength = 0 then h.pendingData.length
      else min transferBufferLength h.pendingData.length
    let rest := h.pendingData.drop take
    ({ h with
        pendingData := rest
        transferred := saturatingAdd 32 h.transferred (min take (2 ^ 32 - 1))
        cswPending := h.cswPending || rest.isEmpty },
      h.pendingData.take take)
  else if h.cswPending then h.buildCsw
  else (h, [])

end Handler

/-! ## The device -/

/-- The handler and the disks. A disk whose mutex is poisoned counts as missing. -/
structure Device where
  disks : List DiskImage
  handler : Handler
  deriving DecidableEq

/-- What the host means by a bulk OUT transfer. The handler does not know. -/
inductive Phase where
  | command
  | data
  deriving DecidableEq

inductive Request where
  | control (requestType request : ℕ)
  | bulkOut (phase : Phase) (data : Bytes) (flushes : Bool)
  | bulkIn (transferBufferLength : ℕ)
  | mountDisk (disk : DiskImage)
  | ejectDisk
  | setWriteProtect (enabled : Bool)
  deriving DecidableEq

namespace Device

def new (disk : DiskImage) (writeProtect : Bool) : Device :=
  { disks := [disk], handler := .new 0 writeProtect }

def disk (d : Device) : Option DiskImage := d.disks[d.handler.disk]?

/-- The data of a pending write. The write is taken off before it is done. -/
def handleWriteData (d : Device) (lba : ℕ) (data : Bytes) (flushes : Bool) : Device :=
  let h := { d.handler with pendingWrite := none, cswPending := true }
  match d.disk with
  | none =>
    { d with
      handler := { h.setSense 0x03 0x03 0x00 with commandStatus := statusFailed } }
  | some disk =>
    match disk.writeSectors lba data flushes with
    | (disk, .error _) =>
      { disks := d.disks.set d.handler.disk disk
        handler := { h.setSense 0x03 0x03 0x00 with commandStatus := statusFailed } }
    | (disk, .ok sectors) =>
      { disks := d.disks.set d.handler.disk disk
        handler := { h.reportIo (.write lba sectors data.length) with
          transferred := saturatingAdd 32 h.transferred (min data.length (2 ^ 32 - 1)) } }

/-- A transfer on the bulk OUT endpoint. What it is depends on the phase the handler is in. -/
def bulkOut (d : Device) (data : Bytes) (flushes : Bool) : Device × Except String Bytes :=
  match d.handler.pendingWrite with
  | some (lba, _) => (d.handleWriteData lba data flushes, .ok [])
  | none =>
    if d.handler.cswPending then (d, .ok [])
    else
      match Cbw.parse data with
      | some cbw => ({ d with handler := d.handler.beginCommand d.disk cbw }, .ok [])
      | none => (d, .error "Invalid CBW format")

def control (d : Device) (requestType request : ℕ) : Device × Except String Bytes :=
  if requestType = 0x21 ∧ request = 0xFF then
    ({ d with handler := d.handler.resetBotState }, .ok [])
  else if requestType = 0xA1 ∧ request = 0xFE then (d, .ok [0x00])
  else (d, .error "Unsupported control request")

def serve (d : Device) : Request → Device × Except String Bytes
  | .control requestType request => d.control requestType request
  | .bulkOut _ data flushes => d.bulkOut data flushes
  | .bulkIn transferBufferLength =>
    ({ d with handler := (d.handler.bulkIn transferBufferLength).1 },
      .ok (d.handler.bulkIn transferBufferLength).2)
  | .mountDisk disk =>
    ({ disks := d.disks ++ [disk], handler := d.handler.mountDisk d.disks.length }, .ok [])
  | .ejectDisk => ({ d with handler := d.handler.ejectDisk }, .ok [])
  | .setWriteProtect enabled => ({ d with handler := d.handler.setWriteProtect enabled }, .ok [])

def step (d : Device) (r : Request) : Device := (d.serve r).1

/-- Serve the requests in order and collect the answers. -/
def serveAll (d : Device) : List Request → Device × List (Except String Bytes)
  | [] => (d, [])
  | r :: rs =>
    let (d, answer) := d.serve r
    let (d, answers) := d.serveAll rs
    (d, answer :: answers)

/-- What a data phase with transfers of the sizes `sizes` returns. -/
def readOut (d : Device) : List ℕ → Bytes
  | [] => []
  | size :: sizes =>
    if d.handler.pendingData = [] then []
    else
      let (h, bytes) := d.handler.bulkIn size
      bytes ++ readOut { d with handler := h } sizes

end Device

end NetGet.UsbMsc
