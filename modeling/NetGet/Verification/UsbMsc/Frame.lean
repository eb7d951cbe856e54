import NetGet.Model.UsbMsc

/-! # Where a disk changes

A disk changes only in the data phase of a write. What a pending write stands for is an invariant of
the device, as long as the host and the medium keep to the command in progress. -/

namespace NetGet.UsbMsc

open Library Device
open Machine

namespace Handler

/-- The fields that say whether writing is possible are unchanged. -/
structure Kept (h h' : Handler) : Prop where
  disk : h'.disk = h.disk
  mediumPresent : h'.mediumPresent = h.mediumPresent
  writeProtect : h'.writeProtect = h.writeProtect
  cswPending : h'.cswPending = h.cswPending

structure TakesOn (h : Handler) (cmd : Bytes) : Prop where
  opcode : cmd.head? = some 0x2A
  length : 9 ≤ cmd.length
  mediumPresent : h.mediumPresent = true
  writeProtect : h.writeProtect = false

/-- The pending write is unchanged too. -/
structure Quiet (h h' : Handler) : Prop extends Kept h h' where
  pendingWrite : h'.pendingWrite = h.pendingWrite

/-- What a command does to the handler: it leaves the pending write alone, or is a WRITE(10) that
leaves a new one. -/
def Follows (h : Handler) (cmd : Bytes) (result : Handler × UInt8) : Prop :=
  Kept h result.1 ∧
    (result.1.pendingWrite = h.pendingWrite ∨
      TakesOn h cmd ∧ result.1.pendingWrite = some (cdbLba cmd, cdbTransferLen cmd) ∧
        result.1.pendingData = h.pendingData)

variable (h : Handler) (disk : Option DiskImage) (cmd : Bytes)

theorem quiet_setSense (key asc ascq : UInt8) : Quiet h (h.setSense key asc ascq) :=
  ⟨⟨rfl, rfl, rfl, rfl⟩, rfl⟩

theorem quiet_respond (data : Bytes) : Quiet h (h.respond data).1 :=
  ⟨⟨rfl, rfl, rfl, rfl⟩, rfl⟩

variable {h} in
theorem Quiet.trans {h' h'' : Handler} (hf : Quiet h h') (hn : Quiet h' h'') :
    Quiet h h'' where
  disk := hn.disk.trans hf.disk
  mediumPresent := hn.mediumPresent.trans hf.mediumPresent
  writeProtect := hn.writeProtect.trans hf.writeProtect
  cswPending := hn.cswPending.trans hf.cswPending
  pendingWrite := hn.pendingWrite.trans hf.pendingWrite

variable {h cmd} in
theorem Quiet.follows {result : Handler × UInt8} (hq : Quiet h result.1) : Follows h cmd result :=
  ⟨hq.toKept, .inl hq.pendingWrite⟩

variable {h cmd} in
theorem Follows.ite {p : Prop} [Decidable p] {a b : Handler × UInt8} (ha : p → Follows h cmd a)
    (hb : Follows h cmd b) : Follows h cmd (if p then a else b) := by
  split_ifs with hp
  · exact ha hp
  · exact hb

theorem scsiInquiry_quiet : Quiet h (h.scsiInquiry cmd).1 := by
  unfold scsiInquiry
  split
  · exact quiet_setSense h _ _ _
  · exact quiet_respond h _

theorem scsiTestUnitReady_quiet : Quiet h h.scsiTestUnitReady.1 := by
  unfold scsiTestUnitReady
  split <;> exact quiet_setSense h _ _ _

theorem scsiReadCapacity_quiet : Quiet h (h.scsiReadCapacity disk).1 := by
  unfold scsiReadCapacity
  split
  · exact quiet_setSense h _ _ _
  · cases disk with
    | none => exact quiet_setSense h _ _ _
    | some d => exact quiet_respond h _

theorem scsiRead10_quiet : Quiet h (h.scsiRead10 disk cmd).1 := by
  unfold scsiRead10
  split
  · exact quiet_setSense h _ _ _
  split
  · exact quiet_setSense h _ _ _
  cases disk with
  | none => exact quiet_setSense h _ _ _
  | some d =>
    simp only
    split
    · exact ⟨⟨rfl, rfl, rfl, rfl⟩, rfl⟩
    · exact quiet_setSense h _ _ _

theorem rearm_quiet : Quiet h h.rearm := by
  unfold rearm
  split
  · exact quiet_setSense h _ _ _
  · exact ⟨⟨rfl, rfl, rfl, rfl⟩, rfl⟩

theorem scsiReadFormatCapacities_quiet : Quiet h (h.scsiReadFormatCapacities disk).1 := by
  unfold scsiReadFormatCapacities
  split
  · exact quiet_setSense h _ _ _
  · cases disk with
    | none => exact quiet_setSense h _ _ _
    | some d => exact quiet_respond h _

theorem scsiWrite10_follows (hop : cmd.head? = some 0x2A) : Follows h cmd (h.scsiWrite10 cmd) := by
  unfold scsiWrite10
  split
  · exact (quiet_setSense h _ _ _).follows
  rename_i hl
  split
  · exact (quiet_setSense h _ _ _).follows
  rename_i hm
  split_ifs with hp
  · exact (quiet_setSense h _ _ _).follows
  refine ⟨⟨rfl, rfl, rfl, rfl⟩, .inr ⟨⟨hop, Nat.le_of_not_lt hl, ?_, ?_⟩, rfl, rfl⟩⟩
  · simpa using hm
  · simpa using hp

theorem handleScsiCommand_follows : Follows h cmd (h.handleScsiCommand disk cmd) := by
  unfold handleScsiCommand
  cases hop : cmd.head? with
  | none => exact (quiet_setSense h _ _ _).follows
  | some opcode =>
    refine .ite (fun _ => (scsiInquiry_quiet h cmd).follows) ?_
    refine .ite (fun _ => (scsiTestUnitReady_quiet h).follows) ?_
    refine .ite (fun _ => (scsiReadCapacity_quiet h disk).follows) ?_
    refine .ite (fun _ => (scsiRead10_quiet h disk cmd).follows) ?_
    refine .ite (fun hw => scsiWrite10_follows h cmd (hw ▸ hop)) ?_
    refine .ite (fun _ => ((quiet_respond h _).trans (rearm_quiet _)).follows) ?_
    refine .ite (fun _ => (quiet_respond h _).follows) ?_
    refine .ite (fun _ => (quiet_setSense h _ _ _).follows) ?_
    refine .ite (fun _ => (scsiReadFormatCapacities_quiet h disk).follows) ?_
    exact (quiet_setSense h _ _ _).follows

end Handler

/-- The handler waits for the data of a WRITE(10) of `len` sectors from `lba` on, on a medium that
is present and not protected. -/
structure Serving (h : Handler) (lba len : ℕ) : Prop where
  mediumPresent : h.mediumPresent = true
  writeProtect : h.writeProtect = false
  cswPending : h.cswPending = false
  pendingData : h.pendingData = []
  command : ∃ cbw, h.currentCbw = some cbw ∧ cbw.scsiCommand.head? = some 0x2A ∧
    Handler.cdbLba cbw.scsiCommand = lba ∧ Handler.cdbTransferLen cbw.scsiCommand = len

def Guarded (h : Handler) : Prop :=
  ∀ lba len, h.pendingWrite = some (lba, len) → Serving h lba len

variable {h : Handler} {d : Device} {r : Request} {data : Bytes}

theorem guarded_of_none (hn : h.pendingWrite = none) : Guarded h := by
  intro lba len hs
  rw [hn] at hs
  cases hs

theorem Guarded.beginCommand (hn : h.pendingWrite = none) (hcsw : h.cswPending = false)
    (disk : Option DiskImage) (cbw : Cbw) : Guarded (h.beginCommand disk cbw) := by
  obtain ⟨hk, hc⟩ := Handler.handleScsiCommand_follows
    { h with
      lastTag := cbw.tag
      expectedTransfer := cbw.dataTransferLength
      transferred := 0
      pendingData := [] } disk cbw.scsiCommand
  rcases hc with hs | ⟨ht, hp, hd⟩
  · exact guarded_of_none (hs.trans hn)
  intro lba len hso
  cases hp.symm.trans hso
  refine ⟨hk.mediumPresent.trans ht.mediumPresent, hk.writeProtect.trans ht.writeProtect, ?_, hd,
    ⟨cbw, rfl, ht.opcode, rfl, rfl⟩⟩
  have hq := hk.cswPending.trans hcsw
  simp only [Handler.beginCommand, hq, hp]
  simp

/-- The host sends a command block only when no data is expected, and not more data than it
announced; the medium is not taken out or protected in the middle of a write. -/
def Careful (d : Device) : Request → Prop
  | .bulkOut .command _ _ => d.handler.pendingWrite = none
  | .bulkOut .data data _ =>
    ∀ w ∈ d.handler.pendingWrite, data.length ≤ w.2 * bytesPerSector
  | .ejectDisk => d.handler.pendingWrite = none
  | .setWriteProtect enabled => enabled = true → d.handler.pendingWrite = none
  | _ => True

instance (d : Device) (r : Request) : Decidable (Careful d r) := by
  unfold Careful
  split <;> infer_instance

theorem Guarded.bulkOut (data : Bytes) (flushes : Bool) :
    Guarded (d.bulkOut data flushes).1.handler := by
  unfold Device.bulkOut
  cases hp : d.handler.pendingWrite with
  | some w =>
    refine guarded_of_none ?_
    simp only [handleWriteData]
    cases d.disk with
    | none => rfl
    | some disk =>
      cases hw : disk.writeSectors w.1 data flushes with
      | mk disk' result => cases result <;> simp only [hw] <;> rfl
  | none =>
    simp only
    split_ifs with hcsw
    · exact guarded_of_none hp
    cases Cbw.parse data with
    | none => exact guarded_of_none hp
    | some cbw => exact Guarded.beginCommand hp (by simpa using hcsw) d.disk cbw

theorem Guarded.bulkIn (hg : Guarded h) (size : ℕ) : Guarded (h.bulkIn size).1 := by
  have hk : (h.bulkIn size).1.pendingWrite = h.pendingWrite := by
    unfold Handler.bulkIn
    split
    · rfl
    · split <;> rfl
  intro lba len hso
  have hs := hg lba len (hk ▸ hso)
  have hi : h.bulkIn size = (h, []) := by
    simp [Handler.bulkIn, hs.pendingData, hs.cswPending]
  rw [hi]
  exact hs

/-- A pending write of the device is what it stands for. -/
def Device.Guarded (d : Device) : Prop := UsbMsc.Guarded d.handler

theorem Device.Guarded.step (h : d.Guarded) (hc : Careful d r) : (d.step r).Guarded := by
  cases r with
  | control requestType request =>
    simp only [step, serve, control]
    split_ifs
    · exact guarded_of_none rfl
    · exact h
    · exact h
  | bulkOut phase data flushes => exact UsbMsc.Guarded.bulkOut data flushes
  | bulkIn size => exact UsbMsc.Guarded.bulkIn h size
  | mountDisk disk => exact guarded_of_none rfl
  | ejectDisk => exact guarded_of_none hc
  | setWriteProtect enabled =>
    cases enabled with
    | true => exact guarded_of_none (hc rfl)
    | false =>
      intro lba len hso
      have hs := h lba len hso
      exact ⟨hs.mediumPresent, rfl, hs.cswPending, hs.pendingData, hs.command⟩

def Device.byteAt (d : Device) (k i : ℕ) : Option UInt8 :=
  d.disks[k]?.bind fun disk => disk.bytes[i]?

theorem handleWriteData_byteAt {lba k i : ℕ} {flushes : Bool}
    (hc : (d.handleWriteData lba data flushes).byteAt k i ≠ d.byteAt k i) :
    k = d.handler.disk ∧ lba * bytesPerSector ≤ i ∧ i < lba * bytesPerSector + data.length := by
  cases hd : d.disk with
  | none => exact absurd (by simp [handleWriteData, hd, byteAt]) hc
  | some disk =>
    have hset : (d.handleWriteData lba data flushes).disks =
        d.disks.set d.handler.disk (disk.writeSectors lba data flushes).1 := by
      simp only [handleWriteData, hd]
      cases disk.writeSectors lba data flushes with
      | mk disk' result =>
        cases result <;> rfl
    have hi : d.disks[d.handler.disk]? = some disk := hd
    have hlt : d.handler.disk < d.disks.length := (List.getElem?_eq_some_iff.1 hi).1
    by_cases hk : k = d.handler.disk
    · subst hk
      refine ⟨rfl, ?_⟩
      by_contra hno
      refine hc ?_
      simp only [byteAt, hset, List.getElem?_set_self hlt, hi, Option.bind_some]
      simp only [DiskImage.writeSectors]
      split
      · rfl
      split
      · rfl
      split
      · rfl
      unfold DiskImage.put
      split
      · rename_i hf
        exact getElem?_overwrite_of_outside hf (by omega)
      · rfl
    · refine absurd ?_ hc
      simp only [byteAt, hset, List.getElem?_set_ne (Ne.symm hk)]

/-- A byte changes under the request because of a write that is in progress. -/
def Covered (d : Device) (r : Request) (k i : ℕ) : Prop :=
  ∃ lba len data flushes, r = .bulkOut .data data flushes ∧ Serving d.handler lba len ∧
    k = d.handler.disk ∧ lba * bytesPerSector ≤ i ∧ i < (lba + len) * bytesPerSector

theorem covered_of_change {k i : ℕ} (h : d.Guarded) (hca : Careful d r)
    (hk : k < d.disks.length) (hc : (d.step r).byteAt k i ≠ d.byteAt k i) : Covered d r k i := by
  cases r with
  | control requestType request =>
    refine absurd ?_ hc
    simp only [Device.step, Device.serve, Device.control]
    split_ifs <;> rfl
  | bulkIn | ejectDisk | setWriteProtect => exact absurd rfl hc
  | mountDisk disk =>
    refine absurd ?_ hc
    simp only [byteAt, step, serve, List.getElem?_append_left hk]
  | bulkOut phase data flushes =>
    cases hp : d.handler.pendingWrite with
    | none =>
      refine absurd ?_ hc
      simp only [step, serve, bulkOut, hp]
      split
      · rfl
      · cases Cbw.parse data with
        | none => rfl
        | some cbw => rfl
    | some w =>
      obtain ⟨lba, len⟩ := w
      cases phase with
      | command =>
        rw [show d.handler.pendingWrite = none from hca] at hp
        cases hp
      | data =>
        have hlen := hca (lba, len) hp
        have hs : d.step (.bulkOut .data data flushes) = d.handleWriteData lba data flushes := by
          simp only [step, serve, bulkOut, hp]
        rw [hs] at hc
        obtain ⟨hd, hlow, hh⟩ := handleWriteData_byteAt hc
        refine ⟨lba, len, data, flushes, rfl, h lba len hp, hd, hlow, ?_⟩
        rw [Nat.add_mul]
        simp only at hlen
        omega

/-- In every careful run, a disk byte changes only while the data of a WRITE(10) is served whose
sectors cover it, with the medium present and not protected, and never through a command block. -/
theorem writes_framed (disk : DiskImage) (writeProtect : Bool) (requests : List Request)
    (r : Request)
    (h : Meets Device.step Careful (.new disk writeProtect) (requests ++ [r])) (k i : ℕ)
    (hk : k < (run Device.step (.new disk writeProtect) requests).disks.length)
    (hchange : (run Device.step (.new disk writeProtect) (requests ++ [r])).byteAt k i ≠
      (run Device.step (.new disk writeProtect) requests).byteAt k i) :
    Covered (run Device.step (.new disk writeProtect) requests) r k i := by
  have hs : (Device.new disk writeProtect).Guarded := guarded_of_none rfl
  have hg : (run Device.step (.new disk writeProtect) requests).Guarded :=
    run_invariant_of_meets hs (fun d r hd hr => hd.step hr) requests h.front
  rw [run_concat] at hchange
  exact covered_of_change hg (h requests r [] rfl) hk hchange

def blankDisk : DiskImage :=
  { bytes := List.replicate 1024 0
    totalSectors := 2
    mapped := false
    length_bytes := List.length_replicate
    totalSectors_lt := by decide }

/-- The bytes of a READ(10) or WRITE(10) command block. -/
def commandBlock (tag length : ℕ) (opcode : UInt8) (lba len : ℕ) : Bytes :=
  toLe32 0x43425355 ++ toLe32 tag ++ toLe32 length ++ [0x00, 0x00, 10, opcode, 0x00] ++
    toBe32 lba ++ [0x00] ++ (toBe32 len).drop 2 ++ List.replicate 7 0x00

def writing (len : ℕ) : Request :=
  .bulkOut .command (commandBlock 7 (len * 512) 0x2A 0 len) true

theorem writes_framed_one_sector :
    Meets Device.step Careful (.new blankDisk false) [writing 1, .bulkOut .data [1, 2] true] ∧
      Covered (run Device.step (.new blankDisk false) [writing 1])
        (.bulkOut .data [1, 2] true) 0 1 :=
  ⟨by decide +kernel, writes_framed blankDisk false [writing 1] (.bulkOut .data [1, 2] true)
    (by decide +kernel) 0 1 (by decide +kernel) (by decide +kernel)⟩

/-- A command block after a write of no sectors is stored on the disk; more data than was announced
is written behind the sectors of the command; and data is written after the medium was ejected, or
protected, in the middle of the command. -/
theorem write_escapes : ((Device.new blankDisk false).byteAt 0 0 = some 0 ∧
        (Device.new blankDisk false).byteAt 0 512 = some 0) ∧
      (run Device.step (.new blankDisk false) [writing 0, writing 1]).byteAt 0 0 = some 0x55 ∧
      (run Device.step (.new blankDisk false)
        [writing 1, .bulkOut .data (List.replicate 513 1) true]).byteAt 0 512 = some 1 ∧
      ((run Device.step (.new blankDisk false) [writing 1, .ejectDisk]).handler.mediumPresent =
          false ∧ (run Device.step (.new blankDisk false)
          [writing 1, .ejectDisk, .bulkOut .data [1] true]).byteAt 0 0 = some 1) ∧
      (run Device.step (.new blankDisk false)
          [writing 1, .setWriteProtect true]).handler.writeProtect = true ∧
        (run Device.step (.new blankDisk false)
          [writing 1, .setWriteProtect true, .bulkOut .data [1] true]).byteAt 0 0 = some 1 := by
  decide +kernel

end NetGet.UsbMsc
