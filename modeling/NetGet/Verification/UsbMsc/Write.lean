import NetGet.Library.BigEndian
import NetGet.Verification.UsbMsc.Frame

/-! # What a write stores and what a read returns -/

namespace NetGet.UsbMsc

open Library List Handler Device
open Machine

theorem fromBe_lt (bytes : Bytes) : fromBe bytes < 256 ^ bytes.length := Library.fromBe_lt bytes

theorem toLe32_injective {a b : ℕ} (ha : a < 2 ^ 32) (hb : b < 2 ^ 32)
    (h : toLe32 a = toLe32 b) : a = b := by
  have hby : ∀ x y : ℕ, UInt8.ofNat x = UInt8.ofNat y → x % 256 = y % 256 := by
    intro x y hxy
    simpa using congrArg UInt8.toNat hxy
  simp only [toLe32, cons.injEq, and_true] at h
  have h0 := hby _ _ h.1
  have h1 := hby _ _ h.2.1
  have h2 := hby _ _ h.2.2.1
  have h3 := hby _ _ h.2.2.2
  omega

theorem cswBytes_injective {tag residue residue' : ℕ} {status status' : UInt8}
    (h : cswBytes tag residue status = cswBytes tag residue' status') :
    toLe32 residue = toLe32 residue' ∧ status = status' := by
  simp only [cswBytes, append_assoc, append_cancel_left_eq] at h
  have hs := append_inj h rfl
  exact ⟨hs.1, by simpa using hs.2⟩

variable {data block cmd : Bytes} {lba n : ℕ} {cbw : Cbw}

theorem DiskImage.length_sectors (disk : DiskImage) (hr : lba + n ≤ disk.totalSectors) :
    (disk.sectors lba n).length = n * bytesPerSector := by
  have hmul := Nat.mul_le_mul_right bytesPerSector hr
  rw [Nat.add_mul] at hmul
  rw [DiskImage.sectors, length_take, length_drop, disk.length_bytes]
  omega

theorem DiskImage.readSectors_of_range (disk : DiskImage) (hr : lba + n ≤ disk.totalSectors) :
    disk.readSectors lba n = .ok (disk.sectors lba n) := by
  have hlt := disk.totalSectors_lt
  simp only [DiskImage.readSectors, checkedAdd_of_lt (show lba + n < 2 ^ 32 by omega)]
  rw [if_neg (by omega)]

structure Idle (h : Handler) : Prop where
  pendingData : h.pendingData = []
  cswPending : h.cswPending = false
  pendingWrite : h.pendingWrite = none

/-- The command block is a READ(10) or WRITE(10), by its opcode, of `n` sectors from `lba` on. -/
structure Addresses (cbw : Cbw) (opcode : UInt8) (lba n : ℕ) : Prop where
  opcode : cbw.scsiCommand.head? = some opcode
  length : 9 ≤ cbw.scsiCommand.length
  lba : cdbLba cbw.scsiCommand = lba
  transferLen : cdbTransferLen cbw.scsiCommand = n

theorem Addresses.lt {opcode : UInt8} (h : Addresses cbw opcode lba n) : n < 2 ^ 16 := by
  have hlt := fromBe_lt ((cbw.scsiCommand.drop 7).take 2)
  have hl := h.length
  rw [length_take, length_drop, show min 2 (cbw.scsiCommand.length - 7) = 2 by omega] at hlt
  rw [← h.transferLen]
  exact hlt

theorem Cbw.dataTransferLength_lt (h : Cbw.parse block = some cbw) :
    cbw.dataTransferLength < 2 ^ 32 := by
  unfold Cbw.parse at h
  split at h
  · cases h
  split at h
  · cases h
  rename_i hl _
  cases h
  have hlt := fromBe_lt ((block.drop 8).take 4).reverse
  rw [length_reverse, length_take, length_drop, show min 4 (block.length - 8) = 4 by omega] at hlt
  exact hlt

theorem step_command {d : Device} (hi : Idle d.handler) (hp : Cbw.parse block = some cbw) :
    d.step (.bulkOut .command block true) =
      { d with handler := d.handler.beginCommand d.disk cbw } := by
  simp only [step, serve, bulkOut, hi.pendingWrite, hi.cswPending,
    hp, Bool.false_eq_true, if_false]

/-- The data phase is over, and the CSW waits to be fetched. -/
structure Finished (h : Handler) (tag residue : ℕ) (status : UInt8) : Prop where
  pendingData : h.pendingData = []
  cswPending : h.cswPending = true
  pendingWrite : h.pendingWrite = none
  lastTag : h.lastTag = tag
  residue : h.expectedTransfer - h.transferred = residue
  status : h.commandStatus = status
  mediumPresent : h.mediumPresent = true

/-- The device after the command block and the transfers of its data phase, each with whether a
flush would succeed. -/
def Device.written (d : Device) (block : Bytes) (transfers : List (Bytes × Bool)) : Device :=
  run step d
    (.bulkOut .command block true :: transfers.map fun t => .bulkOut .data t.1 t.2)

section Write

variable {d : Device} {disk : DiskImage} {block : Bytes} {cbw : Cbw} {lba n : ℕ}

structure Waiting (h : Handler) (cbw : Cbw) (lba n : ℕ) : Prop where
  pendingData : h.pendingData = []
  pendingWrite : h.pendingWrite = some (lba, n)
  lastTag : h.lastTag = cbw.tag
  expectedTransfer : h.expectedTransfer = cbw.dataTransferLength
  transferred : h.transferred = 0
  status : h.commandStatus = statusPassed
  mediumPresent : h.mediumPresent = true

variable {data : Bytes} {tag residue : ℕ} {status : UInt8}

theorem step_data (hd : d.disk = some disk) (hw : Waiting d.handler cbw lba n)
    (hr : lba + n ≤ disk.totalSectors) (hn : n < 2 ^ 16)
    (hda : data.length ≤ n * bytesPerSector) (flushes : Bool) :
    (d.step (.bulkOut .data data flushes)).disk = some (disk.put (lba * bytesPerSector) data) ∧
      Finished (d.step (.bulkOut .data data flushes)).handler cbw.tag
        (if disk.mapped && !flushes then cbw.dataTransferLength
          else cbw.dataTransferLength - data.length)
        (if disk.mapped && !flushes then statusFailed else statusPassed) := by
  have hlt := disk.totalSectors_lt
  have hc : (data.length + (bytesPerSector - 1)) / bytesPerSector ≤ n := by
    simp only [bytesPerSector] at hda ⊢
    omega
  have hwr : disk.writeSectors lba data flushes = (disk.put (lba * bytesPerSector) data,
      if disk.mapped && !flushes then .error "Failed to flush disk writes"
      else .ok ((data.length + (bytesPerSector - 1)) / bytesPerSector)) := by
    simp only [DiskImage.writeSectors]
    rw [if_neg (by omega), checkedAdd_of_lt (by omega)]
    simp only
    rw [if_neg (by omega)]
  have hi : d.disks[d.handler.disk]? = some disk := hd
  have hlt : d.handler.disk < d.disks.length := (List.getElem?_eq_some_iff.1 hi).1
  have hst : d.step (.bulkOut .data data flushes) = d.handleWriteData lba data flushes := by
    simp only [step, serve, bulkOut, hw.pendingWrite]
  have hs : data.length < 2 ^ 32 := by
    simp only [bytesPerSector] at hda
    omega
  rw [hst]
  simp only [handleWriteData, hd, hwr]
  cases hf : disk.mapped && !flushes with
  | true =>
    simp only [if_true]
    refine ⟨getElem?_set_self hlt, hw.pendingData, rfl, rfl, hw.lastTag, ?_, rfl, hw.mediumPresent⟩
    change d.handler.expectedTransfer - d.handler.transferred = _
    rw [hw.expectedTransfer, hw.transferred, Nat.sub_zero]
  | false =>
    simp only [Bool.false_eq_true, if_false]
    refine ⟨getElem?_set_self hlt, hw.pendingData, rfl, rfl, hw.lastTag, ?_,
      hw.status, hw.mediumPresent⟩
    change d.handler.expectedTransfer -
      saturatingAdd 32 d.handler.transferred (min data.length (2 ^ 32 - 1)) = _
    rw [hw.expectedTransfer, hw.transferred, saturatingAdd]
    omega

theorem run_discarded (hd : Finished d.handler tag residue status)
    (transfers : List (Bytes × Bool)) :
    run step d (transfers.map fun t => .bulkOut .data t.1 t.2) = d := by
  induction transfers with
  | nil => rfl
  | cons t transfers ih =>
    have hs : d.step (.bulkOut .data t.1 t.2) = d := by
      simp only [step, serve, bulkOut, hd.pendingWrite, hd.cswPending, if_true]
    rw [map_cons, run_cons, hs, ih]

theorem written_spec (hdi : d.disk = some disk) (hi : Idle d.handler)
    (hm : d.handler.mediumPresent = true) (hpr : d.handler.writeProtect = false)
    (hp : Cbw.parse block = some cbw) (hc : Addresses cbw 0x2A lba n)
    (hr : lba + n ≤ disk.totalSectors) (hda : data.length ≤ n * bytesPerSector)
    (flushes : Bool) (rest : List (Bytes × Bool)) :
    (d.written block ((data, flushes) :: rest)).disk = some (disk.put (lba * bytesPerSector) data) ∧
      Finished (d.written block ((data, flushes) :: rest)).handler cbw.tag
        (if disk.mapped && !flushes then cbw.dataTransferLength
          else cbw.dataTransferLength - data.length)
        (if disk.mapped && !flushes then statusFailed else statusPassed) := by
  have hl : ¬cbw.scsiCommand.length < 9 := Nat.not_lt.2 hc.length
  obtain ⟨hw, hsa⟩ : Waiting (d.handler.beginCommand d.disk cbw) cbw lba n ∧
      (d.handler.beginCommand d.disk cbw).disk = d.handler.disk := by
    simp only [beginCommand, handleScsiCommand, hc.opcode, scsiWrite10, hl, hm, hpr, if_false,
      Bool.not_true, Bool.false_eq_true, hc.lba, hc.transferLen]
    exact ⟨⟨rfl, rfl, rfl, rfl, rfl, rfl, rfl⟩, rfl⟩
  have hs : (d.step (.bulkOut .command block true)).disk = some disk := by
    rw [step_command hi hp]
    change d.disks[(d.handler.beginCommand d.disk cbw).disk]? = some disk
    rw [hsa]
    exact hdi
  have hd := step_data hs (by rw [step_command hi hp]; exact hw) hr
    hc.lt hda flushes
  have hrun : d.written block ((data, flushes) :: rest) =
      (d.step (.bulkOut .command block true)).step (.bulkOut .data data flushes) := by
    rw [written, run_cons, map_cons, run_cons, run_discarded hd.2]
  rw [hrun]
  exact hd

theorem serveAll_idle (hi : Idle d.handler) (polls : List ℕ) :
    d.serveAll (polls.map .bulkIn) = (d, List.replicate polls.length (.ok [])) := by
  induction polls with
  | nil => rfl
  | cons size polls ih =>
    have hp : d.handler.bulkIn size = (d.handler, []) := by
      simp [bulkIn, hi.pendingData, hi.cswPending]
    simp only [map_cons, serveAll, serve, hp, ih, length_cons, replicate_succ]

theorem serveAll_polls (hd : Finished d.handler tag residue status) (size : ℕ) (polls : List ℕ) :
    ∃ d', d.serveAll ((size :: polls).map .bulkIn) =
        (d', .ok (cswBytes tag residue status) :: List.replicate polls.length (.ok [])) ∧
      d'.disk = d.disk ∧ Idle d'.handler ∧ d'.handler.mediumPresent = true := by
  have hp : d.handler.bulkIn size = d.handler.buildCsw := by
    simp [bulkIn, hd.pendingData, hd.cswPending]
  have hi : Idle d.handler.buildCsw.1 := ⟨hd.pendingData, rfl, hd.pendingWrite⟩
  have hcsw : d.handler.buildCsw.2 = cswBytes tag residue status := by
    simp only [buildCsw, hd.lastTag, hd.residue, hd.status]
  refine ⟨{ d with handler := d.handler.buildCsw.1 }, ?_, rfl, hi, hd.mediumPresent⟩
  simp only [map_cons, serveAll, serve, hp, hcsw]
  rw [serveAll_idle hi polls]

theorem readOut_eq (sizes : List ℕ) :
    ∀ {d : Device}, (0 ∈ sizes ∨ d.handler.pendingData.length ≤ sizes.sum) →
      d.readOut sizes = d.handler.pendingData := by
  induction sizes with
  | nil =>
    intro d hr
    cases hr with
    | inl hmem => cases hmem
    | inr hle => exact (eq_nil_of_length_eq_zero (Nat.le_zero.1 hle)).symm
  | cons size sizes ih =>
    intro d hr
    by_cases he : d.handler.pendingData = []
    · rw [readOut, if_pos he, he]
    obtain ⟨take, ht⟩ : ∃ take, take = (if size = 0 then d.handler.pendingData.length
      else min size d.handler.pendingData.length) := ⟨_, rfl⟩
    have hp : (d.handler.bulkIn size).2 = d.handler.pendingData.take take ∧
        (d.handler.bulkIn size).1.pendingData = d.handler.pendingData.drop take := by
      simp only [bulkIn, ne_eq, he, not_false_eq_true, if_true, ← ht, and_self]
    have hre : 0 ∈ sizes ∨ (d.handler.bulkIn size).1.pendingData.length ≤ sizes.sum := by
      rw [hp.2, length_drop, ht]
      rcases hr with hmem | hle
      · cases hmem with
        | head => exact .inr (by simp)
        | tail _ hmem => exact .inl hmem
      · rw [sum_cons] at hle
        refine .inr ?_
        split <;> omega
    have hth : readOut { d with handler := (d.handler.bulkIn size).1 } sizes =
        d.handler.pendingData.drop take := (ih hre).trans hp.2
    rw [readOut, if_neg he]
    simp only [hp.1, hth, take_append_drop]

theorem readOut_read (hd : d.disk = some disk) (hi : Idle d.handler)
    (hm : d.handler.mediumPresent = true) (hr : lba + n ≤ disk.totalSectors)
    (hpa : Cbw.parse block = some cbw) (hc : Addresses cbw 0x28 lba n) {sizes : List ℕ}
    (hro : 0 ∈ sizes ∨ n * bytesPerSector ≤ sizes.sum) :
    (d.step (.bulkOut .command block true)).readOut sizes = disk.sectors lba n := by
  have hl : ¬cbw.scsiCommand.length < 9 := Nat.not_lt.2 hc.length
  have hp : (d.handler.beginCommand d.disk cbw).pendingData = disk.sectors lba n := by
    simp only [beginCommand, handleScsiCommand, hc.opcode,
      scsiRead10, hl, hm, hd, if_false, Bool.not_true, Bool.false_eq_true,
      hc.lba, hc.transferLen, disk.readSectors_of_range hr]
    rfl
  rw [step_command hi hpa, readOut_eq]
  · exact hp
  · simp only [hp, disk.length_sectors hr]
    exact hro

/-- The host fetches exactly one CSW, with its tag. If the CSW says that the command has passed,
then its residue is zero, the sectors hold the data of all transfers, and a READ(10) of them
returns it whatever the sizes of its transfers. -/
def StoresTheData (d : Device) (block : Bytes) (transfers : List (Bytes × Bool)) (polls : List ℕ)
    (tag lba n : ℕ) : Prop :=
  ∃ d' residue status,
    (d.written block transfers).serveAll (polls.map .bulkIn) =
        (d', .ok (cswBytes tag residue status) ::
          List.replicate (polls.length - 1) (.ok [])) ∧
      residue < 2 ^ 32 ∧
      (status = statusPassed → residue = 0 ∧
        (d'.disk.map fun disk => disk.sectors lba n) = some (transfers.map Prod.fst).flatten ∧
        ∀ block' cbw' sizes, Cbw.parse block' = some cbw' → Addresses cbw' 0x28 lba n →
          (0 ∈ sizes ∨ n * bytesPerSector ≤ sizes.sum) →
          (d'.step (.bulkOut .command block' true)).readOut sizes =
            (transfers.map Prod.fst).flatten)

/-- A WRITE(10) stores what the host wrote exactly when the flush fails, so that the command does,
or when its first transfer has at least the length of the command block and what the later ones
carry is on the disk already. -/
theorem write_stores_iff (d : Device) (disk : DiskImage) (block : Bytes) (cbw : Cbw) (lba n : ℕ)
    (data : Bytes) (flushes : Bool) (rest : List (Bytes × Bool)) (polls : List ℕ)
    (hdisk : d.disk = some disk) (hidle : Idle d.handler)
    (hmedium : d.handler.mediumPresent = true) (hprotect : d.handler.writeProtect = false)
    (hparse : Cbw.parse block = some cbw) (hcommand : Addresses cbw 0x2A lba n)
    (hrange : lba + n ≤ disk.totalSectors)
    (hlength : (data ++ (rest.map Prod.fst).flatten).length = n * bytesPerSector)
    (hpolls : polls ≠ []) : StoresTheData d block ((data, flushes) :: rest) polls cbw.tag lba n ↔
      (disk.mapped && !flushes) = true ∨ cbw.dataTransferLength ≤ data.length ∧
          (disk.sectors lba n).drop data.length = (rest.map Prod.fst).flatten := by
  have hd : data.length ≤ n * bytesPerSector := by
    rw [length_append] at hlength
    omega
  have hdtl := Cbw.dataTransferLength_lt hparse
  obtain ⟨hw, hdo⟩ :=
    written_spec hdisk hidle hmedium hprotect hparse hcommand hrange hd flushes rest
  cases polls with
  | nil => exact absurd rfl hpolls
  | cons size polls =>
    obtain ⟨d', hs, hd', hi', hm'⟩ := serveAll_polls hdo size polls
    have ha : d'.disk = some (disk.put (lba * bytesPerSector) data) := hd'.trans hw
    have hfit : lba * bytesPerSector + data.length ≤ disk.bytes.length := by
      have hmul := Nat.mul_le_mul_right bytesPerSector hrange
      rw [Nat.add_mul] at hmul
      rw [disk.length_bytes]
      omega
    have hse : (disk.put (lba * bytesPerSector) data).sectors lba n =
        data ++ (disk.sectors lba n).drop data.length := by
      rw [DiskImage.sectors, DiskImage.put, dif_pos hfit]
      exact take_drop_overwrite hfit hd
    have hr' : lba + n ≤ (disk.put (lba * bytesPerSector) data).totalSectors := by
      rwa [DiskImage.put, dif_pos hfit]
    have hf : (((data, flushes) :: rest).map Prod.fst).flatten =
        data ++ (rest.map Prod.fst).flatten := by simp
    cases hfa : disk.mapped && !flushes with
    | true =>
      rw [hfa] at hs
      refine ⟨fun _ => .inl rfl, fun _ => ⟨d', _, _, hs, hdtl, ?_⟩⟩
      intro hp
      exact absurd hp (by decide)
    | false =>
      rw [hfa] at hs
      simp only [Bool.false_eq_true, if_false, false_or] at hs ⊢
      constructor
      · rintro ⟨d'', residue, status, han, hsm, hlaw⟩
        obtain ⟨rfl, hcsw⟩ := Prod.mk.inj (hs.symm.trans han)
        have hb := Except.ok.inj (cons.inj hcsw).1
        obtain ⟨hr, hsta⟩ := cswBytes_injective hb
        obtain ⟨hz, hst, -⟩ := hlaw hsta.symm
        have hsa := toLe32_injective (by omega) hsm hr
        refine ⟨by omega, ?_⟩
        rw [ha, Option.map_some, hse, hf] at hst
        exact append_cancel_left (Option.some.inj hst)
      · rintro ⟨hsh, hold⟩
        refine ⟨d', _, _, hs, by omega, ?_⟩
        intro _
        refine ⟨by omega, ?_, ?_⟩
        · rw [ha, Option.map_some, hse, hold, hf]
        · intro block' cbw' sizes hp' hc' hro
          rw [readOut_read ha hi' hm' hr' hp' hc' hro, hse, hold, hf]

end Write

def halves : List (Bytes × Bool) := [(List.replicate 256 1, true), (List.replicate 256 1, true)]

theorem write_stores_iff_one_transfer :
    StoresTheData (.new blankDisk false) (commandBlock 7 512 0x2A 1 1)
      [(List.replicate 512 1, true)] [13] 7 1 1 :=
  (write_stores_iff (.new blankDisk false) blankDisk (commandBlock 7 512 0x2A 1 1)
    ⟨7, 512, 0, 0, 10, (commandBlock 7 512 0x2A 1 1).drop 15⟩ 1 1 (replicate 512 1) true []
    [13] rfl ⟨rfl, rfl, rfl⟩ rfl rfl (by decide +kernel)
    ⟨by decide +kernel, by decide +kernel, by decide +kernel, by decide +kernel⟩
    (by decide +kernel) (by decide +kernel) (by decide)).2
    (.inr ⟨by decide +kernel, by decide +kernel⟩)

/-- The second half of the data is thrown away, and the command passes with a residue. -/
theorem write_drops_second_transfer :
    ((Device.new blankDisk false).written (commandBlock 7 512 0x2A 1 1) halves).serveAll
        [.bulkIn 13] =
      (((Device.new blankDisk false).written (commandBlock 7 512 0x2A 1 1) halves).step
        (.bulkIn 13), [.ok (cswBytes 7 256 statusPassed)]) ∧
      ¬StoresTheData (.new blankDisk false) (commandBlock 7 512 0x2A 1 1) halves [13] 7 1 1 := by
  have hs : ((Device.new blankDisk false).written (commandBlock 7 512 0x2A 1 1)
      halves).serveAll [.bulkIn 13] =
      (((Device.new blankDisk false).written (commandBlock 7 512 0x2A 1 1) halves).step
        (.bulkIn 13), [.ok (cswBytes 7 256 statusPassed)]) := by
    decide +kernel
  refine ⟨hs, ?_⟩
  rintro ⟨d', residue, status, ha, hsm, hlaw⟩
  obtain ⟨-, hcsw⟩ := Prod.mk.inj (hs.symm.trans ha)
  obtain ⟨hr, hst⟩ := cswBytes_injective (Except.ok.inj (cons.inj hcsw).1)
  have hz := (hlaw hst.symm).1
  rw [hz] at hr
  exact absurd hr (by decide)

end NetGet.UsbMsc
