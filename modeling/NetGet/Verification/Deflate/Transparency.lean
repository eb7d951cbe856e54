import NetGet.Verification.Deflate.Frames

/-! # What is written on one side is read on the other -/

namespace NetGet.Deflate

open Library Peeling List

/-- The message a data frame belongs to, up to this frame. -/
def join (p : Option Partial) (f : Frame) : Option Partial :=
  if f.opcode = 0 then p.map fun p => { p with payload := p.payload ++ f.payload }
  else some { f with }

/-- The messages that frames complete, each with the mask of its first frame. -/
def gather : Option Partial → List Frame → List Partial
  | _, [] => []
  | p, f :: frames =>
      if f.isControlFrame then gather p frames
      else if f.fin then (join p f).toList ++ gather none frames
      else gather (join p f) frames

/-- A message starts where none is open, its other frames have opcode 0 and its last frame
is final; no message is left open. -/
def wellFormed : Bool → List Frame → Bool
  | opened, [] => !opened
  | opened, f :: frames =>
      if f.isControlFrame then wellFormed opened frames
      else (f.opcode == 0) == opened && wellFormed (!f.fin) frames

/-- Every data frame has the mask of the message it belongs to. -/
def masked : Option Partial → List Frame → Bool
  | _, [] => true
  | p, f :: frames =>
      if f.isControlFrame then masked p frames
      else (join p f).all (·.mask == f.mask) && masked (if f.fin then none else join p f) frames

/-- Frames handed up for frames that were written. -/
structure Transparent (maxFrame : ℕ) (p : Option Partial) (written out : List Frame) : Prop where
  messages : gather none out = gather p written
  controls : out.filter Frame.isControlFrame = written.filter Frame.isControlFrame
  wellFormed : wellFormed false out = true
  masks : masked none out = true
  small : ∀ f ∈ out, f.isControlFrame = false → f.payload.length ≤ max maxFrame 1 ∧
    f.rsv1 = false ∧ f.rsv23 = 0

def Starts (opcode : Fin 16) : Prop := opcode ≠ 0 ∧ opcode < 8

variable {p : Option Partial} {f : Frame} {frames rest : List Frame} {rsv23 : Fin 4}
  {mask : Option Mask} {opcode : Fin 16} {chunks : List Bytes}

theorem gather_control (h : f.isControlFrame = true) :
    gather p (f :: frames) = gather p frames := by
  rw [gather, if_pos h]

theorem wellFormed_control (h : f.isControlFrame = true) (opened : Bool) :
    wellFormed opened (f :: frames) = wellFormed opened frames := by
  rw [wellFormed, if_pos h]

theorem masked_control (h : f.isControlFrame = true) :
    masked p (f :: frames) = masked p frames := by
  rw [masked, if_pos h]

theorem join_of_wellFormed (hf : f.isControlFrame = false)
    (hw : wellFormed p.isSome (f :: frames) = true) (hp : ∀ q ∈ p, Starts q.opcode) :
    ∃ q, join p f = some q ∧ Starts q.opcode ∧ wellFormed (!f.fin) frames = true := by
  rw [wellFormed, if_neg (by simp [hf]), Bool.and_eq_true, beq_iff_eq] at hw
  unfold join
  by_cases hop : f.opcode = 0
  · cases p with
    | none => simp [hop] at hw
    | some q =>
      rw [if_pos hop]
      exact ⟨_, rfl, hp q rfl, hw.2⟩
  · rw [if_neg hop]
    refine ⟨_, rfl, ⟨hop, ?_⟩, hw.2⟩
    exact Fin.not_le.1 (of_decide_eq_false hf)

theorem mem_emitChunks (h : f ∈ emitChunks rsv23 mask opcode chunks) :
    f.payload ∈ chunks ∧ f.rsv1 = false ∧ f.rsv23 = rsv23 ∧ f.mask = mask ∧
      (f.opcode = opcode ∨ f.opcode = 0) := by
  induction chunks generalizing opcode with
  | nil => cases h
  | cons chunk chunks ih =>
    cases chunks with
    | nil =>
      rw [emitChunks, mem_singleton] at h
      subst h
      exact ⟨mem_cons_self, rfl, rfl, rfl, .inl rfl⟩
    | cons chunk' chunks =>
      rw [emitChunks, mem_cons] at h
      · obtain rfl | h := h
        · exact ⟨mem_cons_self, rfl, rfl, rfl, .inl rfl⟩
        · obtain ⟨hmem, hr, hrsv, hm, hop⟩ := ih h
          exact ⟨mem_cons_of_mem _ hmem, hr, hrsv, hm, .inr (hop.elim id id)⟩
      · exact nofun

/-- The frames of a message give the message back, are in order and have its mask. -/
theorem gather_emitChunks (rsv23 : Fin 4) (rest : List Frame) {q : Partial} (hne : chunks ≠ [])
    (hm : q.mask = mask)
    (hq : (p = some q ∧ opcode = 0) ∨ (p = none ∧ Starts opcode ∧ q = ⟨opcode, mask, []⟩)) :
    gather p (emitChunks rsv23 mask opcode chunks ++ rest) =
        { q with payload := q.payload ++ chunks.flatten } :: gather none rest ∧
      wellFormed p.isSome (emitChunks rsv23 mask opcode chunks ++ rest) =
        wellFormed false rest ∧
      masked p (emitChunks rsv23 mask opcode chunks ++ rest) = masked none rest := by
  have hfr (fin : Bool) (payload : Bytes) :
      let f : Frame := { fin, rsv1 := false, rsv23, opcode, mask, payload }
      f.isControlFrame = false ∧ join p f = some { q with payload := q.payload ++ payload } ∧
        ((opcode == 0) == p.isSome) = true := by
    intro f
    obtain ⟨rfl, rfl⟩ | ⟨rfl, hs, rfl⟩ := hq
    · exact ⟨rfl, rfl, rfl⟩
    refine ⟨decide_eq_false (Fin.not_le.2 hs.2), ?_, ?_⟩
    · rw [join, if_neg hs.1]
      rfl
    · simp [hs.1]
  induction chunks generalizing p opcode q with
  | nil => exact absurd rfl hne
  | cons chunk chunks ih =>
    cases chunks with
    | nil =>
      obtain ⟨hc, hjoin, ho⟩ := hfr true chunk
      simp only [emitChunks, singleton_append, gather, wellFormed, masked, hc, hjoin, ho,
        flatten_singleton]
      exact ⟨rfl, rfl, by simp [hm]⟩
    | cons chunk' chunks =>
      obtain ⟨hc, hjoin, ho⟩ := hfr false chunk
      obtain ⟨hg, hw, hma⟩ := ih (q := { q with payload := q.payload ++ chunk })
        (cons_ne_nil _ _) hm (.inl ⟨rfl, rfl⟩) (fun _ _ => ⟨rfl, rfl, rfl⟩)
      rw [emitChunks]
      · simp only [cons_append, gather, wellFormed, masked, hc, hjoin, ho]
        refine ⟨hg.trans ?_, hw, by simpa [hm] using hma⟩
        simp only [flatten_cons, append_assoc]
      · exact nofun

theorem emitMessage_eq (opcode : Fin 16) (rsv23 : Fin 4) (mask : Option Mask) (maxFrame : ℕ)
    (payload : Bytes) : ∃ chunks, chunks ≠ [] ∧ chunks.flatten = payload ∧
      (∀ chunk ∈ chunks, chunk.length ≤ max maxFrame 1) ∧
      emitMessage (max maxFrame 1) opcode rsv23 mask payload =
        emitChunks rsv23 mask opcode chunks := by
  unfold emitMessage
  have hsi : 0 < max maxFrame 1 := Nat.lt_of_lt_of_le Nat.one_pos (Nat.le_max_right _ _)
  split
  · rename_i hs
    exact ⟨[payload], cons_ne_nil _ _, flatten_singleton, by simpa using hs, rfl⟩
  rename_i hl
  have hfl := flatten_pieces hsi payload
  refine ⟨_, fun hnil => ?_, hfl, fun _ h => (mem_pieces hsi h).2, rfl⟩
  rw [hnil] at hfl
  rw [← hfl] at hl
  exact hl (Nat.zero_le _)

namespace Transparent

variable {q : Partial} {out : List Frame} {maxFrame : ℕ} (hf : f.isControlFrame = false)
  (hjoin : join p f = some q)

theorem control (hf : f.isControlFrame = true) (h : Transparent maxFrame p frames out) :
    Transparent maxFrame p (f :: frames) (f :: out) where
  messages := by rw [gather_control hf, gather_control hf, h.messages]
  controls := by rw [filter_cons_of_pos hf, filter_cons_of_pos hf, h.controls]
  wellFormed := by rw [wellFormed_control hf, h.wellFormed]
  masks := by rw [masked_control hf, h.masks]
  small := forall_mem_cons.2 ⟨by simp [hf], h.small⟩

include hf hjoin

theorem held (hfin : f.fin = false) (h : Transparent maxFrame (some q) frames out) :
    Transparent maxFrame p (f :: frames) out where
  messages := by rw [h.messages, gather, if_neg (by simp [hf]), hfin, hjoin]; rfl
  controls := by rw [h.controls, filter_cons_of_neg (by simp [hf])]
  wellFormed := h.wellFormed
  masks := h.masks
  small := h.small

theorem completed (hfin : f.fin = true) (hq : Starts q.opcode)
    (h : Transparent maxFrame none frames out) : Transparent maxFrame p (f :: frames)
      (emitMessage (max maxFrame 1) q.opcode 0 q.mask q.payload ++ out) := by
  obtain ⟨chunks, hne, hfl, hs, he⟩ := emitMessage_eq q.opcode 0 q.mask maxFrame q.payload
  obtain ⟨hga, hw, hma⟩ := gather_emitChunks (p := none) (q := ⟨q.opcode, q.mask, []⟩) 0 out hne
    rfl (.inr ⟨rfl, hq, rfl⟩)
  have hd : ∀ g ∈ emitChunks 0 q.mask q.opcode chunks, ¬ g.isControlFrame = true := by
    intro g hg
    obtain ⟨-, -, -, -, hop | hop⟩ := mem_emitChunks hg
    · simpa [Frame.isControlFrame, hop] using hq.2
    · simp [Frame.isControlFrame, hop]
  rw [he]
  constructor
  · rw [hga, hfl, gather, if_neg (by simp [hf]), hfin, hjoin, if_pos rfl, h.messages]
    rfl
  · rw [filter_append, filter_eq_nil_iff.2 hd, filter_cons_of_neg (by simp [hf]), nil_append,
      h.controls]
  · exact hw.trans h.wellFormed
  · exact hma.trans h.masks
  · refine forall_mem_append.2 ⟨fun g hg _ => ?_, h.small⟩
    obtain ⟨hmem, hrs, hr, -, -⟩ := mem_emitChunks hg
    exact ⟨hs _ hmem, hrs, hr⟩

end Transparent

section

variable {δ ι : Type} (deflate : δ → Bytes → Except String (Bytes × δ))
  (inflate : ι → Bytes → Except String (Bytes × ι)) (maxMessage maxFrame : ℕ)

/-- The decompressor undoes what the compressor does with these messages, one after the other, and
none of them is too long compressed. -/
def Undoes : δ → ι → List Partial → Prop
  | _, _, [] => True
  | d, i, q :: messages => ∃ bytes d' i', deflate d q.payload = .ok (bytes, d') ∧
      bytes.length ≤ maxMessage ∧ inflate i bytes = .ok (q.payload, i') ∧ Undoes d' i' messages

variable {deflate inflate maxMessage maxFrame}

variable (maxFrame) in
theorem transparent_run {d : Direction δ} {i : ι} {written : List Frame}
    (hwe : wellFormed d.pending.isSome written = true) (hs : ∀ q ∈ d.pending, Starts q.opcode)
    (hu : Undoes deflate inflate maxMessage d.codec i (gather d.pending written))
    (hc : ∀ f ∈ written, f.isControlFrame = true → f.payload.length ≤ maxMessage) :
    ∃ d' wire i' out, runFrames (writeFrame deflate) d written = .ok (d', wire) ∧
      (∀ f ∈ wire, f.payload.length ≤ maxMessage) ∧
      runFrames (readFrame inflate maxMessage maxFrame) (.new i) wire = .ok (.new i', out) ∧
      Transparent maxFrame d.pending written out := by
  induction written generalizing d i with
  | nil => exact ⟨d, [], i, [], rfl, by simp, rfl, rfl, rfl, rfl, rfl, by simp⟩
  | cons f frames ih =>
    have hre := fun g hg => hc g (mem_cons_of_mem f hg)
    cases hf : f.isControlFrame with
    | true =>
      rw [gather_control hf] at hu
      rw [wellFormed_control hf] at hwe
      obtain ⟨d', wire, i', out, hw, hfit, hr, ht⟩ := ih hwe hs hu hre
      refine ⟨d', f :: wire, i', f :: out, ?_, ?_, ?_, ht.control hf⟩
      · simp only [runFrames, writeFrame, hf, if_true, hw, Except.map, singleton_append]
      · exact forall_mem_cons.2 ⟨hc f mem_cons_self hf, hfit⟩
      · simp only [runFrames, readFrame, hf, if_true, hr, Except.map, singleton_append]
    | false =>
      obtain ⟨q, hjoin, hq, hw'⟩ := join_of_wellFormed hf hwe hs
      rw [gather, if_neg (by simp [hf]), hjoin] at hu
      have hwf : writeFrame deflate d f = if f.fin then
          complete deflate d q.payload fun payload =>
            [{ q with fin := true, rsv1 := true, rsv23 := 0, payload }]
          else .ok ({ d with pending := some q }, []) := by
        rw [writeFrame, if_neg (by simp [hf])]
        rw [join] at hjoin
        rw [hjoin]
      cases hfin : f.fin with
      | false =>
        rw [hfin] at hw' hu hwf
        obtain ⟨d', wire, i', out, hw, hfit, hr, ht⟩ :=
          ih (d := { d with pending := some q }) hw' (by simpa using hq) hu hre
        refine ⟨d', wire, i', out, ?_, hfit, hr, ht.held hf hjoin hfin⟩
        simp [runFrames, hwf, hw, Except.map]
      | true =>
        rw [hfin] at hw' hu hwf
        obtain ⟨bytes, d₁, i₁, hd, hl, hi, hu⟩ := hu
        obtain ⟨d', wire, i', out, hw, hfit, hr, ht⟩ :=
          ih (d := { d with pending := none, codec := d₁ }) hw' (by simp) hu hre
        refine ⟨d', { q with fin := true, rsv1 := true, rsv23 := 0, payload := bytes } :: wire, i',
          _, ?_, forall_mem_cons.2 ⟨hl, hfit⟩, ?_, ht.completed hf hjoin hfin hq⟩
        · simp [runFrames, hwf, complete, hd, hw, Except.map]
        · have hco : (8 ≤ q.opcode) = False := eq_false (Fin.not_le.2 hq.2)
          simp only [Direction.new] at hr
          simp [runFrames, readFrame, Frame.isControlFrame, hco, hq.1, Direction.new, complete,
            hi, hr, Except.map]

/-- Whatever is written, and however it and the bytes on the wire are cut: as long as the
decompressor undoes the compressor and nothing is too long, what is read is what was written. -/
theorem deflate_transparent (d : δ) (i : ι) {written : List Frame} (maxFrame : ℕ)
    (hwell : wellFormed false written = true)
    (hundoes : Undoes deflate inflate maxMessage d i (gather none written))
    (hcontrols : ∀ f ∈ written, f.isControlFrame = true → f.payload.length ≤ maxMessage)
    (hfit : ∀ f ∈ written, f.payload.length ≤ 2 ^ 63 - 1) (hmax : maxMessage < 2 ^ 64) :
    ∃ wire out, Transparent maxFrame none written out ∧
      ∀ chunks : List Bytes, chunks.flatten = written.flatMap Frame.encode →
        (processWrite deflate d chunks).refused = none ∧
        (processWrite deflate d chunks).buffer = [] ∧
        putOut (processWrite deflate d chunks) = wire ∧
        ∀ received : List Bytes, received.flatten = wire →
          let r := processRead inflate maxMessage maxFrame i received
          r.refused = none ∧ r.buffer = [] ∧ putOut r = out.flatMap Frame.encode := by
  obtain ⟨d', wire, i', out, hw, hwi, hre, ht⟩ :=
    transparent_run maxFrame (d := .new d) hwell nofun hundoes hcontrols
  refine ⟨wire.flatMap Frame.encode, out, ht, fun chunks hc => ?_⟩
  obtain ⟨outputs, rfl, hall⟩ := readAll_frames hfit (by decide) hw hc
  rw [processWrite, hall]
  refine ⟨rfl, rfl, rfl, fun received hr => ?_⟩
  obtain ⟨outputs', rfl, hall'⟩ := readAll_frames hwi hmax hre hr
  rw [processRead, hall']
  exact ⟨rfl, rfl, rfl⟩

end

def hello : List Frame :=
  [⟨false, false, 0, 1, some fun _ => 7, [104]⟩, ⟨true, false, 0, 9, some fun _ => 7, []⟩,
    ⟨true, false, 0, 0, some fun _ => 7, [105, 33]⟩]

def stored (_ : Unit) (payload : Bytes) : Except String (Bytes × Unit) := .ok (payload, ())

theorem deflate_transparent_hello : ∃ wire out, Transparent 1 none hello out ∧
    ∀ chunks : List Bytes, chunks.flatten = hello.flatMap Frame.encode →
      (processWrite stored () chunks).refused = none ∧
      (processWrite stored () chunks).buffer = [] ∧
      putOut (processWrite stored () chunks) = wire ∧
      ∀ received : List Bytes, received.flatten = wire →
        let r := processRead stored 8 1 () received
        r.refused = none ∧ r.buffer = [] ∧ putOut r = out.flatMap Frame.encode :=
  deflate_transparent () () 1 (by decide) ⟨_, _, (), rfl, by decide, rfl, trivial⟩ (by decide)
    (by decide) (by decide)

end NetGet.Deflate
