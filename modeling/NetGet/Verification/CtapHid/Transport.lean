import Mathlib.Data.List.GetD
import Mathlib.Data.List.Perm.Subperm
import NetGet.Library.Fallible
import NetGet.Library.Interleaving
import NetGet.Model.CtapHid

/-! # Messages of several channels in any interleaving -/

namespace NetGet.CtapHid

open Library Machine List Option AList CtapHidPacket CtapHidMessage Prod

variable {h' : CtapHidHandler}

namespace CtapHidPacket

@[simp] theorem length_field (width : ℕ) (data : Bytes) : (field width data).length = width := by
  simp only [field, length_append, length_take, length_replicate]
  omega

theorem take_field {width n : ℕ} {data : Bytes} (h : n ≤ min data.length width) :
    (field width data).take n = data.take n := by
  have hl : (data.take width).length = min width data.length := length_take
  rw [field, take_append_of_le_length (by omega), take_take]
  congr 1
  omega

variable {cid : UInt32}

theorem parse_build {b : UInt8} {rest : Bytes} (hl : rest.length = 59) :
    parse (toBe 4 cid.toNat ++ [b] ++ rest) =
      .ok { cid, cmdOrSeq := b, data := if b &&& 0x80 != 0 then rest.drop 2 else rest } := by
  have hf : (toBe 4 cid.toNat).length = 4 := length_toBe 4 _
  have hsize : (toBe 4 cid.toNat ++ [b] ++ rest).length = hidPacketSize := by
    simp only [length_append, hf, hl, length_singleton]
    rfl
  have hcid : (toBe 4 cid.toNat ++ [b] ++ rest).take 4 = toBe 4 cid.toNat := by
    rw [append_assoc, take_left' hf]
  have hcmd : (toBe 4 cid.toNat ++ [b] ++ rest).getD 4 0 = b := by
    rw [append_assoc, getD_append_right _ _ _ _ (by omega), hf]
    rfl
  have hfi : (toBe 4 cid.toNat ++ [b] ++ rest).drop 5 = rest := by
    refine drop_left' ?_
    rw [length_append, hf, length_singleton]
  have hs : (toBe 4 cid.toNat ++ [b] ++ rest).drop 7 = rest.drop 2 := by
    rw [← hfi, drop_drop, hfi]
  simp only [parse, hsize, ne_eq, not_true_eq_false, if_false, hcid, hcmd, hfi, hs]
  rw [fromBe_toBe, Nat.mod_eq_of_lt (cid.toNat_lt.trans_eq (by decide)), UInt32.ofNat_toNat]

theorem isInit_flag (cmd : CtapHidCommand) : (cmd.toU8 ||| 0x80) &&& 0x80 != 0 := by
  cases cmd <;> decide

theorem parse_buildInit (cid : UInt32) (cmd : CtapHidCommand) (data : Bytes) :
    parse (buildInit cid cmd data) =
      .ok { cid, cmdOrSeq := cmd.toU8 ||| 0x80, data := field initPayload data } := by
  rw [buildInit, append_assoc, parse_build, if_pos (isInit_flag cmd), drop_left' (length_toBe 2 _)]
  rw [length_append, length_toBe, length_field]
  rfl

theorem parse_buildCont (cid : UInt32) (seq : UInt8) (data : Bytes) :
    parse (buildCont cid seq data) =
      .ok { cid, cmdOrSeq := seq &&& 0x7f, data := field contPayload data } := by
  have hf : ¬ ((seq &&& 0x7f) &&& 0x80 != 0) := by
    have hm : (0x7f : UInt8) &&& 0x80 = 0 := by decide
    rw [UInt8.and_assoc, hm, UInt8.and_zero]
    decide
  have hl : (field contPayload data).length = 59 := length_field _ _
  rw [buildCont, parse_build hl, if_neg hf]

theorem command_of_init (cid : UInt32) (cmd : CtapHidCommand) (data : Bytes) :
    command { cid, cmdOrSeq := cmd.toU8 ||| 0x80, data } = some cmd := by
  have hi : isInit { cid, cmdOrSeq := cmd.toU8 ||| 0x80, data } = true := isInit_flag cmd
  have hc : CtapHidCommand.fromU8 (cmd.toU8 ||| 0x80) = some cmd := by cases cmd <;> decide
  rw [command, if_pos hi, hc]

theorem getByteCount_buildInit {cmd : CtapHidCommand} {data payload : Bytes}
    (h : data.length ≤ maxMessageSize) :
    getByteCount { cid, cmdOrSeq := cmd.toU8 ||| 0x80, data := payload }
      (buildInit cid cmd data) = some data.length := by
  have hlt : data.length < 2 ^ 16 := Nat.lt_of_le_of_lt h (by decide)
  have hl : 7 ≤ (buildInit cid cmd data).length := by
    simp only [buildInit, length_append, length_toBe, length_singleton]
    omega
  have hc : ((buildInit cid cmd data).drop 5).take 2 = toBe 2 data.length := by
    rw [buildInit, if_pos hlt, append_assoc, drop_left', take_left' (length_toBe 2 _)]
    rw [length_append, length_toBe, length_singleton]
  rw [getByteCount, if_pos ⟨isInit_flag cmd, hl⟩, hc, fromBe_toBe]
  exact congrArg some (Nat.mod_eq_of_lt hlt)

end CtapHidPacket

def seqOf (k : ℕ) : UInt8 := UInt8.ofNat (k % 128)

theorem toNat_and_mask (b : UInt8) : (b &&& 0x7f).toNat = b.toNat % 128 := by
  rw [UInt8.toNat_and]
  exact Nat.and_two_pow_sub_one_eq_mod _ 7

theorem toNat_seqOf (k : ℕ) : (seqOf k).toNat = k % 128 := by
  rw [seqOf, UInt8.toNat_ofNat']
  omega

theorem seqOf_and_mask (k : ℕ) : seqOf k &&& 0x7f = seqOf k := by
  rw [← UInt8.toNat_inj, toNat_and_mask, toNat_seqOf]
  omega

theorem seqOf_succ (k : ℕ) : (seqOf k + 1) &&& 0x7f = seqOf (k + 1) := by
  have hone : (1 : UInt8).toNat = 1 := rfl
  rw [← UInt8.toNat_inj, toNat_and_mask, UInt8.toNat_add, toNat_seqOf, toNat_seqOf, hone]
  omega

def carried (k : ℕ) : ℕ := initPayload + contPayload * k

theorem carried_succ (k : ℕ) : carried (k + 1) = carried k + contPayload := by
  rw [carried, carried, Nat.mul_succ, Nat.add_assoc]

theorem getElem?_contPackets (cid : UInt32) (data : Bytes) {rounds k : ℕ}
    (h : data.length ≤ carried k + rounds) (j : ℕ) :
    (contPackets cid data rounds (carried k) (seqOf k))[j]? = if carried (k + j) < data.length then
        some (buildCont cid (seqOf (k + j)) (data.drop (carried (k + j))))
      else none := by
  induction rounds generalizing k j with
  | zero =>
    have hge : carried k ≤ carried (k + j) := by
      simp only [carried, contPayload, hidPacketSize]
      omega
    rw [if_neg (by omega)]
    rfl
  | succ rounds ih =>
    have hpos : 0 < contPayload := by decide
    rw [contPackets, ← carried_succ, seqOf_succ]
    split
    · cases j with
      | zero =>
        rename_i hlt
        exact (if_pos hlt).symm
      | succ j =>
        have hr := ih (k := k + 1) (by rw [carried_succ]; omega) j
        rw [getElem?_cons_succ, hr, Nat.add_right_comm, Nat.add_assoc]
    · rename_i hge
      have hle : carried k ≤ carried (k + j) := by
        simp only [carried, contPayload, hidPacketSize]
        omega
      rw [if_neg (by omega)]
      rfl

variable {data p : Bytes} {cid c : UInt32} {r : Request} {k : ℕ} {h : CtapHidHandler}
  {messages : UInt32 → Option Request} {front : List (UInt32 × Bytes)} {m : Option CtapHidMessage}
  {packet : CtapHidPacket}

theorem getElem?_fragmentResponse (cid : UInt32) (cmd : CtapHidCommand)
    (h : data.length ≤ maxMessageSize) (k : ℕ) : (fragmentResponse cid cmd data)[k + 1]? =
      if carried k < data.length then
        some (buildCont cid (seqOf k) (data.drop (carried k))) else none := by
  rw [fragmentResponse, if_neg (by omega), getElem?_cons_succ]
  split
  · have hc := getElem?_contPackets cid data (k := 0) (Nat.le_add_left _ (carried 0)) k
    rw [Nat.zero_add] at hc
    exact hc
  · have hge : initPayload ≤ carried k := Nat.le_add_right _ _
    rw [if_neg (by omega)]
    rfl

theorem getElem?_fragmentResponse_zero (cid : UInt32) (cmd : CtapHidCommand)
    (h : data.length ≤ maxMessageSize) :
    (fragmentResponse cid cmd data)[0]? = some (buildInit cid cmd data) := by
  rw [fragmentResponse, if_neg (by omega)]
  rfl

structure Request where
  cmd : CtapHidCommand
  data : Bytes

def partly (cid : UInt32) (r : Request) (k : ℕ) : CtapHidMessage :=
  { cid, cmd := r.cmd, data := r.data.take (carried k), expectedLen := r.data.length,
    nextSeq := seqOf k }

theorem new_field (hsize : r.data.length ≤ maxMessageSize) :
    new cid r.cmd r.data.length (field initPayload r.data) =
      .ok (partly cid r 0) := by
  rw [new, if_neg (by omega), length_field,
    take_field (by omega)]
  have ht : r.data.take (min initPayload r.data.length) = r.data.take (carried 0) := by
    rw [← take_eq_take_min]
    rfl
  rw [ht]
  rfl

theorem isComplete_partly (cid : UInt32) (r : Request) (k : ℕ) :
    (partly cid r k).isComplete = decide (r.data.length ≤ carried k) := by
  have hl : (r.data.take (carried k)).length = min (carried k) r.data.length := length_take
  simp only [isComplete, partly, hl, decide_eq_decide]
  omega

open CtapHidHandler

theorem processPacket_buildInit (h : CtapHidHandler) (cmd : CtapHidCommand) (data : Bytes) :
    h.processPacket (buildInit cid cmd data) =
      h.processInit
        { cid, cmdOrSeq := cmd.toU8 ||| 0x80, data := field initPayload data }
        (buildInit cid cmd data) := by
  have hi : isInit
      { cid, cmdOrSeq := cmd.toU8 ||| 0x80, data := field initPayload data } =
        true := isInit_flag cmd
  rw [processPacket, parse_buildInit, ok_bind, if_pos hi]

theorem processPacket_init_single (hsize : r.data.length ≤ maxMessageSize)
    (hs : r.data.length ≤ carried 0) : h.processPacket (buildInit cid r.cmd r.data) =
      .ok (h, some (partly cid r 0)) := by
  have hc : (partly cid r 0).isComplete = true := by
    rw [isComplete_partly, decide_eq_true hs]
  rw [processPacket_buildInit, processInit, command_of_init,
    getByteCount_buildInit hsize]
  simp only [Option.elim, ok_bind, new_field hsize, hc, if_true]
  rfl

theorem processPacket_init_open (hsize : r.data.length ≤ maxMessageSize)
    (hopen : carried 0 < r.data.length)
    (hr : h.activeMessages.keys.length < maxAssemblingChannels) :
    h.processPacket (buildInit cid r.cmd r.data) =
      .ok ({ h with activeMessages := h.activeMessages.insert cid (partly cid r 0) }, none) := by
  have hc : (partly cid r 0).isComplete = false := by
    rw [isComplete_partly, decide_eq_false (by omega)]
  rw [processPacket_buildInit, processInit, command_of_init,
    getByteCount_buildInit hsize]
  simp only [Option.elim, ok_bind, new_field hsize, hc, Bool.false_eq_true, if_false]
  rw [if_neg (fun hb => absurd hb.2 (by omega))]
  rfl

theorem processPacket_cont (hk : carried k < r.data.length)
    (ha : h.activeMessages.lookup cid = some (partly cid r k)) :
    h.processPacket (buildCont cid (seqOf k) (r.data.drop (carried k))) =
      if r.data.length ≤ carried (k + 1) then
        .ok ({ h with activeMessages := h.activeMessages.erase cid }, some (partly cid r (k + 1)))
      else
        .ok ({ h with activeMessages := h.activeMessages.insert cid (partly cid r (k + 1)) },
          none) := by
  let payload := field contPayload (r.data.drop (carried k))
  have hco : isInit { cid, cmdOrSeq := seqOf k, data := payload } = false := by
    have hm : (0x7f : UInt8) &&& 0x80 = 0 := by decide
    rw [isInit, ← seqOf_and_mask, UInt8.and_assoc, hm, UInt8.and_zero]
    rfl
  have hc := isComplete_partly cid r (k + 1)
  rw [processPacket, parse_buildCont, ok_bind, seqOf_and_mask, hco,
    if_neg Bool.false_ne_true, processCont, CtapHidPacket.sequence, hco]
  have hadd : (partly cid r k).addContinuation (seqOf k)
      (field contPayload (r.data.drop (carried k))) = .ok (partly cid r (k + 1)) := by
    have hl : (r.data.take (carried k)).length = carried k := length_take_of_le (Nat.le_of_lt hk)
    have hm : (field contPayload (r.data.drop (carried k))).take
        (min contPayload (r.data.length - carried k)) =
        (r.data.drop (carried k)).take contPayload := by
      rw [take_field (by rw [length_drop]; omega), ← length_drop, ← take_eq_take_min]
    simp only [addContinuation, partly, ne_eq, not_true_eq_false, if_false,
      length_field, hl, hm, seqOf_succ, carried_succ, take_add]
  simp only [Bool.not_false, if_true, Option.elim, ok_bind, ha, hadd, hc, decide_eq_true_eq]
  split <;> rfl

def packetsOf (messages : UInt32 → Option Request) (c : UInt32) : List Bytes :=
  (messages c).elim [] fun r => fragmentResponse c r.cmd r.data

def openChannels (messages : UInt32 → Option Request) (front : List (UInt32 × Bytes)) :
    List UInt32 :=
  (front.map fst).dedup.filter fun c =>
    (own c front).length < (packetsOf messages c).length

/-- What is held of a message after `n` of its packets. -/
def assembling (c : UInt32) : Option Request → ℕ → Option CtapHidMessage
  | some r, k + 1 => if carried k < r.data.length then some (partly c r k) else none
  | _, _ => none

/-- The handler holds the messages that have begun and are not complete, as far as they have
come. -/
def Holds (messages : UInt32 → Option Request) (front : List (UInt32 × Bytes))
    (h : CtapHidHandler) : Prop :=
  ∀ c, h.activeMessages.lookup c = assembling c (messages c) (own c front).length

theorem Holds.nil : Holds messages [] .new := by
  intro c
  cases messages c <;> rfl

theorem Holds.concat (hh : Holds messages front h)
    (hs : h'.activeMessages.lookup c = assembling c (messages c) ((own c front).length + 1))
    (ho : ∀ c', c' ≠ c → h'.activeMessages.lookup c' = h.activeMessages.lookup c') :
    Holds messages (front ++ [(c, p)]) h' := by
  intro c'
  by_cases hc : c' = c
  · subst hc
    rw [hs, own_append, own_cons_self, length_append]
    rfl
  · rw [ho c' hc, hh c', own_append, own_cons_of_ne (Ne.symm hc), length_append]
    rfl

theorem length_packetsOf (hm : messages c = some r)
    (hsize : r.data.length ≤ maxMessageSize) (k : ℕ) :
    k + 1 < (packetsOf messages c).length ↔ carried k < r.data.length := by
  have hget := getElem?_fragmentResponse c r.cmd hsize k
  rw [packetsOf, hm, elim_some]
  constructor
  · intro hlt
    by_contra hge
    rw [if_neg hge, getElem?_eq_none_iff] at hget
    omega
  · intro hlt
    rw [if_pos hlt] at hget
    exact (List.getElem?_eq_some_iff.1 hget).1

theorem Holds.length_keys_le (hsize : ∀ c r, messages c = some r → r.data.length ≤ maxMessageSize)
    (hh : Holds messages front h)
    (hopen : (openChannels messages front).length ≤ maxAssemblingChannels) :
    h.activeMessages.keys.length ≤ maxAssemblingChannels := by
  refine (subperm_of_subset h.activeMessages.keys_nodup fun c hc => ?_).length_le.trans hopen
  obtain ⟨m, hm⟩ := AList.mem_iff_lookup.1 (mem_keys.2 hc)
  rw [hh c] at hm
  rw [openChannels, mem_filter, mem_dedup, decide_eq_true_eq, ← length_own_pos]
  cases hme : messages c with
  | none =>
    rw [hme] at hm
    cases hm
  | some r =>
    cases hn : (own c front).length with
    | zero =>
      rw [hme, hn] at hm
      cases hm
    | succ k =>
      rw [hme, hn, assembling] at hm
      split at hm
      · rename_i hlt
        exact ⟨Nat.succ_pos k, (length_packetsOf hme (hsize c r hme) k).2 hlt⟩
      · cases hm

/-- What a caller reads of a message: its channel and command, and its data as the field and as
`into_data` returns it. -/
def view (m : CtapHidMessage) : UInt32 × CtapHidCommand × Bytes × Bytes :=
  (m.cid, m.cmd, m.data, m.intoData)

def whole (c : UInt32) (r : Request) : UInt32 × CtapHidCommand × Bytes × Bytes :=
  (c, r.cmd, r.data, r.data)

theorem view_partly (h : r.data.length ≤ carried k) : view (partly c r k) = whole c r := by
  simp only [view, partly, intoData, whole, take_of_length_le h, take_length]

/-- What the handler returns for a packet of channel `c`: the message, if the packet is its
last. -/
def answer (messages : UInt32 → Option Request) (c : UInt32) (rest : List (UInt32 × Bytes)) :
    Option (UInt32 × CtapHidCommand × Bytes × Bytes) :=
  if c ∈ rest.map fst then none else (messages c).map (whole c)

theorem processPacket_step {rest : List (UInt32 × Bytes)}
    (hsize : ∀ c r, messages c = some r → r.data.length ≤ maxMessageSize)
    (hinter : Interleaves (packetsOf messages) (front ++ (c, p) :: rest))
    (hopen : (openChannels messages (front ++ [(c, p)])).length ≤ maxAssemblingChannels)
    (hh : Holds messages front h) :
    ∃ h' m, h.processPacket p = .ok (h', m) ∧ m.map view = answer messages c rest ∧
      Holds messages (front ++ [(c, p)]) h' := by
  have hs := hinter.split
  cases hm : messages c with
  | none =>
    rw [packetsOf, hm] at hs
    exact absurd hs.symm (by simp)
  | some r =>
    have hr := hsize c r hm
    have hget : (packetsOf messages c)[(own c front).length]? = some p := by
      rw [hs, getElem?_append_right (Nat.le_refl _), Nat.sub_self]
      rfl
    have hl : c ∈ rest.map fst ↔ carried (own c front).length < r.data.length := by
      rw [← length_packetsOf hm hr, hs, length_append, length_cons, ← length_own_pos]
      omega
    have hcu := hh c
    rw [packetsOf, hm, elim_some] at hget
    rw [hm] at hcu
    rw [answer, hm]
    cases hn : (own c front).length with
    | zero =>
      rw [hn] at hget hl hcu
      rw [getElem?_fragmentResponse_zero c r.cmd hr, some.injEq] at hget
      by_cases hmo : carried 0 < r.data.length
      · let h' : CtapHidHandler := ⟨h.activeMessages.insert c (partly c r 0)⟩
        have hh' : Holds messages (front ++ [(c, p)]) h' := by
          refine hh.concat ?_ fun c' hc => lookup_insert_ne hc
          rw [hm, hn, assembling, if_pos hmo]
          exact lookup_insert _
        have hnew : c ∉ h.activeMessages := AList.lookup_eq_none.1 hcu
        have hke := hh'.length_keys_le hsize hopen
        rw [keys_insert_of_notMem hnew, length_cons] at hke
        have hp : h.processPacket p = .ok (h', none) := hget ▸ processPacket_init_open hr hmo hke
        rw [if_pos (hl.2 hmo)]
        exact ⟨h', none, hp, rfl, hh'⟩
      · have hp : h.processPacket p = .ok (h, some (partly c r 0)) :=
          hget ▸ processPacket_init_single hr (by omega)
        rw [if_neg (fun hin => hmo (hl.1 hin))]
        refine ⟨h, _, hp, ?_, hh.concat ?_ fun _ _ => rfl⟩
        · exact congrArg some (view_partly (by omega))
        · rw [hm, hn, assembling, if_neg hmo]
          exact hcu
    | succ k =>
      rw [hn] at hget hl hcu
      rw [getElem?_fragmentResponse c r.cmd hr] at hget
      split at hget
      · rename_i hk
        cases hget
        rw [assembling, if_pos hk] at hcu
        rw [processPacket_cont hk hcu]
        by_cases hmo : carried (k + 1) < r.data.length
        · rw [if_neg (by omega), if_pos (hl.2 hmo)]
          refine ⟨_, none, rfl, rfl, hh.concat ?_ fun c' hc => lookup_insert_ne hc⟩
          rw [hm, hn, assembling, if_pos hmo]
          exact lookup_insert _
        rw [if_pos (by omega), if_neg (fun hin => hmo (hl.1 hin))]
        refine ⟨_, _, rfl, ?_, hh.concat ?_ fun c' hc => lookup_erase_ne hc⟩
        · exact congrArg some (view_partly (by omega))
        · rw [hm, hn, assembling, if_neg hmo]
          exact lookup_erase _ _
      · cases hget

theorem receive_of_ok (hp : h.processPacket p = .ok (h', m)) :
    h.receive p = h' := by
  rw [receive, hp]

section

variable {trace : List (UInt32 × Bytes)}
  (hsize : ∀ c r, messages c = some r → r.data.length ≤ maxMessageSize)
  (hinter : Interleaves (packetsOf messages) trace)
  (hopen : ∀ front, front <+: trace →
    (openChannels messages front).length ≤ maxAssemblingChannels)

include hsize hinter hopen

variable {front rest : List (UInt32 × Bytes)}

theorem holds_run (ht : trace = front ++ rest) :
    Holds messages front (run receive .new (front.map snd)) := by
  induction front using reverseRecOn generalizing rest with
  | nil => exact .nil
  | append_singleton front e ih =>
    obtain ⟨c, p⟩ := e
    rw [append_assoc] at ht
    have hh := ih ht
    subst ht
    obtain ⟨h', m, hp, -, hh'⟩ := processPacket_step hsize hinter
      (hopen (front ++ [(c, p)]) ⟨rest, by simp⟩) hh
    rw [map_append, map_singleton, run_concat, receive_of_ok hp]
    exact hh'

theorem processPacket_trace (ht : trace = front ++ (c, p) :: rest) :
    ((run receive .new (front.map snd)).processPacket p).map (fun r => r.2.map view) =
      .ok (answer messages c rest) := by
  have hh := holds_run hsize hinter hopen ht
  subst ht
  obtain ⟨h', m, hp, hm, -⟩ := processPacket_step hsize hinter
    (hopen (front ++ [(c, p)]) ⟨rest, by simp⟩) hh
  rw [hp, ← hm]
  rfl

/-- From any point of the trace on, the message of a channel is returned once if it is not yet
complete, and not at all otherwise. -/
theorem returned_trace (c : UInt32) (front rest : List (UInt32 × Bytes))
    (ht : trace = front ++ rest) :
    (((returned (run receive .new (front.map snd)) (rest.map snd)).map view).filter
      fun v => v.1 = c) = if c ∈ rest.map fst then ((messages c).map (whole c)).toList
        else [] := by
  induction rest generalizing front with
  | nil => rfl
  | cons e rest ih =>
    obtain ⟨c', p⟩ := e
    have hs := processPacket_trace hsize hinter hopen ht
    have hr := ih (front ++ [(c', p)]) (by rw [ht, append_assoc]; rfl)
    rw [map_append, map_singleton, run_concat] at hr
    cases hp : (run receive .new (front.map snd)).processPacket p with
    | error e =>
      rw [hp] at hs
      cases hs
    | ok r =>
      obtain ⟨h', m⟩ := r
      rw [hp] at hs
      have hm : m.map view = answer messages c' rest := Except.ok.inj hs
      have hv : m.toList.map view = (answer messages c' rest).toList := by
        rw [← hm]
        cases m <;> rfl
      rw [receive_of_ok hp] at hr
      rw [map_cons, returned, hp]
      simp only [map_append, filter_append, hr, hv]
      by_cases hc : c' = c
      · subst hc
        by_cases hmo : c' ∈ rest.map fst
        · simp [answer, hmo]
        · cases hme : messages c' <;> simp [answer, hmo, whole, hme]
      have hn : ((answer messages c' rest).toList.filter fun v => v.1 = c) = [] := by
        rw [answer]
        split
        · rfl
        · cases messages c' <;> simp [whole, hc]
      have hmem : c ∈ c' :: rest.map fst ↔ c ∈ rest.map fst := by
        rw [mem_cons, or_iff_right (Ne.symm hc)]
      rw [hn, nil_append]
      exact (if_congr hmem rfl rfl).symm

end

structure Bounded (h : CtapHidHandler) : Prop where
  channels : h.activeMessages.keys.length ≤ maxAssemblingChannels
  expected : ∀ c m, h.activeMessages.lookup c = some m → m.expectedLen ≤ maxMessageSize
  data : ∀ c m, h.activeMessages.lookup c = some m → m.data.length ≤ m.expectedLen

theorem Bounded.insert (hb : Bounded h) {m : CtapHidMessage} (hr : c ∈ h.activeMessages ∨
      h.activeMessages.keys.length < maxAssemblingChannels)
    (he : m.expectedLen ≤ maxMessageSize) (hd : m.data.length ≤ m.expectedLen) :
    Bounded ⟨h.activeMessages.insert c m⟩ := by
  refine ⟨?_, ?_, ?_⟩
  · by_cases hc : c ∈ h.activeMessages
    · rw [(keys_insert_perm hc m).length_eq]
      exact hb.channels
    · rw [keys_insert_of_notMem hc, length_cons]
      exact hr.resolve_left hc
  · exact forall_insert hb.expected he
  · exact forall_insert hb.data hd

theorem Bounded.erase (hb : Bounded h) (c : UInt32) : Bounded ⟨h.activeMessages.erase c⟩ := by
  refine ⟨?_, fun c' m' hm => hb.expected c' m' (lookup_of_erase hm),
    fun c' m' hm => hb.data c' m' (lookup_of_erase hm)⟩
  rw [keys_erase]
  exact (length_erase_le ..).trans hb.channels

theorem Bounded.processInit {raw : Bytes} (hb : Bounded h)
    (hp : h.processInit packet raw = .ok (h', m)) : Bounded h' := by
  simp only [CtapHidHandler.processInit, bind_eq_ok] at hp
  obtain ⟨cmd, -, bcnt, -, message, hnew, hp⟩ := hp
  obtain ⟨he, hd⟩ : message.expectedLen ≤ maxMessageSize ∧
      message.data.length ≤ message.expectedLen := by
    rw [CtapHidMessage.new] at hnew
    split at hnew
    · cases hnew
    · cases hnew
      simp only [length_take]
      omega
  split at hp
  · cases hp
    exact hb
  split_ifs at hp with hr
  cases hp
  refine hb.insert ?_ he hd
  by_cases hh : packet.cid ∈ h.activeMessages
  · exact .inl hh
  · exact .inr (Nat.lt_of_not_le fun hf => hr ⟨hh, hf⟩)

theorem Bounded.processCont (hb : Bounded h) (hp : h.processCont packet = .ok (h', m)) :
    Bounded h' := by
  simp only [CtapHidHandler.processCont, bind_eq_ok] at hp
  obtain ⟨seq, -, hp⟩ := hp
  cases hl : h.activeMessages.lookup packet.cid with
  | none =>
    rw [hl] at hp
    cases hp
  | some message =>
    simp only [hl, bind_eq_ok] at hp
    obtain ⟨message', hadd, hp⟩ := hp
    split at hp
    · cases hp
      exact hb.erase _
    cases hp
    rw [addContinuation] at hadd
    split at hadd
    · cases hadd
    cases hadd
    refine hb.insert (.inl (mem_iff_lookup.2 ⟨_, hl⟩)) (hb.expected _ message hl) ?_
    have hd := hb.data _ _ hl
    simp only [length_append, length_take]
    omega

theorem Bounded.receive (hb : Bounded h) (raw : Bytes) : Bounded (h.receive raw) := by
  cases hp : h.processPacket raw with
  | error e =>
    rw [CtapHidHandler.receive, hp]
    exact hb
  | ok r =>
    obtain ⟨h', m⟩ := r
    rw [receive_of_ok hp]
    rw [processPacket, bind_eq_ok] at hp
    obtain ⟨packet, -, hp⟩ := hp
    split at hp
    · exact hb.processInit hp
    · exact hb.processCont hp

theorem bounded_run (packets : List Bytes) : Bounded (run receive .new packets) :=
  run_invariant ⟨Nat.zero_le _, nofun, nofun⟩ (fun _ raw hb => hb.receive raw) packets

/-- Messages on distinct channels, sent in any interleaving that never leaves more than four of
them open, come out whole: each packet is accepted, the last packet of a channel returns its
message, and no message is returned twice. Whatever packets come, the handler holds at most four
messages of at most `MAX_MESSAGE_SIZE` bytes. -/
theorem transport (messages : UInt32 → Option Request) (trace : List (UInt32 × Bytes))
    (hsize : ∀ c r, messages c = some r → r.data.length ≤ maxMessageSize)
    (hinter : Interleaves (packetsOf messages) trace) (hopen : ∀ front, front <+: trace →
      (openChannels messages front).length ≤ maxAssemblingChannels) :
    (∀ front c p rest, trace = front ++ (c, p) :: rest →
      ((run receive .new (front.map snd)).processPacket p).map (fun r => r.2.map view) =
        .ok (answer messages c rest)) ∧
    (∀ c, (((returned .new (trace.map snd)).map view).filter fun v => v.1 = c) =
      ((messages c).map (whole c)).toList) ∧ ∀ packets : List Bytes,
      (run receive .new packets).activeMessages.keys.length ≤ maxAssemblingChannels ∧
      ∀ m ∈ (run receive .new packets).activeMessages.values, m.data.length ≤ maxMessageSize := by
  refine ⟨?_, ?_, ?_⟩
  · intro front c p rest ht
    exact processPacket_trace hsize hinter hopen ht
  · intro c
    have hr := returned_trace hsize hinter hopen c [] trace rfl
    rw [map_nil, run_nil] at hr
    rw [hr]
    split_ifs with hn
    · rfl
    cases hme : messages c with
    | none => rfl
    | some r =>
      have hf := getElem?_fragmentResponse_zero c r.cmd (hsize c r hme)
      have hown : own c trace = fragmentResponse c r.cmd r.data := by
        rw [hinter c, packetsOf, hme]
        rfl
      rw [← hown] at hf
      have hpos := (List.getElem?_eq_some_iff.1 hf).1
      exact absurd (length_own_pos.1 hpos) hn
  · intro packets
    have hb := bounded_run packets
    refine ⟨hb.channels, fun m hm => ?_⟩
    obtain ⟨c, hc⟩ := AList.mem_values_iff.1 hm
    exact (hb.data c m hc).trans (hb.expected c m hc)

theorem transport_two_channels : ((returned .new
      [CtapHidPacket.buildInit 1 .cbor (List.replicate 58 7), CtapHidPacket.buildInit 2 .ping [5],
        CtapHidPacket.buildCont 1 0 [7]]).map view).filter (fun v => v.1 = 1) =
      [(1, .cbor, List.replicate 58 7, List.replicate 58 7)] := by
  let messages : UInt32 → Option Request := fun c =>
    if c = 1 then some ⟨.cbor, replicate 58 7⟩ else if c = 2 then some ⟨.ping, [5]⟩ else none
  let trace : List (UInt32 × Bytes) := [(1, CtapHidPacket.buildInit 1 .cbor (replicate 58 7)),
      (2, CtapHidPacket.buildInit 2 .ping [5]), (1, CtapHidPacket.buildCont 1 0 [7])]
  have hsize : ∀ c r, messages c = some r → r.data.length ≤ maxMessageSize := by
    intro c r hr
    simp only [messages] at hr
    split at hr
    · cases hr
      decide
    split at hr
    · cases hr
      decide
    · cases hr
  have hinter : Interleaves (packetsOf messages) trace := by
    intro c
    by_cases hone : c = 1
    · subst hone
      decide +kernel
    by_cases htwo : c = 2
    · subst htwo
      decide +kernel
    · simp [own, trace, packetsOf, messages, hone, htwo, Ne.symm hone, Ne.symm htwo]
  have hopen : ∀ front, front <+: trace →
      (openChannels messages front).length ≤ maxAssemblingChannels := by
    intro front hf
    calc (openChannels messages front).length
        ≤ (front.map fst).dedup.length := length_filter_le _ _
      _ ≤ (front.map fst).length := (dedup_sublist _).length_le
      _ = front.length := length_map _
      _ ≤ trace.length := hf.length_le
      _ ≤ maxAssemblingChannels := by decide
  exact (transport messages trace hsize hinter hopen).2.1 1

end NetGet.CtapHid
