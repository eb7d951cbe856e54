import NetGet.Library.Machine
import NetGet.Model.Tftp

/-! # The order of an upload -/

namespace NetGet.Tftp.Upload

open Library Machine List

variable {Addr : Type} {u : Upload Addr}

/-- The blocks come from the client, numbered one after the other from 1. -/
def InOrder (u : Upload Addr) : Prop :=
  ∀ k b, u.blocks[k]? = some b → b.sender = u.peer ∧ b.blockNum = (k + 1) % 2 ^ 16

/-- What a datagram brings to a listener at the socket: its sender and the number of a block. -/
def taken (u : Upload Addr) : Label Addr → List (Addr × ℕ)
  | .datagram i sender datagram =>
    match u.listeners[i]?, receiveData datagram with
    | some .receiving, some (blockNum, _) => [(sender, blockNum)]
    | _, _ => []
  | _ => []

/-- The trace of the DATA packets that the listeners receive in a run. -/
def received : Upload Addr → List (Label Addr) → List (Addr × ℕ)
  | _, [] => []
  | u, l :: labels => u.taken l ++ received (u.step l) labels

def ReceivesNext (peer : Addr) (packets : List (Addr × ℕ)) : Prop :=
  ∀ k packet, packets[k]? = some packet → packet = (peer, (k + 1) % 2 ^ 16)

theorem peer_step (l : Label Addr) : (u.step l).peer = u.peer := by
  cases l <;> simp only [step] <;> split <;> rfl

theorem peer_run (labels : List (Label Addr)) : (run step u labels).peer = u.peer := by
  induction labels generalizing u with
  | nil => rfl
  | cons l labels ih => rw [run_cons, ih, peer_step]

def packet (b : DataBlock Addr) : Addr × ℕ := (b.sender, b.blockNum)

theorem packets_step (l : Label Addr) :
    (u.step l).blocks.map packet = u.blocks.map packet ++ u.taken l := by
  cases l with
  | answer | result =>
    simp only [step, taken, append_nil]
    split <;> rfl
  | datagram i sender datagram =>
    cases hl : u.listeners[i]? with
    | none => simp [step, taken, hl]
    | some l =>
      cases hr : receiveData datagram with
      | none => simp [step, taken, hl, hr]
      | some found => cases l <;> simp [step, taken, packet, hl, hr]
  | stop i => exact (append_nil _).symm

theorem packets_run (labels : List (Label Addr)) :
    (run step u labels).blocks.map packet = u.blocks.map packet ++ received u labels := by
  induction labels generalizing u with
  | nil => exact (append_nil _).symm
  | cons l labels ih => rw [run_cons, ih, packets_step, received, append_assoc]

theorem flatMap_range (file : Bytes) (n : ℕ) :
    ((range n).flatMap fun k => (file.drop (512 * k)).take 512) = file.take (512 * n) := by
  induction n with
  | zero => simp
  | succ n ih => simp [range_succ, ih, Nat.mul_succ, take_add]

/-- The blocks of an upload are in order just when the listeners receive the client's packets one
after the other and no others, and then they make up the front of the file, if what the client
sends under a number is that block of it. -/
theorem upload_in_order_iff (peer : Addr) (labels : List (Label Addr)) :
    ((run step (new peer) labels).InOrder ↔ ReceivesNext peer (received (new peer) labels)) ∧
      ∀ file : Bytes, (run step (new peer) labels).InOrder →
        (∀ front b back, (run step (new peer) labels).blocks = front ++ b :: back →
          b.sender = peer → b.blockNum = (front.length + 1) % 2 ^ 16 →
          b.data = (file.drop (512 * front.length)).take 512) →
        (run step (new peer) labels).blocks.flatMap DataBlock.data <+: file := by
  have hpeer : (run step (new peer) labels).peer = peer := peer_run labels
  refine ⟨?_, fun file h hf => ?_⟩
  · have hp : (run step (new peer) labels).blocks.map packet = received (new peer) labels :=
      packets_run labels
    rw [← hp, InOrder, ReceivesNext, hpeer]
    simp only [getElem?_map, Option.map_eq_some_iff]
    constructor
    · rintro h k _ ⟨b, hb, rfl⟩
      exact Prod.ext (h k b hb).1 (h k b hb).2
    · intro h k b hb
      exact Prod.mk.inj (h k _ ⟨b, hb, rfl⟩)
  have hd : ∀ front b back, (run step (new peer) labels).blocks = front ++ b :: back →
      b.data = (file.drop (512 * front.length)).take 512 := fun front b back hb =>
    have hb' := h front.length b (by simp [hb])
    hf front b back hb (hb'.1.trans hpeer) hb'.2
  generalize (run step (new peer) labels).blocks = blocks at hd
  have ht : blocks.flatMap DataBlock.data = file.take (512 * blocks.length) := by
    rw [← flatMap_range]
    induction blocks using List.reverseRecOn with
    | nil => rfl
    | append_singleton blocks b ih =>
      rw [flatMap_append, ih fun front b' back h => hd front b' (back ++ [b]) (by simp [h])]
      simp [range_succ, hd blocks b [] rfl]
  rw [ht]
  exact take_prefix _ _

def hijacked : List (Label ℕ) :=
  [.answer [0, 4, 0, 0] true, .datagram 0 7 [0, 3, 0, 1, 66]]

def retransmitted : List (Label ℕ) :=
  [.answer [0, 4, 0, 0] true, .answer [0, 4, 0, 0] true, .datagram 0 1 [0, 3, 0, 1, 65],
    .datagram 1 1 [0, 3, 0, 1, 65]]

theorem not_inOrder_hijacked :
    ¬ (run step (new 1) hijacked).InOrder ∧ ¬ (run step (new 1) retransmitted).InOrder := by
  refine ⟨fun h => ?_, fun h => ?_⟩
  · exact absurd (h 0 _ rfl).1 (by decide)
  · exact absurd (h 1 _ rfl).2 (by decide)

end NetGet.Tftp.Upload
