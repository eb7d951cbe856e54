import NetGet.Verification.Bfd.Runs
import Mathlib.Algebra.Order.BigOperators.Group.List
import Mathlib.Algebra.Group.Action.Defs
import Mathlib.Algebra.Order.Ring.Nat

/-! # Detection times of two sessions -/

namespace NetGet.Bfd

open Library Machine Session

/-- Jitter only shortens the interval, and the interval in force is no longer than the one
advertised. -/
theorem Session.nextInterval_le {s : Session} (h : s.InForce) (random : ℕ) :
    s.nextInterval random ≤ max s.advertised.desiredMinTxUs s.remoteMinRxUs := by
  refine le_trans ?_ (max_le_max h.tx_le le_rfl)
  have hpct : random % ((if s.advertised.detectMult = 1 then 90 else 100) - 75 + 1) + 75 ≤ 100 := by
    split_ifs <;> omega
  apply Nat.div_le_of_le_mul
  rw [mul_comm 100]
  exact Nat.mul_le_mul_left _ hpct

theorem Session.exists_of_mem_detectionDeadline {s : Session} {deadline : ℕ}
    (h : deadline ∈ s.detectionDeadline) : ∃ last ∈ s.lastRx, last + s.detectionTime = deadline := by
  unfold detectionDeadline at h
  split at h
  · exact Option.mem_map.1 h
  · exact Option.mem_map.1 h
  · cases h

/-- Two sessions that have heard each other's advertised timers, in whatever states their runs
left them: the next Detect Mult packets of one leave, with any jitter, before the Detection Time
of the other has passed, also while a Poll Sequence is under way. -/
theorem no_false_alarm (hashes : Hashes) (d d' : UInt32) (t t' : Timers)
    (auth auth' : Option AuthConfig) (random random' : UInt32)
    (ls ls' : List Label) :
    let s := (run (World.step hashes) (World.new d t auth random) ls).session
    let peer := (run (World.step hashes) (World.new d' t' auth' random') ls').session
    peer.remoteDesiredMinTxUs = s.advertised.desiredMinTxUs →
    peer.remoteDetectMult = s.advertised.detectMult →
    s.remoteMinRxUs = peer.advertised.requiredMinRxUs →
    ∀ jitter : List ℕ, jitter.length ≤ s.advertised.detectMult.toNat →
    ∀ last ∈ peer.lastRx, ∀ deadline ∈ peer.detectionDeadline,
      last + (jitter.map s.nextInterval).sum ≤ deadline := by
  intro s peer htx hmult hrx jitter hlen last hlast deadline hdeadline
  have hs := (run_invariant (World.new_inv d t auth random)
    (World.step_inv hashes) ls).negotiated
  have hp := (run_invariant (World.new_inv d' t' auth' random')
    (World.step_inv hashes) ls').negotiated
  have hle : ∀ i ∈ jitter.map s.nextInterval,
      i ≤ max peer.rxInForceUs peer.remoteDesiredMinTxUs := by
    simp only [List.mem_map]
    rintro _ ⟨r, -, rfl⟩
    refine (nextInterval_le hs.toInForce r).trans ?_
    rw [htx, max_comm]
    exact max_le_max (hrx.trans_le hp.rx_ge) le_rfl
  have hsum : (jitter.map s.nextInterval).sum ≤ peer.detectionTime := by
    refine (List.sum_le_card_nsmul _ _ hle).trans ?_
    rw [List.length_map, smul_eq_mul, detectionTime, hmult]
    exact Nat.mul_le_mul_right _ hlen
  obtain ⟨_, hlast', rfl⟩ := exists_of_mem_detectionDeadline hdeadline
  rw [Option.mem_unique hlast hlast']
  exact Nat.add_le_add_left hsum _

/-- Two sessions configured for 300 ms, each Up: three packets fit into the 900 ms. -/
theorem no_false_alarm_fast :
    let s := (run (World.step .zero) fastSession [.receive (plainPacket 0x80) 5]).session
    s.detectionDeadline = some 900005 ∧ 5 + ([0, 25, 7].map s.nextInterval).sum ≤ 900005 := by
  refine ⟨by decide, ?_⟩
  let t := fastSession.session.configured
  exact no_false_alarm .zero 1 1 t t none none 0 0 [.receive (plainPacket 0x80) 5]
    [.receive (plainPacket 0x80) 5] (by decide) (by decide) (by decide) _ (by decide) 5 (by decide)
    _ (by decide)

end NetGet.Bfd
