import NetGet.Library.Fallible
import NetGet.Model.Libp2pWire
import Mathlib.Data.List.GetD

/-! # Peer ids as texts -/

namespace NetGet.Libp2pWire

open Library Library.Radix List

def letter (d : ℕ) : UInt8 := b58.getD d 0

theorem digitOf_eq_ok {c : UInt8} {d : ℕ} : digitOf c = .ok d ↔ d < 58 ∧ letter d = c := by
  have hall : ∀ d < 58, b58.idxOf? (letter d) = some d := by decide +kernel
  rw [digitOf, elim_eq_ok]
  constructor
  · intro h
    obtain ⟨hd, hc, -⟩ := findIdx?_eq_some_iff_getElem.1 h
    refine ⟨hd, ?_⟩
    rw [letter, getD_eq_getElem _ _ hd]
    exact eq_of_beq hc
  · rintro ⟨hd, rfl⟩
    exact hall d hd

theorem mapM_digitOf {s : Bytes} {ds : List ℕ} :
    s.mapM digitOf = .ok ds ↔ (∀ d ∈ ds, d < 58) ∧ s = ds.map letter := by
  rw [mapM_eq_ok]
  induction ds generalizing s with
  | nil => simp
  | cons d ds ih =>
    rw [forall₂_cons_right_iff, forall_mem_cons, map_cons]
    constructor
    · rintro ⟨c, s', hc, hs, rfl⟩
      obtain ⟨hd, rfl⟩ := digitOf_eq_ok.1 hc
      obtain ⟨hds, rfl⟩ := ih.1 hs
      exact ⟨⟨hd, hds⟩, rfl⟩
    · rintro ⟨⟨hd, hds⟩, rfl⟩
      exact ⟨_, _, digitOf_eq_ok.2 ⟨hd, rfl⟩, ih.2 ⟨hds, rfl⟩, rfl⟩

theorem length_takeWhile_letter {ds : List ℕ} (h : ∀ d ∈ ds, d < 58) :
    ((ds.map letter).takeWhile (· == 49)).length = leadingZeros ds := by
  have hone : ∀ d < 58, (letter d == 49) = (d == 0) := by decide +kernel
  induction ds with
  | nil => rfl
  | cons d ds ih =>
    rw [forall_mem_cons] at h
    rw [map_cons, takeWhile_cons, leadingZeros, takeWhile_cons, hone d h.1]
    split
    · rw [length_cons, length_cons, ih h.2, leadingZeros]
    · rfl

theorem lt_of_mem_map_toNat (b : Bytes) : ∀ x ∈ b.map UInt8.toNat, x < 256 := by
  intro x hx
  obtain ⟨c, -, rfl⟩ := mem_map.1 hx
  exact c.toNat_lt

theorem leadingZeros_map_toNat (b : Bytes) :
    leadingZeros (b.map UInt8.toNat) = (b.takeWhile (· == 0)).length := by
  have hz : (fun x => x == 0) ∘ UInt8.toNat = fun c => c == 0 := by
    funext c
    simp [← UInt8.toNat_inj]
  rw [leadingZeros, takeWhile_map, length_map, hz]

theorem base58_eq (b : Bytes) :
    base58 b = some ((rebase 58 256 (b.map UInt8.toNat)).map letter) := by
  rw [base58, convert_eq (by decide) (by decide) (by decide) (lt_of_mem_map_toNat b), rebase,
    map_append, map_replicate, leadingZeros_map_toNat]
  rfl

theorem unbase58_eq (s : Bytes) : unbase58 s =
    if s.length > 128 then some (.error .tooLong)
    else some ((s.mapM digitOf).map fun ds => (rebase 256 58 ds).map UInt8.ofNat) := by
  rw [unbase58]
  split
  · rfl
  cases hd : s.mapM digitOf with
  | error e => rfl
  | ok ds =>
    obtain ⟨hds, rfl⟩ := mapM_digitOf.1 hd
    simp only [convert_eq (by decide) (by decide) (by decide : 256 * 58 ≤ 2 ^ 32) hds,
      length_takeWhile_letter hds, Except.map, rebase, map_append, map_replicate]
    rfl

/-- The two conversions undo each other, and no carry overflows. -/
theorem base58_bijective :
    (∀ b : Bytes, ∃ s, base58 b = some s ∧
      (s.takeWhile (· == 49)).length = (b.takeWhile (· == 0)).length ∧
      (s.length ≤ 128 → unbase58 s = some (.ok b))) ∧
    ∀ s : Bytes, ∃ r, unbase58 s = some r ∧ ∀ b, r = .ok b → base58 b = some s := by
  have hlt : ∀ xs, ∀ d ∈ rebase 58 256 xs, d < 58 := fun _ _ => lt_of_mem_rebase (by decide)
  constructor
  · intro b
    refine ⟨_, base58_eq b, ?_, fun hl => ?_⟩
    · rw [length_takeWhile_letter (hlt _), leadingZeros_rebase, leadingZeros_map_toNat]
    · rw [unbase58_eq, if_neg (Nat.not_lt.2 hl), mapM_digitOf.2 ⟨hlt _, rfl⟩]
      have hid : UInt8.ofNat ∘ UInt8.toNat = id := funext fun _ => UInt8.ofNat_toNat
      simp only [Except.map, rebase_rebase (by decide : 1 < 256) (lt_of_mem_map_toNat b), map_map,
        hid, map_id]
  · intro s
    rw [unbase58_eq]
    split
    · exact ⟨_, rfl, nofun⟩
    refine ⟨_, rfl, fun b hb => ?_⟩
    cases hd : s.mapM digitOf with
    | error e => simp [hd, Except.map] at hb
    | ok ds =>
      obtain ⟨hds, rfl⟩ := mapM_digitOf.1 hd
      rw [hd, Except.map, Except.ok.injEq] at hb
      have hback : b.map UInt8.toNat = rebase 256 58 ds := by
        rw [← hb, map_map]
        refine (map_congr_left fun x hx => ?_).trans (map_id _)
        exact UInt8.toNat_ofNat_of_lt' (lt_of_mem_rebase (by decide) hx)
      rw [base58_eq, hback, rebase_rebase (by decide) hds]

end NetGet.Libp2pWire
