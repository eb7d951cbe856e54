import NetGet.Verification.TorRelay.Isolation

/-! # The windows of circuits and streams -/

namespace NetGet.TorRelay

open Library Sharing Option

variable {χ : Type} {cipher : CircuitCrypto χ} {op : Op} {entry : Option (Circuit χ)}
  {c : Circuit χ} {label : ConnectionId × Event} {w : Relay cipher}

/-- A window whose cells are all accounted for. -/
structure Window.Balanced (size increment : ℕ) (w : Window) : Prop where
  deliver_add : w.deliver + w.received = size
  received_lt : w.received < increment
  package_le : w.package ≤ size

theorem addU16_eq {a b : ℕ} (h : a + b < 2 ^ 16) : addU16 a b = some (a + b) := by
  rw [addU16, if_pos h]

namespace Window

variable {size increment : ℕ} {w : Window}

theorem start_balanced (h : 0 < increment) : (start size).Balanced size increment :=
  ⟨rfl, h, Nat.le_refl _⟩

theorem Balanced.recordReceived (h : w.Balanced size increment) (hle : increment ≤ size)
    (hs : size < 2 ^ 16) :
    ∃ r, w.recordReceived increment = some r ∧ r.1.Balanced size increment := by
  obtain ⟨hd, hr, hp⟩ := h
  unfold Window.recordReceived
  rw [addU16_eq (by omega), bind_some]
  split
  · rw [addU16_eq (by omega)]
    refine ⟨_, rfl, ?_, ?_, hp⟩ <;> simp only <;> omega
  · refine ⟨_, rfl, ?_, ?_, hp⟩ <;> simp only <;> omega

theorem Balanced.moves {sendme : Prop} {w' : Window} (h : w.Balanced size increment)
    (hle : increment ≤ size) (hsi : size < 2 ^ 16) (hs : ¬ sendme)
    (hm : Moves increment sendme w w') : w'.Balanced size increment := by
  cases hm with
  | same heq =>
    rw [heq]
    exact h
  | counted due hco =>
    obtain ⟨r, hr, hb⟩ := h.recordReceived hle hsi
    cases hco.symm.trans hr
    exact hb
  | credited hc _ => exact absurd hc hs

end Window

structure Circuit.Balanced (c : Circuit χ) : Prop where
  window : c.window.Balanced circuitWindowStart circuitWindowIncrement
  streams : ∀ id stream w, c.streams.lookup id = some stream → stream.window = some w →
    w.Balanced streamWindowStart streamWindowIncrement

def Op.credits : Op → Option (Circuit χ) → Bool
  | .processCircuitSendme, some _ => true
  | .processStreamSendme id, some c => ((c.streams.lookup id).bind Stream.window).isSome
  | _, _ => false

theorem isSome_withCircuit {α : Type} {f : Circuit χ → Option (Circuit χ × Except RelayError α)}
    (h : ∀ c, entry = some c → (f c).isSome) : (withCircuit f entry).isSome := by
  cases entry with
  | none => rfl
  | some c =>
    rw [withCircuit, isSome_map]
    exact h c rfl

theorem isSome_apply (he : ∀ c, entry = some c → c.Balanced)
    (hcr : op.credits entry = false) : (op.apply cipher entry).isSome := by
  cases op with
  | recordRelayReceived =>
    refine isSome_withCircuit fun c hc => ?_
    obtain ⟨r, hr, -⟩ := (he c hc).window.recordReceived (by decide) (by decide)
    rw [hr]
    rfl
  | processCircuitSendme =>
    refine isSome_withCircuit fun c hc => ?_
    rw [hc] at hcr
    cases hcr
  | recordStreamDataReceived id =>
    refine isSome_withCircuit fun c hc => ?_
    rw [isSome_map]
    unfold Circuit.recordStreamDataReceived
    split
    · rfl
    rename_i stream hl
    rw [isSome_map]
    unfold Stream.recordDataReceived
    split
    · rename_i w hw
      obtain ⟨r, hr, -⟩ := ((he c hc).streams id stream w hl hw).recordReceived (by decide)
        (by decide)
      rw [hr]
      rfl
    · rfl
  | processStreamSendme id =>
    refine isSome_withCircuit fun c hc => ?_
    rw [hc] at hcr
    rw [isSome_map]
    unfold Circuit.processStreamSendme
    split
    · rfl
    rename_i stream hl
    rw [Op.credits, hl, bind_some, isSome_eq_false_iff, isNone_iff_eq_none] at hcr
    rw [isSome_map, Stream.processSendme, hcr]
    rfl
  | create | destroy | recordSent | recordReceived => rfl
  | decrypt | encrypt | createStream | createDirectoryStream | setStreamActive
  | appendDirectoryData | getStreamWriter | getStreamReader | isDirectoryStream
  | getDirectoryRequest | closeStream => exact isSome_withCircuit fun _ _ => rfl

/-- The step is not the processing of a SENDME for a live circuit or stream. -/
def noCredit (w : Relay cipher) (label : ConnectionId × Event) : Bool :=
  match (w.agents label.1).act label.2 with
  | .own _ => true
  | .use key op _ => !Op.credits op (w.store key)

/-- The step does not panic in the circuit manager. -/
def noOverflow (w : Relay cipher) (label : ConnectionId × Event) : Bool :=
  match (w.agents label.1).act label.2 with
  | .own _ => true
  | .use key op _ => (Op.apply cipher op (w.store key)).isSome

theorem credits_eq_false {key : CircuitId}
    {next : Option (Except RelayError op.Value) → Session cipher} (h : noCredit w label = true)
    (hact : (w.agents label.1).act label.2 = .use key op next) :
    op.credits (w.store key) = false := by
  have hc : (!op.credits (w.store key)) = true := by
    simpa only [noCredit, hact] using h
  simpa using hc

def Relay.Balanced (w : Relay cipher) : Prop := ∀ c circuit, w.store c = some circuit → circuit.Balanced

theorem Relay.Balanced.step (hw : Relay.Balanced w) (h : noCredit w label = true) :
    Relay.Balanced (w.step cipher label) := by
  obtain ⟨id, event⟩ := label
  refine store_invariant (S := interface cipher) (fun _ entry => ∀ c, entry = some c → c.Balanced)
    (fun _ op entry => Op.credits op entry = false) ?_ hw
    fun key op next hact => credits_eq_false h hact
  intro _ op entry entry' r he hcr ha d hd
  obtain ⟨creator, keys, rfl, hnew⟩ | hn | ⟨c, c', rfl, hc', hch⟩ := apply_cases ha
  · cases hd.symm.trans hnew
    exact ⟨Window.start_balanced (by decide), fun _ _ _ h => nomatch h⟩
  · cases hd.symm.trans hn
  · cases hd.symm.trans hc'
    have hc := he c rfl
    refine ⟨hc.window.moves (by decide) (by decide) ?_ hch.window, ?_⟩
    · rintro rfl
      cases hcr
    intro id stream' w' hl hw'
    rcases hch.streams id stream' w' hl hw' with rfl | ⟨stream, w, hs, hw, hm⟩
    · exact Window.start_balanced (by decide)
    refine (hc.streams id stream w hs hw).moves (by decide) (by decide) ?_ hm
    rintro rfl
    simp only [Op.credits, hs, bind_some, hw, isSome_some, Bool.true_eq_false] at hcr

/-- As long as no SENDME is processed for a live circuit or stream, all windows are balanced and
no window overflows. -/
theorem windows_balanced (cipher : CircuitCrypto χ) {labels : List (ConnectionId × Event)}
    (h : Machine.Meets (Relay.step cipher) (fun w l => noCredit w l = true) (Relay.new cipher)
      labels) : Relay.Balanced (Machine.run (Relay.step cipher) (Relay.new cipher) labels) ∧
      Machine.Meets (Relay.step cipher) (fun w l => noOverflow w l = true) (Relay.new cipher)
        labels := by
  have hb : ∀ run,
      Machine.Meets (Relay.step cipher) (fun w l => noCredit w l = true) (Relay.new cipher) run →
      Relay.Balanced (Machine.run (Relay.step cipher) (Relay.new cipher) run) :=
    Machine.run_invariant_of_meets (fun _ _ hn => nomatch hn) fun _ _ hw hl => hw.step hl
  refine ⟨hb labels h, ?_⟩
  rintro front l rest rfl
  unfold noOverflow
  split
  · rfl
  · rename_i key op next hact
    exact isSome_apply (hb front h.front key) (credits_eq_false (h front l rest rfl) hact)

set_option maxRecDepth 8000 in
theorem windows_balanced_created :
    Machine.Meets (Relay.step plainCrypto) (fun w l => noCredit w l = true)
        (Relay.new plainCrypto) creation ∧
      ((Machine.run (Relay.step plainCrypto) (Relay.new plainCrypto) creation).store 7).isSome ∧
      ∀ circuit, (Machine.run (Relay.step plainCrypto) (Relay.new plainCrypto) creation).store 7 =
        some circuit → circuit.Balanced := by
  have hm : Machine.Meets (Relay.step plainCrypto) (fun w l => noCredit w l = true)
      (Relay.new plainCrypto) creation := by decide
  exact ⟨hm, rfl, (windows_balanced plainCrypto hm).1 7⟩

set_option maxRecDepth 8000 in
/-- A SENDME for no cells raises the window of a new circuit. -/
theorem package_window_exceeds_start :
    ((Machine.run (Relay.step plainCrypto) (Relay.new plainCrypto)
      (creation ++ (1, .cell (buildRelayCell 7 0 sendmeCommand [])) ::
        List.replicate 4 (1, .handle quietAnswers))).store 7).map (·.window.package) =
      some (circuitWindowStart + circuitWindowIncrement) := by
  rfl

end NetGet.TorRelay
