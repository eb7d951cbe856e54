import NetGet.Model.TorRelay

/-! # What a method of the circuit manager does to a circuit -/

namespace NetGet.TorRelay

open Library Option

variable {χ : Type} {cipher : CircuitCrypto χ} {op : Op} {entry entry' : Option (Circuit χ)}

theorem window_setWindow {s : Stream} {w w' v : Window} (hs : s.window = some w)
    (h : (s.setWindow w').window = some v) : v = w' := by
  obtain ⟨target, state⟩ := s
  cases state with
  | connecting => cases hs
  | active | directory =>
    cases h
    rfl

/-- How a window can change; only a SENDME adds credit. -/
inductive Moves (increment : ℕ) (sendme : Prop) (w w' : Window) : Prop where
  | same (h : w' = w)
  | counted (due : Bool) (h : w.recordReceived increment = some (w', due))
  | credited (hsendme : sendme) (h : w.processSendme increment = some w')

/-- What a method does to a circuit that stays. -/
structure Changes (op : Op) (c c' : Circuit χ) : Prop where
  creator : c'.creator = c.creator
  window : Moves circuitWindowIncrement (op = .processCircuitSendme) c.window c'.window
  streams : ∀ id stream' w', c'.streams.lookup id = some stream' → stream'.window = some w' →
    w' = .start streamWindowStart ∨ ∃ stream w, c.streams.lookup id = some stream ∧
      stream.window = some w ∧
      Moves streamWindowIncrement (op = .processStreamSendme id) w w'

theorem changes_of_eq {c c' : Circuit χ} (hc : c'.creator = c.creator)
    (hw : c'.window = c.window) (hs : c'.streams = c.streams) : Changes op c c' where
  creator := hc
  window := .same hw
  streams id stream' w' hl hw' := by
    rw [hs] at hl
    exact .inr ⟨stream', w', hl, hw', .same rfl⟩

theorem changes_self (op : Op) (c : Circuit χ) : Changes op c c := changes_of_eq rfl rfl rfl

theorem changes_insert {c : Circuit χ} {id : StreamId} {stream' : Stream}
    (h : ∀ w', stream'.window = some w' →
      w' = .start streamWindowStart ∨ ∃ stream w, c.streams.lookup id = some stream ∧
        stream.window = some w ∧
        Moves streamWindowIncrement (op = .processStreamSendme id) w w') :
    Changes op c { c with streams := c.streams.insert id stream' } where
  creator := rfl
  window := .same rfl
  streams id' stream'' w' hl hw' := by
    revert hw'
    revert id' stream''
    exact AList.forall_insert (fun _ stream hl hw => .inr ⟨stream, w', hl, hw, .same rfl⟩) (h w')

section Streams

variable (op : Op) (c : Circuit χ) (id : StreamId)

theorem changes_createStream (target : String) : Changes op c (c.createStream id target).1 := by
  unfold Circuit.createStream
  split
  · exact changes_self _ c
  split
  · exact changes_self _ c
  · exact changes_insert fun w' hw' => nomatch hw'

theorem changes_modifyStream {f : Stream → Stream}
    (hf : ∀ s w', (f s).window = some w' → w' = .start streamWindowStart ∨ s.window = some w') :
    Changes op c (c.modifyStream id f).1 := by
  unfold Circuit.modifyStream
  split
  · exact changes_self _ c
  rename_i stream hl
  refine changes_insert fun w' hw' => ?_
  rcases hf stream w' hw' with hs | hw
  · exact .inl hs
  · exact .inr ⟨stream, w', hl, hw, .same rfl⟩

theorem changes_createDirectoryStream : Changes op c (c.createDirectoryStream id).1 := by
  have hc := changes_createStream op c id "directory"
  unfold Circuit.createDirectoryStream
  split
  · rename_i c₁ e heq
    rw [heq] at hc
    exact hc
  rename_i c₁ heq
  rw [heq] at hc
  unfold Circuit.modifyStream
  split
  · exact hc
  refine ⟨hc.creator, hc.window, fun id' stream' w' hl hw' => ?_⟩
  simp only [AList.lookup_insert_ite] at hl
  split at hl
  · cases hl
    cases hw'
    exact .inl rfl
  · exact hc.streams id' stream' w' hl hw'

theorem changes_recordStreamDataReceived {r : Circuit χ × Bool}
    (h : c.recordStreamDataReceived id = some r) : Changes op c r.1 := by
  unfold Circuit.recordStreamDataReceived at h
  split at h
  · cases h
    exact changes_of_eq rfl rfl rfl
  rename_i stream hl
  obtain ⟨⟨stream', due⟩, hs, rfl⟩ := map_eq_some_iff.1 h
  refine changes_insert fun w' hw' => .inr ?_
  unfold Stream.recordDataReceived at hs
  split at hs
  · rename_i w hw
    obtain ⟨⟨w₁, due₁⟩, hc, heq⟩ := map_eq_some_iff.1 hs
    cases heq
    cases window_setWindow hw hw'
    exact ⟨stream, w, hl, hw, .counted _ hc⟩
  · cases hs
    exact ⟨stream, w', hl, hw', .same rfl⟩

theorem changes_processStreamSendme {c' : Circuit χ} (h : c.processStreamSendme id = some c') :
    Changes (.processStreamSendme id) c c' := by
  unfold Circuit.processStreamSendme at h
  split at h
  · cases h
    exact changes_of_eq rfl rfl rfl
  rename_i stream hl
  obtain ⟨stream', hs, rfl⟩ := map_eq_some_iff.1 h
  refine changes_insert fun w' hw' => .inr ?_
  unfold Stream.processSendme at hs
  split at hs
  · rename_i w hw
    obtain ⟨w₁, hc, rfl⟩ := map_eq_some_iff.1 hs
    cases window_setWindow hw hw'
    exact ⟨stream, w, hl, hw, .credited rfl hc⟩
  · cases hs
    exact ⟨stream, w', hl, hw', .same rfl⟩

end Streams

theorem changes_withCircuit {α : Type} {f : Circuit χ → Option (Circuit χ × Except RelayError α)}
    (hf : ∀ c r, f c = some r → Changes op c r.1)
    {r : Except RelayError α} (h : withCircuit f entry = some (entry', r)) :
    entry' = none ∨ ∃ c c', entry = some c ∧ entry' = some c' ∧ Changes op c c' := by
  cases entry with
  | none =>
    cases h
    exact .inl rfl
  | some c =>
    obtain ⟨⟨c', r'⟩, hs, heq⟩ := map_eq_some_iff.1 h
    cases heq
    exact .inr ⟨c, c', rfl, rfl, hf c _ hs⟩

theorem apply_cases {r : Except RelayError op.Value} (h : op.apply cipher entry = some (entry', r)) :
    (∃ creator keys, op = .create creator keys ∧ entry' = some (.new cipher creator keys)) ∨
      entry' = none ∨ ∃ c c', entry = some c ∧ entry' = some c' ∧ Changes op c c' := by
  cases op
  case create creator keys =>
    cases h
    exact .inl ⟨creator, keys, rfl, rfl⟩
  case destroy =>
    cases h
    exact .inr (.inl rfl)
  case recordSent | recordReceived =>
    cases h
    cases entry with
    | none => exact .inr (.inl rfl)
    | some c => exact .inr (.inr ⟨c, _, rfl, rfl, changes_of_eq rfl rfl rfl⟩)
  -- the others work on a circuit of the table
  all_goals refine .inr (changes_withCircuit (fun c r hr => ?_) h)
  case recordRelayReceived =>
    obtain ⟨⟨w, due⟩, hco, rfl⟩ := map_eq_some_iff.1 hr
    exact ⟨rfl, .counted due hco, (changes_self _ c).streams⟩
  case processCircuitSendme =>
    obtain ⟨w, hc, rfl⟩ := map_eq_some_iff.1 hr
    exact ⟨rfl, .credited rfl hc, (changes_self _ c).streams⟩
  case recordStreamDataReceived =>
    obtain ⟨r', hs, rfl⟩ := map_eq_some_iff.1 hr
    exact changes_recordStreamDataReceived _ c _ hs
  case processStreamSendme =>
    obtain ⟨c', hs, rfl⟩ := map_eq_some_iff.1 hr
    exact changes_processStreamSendme c _ hs
  all_goals cases hr
  case decrypt | encrypt => exact changes_of_eq rfl rfl rfl
  case createStream id target => exact changes_createStream _ c id target
  case createDirectoryStream id => exact changes_createDirectoryStream _ c id
  case setStreamActive id connection =>
    refine changes_modifyStream _ c id fun s w' hw' => .inl ?_
    cases hw'
    rfl
  case appendDirectoryData id data =>
    refine changes_modifyStream _ c id fun s w' hw' => .inr ?_
    obtain ⟨target, state⟩ := s
    cases state <;> exact hw'
  case closeStream id =>
    exact ⟨rfl, .same rfl, fun _ stream' w' hl hw' =>
      .inr ⟨stream', w', AList.lookup_of_erase hl, hw', .same rfl⟩⟩
  all_goals
    unfold Circuit.readStream
    split <;> exact changes_self _ c

end NetGet.TorRelay
