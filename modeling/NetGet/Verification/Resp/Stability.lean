import NetGet.Library.Framing
import NetGet.Verification.Resp.Agreement

/-! # The verdict survives more input -/

namespace NetGet.Resp

open Library.Framing List Option

def Header.append (more : Bytes) : Header → Header
  | .short => .short
  | .bad => .bad
  | .leaf rest => .leaf (rest ++ more)
  | .bulk len rest => .bulk len (rest ++ more)
  | .array count rest => .array count (rest ++ more)

theorem lengthHeader_append {header : ℕ → Bytes → Header} (more line rest : Bytes)
    (hh : ∀ len rest, header len (rest ++ more) = (header len rest).append more) :
    lengthHeader header (some (line, rest ++ more)) =
      (lengthHeader header (some (line, rest))).append more := by
  simp only [lengthHeader]
  cases parseIsize line with
  | none => rfl
  | some len =>
    simp only
    split_ifs
    · rfl
    · rfl
    · exact hh _ _

variable {data buffer : Bytes} {limits : RespLimits} {verdict : RespScan}

theorem readHeader_append (more : Bytes) (h : readHeader data ≠ .short) :
    readHeader (data ++ more) = (readHeader data).append more := by
  cases data with
  | nil => exact absurd rfl h
  | cons kind data =>
    rw [cons_append]
    cases hs : splitLine data with
    | none =>
      simp only [readHeader, hs, lineHeader, integerHeader, lengthHeader] at h ⊢
      split_ifs at h ⊢ <;> simp_all [Header.append]
    | some found =>
      obtain ⟨line, rest⟩ := found
      simp only [readHeader, hs, (splitLine_spec hs).2 more]
      split_ifs
      · rfl
      · simp only [integerHeader]
        split_ifs <;> rfl
      · exact lengthHeader_append more line rest fun _ _ => rfl
      · exact lengthHeader_append more line rest fun _ _ => rfl
      · rfl

section Turns

variable {data : Bytes} {limits : RespLimits} {s : ScanState} {pass : Pass}

theorem headerPass_append {total : ℕ} {header : Header} (more : Bytes)
    (hr : ∀ rest, header.rest? = some rest → rest.length ≤ total)
    (h : headerPass limits total s header = some pass) (hp : pass ≠ .stop .incomplete) :
    headerPass limits (total + more.length) s (header.append more) = some pass := by
  have hm : ∀ rest, header.rest? = some rest →
      total + more.length - (rest ++ more).length = total - rest.length := by
    intro rest heq
    have hle := hr rest heq
    rw [length_append]
    omega
  cases header with
  | short => exact absurd (some.inj h).symm hp
  | bad => exact h
  | leaf rest => simpa only [headerPass, Header.append, hm rest rfl] using h
  | array count rest => simpa only [headerPass, Header.append, hm rest rfl] using h
  | bulk len rest =>
    simp only [headerPass, Header.append, hm rest rfl] at h ⊢
    by_cases hf : len + 2 ≤ rest.length
    · have hf' : len + 2 ≤ (rest ++ more).length := by
        rw [length_append]
        omega
      rw [if_pos hf] at h
      rwa [if_pos hf']
    · rw [if_neg hf] at h
      split_ifs at h ⊢
      · exact h
      all_goals first | exact h | exact absurd (some.inj h).symm hp

theorem scanValue_append (more : Bytes) (h : scanValue data limits s = some pass)
    (hp : pass ≠ .stop .incomplete) : scanValue (data ++ more) limits s = some pass := by
  by_cases hend : data.length ≤ s.i
  · rw [scanValue_end hend] at h
    exact absurd (some.inj h).symm hp
  have hi : s.i < data.length := Nat.lt_of_not_le hend
  have hi' : s.i < (data ++ more).length := by
    rw [length_append]
    omega
  rw [scanValue_eq hi] at h
  rw [scanValue_eq hi', drop_append_of_le_length hi.le, length_append]
  split_ifs at h ⊢
  · exact h
  have hs : readHeader (data.drop s.i) ≠ .short := by
    intro hs
    rw [hs] at h
    exact absurd (some.inj h).symm hp
  rw [readHeader_append more hs]
  refine headerPass_append more ?_ h hp
  intro rest hr
  have hlen := readHeader_length hr
  rw [length_drop] at hlen
  omega

end Turns

theorem scanLoop_append (more : Bytes) (hve : verdict ≠ .incomplete) :
    ∀ {fuel fuel' : ℕ} {s : ScanState}, fuel ≤ fuel' → scanLoop data limits fuel s = some verdict →
      scanLoop (data ++ more) limits fuel' s = some verdict := by
  intro fuel
  induction fuel with
  | zero => intro fuel' s _ h; simp [scanLoop] at h
  | succ fuel ih =>
    intro fuel' s hf h
    cases fuel' with
    | zero => omega
    | succ fuel' =>
      have hle : fuel ≤ fuel' := Nat.le_of_succ_le_succ hf
      rw [scanLoop] at h ⊢
      cases hv : scanValue data limits s with
      | none => simp [hv] at h
      | some pass =>
        rw [hv] at h
        cases pass with
        | stop stopped =>
          cases h
          rw [scanValue_append more hv (by simpa using hve)]
        | opened t =>
          rw [scanValue_append more hv (by simp)]
          exact ih hle h
        | finished t =>
          rw [scanValue_append more hv (by simp)]
          simp only at h ⊢
          split at h
          · simp at h
          · exact h
          · exact ih hle h

theorem scanResp2Frame_append (more : Bytes) (h : scanResp2Frame data limits = some verdict)
    (hv : verdict ≠ .incomplete) : scanResp2Frame (data ++ more) limits = some verdict := by
  refine scanLoop_append more hv ?_ h
  rw [length_append]
  omega

theorem scanResp2Frame_consumed {consumed : ℕ}
    (h : scanResp2Frame data limits = some (.complete consumed)) :
    0 < consumed ∧ consumed ≤ data.length := by
  obtain ⟨verdict, hs, hv⟩ := scanResp2Frame_spec data limits
  rw [hs] at h
  obtain ⟨rest, hle, hl⟩ := (hv consumed).1 (some.inj h)
  obtain ⟨shape, hva, -⟩ := left_new.1 hle
  have hlt := hva.length_lt
  omega

/-- The verdict a reader acts on: it waits while the frame is incomplete, and closes on
any other verdict but a frame. -/
def frameVerdict (limits : RespLimits) (buffer : Bytes) : Verdict RespScan :=
  match scanResp2Frame buffer limits with
  | none => .more
  | some (.complete consumed) => .frame consumed
  | some verdict => if verdict = .incomplete then .more else .refuse verdict

theorem frameVerdict_frame {length : ℕ} : frameVerdict limits buffer = .frame length ↔
      scanResp2Frame buffer limits = some (.complete length) := by
  unfold frameVerdict
  cases scanResp2Frame buffer limits with
  | none => simp
  | some found => cases found <;> simp

theorem frameVerdict_refuse : frameVerdict limits buffer = .refuse verdict ↔
      scanResp2Frame buffer limits = some verdict ∧ verdict ≠ .incomplete ∧
        ∀ consumed, verdict ≠ .complete consumed := by
  unfold frameVerdict
  cases scanResp2Frame buffer limits with
  | none => simp
  | some found => cases found <;> cases verdict <;> simp

theorem stable_frameVerdict (limits : RespLimits) : Stable (frameVerdict limits) where
  nil := rfl
  frame := by
    intro buffer length more h
    rw [frameVerdict_frame] at h ⊢
    exact scanResp2Frame_append more h (by simp)
  refuse := by
    intro buffer verdict more h
    rw [frameVerdict_refuse] at h ⊢
    exact ⟨scanResp2Frame_append more h.1 h.2.1, h.2⟩
  pos := fun h => (scanResp2Frame_consumed (frameVerdict_frame.1 h)).1
  le := fun h => (scanResp2Frame_consumed (frameVerdict_frame.1 h)).2

/-- A verdict other than `incomplete` survives more input, a frame is incomplete before its
last byte, and a reader delivers the same frames however the stream is cut. -/
theorem scanResp2Frame_stable (limits : RespLimits) :
    (∀ data more verdict, scanResp2Frame data limits = some verdict → verdict ≠ .incomplete →
      scanResp2Frame (data ++ more) limits = some verdict) ∧ (∀ front more, more ≠ [] →
      scanResp2Frame (front ++ more) limits = some (.complete (front ++ more).length) →
      scanResp2Frame front limits = some .incomplete) ∧
    (∀ chunks, readAll (frameVerdict limits) .new chunks =
      read (frameVerdict limits) .new chunks.flatten) := by
  refine ⟨?_, ?_, ?_⟩
  · intro data more verdict h hv
    exact scanResp2Frame_append more h hv
  · intro front more hm h
    obtain ⟨verdict, hs, -⟩ := scanResp2Frame_spec front limits
    by_contra hne
    have hv : verdict ≠ .incomplete := by
      rintro rfl
      exact hne hs
    have hsa := scanResp2Frame_append more hs hv
    rw [h] at hsa
    cases hsa
    have hle := (scanResp2Frame_consumed hs).2
    have hpos := length_pos_iff.2 hm
    rw [length_append] at hle
    omega
  · intro chunks
    exact readAll_eq (stable_frameVerdict limits) chunks

end NetGet.Resp
