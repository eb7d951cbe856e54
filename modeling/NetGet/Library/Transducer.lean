import NetGet.Library.Fallible

/-! # Machines that read symbols one at a time and emit now and then

What such a machine emits on a stream does not depend on how the stream is cut, nor on whether its
driver stops at every output. -/

namespace NetGet.Library.Transducer

variable {σ α β ε : Type} (step : σ → α → Except ε (σ × Option β))

/-- All outputs on the symbols of a list. -/
def scan : σ → List α → Except ε (σ × List β)
  | s, [] => .ok (s, [])
  | s, a :: rest => do
    let (s, output) ← step s a
    let (s, outputs) ← scan s rest
    return (s, output.toList ++ outputs)

/-- Read up to the first output: the state, the symbols left and the output. -/
def next : σ → List α → Except ε (σ × List α × Option β)
  | s, [] => .ok (s, [], none)
  | s, a :: rest => do
    let (s, output) ← step s a
    match output with
    | some b => return (s, rest, some b)
    | none => next s rest

/-- Read until no symbol is left, stopping at every output. -/
def drain : ℕ → σ → List α → Except ε (σ × List β)
  | 0, s, _ => .ok (s, [])
  | rounds + 1, s, symbols => do
    let (s, rest, output) ← next step s symbols
    match output with
    | some b => do
      let (s, outputs) ← drain rounds s rest
      return (s, b :: outputs)
    | none => return (s, [])

variable {step} {s s' : σ} {symbols rest : List α}

@[simp] theorem scan_nil (s : σ) : scan step s [] = .ok (s, []) := rfl

theorem scan_cons_ok {a : α} {output : Option β} (h : step s a = .ok (s', output)) (rest : List α) :
    scan step s (a :: rest) = (scan step s' rest).map fun r => (r.1, output.toList ++ r.2) := by
  simp only [scan, h, ok_bind]
  cases scan step s' rest <;> rfl

theorem scan_cons_error {a : α} {e : ε} (h : step s a = .error e) (rest : List α) :
    scan step s (a :: rest) = .error e := by
  rw [scan, h]
  rfl

/-- A stream may be cut anywhere. -/
theorem scan_append (s : σ) (front back : List α) : scan step s (front ++ back) =
      scan step s front >>= fun r => (scan step r.1 back).map fun q => (q.1, r.2 ++ q.2) := by
  induction front generalizing s with
  | nil =>
    rw [List.nil_append, scan_nil, ok_bind]
    cases scan step s back <;> rfl
  | cons a front ih =>
    rw [List.cons_append]
    cases hs : step s a with
    | error e =>
      rw [scan_cons_error hs, scan_cons_error hs]
      rfl
    | ok r =>
      rw [scan_cons_ok hs, scan_cons_ok hs, ih]
      cases hf : scan step r.1 front with
      | error e => rfl
      | ok q =>
        simp only [ok_bind, Except.map]
        cases scan step q.1 back <;> simp

theorem scan_append_ok {front : List α} {outputs : List β}
    (h : scan step s front = .ok (s', outputs)) (back : List α) :
    scan step s (front ++ back) = (scan step s' back).map fun q => (q.1, outputs ++ q.2) := by
  rw [scan_append, h]
  rfl

theorem length_next {b : β} (h : next step s symbols = .ok (s', rest, some b)) :
    rest.length < symbols.length := by
  induction symbols generalizing s with
  | nil => cases h
  | cons a symbols ih =>
    rw [next, bind_eq_ok] at h
    obtain ⟨⟨s₁, output⟩, hs, h⟩ := h
    cases output with
    | some c =>
      cases h
      exact Nat.lt_succ_self _
    | none => exact Nat.lt_succ_of_lt (ih h)

theorem next_rest_of_none (h : next step s symbols = .ok (s', rest, none)) : rest = [] := by
  induction symbols generalizing s with
  | nil =>
    cases h
    rfl
  | cons a symbols ih =>
    rw [next, bind_eq_ok] at h
    obtain ⟨⟨s₁, output⟩, -, h⟩ := h
    cases output with
    | some c => cases h
    | none => exact ih h

theorem scan_eq_next (s : σ) (symbols : List α) :
    scan step s symbols = next step s symbols >>= fun r =>
      match r.2.2 with
      | some b => (scan step r.1 r.2.1).map fun q => (q.1, b :: q.2)
      | none => .ok (r.1, []) := by
  induction symbols generalizing s with
  | nil => rfl
  | cons a symbols ih =>
    cases hs : step s a with
    | error e =>
      rw [scan_cons_error hs, next, hs]
      rfl
    | ok r =>
      obtain ⟨s', output⟩ := r
      rw [scan_cons_ok hs]
      simp only [next, hs, ok_bind]
      cases output with
      | some b => rfl
      | none =>
        simp only [ih]
        cases next step s' symbols with
        | error e => rfl
        | ok r =>
          simp only [ok_bind]
          split
          · cases scan step r.1 r.2.1 <;> rfl
          · rfl

theorem drain_eq_scan {rounds : ℕ} (s : σ) (h : symbols.length < rounds) :
    drain step rounds s symbols = scan step s symbols := by
  induction rounds generalizing s symbols with
  | zero => exact absurd h (Nat.not_lt_zero _)
  | succ rounds ih =>
    rw [drain, scan_eq_next]
    cases hn : next step s symbols with
    | error e => rfl
    | ok r =>
      obtain ⟨s', rest, output⟩ := r
      cases output with
      | none => rfl
      | some b =>
        have hl := length_next hn
        simp only [ok_bind]
        rw [ih s' (by omega)]
        cases scan step s' rest <;> rfl

end NetGet.Library.Transducer
