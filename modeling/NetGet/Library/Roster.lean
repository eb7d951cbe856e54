import Mathlib.Data.List.Nodup

/-! # Waiting lines

Visitors arrive in some order and some of them still hold a ticket. The line is the
list of the tickets still held, in arrival order. Below is what each change of one
visitor's ticket does to the line. -/

namespace NetGet.Library.Roster

open List Function

variable {α β : Type*} {arrivals : List α} {held : α → Option β} {a : α} {b : β}

/-- The tickets still held, in arrival order. -/
def tickets (held : α → Option β) (arrivals : List α) : List β := arrivals.filterMap held

/-- The visitors who still hold a ticket, in arrival order. -/
def waiting (held : α → Option β) (arrivals : List α) : List α :=
  arrivals.filter fun a => (held a).isSome

theorem mem_tickets_of_held (ha : a ∈ arrivals) (hb : held a = some b) :
    b ∈ tickets held arrivals :=
  mem_filterMap.2 ⟨a, ha, hb⟩

variable [DecidableEq α]

theorem tickets_arrive (ha : a ∉ arrivals) (v : Option β) :
    tickets (update held a v) (arrivals ++ [a]) = tickets held arrivals ++ v.toList := by
  have hne : ∀ x ∈ arrivals, update held a v x = held x :=
    fun x hx => update_of_ne (fun h : x = a => ha (h ▸ hx)) _ _
  rw [tickets, filterMap_append, filterMap_congr hne]
  cases v <;> simp [tickets]

theorem waiting_arrive (ha : a ∉ arrivals) (v : Option β) :
    waiting (update held a v) (arrivals ++ [a]) =
      waiting held arrivals ++ if v.isSome then [a] else [] := by
  have hne : ∀ x ∈ arrivals, (update held a v x).isSome = (held x).isSome := by
    intro x hx
    rw [update_of_ne fun h : x = a => ha (h ▸ hx)]
  rw [waiting, filter_append, filter_congr hne]
  cases v <;> simp [waiting]

/-- Whoever gives a ticket back leaves the line. -/
theorem waiting_leave (held : α → Option β) (arrivals : List α) (a : α) :
    waiting (update held a none) arrivals =
      (waiting held arrivals).filter fun x => decide (x ≠ a) := by
  rw [waiting, waiting, filter_filter]
  apply filter_congr
  intro x _
  by_cases h : x = a <;> simp [h]

/-- Distinct tickets have distinct holders. -/
theorem holder_unique {x : α} (hn : (tickets held arrivals).Nodup) (ha : a ∈ arrivals)
    (hx : x ∈ arrivals) (hb : held a = some b) (hxb : held x = some b) : x = a := by
  by_contra hne
  induction arrivals with
  | nil => simp at ha
  | cons y arrivals ih =>
    cases hy : held y with
    | none =>
      have hya : y ≠ a := by
        rintro rfl
        simp [hy] at hb
      have hyx : y ≠ x := by
        rintro rfl
        simp [hy] at hxb
      simp only [tickets, filterMap_cons, hy] at hn
      exact ih hn ((mem_cons.1 ha).resolve_left hya.symm) ((mem_cons.1 hx).resolve_left hyx.symm)
    | some c =>
      simp only [tickets, filterMap_cons, hy, nodup_cons] at hn
      rcases mem_cons.1 ha with hay | hmem
      · subst hay
        obtain rfl : c = b := by simpa [hy] using hb
        exact hn.1 (mem_tickets_of_held ((mem_cons.1 hx).resolve_left hne) hxb)
      rcases mem_cons.1 hx with hxy | hxm
      · subst hxy
        obtain rfl : c = b := by simpa [hy] using hxb
        exact hn.1 (mem_tickets_of_held hmem hb)
      · exact ih hn.2 hmem hxm

/-- Serving the holder of the first ticket serves the first visitor in the line. -/
theorem waiting_serve {rest : List β} (hn : (tickets held arrivals).Nodup)
    (har : arrivals.Nodup) (ha : a ∈ arrivals) (hb : held a = some b)
    (hl : tickets held arrivals = b :: rest) :
    waiting held arrivals = a :: waiting (update held a none) arrivals := by
  have hl' : (waiting held arrivals).filterMap held = b :: rest := by
    rw [waiting, filterMap_filter, ← hl, tickets]
    apply filterMap_congr
    intro x _
    cases held x <;> simp
  cases hwa : waiting held arrivals with
  | nil => simp [hwa] at hl'
  | cons x xs =>
    have hx : x ∈ arrivals ∧ (held x).isSome := by
      have hmem : x ∈ waiting held arrivals := by simp [hwa]
      exact mem_filter.1 hmem
    obtain ⟨c, hc⟩ := Option.isSome_iff_exists.1 hx.2
    obtain rfl : c = b := by
      simp only [hwa, filterMap_cons, hc, cons.injEq] at hl'
      exact hl'.1
    obtain rfl := holder_unique hn ha hx.1 hb hc
    have hxs : x ∉ xs := by
      have hw : (waiting held arrivals).Nodup := har.filter _
      rw [hwa, nodup_cons] at hw
      exact hw.1
    rw [waiting_leave, hwa, filter_cons_of_neg (by simp)]
    congr 1
    apply (filter_eq_self.2 _).symm
    intro y hy
    have hyx : y ≠ x := fun h => hxs (h ▸ hy)
    simpa using hyx

variable [DecidableEq β]

/-- Giving a ticket back removes exactly that ticket from the line. -/
theorem tickets_leave (hn : (tickets held arrivals).Nodup) (ha : a ∈ arrivals)
    (hb : held a = some b) : tickets (update held a none) arrivals =
      (tickets held arrivals).filter fun c => decide (c ≠ b) := by
  rw [tickets, tickets, filter_filterMap]
  apply filterMap_congr
  intro x hx
  by_cases hxa : x = a
  · subst hxa
    simp [hb, Option.filter]
  rw [update_of_ne hxa]
  cases hc : held x with
  | none => rfl
  | some c =>
    have hcb : c ≠ b := by
      rintro rfl
      exact hxa (holder_unique hn ha hx hb hc)
    simp [Option.filter, hcb]

end NetGet.Library.Roster
