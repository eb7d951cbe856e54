import NetGet.Verification.PubSub.Subscriptions

/-! # What is queued on the outboxes -/

namespace NetGet.PubSub

open Library ByteOrder ReverseIndex List Option Function

variable {encode : Resp → ℕ → Bytes} {globMatch : Bytes → Bytes → Bool}

def OutFrame.size (f : OutFrame) : ℕ := if f.counted then f.bytes.length else 0

namespace Outbox

variable {o o' : Outbox} {limit : ℕ} {frames : List OutFrame} {names names' : Kind → Finset Bytes}
  {confirmedAt : Kind → Bytes → ℕ} {f : OutFrame}

def Closed (o : Outbox) : Prop := o.killed = true ∨ o.stopped = true

instance (o : Outbox) : Decidable o.Closed := inferInstanceAs (Decidable (_ ∨ _))

theorem deliver_cases (o : Outbox) (bytes : Bytes) (about : About) :
    (¬o.Closed ∧ o.queued + bytes.length ≤ o.limit ∧ o.deliver bytes about =
      ({ o.send { bytes, counted := true, about } with queued := o.queued + bytes.length },
        .queued)) ∨
    ((o.Closed ∨ o.limit < o.queued + bytes.length) ∧ ∃ killed delivery,
      o.deliver bytes about = ({ o with killed }, delivery) ∧ delivery ≠ .queued ∧
      ({ o with killed } : Outbox).Closed) := by
  unfold deliver
  split
  · rename_i hk
    exact .inr ⟨.inl (.inl hk), o.killed, .gone, rfl, nofun, .inl hk⟩
  split
  · rename_i hf
    exact .inr ⟨.inr hf, true, .overflow, rfl, nofun, .inl rfl⟩
  split
  · rename_i hs
    exact .inr ⟨.inl (.inr hs), o.killed, .gone, rfl, nofun, .inr hs⟩
  · rename_i hk hfi hs
    exact .inl ⟨not_or.2 ⟨hk, hs⟩, not_lt.1 hfi, rfl⟩

def load (o : Outbox) : ℕ :=
  (o.channel.map OutFrame.size).sum + (o.writing.map OutFrame.size).getD 0

structure Within (limit : ℕ) (o : Outbox) : Prop where
  limit_eq : o.limit = limit
  load_le : o.load ≤ o.queued
  queued_le : o.queued ≤ limit

theorem load_send (o : Outbox) (f : OutFrame) : (o.send f).load = o.load + f.size := by
  simp only [load, send, map_append, sum_append, map_cons, map_nil, sum_cons, sum_nil]
  omega

section

variable (ho : o.Within limit)

include ho

theorem Within.queueReply (bytes : Bytes) (about : About) :
    (o.queueReply bytes about).Within limit := by
  unfold Outbox.queueReply
  split
  · exact ho
  · refine ⟨ho.limit_eq, ?_, ho.queued_le⟩
    rw [load_send]
    exact ho.load_le

theorem Within.deliver (bytes : Bytes) (about : About) :
    (o.deliver bytes about).1.Within limit := by
  obtain ⟨-, hf, heq⟩ | ⟨-, killed, delivery, heq, -⟩ := deliver_cases o bytes about
  · rw [heq]
    refine ⟨ho.limit_eq, ?_, ho.limit_eq ▸ hf⟩
    exact (load_send o _).trans_le (Nat.add_le_add_right ho.load_le _)
  · rw [heq]
    exact ⟨ho.limit_eq, ho.load_le, ho.queued_le⟩

theorem Within.take : o.take.Within limit := by
  unfold Outbox.take
  split
  · rename_i f channel hs hw hc
    refine ⟨ho.limit_eq, ?_, ho.queued_le⟩
    have hl := ho.load_le
    simp only [load, hw, hc, map_cons, sum_cons, map_none, getD_none, map_some, getD_some] at hl ⊢
    omega
  · exact ho

theorem Within.stop : o.stop.Within limit :=
  ⟨ho.limit_eq, Nat.zero_le _, ho.queued_le⟩

theorem Within.written (success : Bool) : (o.written success).Within limit := by
  have hl := ho.load_le
  have hq := ho.queued_le
  unfold Outbox.written
  split
  · exact ho
  rename_i f hw
  simp only [load, hw, map_some, getD_some, OutFrame.size] at hl
  have hr : (o.channel.map OutFrame.size).sum ≤
        (if f.counted then o.queued - f.bytes.length else o.queued) ∧
      (if f.counted then o.queued - f.bytes.length else o.queued) ≤ limit := by
    split <;> rename_i hc <;> simp only [hc] at hl <;> grind
  simp only
  split
  · exact ⟨ho.limit_eq, hr.1, hr.2⟩
  · exact ⟨ho.limit_eq, Nat.zero_le _, hr.2⟩

end

/-- A subscription has been confirmed, and a message was queued after the confirmation of the
subscription it is for. -/
structure Ordered (o : Outbox) (names : Kind → Finset Bytes) (confirmedAt : Kind → Bytes → ℕ) :
    Prop where
  confirmed : ∀ kind name, name ∈ names kind → o.stopped = true ∨
    ∃ f, o.history[confirmedAt kind name]? = some f ∧ f.about = .confirmed kind name
  messages : ∀ (i : ℕ) (f : OutFrame) kind name since,
    o.history[i]? = some f → f.about = .message kind name since →
    since < i ∧ ∃ g, o.history[since]? = some g ∧ g.about = .confirmed kind name

theorem Ordered.mono (ho : o.Ordered names confirmedAt) (hn : ∀ kind, names' kind ⊆ names kind) :
    o.Ordered names' confirmedAt :=
  ⟨fun kind name hna => ho.confirmed kind name (hn kind hna), ho.messages⟩

theorem getElem?_append_some {α : Type*} {l : List α} {i : ℕ} {x : α} (h : l[i]? = some x)
    (rest : List α) : (l ++ rest)[i]? = some x := by
  obtain ⟨hi, -⟩ := List.getElem?_eq_some_iff.1 h
  rw [getElem?_append_left hi, h]

/-- New frames keep the order when those that are messages come after their confirmation. -/
theorem Ordered.append (ho : o.Ordered names confirmedAt)
    (hs : o.stopped = true → o'.stopped = true) (hh : o'.history = o.history ++ frames)
    (hm : ∀ f ∈ frames, ∀ kind name since, f.about = .message kind name since →
      ∃ g, o.history[since]? = some g ∧ g.about = .confirmed kind name) :
    o'.Ordered names confirmedAt := by
  refine ⟨fun kind name hn => ?_, fun i f kind name since hf ha => ?_⟩
  · refine (ho.confirmed kind name hn).imp hs fun ⟨f, hf, ha⟩ => ⟨f, ?_, ha⟩
    rw [hh]
    exact getElem?_append_some hf frames
  rw [hh] at hf ⊢
  by_cases hi : i < o.history.length
  · rw [getElem?_append_left hi] at hf
    obtain ⟨hlt, g, hg, hc⟩ := ho.messages i f kind name since hf ha
    exact ⟨hlt, g, getElem?_append_some hg frames, hc⟩
  rw [getElem?_append_right (not_lt.1 hi)] at hf
  obtain ⟨g, hg, hc⟩ := hm f (mem_of_getElem? hf) kind name since ha
  obtain ⟨hsi, -⟩ := List.getElem?_eq_some_iff.1 hg
  exact ⟨hsi.trans_le (not_lt.1 hi), g, getElem?_append_some hg frames, hc⟩

theorem Ordered.same (ho : o.Ordered names confirmedAt)
    (hs : o.stopped = true → o'.stopped = true) (hh : o'.history = o.history) :
    o'.Ordered names confirmedAt :=
  ho.append hs (hh.trans (append_nil _).symm) (fun _ hf => nomatch hf)

theorem history_queueReply (o : Outbox) (bytes : Bytes) (about : About) :
    (o.queueReply bytes about).stopped = o.stopped ∧ (o.queueReply bytes about).history =
      o.history ++ if o.stopped then [] else [{ bytes, counted := false, about }] := by
  unfold queueReply
  split
  · exact ⟨rfl, (append_nil _).symm⟩
  · exact ⟨rfl, rfl⟩

section

variable (ho : o.Ordered names confirmedAt)

include ho

theorem Ordered.queueReply (bytes : Bytes) {about : About}
    (ha : ∀ kind name since, about ≠ .message kind name since) :
    (o.queueReply bytes about).Ordered names confirmedAt := by
  obtain ⟨hs, hh⟩ := history_queueReply o bytes about
  refine ho.append (fun h => hs.trans h) hh fun f hf kind name since heq => ?_
  split at hf
  · cases hf
  · rw [List.mem_singleton.1 hf] at heq
    exact absurd heq (ha kind name since)

theorem Ordered.take : o.take.Ordered names confirmedAt := by
  unfold Outbox.take
  split
  · exact ho.same id rfl
  · exact ho

theorem Ordered.written (success : Bool) : (o.written success).Ordered names confirmedAt := by
  unfold Outbox.written
  split
  · exact ho
  simp only
  split
  · exact ho.same id rfl
  · exact ho.same (fun _ => rfl) rfl

theorem Ordered.subscribe {kind : Kind} {name : Bytes}
    (bytes : Bytes) (hn : ∀ kind' name', name' ∈ names' kind' →
      kind' = kind ∧ name' = name ∨ name' ∈ names kind') :
    (o.queueReply bytes (.confirmed kind name)).Ordered names' (update confirmedAt kind
      (update (confirmedAt kind) name o.history.length)) := by
  have hne : (o.queueReply bytes (.confirmed kind name)).Ordered names confirmedAt :=
    ho.queueReply bytes nofun
  obtain ⟨hs, hh⟩ := history_queueReply o bytes (.confirmed kind name)
  refine ⟨fun kind' name' hn' => ?_, hne.messages⟩
  by_cases hnew : kind' = kind ∧ name' = name
  · obtain ⟨rfl, rfl⟩ := hnew
    by_cases hst : o.stopped = true
    · exact .inl (hs.trans hst)
    · refine .inr ⟨{ bytes, counted := false, about := .confirmed kind' name' }, ?_, rfl⟩
      rw [update_self, update_self, hh, if_neg hst, getElem?_concat_length]
  have hat : update confirmedAt kind
      (update (confirmedAt kind) name o.history.length) kind' name' =
        confirmedAt kind' name' := by
    rw [update_apply]
    split_ifs with hk
    · rw [update_of_ne fun hna => hnew ⟨hk, hna⟩, hk]
    · rfl
  rw [hat]
  exact hne.confirmed kind' name' ((hn kind' name' hn').resolve_left hnew)

end

def deliverAll (o : Outbox) (frames : List OutFrame) : Outbox :=
  frames.foldl (fun o f => (o.deliver f.bytes f.about).1) o

theorem deliverAll_cons (o : Outbox) (f : OutFrame) (frames : List OutFrame) :
    o.deliverAll (f :: frames) = (o.deliver f.bytes f.about).1.deliverAll frames := rfl

theorem deliverAll_concat (o : Outbox) (frames : List OutFrame) (f : OutFrame) :
    o.deliverAll (frames ++ [f]) = ((o.deliverAll frames).deliver f.bytes f.about).1 :=
  foldl_concat ..

/-- The frames, up to the first that does not fit. -/
def fitting (limit : ℕ) : ℕ → List OutFrame → List OutFrame
  | _, [] => []
  | queued, f :: frames =>
    if queued + f.bytes.length ≤ limit then f :: fitting limit (queued + f.bytes.length) frames
    else []

def accepts (o : Outbox) (frames : List OutFrame) : List OutFrame :=
  if o.Closed then [] else fitting o.limit o.queued frames

@[simp] theorem accepts_nil (o : Outbox) : o.accepts [] = [] := by
  unfold accepts
  split <;> rfl

theorem Within.deliverAll (frames : List OutFrame) (ho : o.Within limit) :
    (o.deliverAll frames).Within limit := by
  induction frames generalizing o with
  | nil => exact ho
  | cons f frames ih => exact ih (ho.deliver f.bytes f.about)

theorem stopped_deliverAll (frames : List OutFrame) (o : Outbox) :
    (o.deliverAll frames).stopped = o.stopped := by
  induction frames generalizing o with
  | nil => rfl
  | cons f frames ih =>
    rw [deliverAll_cons, ih]
    obtain ⟨-, -, heq⟩ | ⟨-, killed, delivery, heq, -⟩ := deliver_cases o f.bytes f.about
    · rw [heq]
      rfl
    · rw [heq]

theorem mem_fitting (frames : List OutFrame) {queued : ℕ}
    (hf : f ∈ fitting limit queued frames) : f ∈ frames := by
  induction frames generalizing queued with
  | nil => exact hf
  | cons g frames ih =>
    rw [fitting] at hf
    split at hf
    · obtain rfl | hf := List.mem_cons.1 hf
      · exact mem_cons_self
      · exact mem_cons_of_mem g (ih hf)
    · cases hf

theorem mem_accepts (hf : f ∈ o.accepts frames) : f ∈ frames ∧ ¬o.Closed := by
  unfold accepts at hf
  split_ifs at hf with hc
  · cases hf
  · exact ⟨mem_fitting frames hf, hc⟩

theorem length_fitting_le (limit : ℕ) (frames : List OutFrame) (queued : ℕ) :
    (fitting limit queued frames).length ≤ frames.length := by
  induction frames generalizing queued with
  | nil => exact le_rfl
  | cons f frames ih =>
    rw [fitting]
    split
    · exact Nat.succ_le_succ (ih _)
    · exact Nat.zero_le _

theorem length_accepts_le (o : Outbox) (frames : List OutFrame) :
    (o.accepts frames).length ≤ frames.length := by
  unfold accepts
  split
  · exact Nat.zero_le _
  · exact length_fitting_le o.limit frames o.queued

theorem history_deliverAll (frames : List OutFrame) (hc : ∀ f ∈ frames, f.counted = true)
    (o : Outbox) : (o.deliverAll frames).history = o.history ++ o.accepts frames := by
  induction frames generalizing o with
  | nil =>
    rw [accepts_nil, append_nil]
    rfl
  | cons f frames ih =>
    have hr := ih fun g hg => hc g (mem_cons_of_mem f hg)
    rw [deliverAll_cons, hr]
    obtain ⟨hop, hfi, heq⟩ | ⟨hnot, killed, delivery, heq, -, hcl⟩ :=
      deliver_cases o f.bytes f.about
    · have hf : ({ bytes := f.bytes, counted := true, about := f.about } : OutFrame) = f := by
        rw [← hc f mem_cons_self]
      rw [heq, hf, accepts, accepts, if_neg hop, fitting, if_pos hfi]
      exact (congrArg _ (if_neg hop)).trans (append_assoc _ _ _)
    have hn : o.accepts (f :: frames) = [] := by
      unfold accepts
      split_ifs with hop
      · rfl
      · rw [fitting, if_neg (not_le.2 (hnot.resolve_left hop))]
    rw [heq, hn, accepts, if_pos hcl]

theorem accepts_concat (hc : ∀ g ∈ frames ++ [f], g.counted = true) :
    o.accepts (frames ++ [f]) = o.accepts frames ++
      if ((o.deliverAll frames).deliver f.bytes f.about).2 = .queued then [f] else [] := by
  have hall := history_deliverAll (frames ++ [f]) hc o
  have hfr := history_deliverAll frames (fun g hg => hc g (mem_append_left [f] hg)) o
  have hf : ({ bytes := f.bytes, counted := true, about := f.about } : OutFrame) = f := by
    rw [← hc f (mem_append_right frames (mem_singleton_self f))]
  rw [deliverAll_concat] at hall
  suffices h : o.history ++ o.accepts (frames ++ [f]) = o.history ++ (o.accepts frames ++
      if ((o.deliverAll frames).deliver f.bytes f.about).2 = .queued then [f] else []) from
    append_cancel_left h
  rw [← hall, ← append_assoc, ← hfr]
  obtain ⟨-, -, heq⟩ | ⟨-, killed, delivery, heq, hnot, -⟩ :=
    deliver_cases (o.deliverAll frames) f.bytes f.about
  · rw [heq, if_pos rfl, hf]
    rfl
  · rw [heq, if_neg hnot, append_nil]

end Outbox

end NetGet.PubSub
