import NetGet.Library.Fallible
import NetGet.Library.Machine
import NetGet.Model.Devp2p

/-! # Answers and what they answer -/

namespace NetGet.Devp2p

open Library Machine List AList Session

variable {Item Hash : Type} {eth : Eth Item Hash}

/-- The headers go on from the first one in steps, and hang together if none is skipped. -/
structure FollowsFrom (eth : Eth Item Hash) (req : HeaderRequest Hash) (headers : List Item)
    (first : Item) (n : ℕ) : Prop where
  origin : match req.origin with
    | .number m => n = m
    | .hash h => eth.headerHash first = h
  numbers : ∀ i header, headers[i]? = some header → ∃ m, eth.headerNumber header = .ok m ∧
    if req.reverse then m + (req.skip + 1) * i = n else m = n + (req.skip + 1) * i
  parents : req.skip = 0 → ∀ i a b, headers[i]? = some a → headers[i + 1]? = some b →
    if req.reverse then eth.headerParent a = some (eth.headerHash b)
    else eth.headerParent b = some (eth.headerHash a)

def Answers (eth : Eth Item Hash) : Owed Hash → Answer Item Hash → Prop
  | .headers req, .headers headers => headers.length ≤ req.amount ∧
      ∀ first ∈ headers.head?, ∃ n, FollowsFrom eth req headers first n
  | .bodies n, .bodies bodies => bodies.length ≤ n
  | .pooled asked, .pooled transactions => ∀ t ∈ transactions, t.2 ∈ asked
  | _, _ => False

theorem eq_of_numberAt {req : HeaderRequest Hash} {first i m : ℕ}
    (h : some m = req.numberAt first i) :
    if req.reverse then m + (req.skip + 1) * i = first else m = first + (req.skip + 1) * i := by
  obtain ⟨skip, hs, h⟩ := Option.bind_eq_some_iff.1 h.symm
  obtain ⟨rfl, -⟩ := checkedAdd_eq_some.1 hs
  split at h
  · cases h
  split at h
  · split at h
    · cases h
      rw [if_pos ‹_›]
      omega
    · cases h
  · rw [if_neg ‹_›]
    exact (checkedAdd_eq_some.1 h).1

theorem forM_eq_ok {α : Type} {f : α → Except String Unit} {l : List α} (h : l.forM f = .ok ()) :
    ∀ a ∈ l, f a = .ok () := by
  induction l with
  | nil => simp
  | cons a l ih =>
    obtain ⟨⟨⟩, ha, h⟩ := bind_eq_ok.1 h
    exact forall_mem_cons.2 ⟨ha, ih h⟩

section

variable [DecidableEq Hash]

theorem answers_of_checkAnswer {owed : Owed Hash} {answer : Answer Item Hash}
    (h : checkAnswer eth owed answer = .ok ()) : Answers eth owed answer := by
  cases owed <;> cases answer <;> simp only [checkAnswer, ensure_eq_ok, reduceCtorEq] at h
  case headers.headers req headers =>
    obtain ⟨⟨⟩, hlen, h⟩ := bind_eq_ok.1 h
    refine ⟨of_decide_eq_true (ensure_eq_ok.1 hlen), fun first hf => ?_⟩
    obtain ⟨rest, rfl⟩ := head?_eq_some_iff.1 hf
    obtain ⟨n, -, h⟩ := bind_eq_ok.1 h
    obtain ⟨⟨⟩, ho, h⟩ := bind_eq_ok.1 h
    obtain ⟨⟨⟩, hnum, h⟩ := bind_eq_ok.1 h
    refine ⟨n, ?_, fun i header hi => ?_, fun hs i a b ha hb => ?_⟩
    · cases hr : req.origin <;> simpa [hr, checkOrigin] using ho
    · obtain ⟨m, hm, he⟩ := bind_eq_ok.1
        (forM_eq_ok hnum (header, i) (mk_mem_zipIdx_iff_getElem?.2 hi))
      exact ⟨m, hm, eq_of_numberAt (of_decide_eq_true (ensure_eq_ok.1 he))⟩
    · have hm : (a, b) ∈ (first :: rest).zip (first :: rest).tail :=
        mem_of_getElem? (getElem?_zip_eq_some.2 ⟨ha, hb⟩)
      have hl := ensure_eq_ok.1 h
      simp only [linked, hs, bne_self_eq_false, Bool.false_or, all_eq_true] at hl
      have hw := hl _ hm
      cases hr : req.reverse <;> simpa [hr] using hw
  case bodies.bodies => simpa [Answers] using h
  case pooled.pooled => simpa [Answers] using h

end

def Entry.id : Entry Item Hash → ℕ
  | .asked id _ => id
  | .sent id _ => id

def Entry.owed? : Entry Item Hash → Option (Owed Hash)
  | .asked _ owed => some owed
  | .sent _ _ => none

/-- The request of an id that no answer was sent for yet. -/
def unanswered (id : ℕ) (log : List (Entry Item Hash)) : Option (Owed Hash) :=
  log.foldl (fun owed e => if e.id = id then e.owed? else owed) none

/-- Each answer in the log is one to a request that was unanswered then. -/
def Paired (eth : Eth Item Hash) (log : List (Entry Item Hash)) : Prop :=
  ∀ front id answer back, log = front ++ .sent id answer :: back →
    ∃ owed, unanswered id front = some owed ∧ Answers eth owed answer

theorem Paired.concat {log : List (Entry Item Hash)} (h : Paired eth log) {e : Entry Item Hash}
    (he : ∀ id answer, e = .sent id answer →
      ∃ owed, unanswered id log = some owed ∧ Answers eth owed answer) :
    Paired eth (log ++ [e]) := by
  intro front id answer back heq
  obtain rfl | ⟨back', e', rfl⟩ := eq_nil_or_concat back
  · obtain ⟨rfl, rfl⟩ := concat_inj.1 (by simpa using heq)
    exact he id answer rfl
  · have hl : log ++ [e] = (front ++ .sent id answer :: back') ++ [e'] := by simpa using heq
    exact h front id answer back' (append_inj_left' hl rfl)

structure Session.Sound (eth : Eth Item Hash) (s : Session Item Hash) : Prop where
  paired : Paired eth s.log
  owed : ∀ id, s.owed.lookup id = unanswered id s.log
  owed_le : s.owed.keys.length ≤ maxOwed
  outstanding_le : s.outstanding.keys.length ≤ maxOutstanding

namespace Session

variable {s : Session Item Hash} (h : s.Sound eth)

theorem length_erase_le {V : Type} (t : Table ℕ V) (id : ℕ) :
    (t.erase id).keys.length ≤ t.keys.length := by
  rw [keys_erase]
  exact erase_sublist.length_le

theorem length_insert_le {V : Type} (t : Table ℕ V) (id : ℕ) (v : V) :
    (t.insert id v).keys.length ≤ t.keys.length + 1 := by
  rw [keys_insert, length_cons]
  exact Nat.succ_le_succ erase_sublist.length_le

include h

theorem Sound.owe (kind : Kind) (id : ℕ) (owed : Owed Hash) : (s.owe kind id owed).2.Sound eth := by
  simp only [Session.owe]
  split
  · exact h
  split
  · exact h
  have hl := length_insert_le s.owed id owed
  refine ⟨h.paired.concat (by simp), fun id' => ?_, by simp only; omega, h.outstanding_le⟩
  simp [unanswered, lookup_insert_ite, Entry.id, Entry.owed?, eq_comm, h.owed]

theorem Sound.send [DecidableEq Hash] (id : Option ℕ) (answer : Answer Item Hash) (sent : Bool) :
    (s.send eth id answer sent).Sound eth := by
  simp only [Session.send]
  split
  · exact h
  split
  · exact h
  split
  · rename_i id _ owed ho hok
    have hc : checkAnswer eth owed answer = .ok () := by
      cases hc : checkAnswer eth owed answer <;> simp_all [Except.isOk, Except.toBool]
    refine ⟨h.paired.concat ?_, fun id' => ?_, (length_erase_le _ _).trans h.owed_le,
      h.outstanding_le⟩
    · rintro _ _ ⟨⟩
      exact ⟨owed, h.owed _ ▸ ho, answers_of_checkAnswer hc⟩
    · simp [unanswered, lookup_erase_ite, Entry.id, Entry.owed?, eq_comm, h.owed]
  · exact h

theorem Sound.step [DecidableEq Hash] (l : Label Item Hash) : (s.step eth l).Sound eth := by
  cases l with
  | takeStatus => exact { h with }
  | onMessage message =>
    simp only [Session.step, onMessage]
    split
    · cases message with
      | response kind id items =>
        simp only [answerFor]
        split
        · exact h
        · exact { h with outstanding_le := (length_erase_le _ _).trans h.outstanding_le }
      | noted | refused => exact h
      | _ => exact h.owe _ _ _
    · exact h
  | apply command answering depth now sent =>
    cases command with
    | disconnect => exact h
    | sendStatus =>
      simp only [Session.step, apply]
      split <;> exact { h with }
    | send =>
      simp only [Session.step, apply]
      split
      · exact h.send _ _ _
      · exact h
    | request asked =>
      simp only [Session.step, apply, request]
      split
      · split
        · exact h
        · split
          · have hl := length_insert_le s.outstanding (wrappingAdd 64 s.nextRequestId 1)
              { asked, deadline := now + requestTimeout, depth }
            exact { h with outstanding_le := by simp only; omega }
          · exact { h with }
      · exact h
  | expire now =>
    have hl : (s.outstanding.retain fun _ o => now < o.deadline).keys.Sublist s.outstanding.keys :=
      filter_sublist.map Sigma.fst
    exact { h with outstanding_le := hl.length_le.trans h.outstanding_le }

omit h

/-- In every run, each answer sent is one to a request that was taken and not answered before, and
the bounds on both kinds of requests hold. -/
theorem answers_only_owed [DecidableEq Hash] (eth : Eth Item Hash) (id : ℕ)
    (labels : List (Label Item Hash)) : (run (Session.step eth) (new id) labels).Sound eth := by
  refine run_invariant ?_ (fun _ l h => h.step l) labels
  exact ⟨by simp [new, Paired], fun _ => rfl, Nat.zero_le _, Nat.zero_le _⟩

end Session

def Asked.kind : Asked Hash → Kind
  | .headers _ => .headers
  | .bodies _ => .bodies
  | .pooled _ => .pooled

/-- The request that a message reports an answer to, or uses up, is of its kind. -/
structure Matched (eth : Eth Item Hash) (s : Session Item Hash) (m : Message Item Hash) : Prop where
  reported : ∀ kind id items depth,
    (s.onMessage eth m).1 = .ok (some (.received kind id items depth)) →
      m = .response kind id items ∧ ∃ o, s.outstanding.lookup id = some o ∧ o.asked.kind = kind
  retired : ∀ id o, s.outstanding.lookup id = some o → id ∉ (s.onMessage eth m).2.outstanding →
    ∃ items, m = .response o.asked.kind id items

/-- An answer that carries the id of a request is of the kind that was asked for. -/
def KindAsked (s : Session Item Hash) (m : Message Item Hash) : Prop :=
  s.peerStatus = true → ∀ kind id items, m = .response kind id items →
    ∀ o, s.outstanding.lookup id = some o → o.asked.kind = kind

/-- A message is an answer under the id of a request, or no request is used up or reported on. -/
theorem onMessage_cases (eth : Eth Item Hash) (s : Session Item Hash) (m : Message Item Hash) :
    (∃ kind id items o, s.peerStatus = true ∧ m = .response kind id items ∧
      s.outstanding.lookup id = some o ∧ s.onMessage eth m =
        (received eth o id items, { s with outstanding := s.outstanding.erase id })) ∨
    (s.onMessage eth m).2.outstanding = s.outstanding ∧ ∀ kind id items depth,
      (s.onMessage eth m).1 ≠ .ok (some (.received kind id items depth)) := by
  cases hs : s.peerStatus with
  | false => simp [onMessage, hs]
  | true =>
    cases m with
    | response kind id items =>
      cases ho : s.outstanding.lookup id <;> simp [onMessage, answerFor, hs, ho]
    | noted | refused => simp [onMessage, hs]
    | _ =>
      simp only [onMessage, hs, if_true, owe]
      refine .inr ?_
      split
      · simp
      · split <;> simp

theorem matched_iff (eth : Eth Item Hash) (s : Session Item Hash) (m : Message Item Hash) :
    Matched eth s m ↔ KindAsked s m := by
  constructor
  · rintro h hs kind id items rfl o ho
    have hr : id ∉ (s.onMessage eth (.response kind id items)).2.outstanding := by
      simp [Session.onMessage, hs, Session.answerFor, ho]
    obtain ⟨_, heq⟩ := h.retired id o ho hr
    cases heq
    rfl
  intro h
  obtain ⟨kind, id, items, o, hs, rfl, ho, hm⟩ | ⟨hout, hno⟩ := onMessage_cases eth s m
  · have hk := h hs kind id items rfl o ho
    refine ⟨fun kind' id' items' depth hr => ?_, fun id' o' ho' hr => ?_⟩
    · rw [hm] at hr
      have he : PeerEvent.received kind' id' items' depth =
          .received o.asked.kind id items (o.depth + 1) := by
        unfold received at hr
        cases ha : o.asked <;> grind [Asked.kind]
      cases he
      exact ⟨by rw [hk], o, ho, rfl⟩
    · obtain rfl : id' = id := by
        by_contra hne
        exact hr (by simpa [hm, hne] using mem_iff_lookup.2 ⟨o', ho'⟩)
      cases ho.symm.trans ho'
      exact ⟨items, by rw [hk]⟩
  · refine ⟨fun _ _ _ _ hr => absurd hr (hno _ _ _ _), fun id o ho hr => ?_⟩
    exact absurd (mem_iff_lookup.2 ⟨o, ho⟩) (hout ▸ hr)

def OnMessages (ok : Session Item Hash → Message Item Hash → Prop) (s : Session Item Hash) :
    Label Item Hash → Prop
  | .onMessage m => ok s m
  | _ => True

/-- What a message reports and uses up matches it just when it is of the kind that was asked for
under its id, in any state and so in every state of a run. -/
theorem answers_matched_iff [DecidableEq Hash] (eth : Eth Item Hash) :
    (∀ s m, Matched eth s m ↔ KindAsked s m) ∧ ∀ id labels,
      (Meets (Session.step eth) (OnMessages (Matched eth)) (.new id) labels ↔
        Meets (Session.step eth) (OnMessages KindAsked) (.new id) labels) := by
  refine ⟨matched_iff eth, fun id labels => ?_⟩
  have heq : OnMessages (Matched eth) = OnMessages KindAsked := by
    funext s l
    cases l with
    | onMessage m => exact propext (matched_iff eth s m)
    | _ => rfl
  rw [heq]

def oneHeader : List (Label Unit Unit) :=
  [.takeStatus, .apply .sendStatus none 0 0 true,
    .apply (.request (.headers ⟨.number 7, 1, 0, false⟩)) none 0 0 true]

/-- An answer without bodies, under the id of the request for a header, is taken for its answer. -/
theorem bodies_taken_for_headers :
    let eth : Eth Unit Unit := ⟨fun _ => .ok 0, fun _ => none, id, fun _ _ => true⟩
    let s := run (Session.step eth) (.new 0) oneHeader
    (s.onMessage eth (.response .bodies 1 [])).1 = .ok (some (.received .headers 1 [] 1)) ∧
      ¬ Matched eth s (.response .bodies 1 []) := by
  refine ⟨by rfl, fun h => ?_⟩
  obtain ⟨heq, -⟩ := h.reported .headers 1 [] 1 (by rfl)
  cases heq

end NetGet.Devp2p
