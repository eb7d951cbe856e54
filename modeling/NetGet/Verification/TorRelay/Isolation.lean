import NetGet.Verification.TorRelay.Manager

/-! # Connections and the circuits of others -/

namespace NetGet.TorRelay

open Library Sharing Sharing.Program List

variable {χ : Type} {cipher : CircuitCrypto χ} {id : ConnectionId} {event : Event}

/-- Questions start forwarders for circuit ids with the property only. -/
def SpawnsWithin (P : CircuitId → Prop) : Question → Prop
  | .spawnForwarder circuit _ _ => P circuit
  | _ => True

def CreatesFor (id : ConnectionId) : Op → Prop
  | .create creator _ => creator = id
  | _ => True

/-- A task of a connection calls methods and starts forwarders with circuit ids that have the
property. -/
def Stays {α : Type} (P : CircuitId → Prop) (id : ConnectionId) (task : Task cipher α) : Prop :=
  task.Within (fun key op => P key ∧ CreatesFor id op) (SpawnsWithin P)

section Handlers

variable {P : CircuitId → Prop} {id : ConnectionId} {circuit : CircuitId} {α : Type}

theorem stays_return (a : α) : Stays P id (pure a : Handler cipher α).run := trivial

theorem stays_throw (e : RelayError) : Stays P id (throw e : Handler cipher α).run := trivial

theorem stays_need (h : P circuit) {op : Op} (hop : CreatesFor id op) :
    Stays P id (need circuit op : Handler cipher op.Value).run :=
  ⟨⟨h, hop⟩, fun _ => trivial⟩

theorem stays_attempt (h : P circuit) {op : Op} (hop : CreatesFor id op) :
    Stays P id (attempt circuit op : Handler cipher (Except RelayError op.Value)).run :=
  ⟨⟨h, hop⟩, fun _ => trivial⟩

theorem Stays.bind {β : Type} {task : Handler cipher α} {next : α → Handler cipher β}
    (h : Stays P id task.run) (hnext : ∀ a, Stays P id (next a).run) :
    Stays P id (task >>= next).run := by
  refine within_bind h ?_
  rintro (e | a)
  · trivial
  · exact hnext a

theorem stays_ask {question : Question} (h : SpawnsWithin P question) :
    Stays P id (ask question : Handler cipher question.Answer).run :=
  ⟨h, fun _ => trivial⟩

section

variable (h : P circuit)

include h

theorem stays_encryptCell (cell : Bytes) :
    Stays P id (encryptCell circuit cell : Handler cipher Bytes).run :=
  .bind (stays_need h trivial) fun _ => stays_return _

theorem stays_countedCell (cell : Bytes) :
    Stays P id (countedCell circuit cell : Handler cipher Bytes).run :=
  .bind (stays_encryptCell h cell) fun _ =>
    .bind (stays_attempt h trivial) fun _ => stays_return _

theorem stays_handleCreate2 (cell : Bytes) :
    Stays P id (handleCreate2 id circuit cell : Handler cipher (Option Bytes)).run := by
  simp only [handleCreate2]
  split
  · exact stays_throw _
  split
  · exact stays_throw _
  split
  · exact stays_throw _
  split
  · exact stays_throw _
  refine .bind (stays_ask trivial) fun answer => ?_
  match answer with
  | .error e => exact stays_throw e
  | .ok (y, auth, keys) =>
    refine .bind (stays_need h rfl) fun _ => .bind (stays_ask trivial) fun answer => ?_
    match answer with
    | .ok results =>
      simp only
      split
      · exact stays_return _
      · exact .bind (stays_attempt h trivial) fun _ => stays_throw _
      · exact stays_return _
    | .error _ => exact .bind (stays_attempt h trivial) fun _ => stays_return _

variable (stream : StreamId)

theorem stays_endStream (reason : UInt8) :
    Stays P id (endStream circuit stream reason : Handler cipher (Option Bytes)).run :=
  .bind (stays_countedCell h _) fun _ => stays_return _

theorem stays_connectStream (target : String) :
    Stays P id (connectStream circuit stream target : Handler cipher (Option Bytes)).run := by
  refine .bind (stays_ask trivial) fun connected => ?_
  match connected with
  | none => exact .bind (stays_attempt h trivial) fun _ => stays_endStream h stream _
  | some connection =>
    refine .bind (stays_need h trivial) fun _ => ?_
    refine .bind (stays_countedCell h _) fun _ => ?_
    refine .bind (stays_need h trivial) fun reader => ?_
    match reader with
    | none => exact stays_throw _
    | some _ => exact .bind (stays_ask h) fun _ => stays_return _

theorem stays_handleBeginCell (data : Bytes) :
    Stays P id (handleBeginCell circuit stream data : Handler cipher (Option Bytes)).run := by
  unfold handleBeginCell
  split
  · exact stays_throw _
  refine .bind (stays_attempt h trivial) fun created => ?_
  match created with
  | .error _ => exact stays_endStream h stream _
  | .ok _ => exact stays_connectStream h stream _

theorem stays_sendChunks (pieces : List Bytes) :
    Stays P id (sendChunks circuit stream pieces : Handler cipher Unit).run := by
  induction pieces with
  | nil => exact stays_return _
  | cons piece rest ih =>
    refine .bind (stays_encryptCell h _) fun _ => ?_
    refine .bind (stays_ask trivial) fun sent => ?_
    match sent with
    | false => exact stays_throw _
    | true => exact .bind (stays_attempt h trivial) fun _ => ih

theorem stays_handleDirectoryData (data : Bytes) :
    Stays P id (handleDirectoryData circuit stream data : Handler cipher (Option Bytes)).run := by
  refine .bind (stays_need h trivial) fun _ => ?_
  refine .bind (stays_need h trivial) fun request => ?_
  split
  · exact stays_return _
  · refine .bind (stays_ask trivial) fun _ => ?_
    refine .bind (stays_sendChunks h stream _) fun _ => ?_
    exact .bind (stays_encryptCell h _) fun _ => stays_return _

theorem stays_forwardData (data : Bytes) :
    Stays P id (forwardData circuit stream data : Handler cipher (Option Bytes)).run := by
  refine .bind (stays_need h trivial) fun writer => ?_
  match writer with
  | none => exact stays_return _
  | some connection =>
    refine .bind (stays_ask trivial) fun written => ?_
    match written with
    | true => exact stays_return _
    | false => exact .bind (stays_attempt h trivial) fun _ => stays_endStream h stream _

theorem stays_handleDataCell (data : Bytes) :
    Stays P id (handleDataCell circuit stream data : Handler cipher (Option Bytes)).run := by
  refine .bind (stays_attempt h trivial) fun due => ?_
  refine .bind (?_ : Stays P id (sendStreamSendme circuit stream due : Handler cipher Unit).run)
    fun _ => ?_
  · match due with
    | .ok true =>
      exact .bind (stays_countedCell h _) fun _ =>
        .bind (stays_ask trivial) fun _ => stays_return _
    | .ok false | .error _ => exact stays_return _
  refine .bind (stays_need h trivial) fun directory => ?_
  match directory with
  | true => exact stays_handleDirectoryData h stream data
  | false => exact stays_forwardData h stream data

theorem stays_handleCommand (header : RelayHeader) (data : Bytes) :
    Stays P id (handleCommand circuit header data : Handler cipher (Option Bytes)).run := by
  unfold handleCommand
  split
  · exact stays_handleBeginCell h _ data
  split
  · exact .bind (stays_need h trivial) fun _ =>
      .bind (stays_encryptCell h _) fun _ => stays_return _
  split
  · exact stays_handleDataCell h _ data
  split
  · exact .bind (stays_attempt h trivial) fun _ => stays_return _
  split
  · unfold handleSendmeCell
    split <;> exact .bind (stays_attempt h trivial) fun _ => stays_return _
  · refine .bind (stays_ask trivial) fun answer => ?_
    match answer with
    | .ok results =>
      simp only
      split
      · exact stays_return _
      · exact stays_throw _
      · exact stays_return _
    | .error _ => exact .bind (stays_attempt h trivial) fun _ => stays_return _

theorem stays_handleRelay (cell : Bytes) :
    Stays P id (handleRelay circuit cell : Handler cipher (Option Bytes)).run := by
  refine .bind (stays_need h trivial) fun payload => ?_
  refine .bind (stays_attempt h trivial) fun _ => ?_
  refine .bind (stays_attempt h trivial) fun due => ?_
  refine .bind (?_ : Stays P id (sendCircuitSendme circuit due : Handler cipher Unit).run)
    fun _ => ?_
  · match due with
    | .ok true =>
      exact .bind (stays_encryptCell h _) fun _ =>
        .bind (stays_ask trivial) fun _ => stays_return _
    | .ok false | .error _ => exact stays_return _
  unfold handlePayload
  split
  · exact stays_throw _
  split
  · exact stays_return _
  split
  · exact stays_return _
  · exact stays_handleCommand h _ _

theorem stays_forwardEnd : Stays P id (forwardEnd circuit stream : Task cipher Bool) := by
  refine within_bind (stays_encryptCell h _) fun encrypted => ?_
  match encrypted with
  | .error _ => exact within_bind (stays_attempt h trivial) fun _ => trivial
  | .ok _ =>
    refine within_bind (stays_attempt h trivial) fun _ => ?_
    refine within_bind (stays_ask trivial) fun _ => ?_
    exact within_bind (stays_attempt h trivial) fun _ => trivial

theorem stays_forwardTurn (connection : Handle) :
    Stays P id (forwardTurn circuit stream connection : Task cipher Bool) := by
  refine ⟨trivial, fun data => ?_⟩
  match data with
  | none => exact stays_forwardEnd h stream
  | some data =>
    refine within_bind (stays_countedCell h _) fun encrypted => ?_
    match encrypted with
    | .error _ => exact stays_forwardEnd h stream
    | .ok _ =>
      refine ⟨trivial, fun sent => ?_⟩
      match sent with
      | true => trivial
      | false => exact stays_forwardEnd h stream

end

end Handlers

/-- The circuit id a cell is about, if its handler does anything with it. -/
def namedCircuit (cell : Bytes) : Option CircuitId :=
  (parseTorCell cell).bind fun info => if info.cellType = .other then none else some info.circuitId

/-- The tasks of a session call methods with circuit ids that have the property. -/
structure Keeps (P : CircuitId → Prop) (id : ConnectionId) (s : Session cipher) : Prop where
  id_eq : s.id = id
  handling : ∀ c task, s.handling = some (c, task) → Stays P id task
  forwarders : ∀ f ∈ s.forwarders, P f.circuit ∧ Stays P id f.task

namespace Keeps

variable {P : CircuitId → Prop} {id : ConnectionId} {s : Session cipher}

theorem new (P : CircuitId → Prop) (id : ConnectionId) :
    Keeps P id (Session.new id : Session cipher) where
  id_eq := rfl
  handling _ _ h := nomatch h
  forwarders _ h := absurd h not_mem_nil

section

variable (hs : Keeps P id s)

include hs

theorem setHandling (c : CircuitId)
    {task : Task cipher (Except RelayError (Option Bytes))} (h : Stays P id task) :
    Keeps P id { s with handling := some (c, task) } :=
  { hs with
    handling := by
      rintro _ _ ⟨⟩
      exact h }

theorem noHandling (outgoing wire : List Bytes) (closed : Bool) :
    Keeps P id { s with handling := none, outgoing, wire, closed } :=
  { hs with handling := fun _ _ h => nomatch h }

theorem setForwarder (k : ℕ) {f : Forwarder cipher} (hf : P f.circuit)
    {task : Task cipher Bool} (ht : Stays P id task) : Keeps P id (s.setForwarder k f task) :=
  { hs with
    forwarders := by
      intro g hg
      rcases mem_or_eq_of_mem_set hg with hg | rfl
      · exact hs.forwarders g hg
      · exact ⟨hf, ht⟩ }

theorem eraseForwarder (k : ℕ) :
    Keeps P id { s with forwarders := s.forwarders.eraseIdx k } :=
  { hs with forwarders := fun g hg => hs.forwarders g (mem_of_mem_eraseIdx hg) }

theorem answer {question : Question} (h : SpawnsWithin P question)
    (a : question.Answer) : Keeps P id (s.answer question a).1 := by
  cases question with
  | send cell =>
    unfold Session.answer
    split
    · exact hs
    · exact { hs with }
  | spawnForwarder circuit stream connection =>
    exact { hs with forwarders := forall_mem_append.2 ⟨hs.forwarders,
      forall_mem_singleton.2 ⟨h, stays_forwardTurn h stream connection⟩⟩ }
  | handshake | circuitCreated | relayCell | connect | write | read | directory =>
    exact { hs with }

theorem finish (c : CircuitId)
    (result : Except RelayError (Option Bytes)) : Keeps P id (s.finish c result) := by
  match result with
  | .ok none | .ok (some _) | .error _ => exact hs.noHandling _ _ _

theorem receive {cell : Bytes}
    (h : ∀ c, namedCircuit cell = some c → P c) : Keeps P id (s.receive cell) := by
  unfold Session.receive
  split
  · exact hs
  split
  · exact hs
  rename_i info hi
  refine hs.setHandling _ ?_
  rw [hs.id_eq]
  have hc : info.cellType ≠ .other → P info.circuitId := by
    intro hne
    refine h _ ?_
    rw [namedCircuit, hi, Option.bind_some, if_neg hne]
  unfold handleCell
  cases ht : info.cellType with
  | create2 => exact stays_handleCreate2 (hc (by simp [ht])) cell
  | relay => exact stays_handleRelay (hc (by simp [ht])) cell
  | destroy => exact .bind (stays_attempt (hc (by simp [ht])) trivial) fun _ => stays_return _
  | other => exact stays_return _

theorem flush : Keeps P id s.flush := by
  unfold Session.flush
  split
  · exact hs
  split
  · exact hs
  · exact { hs with }

theorem handle (answers : ∀ question : Question, question.Answer) :
    (s.handle answers).Respects (fun key op => P key ∧ CreatesFor id op) (Keeps P id) := by
  unfold Session.handle
  split
  · exact hs
  · exact hs.finish _ _
  · rename_i c key op next hh
    have ht := hs.handling _ _ hh
    refine ⟨ht.1, fun reply => ?_⟩
    match reply with
    | some reply => exact hs.setHandling c (ht.2 reply)
    | none => exact hs.noHandling _ _ _
  · rename_i c question next hh
    have ht := hs.handling _ _ hh
    exact (hs.answer ht.1 _).setHandling c (ht.2 _)

theorem forward (k : ℕ) (answers : ∀ question : Question, question.Answer) :
    (s.forward k answers).Respects (fun key op => P key ∧ CreatesFor id op) (Keeps P id) := by
  unfold Session.forward
  split
  · exact hs
  rename_i f hf
  obtain ⟨hc, ht⟩ := hs.forwarders f (mem_of_getElem? hf)
  split
  · exact hs.setForwarder k hc (stays_forwardTurn hc _ _)
  · exact hs.eraseForwarder k
  · rename_i key op next hca
    rw [hca] at ht
    refine ⟨ht.1, fun reply => ?_⟩
    match reply with
    | some reply => exact hs.setForwarder k hc (ht.2 reply)
    | none => exact hs.eraseForwarder k
  · rename_i question next hask
    rw [hask] at ht
    exact (hs.answer ht.1 _).setForwarder k hc (ht.2 _)

end

end Keeps

/-- The cells of a connection are about circuit ids with the property. -/
def CellsWithin (P : CircuitId → Prop) : Event → Prop
  | .cell cell => ∀ c, namedCircuit cell = some c → P c
  | _ => True

theorem session_confined (owner : CircuitId → ConnectionId) :
    Confined (Session.act : Session cipher → Event → _)
      (fun id key op => owner key = id ∧ CreatesFor id op) (fun id => CellsWithin (owner · = id))
      (fun id => Keeps (owner · = id) id) := by
  refine ⟨fun id s event hs he => ?_⟩
  cases event with
  | cell cell => exact hs.receive he
  | handle answers => exact hs.handle answers
  | forward k answers => exact hs.forward k answers
  | flush => exact hs.flush
  | close =>
    simp only [Session.act, Act.Respects]
    split
    · exact hs
    · exact { hs with }

/-- A circuit in the table is the circuit of the owner of its id. -/
def CreatedBy (id : ConnectionId) (entry : Option (Circuit χ)) : Prop :=
  ∀ c, entry = some c → c.creator = id

/-- The tasks keep to the circuit ids of their connection, and so do the circuits. -/
structure Separate (owner : CircuitId → ConnectionId) (w : Relay cipher) : Prop where
  agents : ∀ id, Keeps (owner · = id) id (w.agents id)
  created : ∀ c, CreatedBy (owner c) (w.store c)

theorem separate_new (owner : CircuitId → ConnectionId) : Separate owner (Relay.new cipher) where
  agents id := .new _ id
  created _ _ h := nomatch h

theorem Separate.step {owner : CircuitId → ConnectionId} {w : Relay cipher} (h : Separate owner w)
    (he : CellsWithin (owner · = id) event) : Separate owner (w.step cipher (id, event)) where
  agents := (session_confined owner).step h.agents he
  created := by
    refine store_invariant (S := interface cipher) (fun c entry => CreatedBy (owner c) entry)
      (fun c op _ => CreatesFor (owner c) op) ?_ h.created ?_
    · intro c op entry entry' r hen hop ha d hd
      obtain ⟨creator, keys, rfl, hnew⟩ | hn | ⟨c, c', hc, hc', hch⟩ := apply_cases ha
      · cases hd.symm.trans hnew
        exact hop
      · cases hd.symm.trans hn
      · cases hd.symm.trans hc'
        exact hch.creator.trans (hen c hc)
    · intro c op next hact
      have huse := ((session_confined owner).use (h.agents id) he hact).1
      rw [huse.1]
      exact huse.2

def DistinctCircuits (labels : List (ConnectionId × Event)) : Prop :=
  ∀ id id' cell cell' c, (id, .cell cell) ∈ labels → (id', .cell cell') ∈ labels →
    namedCircuit cell = some c → namedCircuit cell' = some c → id = id'

open Classical in
noncomputable def ownerIn (labels : List (ConnectionId × Event)) (c : CircuitId) : ConnectionId :=
  if h : ∃ id cell, (id, Event.cell cell) ∈ labels ∧ namedCircuit cell = some c then h.choose else 0

theorem cellsWithin_ownerIn {labels : List (ConnectionId × Event)} (h : DistinctCircuits labels)
    (hmem : (id, event) ∈ labels) : CellsWithin (ownerIn labels · = id) event := by
  cases event with
  | cell cell =>
    intro c hc
    have hex : ∃ id cell, (id, Event.cell cell) ∈ labels ∧ namedCircuit cell = some c :=
      ⟨id, cell, hmem, hc⟩
    obtain ⟨cell', hmem', hc'⟩ := hex.choose_spec
    rw [ownerIn, dif_pos hex]
    exact h _ _ _ _ c hmem' hmem hc' hc
  | handle | forward | flush | close => trivial

/-- Where no two connections name one circuit id: a step of a connection leaves the circuits that
others created as they are, and a connection sees the same cells and questions, and has the same
circuits, as in the run without the others. -/
theorem circuits_isolated (cipher : CircuitCrypto χ) {labels : List (ConnectionId × Event)}
    (h : DistinctCircuits labels) : (∀ front id event rest, labels = front ++ (id, event) :: rest →
      ∀ c circuit, (Machine.run (Relay.step cipher) (Relay.new cipher) front).store c =
          some circuit → circuit.creator ≠ id →
        (Machine.run (Relay.step cipher) (Relay.new cipher) (front ++ [(id, event)])).store c =
          some circuit) ∧ ∀ id,
      (Machine.run (Relay.step cipher) (Relay.new cipher) labels).agents id =
        (Machine.run (Relay.step cipher) (Relay.new cipher) (labels.filter (·.1 = id))).agents id ∧
      ∀ c circuit, circuit.creator = id →
        ((Machine.run (Relay.step cipher) (Relay.new cipher) labels).store c = some circuit ↔
          (Machine.run (Relay.step cipher) (Relay.new cipher) (labels.filter (·.1 = id))).store c =
            some circuit) := by
  have hrun : ∀ run, (∀ l ∈ run, l ∈ labels) →
      Separate (ownerIn labels) (Machine.run (Relay.step cipher) (Relay.new cipher) run) := by
    intro run
    induction run using reverseRecOn with
    | nil => exact fun _ => separate_new _
    | append_singleton run l ih =>
      intro hmem
      rw [Machine.run_concat]
      refine (ih fun l' hl' => hmem l' (mem_append_left _ hl')).step ?_
      exact cellsWithin_ownerIn h (hmem l (mem_append_right _ mem_cons_self))
  refine ⟨?_, ?_⟩
  · rintro front id event rest rfl c circuit hst hc
    have hf := hrun front fun l hl => mem_append_left _ hl
    have he := cellsWithin_ownerIn h (mem_append_right front mem_cons_self : (id, event) ∈ _)
    rw [Machine.run_concat, ← hst]
    refine (session_confined _).store_eq And.left (hf.agents id) he ?_
    rw [← hf.created c circuit hst]
    exact hc
  intro id
  have hsta : SameFor (ownerIn labels) id (Relay.new cipher) (Relay.new cipher) :=
    ⟨rfl, fun _ _ => rfl⟩
  have hsa := (session_confined (ownerIn labels)).sameFor_run And.left id
    (fun l hl => cellsWithin_ownerIn h hl) (separate_new _).agents hsta
  refine ⟨hsa.agent, fun c circuit hc => ⟨fun hst => ?_, fun hst => ?_⟩⟩
  · have ho := (hrun labels fun _ hl => hl).created c circuit hst
    rw [← hst]
    exact (hsa.store c (ho.symm.trans hc)).symm
  · have ho := (hrun _ fun _ hl => mem_of_mem_filter hl).created c circuit hst
    rw [← hst]
    exact hsa.store c (ho.symm.trans hc)

def plainCrypto : CircuitCrypto Unit where
  new _ := ()
  decrypt _ payload := ((), payload)
  encrypt _ payload := ((), payload)

/-- The handshake succeeds and the model says nothing. -/
def quietAnswers : ∀ question : Question, question.Answer
  | .handshake _ => .ok ([], [], { kf := [], kb := [], df := [], db := [] })
  | .circuitCreated _ | .relayCell _ _ _ _ => .ok []
  | .connect _ => none
  | .write _ _ | .send _ => true
  | .read _ => none
  | .directory _ => []
  | .spawnForwarder _ _ _ => ()

def create2Cell (circuit : CircuitId) : Bytes :=
  resize (toBe 4 circuit ++ [10] ++ toBe 2 2 ++ toBe 2 84) fixedCellLen

def creation : List (ConnectionId × Event) :=
  (1, .cell (create2Cell 7)) :: List.replicate 4 (1, .handle quietAnswers)

def destruction (circuit : CircuitId) : List (ConnectionId × Event) :=
  [(2, .cell (createDestroyCell circuit destroyReasonProtocol)), (2, .handle quietAnswers)]

theorem circuits_isolated_apart : DistinctCircuits (creation ++ destruction 8) ∧
      (Machine.run (Relay.step plainCrypto) (Relay.new plainCrypto)
          (creation ++ destruction 8)).agents 1 =
        (Machine.run (Relay.step plainCrypto) (Relay.new plainCrypto) creation).agents 1 := by
  have hd : DistinctCircuits (creation ++ destruction 8) := by
    have hcr : namedCircuit (create2Cell 7) = some 7 := by rfl
    have hde : namedCircuit (createDestroyCell 8 destroyReasonProtocol) = some 8 := by rfl
    intro id id' cell cell' c hmem hmem' hc hc'
    simp only [creation, destruction, replicate, cons_append, nil_append,
      mem_cons, Prod.mk.injEq, Event.cell.injEq, reduceCtorEq, and_false, not_mem_nil,
      or_false, false_or] at hmem hmem'
    rcases hmem with ⟨rfl, rfl⟩ | ⟨rfl, rfl⟩ <;> rcases hmem' with ⟨rfl, rfl⟩ | ⟨rfl, rfl⟩
    · rfl
    · cases (hcr.symm.trans hc).trans (hc'.symm.trans hde)
    · cases (hde.symm.trans hc).trans (hc'.symm.trans hcr)
    · rfl
  have hf : (creation ++ destruction 8).filter (·.1 = 1) = creation := by
    simp [creation, destruction, replicate]
  have hsa := ((circuits_isolated plainCrypto hd).2 1).1
  rw [hf] at hsa
  exact ⟨hd, hsa⟩

set_option maxRecDepth 8000 in
/-- The second connection destroys the circuit of the first. -/
theorem circuit_destroyed_by_other :
    ((Machine.run (Relay.step plainCrypto) (Relay.new plainCrypto) creation).store 7).map
        Circuit.creator = some 1 ∧ (Machine.run (Relay.step plainCrypto) (Relay.new plainCrypto)
        (creation ++ destruction 7)).store 7 = none := by
  exact ⟨rfl, rfl⟩

end NetGet.TorRelay
