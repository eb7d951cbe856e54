import NetGet.Model.Coap

/-! # Reassembly of uploads

The table keeps its caps whatever is sent. As long as they are not hit, an upload sees only its own
blocks, so the table acts on it like a machine that holds one upload. -/

namespace NetGet.Coap.Uploads

open Library Machine List AList

/-! ## The caps -/

def heldKeys (u : Uploads) (ip : IpAddr) : List UploadKey :=
  u.entries.keys.filter fun k => k.resource.peer.ip = ip

theorem map_held (u : Uploads) (ip : IpAddr) : (u.held ip).map Sigma.fst = u.heldKeys ip := by
  rw [held, heldKeys, AList.keys, List.keys, List.filter_map]
  rfl

theorem length_held (u : Uploads) (ip : IpAddr) : (u.held ip).length = (u.heldKeys ip).length := by
  rw [← map_held, length_map]

def settings (u : Uploads) : ℕ × ℕ × ℕ × ℕ := (u.cap, u.perIp, u.ttl, u.maxBody)

structure Within (cap perIp : ℕ) (u : Uploads) : Prop where
  cap_eq : u.cap = cap
  perIp_eq : u.perIp = perIp
  pos : 0 < perIp
  total : u.entries.keys.length ≤ cap
  perAddress : ∀ ip, (u.held ip).length ≤ perIp

section

variable {cap perIp : ℕ} {u u' : Uploads} {es : List (Σ _ : UploadKey, Upload)} {key : UploadKey}

theorem Within.heldKeys_le (h : Within cap perIp u) (ip : IpAddr) :
    (u.heldKeys ip).length ≤ perIp :=
  length_held u ip ▸ h.perAddress ip

theorem Within.of_keys (h : Within cap perIp u) (hs : u'.settings = u.settings)
    (ht : u'.entries.keys.length ≤ cap) (hh : ∀ ip, (u'.heldKeys ip).length ≤ perIp) :
    Within cap perIp u' := by
  simp only [settings, Prod.mk.injEq] at hs
  exact ⟨hs.1.trans h.cap_eq, hs.2.1.trans h.perIp_eq, h.pos, ht,
    by simpa only [length_held] using hh⟩

theorem Within.sublist (h : Within cap perIp u) (hs : u'.settings = u.settings)
    (hk : u'.entries.keys.Sublist u.entries.keys) : Within cap perIp u' :=
  h.of_keys hs (hk.length_le.trans h.total) fun ip =>
    (hk.filter _).length_le.trans (h.heldKeys_le ip)

theorem keys_remove_sublist (u : Uploads) (key : UploadKey) :
    (u.remove key).entries.keys.Sublist u.entries.keys := by
  rw [remove, keys_erase]
  exact erase_sublist

theorem Within.remove (h : Within cap perIp u) (key : UploadKey) :
    Within cap perIp (u.remove key) :=
  h.sublist rfl (keys_remove_sublist u key)

theorem Within.expire (h : Within cap perIp u) (now : ℕ) : Within cap perIp (u.expire now) :=
  h.sublist rfl (filter_sublist.map Sigma.fst)

theorem oldest_mem (rank : UploadKey → ℕ) (h : es ≠ []) : ∃ e ∈ es, oldest rank es = some e := by
  induction es with
  | nil => exact absurd rfl h
  | cons x es ih =>
    rw [oldest]
    cases hr : oldest rank es with
    | none => exact ⟨x, mem_cons_self, rfl⟩
    | some first =>
      obtain ⟨e, he, hf⟩ := ih (by rintro rfl; cases hr)
      obtain rfl := Option.some.inj (hr.symm.trans hf)
      simp only
      split
      · exact ⟨first, mem_cons_of_mem _ he, rfl⟩
      · exact ⟨x, mem_cons_self, rfl⟩

theorem evict_spec (rank : UploadKey → ℕ) (ip : IpAddr) {rounds : ℕ} (hpos : 0 < u.perIp)
    (hr : (u.heldKeys ip).length ≤ rounds) : (evict rank ip rounds u).settings = u.settings ∧
      (evict rank ip rounds u).entries.keys.Sublist u.entries.keys ∧
      ((evict rank ip rounds u).heldKeys ip).length < u.perIp := by
  induction rounds generalizing u with
  | zero => exact ⟨rfl, List.Sublist.refl _, by rw [evict]; omega⟩
  | succ rounds ih =>
    rw [evict, length_held]
    split
    · rename_i hro
      exact ⟨rfl, List.Sublist.refl _, hro⟩
    rename_i hfu
    have hne : u.held ip ≠ [] := by
      rw [← length_pos_iff, length_held]
      omega
    obtain ⟨e, hh, he⟩ := oldest_mem rank hne
    have hmem : e.1 ∈ u.heldKeys ip := map_held u ip ▸ mem_map_of_mem hh
    have hf : ((u.remove e.1).heldKeys ip).length < (u.heldKeys ip).length := by
      have hk : e.1 ∈ u.entries.keys := (mem_filter.1 hmem).1
      have hp := (perm_cons_erase hk).filter fun k => k.resource.peer.ip = ip
      have hl := hp.length_eq
      rw [filter_cons, if_pos (mem_filter.1 hmem).2, length_cons] at hl
      rw [heldKeys, heldKeys, Uploads.remove, keys_erase]
      omega
    rw [he]
    obtain ⟨hs, hk, hro⟩ := ih (u := u.remove e.1) hpos (by omega)
    exact ⟨hs, hk.trans (keys_remove_sublist u e.1), hro⟩

section

variable (h : Within cap perIp u)

include h

theorem Within.acceptFirst (rank : UploadKey → ℕ) (key : UploadKey)
    (block : BlockValue) (payload : Bytes) (now : ℕ) :
    Within cap perIp (u.acceptFirst rank key block payload now).1 := by
  simp only [Uploads.acceptFirst]
  have hr := h.remove key
  split
  · exact hr
  have hro : ((u.remove key).heldKeys key.resource.peer.ip).length ≤
      (u.remove key).entries.keys.length := length_filter_le _ _
  have hpos : 0 < (u.remove key).perIp := h.pos.trans_eq hr.perIp_eq.symm
  obtain ⟨hs, hk, hroom⟩ := evict_spec rank key.resource.peer.ip hpos hro
  have he := hr.sublist hs hk
  split
  · exact he
  rename_i hcap
  rw [he.cap_eq] at hcap
  have hkey : key ∉ (u.remove key).entries := by
    rw [Uploads.remove, mem_erase]
    exact fun hmem => hmem.1 rfl
  have hnew := fun hmem => hkey (hk.subset hmem)
  refine he.of_keys rfl ?_ fun ip => ?_
  · rw [keys_insert_of_notMem hnew]
    exact Nat.lt_of_not_le hcap
  rw [heldKeys, keys_insert_of_notMem hnew, filter_cons]
  split
  · rename_i hip
    rw [← of_decide_eq_true hip]
    exact hroom.trans_eq hr.perIp_eq
  · exact he.heldKeys_le ip

theorem Within.acceptLater (key : UploadKey) (block : BlockValue)
    (payload : Bytes) (now : ℕ) : Within cap perIp (u.acceptLater key block payload now).1 := by
  rw [Uploads.acceptLater]
  cases hl : u.entries.lookup key with
  | none => exact h.remove key
  | some upload =>
    simp only
    split
    · exact h.remove key
    split
    · exact h.remove key
    · split
      · have hp := keys_insert_perm (mem_iff_lookup.2 ⟨_, hl⟩)
        exact h.of_keys rfl ((hp _).length_eq.trans_le h.total) fun ip =>
          ((hp _).filter _).length_eq.trans_le (h.heldKeys_le ip)
      · exact h.remove key

theorem Within.step (c : Call) : Within cap perIp (u.step c) := by
  have hl := h.expire c.request.now
  simp only [Uploads.step, call, accept]
  split
  · exact hl.remove c.key
  split
  · exact hl.remove c.key
  split
  · exact hl.remove c.key
  · split
    · exact hl.acceptFirst ..
    · exact hl.acceptLater ..

end

end

theorem within_run (cap perIp ttl maxBody : ℕ) (calls : List Call) :
    Within (max cap 1) (max perIp 1) (run step (new cap perIp ttl maxBody) calls) := by
  have hpos : 0 < max perIp 1 := Nat.lt_of_lt_of_le Nat.one_pos (Nat.le_max_right _ _)
  exact run_invariant ⟨rfl, rfl, hpos, Nat.zero_le _, fun _ => Nat.zero_le _⟩
    (fun _ c h => h.step c) calls

/-! ## The part of one upload -/

/-- The upload, if it was touched within the time to live. -/
def live (ttl now : ℕ) (upload : Option Upload) : Option Upload :=
  upload.filter fun u => now - u.touched < ttl

/-- The body and the number of blocks of an upload that completes. -/
def completion : UploadStep → Option (Bytes × ℕ)
  | .complete body blocks _ => some (body, blocks)
  | .continue _ => none
  | .refuse .. => none

def soloLater (maxBody : ℕ) (upload : Option Upload) (r : Request) :
    Option Upload × Option (Bytes × ℕ) :=
  match upload with
  | none => (none, none)
  | some held =>
    if held.body.length ≠ r.block.offset then (none, none)
    else if maxBody < held.body.length + r.payload.length then (none, none)
    else if r.block.more then (some { body := held.body ++ r.payload, touched := r.now }, none)
    else (none, some (held.body ++ r.payload, r.block.num + 1))

/-- The table as one upload sees it: the upload after a block, and its completion. -/
def solo (ttl maxBody : ℕ) (upload : Option Upload) (r : Request) :
    Option Upload × Option (Bytes × ℕ) :=
  if maxBody < r.size1.getD 0 then (none, none)
  else if r.block.more ∧ r.payload.length ≠ r.block.size then (none, none)
  else if r.block.size < r.payload.length then (none, none)
  else if r.block.num = 0 then
    if r.block.more then (some { body := r.payload, touched := r.now }, none)
    else (none, some (r.payload, 1))
  else soloLater maxBody (live ttl r.now upload) r

/-- A call that starts an upload finds room for it under both caps. -/
def CapsNotHit (u : Uploads) (c : Call) : Prop :=
  c.request.block.num = 0 → c.request.block.more = true →
    (((u.expire c.request.now).remove c.key).heldKeys c.key.resource.peer.ip).length < u.perIp ∧
      ((u.expire c.request.now).remove c.key).entries.keys.length < u.cap

instance (u : Uploads) (c : Call) : Decidable (CapsNotHit u c) :=
  inferInstanceAs (Decidable (_ → _ → _ ∧ _))

variable {u : Uploads} {key : UploadKey} {rank : UploadKey → ℕ} {now szx szx' : ℕ}
  {block : BlockValue} {payload : Bytes} {c : Call} {held upload : Option Upload}

theorem evict_of_room (rank : UploadKey → ℕ) (ip : IpAddr) (rounds : ℕ)
    (h : (u.heldKeys ip).length < u.perIp) : evict rank ip rounds u = u := by
  cases rounds with
  | zero => rfl
  | succ rounds => rw [evict, length_held, if_pos h]

theorem lookup_expire (u : Uploads) (now : ℕ) (key : UploadKey) :
    (u.expire now).entries.lookup key = live u.ttl now (u.entries.lookup key) := by
  rw [expire, lookup_retain]
  rfl

/-- The table with another upload for one of its keys, or none. -/
def put (u : Uploads) (key : UploadKey) : Option Upload → Uploads
  | none => u.remove key
  | some upload => { u with entries := u.entries.insert key upload }

theorem lookup_put (u : Uploads) (key : UploadKey) (upload : Option Upload) :
    (u.put key upload).entries.lookup key = upload := by
  cases upload with
  | none => exact lookup_erase _ _
  | some upload => exact lookup_insert _

theorem lookup_put_ne {key' : UploadKey} (h : key' ≠ key) (upload : Option Upload) :
    (u.put key upload).entries.lookup key' = u.entries.lookup key' := by
  cases upload with
  | none => exact lookup_erase_ne h
  | some upload => exact lookup_insert_ne h

theorem put_remove (upload : Upload) :
    (u.remove key).put key (some upload) = u.put key (some upload) := by
  have he : (u.entries.erase key).insert key upload = u.entries.insert key upload :=
    AList.ext (congrArg (cons (⟨key, upload⟩ : Σ _ : UploadKey, Upload))
      (kerase_of_notMem_keys (notMem_keys_kerase key u.entries.nodupKeys)))
  exact congrArg (fun entries => { u with entries }) he

theorem acceptFirst_eq (hr : block.more = true →
      ((u.remove key).heldKeys key.resource.peer.ip).length < u.perIp ∧
        (u.remove key).entries.keys.length < u.cap) :
    u.acceptFirst rank key block payload now =
      if block.more then (u.put key (some { body := payload, touched := now }), .continue block)
      else (u.remove key, .complete payload 1 block) := by
  cases hm : block.more with
  | false => simp only [acceptFirst, hm, Bool.not_false, if_true, Bool.false_eq_true, if_false]
  | true =>
    have hf : ¬ (u.remove key).cap ≤ (u.remove key).entries.keys.length := Nat.not_le.2 (hr hm).2
    simp only [acceptFirst, hm, Bool.not_true, Bool.false_eq_true, if_false,
      evict_of_room rank key.resource.peer.ip _ (hr hm).1, if_neg hf, if_true]
    exact congrArg (·, _) (put_remove _)

theorem step_eq (hc : CapsNotHit u c) : u.step c = (u.expire c.request.now).put c.key
        (solo u.ttl u.maxBody (u.entries.lookup c.key) c.request).1 ∧
      completion (u.call c).2 = (solo u.ttl u.maxBody (u.entries.lookup c.key) c.request).2 := by
  have hmax : (u.expire c.request.now).maxBody = u.maxBody := rfl
  simp only [step, call, accept, solo, hmax]
  -- the checks of the two go the same way
  split
  · exact ⟨rfl, rfl⟩
  split
  · exact ⟨rfl, rfl⟩
  split
  · exact ⟨rfl, rfl⟩
  split
  · rename_i hnum
    rw [acceptFirst_eq (hc hnum)]
    split <;> exact ⟨rfl, rfl⟩
  · rw [← lookup_expire]
    cases hh : (u.expire c.request.now).entries.lookup c.key with
    | none => simp only [acceptLater, hh, soloLater, put, completion, and_self]
    | some held =>
      simp only [acceptLater, hh, soloLater, hmax]
      split
      · exact ⟨rfl, rfl⟩
      split
      · exact ⟨rfl, rfl⟩
      split <;> exact ⟨rfl, rfl⟩

def requestsOf (key : UploadKey) (calls : List Call) : List Request :=
  (calls.filter fun c => c.key = key).map Call.request

/-- What the calls of one upload return: the bodies that complete. -/
def completed (key : UploadKey) : Uploads → List Call → List (Bytes × ℕ)
  | _, [] => []
  | u, c :: calls =>
    (if c.key = key then (completion (u.call c).2).toList else []) ++
      completed key (u.step c) calls

/-- The upload after its blocks and the bodies that complete, on its own. -/
def soloRun (ttl maxBody : ℕ) : Option Upload → List Request → Option Upload × List (Bytes × ℕ)
  | upload, [] => (upload, [])
  | upload, r :: rest =>
    let (upload, done) := solo ttl maxBody upload r
    let (upload, more) := soloRun ttl maxBody upload rest
    (upload, done.toList ++ more)

/-- The table holds `upload`, or has dropped it since it is too old at every later instant. -/
def Shows (ttl now : ℕ) (held upload : Option Upload) : Prop :=
  (held = none ∨ held = upload) ∧ ∀ later, now ≤ later → live ttl later held = live ttl later upload

theorem live_some (ttl now : ℕ) (u : Upload) :
    live ttl now (some u) = if now - u.touched < ttl then some u else none := by
  simp [live, Option.filter_some]

theorem live_live {ttl later : ℕ} (h : now ≤ later) (upload : Option Upload) :
    live ttl later (live ttl now upload) = live ttl later upload := by
  cases upload with
  | none => rfl
  | some u =>
    rw [live_some ttl now]
    split
    · rfl
    · rw [live_some, if_neg (by omega)]
      rfl

theorem Shows.expire {ttl later : ℕ} (h : Shows ttl now held upload) (hl : now ≤ later) :
    Shows ttl later (live ttl later held) upload := by
  refine ⟨?_, ?_⟩
  · cases held with
    | none => exact .inl rfl
    | some u =>
      rw [live_some]
      split
      · exact h.1
      · exact .inl rfl
  · intro instant hi
    rw [live_live hi, h.2 instant (hl.trans hi)]

theorem soloRun_cons (ttl maxBody : ℕ) (upload : Option Upload) (r : Request)
    (rest : List Request) :
    soloRun ttl maxBody upload (r :: rest) =
      ((soloRun ttl maxBody (solo ttl maxBody upload r).1 rest).1,
        (solo ttl maxBody upload r).2.toList ++
          (soloRun ttl maxBody (solo ttl maxBody upload r).1 rest).2) := rfl

/-- As long as the caps are not hit, an upload completes as if it were alone. -/
theorem completed_eq_soloRun (key : UploadKey) {calls : List Call}
    (hca : Meets step CapsNotHit u calls)
    (hcl : List.Pairwise (· ≤ ·) (now :: calls.map fun c => c.request.now))
    (hsh : Shows u.ttl now (u.entries.lookup key) upload) :
    completed key u calls = (soloRun u.ttl u.maxBody upload (requestsOf key calls)).2 ∧
      ∃ later, Shows u.ttl later ((run step u calls).entries.lookup key)
        (soloRun u.ttl u.maxBody upload (requestsOf key calls)).1 := by
  induction calls generalizing u now upload with
  | nil => exact ⟨rfl, now, hsh⟩
  | cons c calls ih =>
    obtain ⟨hf, hr⟩ := meets_cons.1 hca
    rw [map_cons, pairwise_cons] at hcl
    have hnow : now ≤ c.request.now := hcl.1 _ mem_cons_self
    obtain ⟨hst, hc⟩ := step_eq hf
    have hs : (u.step c).settings = u.settings := by
      rw [hst]
      cases (solo u.ttl u.maxBody (u.entries.lookup c.key) c.request).1 <;> rfl
    have httl : (u.step c).ttl = u.ttl := congrArg (fun s => s.2.2.1) hs
    have hmax : (u.step c).maxBody = u.maxBody := congrArg (fun s => s.2.2.2) hs
    rw [run_cons, completed]
    by_cases hkey : c.key = key
    · subst hkey
      have hso : solo u.ttl u.maxBody (u.entries.lookup c.key) c.request =
          solo u.ttl u.maxBody upload c.request := by
        rw [solo, solo, hsh.2 _ hnow]
      rw [hso] at hst hc
      have hl := lookup_put (u.expire c.request.now) c.key (solo u.ttl u.maxBody upload c.request).1
      rw [← hst] at hl
      have hn : Shows (u.step c).ttl c.request.now ((u.step c).entries.lookup c.key)
          (solo u.ttl u.maxBody upload c.request).1 :=
        ⟨.inr hl, fun _ _ => by rw [hl]⟩
      have ht := ih hr hcl.2 hn
      rw [httl, hmax] at ht
      rw [requestsOf, filter_cons_of_pos (by simp), map_cons, soloRun_cons, if_pos rfl, hc, ht.1]
      exact ⟨rfl, ht.2⟩
    · have hn := hsh.expire hnow
      rw [← lookup_expire, ← lookup_put_ne (Ne.symm hkey) _, ← hst, ← httl] at hn
      have ht := ih hr hcl.2 hn
      rw [httl, hmax] at ht
      rw [requestsOf, filter_cons_of_neg (by simpa using hkey), if_neg hkey, nil_append]
      exact ht

/-! ## Blocks -/

/-- The blocks from the `i`-th on, which starts at `offset`; `szx i` is the size exponent of the
`i`-th block. A round moves `offset` on. -/
def blocksFrom (payload : Bytes) (szx : ℕ → ℕ) : ℕ → ℕ → ℕ → List (BlockValue × Bytes)
  | 0, _, _ => []
  | rounds + 1, i, offset =>
    let size := szxSize (szx i)
    let more := decide (offset + size < payload.length)
    ({ num := offset / size, more, szx := szx i }, (payload.drop offset).take size) ::
      if more then blocksFrom payload szx rounds (i + 1) (offset + size) else []

/-- The blocks of a payload, their numbers counted in blocks of the size of each. -/
def blocks (payload : Bytes) (szx : ℕ → ℕ) : List (BlockValue × Bytes) :=
  blocksFrom payload szx (payload.length + 1) 0 0

/-- The requests for the blocks, each sent at the instants of its list. -/
def feed (size1 : Option ℕ) : List (BlockValue × Bytes) → List (List ℕ) → List Request
  | b :: bs, ts :: times =>
    (ts.map fun now => { block := b.1, payload := b.2, size1, now }) ++ feed size1 bs times
  | _, _ => []

def lastNum (bs : List (BlockValue × Bytes)) : ℕ := bs.getLast?.elim 0 fun b => b.1.num

/-- Each block comes within the time to live after the one before it, and each but the last is
sent once. -/
def onTime (ttl : ℕ) : ℕ → List (List ℕ) → Bool
  | _, [] => true
  | before, ts :: rest =>
    ts.head?.all (fun t => t - before < ttl) && (rest.isEmpty || ts.length == 1) &&
      onTime ttl (ts.headD before) rest

theorem onTime_nil (ttl before : ℕ) : onTime ttl before [] = true := rfl

/-- The transmissions that leave an upload undisturbed. The first block may be sent again when
others follow, and the last when others came before. -/
def undisturbed (ttl : ℕ) : List (List ℕ) → Bool
  | [] => true
  | [ts] => ts.length == 1
  | ts :: rest => onTime ttl (ts.getLast?.getD 0) rest

theorem szxSize_pos (szx : ℕ) : 0 < szxSize szx := Nat.two_pow_pos _

theorem szxSize_dvd (h : szx ≤ szx') : szxSize szx ∣ szxSize szx' :=
  Nat.pow_dvd_pow 2 (by omega)

section

variable {payload : Bytes} {szx : ℕ → ℕ} {i offset ttl maxBody : ℕ} {bs : List (BlockValue × Bytes)}
  {rs : List Request} {size1 : Option ℕ} {times : List (List ℕ)}

theorem num_ne_zero (hdvd : szxSize (szx i) ∣ offset) (hpos : 0 < offset) :
    offset / szxSize (szx i) ≠ 0 :=
  Nat.ne_of_gt (Nat.div_pos (Nat.le_of_dvd hpos hdvd) (szxSize_pos _))

theorem dvd_next (hszx : Antitone szx) (hdvd : szxSize (szx i) ∣ offset) :
    szxSize (szx (i + 1)) ∣ offset + szxSize (szx i) := by
  have hs := szxSize_dvd (hszx (Nat.le_succ i))
  exact Nat.dvd_add (Nat.dvd_trans hs hdvd) hs

/-- The `i`-th block, which starts at `offset`. -/
def blockAt (payload : Bytes) (szx : ℕ → ℕ) (i offset : ℕ) : BlockValue × Bytes :=
  ({ num := offset / szxSize (szx i),
     more := decide (offset + szxSize (szx i) < payload.length), szx := szx i },
    (payload.drop offset).take (szxSize (szx i)))

theorem blocksFrom_more (rounds : ℕ) (h : offset + szxSize (szx i) < payload.length) :
    blocksFrom payload szx (rounds + 1) i offset = blockAt payload szx i offset ::
        blocksFrom payload szx rounds (i + 1) (offset + szxSize (szx i)) := by
  simp only [blocksFrom, blockAt, decide_eq_true h, if_true]

theorem blocksFrom_last (rounds : ℕ) (h : payload.length ≤ offset + szxSize (szx i)) :
    blocksFrom payload szx (rounds + 1) i offset = [blockAt payload szx i offset] := by
  simp only [blocksFrom, blockAt, decide_eq_false (not_lt.2 h), Bool.false_eq_true, if_false]

theorem blocksFrom_ne_nil (rounds i offset : ℕ) :
    blocksFrom payload szx (rounds + 1) i offset ≠ [] :=
  cons_ne_nil _ _

theorem lastNum_cons (b : BlockValue × Bytes) (h : bs ≠ []) : lastNum (b :: bs) = lastNum bs := by
  rw [lastNum, lastNum, getLast?_cons_of_ne_nil h]

/-- The offset of a block is what that many blocks of its size take, if all sizes before it are
the same, and more otherwise. -/
structure Placed (szx : ℕ → ℕ) (i offset : ℕ) : Prop where
  dvd : szxSize (szx i) ∣ offset
  le : i * szxSize (szx i) ≤ offset
  same : offset = i * szxSize (szx i) ↔ ∀ j ≤ i, szx j = szx 0

theorem Placed.next (hszx : Antitone szx) (hmax : ∀ i, szx i ≤ maxSzx) (h : Placed szx i offset) :
    Placed szx (i + 1) (offset + szxSize (szx i)) := by
  have hdvd := szxSize_dvd (hszx (Nat.le_succ i))
  have hsi : szxSize (szx (i + 1)) ≤ szxSize (szx i) := Nat.le_of_dvd (szxSize_pos _) hdvd
  have hmul : (i + 1) * szxSize (szx (i + 1)) ≤ (i + 1) * szxSize (szx i) :=
    Nat.mul_le_mul_left _ hsi
  have hle := h.le
  rw [Nat.succ_mul i (szxSize (szx i))] at hmul
  refine ⟨dvd_next hszx h.dvd, by omega, ?_⟩
  constructor
  · intro heq
    have ho : offset = i * szxSize (szx i) := by omega
    have hs : (i + 1) * szxSize (szx (i + 1)) = (i + 1) * szxSize (szx i) := by
      rw [Nat.succ_mul i (szxSize (szx i))]
      omega
    have hse : szx (i + 1) = szx i := by
      have hexp : min (szx (i + 1)) maxSzx + 4 = min (szx i) maxSzx + 4 :=
        Nat.pow_right_injective (Nat.le_refl 2) (Nat.eq_of_mul_eq_mul_left (Nat.succ_pos i) hs)
      have h₁ := hmax i
      have h₂ := hmax (i + 1)
      omega
    intro j hj
    obtain hj | rfl := Nat.le_succ_iff.1 hj
    · exact h.same.1 ho j hj
    · rw [hse]
      exact h.same.1 ho i (Nat.le_refl i)
  · intro hsa
    have hse : szx (i + 1) = szx i := by
      rw [hsa (i + 1) (Nat.le_refl _), hsa i (Nat.le_succ i)]
    rw [h.same.2 fun j hj => hsa j (Nat.le_succ_of_le hj), hse, Nat.succ_mul]

theorem Placed.lastNum_singleton (h : Placed szx i offset) :
    lastNum [blockAt payload szx i offset] + 1 = i + 1 ↔ ∀ j < i + 1, szx j = szx 0 := by
  have hnum : offset / szxSize (szx i) = i ↔ offset = i * szxSize (szx i) :=
    Nat.div_eq_iff_eq_mul_left (szxSize_pos _) h.dvd
  change offset / szxSize (szx i) + 1 = i + 1 ↔ _
  rw [Nat.add_right_cancel_iff, hnum, h.same]
  exact forall_congr' fun j => by rw [Nat.lt_succ_iff]

theorem lastNum_blocksFrom (hszx : Antitone szx) (hmax : ∀ i, szx i ≤ maxSzx) {rounds : ℕ}
    (hr : payload.length ≤ offset + rounds) (hp : Placed szx i offset) :
    lastNum (blocksFrom payload szx (rounds + 1) i offset) + 1 =
        i + (blocksFrom payload szx (rounds + 1) i offset).length ↔
      ∀ j < i + (blocksFrom payload szx (rounds + 1) i offset).length, szx j = szx 0 := by
  induction rounds generalizing i offset with
  | zero =>
    rw [blocksFrom_last 0 (by omega)]
    exact hp.lastNum_singleton
  | succ rounds ih =>
    have hpos := szxSize_pos (szx i)
    by_cases hm : offset + szxSize (szx i) < payload.length
    · have hre := ih (by omega) (hp.next hszx hmax)
      rw [Nat.add_right_comm] at hre
      rw [blocksFrom_more _ hm, lastNum_cons _ (blocksFrom_ne_nil _ _ _), length_cons]
      exact hre
    · rw [blocksFrom_last _ (by omega)]
      exact hp.lastNum_singleton

/-! ## An upload on its own -/

theorem solo_none {r : Request} (hnum : r.block.num ≠ 0) :
    solo ttl maxBody none r = (none, none) := by
  rw [solo, if_neg hnum]
  split
  · rfl
  · split
    · rfl
    · split <;> rfl

theorem soloRun_none (h : ∀ r ∈ rs, r.block.num ≠ 0) :
    soloRun ttl maxBody none rs = (none, []) := by
  induction rs with
  | nil => rfl
  | cons r rs ih =>
    rw [forall_mem_cons] at h
    rw [soloRun_cons, solo_none h.1, ih h.2]
    rfl

theorem soloRun_append (upload : Option Upload) (front rest : List Request) :
    soloRun ttl maxBody upload (front ++ rest) =
      ((soloRun ttl maxBody (soloRun ttl maxBody upload front).1 rest).1,
        (soloRun ttl maxBody upload front).2 ++
          (soloRun ttl maxBody (soloRun ttl maxBody upload front).1 rest).2) := by
  induction front generalizing upload with
  | nil => rfl
  | cons r front ih =>
    rw [cons_append, soloRun_cons, soloRun_cons, ih, append_assoc]

theorem num_ne_zero_of_mem_blocksFrom (hszx : Antitone szx) {rounds : ℕ}
    (hdvd : szxSize (szx i) ∣ offset) (hpos : 0 < offset) :
    ∀ b ∈ blocksFrom payload szx rounds i offset, b.1.num ≠ 0 := by
  induction rounds generalizing i offset with
  | zero => exact nofun
  | succ rounds ih =>
    have hnum := num_ne_zero hdvd hpos
    by_cases hm : offset + szxSize (szx i) < payload.length
    · have hn := dvd_next hszx hdvd
      rw [blocksFrom_more _ hm, forall_mem_cons]
      exact ⟨hnum, ih hn (by omega)⟩
    · rw [blocksFrom_last _ (by omega), forall_mem_singleton]
      exact hnum

theorem of_mem_feed {r : Request} (hr : r ∈ feed size1 bs times) :
    r.size1 = size1 ∧ ∃ b ∈ bs, r.block = b.1 := by
  induction bs generalizing times with
  | nil => cases hr
  | cons b bs ih =>
    cases times with
    | nil => cases hr
    | cons ts times =>
      rw [feed, mem_append, mem_map] at hr
      obtain ⟨t, -, rfl⟩ | hr := hr
      · exact ⟨rfl, b, mem_cons_self, rfl⟩
      · exact (ih hr).imp_right fun ⟨b', hb', heq⟩ => ⟨b', mem_cons_of_mem _ hb', heq⟩

/-- A block of the payload, sent at an instant. -/
def requestAt (payload : Bytes) (szx : ℕ → ℕ) (size1 : Option ℕ) (i offset now : ℕ) : Request :=
  let (block, payload) := blockAt payload szx i offset
  { block, payload, size1, now }

theorem length_chunk (payload : Bytes) (size offset : ℕ) :
    ((payload.drop offset).take size).length = min size (payload.length - offset) := by
  rw [length_take, length_drop]

theorem solo_requestAt (hsize1 : size1.getD 0 ≤ maxBody) (hdvd : szxSize (szx i) ∣ offset)
    (hpos : 0 < offset) {body : Bytes} {before : ℕ} :
    solo ttl maxBody (some { body, touched := before }) (requestAt payload szx size1 i offset now) =
      if now - before < ttl ∧ body.length = offset ∧
          offset + min (szxSize (szx i)) (payload.length - offset) ≤ maxBody then
        if offset + szxSize (szx i) < payload.length then
          (some { body := body ++ (payload.drop offset).take (szxSize (szx i)), touched := now },
            none) else (none, some (body ++ (payload.drop offset).take (szxSize (szx i)),
            offset / szxSize (szx i) + 1)) else (none, none) := by
  have hnum := num_ne_zero hdvd hpos
  have ho : offset / szxSize (szx i) * szxSize (szx i) = offset := Nat.div_mul_cancel hdvd
  have hf : ¬ (offset + szxSize (szx i) < payload.length ∧
      min (szxSize (szx i)) (payload.length - offset) ≠ szxSize (szx i)) := by omega
  have hfi : ¬ szxSize (szx i) < min (szxSize (szx i)) (payload.length - offset) := by omega
  simp only [solo, requestAt, blockAt, BlockValue.size, length_chunk, if_neg (Nat.not_lt.2 hsize1),
    if_neg hf, if_neg hfi, if_neg hnum, live_some, decide_eq_true_eq]
  by_cases hl : now - before < ttl
  · simp only [if_pos hl, soloLater, BlockValue.offset, BlockValue.size, ho, length_chunk,
      decide_eq_true_eq]
    by_cases hb : body.length = offset
    · subst hb
      by_cases hmax : body.length + min (szxSize (szx i)) (payload.length - body.length) ≤ maxBody
      · simp [hl, hmax, Nat.not_lt.2 hmax]
      · simp [hmax, Nat.lt_of_not_le hmax]
    · simp [hb]
  · rw [if_neg hl, if_neg fun h => hl h.1]
    rfl

theorem feed_blocksFrom (size1 : Option ℕ) (rounds i offset : ℕ) (ts : List ℕ)
    (times : List (List ℕ)) :
    feed size1 (blocksFrom payload szx (rounds + 1) i offset) (ts :: times) =
      ts.map (requestAt payload szx size1 i offset) ++
        feed size1 (if offset + szxSize (szx i) < payload.length then
          blocksFrom payload szx rounds (i + 1) (offset + szxSize (szx i)) else []) times := by
  simp only [blocksFrom, feed, decide_eq_true_eq]
  rfl

section

variable {size1 : Option ℕ} (hsize1 : size1.getD 0 ≤ maxBody) {i offset before t : ℕ}
  (hdvd : szxSize (szx i) ∣ offset) (hpos : 0 < offset) (hlt : offset < payload.length)
  {later : List ℕ}

include hsize1 hdvd hpos hlt

theorem soloRun_middle (hm : offset + szxSize (szx i) < payload.length)
    (hrs : ∀ r ∈ rs, r.block.num ≠ 0) :
    soloRun ttl maxBody (some { body := payload.take offset, touched := before })
        ((t :: later).map (requestAt payload szx size1 i offset) ++ rs) =
      if t - before < ttl ∧ offset + szxSize (szx i) ≤ maxBody ∧ later = [] then soloRun ttl maxBody
          (some { body := payload.take (offset + szxSize (szx i)), touched := t }) rs
      else (none, []) := by
  have hb : (payload.take offset).length = offset := length_take_of_le (Nat.le_of_lt hlt)
  have hc : min (szxSize (szx i)) (payload.length - offset) = szxSize (szx i) := by omega
  have hn : payload.take offset ++ (payload.drop offset).take (szxSize (szx i)) =
      payload.take (offset + szxSize (szx i)) := take_add.symm
  have hlo : ∀ later' : List ℕ, soloRun ttl maxBody none
      (later'.map (requestAt payload szx size1 i offset) ++ rs) = (none, []) :=
    fun later' => soloRun_none (forall_mem_append.2 ⟨forall_mem_map.2 fun _ _ => num_ne_zero hdvd hpos, hrs⟩)
  rw [map_cons, cons_append, soloRun_cons, solo_requestAt hsize1 hdvd hpos, hb, hc, if_pos hm, hn]
  by_cases hok : t - before < ttl ∧ offset + szxSize (szx i) ≤ maxBody
  · rw [if_pos ⟨hok.1, rfl, hok.2⟩]
    cases later with
    | nil =>
      rw [if_pos ⟨hok.1, hok.2, rfl⟩]
      rfl
    | cons t' later =>
      have hl : (payload.take (offset + szxSize (szx i))).length ≠ offset := by
        rw [length_take_of_le (Nat.le_of_lt hm)]
        have := szxSize_pos (szx i)
        omega
      rw [map_cons, cons_append, soloRun_cons, solo_requestAt hsize1 hdvd hpos,
        if_neg fun h => hl h.2.1, hlo, if_neg fun h => cons_ne_nil _ _ h.2.2]
      rfl
  · rw [if_neg fun h => hok ⟨h.1, h.2.2⟩, if_neg fun h => hok ⟨h.1, h.2.1⟩, hlo]
    rfl

theorem soloRun_last (hl : payload.length ≤ offset + szxSize (szx i)) :
    soloRun ttl maxBody (some { body := payload.take offset, touched := before })
        ((t :: later).map (requestAt payload szx size1 i offset)) =
      (none, if t - before < ttl ∧ payload.length ≤ maxBody then
        [(payload, offset / szxSize (szx i) + 1)] else []) := by
  have hb : (payload.take offset).length = offset := length_take_of_le (Nat.le_of_lt hlt)
  have hc : offset + min (szxSize (szx i)) (payload.length - offset) = payload.length := by
    omega
  have hw : payload.take offset ++ (payload.drop offset).take (szxSize (szx i)) = payload := by
    rw [← take_add, take_of_length_le hl]
  have hlo : soloRun ttl maxBody none (later.map (requestAt payload szx size1 i offset)) =
      (none, []) := soloRun_none (forall_mem_map.2 fun _ _ => num_ne_zero hdvd hpos)
  rw [map_cons, soloRun_cons, solo_requestAt hsize1 hdvd hpos, hb, hc, if_neg (Nat.not_lt.2 hl), hw]
  by_cases hok : t - before < ttl ∧ payload.length ≤ maxBody
  · rw [if_pos ⟨hok.1, rfl, hok.2⟩, if_pos hok, hlo]
    rfl
  · rw [if_neg fun h => hok ⟨h.1, h.2.2⟩, if_neg hok, hlo]
    rfl

end

theorem onTime_cons (ttl before t : ℕ) (later : List ℕ) (rest : List (List ℕ)) :
    onTime ttl before ((t :: later) :: rest) = true ↔
      t - before < ttl ∧ (rest = [] ∨ later = []) ∧ onTime ttl t rest = true := by
  simp [onTime, and_assoc]

theorem soloRun_rest (hszx : Antitone szx) (hsize1 : size1.getD 0 ≤ maxBody)
    {rounds before : ℕ} (hr : payload.length ≤ offset + rounds)
    (hdvd : szxSize (szx i) ∣ offset) (hpos : 0 < offset) (hlt : offset < payload.length)
    (hl : times.length = (blocksFrom payload szx (rounds + 1) i offset).length)
    (hs : ∀ ts ∈ times, ts ≠ []) :
    soloRun ttl maxBody (some { body := payload.take offset, touched := before })
        (feed size1 (blocksFrom payload szx (rounds + 1) i offset) times) =
      (none, if onTime ttl before times ∧ payload.length ≤ maxBody then
        [(payload, lastNum (blocksFrom payload szx (rounds + 1) i offset) + 1)] else []) := by
  induction rounds generalizing i offset before times with
  | zero => omega
  | succ rounds ih =>
    match times, hl, hs with
    | [], hl, _ =>
      exact absurd (List.length_eq_zero_iff.1 hl.symm) (blocksFrom_ne_nil _ _ _)
    | [] :: rest, _, hs => exact absurd rfl (hs [] mem_cons_self)
    | (t :: later) :: rest, hl, hs =>
      have hsi := szxSize_pos (szx i)
      rw [feed_blocksFrom]
      by_cases hm : offset + szxSize (szx i) < payload.length
      · have hn := dvd_next hszx hdvd
        have hnu : ∀ b ∈ blocksFrom payload szx (rounds + 1) (i + 1)
            (offset + szxSize (szx i)), b.1.num ≠ 0 :=
          num_ne_zero_of_mem_blocksFrom hszx hn (by omega)
        rw [blocksFrom_more _ hm, length_cons, length_cons, Nat.add_right_cancel_iff] at hl
        have hne : ∀ times', ∀ r ∈ feed size1 _ times', r.block.num ≠ 0 := fun _ r hr => by
          obtain ⟨-, b, hb, heq⟩ := of_mem_feed hr
          exact heq ▸ hnu b hb
        rw [if_pos hm, soloRun_middle hsize1 hdvd hpos hlt hm (hne _), blocksFrom_more _ hm,
          lastNum_cons _ (blocksFrom_ne_nil _ _ _)]
        rw [ih (by omega) hn (by omega) hm hl
          fun ts hts => hs ts (mem_cons_of_mem _ hts)]
        simp only [onTime_cons]
        have hre : rest ≠ [] := by
          rintro rfl
          exact blocksFrom_ne_nil _ _ _ (length_eq_zero_iff.1 hl.symm)
        by_cases hok : t - before < ttl ∧ later = []
        · by_cases hf : payload.length ≤ maxBody
          · simp [hok, hf, (by omega : offset + szxSize (szx i) ≤ maxBody)]
          · simp [hf]
        · rw [if_neg fun h => hok ⟨h.1, h.2.2⟩,
            if_neg fun h => hok ⟨h.1.1, h.1.2.1.resolve_left hre⟩]
      · have hla : payload.length ≤ offset + szxSize (szx i) := Nat.not_lt.1 hm
        rw [blocksFrom_last _ hla, length_cons, length_singleton,
          Nat.add_eq_right, length_eq_zero_iff] at hl
        subst hl
        rw [if_neg hm, blocksFrom_last _ hla]
        simp only [feed, append_nil, soloRun_last hsize1 hdvd hpos hlt hla, onTime_cons,
          onTime_nil, true_or, and_true]
        rfl

theorem solo_first (hsize1 : size1.getD 0 ≤ maxBody) (upload : Option Upload) (now : ℕ) :
    solo ttl maxBody upload (requestAt payload szx size1 0 0 now) =
      if szxSize (szx 0) < payload.length then
        (some { body := payload.take (szxSize (szx 0)), touched := now }, none)
      else (none, some (payload, 1)) := by
  have hf : ¬ (szxSize (szx 0) < payload.length ∧
      min (szxSize (szx 0)) payload.length ≠ szxSize (szx 0)) := by omega
  have hfi : ¬ szxSize (szx 0) < min (szxSize (szx 0)) payload.length := by omega
  simp only [solo, requestAt, blockAt, BlockValue.size, if_neg (Nat.not_lt.2 hsize1), Nat.zero_add,
    Nat.zero_div, drop_zero, length_take, decide_eq_true_eq, if_neg hf, if_neg hfi,
    if_true]
  split
  · rfl
  · rw [take_of_length_le (by omega)]

variable {ts : List ℕ} {upload : Option Upload}

theorem soloRun_map {f : ℕ → Request} {g : ℕ → Option Upload} {done : Option (Bytes × ℕ)}
    (h : ∀ upload t, solo ttl maxBody upload (f t) = (g t, done)) (hts : ts ≠ []) :
    soloRun ttl maxBody upload (ts.map f) =
      (g (ts.getLast?.getD 0), (replicate ts.length done.toList).flatten) := by
  induction ts generalizing upload with
  | nil => exact absurd rfl hts
  | cons t ts ih =>
    rw [map_cons, soloRun_cons, h]
    cases ts with
    | nil => simp [soloRun]
    | cons t' ts =>
      rw [ih (cons_ne_nil _ _), getLast?_cons_cons]
      rfl

theorem soloRun_first (hsize1 : size1.getD 0 ≤ maxBody) (hm : szxSize (szx 0) < payload.length)
    (hts : ts ≠ []) : soloRun ttl maxBody upload (ts.map (requestAt payload szx size1 0 0)) =
      (some { body := payload.take (szxSize (szx 0)), touched := ts.getLast?.getD 0 }, []) := by
  rw [soloRun_map (fun upload t => by rw [solo_first hsize1, if_pos hm]) hts]
  simp

theorem soloRun_announced (h : ∀ r ∈ rs, maxBody < r.size1.getD 0) (hrs : rs ≠ [])
    (upload : Option Upload) : soloRun ttl maxBody upload rs = (none, []) := by
  induction rs generalizing upload with
  | nil => exact absurd rfl hrs
  | cons r rs ih =>
    rw [forall_mem_cons] at h
    rw [soloRun_cons, solo, if_pos h.1]
    cases rs with
    | nil => rfl
    | cons r' rs =>
      rw [ih h.2 (cons_ne_nil _ _)]
      rfl

/-- The conditions under which an upload completes once, with its payload and the number of its
blocks. -/
structure Deliverable (ttl maxBody : ℕ) (payload : Bytes) (szx : ℕ → ℕ) (size1 : Option ℕ)
    (times : List (List ℕ)) : Prop where
  announced : size1.getD 0 ≤ maxBody
  fits : 1 < (blocks payload szx).length → payload.length ≤ maxBody
  undisturbed : undisturbed ttl times = true
  sameSize : ∀ i < (blocks payload szx).length, szx i = szx 0

/-- Once its last block came, an upload is over, and it delivered its payload with the number of
its blocks under the conditions above. -/
def Settles (ttl maxBody : ℕ) (payload : Bytes) (szx : ℕ → ℕ) (size1 : Option ℕ)
    (times : List (List ℕ)) (upload : Option Upload) : Prop :=
  (soloRun ttl maxBody upload (feed size1 (blocks payload szx) times)).1 = none ∧
    ((soloRun ttl maxBody upload (feed size1 (blocks payload szx) times)).2 =
        [(payload, (blocks payload szx).length)] ↔
      Deliverable ttl maxBody payload szx size1 times)

theorem blocks_one (ho : payload.length ≤ szxSize (szx 0)) : (blocks payload szx).length = 1 := by
  rw [blocks, blocksFrom_last _ (by omega)]
  rfl

theorem settles_one (hsize1 : size1.getD 0 ≤ maxBody) (ho : payload.length ≤ szxSize (szx 0))
    (hts : ts ≠ []) (upload : Option Upload) :
    Settles ttl maxBody payload szx size1 [ts] upload := by
  have hb : (blocks payload szx).length = 1 := blocks_one ho
  have hrun : soloRun ttl maxBody upload (feed size1 (blocks payload szx) [ts]) =
      (none, replicate ts.length (payload, 1)) := by
    rw [blocks, feed_blocksFrom, Nat.zero_add, if_neg (Nat.not_lt.2 ho)]
    simp only [feed, append_nil]
    rw [soloRun_map (fun upload t => by rw [solo_first hsize1, if_neg (Nat.not_lt.2 ho)]) hts]
    simp
  rw [Settles, hrun, hb]
  refine ⟨rfl, ?_, ?_⟩
  · intro heq
    have hl : ts.length = 1 := by
      simpa only [length_replicate, length_singleton] using congrArg length heq
    refine ⟨hsize1, fun h => absurd h (by omega), ?_, ?_⟩
    · simp [undisturbed, hl]
    · intro i hi
      rw [hb, Nat.lt_one_iff] at hi
      rw [hi]
  · intro h
    have hl : ts.length = 1 := by simpa [undisturbed] using h.undisturbed
    rw [hl]
    rfl

theorem settles_more (hszx : Antitone szx) (hmax : ∀ i, szx i ≤ maxSzx)
    (hsize1 : size1.getD 0 ≤ maxBody) (hm : szxSize (szx 0) < payload.length)
    {rest : List (List ℕ)} (hl : (ts :: rest).length = (blocks payload szx).length)
    (hsent : ∀ ts' ∈ ts :: rest, ts' ≠ []) (upload : Option Upload) :
    Settles ttl maxBody payload szx size1 (ts :: rest) upload := by
  have hpos := szxSize_pos (szx 0)
  obtain ⟨k, hk⟩ := Nat.exists_eq_succ_of_ne_zero (by omega : payload.length ≠ 0)
  obtain ⟨b, hb⟩ : ∃ b, blocks payload szx =
      b :: blocksFrom payload szx (k + 1) 1 (szxSize (szx 0)) := by
    rw [blocks, blocksFrom_more _ (by omega), hk, Nat.zero_add (szxSize (szx 0))]
    exact ⟨_, rfl⟩
  have hc : lastNum (blocks payload szx) + 1 = (blocks payload szx).length ↔
      ∀ i < (blocks payload szx).length, szx i = szx 0 := by
    have hp : Placed szx 0 0 := ⟨Nat.dvd_zero _, by omega, by simp⟩
    have h := lastNum_blocksFrom hszx hmax (by omega : payload.length ≤ 0 + payload.length) hp
    rw [Nat.zero_add] at h
    exact h
  have hr : rest ≠ [] := by
    rintro rfl
    rw [hb, length_singleton, length_cons, Nat.right_eq_add] at hl
    exact blocksFrom_ne_nil _ _ _ (length_eq_zero_iff.1 hl)
  have hrun : soloRun ttl maxBody upload (feed size1 (blocks payload szx) (ts :: rest)) =
      (none, if onTime ttl (ts.getLast?.getD 0) rest ∧ payload.length ≤ maxBody then
        [(payload, lastNum (blocks payload szx) + 1)] else []) := by
    have ht : rest.length = (blocksFrom payload szx (k + 1) 1 (szxSize (szx 0))).length := by
      rw [hb, length_cons, length_cons, Nat.add_right_cancel_iff] at hl
      exact hl
    have hf : feed size1 (blocks payload szx) (ts :: rest) =
        ts.map (requestAt payload szx size1 0 0) ++
          feed size1 (blocksFrom payload szx (k + 1) 1 (szxSize (szx 0))) rest := by
      rw [blocks, feed_blocksFrom, Nat.zero_add, if_pos hm, hk]
    rw [hf, soloRun_append, soloRun_first hsize1 hm (hsent ts mem_cons_self),
      soloRun_rest hszx hsize1 (by omega) (szxSize_dvd (hszx (Nat.zero_le 1))) hpos hm ht
        (fun ts' hts' => hsent ts' (mem_cons_of_mem _ hts')),
      hb, lastNum_cons _ (blocksFrom_ne_nil _ _ _), nil_append]
  have hs : undisturbed ttl (ts :: rest) = onTime ttl (ts.getLast?.getD 0) rest := by
    cases rest with
    | nil => exact absurd rfl hr
    | cons ts' rest => rfl
  have hse : 1 < (blocks payload szx).length := by
    rw [← hl, length_cons]
    have := length_pos_iff.2 hr
    omega
  rw [Settles, hrun]
  refine ⟨rfl, ?_, ?_⟩
  · intro heq
    by_cases hok : onTime ttl (ts.getLast?.getD 0) rest ∧ payload.length ≤ maxBody
    · rw [if_pos hok] at heq
      have hnum : lastNum (blocks payload szx) + 1 = (blocks payload szx).length :=
        congrArg (fun r => (r.headD ([], 0)).2) heq
      exact ⟨hsize1, fun _ => hok.2, hs.trans hok.1, hc.1 hnum⟩
    · rw [if_neg hok] at heq
      cases heq
  · intro h
    rw [if_pos ⟨hs.symm.trans h.undisturbed, h.fits hse⟩, hc.2 h.sameSize]

theorem settles (hszx : Antitone szx) (hmax : ∀ i, szx i ≤ maxSzx)
    (hl : times.length = (blocks payload szx).length) (hs : ∀ ts ∈ times, ts ≠ [])
    (upload : Option Upload) : Settles ttl maxBody payload szx size1 times upload := by
  match times, hl, hs with
  | [], hl, _ => exact absurd (length_eq_zero_iff.1 hl.symm) (blocksFrom_ne_nil _ _ _)
  | [] :: rest, _, hs => exact absurd rfl (hs [] mem_cons_self)
  | (t :: later) :: rest, hl, hs =>
    by_cases hsize1 : size1.getD 0 ≤ maxBody
    · by_cases hm : szxSize (szx 0) < payload.length
      · exact settles_more hszx hmax hsize1 hm hl hs upload
      have ho : payload.length ≤ szxSize (szx 0) := Nat.not_lt.1 hm
      rw [blocks_one ho, length_cons, Nat.add_eq_right, length_eq_zero_iff] at hl
      subst hl
      exact settles_one hsize1 ho (cons_ne_nil _ _) upload
    -- every request announces a body that is refused
    have hre : ∀ r ∈ feed size1 (blocks payload szx) ((t :: later) :: rest),
        maxBody < r.size1.getD 0 := by
      intro r hr
      rw [(of_mem_feed hr).1]
      exact Nat.lt_of_not_le hsize1
    rw [Settles, soloRun_announced hre (cons_ne_nil _ _)]
    exact ⟨rfl, fun heq => absurd heq.symm (cons_ne_nil _ _), fun h => absurd h.announced hsize1⟩

end

/-- As long as the caps are not hit, an upload completes exactly once, with its payload and the
number of its blocks, and leaves no entry, just when its blocks have one size, no block between the
first and the last (nor the only one) is sent twice, none is late, and the body is not too large.
The caps hold in every state. -/
theorem upload_completes_iff (cap perIp ttl maxBody : ℕ) :
    (∀ (u : Uploads) (key : UploadKey) (payload : Bytes) (szx : ℕ → ℕ) (size1 : Option ℕ)
      (times : List (List ℕ)) (calls : List Call), Antitone szx → (∀ i, szx i ≤ maxSzx) →
      times.length = (blocks payload szx).length → (∀ ts ∈ times, ts ≠ []) →
      requestsOf key calls = feed size1 (blocks payload szx) times →
      List.Pairwise (· ≤ ·) (calls.map fun c => c.request.now) → Meets step CapsNotHit u calls →
      (completed key u calls = [(payload, (blocks payload szx).length)] ∧
          (run step u calls).entries.lookup key = none ↔
        Deliverable u.ttl u.maxBody payload szx size1 times)) ∧ ∀ calls : List Call,
      (run step (new cap perIp ttl maxBody) calls).entries.keys.length ≤ max cap 1 ∧
        ∀ ip, ((run step (new cap perIp ttl maxBody) calls).held ip).length ≤ max perIp 1 := by
  refine ⟨?_, ?_⟩
  · intro u key payload szx size1 times calls hszx hmax hl hse hr hcl hca
    have hst : Shows u.ttl 0 (u.entries.lookup key) (u.entries.lookup key) :=
      ⟨.inr rfl, fun _ _ => rfl⟩
    have hfz : List.Pairwise (· ≤ ·) (0 :: calls.map fun c => c.request.now) :=
      pairwise_cons.2 ⟨fun _ _ => Nat.zero_le _, hcl⟩
    obtain ⟨hc, later, hend, -⟩ := completed_eq_soloRun key hca hfz hst
    obtain ⟨ho, hd⟩ : Settles u.ttl u.maxBody payload szx size1 times (u.entries.lookup key) :=
      settles hszx hmax hl hse _
    rw [hr] at hc hend
    rw [ho, or_self] at hend
    rw [hc, hd, and_iff_left hend]
  · intro calls
    have hw := within_run cap perIp ttl maxBody calls
    exact ⟨hw.total, hw.perAddress⟩

/-- A call of one of two peers, at an instant. -/
def callAt (peer : BitVec 32) (now : ℕ) (block : BlockValue × Bytes) : Call :=
  { key := ⟨⟨⟨.v4 peer, 5683, 0, 0⟩, "/f", none⟩, 3⟩
    request := { block := block.1, payload := block.2, size1 := none, now }
    rank := fun _ => 0 }

/-- Two blocks, the first of them sent twice, with an upload of another peer between them. -/
theorem upload_completes_interleaved :
    let payload : Bytes := replicate 17 7
    let first := (⟨0, true, 0⟩, replicate 16 7)
    let calls := [callAt 1 0 first, callAt 2 1 first, callAt 1 2 first,
      callAt 1 3 (⟨1, false, 0⟩, [7])]
    completed (callAt 1 0 first).key (new 4 2 10 100) calls = [(payload, 2)] ∧
      (run step (new 4 2 10 100) calls).entries.lookup (callAt 1 0 first).key = none :=
  ((upload_completes_iff 4 2 10 100).1 (new 4 2 10 100) _ (replicate 17 7) (fun _ => 0) none
    [[0, 2], [3]] _ antitone_const (fun _ => Nat.zero_le _) rfl (by decide) (by decide) (by decide)
    (by decide)).2
    ⟨by decide, by decide, by decide, by decide⟩

/-- After a size reduction the number of the last block is not the number of blocks, and a block in
the middle that is sent twice ends its upload. -/
theorem upload_miscounts :
    let key := (callAt 1 0 (⟨0, true, 0⟩, [])).key
    let smaller := [callAt 1 0 (⟨0, true, 1⟩, replicate 32 7),
      callAt 1 1 (⟨2, false, 0⟩, replicate 16 7)]
    let again := [callAt 1 0 (⟨0, true, 0⟩, replicate 16 7),
      callAt 1 1 (⟨1, true, 0⟩, replicate 16 7),
      callAt 1 2 (⟨1, true, 0⟩, replicate 16 7),
      callAt 1 3 (⟨2, false, 0⟩, replicate 16 7)]
    requestsOf key smaller = feed none (blocks (replicate 48 7) fun i => 1 - i) [[0], [1]] ∧
      completed key (new 4 2 10 100) smaller = [(replicate 48 7, 3)] ∧
      requestsOf key again = feed none (blocks (replicate 48 7) fun _ => 0) [[0], [1, 2], [3]] ∧
      completed key (new 4 2 10 100) again = [] := by
  decide

end NetGet.Coap.Uploads
