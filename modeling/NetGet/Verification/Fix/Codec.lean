import NetGet.Library.Fallible
import NetGet.Model.Fix

/-! # FIX messages on the wire -/

namespace NetGet.Fix

open Library List Except

variable {xs body bytes : Bytes} {b : UInt8} {lossy : Lossy} {value beginString : String}
  {dataLen : Option (ℕ × ℕ)} {tag n : ℕ} {fields : List Field} {d front rest front' rest' : Bytes}

theorem position_append (h : b ∉ xs) (ys : Bytes) :
    position b (xs ++ b :: ys) = some xs.length := by
  rw [position, findIdx?_append, findIdx?_eq_none_iff.2]
  · simp [findIdx?_cons]
  · intro x hx
    have hne : x ≠ b := fun heq => h (heq ▸ hx)
    simpa using hne

theorem position_eq_some {e : ℕ} (h : position b xs = some e) :
    xs = xs.take e ++ b :: xs.drop (e + 1) ∧ b ∉ xs.take e ∧ e < xs.length := by
  obtain ⟨hlt, hb, hf⟩ := List.findIdx?_eq_some_iff_getElem.1 h
  refine ⟨?_, ?_, hlt⟩
  · have hget : xs[e] = b := by simpa using hb
    rw [← hget, ← drop_eq_getElem_cons hlt, take_append_drop]
  intro hmem
  obtain ⟨i, hi, hget⟩ := List.mem_iff_getElem.1 hmem
  rw [length_take] at hi
  rw [getElem_take] at hget
  have hne := hf i (by omega)
  simp [hget] at hne

theorem parseTag_toString (tag : ℕ) : parseTag (utf8 (toString tag)) =
      if 1 ≤ tag ∧ tag < 10 ^ 9 then .ok tag else .error "invalid tag" := by
  have hd : (utf8 (toString tag)).all isAsciiDigit = true :=
    all_eq_true.2 fun _ hb => isAsciiDigit_of_mem_toString hb
  have hh := head?_utf8_toString tag
  simp only [parseTag, decimalValue_toString, hd, length_utf8_toString_le (by decide : 0 < 9)]
  by_cases htag : 1 ≤ tag ∧ tag < 10 ^ 9
  · rw [if_pos htag, if_pos]
    refine ⟨utf8_toString_ne_nil tag, htag.2, ?_, trivial⟩
    rw [Ne, hh]
    omega
  rw [if_neg htag, if_neg]
  rintro ⟨-, hlt, hne, -⟩
  rw [Ne, hh] at hne
  exact htag ⟨by omega, hlt⟩

/-- The value can be told from what follows it: a data field has the announced length, any other
field is not empty and has no SOH. -/
def fits (dataLen : Option (ℕ × ℕ)) (tag : ℕ) (value : String) : Bool :=
  match dataLen.filter (·.1 == tag) with
  | some (_, n) => (utf8 value).length == n
  | none => value != "" && !(utf8 value).contains soh

theorem parseValue_of_fits (h : fits dataLen tag value = true) (after : Bytes) :
    parseValue lossy dataLen tag (utf8 value ++ soh :: after) = .ok (value, after) := by
  cases hd : dataLen.filter (·.1 == tag) with
  | some announced =>
    obtain ⟨d, n⟩ := announced
    simp only [fits, hd, beq_iff_eq] at h
    subst h
    simp only [parseValue, hd]
    rw [if_neg (by simp), if_neg (by simp), take_left, lossy.decode_utf8]
    simp
  | none =>
    simp only [fits, hd, Bool.and_eq_true, bne_iff_ne, ne_eq, Bool.not_eq_true',
      contains_eq_mem, decide_eq_false_iff_not] at h
    have hlen : (utf8 value).length ≠ 0 := fun hz =>
      h.1 (utf8_eq_nil.1 (List.length_eq_zero_iff.1 hz))
    simp only [parseValue, hd, position_append h.2, hlen, if_false]
    rw [take_left, lossy.decode_utf8]
    simp

theorem fits_of_parseValue {after after' : Bytes}
    (h : parseValue lossy dataLen tag (utf8 value ++ soh :: after) = .ok (value, after')) :
    fits dataLen tag value = true := by
  -- a value cut short or run on has another number of SOH
  have hc : ∀ bytes : Bytes, lossy.decode bytes = value →
      (utf8 value).count soh = bytes.count soh := by
    intro bytes hb
    rw [← hb]
    exact lossy.count_soh bytes
  unfold parseValue at h
  unfold fits
  cases hd : dataLen.filter (·.1 == tag) with
  | some pair =>
    obtain ⟨d, n⟩ := pair
    simp only [hd] at h ⊢
    split at h
    · cases h
    split at h
    · cases h
    rename_i hlen hsoh
    have hr := hc _ (congrArg Prod.fst (ok.inj h))
    have hget : (utf8 value ++ soh :: after)[n]? = some soh := not_not.1 hsoh
    rw [beq_iff_eq]
    obtain hlt | heq | hgt := Nat.lt_trichotomy n (utf8 value).length
    · rw [getElem?_append_left hlt] at hget
      have hv : utf8 value = (utf8 value).take n ++ soh :: (utf8 value).drop (n + 1) := by
        obtain ⟨hlt, hget⟩ := List.getElem?_eq_some_iff.1 hget
        rw [← hget, ← drop_eq_getElem_cons hlt, take_append_drop]
      rw [take_append_of_le_length hlt.le] at hr
      have hsum := congrArg (count soh) hv
      rw [count_append, count_cons_self] at hsum
      omega
    · exact heq.symm
    · obtain ⟨k, rfl⟩ := Nat.exists_eq_add_of_lt hgt
      rw [show (utf8 value).length + k + 1 = (utf8 value).length + (k + 1) by omega,
        take_length_add_append, take_succ_cons, count_append,
        count_cons_self] at hr
      omega
  | none =>
    simp only [hd] at h ⊢
    split at h
    · cases h
    rename_i e hpos
    split_ifs at h with hne
    obtain ⟨-, hf, -⟩ := position_eq_some hpos
    have hr := hc _ (congrArg Prod.fst (ok.inj h))
    rw [count_eq_zero.2 hf, count_eq_zero] at hr
    have he : value ≠ "" := by
      intro he
      rw [position_append hr, Option.some_inj] at hpos
      rw [he] at hpos
      exact hne (hpos.symm.trans (by decide))
    simp [he, hr]

def renderAll (fields : List Field) : Bytes := fields.flatMap renderField

@[simp] theorem renderAll_nil : renderAll [] = [] := rfl

@[simp] theorem renderAll_cons (f : Field) (fields : List Field) :
    renderAll (f :: fields) = renderField f ++ renderAll fields := rfl

theorem renderAll_append (xs ys : List Field) :
    renderAll (xs ++ ys) = renderAll xs ++ renderAll ys :=
  flatMap_append

/-- The parser reads these fields back, one after the other. -/
def wellFormed : Option (ℕ × ℕ) → List Field → Bool
  | _, [] => true
  | dataLen, (tag, value) :: fields =>
    decide (1 ≤ tag ∧ tag < 10 ^ 9) && fits dataLen tag value &&
      match announces tag value with
      | .ok next => wellFormed next fields
      | .error _ => false

theorem renderField_ne_nil (f : Field) : renderField f ≠ [] := by
  simp [renderField]

theorem parseLoop_field (lossy : Lossy) (rounds : ℕ) (dataLen : Option (ℕ × ℕ))
    {out : List Field} (hout : out.length < maxFields) (f : Field) (after : Bytes) :
    parseLoop lossy (rounds + 1) dataLen out (renderField f ++ after) =
      if 1 ≤ f.1 ∧ f.1 < 10 ^ 9 then do
        let (value, after') ← parseValue lossy dataLen f.1 (utf8 f.2 ++ soh :: after)
        let dataLen ← announces f.1 value
        parseLoop lossy rounds dataLen (out ++ [(f.1, value)]) after'
      else .error "invalid tag" := by
  have hne := append_ne_nil_of_left_ne_nil (renderField_ne_nil f) after
  have heq : (61 : UInt8) ∉ utf8 (toString f.1) := fun h =>
    absurd (isAsciiDigit_of_mem_toString h) (by decide)
  have hs : renderField f ++ after = utf8 (toString f.1) ++ 61 :: (utf8 f.2 ++ soh :: after) := by
    simp [renderField]
  simp only [parseLoop, hne, if_false, Nat.not_le.2 hout]
  rw [hs, position_append heq]
  simp only [take_left, parseTag_toString]
  have hd : (utf8 (toString f.1) ++ 61 :: (utf8 f.2 ++ soh :: after)).drop
      ((utf8 (toString f.1)).length + 1) = utf8 f.2 ++ soh :: after := by
    simp
  rw [hd]
  split <;> rfl

theorem parseLoop_of_fits {rounds : ℕ} {out : List Field} {next : Option (ℕ × ℕ)}
    (hout : out.length < maxFields) (htag : 1 ≤ tag ∧ tag < 10 ^ 9)
    (hf : fits dataLen tag value = true) (ha : announces tag value = .ok next) (after : Bytes) :
    parseLoop lossy (rounds + 1) dataLen out (renderField (tag, value) ++ after) =
      parseLoop lossy rounds next (out ++ [(tag, value)]) after := by
  rw [parseLoop_field lossy rounds dataLen hout, if_pos htag, parseValue_of_fits hf]
  simp only [bind, Except.bind, ha]

theorem isPrefix_of_parseLoop {rounds : ℕ} :
    ∀ {dataLen : Option (ℕ × ℕ)} {out result : List Field} {rest : Bytes},
      parseLoop lossy rounds dataLen out rest = .ok result → out <+: result := by
  induction rounds with
  | zero =>
    intro dataLen out result rest h
    cases h
    exact prefix_rfl
  | succ rounds ih =>
    intro dataLen out result rest h
    simp only [parseLoop] at h
    split at h
    · cases h
      exact prefix_rfl
    split at h
    · cases h
    split at h
    · cases h
    obtain ⟨tag, -, h⟩ := bind_eq_ok.1 h
    obtain ⟨pair, -, h⟩ := bind_eq_ok.1 h
    obtain ⟨next, -, h⟩ := bind_eq_ok.1 h
    exact (prefix_append out _).trans (ih h)

/-- Fields read back as they were written when they are well formed and not too many. -/
theorem parseLoop_eq_ok_iff {rounds : ℕ} {out : List Field} (hout : out.length ≤ maxFields)
    (hr : fields.length ≤ rounds) :
    parseLoop lossy rounds dataLen out (renderAll fields) = .ok (out ++ fields) ↔
      wellFormed dataLen fields = true ∧ out.length + fields.length ≤ maxFields := by
  induction fields generalizing rounds dataLen out with
  | nil =>
    refine iff_of_true ?_ ⟨rfl, hout⟩
    cases rounds <;> simp [parseLoop]
  | cons f fields ih =>
    obtain ⟨tag, value⟩ := f
    rw [length_cons] at hr ⊢
    obtain ⟨rounds, rfl⟩ := Nat.exists_eq_add_of_le' (Nat.le_of_add_left_le hr)
    rw [renderAll_cons]
    by_cases hro : maxFields ≤ out.length
    · have hne := append_ne_nil_of_left_ne_nil (renderField_ne_nil (tag, value)) (renderAll fields)
      simp only [parseLoop, hne, if_false, hro, if_true]
      exact iff_of_false nofun fun h => by omega
    rw [Nat.not_le] at hro
    have hc : out ++ (tag, value) :: fields = out ++ [(tag, value)] ++ fields := by simp
    have hi (next : Option (ℕ × ℕ)) := @ih next rounds (out ++ [(tag, value)])
      (by rw [length_append, length_singleton]; omega) (by omega)
    rw [length_append, length_singleton] at hi
    constructor
    · intro h
      rw [parseLoop_field lossy rounds dataLen hro] at h
      split at h
      · rename_i htag
        obtain ⟨⟨value', after⟩, hv, h⟩ := bind_eq_ok.1 h
        obtain ⟨next, ha, h⟩ := bind_eq_ok.1 h
        have hre : value' = value := by
          obtain ⟨more, hm⟩ := isPrefix_of_parseLoop h
          rw [append_assoc, append_cancel_left_eq] at hm
          simp only [singleton_append, cons.injEq, Prod.mk.injEq] at hm
          exact hm.1.2
        subst hre
        have hf := fits_of_parseValue hv
        have hok := hv.symm.trans (parseValue_of_fits hf (renderAll fields))
        obtain rfl : after = renderAll fields := congrArg Prod.snd (ok.inj hok)
        obtain ⟨hwf, hlen⟩ := (hi next).1 (hc ▸ h)
        refine ⟨?_, by omega⟩
        simp only [wellFormed, hf, ha, hwf, Bool.and_true, decide_eq_true_eq]
        exact htag
      · cases h
    · rintro ⟨hwf, hlen⟩
      simp only [wellFormed, Bool.and_eq_true, decide_eq_true_eq] at hwf
      cases ha : announces tag value with
      | error e => simp [ha] at hwf
      | ok next =>
        simp only [ha] at hwf
        rw [parseLoop_of_fits hro hwf.1.1 hwf.1.2 ha, hc]
        exact (hi next).2 ⟨hwf.2, by omega⟩

theorem length_le_renderAll (fields : List Field) : fields.length ≤ (renderAll fields).length := by
  induction fields with
  | nil => exact le_rfl
  | cons f fields ih =>
    have hpos : 0 < (renderField f).length := length_pos_iff.2 (renderField_ne_nil f)
    rw [renderAll_cons, length_cons, length_append]
    omega

theorem encodeBody_eq_ok : encodeBody fields = .ok body ↔
    body = renderAll fields ∧ ∀ f ∈ fields, writable f = true := by
  induction fields generalizing body with
  | nil =>
    rw [encodeBody, ok.injEq]
    exact ⟨fun h => ⟨h.symm, nofun⟩, fun h => h.1.symm⟩
  | cons f fields ih =>
    rw [encodeBody, forall_mem_cons]
    split_ifs with hf
    · rw [bind_eq_ok]
      simp only [ih, hf, true_and, renderAll_cons]
      constructor
      · rintro ⟨rest, ⟨rfl, hw⟩, h⟩
        exact ⟨(ok.inj h).symm, hw⟩
      · rintro ⟨rfl, hw⟩
        exact ⟨_, ⟨rfl, hw⟩, rfl⟩
    · exact ⟨nofun, fun h => absurd h.2.1 hf⟩

def lead (beginString : String) (body : Bytes) : Bytes :=
  utf8 "8=" ++ utf8 beginString ++ soh :: (utf8 "9=" ++ utf8 (toString body.length) ++ [soh])

def trailer (out : Bytes) : Bytes := utf8 "10=" ++ utf8 (padded 3 (checksum out).toNat) ++ [soh]

def wire (beginString : String) (fields : List Field) : Bytes :=
  lead beginString (renderAll fields) ++ renderAll fields ++
    trailer (lead beginString (renderAll fields) ++ renderAll fields)

theorem encode_eq_ok (h : encode beginString fields = .ok bytes) :
    bytes = wire beginString fields ∧ (renderAll fields).length ≤ maxBody ∧
      ∀ f ∈ fields, writable f = true := by
  unfold encode at h
  cases hb : encodeBody fields with
  | error e => simp [hb] at h
  | ok body =>
    obtain ⟨rfl, hw⟩ := encodeBody_eq_ok.1 hb
    simp only [hb] at h
    split_ifs at h with hle
    refine ⟨?_, by omega, hw⟩
    rw [← ok.inj h]
    simp [wire, lead, trailer]

theorem encode_of_writable (hw : ∀ f ∈ fields, writable f = true)
    (hlen : (renderAll fields).length ≤ maxBody) :
    encode beginString fields = .ok (wire beginString fields) := by
  unfold encode
  rw [encodeBody_eq_ok.2 ⟨rfl, hw⟩]
  simp only [Nat.not_lt.2 hlen, if_false]
  simp [wire, lead, trailer]

theorem bodyLength_toString (h : n ≤ maxBody) : bodyLength (utf8 (toString n)) = some n := by
  have hd : (utf8 (toString n)).all isAsciiDigit = true :=
    all_eq_true.2 fun _ hb => isAsciiDigit_of_mem_toString hb
  have hlen : n < 10 ^ 7 := Nat.lt_of_le_of_lt h (by decide)
  rw [bodyLength, decimalValue_toString, if_pos]
  exact ⟨utf8_toString_ne_nil n, (length_utf8_toString_le (by decide)).2 hlen, hd, h⟩

theorem frameBody_wire (lossy : Lossy) (beginString : String) (front body : Bytes) :
    frameBody lossy (front ++ body ++ trailer (front ++ body)) beginString front.length
        body.length =
      match parseFields lossy body with
      | .ok fields => .message beginString { fields := fields }
          (front ++ body ++ trailer (front ++ body)).length
      | .error e => .garbled (front ++ body ++ trailer (front ++ body)).length e := by
  have hd : (utf8 (padded 3 (checksum (front ++ body)).toNat)).length = 3 := by
    have hlt := (Nat.length_toDigits_le_iff (by decide : 1 < 10) (by decide : 0 < 3)).2
      (Nat.lt_trans (checksum (front ++ body)).toNat_lt (by decide))
    rw [length_utf8_padded]
    omega
  have htr : (trailer (front ++ body)).length = 7 := by
    simp only [trailer, length_append, hd]
    rfl
  have ht : (front ++ body ++ trailer (front ++ body)).length = front.length + body.length + 7 := by
    simp only [length_append, htr]
  have hf : (front ++ body).length = front.length + body.length := length_append
  have hend : ((front ++ body ++ trailer (front ++ body)).take
      (front.length + body.length + 7)).drop (front.length + body.length) =
        trailer (front ++ body) := by
    rw [← ht, take_length, ← hf, drop_left]
  have hbe : (front ++ body ++ trailer (front ++ body)).take (front.length + body.length) =
      front ++ body := by
    rw [← hf, take_left]
  have hsum : (((trailer (front ++ body)).take 6).drop 3) =
      utf8 (padded 3 (checksum (front ++ body)).toNat) := by
    rw [trailer, take_left' (by rw [length_append, hd]; rfl), drop_left' (by decide)]
  have hsoh : (trailer (front ++ body))[6]? = some soh := by
    rw [trailer, getElem?_append_right]
    · simp only [length_append, hd]
      rfl
    · simp only [length_append, hd]
      decide
  have hten : (utf8 "10=").isPrefixOf (trailer (front ++ body)) = true := by
    rw [ isPrefixOf_iff_prefix, trailer, append_assoc]
    exact prefix_append _ _
  have hall : (utf8 (padded 3 (checksum (front ++ body)).toNat)).all isAsciiDigit = true :=
    all_eq_true.2 fun _ hb => isAsciiDigit_of_mem_padded hb
  simp only [frameBody, ht, lt_irrefl, if_false, hend, hten, hsoh, hsum, hall, hbe,
    decimalValue_padded, drop_left]
  cases parseFields lossy body <;> simp

/-- A message that was written is read as one message if its fields can be parsed, and dropped
as a whole otherwise. -/
theorem frame_wire (lossy : Lossy) (hb : soh ∉ utf8 beginString)
    (hlen : (renderAll fields).length ≤ maxBody) :
    frame lossy (wire beginString fields) =
      match parseFields lossy (renderAll fields) with
      | .ok read => .message beginString { fields := read } (wire beginString fields).length
      | .error e => .garbled (wire beginString fields).length e := by
  let digits := utf8 (toString (renderAll fields).length)
  have hd : wire beginString fields = utf8 "8=" ++ utf8 beginString ++ soh ::
      (utf8 "9=" ++ digits ++ soh ::
        (renderAll fields ++ trailer (lead beginString (renderAll fields) ++ renderAll fields))) := by
    simp [wire, lead, digits]
  have hf : soh ∉ utf8 "8=" ++ utf8 beginString := by
    rw [mem_append, not_or]
    exact ⟨by decide, hb⟩
  have hf' : soh ∉ utf8 "9=" ++ digits := by
    rw [mem_append, not_or]
    exact ⟨by decide, fun h => absurd (isAsciiDigit_of_mem_toString h) (by decide)⟩
  have hst : (utf8 "8=" ++ utf8 beginString).length + 1 + (utf8 "9=" ++ digits).length + 1 =
      (lead beginString (renderAll fields)).length := by
    simp only [lead, digits, length_append, length_cons, length_nil]
    omega
  have h9 : utf8 "9=" <+: utf8 "9=" ++ digits ++ soh ::
      (renderAll fields ++ trailer (lead beginString (renderAll fields) ++ renderAll fields)) := by
    rw [append_assoc]
    exact prefix_append _ _
  have h8 : utf8 "8=" <+: wire beginString fields := by
    rw [hd, append_assoc]
    exact prefix_append _ _
  have hne : wire beginString fields ≠ [] := by simp [hd]
  have hp : position soh (wire beginString fields) =
      some (utf8 "8=" ++ utf8 beginString).length := by rw [hd, position_append hf]
  have hdr : (wire beginString fields).drop ((utf8 "8=" ++ utf8 beginString).length + 1) =
      utf8 "9=" ++ digits ++ soh :: (renderAll fields ++
        trailer (lead beginString (renderAll fields) ++ renderAll fields)) := by
    rw [hd, ← drop_drop, drop_left]
    rfl
  have ht : (wire beginString fields).take (utf8 "8=" ++ utf8 beginString).length =
      utf8 "8=" ++ utf8 beginString := by rw [hd, take_left]
  simp only [frame, hne, isPrefixOf_iff_prefix.2 h8, hp, hdr, ht, if_false, Bool.not_true,
    Bool.false_eq_true, if_neg (Nat.not_lt.2 h9.length_le : ¬ _ < 2), isPrefixOf_iff_prefix.2 h9,
    position_append hf', take_left, drop_left' (show (utf8 "8=").length = 2 by decide), hst,
    drop_left' (show (utf8 "9=").length = 2 by decide), digits, bodyLength_toString hlen,
    lossy.decode_utf8]
  exact frameBody_wire lossy beginString (lead beginString (renderAll fields)) (renderAll fields)

/-- The message stays within the limits of the parser and its fields can be delimited. -/
structure Carried (fields : List Field) : Prop where
  wellFormed : wellFormed none fields = true
  length_le : fields.length ≤ maxFields
  body_le : (renderAll fields).length ≤ maxBody

instance (fields : List Field) : Decidable (Carried fields) :=
  decidable_of_iff (Fix.wellFormed none fields = true ∧ fields.length ≤ maxFields ∧
      (renderAll fields).length ≤ maxBody)
    ⟨fun h => ⟨h.1, h.2.1, h.2.2⟩, fun h => ⟨h.wellFormed, h.length_le, h.body_le⟩⟩

theorem writable_of_wellFormed :
    ∀ {dataLen : Option (ℕ × ℕ)}, (∀ p ∈ dataLen, dataPairs.any (·.2 == p.1) = true) →
      wellFormed dataLen fields = true → ∀ f ∈ fields, writable f = true := by
  induction fields with
  | nil =>
    intro dataLen _ _
    exact forall_mem_nil _
  | cons g fields ih =>
    intro dataLen hd hwf
    obtain ⟨tag, value⟩ := g
    simp only [wellFormed, Bool.and_eq_true] at hwf
    refine forall_mem_cons.2 ⟨?_, ?_⟩
    · have hfits := hwf.1.2
      unfold fits at hfits
      split at hfits
      · rename_i d n hfi
        obtain ⟨hmem, htag⟩ := Option.filter_eq_some_iff.1 hfi
        have hany := hd (d, n) hmem
        rw [show d = tag by simpa using htag] at hany
        simp [writable, hany]
      · simp only [Bool.and_eq_true, Bool.not_eq_true'] at hfits
        simp only [writable, hfits.2, Bool.false_and, Bool.not_false]
    · cases ha : announces tag value with
      | error e => simp [ha] at hwf
      | ok next =>
        simp only [ha] at hwf
        refine ih (fun p hp => ?_) hwf.2
        rw [Option.mem_def.1 hp] at ha
        unfold announces at ha
        split at ha
        · cases ha
        rename_i d dataTag hf
        split at ha
        · cases ha
          exact any_eq_true.2 ⟨(d, dataTag), mem_of_find?_eq_some hf, by simp⟩
        · cases ha

theorem Carried.reads (h : Carried fields) (lossy : Lossy) (hb : soh ∉ utf8 beginString)
    (hh : fields.head?.map Prod.fst = some 35) :
    encode beginString fields = .ok (wire beginString fields) ∧
      frame lossy (wire beginString fields) =
        .message beginString { fields := fields } (wire beginString fields).length := by
  have hw := writable_of_wellFormed (fun p hp => by cases hp) h.wellFormed
  refine ⟨encode_of_writable hw h.body_le, ?_⟩
  have hpa : parseFields lossy (renderAll fields) = .ok fields := by
    have hl : parseLoop lossy (renderAll fields).length none [] (renderAll fields) =
        .ok ([] ++ fields) :=
      (parseLoop_eq_ok_iff (Nat.zero_le _) (length_le_renderAll fields)).2
        ⟨h.wellFormed, by simpa using h.length_le⟩
    rw [nil_append] at hl
    simp [parseFields, hl, hh, bind, Except.bind]
  rw [frame_wire lossy hb h.body_le, hpa]

theorem parseLoop_of_frame {name : String} {m : Message}
    (hb : soh ∉ utf8 beginString) (he : encode beginString fields = .ok bytes)
    (hf : frame lossy bytes = .message name m n) :
    parseLoop lossy (renderAll fields).length none [] (renderAll fields) = .ok m.fields := by
  obtain ⟨rfl, hle, -⟩ := encode_eq_ok he
  rw [frame_wire lossy hb hle] at hf
  cases hp : parseFields lossy (renderAll fields) with
  | error e => simp [hp] at hf
  | ok read =>
    simp only [hp, Frame.message.injEq] at hf
    rw [← hf.2.1]
    obtain ⟨out, hl, hp⟩ := bind_eq_ok.1 hp
    split at hp
    · rw [hl, hp]
    · cases hp

theorem carried_of_frame {name : String} (hb : soh ∉ utf8 beginString)
    (he : encode beginString fields = .ok bytes)
    (hf : frame lossy bytes = .message name { fields := fields } n) : Carried fields := by
  have hl := parseLoop_of_frame hb he hf
  obtain ⟨hwf, hlen⟩ := (parseLoop_eq_ok_iff (Nat.zero_le _) (length_le_renderAll fields)).1 hl
  exact ⟨hwf, by simpa using hlen, (encode_eq_ok he).2.1⟩

def ordinary (tag : ℕ) : Bool :=
  decide (1 ≤ tag ∧ tag < 10 ^ 9) && (dataPairs.find? (·.1 == tag)).isNone &&
    !dataPairs.any (·.2 == tag)

def clean (f : Field) : Bool := ordinary f.1 && !(utf8 f.2).contains soh

theorem clean_of_writable {f : Field} (htag : ordinary f.1 = true) (h : writable f = true) :
    clean f = true := by
  have hd : dataPairs.any (·.2 == f.1) = false := by
    simp only [ordinary, Bool.and_eq_true, Bool.not_eq_true'] at htag
    exact htag.2
  simp only [writable, hd, Bool.not_false, Bool.and_true] at h
  simp only [clean, htag, h, Bool.and_true]

/-- Clean fields at the front are read as they were written, if the message is read at all. -/
theorem parseLoop_clean {front out result : List Field} {rounds : ℕ} {rest : Bytes}
    (hc : ∀ f ∈ front, clean f = true) (hlen : out.length + front.length ≤ maxFields)
    (hr : front.length ≤ rounds)
    (h : parseLoop lossy rounds none out (renderAll front ++ rest) = .ok result) :
    parseLoop lossy (rounds - front.length) none (out ++ front) rest = .ok result := by
  induction front generalizing rounds out with
  | nil => simpa using h
  | cons f front ih =>
    obtain ⟨tag, value⟩ := f
    obtain ⟨hf, hc⟩ := forall_mem_cons.1 hc
    simp only [clean, ordinary, Bool.and_eq_true, decide_eq_true_eq, Option.isNone_iff_eq_none,
      Bool.not_eq_true'] at hf
    rw [length_cons] at hlen hr ⊢
    obtain ⟨rounds, rfl⟩ := Nat.exists_eq_add_of_le' (Nat.le_of_add_left_le hr)
    rw [renderAll_cons, append_assoc] at h
    by_cases he : value = ""
    · subst he
      rw [parseLoop_field lossy rounds none (by omega), if_pos hf.1.1.1] at h
      simp [parseValue, position_append (show soh ∉ utf8 "" by decide), utf8_eq_nil, bind,
        Except.bind] at h
    have hfi : fits none tag value = true := by
      simp [fits, he]
      simpa using hf.2
    have ha : announces tag value = .ok none := by
      simp [announces, hf.1.1.2]
    rw [parseLoop_of_fits (by omega) hf.1.1.1 hfi ha] at h
    have hre := ih hc (by rw [length_append, length_singleton]; omega) (by omega) h
    rw [append_assoc, singleton_append] at hre
    rwa [Nat.add_sub_add_right]

/-- A reading as it is asked for exists. -/
def Lossy.strict : Lossy where
  decode bytes :=
    if h : (⟨bytes.toArray⟩ : ByteArray).IsValidUTF8 then String.ofByteArray ⟨bytes.toArray⟩ h
    else String.ofList (List.replicate (bytes.count soh) (Char.ofNat 1))
  decode_utf8 s := by
    have hbytes : (⟨(utf8 s).toArray⟩ : ByteArray) = s.toByteArray := by simp [utf8]
    rw [dif_pos (hbytes ▸ s.isValidUTF8)]
    apply String.toByteArray_inj.1
    simpa using hbytes
  count_soh bytes := by
    split
    · simp [utf8]
    generalize bytes.count soh = n
    rw [utf8_ofList]
    induction n with
    | zero => rfl
    | succ n ih =>
      have hone : (String.utf8EncodeChar (Char.ofNat 1)).count soh = 1 := by decide
      rw [List.replicate_succ, List.flatMap_cons, List.count_append, ih, hone, Nat.add_comm]

end NetGet.Fix
