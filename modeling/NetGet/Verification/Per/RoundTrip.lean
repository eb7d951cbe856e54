import NetGet.Verification.Per.Leaves
import Mathlib.Algebra.BigOperators.Group.List.Basic

/-! # The round trip of a value -/

namespace NetGet.Per

open Library List Option Mirrors

/-- The field that gives a key of a sequence its value: the last one of this name. -/
def lastNamed (fields : List Field) (key : String) : Option Field :=
  fields.reverse.find? (·.name == key)

def Ty.parts : Ty → Json → List (ℕ × Json)
  | .alias target, v => [(target, v)]
  | .seq root ext, .object entries =>
    (root ++ ext.getD []).filterMap fun f => (entry entries f.name).map (f.ty, ·)
  | .choice root ext, .object entries =>
    entries.filterMap fun e =>
      ((root ++ ext.getD []).find? (·.name == e.1)).map fun f => (f.ty, e.2)
  | .seqOf _ item, .array elements => elements.map (item, ·)
  | _, _ => []

namespace Table

/-- The typed values of a value, itself and the steps through aliases included. -/
def count (t : Table) : ℕ → ℕ → Json → ℕ
  | 0, _, _ => 1
  | levels + 1, index, v =>
    1 + ((t.types[index]?.elim [] (·.parts v)).map fun p => t.count levels p.1 p.2).sum

/-- The object identifiers of a value have arcs that are small enough. -/
def Legible (t : Table) : ℕ → ℕ → Json → Prop
  | 0, _, _ => True
  | levels + 1, index, v =>
    (t.types[index]? = some .oid → ∀ s arcs, v = .string s → oidArcs s = some arcs →
      OidFits arcs) ∧
    ∀ p ∈ t.types[index]?.elim [] (·.parts v), t.Legible levels p.1 p.2

/-- Both are the same value of a type, but for the letter case of octets and the spelling of object
identifiers: the second one has small letters and plain numbers. -/
def Same (t : Table) : ℕ → ℕ → Json → Json → Prop
  | 0, _, _, _ => False
  | levels + 1, index, v, v' =>
    match t.types[index]? with
    | none => False
    | some (.alias target) => t.Same levels target v v'
    | some (.octets _) =>
      ∃ s raw, v = .string s ∧ hexDecode s = some raw ∧ v' = .string (hexEncode raw)
    | some .oid => ∃ s arcs, v = .string s ∧ oidArcs s = some arcs ∧ v' = .string (dotted arcs)
    | some (.seq root ext) =>
      ∃ e e', v = .object e ∧ v' = .object e' ∧
        (∀ key, (entry e key).isSome = (entry e' key).isSome) ∧
        ∀ key u u', entry e key = some u → entry e' key = some u' →
          ∃ f, lastNamed (root ++ ext.getD []) key = some f ∧ t.Same levels f.ty u u'
    | some (.choice root ext) =>
      ∃ key u u', v = .object [(key, u)] ∧ v' = .object [(key, u')] ∧
        ∃ f, (root ++ ext.getD []).find? (·.name == key) = some f ∧ t.Same levels f.ty u u'
    | some (.seqOf _ item) =>
      ∃ us us', v = .array us ∧ v' = .array us' ∧ List.Forall₂ (t.Same levels item) us us'
    | some _ => v' = v

theorem count_pos (t : Table) (levels index : ℕ) (v : Json) : 0 < t.count levels index v := by
  cases levels with
  | zero => exact Nat.one_pos
  | succ levels =>
    rw [count]
    omega

end Table

/-! ## Entries -/

theorem entry_insertEntry_ne (entries : List (String × Json)) {key key' : String} (h : key' ≠ key)
    (v : Json) : entry (insertEntry entries key v) key' = entry entries key' := by
  rw [entry, entry, insertEntry, lookup_cons, beq_eq_false_iff_ne.2 h]
  simp only
  induction entries with
  | nil => rfl
  | cons e entries ih =>
    obtain ⟨k, u⟩ := e
    by_cases hk : k = key
    · subst hk
      rw [filter_cons_of_neg (by simp), lookup_cons, beq_eq_false_iff_ne.2 h]
      exact ih
    rw [filter_cons_of_pos (by simpa using hk), lookup_cons, lookup_cons]
    cases key' == k with
    | true => rfl
    | false => exact ih

theorem lastNamed_cons (f : Field) (fields : List Field) (key : String) :
    lastNamed (f :: fields) key =
      (lastNamed fields key).or (if f.name == key then some f else none) := by
  rw [lastNamed, lastNamed, reverse_cons, find?_append]
  congr 1
  rw [find?_cons]
  split <;> simp [*]

theorem lastNamed_append (fields more : List Field) (key : String) :
    lastNamed (fields ++ more) key = (lastNamed more key).or (lastNamed fields key) := by
  rw [lastNamed, reverse_append, find?_append]
  rfl

theorem lastNamed_eq_none {fields : List Field} {key : String} :
    lastNamed fields key = none ↔ ∀ f ∈ fields, f.name ≠ key := by
  simp [lastNamed]

/-- The fields that are present have put their values into the object. -/
structure Filled (same : ℕ → Json → Json → Prop) (e : List (String × Json)) (fields : List Field)
    (before after : List (String × Json)) : Prop where
  present : ∀ key f u, lastNamed fields key = some f → entry e key = some u →
    ∃ u', entry after key = some u' ∧ same f.ty u u'
  absent : ∀ key, lastNamed fields key = none ∨ entry e key = none →
    entry after key = entry before key

namespace Filled

variable {same : ℕ → Json → Json → Prop} {e before middle after : List (String × Json)}
  {fields more : List Field} {f : Field}

theorem nil : Filled same e [] before before where
  present := by
    intro key f u hf
    cases hf
  absent := fun _ _ => rfl

theorem skip (h : Filled same e fields before after) (hf : entry e f.name = none) :
    Filled same e (f :: fields) before after where
  present := by
    intro key g u hg hu
    rw [lastNamed_cons] at hg
    have hne : (f.name == key) = false := by
      refine beq_eq_false_iff_ne.2 fun heq => ?_
      rw [heq, hu] at hf
      cases hf
    rw [hne] at hg
    exact h.present key g u (by simpa using hg) hu
  absent := by
    intro key hkey
    refine h.absent key (hkey.imp_left fun hn => ?_)
    rw [lastNamed_cons, or_eq_none_iff] at hn
    exact hn.1

theorem cons {u u' : Json} (hf : entry e f.name = some u) (hs : same f.ty u u')
    (h : Filled same e fields (insertEntry before f.name u') after) :
    Filled same e (f :: fields) before after where
  present := by
    intro key g w hg hw
    rw [lastNamed_cons] at hg
    cases hl : lastNamed fields key with
    | some g' =>
      rw [hl, some_or] at hg
      exact h.present key g w (hl.trans hg) hw
    | none =>
      rw [hl, none_or] at hg
      split at hg
      · rename_i hna
        cases hg
        obtain rfl := eq_of_beq hna
        cases hf.symm.trans hw
        exact ⟨u', (h.absent _ (.inl hl)).trans (by simp [entry, insertEntry]), hs⟩
      · cases hg
  absent := by
    intro key hkey
    have hne : key ≠ f.name := by
      rintro rfl
      obtain hn | hn := hkey
      · exact absurd rfl (lastNamed_eq_none.1 hn f mem_cons_self)
      · cases hf.symm.trans hn
    rw [h.absent key (hkey.imp_left fun hn => ?_), entry_insertEntry_ne _ hne]
    rw [lastNamed_cons, or_eq_none_iff] at hn
    exact hn.1

theorem append (h : Filled same e fields before middle) (h' : Filled same e more middle after) :
    Filled same e (fields ++ more) before after where
  present := by
    intro key f u hf hu
    rw [lastNamed_append] at hf
    cases hl : lastNamed more key with
    | some g =>
      rw [hl, some_or] at hf
      exact h'.present key f u (hl.trans hf) hu
    | none =>
      rw [hl, none_or] at hf
      obtain ⟨u', hu', hs⟩ := h.present key f u hf hu
      exact ⟨u', (h'.absent key (.inl hl)).trans hu', hs⟩
  absent := by
    intro key hkey
    rw [lastNamed_append, or_eq_none_iff] at hkey
    rw [h'.absent key (hkey.imp_left And.left), h.absent key (hkey.imp_left And.right)]

section

variable (h : Filled same e fields [] after)
  (hknown : ∀ key, (entry e key).isSome → (lastNamed fields key).isSome)

include h hknown

/-- An object that was filled from nothing has the keys of the fields that were there. -/
theorem isSome_eq (key : String) : (entry e key).isSome = (entry after key).isSome := by
  cases hu : entry e key with
  | none =>
    rw [h.absent key (.inr hu)]
    rfl
  | some u =>
    obtain ⟨f, hf⟩ := Option.isSome_iff_exists.1 (hknown key (by rw [hu]; rfl))
    obtain ⟨u', hu', -⟩ := h.present key f u hf hu
    rw [hu']
    rfl

theorem same_of_entry {key : String} {u u' : Json} (hu : entry e key = some u)
    (hu' : entry after key = some u') : ∃ f, lastNamed fields key = some f ∧ same f.ty u u' := by
  obtain ⟨f, hf⟩ := Option.isSome_iff_exists.1 (hknown key (by rw [hu]; rfl))
  obtain ⟨u₁, hu₁, hs⟩ := h.present key f u hf hu
  cases hu₁.symm.trans hu'
  exact ⟨f, hf, hs⟩

end

theorem none_present (h : ∀ f ∈ fields, entry e f.name = none) :
    Filled same e fields before before := by
  induction fields with
  | nil => exact nil
  | cons f fields ih =>
    exact (ih fun g hg => h g (mem_cons_of_mem _ hg)).skip (h f mem_cons_self)

end Filled

/-! ## Containers -/

section

variable {put : EncodeValue} {value : DecodeValue} {same : ℕ → Json → Json → Prop}
  {legible : ℕ → Json → Prop} {count : ℕ → Json → ℕ}

/-- What is encoded is decoded to the same value. -/
def RoundTrips (put : EncodeValue) (value : DecodeValue) (same : ℕ → Json → Json → Prop)
    (legible : ℕ → Json → Prop) (count : ℕ → Json → ℕ) : Prop :=
  ∀ w w' index v path, put w index v path = .ok w' → legible index v →
    ∀ nodes, nodes + count index v ≤ maxPerNodes → ∃ v', same index v v' ∧
      ∀ path', Mirrors w w' (fun r => value index path' r nodes) (v', nodes + count index v)

variable (h : RoundTrips put value same legible count) {w w' : Writer} {e : List (String × Json)}
  {f : Field} {path what key : String} {root : List Field}

include h

theorem mirrors_elements {item : ℕ} {vs : List Json} {i : ℕ}
    (hput : putElements put item path i vs w = .ok w') (hl : ∀ v ∈ vs, legible item v)
    (nodes : ℕ) (hn : nodes + (vs.map (count item)).sum ≤ maxPerNodes) :
    ∃ vs', List.Forall₂ (same item) vs vs' ∧ ∀ path' i',
      Mirrors w w' (fun r => decodeElements value item path' i' vs.length r nodes)
        (vs', nodes + (vs.map (count item)).sum) := by
  induction vs generalizing w i nodes with
  | nil =>
    cases hput
    exact ⟨[], .nil, fun _ _ => .nothing _ _⟩
  | cons v vs ih =>
    obtain ⟨w₁, hw₁, hput⟩ := bind_eq_ok.1 hput
    rw [map_cons, sum_cons] at hn ⊢
    obtain ⟨v', hv', hre⟩ := h _ _ _ _ _ hw₁ (hl v mem_cons_self) nodes (by omega)
    obtain ⟨vs', hvs', hr⟩ := ih hput (fun v hv => hl v (mem_cons_of_mem _ hv))
      (nodes + count item v) (by omega)
    refine ⟨v' :: vs', .cons hv' hvs', fun path' i' => ?_⟩
    simp only [length_cons, decodeElements]
    refine (hre _).bind ?_
    rw [← Nat.add_assoc]
    exact (hr path' (i' + 1)).map fun p => (v' :: p.1, p.2)

/-- The number of values in the fields that are present. -/
def countFields (count : ℕ → Json → ℕ) (e : List (String × Json)) (fields : List Field) : ℕ :=
  ((fields.filterMap fun f => (entry e f.name).map (f.ty, ·)).map fun p => count p.1 p.2).sum

omit h in
theorem countFields_some {u : Json} (hf : entry e f.name = some u) (fields : List Field) :
    countFields count e (f :: fields) = count f.ty u + countFields count e fields := by
  rw [countFields, filterMap_cons, hf]
  rfl

omit h in
theorem countFields_none (hf : entry e f.name = none) (fields : List Field) :
    countFields count e (f :: fields) = countFields count e fields := by
  rw [countFields, filterMap_cons, hf]
  rfl

def hasField (e : List (String × Json)) (f : Field) : Bool := (entry e f.name).isSome

theorem mirrors_fields (hput : putFields put e path what root w = .ok w')
    (hl : ∀ f ∈ root, ∀ u, entry e f.name = some u → legible f.ty u)
    (before : List (String × Json)) (nodes : ℕ)
    (hn : nodes + countFields count e root ≤ maxPerNodes) :
    ∃ after, Filled same e root before after ∧ ∀ path',
      Mirrors w w' (fun r => decodeFields value path' root
        ((root.filter Field.optional).map (hasField e)) before r nodes)
        (after, nodes + countFields count e root) := by
  induction root generalizing w before nodes with
  | nil =>
    cases hput
    exact ⟨before, .nil, fun _ => .nothing _ _⟩
  | cons f root ih =>
    have hre := fun g (hg : g ∈ root) => hl g (mem_cons_of_mem _ hg)
    rw [putFields] at hput
    cases hf : entry e f.name with
    | some u =>
      rw [hf] at hput
      rw [countFields_some hf] at hn ⊢
      obtain ⟨w₁, hw₁, hput⟩ := bind_eq_ok.1 hput
      obtain ⟨u', hu', hread⟩ := h _ _ _ _ _ hw₁ (hl f mem_cons_self u hf) nodes (by omega)
      obtain ⟨after, hfi, hr⟩ := ih hput hre (insertEntry before f.name u')
        (nodes + count f.ty u) (by omega)
      refine ⟨after, .cons hf hu' hfi, fun path' => ?_⟩
      have hhas : hasField e f = true := by rw [hasField, hf, isSome_some]
      rw [← Nat.add_assoc]
      cases ho : f.optional with
      | true =>
        simp only [decodeFields, filter_cons_of_pos ho, map_cons, hhas,
          ho, headD_cons, Bool.not_true, Bool.and_false, Bool.false_eq_true,
          if_false, if_true, tail_cons]
        exact (hread _).bind (hr path')
      | false =>
        simp only [decodeFields, filter_cons_of_neg (Bool.not_eq_true _ ▸ ho),
          ho, Bool.false_and, Bool.false_eq_true, if_false]
        exact (hread _).bind (hr path')
    | none =>
      rw [hf] at hput
      rw [countFields_none hf] at hn ⊢
      simp only at hput
      split_ifs at hput with ho
      · obtain ⟨after, hfi, hr⟩ := ih hput hre before nodes hn
        refine ⟨after, .skip hfi hf, fun path' => ?_⟩
        have hhas : hasField e f = false := by rw [hasField, hf, isSome_none]
        simp only [decodeFields, filter_cons_of_pos ho, map_cons, hhas,
          ho, headD_cons, Bool.not_false, Bool.and_true, if_true, tail_cons]
        exact hr path'
      · cases hput

theorem decodeOpen_of_put {inner : Writer} {index : ℕ} {v : Json}
    (hput : put .new index v path = .ok inner) (hl : legible index v) (nodes : ℕ)
    (hn : nodes + count index v ≤ maxPerNodes) : ∃ v', same index v v' ∧ ∀ path',
      decodeOpen value index inner.finish path' nodes = .ok (v', nodes + count index v) := by
  obtain ⟨v', hs, hre⟩ := h _ _ _ _ _ hput hl nodes hn
  refine ⟨v', hs, fun path' => ?_⟩
  obtain ⟨chunk, hc, hr⟩ := hre path' [] .new
  have hfi : Has inner.finish 0 chunk := by
    rw [Writer.finish]
    split_ifs with he
    · have hl := hc.packs.length_eq
      rw [List.isEmpty_iff.1 he, length_nil] at hl
      obtain rfl : chunk = [] := eq_nil_of_length_eq_zero (by simp at hl; omega)
      exact ⟨Nat.zero_le _, nofun⟩
    · exact hc.packs.has
  have hv := hr inner.finish hfi
  simp only [length_nil] at hv
  rw [decodeOpen, hv]
  rfl

theorem mirrors_additions {t : Table} (hresolve : ∀ w w' index v path, put w index v path = .ok w' →
      ∃ ty, t.resolve index = .ok ty ∧ ∀ why, ty ≠ .opaqueType why) {all : List Field}
    (hput : putAdditions put e path what all w = .ok w')
    (hl : ∀ f ∈ all, ∀ u, entry e f.name = some u → legible f.ty u)
    (before : List (String × Json)) (nodes : ℕ)
    (hn : nodes + countFields count e all ≤ maxPerNodes) :
    ∃ after, Filled same e all before after ∧ ∀ path' what' more,
      Mirrors w w' (fun r => decodeAdditions t value path' what' (all.map (hasField e))
        (all ++ more) before r nodes) (after, nodes + countFields count e all) := by
  induction all generalizing w before nodes with
  | nil =>
    cases hput
    exact ⟨before, .nil, fun _ _ _ => .nothing _ _⟩
  | cons f all ih =>
    have hre := fun g (hg : g ∈ all) => hl g (mem_cons_of_mem _ hg)
    rw [putAdditions] at hput
    cases hf : entry e f.name with
    | some u =>
      have hhas : hasField e f = true := by rw [hasField, hf, isSome_some]
      rw [hf] at hput
      rw [countFields_some hf] at hn ⊢
      obtain ⟨w₁, ho, hput⟩ := bind_eq_ok.1 hput
      obtain ⟨inner, hi, ho⟩ := bind_eq_ok.1 ho
      obtain ⟨u', hu', hd⟩ := decodeOpen_of_put h hi (hl f mem_cons_self u hf) nodes (by omega)
      obtain ⟨after, hfi, hr⟩ := ih hput hre (insertEntry before f.name u')
        (nodes + count f.ty u) (by omega)
      refine ⟨after, .cons hf hu' hfi, fun path' what' more => ?_⟩
      obtain ⟨ty, hty, hk⟩ := hresolve _ _ _ _ _ hi
      have ha : decodeAddition t value path' f inner.finish nodes =
          .ok (u', nodes + count f.ty u) := by
        rw [decodeAddition, hty, ok_bind]
        cases ty with
        | opaqueType why => exact absurd rfl (hk why)
        | _ => exact hd _
      rw [← Nat.add_assoc]
      simp only [map_cons, hhas, cons_append, decodeAdditions]
      refine bind (mirrors_openType ho what') ?_
      simp only [ha, ok_bind]
      exact hr path' what' more
    | none =>
      have hhas : hasField e f = false := by rw [hasField, hf, isSome_none]
      rw [hf] at hput
      rw [countFields_none hf] at hn ⊢
      obtain ⟨after, hfi, hr⟩ := ih hput hre before nodes hn
      refine ⟨after, .skip hfi hf, fun path' what' more => ?_⟩
      simp only [map_cons, hhas, cons_append, decodeAdditions, tail_cons]
      exact hr path' what' more

omit h in
theorem rposition_cases {α : Type} (p : α → Bool) (l : List α) :
    (∀ a ∈ l, p a = false) ∧ rposition p l = none ∨
      ∃ i, rposition p l = some i ∧ i < l.length ∧ ∀ a ∈ l.drop (i + 1), p a = false := by
  induction l with
  | nil => exact .inl ⟨nofun, rfl⟩
  | cons a l ih =>
    rw [rposition]
    obtain ⟨hl, hn⟩ | ⟨i, hi, hlt, hb⟩ := ih
    · rw [hn]
      cases ha : p a with
      | true => exact .inr ⟨0, rfl, Nat.succ_pos _, hl⟩
      | false => exact .inl ⟨forall_mem_cons.2 ⟨ha, hl⟩, rfl⟩
    · rw [hi]
      exact .inr ⟨i + 1, rfl, Nat.succ_lt_succ hlt, hb⟩

omit h in
theorem countFields_append (e : List (String × Json)) (fields more : List Field) :
    countFields count e (fields ++ more) = countFields count e fields + countFields count e more := by
  rw [countFields, filterMap_append, map_append, sum_append]
  rfl

omit h in
theorem countFields_absent {fields : List Field} (ha : ∀ f ∈ fields, entry e f.name = none) :
    countFields count e fields = 0 := by
  induction fields with
  | nil => rfl
  | cons f fields ih =>
    rw [countFields_none (ha f mem_cons_self), ih fun g hg => ha g (mem_cons_of_mem _ hg)]

omit h in
theorem isSome_lastNamed {more : List Field}
    (hknown : e.find? (fun p => !(root.any (·.name == p.1) || more.any (·.name == p.1))) = none)
    (hkey : (entry e key).isSome) : (lastNamed (root ++ more) key).isSome := by
  obtain ⟨u, hu⟩ := Option.isSome_iff_exists.1 hkey
  rw [entry, lookup_eq_some_iff] at hu
  obtain ⟨front, back, rfl, -⟩ := hu
  have hp := List.find?_eq_none.1 hknown _ (mem_append_right _ mem_cons_self)
  rw [← any_append, Bool.not_eq_true, Bool.not_eq_false'] at hp
  obtain ⟨f, hf, hna⟩ := List.any_eq_true.1 hp
  by_contra hn
  rw [not_isSome_iff_eq_none, lastNamed_eq_none] at hn
  exact hn f hf (eq_of_beq hna)

omit h in
theorem entry_eq_none_of_hasField (hf : hasField e f = false) : entry e f.name = none := by
  rwa [hasField, isSome_eq_false_iff, isNone_iff_eq_none] at hf

section

variable {t : Table} (hresolve : ∀ w w' index v path, put w index v path = .ok w' →
    ∃ ty, t.resolve index = .ok ty ∧ ∀ why, ty ≠ .opaqueType why)
  {e : List (String × Json)}

include hresolve

variable {path what : String} {w w' : Writer}

theorem mirrors_extensions {ext : List Field} (hput : putExtensions put e path what ext w = .ok w')
    (hl : ∀ f ∈ ext, ∀ u, entry e f.name = some u → legible f.ty u)
    (before : List (String × Json)) (nodes : ℕ)
    (hn : nodes + countFields count e ext ≤ maxPerNodes) :
    ∃ after, Filled same e ext before after ∧ ∀ path' what',
      Mirrors w w' (fun r => decodeExtensions t value path' what' ext
        (!(ext.filter (hasField e)).isEmpty).toNat before r nodes)
      (after, nodes + countFields count e ext) := by
  rw [putExtensions] at hput
  simp only [decodeExtensions]
  split_ifs at hput with he
  · cases hput
    have ha : ∀ f ∈ ext, entry e f.name = none := by
      intro f hf
      have hhas := List.filter_eq_nil_iff.1 (List.isEmpty_iff.1 he) f hf
      exact entry_eq_none_of_hasField (Bool.eq_false_iff.2 hhas)
    refine ⟨before, .none_present ha, fun path' what' => ?_⟩
    have he' : (ext.filter (hasField e)).isEmpty = true := he
    rw [countFields_absent ha, he']
    exact .nothing _ _
  have hs' : (ext.filter (hasField e)).isEmpty = false := Bool.eq_false_iff.2 he
  obtain ⟨hn, -⟩ | ⟨last, hla, hlt, hb⟩ := rposition_cases (hasField e) ext
  · exact absurd (filter_eq_nil_iff.2 fun f hf => by simp [hn f hf]) (isEmpty_eq_false_iff.1 hs')
  have hl' : rposition (fun f : Field => (entry e f.name).isSome) ext = some last := hla
  rw [hl'] at hput
  simp only [getD_some] at hput
  obtain ⟨w₁, hw₁, hput⟩ := bind_eq_ok.1 hput
  have hs := take_append_drop (last + 1) ext
  have ha : ∀ f ∈ ext.drop (last + 1), entry e f.name = none :=
    fun f hf => entry_eq_none_of_hasField (hb f hf)
  have hc : countFields count e ext = countFields count e (ext.take (last + 1)) := by
    conv_lhs => rw [← hs]
    rw [countFields_append, countFields_absent ha, Nat.add_zero]
  rw [hc] at hn ⊢
  obtain ⟨after, hfi, hr⟩ := mirrors_additions h hresolve hput
    (fun f hf => hl f (mem_of_mem_take hf)) before nodes hn
  refine ⟨after, ?_, fun path' what' => ?_⟩
  · rw [← hs]
    exact hfi.append (.none_present ha)
  rw [hs']
  simp only [Bool.not_false, Bool.toNat_true, if_true]
  refine bind (mirrors_normallySmall hw₁ what') ?_
  have hfl := mirrors_flags w₁ ((ext.take (last + 1)).map (hasField e)) what'
  rw [length_map, length_take, Nat.min_eq_left hlt] at hfl
  refine bind hfl ?_
  have hre := hr path' what' (ext.drop (last + 1))
  rw [hs] at hre
  exact hre

theorem mirrors_sequence {ext : Option (List Field)}
    (hput : putSequence put w root ext e path what = .ok w')
    (hl : ∀ f ∈ root ++ ext.getD [], ∀ u, entry e f.name = some u → legible f.ty u)
    (nodes : ℕ) (hn : nodes + countFields count e (root ++ ext.getD []) ≤ maxPerNodes) :
    ∃ e', Filled same e (root ++ ext.getD []) [] e' ∧
      (∀ key, (entry e key).isSome → (lastNamed (root ++ ext.getD []) key).isSome) ∧ ∀ path',
      Mirrors w w' (fun r => sequence t value root ext path' r nodes)
        (.object e', nodes + countFields count e (root ++ ext.getD [])) := by
  simp only [putSequence] at hput
  split at hput
  · cases hput
  rename_i hknown
  obtain ⟨w₁, hw₁, hput⟩ := bind_eq_ok.1 hput
  rw [countFields_append] at hn ⊢
  obtain ⟨middle, hfi, hfie⟩ := mirrors_fields h hw₁
    (fun f hf => hl f (mem_append_left _ hf)) [] nodes (by omega)
  obtain ⟨after, hf', he⟩ := mirrors_extensions h hresolve hput
    (fun f hf => hl f (mem_append_right _ hf)) middle
    (nodes + countFields count e root) (by omega)
  refine ⟨after, hfi.append hf', fun key => isSome_lastNamed hknown, fun path' => ?_⟩
  simp only [sequence]
  generalize (if path'.isEmpty then "sequence" else path') = what'
  have hext : (!((ext.getD []).filter (hasField e)).isEmpty) = true → ext.isSome = true := by
    intro hs
    cases ext with
    | none => cases hs
    | some fields => rfl
  refine bind (mirrors_extension w ext.isSome _ hext what') ?_
  have hfl := mirrors_flags (w.extension ext.isSome (!((ext.getD []).filter (hasField e)).isEmpty))
    ((root.filter Field.optional).map (hasField e)) what'
  rw [length_map] at hfl
  simp only
  refine bind hfl ?_
  simp only
  refine bind (hfie path') ?_
  rw [← Nat.add_assoc]
  exact (he path' what').map fun p => (Json.object p.1, p.2)

end

theorem mirrors_choice {ext : Option (List Field)} (hro : root.length < 2 ^ 63)
    (hput : putChoice put w root ext e path what = .ok w') :
    ∃ key u f, e = [(key, u)] ∧ (root ++ ext.getD []).find? (·.name == key) = some f ∧
      (legible f.ty u → ∀ nodes, nodes + count f.ty u ≤ maxPerNodes →
        ∃ u', same f.ty u u' ∧ ∀ path' what',
          Mirrors w w' (fun r => decodeChoice value root ext path' what' r nodes)
            (.object [(key, u')], nodes + count f.ty u)) := by
  unfold putChoice at hput
  split at hput
  · rename_i key u
    refine ⟨key, u, ?_⟩
    split at hput
    · -- an alternative of the root
      rename_i i hi
      obtain ⟨f, hget, hfi⟩ := find?_of_findIdx? hi
      have hna : f.name = key := eq_of_beq (find?_some (p := fun f : Field => f.name == key) hfi)
      have hlt : i < root.length := (List.getElem?_eq_some_iff.1 hget).1
      rw [hget] at hput
      refine ⟨f, rfl, by rw [find?_append, hfi, some_or], fun hl nodes hn => ?_⟩
      obtain ⟨u', hs, hr⟩ := h _ _ _ _ _ hput hl nodes hn
      refine ⟨u', hs, fun path' what' => ?_⟩
      simp only [decodeChoice]
      refine bind (mirrors_extension w ext.isSome false nofun what') ?_
      simp only [Bool.toNat_false, Nat.zero_ne_one, if_false]
      refine bind (mirrors_whole _ hlt (by omega) what') ?_
      simp only [hget, orErr, elim_some, ok_bind, hna]
      exact (hr _).map fun p => (Json.object [(key, p.1)], p.2)
    rename_i hno
    split at hput
    · -- an extension addition
      rename_i i hi
      obtain ⟨fields, rfl, hi⟩ := Option.bind_eq_some_iff.1 hi
      obtain ⟨f, hget, hfi⟩ := find?_of_findIdx? hi
      have hna : f.name = key :=
      eq_of_beq (find?_some (p := fun f : Field => f.name == key) hfi)
      obtain ⟨w₁, hw₁, hput⟩ := bind_eq_ok.1 hput
      rw [getD_some, hget, elim_some, ok_bind] at hput
      obtain ⟨inner, hin, ho⟩ := bind_eq_ok.1 hput
      have hrn : root.find? (·.name == key) = none := by
        rw [findIdx?_eq_none_iff] at hno
        rw [find?_eq_none]
        exact fun f hf => Bool.not_eq_true _ ▸ hno f hf
      refine ⟨f, rfl, by rw [getD_some, find?_append, hrn, none_or, hfi], fun hl nodes hn => ?_⟩
      obtain ⟨u', hs, hd⟩ := decodeOpen_of_put h hin hl nodes hn
      refine ⟨u', hs, fun path' what' => ?_⟩
      simp only [decodeChoice]
      refine bind (mirrors_extension w true true (fun _ => rfl) what') ?_
      simp only [Bool.toNat_true, if_true]
      refine bind (mirrors_normallySmall hw₁ what') ?_
      simp only
      refine bind (mirrors_openType ho what') ?_
      simp only [bind_some, hget, hd, ok_bind, hna]
      exact .nothing _ _
    · cases hput
  · cases hput

end

/-! ## All types -/

/-- Every alphabet of the table is one that its bits can hold. -/
def Table.Spells (t : Table) : Prop :=
  ∀ kind size source, .chars kind size source ∈ t.types → Spelled kind source

namespace Table

variable {t : Table} {index levels : ℕ} {ty : Ty} {v : Json} {w w' : Writer}

theorem resolve_of_put {path : String} (h : t.put levels w index v path = .ok w') (rounds : ℕ) :
    ∃ ty, t.resolveLoop rounds index = .ok ty ∧ ∀ why, ty ≠ .opaqueType why := by
  induction levels generalizing index path rounds with
  | zero => cases h
  | succ levels ih =>
    unfold put at h
    obtain ⟨ty, hty, h⟩ := bind_eq_ok.1 h
    have hk : ∀ why, ty ≠ .opaqueType why := by
      rintro why rfl
      cases h
    cases rounds with
    | zero => exact ⟨ty, hty, hk⟩
    | succ rounds =>
      rw [resolveLoop, hty, ok_bind]
      cases ty with
      | «alias» target => exact ih h rounds
      | _ => exact ⟨_, rfl, hk⟩

theorem count_eq (h : t.types[index]? = some ty) (levels : ℕ) (v : Json) :
    t.count (levels + 1) index v = 1 + ((ty.parts v).map fun p => t.count levels p.1 p.2).sum := by
  rw [count, h]
  rfl

theorem asStr_eq_some {s : String} (h : v.asStr = some s) : v = .string s := by
  cases v with
  | string s' =>
    cases h
    rfl
  | null | bool | number | float | array | object => cases h

theorem mirrors_leaf {α : Type} {read : Reader → PerResult (α × Reader)} {a : α}
    (h : Mirrors w w' read a) (f : α → Json) (nodes : ℕ) :
    Mirrors w w' (fun r => leaf f nodes (read r)) (f a, nodes) :=
  h.map fun a => (f a, nodes)

theorem length_le_sum_count {item : ℕ} (vs : List Json) :
    vs.length ≤ (vs.map (t.count levels item)).sum := by
  induction vs with
  | nil => exact Nat.le_refl _
  | cons v vs ih =>
    have hpos := t.count_pos levels item v
    rw [length_cons, map_cons, sum_cons]
    omega

/-- Values of every type make the round trip, by induction on the levels of nesting. -/
theorem roundTrips (hsp : t.Spells) (levels : ℕ) :
    RoundTrips (t.put levels) (t.value levels) (t.Same levels) (t.Legible levels)
      (t.count levels) := by
  induction levels with
  | zero =>
    intro w w' index v path hput
    cases hput
  | succ levels ih =>
    intro w w' index v path hput hl nodes hn
    unfold put at hput
    obtain ⟨ty, hty, hca⟩ := bind_eq_ok.1 hput
    clear hput
    have ht : t.types[index]? = some ty := elim_eq_ok.1 hty
    have hmem : ty ∈ t.types := mem_of_getElem? ht
    have hp : ∀ part ∈ ty.parts v, t.Legible levels part.1 part.2 := by
      rw [Legible, ht] at hl
      exact hl.2
    have hc := t.choices_lt ty hmem
    rw [count_eq ht] at hn ⊢
    have hro : ¬ maxPerNodes < nodes + 1 := by omega
    simp only [Same, ht, value, if_neg hro, hty, ok_bind]
    cases ty with
    | «alias» target =>
      simp only [Ty.parts, map_cons, map_nil, sum_cons, sum_nil, Nat.add_zero] at hn ⊢
      rw [← Nat.add_assoc] at hn ⊢
      exact ih _ _ _ _ _ hca (hp _ mem_cons_self) (nodes + 1) hn
    | null =>
      simp only at hca
      split at hca
      · cases hca
        exact ⟨.null, rfl, fun _ => .nothing _ _⟩
      · cases hca
    | boolean =>
      simp only at hca
      split at hca
      · rename_i b
        cases hca
        refine ⟨.bool b, rfl, fun path' => ?_⟩
        have hre := mirrors_leaf (mirrors_bits w (by decide : 1 ≤ 64) b.toNat_lt (t.what index path'))
          (fun bit => Json.bool (bit == 1)) (nodes + 1)
        have hbit : (b.toNat == 1) = b := by cases b <;> rfl
        rw [hbit] at hre
        exact hre
      · cases hca
    | int range =>
      obtain ⟨n, rfl, hre⟩ := mirrors_integer hca
      exact ⟨.number n, rfl, fun path' => mirrors_leaf (hre _) _ _⟩
    | enum root ext =>
      obtain ⟨name, hna, hput⟩ := bind_eq_ok.1 hca
      obtain rfl := asStr_eq_some (orErr_eq_ok.1 hna)
      exact ⟨.string name, rfl, fun path' => mirrors_leaf (mirrors_enumerated hc hput _) _ _⟩
    | octets size =>
      obtain ⟨raw, hraw, hput⟩ := bind_eq_ok.1 hca
      obtain ⟨s, hs, hd⟩ := Option.bind_eq_some_iff.1 (orErr_eq_ok.1 hraw)
      exact ⟨.string (hexEncode raw), ⟨s, raw, asStr_eq_some hs, hd, rfl⟩, fun path' =>
        mirrors_leaf (mirrors_octetString hput _) _ _⟩
    | bits size =>
      obtain ⟨s, hs, hput⟩ := bind_eq_ok.1 hca
      obtain ⟨hs, hb⟩ := Option.filter_eq_some_iff.1 (orErr_eq_ok.1 hs)
      obtain rfl := asStr_eq_some hs
      exact ⟨.string s, rfl, fun path' => mirrors_leaf (mirrors_bitString hb hput _) _ _⟩
    | chars kind size source =>
      obtain ⟨s, hs, hput⟩ := bind_eq_ok.1 hca
      obtain rfl := asStr_eq_some (orErr_eq_ok.1 hs)
      exact ⟨.string s, rfl, fun path' =>
        mirrors_leaf (mirrors_chars (hsp kind size source hmem) hput _) _ _⟩
    | oid =>
      obtain ⟨o, ho, hput⟩ := bind_eq_ok.1 hca
      obtain ⟨raw, hraw, hoc⟩ := bind_eq_ok.1 hput
      obtain rfl := orErr_eq_ok.1 hraw
      rcases hs : v.asStr with _ | s <;> rw [hs] at ho
      · cases ho
      obtain rfl := asStr_eq_some hs
      obtain ⟨arcs, ha, hst⟩ := oidToString_of_fromString ho
      rw [Legible] at hl
      have hte := hst.2 (hl.1 ht s arcs rfl ha)
      refine ⟨.string (dotted arcs), ⟨s, arcs, rfl, ha, rfl⟩, fun path' => ?_⟩
      obtain ⟨w₁, hw₁, hw'⟩ := bind_eq_ok.1 hoc
      cases hw'
      refine bind (mirrors_generalLength hw₁ _) ?_
      simp only
      refine bind (mirrors_octets w₁ raw _) ?_
      simp only [hte, orErr, elim_some, ok_bind]
      exact .nothing _ _
    | seq root ext =>
      simp only at hca
      split at hca
      · rename_i e
        obtain ⟨e', hfi, hknown, hre⟩ := mirrors_sequence ih
          (fun _ _ _ _ _ hput => resolve_of_put hput 16) hca (fun f hf u hu =>
            hp (f.ty, u) (mem_filterMap.2 ⟨f, hf, by rw [hu]; rfl⟩)) (nodes + 1)
          (by rw [Nat.add_assoc]; exact hn)
        rw [Nat.add_assoc] at hre
        exact ⟨.object e', ⟨e, e', rfl, rfl, fun key => hfi.isSome_eq hknown key,
          fun key u u' hu hu' => hfi.same_of_entry hknown hu hu'⟩, hre⟩
      · cases hca
    | choice root ext =>
      simp only at hca
      split at hca
      · rename_i e
        obtain ⟨key, u, f, rfl, hfind, hre⟩ := mirrors_choice ih hc hca
        have hpa : Ty.parts (.choice root ext) (.object [(key, u)]) = [(f.ty, u)] := by
          simp only [Ty.parts, filterMap_cons, hfind, map_some, filterMap_nil]
        rw [hpa] at hn hp ⊢
        simp only [map_cons, map_nil, sum_cons, sum_nil, Nat.add_zero] at hn ⊢
        rw [← Nat.add_assoc] at hn ⊢
        obtain ⟨u', hsa, hr⟩ := hre (hp _ mem_cons_self) (nodes + 1) hn
        exact ⟨_, ⟨key, u, u', rfl, rfl, f, hfind, hsa⟩, fun path' => hr path' _⟩
      · cases hca
    | seqOf size item =>
      simp only at hca
      split at hca
      · rename_i vs
        obtain ⟨w₁, hw₁, hput⟩ := bind_eq_ok.1 hca
        have hsum : ((Ty.parts (.seqOf size item) (.array vs)).map fun p =>
            t.count levels p.1 p.2).sum = (vs.map (t.count levels item)).sum := by
          rw [Ty.parts, List.map_map]
          rfl
        rw [hsum, ← Nat.add_assoc] at hn ⊢
        obtain ⟨vs', hsa, hre⟩ := mirrors_elements ih hput (fun v hv =>
          hp (item, v) (mem_map_of_mem hv)) (nodes + 1) hn
        refine ⟨.array vs', ⟨vs, vs', rfl, rfl, hsa⟩, fun path' => ?_⟩
        refine bind (mirrors_length hw₁ _) ?_
        have hle : vs.length ≤ (vs.map (t.count levels item)).sum := length_le_sum_count vs
        simp only [if_neg (by omega : ¬ maxPerNodes < vs.length)]
        exact (hre path' 0).map fun p => (Json.array p.1, p.2)
      · cases hca
    | opaqueType why => cases hca

end Table

/-- What was encoded is decoded to the same value, up to the letter case of octets and the spelling
of object identifiers, if the table's alphabets can be held by their bits, arcs are small enough to
be read, and there are not too many values and steps through aliases. -/
theorem decode_encode {t : Table} (hspells : t.Spells) {root : ℕ} {v : Json} {bytes : Bytes}
    (hencode : t.encode root v = .ok bytes) (hlegible : t.Legible (maxPerDepth + 1) root v)
    (hcount : t.count (maxPerDepth + 1) root v ≤ maxPerNodes) :
    ∃ v', t.decode root bytes = .ok v' ∧ t.Same (maxPerDepth + 1) root v v' := by
  obtain ⟨w, hput, hb⟩ := bind_eq_ok.1 hencode
  cases hb
  obtain ⟨v', hs, hd⟩ := decodeOpen_of_put (t.roundTrips hspells (maxPerDepth + 1)) hput
    hlegible 0 (by rwa [Nat.zero_add])
  refine ⟨v', ?_, hs⟩
  obtain ⟨⟨⟨v₁, nodes⟩, r⟩, hv, h⟩ := bind_eq_ok.1 (hd "")
  cases h
  rw [Table.decode, hv]
  rfl

/-- A sequence with octets, an optional integer and an extension addition that is an object
identifier behind an alias. -/
def sampleTable : Table where
  types :=
    [.seq [⟨"data", 1, false⟩, ⟨"port", 2, true⟩] (some [⟨"id", 3, true⟩]),
      .octets { lb := 1, ub := some 4, ext := false },
      .int { lb := some 0, ub := some 65535, ext := true }, .alias 4, .oid]
  names := []
  choices_lt := by decide

theorem decode_encode_sample :
    sampleTable.encode 0 (.object [("id", .string "0.8"), ("data", .string "AB")]) =
      .ok [0x80, 0xAB, 0x01, 0x02, 0x01, 0x08] ∧
    ∃ v', sampleTable.decode 0 [0x80, 0xAB, 0x01, 0x02, 0x01, 0x08] = .ok v' ∧
      sampleTable.Same (maxPerDepth + 1) 0
        (.object [("id", .string "0.8"), ("data", .string "AB")]) v' := by
  have he : sampleTable.encode 0 (.object [("id", .string "0.8"), ("data", .string "AB")]) =
      .ok [0x80, 0xAB, 0x01, 0x02, 0x01, 0x08] := by rfl
  have hsp : sampleTable.Spells := by
    intro kind size source hmem
    simp [sampleTable] at hmem
  have ha : oidArcs "0.8" = some [0, 8] := rfl
  have hf : OidFits [0, 8] := ⟨by decide, by decide⟩
  refine ⟨he, decode_encode hsp he ?_ (by decide)⟩
  have hoid : sampleTable.Legible (maxPerDepth - 1) 4 (.string "0.8") := by
    refine ⟨fun _ s arcs hs hoid => ?_, fun _ hp => nomatch hp⟩
    cases hs
    rw [ha] at hoid
    cases hoid
    exact hf
  have hd : sampleTable.Legible maxPerDepth 1 (.string "AB") :=
    ⟨(nomatch ·), fun _ hp => nomatch hp⟩
  have hid : sampleTable.Legible maxPerDepth 3 (.string "0.8") :=
    ⟨(nomatch ·), forall_mem_singleton.2 hoid⟩
  refine ⟨(nomatch ·), ?_⟩
  show ∀ p ∈ [(1, Json.string "AB"), (3, Json.string "0.8")],
    sampleTable.Legible maxPerDepth p.1 p.2
  exact forall_mem_cons.2 ⟨hd, forall_mem_singleton.2 hid⟩

/-- An object identifier with a leading zero comes back without it, and a string over an empty
alphabet comes back as other characters. -/
theorem decode_encode_differs :
    ({ types := [.oid], names := [], choices_lt := by decide } : Table).encode 0
      (.string "01.2") = .ok [1, 42] ∧
    ({ types := [.oid], names := [], choices_lt := by decide } : Table).decode 0 [1, 42] =
      .ok (.string "1.2") ∧
    ({ types := [.chars .ia5 { lb := 1, ub := some 1, ext := false } (some "")], names := [],
       choices_lt := by decide } : Table).encode 0 (.string "A") = .ok [0] ∧
    ({ types := [.chars .ia5 { lb := 1, ub := some 1, ext := false } (some "")], names := [],
       choices_lt := by decide } : Table).decode 0 [0] =
      .ok (.string (String.singleton (Char.ofNat 0))) := by
  refine ⟨?_, ?_, ?_, ?_⟩
  · rfl
  · rfl
  · rfl
  · rfl

end NetGet.Per
