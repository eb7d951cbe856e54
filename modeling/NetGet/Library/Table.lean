import Mathlib.Data.List.AList

/-! # Finite maps with bulk updates -/

namespace NetGet.Library

/-- A finite map whose values all have one type. -/
abbrev Table (K V : Type*) := AList (fun _ : K => V)

end NetGet.Library

namespace AList

open NetGet.Library List

variable {K V W : Type*} {t : Table K V} {k : K}

def values (t : Table K V) : List V := t.entries.map Sigma.snd

def retain (p : K → V → Bool) (t : Table K V) : Table K V :=
  ⟨t.entries.filter fun e => p e.1 e.2, t.nodupKeys.sublist List.filter_sublist⟩

def mapValues (f : K → V → W) (t : Table K V) : Table K W :=
  ⟨t.entries.map fun e => ⟨e.1, f e.1 e.2⟩, by
    have hkeys : (t.entries.map fun e => (⟨e.1, f e.1 e.2⟩ : Σ _ : K, W)).keys =
        t.entries.keys := by
      simp [List.keys, Function.comp_def]
    simpa only [List.NodupKeys, hkeys] using t.nodupKeys⟩

@[simp] theorem keys_mapValues (f : K → V → W) (t : Table K V) : (t.mapValues f).keys = t.keys := by
  simp [keys, mapValues, List.keys, Function.comp_def]

@[simp] theorem mem_mapValues {f : K → V → W} : k ∈ t.mapValues f ↔ k ∈ t := by
  rw [mem_keys, mem_keys, keys_mapValues]

variable [DecidableEq K] {v : V} {p : K → V → Bool}

/-- Change the value at one key in place, when there is one. -/
def modify (k : K) (f : V → V) (t : Table K V) : Table K V :=
  t.mapValues fun k' v => if k' = k then f v else v

def eraseAll (ks : List K) (t : Table K V) : Table K V :=
  ks.foldl (fun t k => t.erase k) t

theorem lookup_insert_ite (k k' : K) (v : V) (t : Table K V) :
    (t.insert k v).lookup k' = if k' = k then some v else t.lookup k' := by
  by_cases h : k' = k
  · subst h
    simp
  · simp [h]

theorem lookup_erase_ite (k k' : K) (t : Table K V) :
    (t.erase k).lookup k' = if k' = k then none else t.lookup k' := by
  by_cases h : k' = k
  · subst h
    simp
  · simp [h]

theorem lookup_of_erase {k' : K} (h : (t.erase k).lookup k' = some v) : t.lookup k' = some v := by
  rw [lookup_erase_ite] at h
  split at h
  · cases h
  · exact h

theorem forall_insert {P : K → V → Prop} (h : ∀ k v, t.lookup k = some v → P k v) (hk : P k v) :
    ∀ k' v', (t.insert k v).lookup k' = some v' → P k' v' := by
  intro k' v' hl
  rw [lookup_insert_ite] at hl
  split at hl
  · rename_i he
    cases hl
    exact he ▸ hk
  · exact h k' v' hl

theorem forall_mem_insert {P : K → Prop} (h : ∀ k ∈ t, P k) (hk : P k) (v : V) :
    ∀ k' ∈ t.insert k v, P k' := by
  intro k' hk'
  obtain rfl | hk' := (mem_insert _).1 hk'
  · exact hk
  · exact h k' hk'

theorem erase_of_notMem (h : k ∉ t) : t.erase k = t :=
  AList.ext (kerase_of_notMem_keys h)

theorem mem_entries_iff : ⟨k, v⟩ ∈ t.entries ↔ t.lookup k = some v :=
  mem_lookup_iff.symm

theorem mem_iff_lookup : k ∈ t ↔ ∃ v, t.lookup k = some v := by
  rw [← lookup_isSome, Option.isSome_iff_exists]

theorem mem_values_iff : v ∈ t.values ↔ ∃ k, t.lookup k = some v := by
  constructor
  · intro h
    obtain ⟨⟨k, w⟩, hmem, rfl⟩ := mem_map.1 h
    exact ⟨k, mem_entries_iff.1 hmem⟩
  · rintro ⟨k, h⟩
    exact mem_map.2 ⟨⟨k, v⟩, mem_entries_iff.2 h, rfl⟩

/-- Where a value tells its own key, the values in order tell the keys in order. -/
theorem map_values_eq_keys {f : V → K} (h : ∀ k v, t.lookup k = some v → f v = k) :
    t.values.map f = t.keys := by
  rw [values, List.map_map]
  refine List.map_congr_left ?_
  intro entry he
  exact h entry.1 entry.2 (mem_entries_iff.1 he)

@[simp] theorem lookup_retain (p : K → V → Bool) (t : Table K V) (k : K) :
    (t.retain p).lookup k = (t.lookup k).filter (p k) := by
  apply Option.ext
  intro v
  rw [← mem_entries_iff]
  simp only [retain, mem_filter, mem_entries_iff, Option.filter_eq_some_iff]

@[simp] theorem lookup_mapValues (f : K → V → W) (t : Table K V) (k : K) :
    (t.mapValues f).lookup k = (t.lookup k).map (f k) := by
  apply Option.ext
  intro w
  rw [← mem_entries_iff]
  simp only [mapValues, List.mem_map, Option.map_eq_some_iff]
  constructor
  · rintro ⟨⟨k', v⟩, hmem, heq⟩
    cases heq
    exact ⟨v, mem_entries_iff.1 hmem, rfl⟩
  · rintro ⟨v, hv, rfl⟩
    exact ⟨⟨k, v⟩, mem_entries_iff.2 hv, rfl⟩

theorem mem_retain : k ∈ t.retain p ↔ ∃ v, t.lookup k = some v ∧ p k v = true := by
  simp [mem_iff_lookup, Option.filter_eq_some_iff]

theorem mem_of_mem_retain (h : k ∈ t.retain p) : k ∈ t := by
  obtain ⟨v, hv, -⟩ := mem_retain.1 h
  exact mem_iff_lookup.2 ⟨v, hv⟩

theorem lookup_modify (k k' : K) (f : V → V) (t : Table K V) :
    (t.modify k f).lookup k' = if k' = k then (t.lookup k').map f else t.lookup k' := by
  rw [modify, lookup_mapValues]
  split <;> simp_all

@[simp] theorem mem_modify {k' : K} {f : V → V} : k' ∈ t.modify k f ↔ k' ∈ t :=
  mem_mapValues

@[simp] theorem lookup_eraseAll (ks : List K) (t : Table K V) (k : K) :
    (t.eraseAll ks).lookup k = if k ∈ ks then none else t.lookup k := by
  induction ks generalizing t with
  | nil => simp [eraseAll]
  | cons k' ks ih =>
    change ((t.erase k').eraseAll ks).lookup k = _
    rw [ih]
    by_cases h : k = k'
    · subst h
      simp
    · simp [h]

@[simp] theorem mem_eraseAll {ks : List K} : k ∈ t.eraseAll ks ↔ k ∉ ks ∧ k ∈ t := by
  rw [← lookup_isSome, lookup_eraseAll, ← lookup_isSome]
  split <;> simp_all

theorem keys_erase_perm (h : k ∈ t) : (k :: (t.erase k).keys).Perm t.keys := by
  rw [keys_erase]
  exact (perm_cons_erase (mem_keys.1 h)).symm

theorem keys_insert_perm (h : k ∈ t) (v : V) : (t.insert k v).keys.Perm t.keys := by
  rw [keys_insert]
  exact (perm_cons_erase (mem_keys.1 h)).symm

theorem keys_insert_of_notMem (h : k ∉ t) (v : V) : (t.insert k v).keys = k :: t.keys := by
  rw [keys_insert, erase_of_not_mem (fun hmem => h (mem_keys.2 hmem))]

theorem values_insert (k : K) (v : V) (t : Table K V) :
    (t.insert k v).values = v :: (t.erase k).values := rfl

theorem values_perm (h : t.lookup k = some v) : t.values.Perm (v :: (t.erase k).values) := by
  have hkey : k ∈ t.entries.keys := mem_keys.1 (mem_iff_lookup.2 ⟨v, h⟩)
  obtain ⟨w, front, back, -, he, her⟩ := exists_of_kerase hkey
  have hw : w = v := by
    have hmem : ⟨k, w⟩ ∈ t.entries := by simp [he]
    exact Option.some.inj ((mem_entries_iff.1 hmem).symm.trans h)
  have hp : t.entries.Perm (⟨k, v⟩ :: (t.erase k).entries) := by
    have heq : (t.erase k).entries = front ++ back := her
    rw [heq, he, hw]
    exact perm_middle
  exact hp.map Sigma.snd

end AList
