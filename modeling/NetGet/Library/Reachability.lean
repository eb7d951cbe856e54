import Mathlib.Data.List.Nodup
import Mathlib.Data.List.Perm.Subperm

/-! # Worklist search and acyclic relations -/

namespace NetGet.Library.Reachability

open List

variable {α : Type*} {succ : α → List α} {goal : α} {fuel : ℕ} {r r' : α → α → Prop}
  {nodes stack seen stack' seen' : List α}

/-- A node that has been seen is still on the stack, or all its successors have been seen
and none is the goal. The nodes that can be seen are in `nodes`, and there is fuel for all
of them. -/
structure Frontier (succ : α → List α) (goal : α) (nodes : List α) (fuel : ℕ)
    (stack seen : List α) : Prop where
  stack_subset : stack ⊆ seen
  closed : ∀ x ∈ seen, x ∉ stack → goal ∉ succ x ∧ succ x ⊆ seen
  nodup : seen.Nodup
  seen_subset : seen ⊆ nodes
  enough : nodes.length + stack.length ≤ fuel + seen.length

theorem Frontier.init {start : α} (hs : start ∈ nodes) :
    Frontier succ goal nodes nodes.length [start] [start] where
  stack_subset := List.Subset.refl _
  closed := fun _ hx hnot => absurd hx hnot
  nodup := nodup_singleton start
  seen_subset := by simpa using hs
  enough := Nat.le_refl _

theorem Frontier.length_le (h : Frontier succ goal nodes fuel stack seen) :
    seen.length ≤ nodes.length :=
  (subperm_of_subset h.nodup h.seen_subset).length_le

/-- Once the stack is empty, nothing reachable from what has been seen leads to the goal. -/
theorem Frontier.notMem_of_path (h : Frontier succ goal nodes fuel [] seen)
    {x y : α} (hx : x ∈ seen) (hp : Relation.ReflTransGen (fun a b => b ∈ succ a) x y) :
    goal ∉ succ y := by
  have hy : y ∈ seen := by
    induction hp with
    | refl => exact hx
    | tail _ hs ih => exact (h.closed _ ih not_mem_nil).2 hs
  exact (h.closed y hy not_mem_nil).1

section Search

variable [DecidableEq α]

/-- Push the successors not seen yet, last one on top, or `none` when one is the goal. -/
def pushUnseen (goal : α) : List α → List α → List α → Option (List α × List α)
  | [], stack, seen => some (stack, seen)
  | next :: nexts, stack, seen =>
    if next = goal then none
    else if next ∈ seen then pushUnseen goal nexts stack seen
    else pushUnseen goal nexts (next :: stack) (seen ++ [next])

/-- Whether an edge into the goal is found from the stack in at most `fuel` turns. -/
def search (succ : α → List α) (goal : α) : ℕ → List α → List α → Bool
  | _, [], _ => false
  | 0, _ :: _, _ => false
  | fuel + 1, node :: stack, seen =>
    match pushUnseen goal (succ node) stack seen with
    | none => true
    | some (stack, seen) => search succ goal fuel stack seen

variable {goal : α}

/-- The successors pushed are the new ones, and then all successors have been seen. -/
theorem pushUnseen_eq_some {nexts : List α}
    (h : pushUnseen goal nexts stack seen = some (stack', seen')) :
    goal ∉ nexts ∧ nexts ⊆ seen' ∧ (seen.Nodup → seen'.Nodup) ∧
      ∃ fresh, stack' = fresh.reverse ++ stack ∧ seen' = seen ++ fresh ∧ fresh ⊆ nexts := by
  induction nexts generalizing stack seen with
  | nil =>
    cases h
    exact ⟨not_mem_nil, nil_subset _, id, [], by simp⟩
  | cons next nexts ih =>
    rw [pushUnseen] at h
    split at h
    · simp at h
    rename_i hg
    split_ifs at h with hse
    · obtain ⟨hn, hs, hno, fresh, hst, hf, hnew⟩ := ih h
      refine ⟨?_, ?_, hno, fresh, hst, hf, ?_⟩
      · simp [Ne.symm hg, hn]
      · refine cons_subset.2 ⟨?_, hs⟩
        rw [hf]
        exact mem_append_left _ hse
      · exact List.Subset.trans hnew (subset_cons_self _ _)
    obtain ⟨hn, hs, hno, fresh, hst, hf, hnew⟩ := ih h
    refine ⟨?_, ?_, ?_, next :: fresh, ?_, ?_, ?_⟩
    · simp [Ne.symm hg, hn]
    · refine cons_subset.2 ⟨?_, hs⟩
      rw [hf]
      simp
    · intro hsn
      apply hno
      refine nodup_append.2 ⟨hsn, nodup_singleton next, ?_⟩
      intro x hx y hy heq
      rw [mem_singleton.1 hy] at heq
      exact hse (heq ▸ hx)
    · simp [hst]
    · simp [hf]
    · exact cons_subset_cons next hnew

theorem pushUnseen_eq_none {nexts : List α} (h : pushUnseen goal nexts stack seen = none) :
    goal ∈ nexts := by
  induction nexts generalizing stack seen with
  | nil => simp [pushUnseen] at h
  | cons next nexts ih =>
    rw [pushUnseen] at h
    split at h
    · rename_i hg
      simp [hg]
    · split at h <;> exact mem_cons_of_mem _ (ih h)

variable {fuel : ℕ}

theorem Frontier.push {node : α}
    (h : Frontier succ goal nodes (fuel + 1) (node :: stack) seen) (hn : ∀ x, succ x ⊆ nodes)
    (hp : pushUnseen goal (succ node) stack seen = some (stack', seen')) :
    Frontier succ goal nodes fuel stack' seen' ∧ seen ⊆ seen' := by
  obtain ⟨hg, hs, hno, fresh, rfl, rfl, hf⟩ := pushUnseen_eq_some hp
  have hse : seen ⊆ seen ++ fresh := subset_append_left seen fresh
  refine ⟨⟨?_, ?_, hno h.nodup, ?_, ?_⟩, hse⟩
  · intro x hx
    rcases mem_append.1 hx with hx | hx
    · exact mem_append_right _ (mem_reverse.1 hx)
    · exact hse (h.stack_subset (mem_cons_of_mem _ hx))
  · intro x hx hnot
    have hnf : x ∉ fresh := fun hmem => hnot (mem_append_left _ (mem_reverse.2 hmem))
    have hns : x ∉ stack := fun hmem => hnot (mem_append_right _ hmem)
    have hxs : x ∈ seen := (mem_append.1 hx).resolve_right hnf
    by_cases hnode : x = node
    · subst hnode
      exact ⟨hg, hs⟩
    · have hc := h.closed x hxs (by simp [hnode, hns])
      exact ⟨hc.1, List.Subset.trans hc.2 hse⟩
  · exact append_subset.2 ⟨h.seen_subset, List.Subset.trans hf (hn node)⟩
  · have he := h.enough
    simp only [length_cons, length_append, length_reverse] at he ⊢
    omega

/-- With enough fuel, a search that fails has visited everything reachable. -/
theorem Frontier.search_eq_false (h : Frontier succ goal nodes fuel stack seen)
    (hn : ∀ x, succ x ⊆ nodes)
    (hf : search succ goal fuel stack seen = false) {x y : α} (hx : x ∈ seen)
    (hp : Relation.ReflTransGen (fun a b => b ∈ succ a) x y) : goal ∉ succ y := by
  induction fuel generalizing stack seen with
  | zero =>
    cases stack with
    | nil => exact h.notMem_of_path hx hp
    | cons node stack =>
      have he := h.enough
      have hl := h.length_le
      simp only [length_cons] at he
      omega
  | succ fuel ih =>
    cases stack with
    | nil => exact h.notMem_of_path hx hp
    | cons node stack =>
      rw [search] at hf
      split at hf
      · simp at hf
      · rename_i hpu
        obtain ⟨hne, hs⟩ := h.push hn hpu
        exact ih hne hf (hs hx)

/-- A search that succeeds has found a path from the stack. -/
theorem search_eq_true (ht : search succ goal fuel stack seen = true) :
    ∃ x ∈ stack, Relation.TransGen (fun a b => b ∈ succ a) x goal := by
  induction fuel generalizing stack seen with
  | zero => cases stack <;> simp [search] at ht
  | succ fuel ih =>
    cases stack with
    | nil => simp [search] at ht
    | cons node stack =>
      rw [search] at ht
      split at ht
      · rename_i hp
        exact ⟨node, mem_cons_self, .single (pushUnseen_eq_none hp)⟩
      rename_i hp
      obtain ⟨-, -, -, fresh, rfl, -, hf⟩ := pushUnseen_eq_some hp
      obtain ⟨x, hx, hpa⟩ := ih ht
      rcases mem_append.1 hx with hx | hx
      · have hs : x ∈ succ node := hf (mem_reverse.1 hx)
        exact ⟨node, mem_cons_self, .head hs hpa⟩
      · exact ⟨x, mem_cons_of_mem _ hx, hpa⟩

/-- With a turn for each node, the search finds exactly the paths from the start. -/
theorem search_iff {start : α} (hs : start ∈ nodes) (hn : ∀ x, succ x ⊆ nodes) :
    search succ goal nodes.length [start] [start] = true ↔
      Relation.TransGen (fun a b => b ∈ succ a) start goal := by
  constructor
  · intro ht
    obtain ⟨x, hx, hp⟩ := search_eq_true ht
    rwa [mem_singleton.1 hx] at hp
  intro hp
  by_contra hf
  obtain ⟨y, hy, hg⟩ := Relation.TransGen.tail'_iff.1 hp
  exact (Frontier.init hs).search_eq_false hn (by simpa using hf)
    mem_cons_self hy hg

end Search

def Acyclic (r : α → α → Prop) : Prop := ∀ x, ¬ Relation.TransGen r x x

theorem Acyclic.mono (h : Acyclic r) (hsub : ∀ a b, r' a b → r a b) : Acyclic r' :=
  fun x hx => h x (Relation.TransGen.mono hsub x x hx)

/-- A path in the larger relation either avoids the new edge or runs to its source first and
from its target last. -/
theorem reflTransGen_of_insert {a b x y : α}
    (he : ∀ u v, r' u v → r u v ∨ u = a ∧ v = b) (hp : Relation.ReflTransGen r' x y) :
    Relation.ReflTransGen r x y ∨ Relation.ReflTransGen r x a ∧ Relation.ReflTransGen r b y := by
  induction hp with
  | refl => exact Or.inl .refl
  | tail _ hs ih =>
    rcases he _ _ hs with hold | ⟨rfl, rfl⟩
    · rcases ih with hd | ⟨hto, hf⟩
      · exact Or.inl (hd.tail hold)
      · exact Or.inr ⟨hto, hf.tail hold⟩
    · rcases ih with hd | ⟨hto, -⟩
      · exact Or.inr ⟨hd, .refl⟩
      · exact Or.inr ⟨hto, .refl⟩

theorem Acyclic.insert {a b : α} (h : Acyclic r) (he : ∀ u v, r' u v → r u v ∨ u = a ∧ v = b)
    (hb : ¬ Relation.ReflTransGen r b a) : Acyclic r' := by
  intro x hc
  obtain ⟨y, hs, hp⟩ := Relation.TransGen.head'_iff.1 hc
  rcases reflTransGen_of_insert he hp with hd | ⟨hto, hf⟩
  · rcases he x y hs with hold | ⟨rfl, rfl⟩
    · exact h x (.head' hold hd)
    · exact hb hd
  · rcases he x y hs with hold | ⟨rfl, rfl⟩
    · exact hb (hf.trans ((Relation.ReflTransGen.single hold).trans hto))
    · exact hb hto

end NetGet.Library.Reachability
