import NetGet.Model.Pipe

/-! # The cycle test of pipes -/

namespace NetGet

open Library
open Reachability

/-- Some pipe forwards from the one server to the other. -/
def PipeEdge (pipes : List PipeSpec) (source target : ServerId) : Prop :=
  ∃ pipe ∈ pipes, pipe.source = source ∧ pipe.target = target

theorem mem_pipeTargets {pipes : List PipeSpec} {source target : ServerId} :
    target ∈ pipeTargets pipes source ↔ PipeEdge pipes source target := by
  simp only [pipeTargets, List.mem_map, List.mem_filter, decide_eq_true_eq, PipeEdge, and_assoc]

/-- The test refuses an edge exactly when its source can be reached from its target. -/
theorem wouldCreateCycle_iff (pipes : List PipeSpec) (source target : ServerId) :
    wouldCreateCycle pipes source target = true ↔
      Relation.ReflTransGen (PipeEdge pipes) target source := by
  have he : (fun a b => b ∈ pipeTargets pipes a) = PipeEdge pipes := by
    funext a b
    exact propext mem_pipeTargets
  have hn : ∀ node, pipeTargets pipes node ⊆ target :: pipes.map PipeSpec.target := by
    intro node next hnext
    obtain ⟨pipe, hp, -, rfl⟩ := mem_pipeTargets.1 hnext
    exact List.mem_cons_of_mem _ (List.mem_map_of_mem hp)
  have hs : search (pipeTargets pipes) source (pipes.length + 1) [target] [target] = true ↔
      Relation.TransGen (PipeEdge pipes) target source := by
    rw [← he, ← List.length_map PipeSpec.target, ← List.length_cons]
    exact search_iff List.mem_cons_self hn
  unfold wouldCreateCycle
  split_ifs with heq
  · simp [heq, Relation.ReflTransGen.refl]
  · rw [hs, Relation.reflTransGen_iff_eq_or_transGen]
    simp [heq]

end NetGet
