import FindBoundary.Interchange
import FindBoundary.LiveLoop

/-!
# The merge and its iterators

The loops of `mergeCallGraphNode` go by live iterators through lists of the nodes that are merged,
while their bodies append to lists of nodes, and the same nodes may be among these when functions
are recursive. They never append to the list they go through: the copying loop appends at the node
whose list is empty, and where an adopting loop goes through the parents that it would append to,
all of these call its target already.
-/

namespace FindBoundary

namespace CallGraph

open LiveLoop

variable {ast : ASTContext} (G : CallGraph)

/-! ## The merge with live iterators -/

/-- The first part of `mergeCallGraphNode`, by iterators. -/
def liveCopyCallees (fuel : ℕ) (n1 n2 : NodeRef) : Option CallGraph :=
  if G.empty n1 then LiveLoop.run (CallGraph.callees · n2) (fun G it => G.addCallee n1 it) fuel 0 G
  else if G.empty n2 then
    LiveLoop.run (CallGraph.callees · n1) (fun G it => G.addCallee n2 it) fuel 0 G
  else some G

/-- One of the loops of the second part, by iterators. -/
def liveAdoptParents (fuel : ℕ) (source target : NodeRef) : Option CallGraph :=
  LiveLoop.run (CallGraph.parents · source) (fun G it => G.adopt target it) fuel 0 G

/-- `mergeCallGraphNode`, by iterators. -/
def liveMergeCallGraphNode (fuel : ℕ) (n1 n2 : NodeRef) : Option CallGraph :=
  (G.liveCopyCallees fuel n1 n2).bind fun G =>
    if (G.parents n1).isEmpty && !(G.parents n2).isEmpty then
      G.liveAdoptParents fuel n2 n1
    else if (G.parents n2).isEmpty && !(G.parents n1).isEmpty then
      G.liveAdoptParents fuel n1 n2
    else if !(G.parents n1).isEmpty && !(G.parents n2).isEmpty then
      (G.liveAdoptParents fuel n2 n1).bind fun G => G.liveAdoptParents fuel n1 n2
    else some G

variable {G} {n1 n2 : NodeRef}

/-! ## No loop disturbs its list -/

/-- A node that takes the callees of another one has none, so it is another node or there are no
callees to take. -/
theorem undisturbed_copy (h : G.callees n1 = []) :
    Undisturbed (CallGraph.callees · n2) (fun G it => G.addCallee n1 it) G := by
  intro done hdone
  change (done.foldl (fun (G : CallGraph) it => G.addCallee n1 it) G).callees n2 = G.callees n2
  rw [callees_foldl_addCallee]
  split
  · rename_i hn
    subst hn
    simp only [h, List.prefix_nil] at hdone ⊢
    exact hdone
  · rfl

/-- A parent of the target calls it. -/
theorem WF.undisturbed_adopt (h : WF G) (source target : NodeRef) :
    Undisturbed (CallGraph.parents · source) (fun G it => G.adopt target it) G := by
  by_cases hne : source = target
  · subst hne
    refine undisturbed_of_step (I := fun G' => G' = G) rfl ?_
    intro G' heq _ it hit
    rw [heq]
    have hcalls : source ∈ G.callees it := (h.mem_parents_iff it source).mp hit
    have hsame : G.adopt source it = G := if_pos hcalls
    exact ⟨hsame, congrArg (CallGraph.parents · source) hsame⟩
  · refine undisturbed_of_step (I := fun _ => True) trivial fun G' _ hread it _ => ⟨trivial, ?_⟩
    simp only [CallGraph.adopt]
    split
    · exact hread
    · rw [parents_addCallee, if_neg fun hq => hne hq.1]
      exact hread

/-! ## The live merge -/

theorem empty_iff {p : NodeRef} : G.empty p = true ↔ G.callees p = [] := List.isEmpty_iff

theorem liveCopyCallees_eq {fuel : ℕ} (hfuel1 : (G.callees n1).length < fuel)
    (hfuel2 : (G.callees n2).length < fuel) :
    G.liveCopyCallees fuel n1 n2 = some (G.copyCallees n1 n2) := by
  simp only [liveCopyCallees, copyCallees]
  by_cases h1 : G.callees n1 = []
  · rw [if_pos (empty_iff.mpr h1), if_pos (empty_iff.mpr h1)]
    exact run_eq (undisturbed_copy h1) hfuel2
  · have h1' : ¬ G.empty n1 = true := fun h => h1 (empty_iff.mp h)
    rw [if_neg h1', if_neg h1']
    by_cases h2 : G.callees n2 = []
    · rw [if_pos (empty_iff.mpr h2), if_pos (empty_iff.mpr h2)]
      exact run_eq (undisturbed_copy h2) hfuel1
    · have h2' : ¬ G.empty n2 = true := fun h => h2 (empty_iff.mp h)
      rw [if_neg h2', if_neg h2']

theorem WF.liveAdoptParents_eq (h : WF G) {fuel : ℕ} {source : NodeRef} (target : NodeRef)
    (hfuel : (G.parents source).length < fuel) :
    G.liveAdoptParents fuel source target = some (G.adoptParents source target) :=
  run_eq (h.undisturbed_adopt source target) hfuel

/-- **The merge loops never modify the list they go through**, and so the merge is the same by
live iterators as over snapshots: with enough fuel for the lists as they are when the loops start
it returns the same graph. -/
theorem WF.merge_loops_undisturbed (h : WF G) (hn1 : G.IsFunctionNode n1)
    (hn2 : G.IsFunctionNode n2) :
    (G.callees n1 = [] → Undisturbed (CallGraph.callees · n2) (fun G it => G.addCallee n1 it) G) ∧
    (G.callees n2 = [] → Undisturbed (CallGraph.callees · n1) (fun G it => G.addCallee n2 it) G) ∧
    Undisturbed (CallGraph.parents · n2) (fun G it => G.adopt n1 it) (G.copyCallees n1 n2) ∧
    Undisturbed (CallGraph.parents · n1) (fun G it => G.adopt n2 it) (G.copyCallees n1 n2) ∧
    Undisturbed (CallGraph.parents · n1) (fun G it => G.adopt n2 it)
      ((G.copyCallees n1 n2).adoptParents n2 n1) ∧
    ∃ fuel₀, ∀ fuel, fuel₀ ≤ fuel →
      G.liveMergeCallGraphNode fuel n1 n2 = some (G.mergeCallGraphNode n1 n2) := by
  have hcopy := h.copyCallees hn1 hn2
  have hadopt := hcopy.adoptParents n2 ((sameNodes_copyCallees G n1 n2).isFunctionNode hn1)
  refine ⟨undisturbed_copy, undisturbed_copy, hcopy.undisturbed_adopt n2 n1,
    hcopy.undisturbed_adopt n1 n2, hadopt.undisturbed_adopt n1 n2, ?_⟩
  refine ⟨(G.callees n1).length + (G.callees n2).length +
    ((G.copyCallees n1 n2).parents n1).length + ((G.copyCallees n1 n2).parents n2).length +
    (((G.copyCallees n1 n2).adoptParents n2 n1).parents n1).length + 1, fun fuel hfuel => ?_⟩
  have hcopied : G.liveCopyCallees fuel n1 n2 = some (G.copyCallees n1 n2) :=
    liveCopyCallees_eq (by omega) (by omega)
  have hadopted2 : (G.copyCallees n1 n2).liveAdoptParents fuel n2 n1 = some _ :=
    hcopy.liveAdoptParents_eq n1 (by omega)
  have hadopted1 : (G.copyCallees n1 n2).liveAdoptParents fuel n1 n2 = some _ :=
    hcopy.liveAdoptParents_eq n2 (by omega)
  have hadopted1' :
      ((G.copyCallees n1 n2).adoptParents n2 n1).liveAdoptParents fuel n1 n2 = some _ :=
    hadopt.liveAdoptParents_eq n2 (by omega)
  simp only [liveMergeCallGraphNode, hcopied, Option.bind_some, hadopted2, hadopted1, hadopted1',
    CallGraph.mergeCallGraphNode, apply_ite some]

/-- Not vacuous: the declaration of `g` and its definition, which calls itself. A call is copied,
and both nodes adopt parents. -/
theorem merge_loops_undisturbed_splitUnits :
    let G := ofUnits splitUnits [[0], [2]]
    Undisturbed (CallGraph.callees · 3) (fun G it => G.addCallee 2 it) G ∧
    ∃ fuel₀, ∀ fuel, fuel₀ ≤ fuel → ∃ G', G.liveMergeCallGraphNode fuel 2 3 = some G' ∧
      (G.callees 2 = [] ∧ 3 ∈ G'.callees 2) ∧ (3 ∉ G.parents 2 ∧ 3 ∈ G'.parents 2) ∧
      (1 ∉ G.parents 3 ∧ 1 ∈ G'.parents 3) := by
  intro G
  have hall := (wf_ofUnits splitUnits [[0], [2]]).merge_loops_undisturbed
    isFunctionNode_splitUnits.1 isFunctionNode_splitUnits.2
  obtain ⟨fuel₀, hlive⟩ := hall.2.2.2.2.2
  refine ⟨hall.1 (by decide +kernel), fuel₀, fun fuel hfuel => ⟨_, hlive fuel hfuel, ?_⟩⟩
  decide +kernel

end CallGraph

end FindBoundary
