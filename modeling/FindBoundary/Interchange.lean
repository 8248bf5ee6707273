import FindBoundary.HashOrder

/-!
# Merged nodes are interchangeable

One merge makes two nodes share their callers, and their callees too unless both had some; it adds
no other edges, doing it again changes nothing, and the order of the two nodes does not matter
beyond the order of the lists. The sweep inherits the first of these for whole classes: where
matching is an equivalence around a set of nodes, its members end with the same callers, whatever
happens elsewhere.
-/

namespace FindBoundary

namespace CallGraph

open Sweep

variable {ast : ASTContext} {G : CallGraph} {n1 n2 : NodeRef}

/-! ## The copying part -/

/-- If one of the nodes had no callees, they have the same list after the copying. -/
theorem callees_copyCallees_eq (h : G.callees n1 = [] ∨ G.callees n2 = []) :
    (G.copyCallees n1 n2).callees n1 = (G.copyCallees n1 n2).callees n2 := by
  rw [callees_copyCallees, callees_copyCallees]
  by_cases h1 : G.callees n1 = []
  · by_cases hn : n2 = n1
    · simp [hn]
    · by_cases h2 : G.callees n2 = []
      · simp [h1, h2]
      · simp [h1, h2, hn]
  · have h2 := h.resolve_left h1
    by_cases hn : n1 = n2
    · simp [hn]
    · simp [h1, h2, hn]

/-- After the copying both nodes have callees or neither has. -/
theorem copyCallees_eq_nil_iff (G : CallGraph) (n1 n2 : NodeRef) :
    (G.copyCallees n1 n2).callees n1 = [] ↔ (G.copyCallees n1 n2).callees n2 = [] := by
  by_cases h : G.callees n1 = [] ∨ G.callees n2 = []
  · rw [callees_copyCallees_eq h]
  · obtain ⟨h1, h2⟩ := not_or.mp h
    rw [callees_copyCallees, callees_copyCallees]
    simp [h1, h2]

theorem callees_copyCallees_comm (G : CallGraph) (n1 n2 p : NodeRef) :
    (G.copyCallees n2 n1).callees p = (G.copyCallees n1 n2).callees p := by
  rw [callees_copyCallees, callees_copyCallees]
  by_cases h1 : G.callees n1 = []
  · by_cases h2 : G.callees n2 = []
    · by_cases hp : p = n1
      · simp [h1, h2, hp]
      · simp [h1, h2, hp]
    · simp [h1, h2]
  · simp [h1]

/-- Nothing is copied where both nodes have callees or neither has. -/
theorem copyCallees_eq_self (h : G.callees n1 = [] ↔ G.callees n2 = []) :
    G.copyCallees n1 n2 = G := by
  simp only [copyCallees, empty, List.isEmpty_iff]
  by_cases h1 : G.callees n1 = []
  · rw [if_pos h1, h.mp h1, List.foldl_nil]
  · rw [if_neg h1, if_neg fun h2 => h1 (h.mpr h2)]

/-- Nothing is adopted where all parents call the target already. -/
theorem adoptParents_eq_self {source target : NodeRef}
    (h : ∀ p ∈ G.parents source, target ∈ G.callees p) : G.adoptParents source target = G := by
  simp only [adoptParents]
  refine List.foldlRecOn (motive := fun H => H = G) _ _ rfl ?_
  rintro H rfl it hit
  rw [adopt, if_pos (h it hit)]

/-! ## One merge -/

/-- After the merge, to call one of the two nodes is to call the other. -/
theorem WF.calls_mergeCallGraphNode_iff (h : WF G) (hn1 : G.IsFunctionNode n1)
    (hn2 : G.IsFunctionNode n2) {p x : NodeRef} (hx : x = n1 ∨ x = n2) :
    x ∈ (G.mergeCallGraphNode n1 n2).callees p ↔
      n1 ∈ (G.copyCallees n1 n2).callees p ∨ n2 ∈ (G.copyCallees n1 n2).callees p := by
  rw [h.mem_callees_mergeCallGraphNode hn1 hn2]
  refine ⟨?_, ?_⟩
  · rintro (hp | ⟨-, hp⟩)
    · rcases hx with rfl | rfl
      · exact Or.inl hp
      · exact Or.inr hp
    · exact hp
  · intro hp
    exact Or.inr ⟨hx, hp⟩

/-- Only a node without callees after the copying is without callees after the merge. -/
theorem WF.callees_mergeCallGraphNode_eq_nil_iff (h : WF G) (hn1 : G.IsFunctionNode n1)
    (hn2 : G.IsFunctionNode n2) (p : NodeRef) :
    (G.mergeCallGraphNode n1 n2).callees p = [] ↔ (G.copyCallees n1 n2).callees p = [] := by
  rw [List.eq_nil_iff_forall_not_mem, List.eq_nil_iff_forall_not_mem]
  refine ⟨?_, ?_⟩
  · intro hp x hx
    exact hp x ((h.mem_callees_mergeCallGraphNode hn1 hn2).mpr (Or.inl hx))
  · intro hp x hx
    rcases (h.mem_callees_mergeCallGraphNode hn1 hn2).mp hx with hx | ⟨-, hx | hx⟩
    · exact hp x hx
    · exact hp n1 hx
    · exact hp n2 hx

/-- The two nodes of `g` in a graph where its definition calls itself. -/
theorem isFunctionNode_splitUnits :
    (ofUnits splitUnits [[0], [2]]).IsFunctionNode 2 ∧
      (ofUnits splitUnits [[0], [2]]).IsFunctionNode 3 :=
  ⟨⟨by decide +kernel, by decide +kernel⟩, ⟨by decide +kernel, by decide +kernel⟩⟩

/-- **Merging again changes nothing, and merging the other way round gives the same edges.** -/
theorem WF.mergeCallGraphNode_idem_comm (h : WF G) (hn1 : G.IsFunctionNode n1)
    (hn2 : G.IsFunctionNode n2) :
    (G.mergeCallGraphNode n1 n2).mergeCallGraphNode n1 n2 = G.mergeCallGraphNode n1 n2 ∧
    ∀ p x, (x ∈ (G.mergeCallGraphNode n2 n1).callees p ↔
        x ∈ (G.mergeCallGraphNode n1 n2).callees p) ∧
      (x ∈ (G.mergeCallGraphNode n2 n1).parents p ↔
        x ∈ (G.mergeCallGraphNode n1 n2).parents p) := by
  have h' := h.mergeCallGraphNode hn1 hn2
  have hs := sameNodes_mergeCallGraphNode G n1 n2
  refine ⟨?_, ?_⟩
  · have hcopy : (G.mergeCallGraphNode n1 n2).copyCallees n1 n2 = G.mergeCallGraphNode n1 n2 := by
      refine copyCallees_eq_self ?_
      rw [h.callees_mergeCallGraphNode_eq_nil_iff hn1 hn2,
        h.callees_mergeCallGraphNode_eq_nil_iff hn1 hn2]
      exact copyCallees_eq_nil_iff G n1 n2
    have hadopt : ∀ {x y}, (x = n1 ∨ x = n2) → (y = n1 ∨ y = n2) →
        (G.mergeCallGraphNode n1 n2).adoptParents x y = G.mergeCallGraphNode n1 n2 := by
      intro x y hx hy
      refine adoptParents_eq_self fun p hp => ?_
      rw [h.calls_mergeCallGraphNode_iff hn1 hn2 hy,
        ← h.calls_mergeCallGraphNode_iff hn1 hn2 hx]
      exact (h'.mem_parents_iff p x).mp hp
    rw [h'.mergeCallGraphNode_eq (hs.isFunctionNode hn1) (hs.isFunctionNode hn2), hcopy,
      hadopt (Or.inr rfl) (Or.inl rfl), hadopt (Or.inl rfl) (Or.inr rfl)]
  · have hedge : ∀ p x, x ∈ (G.mergeCallGraphNode n2 n1).callees p ↔
        x ∈ (G.mergeCallGraphNode n1 n2).callees p := by
      intro p x
      rw [h.mem_callees_mergeCallGraphNode hn2 hn1, h.mem_callees_mergeCallGraphNode hn1 hn2,
        callees_copyCallees_comm, or_comm (a := x = n2), or_comm (a := n2 ∈ _)]
    intro p x
    refine ⟨hedge p x, ?_⟩
    rw [(h.mergeCallGraphNode hn2 hn1).mem_parents_iff, h'.mem_parents_iff, hedge]

/-- Not vacuous: merging the two nodes of `g` twice is merging them once. -/
theorem mergeCallGraphNode_idem_splitUnits :
    let G := ofUnits splitUnits [[0], [2]]
    (G.mergeCallGraphNode 2 3).mergeCallGraphNode 2 3 = G.mergeCallGraphNode 2 3 :=
  ((wf_ofUnits splitUnits [[0], [2]]).mergeCallGraphNode_idem_comm
    isFunctionNode_splitUnits.1 isFunctionNode_splitUnits.2).1

/-! ## The sweep -/

/-- Links do not lead out of a set that is closed under matching. -/
theorem Linked.mem_of_closed {K : Set NodeRef}
    (hclosed : ∀ x ∈ K, ∀ y, G.NodeMatches ast x y → y ∈ K) {x y : NodeRef}
    (hxy : G.Linked ast x y) (hx : x ∈ K) : y ∈ K := by
  induction hxy with
  | refl => exact hx
  | tail _ hM ih => exact hclosed _ ih _ hM

/-- **Merged functions share all their callers.** If the members of `K` are matched with each other
and with no node outside `K`, they have the same callers after the sweep, whatever the order, and
these include all the callers that any of them had. -/
theorem WF.parents_mergeFunctionMap_class (h : WF G) (order : G.Enumeration) {K : Set NodeRef}
    (hK : ∀ x ∈ K, ∀ y ∈ K, x ≠ y → G.NodeMatches ast x y)
    (hclosed : ∀ x ∈ K, ∀ y, G.NodeMatches ast x y → y ∈ K) :
    ∀ x ∈ K, ∀ y ∈ K,
      (∀ p, p ∈ (G.mergeFunctionMap ast order).parents x ↔
        p ∈ (G.mergeFunctionMap ast order).parents y) ∧
      ∀ p ∈ G.parents y, p ∈ (G.mergeFunctionMap ast order).parents x := by
  have h' := (h.mergeFunctionMap ast order).1
  have hsame : ∀ x ∈ K, ∀ y ∈ K, G.SameNode ast x y := by
    intro x hx y hy
    by_cases hne : x = y
    · exact Or.inl hne
    · exact Or.inr (hK x hx y hy hne)
  have hsub : ∀ x ∈ K, ∀ y ∈ K, ∀ p, p ∈ (G.mergeFunctionMap ast order).parents x →
      p ∈ (G.mergeFunctionMap ast order).parents y := by
    intro x hx y hy p hp
    rw [h'.mem_parents_iff, h.mem_callees_mergeFunctionMap] at hp ⊢
    obtain ⟨o, ho, hox⟩ := hp
    -- a caller that `x` has heard of called a member of `K`, which is a partner of `y`
    obtain ⟨z, hxz, hz⟩ := h.gossipedCallers_linked hox
    exact ⟨o, ho, h.mem_gossipedCallers order (hsame y hy z (hxz.mem_of_closed hclosed hx)) hz⟩
  intro x hx y hy
  refine ⟨fun p => ⟨hsub x hx y hy p, hsub y hy x hx p⟩, fun p hp => ?_⟩
  rw [h.mem_parents_iff] at hp
  rw [h'.mem_parents_iff]
  exact h.mem_callees_of_sameNode order (hsame x hx y hy) hp

/-- Not vacuous: after the sweep `f` calls both nodes of `g`. -/
theorem parents_mergeFunctionMap_splitUnits :
    1 ∈ ((ofUnits splitUnits [[0], [2]]).mergeFunctionMap splitUnits (.reverse _)).parents 3 := by
  have hnext : (ofUnits splitUnits [[0], [2]]).next = 4 := by decide +kernel
  have hpair : (ofUnits splitUnits [[0], [2]]).NodeMatches splitUnits 2 3 := by decide +kernel
  have hclosed : ∀ x ∈ [2, 3], ∀ y ∈ List.range 4,
      (ofUnits splitUnits [[0], [2]]).NodeMatches splitUnits x y → y ∈ [2, 3] := by decide +kernel
  refine ((wf_ofUnits splitUnits [[0], [2]]).parents_mergeFunctionMap_class (K := {n | n ∈ [2, 3]})
    (.reverse _) ?_ ?_ 3 (by simp) 2 (by simp)).2 1 (by decide +kernel)
  · intro x hx y hy hne
    rcases List.mem_pair.mp hx with rfl | rfl <;> rcases List.mem_pair.mp hy with rfl | rfl
    · exact absurd rfl hne
    · exact hpair
    · exact hpair.symm
    · exact absurd rfl hne
  · intro x hx y hM
    exact hclosed x hx y (List.mem_range.mpr (hnext ▸ hM.2.1)) hM

end CallGraph

end FindBoundary
