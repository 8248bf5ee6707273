import FindBoundary.Gossip
import FindBoundary.Invariant

/-!
# The merge sweep refines gossip

The sweep of `MergeFunctionMap` copies callees and propagates callers, each merge seeing the graph
the earlier ones left. Two facts untangle it:

* a node filled by copying has the same callees as the node it copied from, from then on: a merge
  makes the two merged nodes share their callers, so whoever calls one calls the other;
* so who calls a node is decided by who called it to begin with, among the nodes that had callees.

An edge of the current graph is therefore described by two independent sweeps. `originOf` starts
every node that has callees at itself and every other at nothing, and is *filled*; `callersOf`
holds the callers of every node, and is *gossiped*. There is an edge from `p` to `x` exactly when
`p` has an origin and `x` holds it (`Simulates`).
-/

namespace FindBoundary

namespace CallGraph

open Sweep

variable {ast : ASTContext} {G : CallGraph}

/-! ## One merge -/

/-- The edges after a merge, in terms of those after its copying part: whoever calls one of the
two nodes calls both. -/
theorem WF.mem_callees_mergeCallGraphNode (h : WF G) {n1 n2 : NodeRef}
    (hn1 : G.IsFunctionNode n1) (hn2 : G.IsFunctionNode n2) {p x : NodeRef} :
    x ∈ (G.mergeCallGraphNode n1 n2).callees p ↔
      x ∈ (G.copyCallees n1 n2).callees p ∨
        ((x = n1 ∨ x = n2) ∧ (n1 ∈ (G.copyCallees n1 n2).callees p ∨
          n2 ∈ (G.copyCallees n1 n2).callees p)) := by
  have hC := h.copyCallees hn1 hn2
  have hA : WF ((G.copyCallees n1 n2).adoptParents n2 n1) :=
    hC.adoptParents n2 ((sameNodes_copyCallees G n1 n2).isFunctionNode hn1)
  rw [h.mergeCallGraphNode_eq hn1 hn2, mem_callees_adoptParents, mem_callees_adoptParents,
    hA.mem_parents_iff, mem_callees_adoptParents, hC.mem_parents_iff]
  refine ⟨?_, ?_⟩
  · rintro ((hx | ⟨rfl, hp⟩) | ⟨rfl, hp | ⟨-, hp⟩⟩)
    · exact Or.inl hx
    · exact Or.inr ⟨Or.inl rfl, Or.inr hp⟩
    · exact Or.inr ⟨Or.inr rfl, Or.inl hp⟩
    · exact Or.inr ⟨Or.inr rfl, Or.inr hp⟩
  · rintro (hx | ⟨rfl | rfl, hp | hp⟩)
    · exact Or.inl (Or.inl hx)
    · exact Or.inl (Or.inl hp)
    · exact Or.inl (Or.inr ⟨rfl, hp⟩)
    · exact Or.inr ⟨rfl, Or.inl hp⟩
    · exact Or.inl (Or.inl hp)

/-- The root's list is left alone, element for element. -/
theorem WF.callees_root_adoptParents (h : WF G) (source : NodeRef) {target : NodeRef}
    (ht : G.IsFunctionNode target) :
    (G.adoptParents source target).callees G.root = G.callees G.root := by
  have hmem : target ∈ G.callees G.root := h.mem_callees_root ht.allocated ht.ne_root
  refine List.foldlRecOn (motive := fun (H : CallGraph) => H.callees G.root = G.callees G.root)
    _ _ rfl ?_
  intro H hH it _
  simp only [CallGraph.adopt]
  split
  · exact hH
  · rename_i hnot
    rw [callees_addCallee, if_neg, hH]
    rintro rfl
    exact hnot (hH ▸ hmem)

theorem WF.callees_root_mergeCallGraphNode (h : WF G) {n1 n2 : NodeRef}
    (hn1 : G.IsFunctionNode n1) (hn2 : G.IsFunctionNode n2) :
    (G.mergeCallGraphNode n1 n2).callees G.root = G.callees G.root := by
  have hC := h.copyCallees hn1 hn2
  have hs := sameNodes_copyCallees G n1 n2
  have hs' := hs.trans (sameNodes_adoptParents (G.copyCallees n1 n2) n2 n1)
  have hcopy : (G.copyCallees n1 n2).callees G.root = G.callees G.root := by
    rw [callees_copyCallees, if_neg fun hq => hn1.ne_root hq.2.symm,
      if_neg fun hq => hn2.ne_root hq.2.symm]
  have hfirst := hC.callees_root_adoptParents n2 (hs.isFunctionNode hn1)
  have hsecond := (hC.adoptParents n2 (hs.isFunctionNode hn1)).callees_root_adoptParents n1
    (hs'.isFunctionNode hn2)
  rw [h.mergeCallGraphNode_eq hn1 hn2]
  rw [hs.root] at hfirst
  rw [hs'.root] at hsecond
  rw [hsecond, hfirst, hcopy]

theorem WF.callees_root_mergeEntries (h : WF G) (ast : ASTContext) {it it2 : Option Decl × NodeRef}
    (hit : it ∈ G.functionMap) (hit2 : it2 ∈ G.functionMap) :
    (G.mergeEntries ast it it2).callees G.root = G.callees G.root := by
  rcases mergeEntries_cases G ast it it2 with ⟨-, heq⟩ | ⟨hM, heq⟩
  · rw [heq]
  · obtain ⟨hn, hn2⟩ := h.isFunctionNode_of_matches hit hit2 hM
    have honce := h.callees_root_mergeCallGraphNode hn hn2
    rcases heq with heq | heq
    · rw [heq, honce]
    · have hs := sameNodes_mergeCallGraphNode G it.2 it2.2
      have htwice := (h.mergeCallGraphNode hn hn2).callees_root_mergeCallGraphNode
        (hs.isFunctionNode hn) (hs.isFunctionNode hn2)
      rw [hs.root] at htwice
      rw [heq, htwice, honce]

/-! ## The abstract state -/

/-- The callers of each node. -/
def callersOf (G : CallGraph) (x : NodeRef) : Set NodeRef := {p | x ∈ G.callees p}

/-- The origin of the callees of each node: itself, if it has any. -/
def originOf (G : CallGraph) (p : NodeRef) : Option NodeRef :=
  if G.callees p = [] then none else some p

/-- The graph has the edges that callers `f` and origins `g` describe. -/
structure Simulates (G : CallGraph) (f : NodeRef → Set NodeRef) (g : NodeRef → Option NodeRef) :
    Prop where
  /-- there is an edge exactly where the callee holds the origin of the caller -/
  edge : ∀ p x, x ∈ G.callees p ↔ ∃ o, g p = some o ∧ o ∈ f x
  /-- every origin in use is held by someone -/
  used : ∀ p o, g p = some o → ∃ x, o ∈ f x

theorem simulates_self (G : CallGraph) : Simulates G (callersOf G) (originOf G) := by
  constructor
  case edge =>
    intro p x
    simp only [originOf, callersOf]
    refine ⟨?_, ?_⟩
    · intro hx
      exact ⟨p, if_neg (List.ne_nil_of_mem hx), hx⟩
    · rintro ⟨o, ho, hx⟩
      split at ho
      · cases ho
      · obtain rfl := Option.some.inj ho
        exact hx
  case used =>
    intro p o ho
    simp only [originOf] at ho
    split at ho
    · cases ho
    · obtain rfl := Option.some.inj ho
      exact List.exists_mem_of_ne_nil _ ‹_›

namespace Simulates

variable {f : NodeRef → Set NodeRef} {g : NodeRef → Option NodeRef}

/-- A node without an origin is a node without callees. -/
theorem callees_eq_nil_iff (h : Simulates G f g) (p : NodeRef) :
    G.callees p = [] ↔ g p = none := by
  rw [List.eq_nil_iff_forall_not_mem]
  refine ⟨?_, ?_⟩
  · intro hp
    rcases ho : g p with _ | o
    · rfl
    · obtain ⟨x, hx⟩ := h.used p o ho
      exact absurd ((h.edge p x).mpr ⟨o, ho, hx⟩) (hp x)
  · intro hp x hx
    obtain ⟨o, ho, -⟩ := (h.edge p x).mp hx
    rw [hp] at ho
    cases ho

/-- Copying callees is taking the origin. -/
theorem copyCallees (h : Simulates G f g) (n1 n2 : NodeRef) :
    Simulates (G.copyCallees n1 n2) f (fill n1 n2 g) := by
  have h1 := h.callees_eq_nil_iff n1
  have h2 := h.callees_eq_nil_iff n2
  constructor
  case edge =>
    intro p x
    rw [callees_copyCallees]
    by_cases hg1 : g n1 = none
    · rw [fill_of_none hg1]
      have hc1 := h1.mpr hg1
      by_cases hp : p = n1
      · subst hp
        rw [if_pos ⟨hc1, rfl⟩, Function.update_self]
        exact h.edge n2 x
      · rw [if_neg fun hq => hp hq.2, Function.update_of_ne hp, ← h.edge p x]
        split
        · -- both are without callees, and nothing is copied
          rename_i hq
          rw [hc1, hq.2, hq.1]
        · rfl
    · have hc1 : G.callees n1 ≠ [] := fun hc => hg1 (h1.mp hc)
      rw [if_neg fun hq => hc1 hq.1]
      by_cases hg2 : g n2 = none
      · rw [fill_of_some_none hg1 hg2]
        by_cases hp : p = n2
        · subst hp
          rw [if_pos ⟨h2.mpr hg2, rfl⟩, Function.update_self]
          exact h.edge n1 x
        · rw [if_neg fun hq => hp hq.2, Function.update_of_ne hp]
          exact h.edge p x
      · have hc2 : G.callees n2 ≠ [] := fun hc => hg2 (h2.mp hc)
        rw [if_neg fun hq => hc2 hq.1, fill_of_some_some hg1 hg2]
        exact h.edge p x
  case used =>
    intro p o ho
    rcases fill_eq_some ho with ho | ⟨-, -, ho⟩ | ⟨-, -, ho⟩
    · exact h.used p o ho
    · exact h.used n2 o ho
    · exact h.used n1 o ho

/-- A merge is a meeting of the two nodes, and a comparison of their origins. -/
theorem mergeCallGraphNode (h : Simulates G f g) (hG : WF G) {n1 n2 : NodeRef}
    (hn1 : G.IsFunctionNode n1) (hn2 : G.IsFunctionNode n2) :
    Simulates (G.mergeCallGraphNode n1 n2) (meet n1 n2 f) (fill n1 n2 g) := by
  have hC := h.copyCallees n1 n2
  constructor
  case edge =>
    intro p x
    rw [hG.mem_callees_mergeCallGraphNode hn1 hn2, hC.edge, hC.edge, hC.edge]
    refine ⟨?_, ?_⟩
    · rintro (⟨o, ho, hx⟩ | ⟨hx, ⟨o, ho, hf⟩ | ⟨o, ho, hf⟩⟩)
      · exact ⟨o, ho, subset_meet n1 n2 f x hx⟩
      · exact ⟨o, ho, by rw [meet, if_pos hx]; exact Or.inl hf⟩
      · exact ⟨o, ho, by rw [meet, if_pos hx]; exact Or.inr hf⟩
    · rintro ⟨o, ho, hx⟩
      rcases mem_meet hx with hf | ⟨rfl, hf⟩ | ⟨rfl, hf⟩
      · exact Or.inl ⟨o, ho, hf⟩
      · exact Or.inr ⟨Or.inl rfl, Or.inr ⟨o, ho, hf⟩⟩
      · exact Or.inr ⟨Or.inr rfl, Or.inl ⟨o, ho, hf⟩⟩
  case used =>
    intro p o ho
    obtain ⟨x, hx⟩ := hC.used p o ho
    exact ⟨x, subset_meet n1 n2 f x hx⟩

end Simulates

/-! ## The sweep -/

/-- The matching rule of the merge, on nodes. -/
def NodeMatches (G : CallGraph) (ast : ASTContext) (n n2 : NodeRef) : Prop :=
  G.Allocated n ∧ G.Allocated n2 ∧ ast.Matches (G.decl n) (G.decl n2)

instance (G : CallGraph) (n : NodeRef) : Decidable (G.Allocated n) :=
  inferInstanceAs (Decidable (n < G.next))

instance (G : CallGraph) (ast : ASTContext) : DecidableRel (G.NodeMatches ast) := fun n n2 =>
  inferInstanceAs (Decidable (G.Allocated n ∧ G.Allocated n2 ∧
    ast.Matches (G.decl n) (G.decl n2)))

theorem NodeMatches.symm {n n2 : NodeRef} (h : G.NodeMatches ast n n2) :
    G.NodeMatches ast n2 n := ⟨h.2.1, h.1, ASTContext.Matches.symm h.2.2⟩

/-- The nodes, in the order of an enumeration of the map. -/
def Enumeration.nodes (order : G.Enumeration) : List NodeRef := order.entries.map Prod.snd

theorem WF.nodes_nodup (h : WF G) (order : G.Enumeration) : order.nodes.Nodup := by
  refine List.Nodup.map_on ?_ (order.perm.nodup_iff.mpr h.functionMap_nodup)
  rintro ⟨F, n⟩ hF ⟨F', n'⟩ hF' hn
  obtain rfl : n = n' := hn
  rw [h.entry_inj (order.perm.mem_iff.mp hF) (order.perm.mem_iff.mp hF')]

theorem WF.mem_nodes_iff (h : WF G) (order : G.Enumeration) (n : NodeRef) :
    n ∈ order.nodes ↔ G.Allocated n := by
  simp only [Enumeration.nodes]
  rw [List.mem_map]
  refine ⟨?_, ?_⟩
  · rintro ⟨⟨F, n⟩, hF, rfl⟩
    exact (h.entry_decl F n (order.perm.mem_iff.mp hF)).1
  · intro hn
    exact ⟨_, order.perm.mem_iff.mpr (h.entry_of_allocated n hn), rfl⟩

/-- The callers of every node after the sweep, restricted to nodes that had callees before it. -/
def gossipedCallers (ast : ASTContext) (order : G.Enumeration) : NodeRef → Set NodeRef :=
  gossip (G.NodeMatches ast) order.nodes (callersOf G)

/-- The node whose callees each node has after the sweep. -/
def filledOrigin (ast : ASTContext) (order : G.Enumeration) : NodeRef → Option NodeRef :=
  filling (G.NodeMatches ast) order.nodes (originOf G)

/-- One turn of the inner loop, on the abstract state. -/
theorem Simulates.mergeEntries {f : NodeRef → Set NodeRef} {g : NodeRef → Option NodeRef}
    {H : CallGraph} (h : Simulates H f g) (hH : WF H) (hs : SameNodes G H)
    {it it2 : Option Decl × NodeRef} (hit : it ∈ H.functionMap) (hit2 : it2 ∈ H.functionMap) :
    Simulates (H.mergeEntries ast it it2) (gossipStep (G.NodeMatches ast) it.2 it2.2 f)
      (fillStep (G.NodeMatches ast) it.2 it2.2 g) := by
  have hentry : ∀ e ∈ H.functionMap, G.Allocated e.2 ∧ G.decl e.2 = e.1 := fun e he => by
    obtain ⟨ha, hd⟩ := hH.entry_decl e.1 e.2 he
    simp only [Allocated]
    rw [← hs.next, ← hs.decl]
    exact ⟨ha, hd⟩
  have hiff : G.NodeMatches ast it.2 it2.2 ↔ ast.Matches it.1 it2.1 := by
    simp only [NodeMatches]
    rw [(hentry it hit).2, (hentry it2 hit2).2]
    exact and_iff_right (hentry it hit).1 |>.trans (and_iff_right (hentry it2 hit2).1)
  simp only [gossipStep, fillStep]
  rcases mergeEntries_cases H ast it it2 with ⟨hM, heq⟩ | ⟨hM, heq⟩
  · rw [heq, if_neg fun hq => hM (hiff.mp hq), if_neg fun hq => hM (hiff.mp hq)]
    exact h
  · obtain ⟨hn, hn2⟩ := hH.isFunctionNode_of_matches hit hit2 hM
    have honce := h.mergeCallGraphNode hH hn hn2
    rw [if_pos (hiff.mpr hM), if_pos (hiff.mpr hM)]
    rcases heq with heq | heq
    · rw [heq]
      exact honce
    · -- the second merge of two methods is abstractly a repetition
      have hsame := sameNodes_mergeCallGraphNode H it.2 it2.2
      have htwice := honce.mergeCallGraphNode (hH.mergeCallGraphNode hn hn2)
        (hsame.isFunctionNode hn) (hsame.isFunctionNode hn2)
      rw [meet_meet, fill_fill] at htwice
      rw [heq]
      exact htwice

/-- **The sweep of `MergeFunctionMap` refines the two abstract sweeps.** -/
theorem WF.simulates_mergeFunctionMap (h : WF G) (order : G.Enumeration) :
    Simulates (G.mergeFunctionMap ast order) (gossipedCallers ast order)
      (filledOrigin ast order) := by
  let M := G.NodeMatches ast
  let R : CallGraph → (NodeRef → Set NodeRef) × (NodeRef → Option NodeRef) → Prop := fun H t =>
    (WF H ∧ SameNodes G H) ∧ Simulates H t.1 t.2
  have hsim : R (G.mergeFunctionMap ast order)
      (pairSweep (fun it it2 t => (gossipStep M it.2 it2.2 t.1, fillStep M it.2 it2.2 t.2))
        order.entries (callersOf G, originOf G)) := by
    refine pairSweep_simulation (order.perm.nodup_iff.mpr h.functionMap_nodup) ?_
      ⟨⟨h, SameNodes.refl G⟩, simulates_self G⟩
    rintro it hit it2 hit2 - H t ⟨⟨hH, hs⟩, hsim⟩
    have hentry : ∀ e ∈ order.entries, e ∈ H.functionMap := fun e he => by
      rw [hs.functionMap]
      exact order.perm.mem_iff.mp he
    exact ⟨⟨hH.mergeEntries (hentry it hit) (hentry it2 hit2),
      hs.trans (sameNodes_mergeEntries H ast it it2)⟩,
      hsim.mergeEntries hH hs (hentry it hit) (hentry it2 hit2)⟩
  have hresult := hsim.2
  rw [pairSweep_prod (fun (it it2 : Option Decl × NodeRef) => gossipStep M it.2 it2.2)
    (fun (it it2 : Option Decl × NodeRef) => fillStep M it.2 it2.2),
    ← pairSweep_map Prod.snd (gossipStep M), ← pairSweep_map Prod.snd (fillStep M)] at hresult
  exact hresult

/-- The edges after the sweep. -/
theorem WF.mem_callees_mergeFunctionMap (h : WF G) (order : G.Enumeration) {p x : NodeRef} :
    x ∈ (G.mergeFunctionMap ast order).callees p ↔
      ∃ o, filledOrigin ast order p = some o ∧ o ∈ gossipedCallers ast order x :=
  (h.simulates_mergeFunctionMap order).edge p x

/-- The root's callee list is the same after the sweep, element for element. -/
theorem WF.callees_root_mergeFunctionMap (h : WF G) (order : G.Enumeration) :
    (G.mergeFunctionMap ast order).callees G.root = G.callees G.root := by
  refine (pairSweep_invariant
    (P := fun (H : CallGraph) => (WF H ∧ SameNodes G H) ∧ H.callees G.root = G.callees G.root)
    (order.perm.nodup_iff.mpr h.functionMap_nodup) ?_ ⟨⟨h, SameNodes.refl G⟩, rfl⟩).2
  rintro it hit it2 hit2 - H ⟨⟨hH, hs⟩, hroot⟩
  have hentry : ∀ e ∈ order.entries, e ∈ H.functionMap := fun e he => by
    rw [hs.functionMap]
    exact order.perm.mem_iff.mp he
  refine ⟨⟨hH.mergeEntries (hentry it hit) (hentry it2 hit2),
    hs.trans (sameNodes_mergeEntries H ast it it2)⟩, ?_⟩
  have hstep := hH.callees_root_mergeEntries ast (hentry it hit) (hentry it2 hit2)
  rw [hs.root] at hstep
  rw [hstep, hroot]

end CallGraph

end FindBoundary
