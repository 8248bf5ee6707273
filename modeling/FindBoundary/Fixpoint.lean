import FindBoundary.Attribution
import FindBoundary.Interchange

/-!
# Merging the map again

`main` calls `MergeFunctionMap` once. That the graph is then finished would mean that the sweep has
nothing left to do, which is so exactly where matched nodes agree on who calls them and on whether
they call anything (`WF.mergeFunctionMap_eq_self_iff`). One sweep leaves a graph of this kind if
matching is transitive. If not, it leaves one where all that a node has not heard of, one of its
partners has: a function that is no method matches everything of its name, so it has met them all.
The second sweep finishes any graph (`WF.mergeFunctionMap_third`).
-/

namespace FindBoundary

namespace CallGraph

open Sweep

variable {ast : ASTContext} {G : CallGraph}

/-! ## Graphs with nothing to merge -/

/-- Matched nodes have the same callers, and both call something or neither does. -/
def Closed (G : CallGraph) (ast : ASTContext) : Prop :=
  ∀ x y, G.NodeMatches ast x y →
    (∀ p, x ∈ G.callees p ↔ y ∈ G.callees p) ∧ (G.callees x = [] ↔ G.callees y = [])

/-- Two nodes that agree are merged already. -/
theorem WF.mergeCallGraphNode_eq_self (h : WF G) {n1 n2 : NodeRef} (hn1 : G.IsFunctionNode n1)
    (hn2 : G.IsFunctionNode n2) (hcallers : ∀ p, n1 ∈ G.callees p ↔ n2 ∈ G.callees p)
    (hempty : G.callees n1 = [] ↔ G.callees n2 = []) : G.mergeCallGraphNode n1 n2 = G := by
  have hadopt1 : G.adoptParents n2 n1 = G :=
    adoptParents_eq_self fun p hp => (hcallers p).mpr ((h.mem_parents_iff p n2).mp hp)
  have hadopt2 : G.adoptParents n1 n2 = G :=
    adoptParents_eq_self fun p hp => (hcallers p).mp ((h.mem_parents_iff p n1).mp hp)
  rw [h.mergeCallGraphNode_eq hn1 hn2, copyCallees_eq_self hempty, hadopt1, hadopt2]

theorem Closed.mergeEntries_eq_self (hC : G.Closed ast) (h : WF G)
    {it it2 : Option Decl × NodeRef} (hit : it ∈ G.functionMap) (hit2 : it2 ∈ G.functionMap) :
    G.mergeEntries ast it it2 = G := by
  rcases mergeEntries_cases G ast it it2 with ⟨-, heq⟩ | ⟨hM, heq⟩
  · exact heq
  · obtain ⟨hn, hn2⟩ := h.isFunctionNode_of_matches hit hit2 hM
    have hnodes : G.NodeMatches ast it.2 it2.2 := by
      refine ⟨hn.allocated, hn2.allocated, ?_⟩
      rw [(h.entry_decl it.1 it.2 hit).2, (h.entry_decl it2.1 it2.2 hit2).2]
      exact hM
    obtain ⟨hcallers, hempty⟩ := hC it.2 it2.2 hnodes
    have honce := h.mergeCallGraphNode_eq_self hn hn2 hcallers hempty
    rcases heq with heq | heq
    · rw [heq, honce]
    · rw [heq, honce, honce]

/-- A sweep over such a graph changes nothing. -/
theorem Closed.mergeFunctionMap_eq_self (hC : G.Closed ast) (h : WF G) (order : G.Enumeration) :
    G.mergeFunctionMap ast order = G := by
  have hentry : ∀ e ∈ order.entries, e ∈ G.functionMap :=
    fun e he => order.perm.mem_iff.mp he
  refine pairSweep_invariant (P := fun H => H = G)
    (order.perm.nodup_iff.mpr h.functionMap_nodup) ?_ rfl
  rintro it hit it2 hit2 - H rfl
  exact hC.mergeEntries_eq_self h (hentry it hit) (hentry it2 hit2)

/-- **When a sweep changes nothing**: exactly when matched nodes have the same callers, and both
call something or neither does. -/
theorem WF.mergeFunctionMap_eq_self_iff (h : WF G) (order : G.Enumeration) :
    G.mergeFunctionMap ast order = G ↔ G.Closed ast := by
  refine ⟨?_, fun hC => hC.mergeFunctionMap_eq_self h order⟩
  intro hself x y hM
  have hcalls : ∀ {u v p}, G.NodeMatches ast u v → v ∈ G.callees p → u ∈ G.callees p := by
    intro u v p huv hv
    have hu := h.mem_callees_of_sameNode order (Or.inr huv) hv
    rwa [hself] at hu
  have hempty : ∀ {u v}, G.NodeMatches ast u v → G.callees u = [] → G.callees v = [] := by
    intro u v huv hu
    by_contra hv
    have horigin := h.filledOrigin_ne_none order huv hv
    rw [← hself] at hu
    exact horigin (((h.simulates_mergeFunctionMap order).callees_eq_nil_iff u).mp hu)
  exact ⟨fun p => ⟨hcalls hM.symm, hcalls hM⟩, ⟨hempty hM, hempty hM.symm⟩⟩

/-- Not vacuous: the definition of `g` calls itself and its declaration does not, so a sweep
changes the graph. -/
theorem mergeFunctionMap_ne_self_splitUnits :
    let G := ofUnits splitUnits [[0], [2]]
    G.mergeFunctionMap splitUnits (.self G) ≠ G := by
  intro G
  refine ((wf_ofUnits splitUnits [[0], [2]]).mergeFunctionMap_eq_self_iff (.self G)).not.mpr ?_
  intro hclosed
  have hM : G.NodeMatches splitUnits 2 3 := by decide +kernel
  have hempty : G.callees 2 = [] ∧ G.callees 3 ≠ [] := by decide +kernel
  exact hempty.2 ((hclosed 2 3 hM).2.mp hempty.1)

/-! ## Graphs with one sweep to go -/

/-- What any node linked to `x` has, a node matched with `x` has: a caller, and callees. -/
structure Relayed (G : CallGraph) (ast : ASTContext) : Prop where
  callers : ∀ x z p, G.Linked ast x z → z ∈ G.callees p →
    ∃ u, G.SameNode ast x u ∧ u ∈ G.callees p
  callees : ∀ x z, G.Linked ast x z → G.callees z ≠ [] →
    ∃ u, G.SameNode ast x u ∧ G.callees u ≠ []

/-- If matching is transitive, linked nodes are matched. -/
theorem relayed_of_trans (htrans : ∀ x y z, G.SameNode ast x y → G.SameNode ast y z →
    G.SameNode ast x z) : G.Relayed ast where
  callers _ z _ hxz hz := ⟨z, hxz.sameNode htrans, hz⟩
  callees _ z hxz hz := ⟨z, hxz.sameNode htrans, hz⟩

/-- In such a graph the sweep tells a node of all the callers of the nodes linked to it. -/
theorem Relayed.mem_gossipedCallers_iff (hR : G.Relayed ast) (h : WF G) (order : G.Enumeration)
    {x p : NodeRef} :
    p ∈ gossipedCallers ast order x ↔ ∃ z, G.Linked ast x z ∧ z ∈ G.callees p := by
  refine ⟨h.gossipedCallers_linked, ?_⟩
  rintro ⟨z, hxz, hz⟩
  obtain ⟨u, hxu, hu⟩ := hR.callers x z p hxz hz
  exact h.mem_gossipedCallers order hxu hu

theorem sameNodes_nodeMatches_iff {G' : CallGraph} (h : SameNodes G G') {x y : NodeRef} :
    G'.NodeMatches ast x y ↔ G.NodeMatches ast x y := by
  simp only [NodeMatches, Allocated]
  rw [h.next, h.decl, h.decl]

/-- **A sweep over such a graph leaves nothing to merge.** -/
theorem Relayed.closed (hR : G.Relayed ast) (h : WF G) (order : G.Enumeration) :
    (G.mergeFunctionMap ast order).Closed ast := by
  have hsim : Simulates (G.mergeFunctionMap ast order) (gossipedCallers ast order)
      (filledOrigin ast order) := h.simulates_mergeFunctionMap order
  intro x y hM
  rw [sameNodes_nodeMatches_iff (h.mergeFunctionMap ast order).2] at hM
  have hcalls : ∀ {u v p}, G.NodeMatches ast u v →
      v ∈ (G.mergeFunctionMap ast order).callees p →
      u ∈ (G.mergeFunctionMap ast order).callees p := by
    intro u v p huv hv
    rw [hsim.edge] at hv ⊢
    obtain ⟨o, ho, hov⟩ := hv
    rw [hR.mem_gossipedCallers_iff h] at hov
    obtain ⟨z, hvz, hz⟩ := hov
    exact ⟨o, ho, (hR.mem_gossipedCallers_iff h order).mpr ⟨z, .head huv hvz, hz⟩⟩
  have hempty : ∀ {u v}, G.NodeMatches ast u v →
      (G.mergeFunctionMap ast order).callees u = [] →
      (G.mergeFunctionMap ast order).callees v = [] := by
    intro u v huv hu
    rw [hsim.callees_eq_nil_iff] at hu ⊢
    by_contra hv
    obtain ⟨o, ho⟩ := Option.ne_none_iff_exists'.mp hv
    have huo : G.Linked ast u o := .head huv (h.filledOrigin_linked ho)
    obtain ⟨w, huw, hw⟩ := hR.callees u o huo (h.filledOrigin_path ho).1
    rcases huw with rfl | huw
    · rw [h.filledOrigin_self ast order hw] at hu
      cases hu
    · exact h.filledOrigin_ne_none order huw hw hu
  exact ⟨fun p => ⟨hcalls hM.symm, hcalls hM⟩, ⟨hempty hM, hempty hM.symm⟩⟩

/-! ## Hubs -/

/-- A function that is no method matches whatever a partner of it matches. -/
theorem NodeMatches.trans_of_not_method {f u v : NodeRef}
    (hf : ast.asCXXMethodDecl (G.decl f) = none) (hfu : G.NodeMatches ast f u)
    (huv : G.NodeMatches ast u v) : G.NodeMatches ast f v := by
  obtain ⟨Df, Du, hDf, hDu, hname, -⟩ := ASTContext.matches_iff_cast.mp hfu.2.2
  obtain ⟨Du', Dv, hDu', hDv, hname', -⟩ := ASTContext.matches_iff_cast.mp huv.2.2
  obtain rfl : Du = Du' := Option.some.inj (hDu.symm.trans hDu')
  refine ⟨hfu.1, huv.2.1, ASTContext.matches_iff_cast.mpr
    ⟨Df, Dv, hDf, hDv, hname.trans hname', fun M M2 hM _ => ?_⟩⟩
  rw [hf] at hM
  cases hM

/-- Between linked nodes that are not matched there is one that is matched with everything linked
to them: two methods of different classes are linked by a function that is no method. -/
theorem Linked.exists_hub {x y : NodeRef} (h : G.Linked ast x y) (hne : ¬ G.SameNode ast x y) :
    ∃ f, G.NodeMatches ast x f ∧ ∀ w, G.Linked ast x w → G.SameNode ast f w := by
  obtain ⟨f, hxf, hfy⟩ := h.short.resolve_left hne
  refine ⟨f, hxf, ?_⟩
  have hf : ast.asCXXMethodDecl (G.decl f) = none := by
    -- a method would fix the class of both
    rcases hf : ast.asCXXMethodDecl (G.decl f) with _ | Mf
    · rfl
    · refine absurd (Or.inr ⟨hxf.1, hfy.2.1, ?_⟩) hne
      obtain ⟨Dx, Df, hDx, hDf, hname, hclass⟩ := ASTContext.matches_iff_cast.mp hxf.2.2
      obtain ⟨Df', Dy, hDf', hDy, hname', hclass'⟩ := ASTContext.matches_iff_cast.mp hfy.2.2
      obtain rfl : Df = Df' := Option.some.inj (hDf.symm.trans hDf')
      exact ASTContext.matches_iff_cast.mpr ⟨Dx, Dy, hDx, hDy, hname.trans hname',
        fun Mx My hMx hMy => (hclass Mx Mf hMx hf).trans (hclass' Mf My hf hMy)⟩
  intro w hxw
  induction hxw with
  | refl => exact Or.inr hxf.symm
  | @tail u w _ huw ih =>
    rcases ih with rfl | hfu
    · exact Or.inr huw
    · exact Or.inr (hfu.trans_of_not_method hf huw)

/-- **A sweep leaves one sweep to go at most**: hubs have met everybody. -/
theorem WF.relayed_mergeFunctionMap (h : WF G) (order : G.Enumeration) :
    (G.mergeFunctionMap ast order).Relayed ast := by
  have hs := (h.mergeFunctionMap ast order).2
  have hsim : Simulates (G.mergeFunctionMap ast order) (gossipedCallers ast order)
      (filledOrigin ast order) := h.simulates_mergeFunctionMap order
  have hmatches : (G.mergeFunctionMap ast order).NodeMatches ast = G.NodeMatches ast :=
    funext₂ fun _ _ => propext (sameNodes_nodeMatches_iff hs)
  have hlinked : ∀ {u v}, (G.mergeFunctionMap ast order).Linked ast u v → G.Linked ast u v := by
    intro u v huv
    rw [Linked, hmatches] at huv
    exact huv
  constructor
  case callers =>
    intro x z p hxz hz
    by_cases hsame : (G.mergeFunctionMap ast order).SameNode ast x z
    · exact ⟨z, hsame, hz⟩
    · rw [SameNode, hmatches] at hsame
      obtain ⟨f, hxf, hhub⟩ := (hlinked hxz).exists_hub hsame
      refine ⟨f, Or.inr (hmatches ▸ hxf), ?_⟩
      rw [hsim.edge] at hz ⊢
      obtain ⟨o, ho, hoz⟩ := hz
      obtain ⟨w, hzw, hw⟩ := h.gossipedCallers_linked hoz
      exact ⟨o, ho, h.mem_gossipedCallers order (hhub w ((hlinked hxz).trans hzw)) hw⟩
  case callees =>
    intro x z hxz hz
    by_cases hsame : (G.mergeFunctionMap ast order).SameNode ast x z
    · exact ⟨z, hsame, hz⟩
    · rw [SameNode, hmatches] at hsame
      obtain ⟨f, hxf, hhub⟩ := (hlinked hxz).exists_hub hsame
      refine ⟨f, Or.inr (hmatches ▸ hxf), ?_⟩
      rw [Ne, hsim.callees_eq_nil_iff] at hz ⊢
      obtain ⟨o, ho⟩ := Option.ne_none_iff_exists'.mp hz
      have ho' := (h.filledOrigin_path ho).1
      rcases hhub o ((hlinked hxz).trans (h.filledOrigin_linked ho)) with rfl | hfo
      · rw [h.filledOrigin_self ast order ho']
        exact Option.some_ne_none f
      · exact h.filledOrigin_ne_none order hfo ho'

/-! ## How many sweeps it takes -/

/-- **Two sweeps are enough**, whatever the three orders: the third one changes nothing. -/
theorem WF.mergeFunctionMap_third (h : WF G) (order : G.Enumeration)
    (order' : (G.mergeFunctionMap ast order).Enumeration)
    (order'' : ((G.mergeFunctionMap ast order).mergeFunctionMap ast order').Enumeration) :
    ((G.mergeFunctionMap ast order).mergeFunctionMap ast order').mergeFunctionMap ast order'' =
      (G.mergeFunctionMap ast order).mergeFunctionMap ast order' := by
  have h' := (h.mergeFunctionMap ast order).1
  have hrelayed : (G.mergeFunctionMap ast order).Relayed ast := h.relayed_mergeFunctionMap order
  exact (hrelayed.closed h' order').mergeFunctionMap_eq_self (h'.mergeFunctionMap ast order').1
    order''

/-- Not vacuous, and one sweep is not enough: the methods `f` of two classes meet the function `f`
one after the other, and the first of them learns in the second sweep what the other one has told
it. -/
theorem mergeFunctionMap_third_namesakes :
    let G := (ofUnits (namesakes [1]) [[0, 1, 2, 3]]).mergeFunctionMap (namesakes [1]) (.self _)
    let G' := G.mergeFunctionMap (namesakes [1]) (.self G)
    (1 ∉ G.callees 4 ∧ 1 ∈ G'.callees 4) ∧
      G'.mergeFunctionMap (namesakes [1]) (.self G') = G' := by
  intro G G'
  refine ⟨by decide +kernel, ?_⟩
  exact (wf_ofUnits (namesakes [1]) [[0, 1, 2, 3]]).mergeFunctionMap_third (.self _) (.self _)
    (.self _)

/-- **Where matching is transitive, one sweep is enough.** -/
theorem WF.mergeFunctionMap_second (h : WF G) (order : G.Enumeration)
    (htrans : ∀ x y z, G.SameNode ast x y → G.SameNode ast y z → G.SameNode ast x z)
    (order' : (G.mergeFunctionMap ast order).Enumeration) :
    (G.mergeFunctionMap ast order).mergeFunctionMap ast order' = G.mergeFunctionMap ast order :=
  ((relayed_of_trans htrans).closed h order).mergeFunctionMap_eq_self
    (h.mergeFunctionMap ast order).1 order'

/-- Not vacuous: the graph of two units. -/
theorem mergeFunctionMap_second_splitUnits :
    let G := (ofUnits splitUnits [[0], [2]]).mergeFunctionMap splitUnits (.self _)
    G.mergeFunctionMap splitUnits (.reverse G) = G :=
  (wf_ofUnits splitUnits [[0], [2]]).mergeFunctionMap_second (.self _) splitUnits_trans
    (.reverse _)

end CallGraph

end FindBoundary
