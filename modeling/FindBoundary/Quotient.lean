import FindBoundary.Merge

/-!
# What the merge computes

First what holds of every graph and every enumeration order: bounds on who calls whom after the
sweep, and conservation of the calls at the level of names. Then the case the merge is made for.
If matching is an equivalence and each class has at most one node with callees (declarations and
one definition), the sweep computes the quotient: there is an edge afterwards exactly when there
was one between the classes before, whatever the order.
-/

namespace FindBoundary

namespace CallGraph

open Sweep

variable {ast : ASTContext} {G : CallGraph}

/-! ## Linked nodes -/

/-- The matching rule, extended reflexively to all nodes. -/
def SameNode (G : CallGraph) (ast : ASTContext) (x y : NodeRef) : Prop :=
  x = y ∨ G.NodeMatches ast x y

theorem SameNode.symm {x y : NodeRef} (h : G.SameNode ast x y) : G.SameNode ast y x :=
  h.imp Eq.symm NodeMatches.symm

/-- Nodes connected by matches. -/
def Linked (G : CallGraph) (ast : ASTContext) : NodeRef → NodeRef → Prop :=
  Relation.ReflTransGen (G.NodeMatches ast)

/-- If matching is transitive on nodes, linked nodes are the same or match. -/
theorem Linked.sameNode (htrans : ∀ x y z, G.SameNode ast x y → G.SameNode ast y z →
    G.SameNode ast x z) {x y : NodeRef} (h : G.Linked ast x y) : G.SameNode ast x y := by
  induction h with
  | refl => exact Or.inl rfl
  | tail _ hyz ih => exact htrans _ _ _ ih (Or.inr hyz)

/-- Where no member function shares its name with a function that is none, matching is
transitive on nodes. -/
theorem sameNode_trans (hclass : ∀ x y, G.NodeMatches ast x y →
    (ast.asCXXMethodDecl (G.decl x)).isSome → (ast.asCXXMethodDecl (G.decl y)).isSome)
    {x y z : NodeRef} (hxy : G.SameNode ast x y) (hyz : G.SameNode ast y z) :
    G.SameNode ast x z := by
  rcases hxy with rfl | hxy
  · exact hyz
  rcases hyz with rfl | hyz
  · exact Or.inr hxy
  refine Or.inr ⟨hxy.1, hyz.2.1, ASTContext.matches_iff_cast.mpr ?_⟩
  obtain ⟨D, D2, hD, hD2, hname, hpar⟩ := ASTContext.matches_iff_cast.mp hxy.2.2
  obtain ⟨D2', D3, hD2', hD3, hname', hpar'⟩ := ASTContext.matches_iff_cast.mp hyz.2.2
  obtain rfl : D2 = D2' := Option.some.inj (hD2.symm.trans hD2')
  refine ⟨D, D3, hD, hD3, hname.trans hname', fun M M3 hM hM3 => ?_⟩
  -- the middle node is a member function because the first one is
  have hsome := hclass x y hxy (by rw [hM]; rfl)
  obtain ⟨M2, hM2⟩ := Option.isSome_iff_exists.mp hsome
  exact (hpar M M2 hM hM2).trans (hpar' M2 M3 hM2 hM3)

/-! ## Labels -/

/-- A named node is labelled by its name, any other by itself. -/
def label (G : CallGraph) (ast : ASTContext) (n : NodeRef) : String ⊕ NodeRef :=
  match ast.asNamedDecl (G.decl n) with
  | some D => .inl (ast.name D)
  | none => .inr n

theorem NodeMatches.label_eq {x y : NodeRef} (h : G.NodeMatches ast x y) :
    G.label ast x = G.label ast y := by
  obtain ⟨D, D2, hD, hD2, hname, -⟩ := ASTContext.matches_iff_cast.mp h.2.2
  rw [label, label, hD, hD2]
  exact congrArg Sum.inl hname

theorem Linked.label_eq {x y : NodeRef} (h : G.Linked ast x y) :
    G.label ast x = G.label ast y := by
  induction h with
  | refl => rfl
  | tail _ hyz ih => exact ih.trans hyz.label_eq

/-! ## Bounds on the sweep -/

section Bounds

variable {order : G.Enumeration}

/-- A node with callees is its own origin. -/
theorem WF.filledOrigin_self (h : WF G) (ast : ASTContext) (order : G.Enumeration) {p : NodeRef}
    (hp : G.callees p ≠ []) : filledOrigin ast order p = some p :=
  filling_of_eq_some (h.nodes_nodup order) (if_neg hp)

/-- The origin of a node has callees, and is linked to it through nodes without. -/
theorem WF.filledOrigin_path (h : WF G) {p o : NodeRef}
    (ho : filledOrigin ast order p = some o) :
    G.callees o ≠ [] ∧
      Relation.ReflTransGen (fun u v => G.NodeMatches ast u v ∧ G.callees u = []) p o := by
  obtain ⟨z, hz, hgz⟩ :=
    filling_origin (fun _ _ => NodeMatches.symm) (h.nodes_nodup order) ho
  simp only [originOf] at hgz
  split at hgz
  · cases hgz
  · rename_i hne
    obtain rfl := Option.some.inj hgz
    refine ⟨hne, Relation.ReflTransGen.mono (fun u v huv => ⟨huv.1, ?_⟩) _ _ hz⟩
    by_contra hu
    have hnone := huv.2
    rw [originOf, if_neg hu] at hnone
    cases hnone

theorem WF.filledOrigin_linked (h : WF G) {p o : NodeRef}
    (ho : filledOrigin ast order p = some o) : G.Linked ast p o :=
  Relation.ReflTransGen.mono (fun _ _ huv => huv.1) _ _ (h.filledOrigin_path ho).2

/-- A node with a direct partner that has callees ends with callees. -/
theorem WF.filledOrigin_ne_none (h : WF G) (order : G.Enumeration) {x y : NodeRef}
    (hM : G.NodeMatches ast x y) (hy : G.callees y ≠ []) : filledOrigin ast order x ≠ none := by
  by_cases hxy : x = y
  · subst hxy
    rw [h.filledOrigin_self ast order hy]
    exact Option.some_ne_none x
  · refine filling_ne_none (fun _ _ => NodeMatches.symm) (h.nodes_nodup order)
      ((h.mem_nodes_iff order x).mpr hM.1) ((h.mem_nodes_iff order y).mpr hM.2.1) hxy hM ?_
    rw [originOf, if_neg hy]
    exact Option.some_ne_none y

/-- A node ends with every caller of its direct partners. -/
theorem WF.mem_gossipedCallers (h : WF G) (order : G.Enumeration) {x y p : NodeRef}
    (hxy : G.SameNode ast x y) (hy : y ∈ G.callees p) : p ∈ gossipedCallers ast order x := by
  by_cases hne : x = y
  · subst hne
    exact subset_gossip (h.nodes_nodup order) _ _ hy
  · have hM := hxy.resolve_left hne
    exact subset_gossip_of_rel (fun _ _ => NodeMatches.symm) (h.nodes_nodup order)
      ((h.mem_nodes_iff order x).mpr hM.1) ((h.mem_nodes_iff order y).mpr hM.2.1) hne hM _ hy

/-- A node ends with callers of nodes linked to it only. -/
theorem WF.gossipedCallers_linked (h : WF G) {x p : NodeRef}
    (hp : p ∈ gossipedCallers ast order x) : ∃ y, G.Linked ast x y ∧ y ∈ G.callees p :=
  gossip_subset (f := callersOf G) (fun _ _ => NodeMatches.symm) (h.nodes_nodup order) hp

/-- **Upper bound**: an edge of the merged graph goes back to an edge between linked nodes. -/
theorem WF.linked_of_mem_callees (h : WF G) {p x : NodeRef}
    (hx : x ∈ (G.mergeFunctionMap ast order).callees p) :
    ∃ o y, G.Linked ast p o ∧ G.Linked ast x y ∧ y ∈ G.callees o := by
  obtain ⟨o, ho, hox⟩ := (h.mem_callees_mergeFunctionMap order).mp hx
  obtain ⟨y, hxy, hy⟩ := h.gossipedCallers_linked hox
  exact ⟨o, y, h.filledOrigin_linked ho, hxy, hy⟩

/-- **Lower bound**: whoever calls a node calls its direct partners after the sweep. -/
theorem WF.mem_callees_of_sameNode (h : WF G) (order : G.Enumeration) {x y p : NodeRef}
    (hxy : G.SameNode ast x y) (hy : y ∈ G.callees p) :
    x ∈ (G.mergeFunctionMap ast order).callees p :=
  (h.mem_callees_mergeFunctionMap order).mpr
    ⟨p, h.filledOrigin_self ast order (List.ne_nil_of_mem hy), h.mem_gossipedCallers order hxy hy⟩

end Bounds

/-! ## Conservation of named calls -/

/-- The calls of a graph, by label. -/
def labelledCalls (G : CallGraph) (ast : ASTContext) :
    Set ((String ⊕ NodeRef) × (String ⊕ NodeRef)) :=
  {e | ∃ p n, n ∈ G.callees p ∧ e = (G.label ast p, G.label ast n)}

theorem SameNodes.label_eq {G' : CallGraph} (h : SameNodes G G') (ast : ASTContext)
    (n : NodeRef) : G'.label ast n = G.label ast n := by
  rw [label, label, h.decl]

/-- **The merge neither invents nor loses a call at the level of names.** In any order, the
labelled calls are the same before and after; every edge is kept; and the root's callee list, the
nodes, the map and the declarations are unchanged. -/
theorem WF.labelledCalls_mergeFunctionMap (h : WF G) (order : G.Enumeration) :
    (G.mergeFunctionMap ast order).labelledCalls ast = G.labelledCalls ast ∧
    (∀ p n, n ∈ G.callees p → n ∈ (G.mergeFunctionMap ast order).callees p) ∧
    (G.mergeFunctionMap ast order).root = G.root ∧
    (G.mergeFunctionMap ast order).callees G.root = G.callees G.root ∧
    (∀ n, (G.mergeFunctionMap ast order).Allocated n ↔ G.Allocated n) ∧
    (G.mergeFunctionMap ast order).functionMap = G.functionMap ∧
    (∀ n, (G.mergeFunctionMap ast order).decl n = G.decl n) := by
  obtain ⟨-, hs⟩ := h.mergeFunctionMap ast order
  have hkeep : ∀ p n, n ∈ G.callees p → n ∈ (G.mergeFunctionMap ast order).callees p :=
    fun p n hn => h.mem_callees_of_sameNode order (Or.inl rfl) hn
  refine ⟨?_, hkeep, hs.root, h.callees_root_mergeFunctionMap order, ?_, hs.functionMap, hs.decl⟩
  · ext e
    refine ⟨?_, ?_⟩
    · rintro ⟨p, n, hn, rfl⟩
      obtain ⟨o, y, hpo, hny, hy⟩ := h.linked_of_mem_callees hn
      refine ⟨o, y, hy, ?_⟩
      rw [hs.label_eq, hs.label_eq, hpo.label_eq, hny.label_eq]
    · rintro ⟨p, n, hn, rfl⟩
      refine ⟨p, n, hkeep p n hn, ?_⟩
      rw [hs.label_eq, hs.label_eq]
  · intro n
    simp only [Allocated]
    rw [hs.next]

/-- Not vacuous: `f` comes to call the definition of `g`, and there is no new call by name. -/
theorem labelledCalls_splitUnits :
    let G := ofUnits splitUnits [[0], [2]]
    let G' := G.mergeFunctionMap splitUnits (.self G)
    3 ∉ G.callees 1 ∧ 3 ∈ G'.callees 1 ∧
      G'.labelledCalls splitUnits = G.labelledCalls splitUnits := by
  intro G G'
  exact ⟨by decide +kernel, by decide +kernel,
    ((wf_ofUnits splitUnits [[0], [2]]).labelledCalls_mergeFunctionMap (.self G)).1⟩

/-! ## The quotient -/

/-- **The merge computes the quotient.** Where matching is transitive and each class has at most
one node with callees, `a` calls `b` after the sweep exactly when some node matched with `a` called
some node matched with `b` before it. -/
theorem WF.mem_callees_iff_quotient (h : WF G) (order : G.Enumeration)
    (htrans : ∀ x y z, G.SameNode ast x y → G.SameNode ast y z → G.SameNode ast x z)
    (hone : ∀ x y, G.SameNode ast x y → G.callees x ≠ [] → G.callees y ≠ [] → x = y)
    (a b : NodeRef) :
    b ∈ (G.mergeFunctionMap ast order).callees a ↔
      ∃ a' b', G.SameNode ast a a' ∧ G.SameNode ast b b' ∧ b' ∈ G.callees a' := by
  refine ⟨?_, ?_⟩
  · intro hb
    obtain ⟨o, y, hao, hby, hy⟩ := h.linked_of_mem_callees hb
    exact ⟨o, y, hao.sameNode htrans, hby.sameNode htrans, hy⟩
  · rintro ⟨a', b', ha, hb, hedge⟩
    have ha' : G.callees a' ≠ [] := List.ne_nil_of_mem hedge
    -- whichever node `a` was filled from, it is the only one of its class with callees
    have horigin : filledOrigin ast order a = some a' := by
      rcases ho : filledOrigin ast order a with _ | o
      · rcases ha with rfl | hM
        · rw [h.filledOrigin_self ast order ha'] at ho
          cases ho
        · exact absurd ho (h.filledOrigin_ne_none order hM ha')
      · have hao : G.SameNode ast a o := (h.filledOrigin_linked ho).sameNode htrans
        have hoa' : G.SameNode ast o a' := htrans _ _ _ hao.symm ha
        rw [hone o a' hoa' (h.filledOrigin_path ho).1 ha']
    exact (h.mem_callees_mergeFunctionMap order).mpr
      ⟨a', horigin, h.mem_gossipedCallers order hb hedge⟩

/-- The same for the graph of any units, with the consequence that the edges do not depend on the
order. -/
theorem mergeFunctionMap_quotient (ast : ASTContext) (units : List (List Decl))
    (htrans : ∀ x y z, (ofUnits ast units).SameNode ast x y →
      (ofUnits ast units).SameNode ast y z → (ofUnits ast units).SameNode ast x z)
    (hone : ∀ x y, (ofUnits ast units).SameNode ast x y → (ofUnits ast units).callees x ≠ [] →
      (ofUnits ast units).callees y ≠ [] → x = y)
    (order order' : (ofUnits ast units).Enumeration) (a b : NodeRef) :
    (b ∈ ((ofUnits ast units).mergeFunctionMap ast order).callees a ↔
      ∃ a' b', (ofUnits ast units).SameNode ast a a' ∧ (ofUnits ast units).SameNode ast b b' ∧
        b' ∈ (ofUnits ast units).callees a') ∧
    (b ∈ ((ofUnits ast units).mergeFunctionMap ast order).callees a ↔
      b ∈ ((ofUnits ast units).mergeFunctionMap ast order').callees a) := by
  have h := wf_ofUnits ast units
  have hq := h.mem_callees_iff_quotient order htrans hone a b
  exact ⟨hq, hq.trans (h.mem_callees_iff_quotient order' htrans hone a b).symm⟩

theorem splitUnits_no_method (F : Option Decl) : splitUnits.asCXXMethodDecl F = none := by
  refine Option.eq_none_iff_forall_ne_some.mpr fun D hD => ?_
  have hk := (ASTContext.asCXXMethodDecl_eq_some.mp hD).2
  have hfun : (splitUnits.info D).kind = .function := by
    rcases ASTContext.info_ofTable _ D with h | h
    · have hall : ∀ info ∈ [DeclInfo.definition "f" [1], .declaration "g", .definition "g" [2]],
          info.kind = .function := by simp [DeclInfo.definition, DeclInfo.declaration]
      exact hall _ h
    · exact congrArg DeclInfo.kind h
  rw [hfun] at hk
  cases hk

theorem splitUnits_trans (x y z : NodeRef)
    (hxy : (ofUnits splitUnits [[0], [2]]).SameNode splitUnits x y)
    (hyz : (ofUnits splitUnits [[0], [2]]).SameNode splitUnits y z) :
    (ofUnits splitUnits [[0], [2]]).SameNode splitUnits x z := by
  refine sameNode_trans (fun u v _ hu => ?_) hxy hyz
  rw [splitUnits_no_method] at hu
  cases hu

theorem splitUnits_one (x y : NodeRef)
    (hxy : (ofUnits splitUnits [[0], [2]]).SameNode splitUnits x y)
    (hx : (ofUnits splitUnits [[0], [2]]).callees x ≠ [])
    (hy : (ofUnits splitUnits [[0], [2]]).callees y ≠ []) : x = y := by
  have hnext : (ofUnits splitUnits [[0], [2]]).next = 4 := by decide +kernel
  have hall : ∀ x ∈ List.range 4, ∀ y ∈ List.range 4,
      (ofUnits splitUnits [[0], [2]]).NodeMatches splitUnits x y →
      (ofUnits splitUnits [[0], [2]]).callees x ≠ [] →
      (ofUnits splitUnits [[0], [2]]).callees y ≠ [] → x = y := by decide +kernel
  rcases hxy with rfl | hM
  · rfl
  · exact hall x (List.mem_range.mpr (hnext ▸ hM.1)) y (List.mem_range.mpr (hnext ▸ hM.2.1))
      hM hx hy

/-- Not vacuous: `f` comes to call the definition of `g`. -/
theorem mergeFunctionMap_quotient_splitUnits :
    3 ∈ ((ofUnits splitUnits [[0], [2]]).mergeFunctionMap splitUnits (.self _)).callees 1 :=
  (mergeFunctionMap_quotient splitUnits [[0], [2]] splitUnits_trans splitUnits_one
    (.self _) (.self _) 1 3).1.mpr
      ⟨1, 2, Or.inl rfl, Or.inr (by decide +kernel), by decide +kernel⟩

end CallGraph

end FindBoundary
