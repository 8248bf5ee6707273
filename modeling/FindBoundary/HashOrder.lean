import FindBoundary.Quotient
import Mathlib.Data.List.Perm.Subperm

/-!
# What the enumeration order decides

The function map is keyed by pointers, so the order in which the sweep meets the nodes differs
between runs. Matching is not transitive: a function that is no method matches the methods of its
name in every class. But it is close: three matches in a row can be shortened to two
(`NodeMatches.shortcut`), so an order can carry a caller, or a list of callees, over one
intermediate node and no further. The orders that do it put the three nodes first
(`WF.exists_enumeration`), and the orders that do not put the last node first.

Hence an exact condition on the unmerged graph for the result to be the same in all orders
(`OrderFree`, `WF.mergeFunctionMap_orderFree_iff`).
-/

namespace FindBoundary

namespace CallGraph

open Sweep

variable {ast : ASTContext} {G : CallGraph}

/-! ## Paths of matches -/

/-- Of three matches in a row, the first two or the last two can be shortened: if the second node
is a method, it fixes the class of its neighbours, and if not, it matches the fourth. -/
theorem NodeMatches.shortcut {x u v y : NodeRef} (hxu : G.NodeMatches ast x u)
    (huv : G.NodeMatches ast u v) (hvy : G.NodeMatches ast v y) :
    G.NodeMatches ast x v ∨ G.NodeMatches ast u y := by
  obtain ⟨Dx, Du, hDx, hDu, hname₁, hclass₁⟩ := ASTContext.matches_iff_cast.mp hxu.2.2
  obtain ⟨Du', Dv, hDu', hDv, hname₂, hclass₂⟩ := ASTContext.matches_iff_cast.mp huv.2.2
  obtain ⟨Dv', Dy, hDv', hDy, hname₃, -⟩ := ASTContext.matches_iff_cast.mp hvy.2.2
  obtain rfl : Du = Du' := Option.some.inj (hDu.symm.trans hDu')
  obtain rfl : Dv = Dv' := Option.some.inj (hDv.symm.trans hDv')
  rcases hu : ast.asCXXMethodDecl (G.decl u) with _ | Mu
  · refine Or.inr ⟨huv.1, hvy.2.1, ASTContext.matches_iff_cast.mpr
      ⟨Du, Dy, hDu, hDy, hname₂.trans hname₃, fun M M3 hM _ => ?_⟩⟩
    rw [hu] at hM
    cases hM
  · refine Or.inl ⟨hxu.1, huv.2.1, ASTContext.matches_iff_cast.mpr
      ⟨Dx, Dv, hDx, hDv, hname₁.trans hname₂, fun M M3 hM hM3 => ?_⟩⟩
    exact (hclass₁ M Mu hM hu).trans (hclass₂ Mu M3 hu hM3)

/-- Linked nodes are at most two matches apart. -/
theorem Linked.short {x y : NodeRef} (h : G.Linked ast x y) :
    G.SameNode ast x y ∨ ∃ f, G.NodeMatches ast x f ∧ G.NodeMatches ast f y := by
  induction h using Relation.ReflTransGen.head_induction_on with
  | refl => exact Or.inl (Or.inl rfl)
  | @head x u hxu _ ih =>
    rcases ih with (rfl | huy) | ⟨f, huf, hfy⟩
    · exact Or.inl (Or.inr hxu)
    · exact Or.inr ⟨u, hxu, huy⟩
    · rcases hxu.shortcut huf hfy with hxf | huy
      · exact Or.inr ⟨f, hxf, hfy⟩
      · exact Or.inr ⟨u, hxu, huy⟩

/-- A node with callees that some order can fill the node `p` from: a direct partner of `p`, or a
partner of a partner without callees. -/
def Source (G : CallGraph) (ast : ASTContext) (p y : NodeRef) : Prop :=
  G.callees y ≠ [] ∧ (G.NodeMatches ast p y ∨
    ∃ f, G.callees f = [] ∧ G.NodeMatches ast p f ∧ G.NodeMatches ast f y)

/-- A node without callees is filled from a source. -/
theorem WF.source_of_filledOrigin (h : WF G) {order : G.Enumeration} {p o : NodeRef}
    (hp : G.callees p = []) (ho : filledOrigin ast order p = some o) : G.Source ast p o := by
  obtain ⟨hne, hpath⟩ := h.filledOrigin_path ho
  refine ⟨hne, ?_⟩
  -- a path through nodes without callees can be shortened like any other
  have hshort : ∀ q, Relation.ReflTransGen
      (fun u v => G.NodeMatches ast u v ∧ G.callees u = []) q o →
      q = o ∨ G.NodeMatches ast q o ∨
        ∃ f, G.callees f = [] ∧ G.NodeMatches ast q f ∧ G.NodeMatches ast f o := by
    intro q hq
    induction hq using Relation.ReflTransGen.head_induction_on with
    | refl => exact Or.inl rfl
    | @head q u hqu hrest ih =>
      right
      rcases ih with rfl | huo | ⟨f, hf, huf, hfo⟩
      · exact Or.inl hqu.1
      · rcases Relation.ReflTransGen.cases_head hrest with rfl | ⟨_, ⟨-, hu⟩, -⟩
        · exact Or.inl hqu.1
        · exact Or.inr ⟨u, hu, hqu.1, huo⟩
      · rcases hqu.1.shortcut huf hfo with hqf | huo
        · exact Or.inr ⟨f, hf, hqf, hfo⟩
        · rcases Relation.ReflTransGen.cases_head hrest with rfl | ⟨_, ⟨-, hu⟩, -⟩
          · exact Or.inl hqu.1
          · exact Or.inr ⟨u, hu, hqu.1, huo⟩
  rcases hshort p hpath with rfl | hsource
  · exact absurd hp hne
  · exact hsource

/-! ## Choosing an order -/

/-- The map in the opposite of its order of insertion. -/
def Enumeration.reverse (G : CallGraph) : G.Enumeration :=
  ⟨G.functionMap.reverse, G.functionMap.reverse_perm⟩

/-- Any distinct nodes can come first. -/
theorem WF.exists_enumeration (h : WF G) (first : List NodeRef) (hnd : first.Nodup)
    (hfirst : ∀ n ∈ first, G.Allocated n) :
    ∃ (order : G.Enumeration) (rest : List NodeRef), order.nodes = first ++ rest := by
  let entries : List (Option Decl × NodeRef) := first.map fun n => (G.decl n, n)
  have hentries : entries.map Prod.snd = first := by
    rw [List.map_map]
    exact List.map_id first
  have hsub : entries ⊆ G.functionMap := by
    intro e he
    obtain ⟨n, hn, rfl⟩ := List.mem_map.mp he
    exact h.entry_of_allocated n (hfirst n hn)
  have hnd' : entries.Nodup := List.Nodup.of_map Prod.snd (by rw [hentries]; exact hnd)
  obtain ⟨entries', hperm, hsublist⟩ := List.subperm_of_subset hnd' hsub
  obtain ⟨rest, hrest⟩ := hsublist.exists_perm_append
  refine ⟨⟨entries ++ rest, (hrest.trans (hperm.append_right rest)).symm⟩, rest.map Prod.snd, ?_⟩
  rw [Enumeration.nodes, List.map_append, hentries]

/-- Every source of a node without callees is its origin in some order. -/
theorem WF.exists_filledOrigin (h : WF G) {p y : NodeRef} (hp : G.callees p = [])
    (hy : G.Source ast p y) : ∃ order : G.Enumeration, filledOrigin ast order p = some y := by
  obtain ⟨hne, hsource⟩ := hy
  have horigin : originOf G y = some y := if_neg hne
  have horigin' : ∀ q, G.callees q = [] → originOf G q = none := fun q hq => if_pos hq
  have hpy : p ≠ y := by
    rintro rfl
    exact hne hp
  by_cases hdirect : G.NodeMatches ast p y
  · obtain ⟨order, rest, horder⟩ := h.exists_enumeration [p, y] (by simp [hpy])
      (by simp [hdirect.1, hdirect.2.1])
    refine ⟨order, ?_⟩
    have hnd := h.nodes_nodup order
    simp only [filledOrigin]
    rw [horder] at hnd ⊢
    exact filling_head_some hnd (horigin' p hp) hdirect horigin
  · obtain ⟨f, hf, hpf, hfy⟩ := hsource.resolve_left hdirect
    have hyf : y ≠ f := by
      rintro rfl
      exact hne hf
    have hfp : f ≠ p := by
      rintro rfl
      exact hdirect hfy
    obtain ⟨order, rest, horder⟩ := h.exists_enumeration [y, f, p]
      (by simp [hyf, hpy.symm, hfp]) (by simp [hpf.1, hpf.2.1, hfy.2.1])
    refine ⟨order, ?_⟩
    have hnd := h.nodes_nodup order
    simp only [filledOrigin]
    rw [horder] at hnd ⊢
    exact filling_relay hnd horigin (horigin' f hf) (horigin' p hp) hfy.symm hpf.symm

/-- Some order carries every caller of `y` over `f` to `x`. -/
theorem WF.exists_relay (h : WF G) {x f y : NodeRef} (hxf : G.NodeMatches ast x f)
    (hfy : G.NodeMatches ast f y) :
    ∃ order : G.Enumeration, ∀ p, y ∈ G.callees p →
      x ∈ (G.mergeFunctionMap ast order).callees p := by
  by_cases hdirect : G.SameNode ast x y
  · exact ⟨.self G, fun p hp => h.mem_callees_of_sameNode _ hdirect hp⟩
  · have hxf' : f ≠ x := by
      rintro rfl
      exact hdirect (Or.inr hfy)
    have hfy' : y ≠ f := by
      rintro rfl
      exact hdirect (Or.inr hxf)
    have hxy : y ≠ x := fun e => hdirect (Or.inl e.symm)
    obtain ⟨order, rest, horder⟩ := h.exists_enumeration [y, f, x]
      (by simp [hfy', hxy, hxf']) (by simp [hxf.1, hxf.2.1, hfy.2.1])
    refine ⟨order, fun p hp => ?_⟩
    have hnd := h.nodes_nodup order
    have hgossip : p ∈ gossipedCallers ast order x := by
      simp only [gossipedCallers]
      rw [horder] at hnd ⊢
      exact gossip_relay (fun _ _ => NodeMatches.symm) hnd hfy.symm hxf.symm _ hp
    exact (h.mem_callees_mergeFunctionMap order).mpr
      ⟨p, h.filledOrigin_self ast order (List.ne_nil_of_mem hp), hgossip⟩

/-! ## Graphs that merge to the same in all orders -/

/-- What makes the result of the sweep independent of the order. -/
structure OrderFree (G : CallGraph) (ast : ASTContext) : Prop where
  /-- whoever calls a partner of a partner of `x` calls `x` or a partner of `x` -/
  relay : ∀ x f y p, G.NodeMatches ast x f → G.NodeMatches ast f y → y ∈ G.callees p →
    ∃ z, G.SameNode ast x z ∧ z ∈ G.callees p
  /-- a node without callees that has a source has a direct partner with callees -/
  direct : ∀ p y, G.callees p = [] → G.Source ast p y →
    ∃ z, G.NodeMatches ast p z ∧ G.callees z ≠ []
  /-- the sources of a node without callees call the same functions, up to matching -/
  agree : ∀ p y y', G.callees p = [] → G.Source ast p y → G.Source ast p y' → ∀ x z,
    G.SameNode ast x z → z ∈ G.callees y → ∃ z', G.SameNode ast x z' ∧ z' ∈ G.callees y'

/-- The graphs the merge is made for: matching is transitive, and no two matched nodes have
callees. -/
theorem OrderFree.of_quotient (htrans : ∀ x y z, G.SameNode ast x y → G.SameNode ast y z →
      G.SameNode ast x z)
    (hone : ∀ x y, G.SameNode ast x y → G.callees x ≠ [] → G.callees y ≠ [] → x = y) :
    G.OrderFree ast := by
  have hsource : ∀ p y, G.Source ast p y → G.SameNode ast p y := by
    rintro p y ⟨-, hM | ⟨f, -, hpf, hfy⟩⟩
    · exact Or.inr hM
    · exact htrans p f y (Or.inr hpf) (Or.inr hfy)
  constructor
  case relay =>
    intro x f y p hxf hfy hy
    exact ⟨y, htrans x f y (Or.inr hxf) (Or.inr hfy), hy⟩
  case direct =>
    intro p y hp hy
    rcases hsource p y hy with rfl | hM
    · exact absurd hp hy.1
    · exact ⟨y, hM, hy.1⟩
  case agree =>
    intro p y y' _ hy hy' x z hxz hz
    have hyy' : G.SameNode ast y y' := htrans y p y' (hsource p y hy).symm (hsource p y' hy')
    obtain rfl := hone y y' hyy' hy.1 hy'.1
    exact ⟨z, hxz, hz⟩

/-- Without relays a node ends with the callers of its direct partners only. -/
theorem OrderFree.mem_gossipedCallers_iff (hG : G.OrderFree ast) (h : WF G)
    (order : G.Enumeration) {x p : NodeRef} :
    p ∈ gossipedCallers ast order x ↔ ∃ z, G.SameNode ast x z ∧ z ∈ G.callees p := by
  refine ⟨?_, ?_⟩
  · intro hp
    obtain ⟨y, hxy, hy⟩ := h.gossipedCallers_linked hp
    rcases hxy.short with hxy | ⟨f, hxf, hfy⟩
    · exact ⟨y, hxy, hy⟩
    · exact hG.relay x f y p hxf hfy hy
  · rintro ⟨z, hxz, hz⟩
    exact h.mem_gossipedCallers order hxz hz

/-- Every edge of one run is an edge of the other. -/
theorem OrderFree.mem_callees (hG : G.OrderFree ast) (h : WF G) (order order' : G.Enumeration)
    {p x : NodeRef} (hx : x ∈ (G.mergeFunctionMap ast order).callees p) :
    x ∈ (G.mergeFunctionMap ast order').callees p := by
  obtain ⟨o, ho, hox⟩ := (h.mem_callees_mergeFunctionMap order).mp hx
  rw [h.mem_callees_mergeFunctionMap order']
  obtain ⟨z, hxz, hz⟩ := (hG.mem_gossipedCallers_iff h order).mp hox
  rcases hp : G.callees p with _ | ⟨q, l⟩
  · have hsource := h.source_of_filledOrigin hp ho
    obtain ⟨y, hpy, hy⟩ := hG.direct p o hp hsource
    obtain ⟨o', ho'⟩ := Option.ne_none_iff_exists'.mp (h.filledOrigin_ne_none order' hpy hy)
    have hsource' := h.source_of_filledOrigin hp ho'
    exact ⟨o', ho', (hG.mem_gossipedCallers_iff h order').mpr
      (hG.agree p o o' hp hsource hsource' x z hxz hz)⟩
  · have hne : G.callees p ≠ [] := List.ne_nil_of_mem (hp ▸ List.mem_cons_self ..)
    obtain rfl : p = o := Option.some.inj ((h.filledOrigin_self ast order hne).symm.trans ho)
    exact ⟨p, h.filledOrigin_self ast order' hne,
      (hG.mem_gossipedCallers_iff h order').mpr ⟨z, hxz, hz⟩⟩

/-- An order in which `x` comes first carries nothing over to it. -/
theorem WF.exists_gossip_head (h : WF G) (ast : ASTContext) {x : NodeRef} (hx : G.Allocated x) :
    ∃ order : G.Enumeration, ∀ p, p ∈ gossipedCallers ast order x →
      ∃ z, G.SameNode ast x z ∧ z ∈ G.callees p := by
  obtain ⟨order, rest, horder⟩ := h.exists_enumeration [x] (List.nodup_singleton x) (by simp [hx])
  refine ⟨order, fun p hp => ?_⟩
  have hnd := h.nodes_nodup order
  simp only [gossipedCallers] at hp
  rw [horder] at hnd hp
  rcases gossip_head hnd hp with hp | ⟨z, -, hM, hz⟩
  · exact ⟨x, Or.inl rfl, hp⟩
  · exact ⟨z, Or.inr hM, hz⟩

/-- If no direct partner of `p` has callees, some order leaves `p` without callees. -/
theorem WF.exists_filledOrigin_none (h : WF G) {p : NodeRef} (hp : G.Allocated p)
    (hnil : G.callees p = []) (hpartner : ∀ z, G.NodeMatches ast p z → G.callees z = []) :
    ∃ order : G.Enumeration, filledOrigin ast order p = none := by
  obtain ⟨order, rest, horder⟩ := h.exists_enumeration [p] (List.nodup_singleton p) (by simp [hp])
  refine ⟨order, ?_⟩
  have hnd := h.nodes_nodup order
  simp only [filledOrigin]
  rw [horder] at hnd ⊢
  exact filling_head_none hnd (if_pos hnil) fun z _ hM => if_pos (hpartner z hM)

/-- A source is matched with something, so it and the node it fills are nodes. -/
theorem Source.allocated {p y : NodeRef} (hy : G.Source ast p y) :
    G.Allocated p ∧ G.Allocated y := by
  rcases hy.2 with hM | ⟨f, -, hpf, hfy⟩
  · exact ⟨hM.1, hM.2.1⟩
  · exact ⟨hpf.1, hfy.2.1⟩

section SameEdges

/-! ### From equal results to the conditions -/

variable (h : WF G) (hedge : ∀ (order order' : G.Enumeration) (p x : NodeRef),
  x ∈ (G.mergeFunctionMap ast order).callees p → x ∈ (G.mergeFunctionMap ast order').callees p)
include h hedge

/-- If all orders give the same edges, no caller is relayed: one order would relay the caller of
`y` to `x`, another lets `x` meet its partners first. -/
theorem WF.relay_of_edges {x f y p : NodeRef} (hxf : G.NodeMatches ast x f)
    (hfy : G.NodeMatches ast f y) (hy : y ∈ G.callees p) :
    ∃ z, G.SameNode ast x z ∧ z ∈ G.callees p := by
  obtain ⟨order, horder⟩ := h.exists_relay hxf hfy
  obtain ⟨order', horder'⟩ := h.exists_gossip_head ast hxf.1
  obtain ⟨o, ho, hox⟩ := (h.mem_callees_mergeFunctionMap order').mp
    (hedge order order' p x (horder p hy))
  rw [h.filledOrigin_self ast order' (List.ne_nil_of_mem hy)] at ho
  obtain rfl := Option.some.inj ho
  exact horder' p hox

/-- If all orders give the same edges, what a source of `p` calls, up to matching, every order lets
`p` call. -/
theorem WF.filled_of_edges {p y x z : NodeRef} (hp : G.callees p = []) (hy : G.Source ast p y)
    (hxz : G.SameNode ast x z) (hz : z ∈ G.callees y) (order : G.Enumeration) :
    x ∈ (G.mergeFunctionMap ast order).callees p := by
  obtain ⟨order', ho'⟩ := h.exists_filledOrigin hp hy
  exact hedge order' order p x ((h.mem_callees_mergeFunctionMap order').mpr
    ⟨y, ho', h.mem_gossipedCallers order' hxz hz⟩)

theorem WF.orderFree_of_edges : G.OrderFree ast := by
  constructor
  case relay =>
    intro x f y p hxf hfy hy
    exact h.relay_of_edges hedge hxf hfy hy
  case direct =>
    intro p y hp hy
    by_contra hnone
    obtain ⟨order, horder⟩ := h.exists_filledOrigin_none hy.allocated.1 hp
      fun z hM => not_not.mp fun hz => hnone ⟨z, hM, hz⟩
    obtain ⟨z, hz⟩ := List.exists_mem_of_ne_nil _ hy.1
    obtain ⟨o, ho, -⟩ := (h.mem_callees_mergeFunctionMap order).mp
      (h.filled_of_edges hedge hp hy (Or.inl rfl) hz order)
    rw [horder] at ho
    cases ho
  case agree =>
    intro p y y' hp hy hy' x z hxz hz
    obtain ⟨order, horder⟩ := h.exists_filledOrigin hp hy'
    obtain ⟨o, ho, hox⟩ := (h.mem_callees_mergeFunctionMap order).mp
      (h.filled_of_edges hedge hp hy hxz hz order)
    obtain rfl := Option.some.inj (horder.symm.trans ho)
    obtain ⟨z', hxz', hz'⟩ := h.gossipedCallers_linked hox
    rcases hxz'.short with hxz' | ⟨f, hxf, hfz'⟩
    · exact ⟨z', hxz', hz'⟩
    · exact h.relay_of_edges hedge hxf hfz' hz'

end SameEdges

/-- **When the hash order does not matter**: any two orders give every node the same callees and
the same callers exactly when the graph is `OrderFree`. -/
theorem WF.mergeFunctionMap_orderFree_iff (h : WF G) :
    (∀ (order order' : G.Enumeration) (n : NodeRef),
      (∀ x, x ∈ (G.mergeFunctionMap ast order).callees n ↔
        x ∈ (G.mergeFunctionMap ast order').callees n) ∧
      (∀ x, x ∈ (G.mergeFunctionMap ast order).parents n ↔
        x ∈ (G.mergeFunctionMap ast order').parents n)) ↔
    G.OrderFree ast := by
  refine ⟨?_, ?_⟩
  · intro hfree
    exact h.orderFree_of_edges fun order order' p x => ((hfree order order' p).1 x).mp
  · intro hG order order' n
    refine ⟨fun x => ⟨hG.mem_callees h order order', hG.mem_callees h order' order⟩, fun x => ?_⟩
    rw [(h.mergeFunctionMap ast order).1.mem_parents_iff,
      (h.mergeFunctionMap ast order').1.mem_parents_iff]
    exact ⟨hG.mem_callees h order order', hG.mem_callees h order' order⟩

/-- Not vacuous: a declaration and its definition merge to the same in two opposite orders. -/
theorem mergeFunctionMap_orderFree_splitUnits :
    3 ∈ ((ofUnits splitUnits [[0], [2]]).mergeFunctionMap splitUnits (.self _)).callees 1 ↔
      3 ∈ ((ofUnits splitUnits [[0], [2]]).mergeFunctionMap splitUnits (.reverse _)).callees 1 :=
  ((wf_ofUnits splitUnits [[0], [2]]).mergeFunctionMap_orderFree_iff.mpr
    (.of_quotient splitUnits_trans splitUnits_one) (.self _) (.reverse _) 1).1 3

/-- Two functions `a` and `b` and three overloads of `f`: two definitions, one of which calls `a`
and the other `b`, and a declaration that `main` calls. -/
def overloads : ASTContext :=
  .ofTable [.definition "a" [], .definition "b" [], .definition "f" [0], .definition "f" [1],
    .declaration "f", .definition "main" [4]]

/-- Whether the declaration comes to call `a` or `b` is up to the order. -/
theorem mergeFunctionMap_overloads :
    let G := ofUnits overloads [[0, 1, 2, 3, 4, 5]]
    WF G ∧ ¬ ∀ (order order' : G.Enumeration) (n : NodeRef),
      (∀ x, x ∈ (G.mergeFunctionMap overloads order).callees n ↔
        x ∈ (G.mergeFunctionMap overloads order').callees n) ∧
      (∀ x, x ∈ (G.mergeFunctionMap overloads order).parents n ↔
        x ∈ (G.mergeFunctionMap overloads order').parents n) := by
  refine ⟨wf_ofUnits _ _, fun hfree => ?_⟩
  have hedge := (hfree (.self _) (.reverse _) 6).1 2
  revert hedge
  decide +kernel

end CallGraph

end FindBoundary
