import FindBoundary.Walks

/-!
# The representation invariant

`WF` collects what every function of the tool relies on: edges are recorded at both ends, the
virtual root calls every other node exactly once and is called by none, and the function map owns
the nodes. The one delicate point is the root: the merge makes the parents of one node call
another, and the root is a parent of every node, so it is only the search for an existing edge
that keeps the root's list free of repetitions; and that search sees the edge because both ends
agree.
-/

namespace FindBoundary

namespace CallGraph

variable {ast : ASTContext} {G : CallGraph}

/-- The representation invariant of a call graph. -/
structure WF (G : CallGraph) : Prop where
  /-- an edge is recorded at both of its ends -/
  mem_parents_iff : ∀ p n, p ∈ G.parents n ↔ n ∈ G.callees p
  /-- no parent is recorded twice -/
  parents_nodup : ∀ n, (G.parents n).Nodup
  /-- nobody calls the root -/
  root_parents : G.parents G.root = []
  /-- the root calls every other node once -/
  count_root : ∀ n, G.Allocated n → n ≠ G.root → (G.callees G.root).count n = 1
  /-- edges run between nodes -/
  edge_allocated : ∀ p n, n ∈ G.callees p → G.Allocated p ∧ G.Allocated n
  /-- the map sends a declaration to a node with that declaration -/
  entry_decl : ∀ F n, (F, n) ∈ G.functionMap → G.Allocated n ∧ G.decl n = F
  /-- the map owns all the nodes -/
  entry_of_allocated : ∀ n, G.Allocated n → (G.decl n, n) ∈ G.functionMap
  /-- it is a map -/
  keys_nodup : (G.functionMap.map Prod.fst).Nodup
  /-- the root is the node of the null pointer -/
  root_entry : (none, G.root) ∈ G.functionMap

namespace WF

theorem root_not_callee (h : WF G) (p : NodeRef) : G.root ∉ G.callees p := by
  intro hp
  have hmem : p ∈ G.parents G.root := (h.mem_parents_iff p G.root).mpr hp
  rw [h.root_parents] at hmem
  exact absurd hmem List.not_mem_nil

theorem root_allocated (h : WF G) : G.Allocated G.root := (h.entry_decl _ _ h.root_entry).1

theorem decl_root (h : WF G) : G.decl G.root = none := (h.entry_decl _ _ h.root_entry).2

/-- The root calls every other node. -/
theorem mem_callees_root (h : WF G) {n : NodeRef} (hn : G.Allocated n) (hr : n ≠ G.root) :
    n ∈ G.callees G.root := by
  have hc := h.count_root n hn hr
  exact List.count_pos_iff.mp (by omega)

/-- Every node but the root has a parent, namely the root. -/
theorem root_mem_parents (h : WF G) {n : NodeRef} (hn : G.Allocated n) (hr : n ≠ G.root) :
    G.root ∈ G.parents n := (h.mem_parents_iff _ _).mpr (h.mem_callees_root hn hr)

/-- A called node is not the root. -/
theorem ne_root_of_mem (h : WF G) {p n : NodeRef} (hn : n ∈ G.callees p) : n ≠ G.root := by
  rintro rfl
  exact h.root_not_callee p hn

/-- Distinct keys have distinct nodes. -/
theorem entry_inj (h : WF G) {F F' : Option Decl} {n : NodeRef} (hF : (F, n) ∈ G.functionMap)
    (hF' : (F', n) ∈ G.functionMap) : F = F' :=
  (h.entry_decl F n hF).2.symm.trans (h.entry_decl F' n hF').2

/-- A key has one node. -/
theorem entry_fun (h : WF G) {F : Option Decl} {n n' : NodeRef} (hn : (F, n) ∈ G.functionMap)
    (hn' : (F, n') ∈ G.functionMap) : n = n' := by
  have hinj := List.inj_on_of_nodup_map h.keys_nodup
  exact congrArg Prod.snd (hinj hn hn' rfl)

/-- Nodes are determined by their declarations. -/
theorem decl_inj (h : WF G) {n n' : NodeRef} (hn : G.Allocated n) (hn' : G.Allocated n')
    (hd : G.decl n = G.decl n') : n = n' := by
  have hentry := h.entry_of_allocated n hn
  rw [hd] at hentry
  exact h.entry_fun hentry (h.entry_of_allocated n' hn')

end WF

/-! ## Looking nodes up -/

theorem entry_of_getNode {F : Option Decl} {n : NodeRef} (h : G.getNode F = some n) :
    (F, n) ∈ G.functionMap := by
  obtain ⟨l₁, l₂, hl, -⟩ := List.lookup_eq_some_iff.mp h
  rw [hl]
  exact List.mem_append_right _ (List.mem_cons_self ..)

theorem getNode_eq_none_iff {F : Option Decl} :
    G.getNode F = none ↔ ∀ n, (F, n) ∉ G.functionMap := by
  simp only [getNode]
  rw [List.lookup_eq_none_iff]
  refine ⟨?_, ?_⟩
  · intro h n hn
    have hne := h (F, n) hn
    simp at hne
  · rintro h ⟨F', n⟩ hn
    simp only [bne_iff_ne]
    rintro rfl
    exact h n hn

theorem WF.getNode_eq_some_iff (h : WF G) {F : Option Decl} {n : NodeRef} :
    G.getNode F = some n ↔ (F, n) ∈ G.functionMap := by
  refine ⟨entry_of_getNode, fun hn => ?_⟩
  rcases hF : G.getNode F with _ | n'
  · exact absurd hn (getNode_eq_none_iff.mp hF n)
  · rw [h.entry_fun (entry_of_getNode hF) hn]

theorem getOrInsertNode_of_some {F : Option Decl} {n : NodeRef} (h : G.getNode F = some n) :
    G.getOrInsertNode F = (n, G) := by
  simp [getOrInsertNode, h]

theorem getOrInsertNode_of_none {D : Decl} (h : G.getNode (some D) = none) :
    G.getOrInsertNode (some D) = (G.next, (G.allocate (some D)).addCallee G.root G.next) := by
  simp [getOrInsertNode, h]

/-- In a well-formed graph the root is the node of the null pointer. -/
theorem WF.getOrInsertNode_none (h : WF G) : G.getOrInsertNode none = (G.root, G) :=
  getOrInsertNode_of_some (h.getNode_eq_some_iff.mpr h.root_entry)

/-- The node that `getOrInsertNode` returns is the node of the declaration from then on. -/
theorem getOrInsertNode_entry (G : CallGraph) (D : Decl) :
    (some D, (G.getOrInsertNode (some D)).1) ∈ (G.getOrInsertNode (some D)).2.functionMap := by
  rcases h : G.getNode (some D) with _ | n
  · rw [getOrInsertNode_of_none h, functionMap_addCallee]
    exact List.mem_append_right _ (List.mem_singleton_self _)
  · rw [getOrInsertNode_of_some h]
    exact entry_of_getNode h

/-- Entries of the map are never removed. -/
theorem entry_getOrInsertNode {F F' : Option Decl} {n : NodeRef} (h : (F, n) ∈ G.functionMap) :
    (F, n) ∈ (G.getOrInsertNode F').2.functionMap := by
  rcases hF : G.getNode F' with _ | n'
  · simp only [getOrInsertNode]
    rw [hF]
    simp only
    split
    · exact List.mem_append_left _ h
    · rw [functionMap_addCallee]
      exact List.mem_append_left _ h
  · rw [getOrInsertNode_of_some hF]
    exact h

/-! ## The invariant holds initially and every operation keeps it -/

theorem callees_new (p : NodeRef) : new.callees p = [] := by
  change callees (allocate _ _) p = []
  rw [callees_allocate]
  split <;> rfl

theorem wf_new : WF new := by
  have hparents : ∀ p, new.parents p = [] := by
    intro p
    change (parents (allocate _ _) p) = []
    rw [parents_allocate]
    split
    · rfl
    · rfl
  have hnext : ∀ p, new.Allocated p ↔ p = 0 := fun p => Nat.lt_one_iff
  constructor
  case mem_parents_iff =>
    intro p n
    rw [callees_new, hparents]
    exact iff_of_false List.not_mem_nil List.not_mem_nil
  case parents_nodup =>
    intro n
    rw [hparents]
    exact List.nodup_nil
  case root_parents =>
    exact hparents _
  case count_root =>
    intro n hn hr
    exact absurd ((hnext n).mp hn) hr
  case edge_allocated =>
    intro p n hn
    rw [callees_new] at hn
    exact absurd hn List.not_mem_nil
  case entry_decl =>
    intro F n hn
    obtain ⟨rfl, rfl⟩ : F = none ∧ n = 0 := by
      have := List.mem_singleton.mp hn
      exact ⟨congrArg Prod.fst this, congrArg Prod.snd this⟩
    exact ⟨(hnext 0).mpr rfl, rfl⟩
  case entry_of_allocated =>
    intro n hn
    obtain rfl := (hnext n).mp hn
    exact List.mem_singleton.mpr rfl
  case keys_nodup =>
    exact List.nodup_singleton _
  case root_entry =>
    exact List.mem_singleton.mpr rfl

/-- A new edge from a node other than the root to a node other than the root keeps the
invariant. -/
theorem WF.addCallee (h : WF G) {p n : NodeRef} (hp : G.Allocated p) (hn : G.Allocated n)
    (hpr : p ≠ G.root) (hnr : n ≠ G.root) : WF (G.addCallee p n) := by
  have hnext : ∀ q, (G.addCallee p n).Allocated q ↔ G.Allocated q := by
    intro q
    simp [Allocated]
  constructor
  case mem_parents_iff =>
    intro q x
    rw [mem_parents_addCallee, mem_callees_addCallee, h.mem_parents_iff]
    exact or_congr Iff.rfl And.comm
  case parents_nodup =>
    intro q
    rw [parents_addCallee]
    split
    · rename_i hq
      exact List.nodup_append.mpr ⟨h.parents_nodup n, List.nodup_singleton p, by
        rintro a ha b hb rfl
        exact hq.2 (List.mem_singleton.mp hb ▸ ha)⟩
    · exact h.parents_nodup q
  case root_parents =>
    rw [root_addCallee, parents_addCallee, if_neg fun hq => hnr hq.1.symm]
    exact h.root_parents
  case count_root =>
    intro q hq hqr
    rw [root_addCallee] at hqr ⊢
    rw [callees_addCallee, if_neg hpr.symm]
    exact h.count_root q ((hnext q).mp hq) hqr
  case edge_allocated =>
    intro q x hx
    rw [hnext, hnext]
    rcases mem_callees_addCallee.mp hx with hx | ⟨rfl, rfl⟩
    · exact h.edge_allocated q x hx
    · exact ⟨hp, hn⟩
  case entry_decl =>
    intro F q hq
    rw [functionMap_addCallee] at hq
    rw [hnext, decl_addCallee]
    exact h.entry_decl F q hq
  case entry_of_allocated =>
    intro q hq
    rw [functionMap_addCallee, decl_addCallee]
    exact h.entry_of_allocated q ((hnext q).mp hq)
  case keys_nodup =>
    rw [functionMap_addCallee]
    exact h.keys_nodup
  case root_entry =>
    rw [functionMap_addCallee, root_addCallee]
    exact h.root_entry

/-! ### Inserting a fresh node -/

theorem Allocated.ne_next {q : NodeRef} (hq : G.Allocated q) : q ≠ G.next := Nat.ne_of_lt hq

/-- Nobody calls the next node yet. -/
theorem WF.next_not_mem_callees (h : WF G) (q : NodeRef) : G.next ∉ G.callees q := fun hq =>
  (h.edge_allocated q _ hq).2.ne_next rfl

theorem WF.callees_next (h : WF G) : G.callees G.next = [] :=
  List.eq_nil_iff_forall_not_mem.mpr fun x hx => (h.edge_allocated _ x hx).1.ne_next rfl

/-- The root becomes a caller of the fresh node. -/
theorem WF.callees_insert (h : WF G) (D : Decl) (q : NodeRef) :
    ((G.allocate (some D)).addCallee G.root G.next).callees q =
      if q = G.root then G.callees G.root ++ [G.next] else G.callees q := by
  rw [callees_addCallee, callees_allocate, callees_allocate, if_neg h.root_allocated.ne_next]
  split
  · rfl
  · split
    · rename_i hq
      rw [hq, h.callees_next]
    · rfl

/-- Nobody else does. -/
theorem parents_insert (G : CallGraph) (D : Decl) (q : NodeRef) :
    ((G.allocate (some D)).addCallee G.root G.next).parents q =
      if q = G.next then [G.root] else G.parents q := by
  rw [parents_addCallee, parents_allocate, parents_allocate, if_pos rfl]
  by_cases hq : q = G.next
  · simp [hq]
  · simp [hq]

theorem allocated_insert (D : Decl) (q : NodeRef) :
    ((G.allocate (some D)).addCallee G.root G.next).Allocated q ↔ G.Allocated q ∨ q = G.next := by
  rw [Allocated, next_addCallee]
  exact Nat.lt_succ_iff_lt_or_eq

/-- A fresh node enters with the root as its only parent. -/
theorem WF.insert (h : WF G) {D : Decl} (hD : G.getNode (some D) = none) :
    WF ((G.allocate (some D)).addCallee G.root G.next) := by
  have hroot : G.root ≠ G.next := h.root_allocated.ne_next
  constructor
  case mem_parents_iff =>
    intro p n
    rw [parents_insert, h.callees_insert]
    by_cases hn : n = G.next
    · rw [if_pos hn, hn, List.mem_singleton]
      by_cases hp : p = G.root
      · simp [hp]
      · simp [hp, h.next_not_mem_callees p]
    · rw [if_neg hn, h.mem_parents_iff]
      by_cases hp : p = G.root
      · simp [hp, hn]
      · simp [hp]
  case parents_nodup =>
    intro n
    rw [parents_insert]
    split
    · exact List.nodup_singleton _
    · exact h.parents_nodup n
  case root_parents =>
    rw [root_addCallee, parents_insert]
    change (if G.root = G.next then [G.root] else G.parents G.root) = []
    rw [if_neg hroot]
    exact h.root_parents
  case count_root =>
    intro n hn hnr
    rw [root_addCallee] at hnr ⊢
    change n ≠ G.root at hnr
    rw [h.callees_insert]
    change (if G.root = G.root then G.callees G.root ++ [G.next] else _).count n = 1
    rw [if_pos rfl, List.count_append]
    rcases (allocated_insert D n).mp hn with hn | rfl
    · rw [h.count_root n hn hnr, List.count_singleton]
      simp [hn.ne_next.symm]
    · rw [List.count_eq_zero_of_not_mem (h.next_not_mem_callees _), List.count_singleton_self]
  case edge_allocated =>
    intro p n hn
    rw [allocated_insert, allocated_insert]
    rw [h.callees_insert] at hn
    split at hn
    · rename_i hp
      subst hp
      refine ⟨Or.inl h.root_allocated, ?_⟩
      rcases List.mem_append.mp hn with hn | hn
      · exact Or.inl (h.edge_allocated _ n hn).2
      · exact Or.inr (List.mem_singleton.mp hn)
    · exact (h.edge_allocated p n hn).imp Or.inl Or.inl
  case entry_decl =>
    intro F n hn
    rw [functionMap_addCallee] at hn
    rw [allocated_insert, decl_addCallee, decl_allocate]
    rcases List.mem_append.mp hn with hn | hn
    · obtain ⟨hna, hnd⟩ := h.entry_decl F n hn
      exact ⟨Or.inl hna, by rw [if_neg hna.ne_next, hnd]⟩
    · obtain ⟨rfl, rfl⟩ := Prod.mk.inj (List.mem_singleton.mp hn)
      exact ⟨Or.inr rfl, if_pos rfl⟩
  case entry_of_allocated =>
    intro n hn
    rw [functionMap_addCallee, decl_addCallee, decl_allocate]
    rcases (allocated_insert D n).mp hn with hn | rfl
    · rw [if_neg hn.ne_next]
      exact List.mem_append_left _ (h.entry_of_allocated n hn)
    · rw [if_pos rfl]
      exact List.mem_append_right _ (List.mem_singleton_self _)
  case keys_nodup =>
    rw [functionMap_addCallee]
    change ((G.functionMap ++ [(some D, G.next)]).map Prod.fst).Nodup
    rw [List.map_append]
    refine List.nodup_append.mpr ⟨h.keys_nodup, List.nodup_singleton _, ?_⟩
    rintro F hF F' hF' rfl
    obtain rfl := List.mem_singleton.mp hF'
    obtain ⟨⟨F, n⟩, hn, rfl⟩ := List.mem_map.mp hF
    exact getNode_eq_none_iff.mp hD n hn
  case root_entry =>
    rw [functionMap_addCallee, root_addCallee]
    exact List.mem_append_left _ h.root_entry

/-- `getOrInsertNode` keeps the invariant. -/
theorem WF.getOrInsertNode (h : WF G) (F : Option Decl) : WF (G.getOrInsertNode F).2 := by
  rcases F with _ | D
  · rw [h.getOrInsertNode_none]
    exact h
  · rcases hD : G.getNode (some D) with _ | n
    · rw [getOrInsertNode_of_none hD]
      exact h.insert hD
    · rw [getOrInsertNode_of_some hD]
      exact h

/-! ### Building -/

/-- What the walk of a body keeps: the invariant, and the caller's entry in the map. -/
structure WalkInv (D : Decl) (callerNode : NodeRef) (G : CallGraph) : Prop where
  wf : WF G
  entry : (some D, callerNode) ∈ G.functionMap

namespace WalkInv

variable {D : Decl} {callerNode : NodeRef}

theorem allocated (h : WalkInv D callerNode G) : G.Allocated callerNode :=
  (h.wf.entry_decl _ _ h.entry).1

/-- A node with a declaration is not the root. -/
theorem ne_root (h : WalkInv D callerNode G) : callerNode ≠ G.root := by
  intro hr
  have hd := (h.wf.entry_decl _ _ h.entry).2
  rw [hr, h.wf.decl_root] at hd
  cases hd

theorem getOrInsertNode (h : WF G) (D : Decl) :
    WalkInv D (G.getOrInsertNode (some D)).1 (G.getOrInsertNode (some D)).2 :=
  ⟨h.getOrInsertNode (some D), getOrInsertNode_entry G D⟩

/-- Recording a call keeps the invariant of the walk. -/
theorem addCalledDeclForExpr (h : WalkInv D callerNode G) (D' : Decl) :
    WalkInv D callerNode (addCalledDeclForExpr callerNode D' G) := by
  have hcallee : WalkInv D' (G.getOrInsertNode (some D')).1 (G.getOrInsertNode (some D')).2 :=
    getOrInsertNode h.wf D'
  have hcaller : WalkInv D callerNode (G.getOrInsertNode (some D')).2 :=
    ⟨hcallee.wf, entry_getOrInsertNode h.entry⟩
  refine ⟨hcaller.wf.addCallee hcaller.allocated hcallee.allocated hcaller.ne_root
    hcallee.ne_root, ?_⟩
  rw [CallGraph.addCalledDeclForExpr, functionMap_addCallee]
  exact hcaller.entry

theorem perform (h : WalkInv D callerNode G) (r : Request) :
    WalkInv D callerNode (perform ast callerNode r G) := by
  rcases perform_cases ast callerNode r G with heq | heq <;> rw [heq]
  · exact h
  · exact h.addCalledDeclForExpr r.target

theorem performAll (h : WalkInv D callerNode G) (rs : List Request) :
    WalkInv D callerNode (rs.foldl (fun G r => CallGraph.perform ast callerNode r G) G) :=
  List.foldlRecOn rs _ h fun _ h r _ => h.perform r

end WalkInv

theorem WF.walk (h : WF G) (D : Decl) : WF (walk ast D G) := by
  rw [walk_eq_foldl]
  exact ((WalkInv.getOrInsertNode h D).performAll _).wf

theorem WF.walkAll (h : WF G) (Ds : List Decl) :
    WF (Ds.foldl (fun G D => CallGraph.walk ast D G) G) :=
  List.foldlRecOn Ds _ h fun _ h D _ => h.walk D

theorem WF.visitDecl (h : WF G) (D : Decl) : WF (visitDecl ast D G) := by
  rw [visitDecl_eq_foldl]
  exact h.walkAll _

theorem WF.addToCallGraph (h : WF G) (unit : List Decl) : WF (addToCallGraph ast unit G) := by
  rw [addToCallGraph_eq_foldl]
  exact h.walkAll _

theorem wf_ofUnits (ast : ASTContext) (units : List (List Decl)) : WF (ofUnits ast units) := by
  rw [ofUnits_eq]
  exact wf_new.addToCallGraph _

/-! ### Merging -/

/-- A node other than the root. -/
structure IsFunctionNode (G : CallGraph) (n : NodeRef) : Prop where
  allocated : G.Allocated n
  ne_root : n ≠ G.root

theorem SameNodes.isFunctionNode {G G' : CallGraph} (h : SameNodes G G') {n : NodeRef}
    (hn : G.IsFunctionNode n) : G'.IsFunctionNode n := by
  refine ⟨?_, ?_⟩
  · simp only [Allocated]
    rw [h.next]
    exact hn.allocated
  · rw [h.root]
    exact hn.ne_root

theorem WF.isFunctionNode_of_mem (h : WF G) {p n : NodeRef} (hn : n ∈ G.callees p) :
    G.IsFunctionNode n := ⟨(h.edge_allocated p n hn).2, h.ne_root_of_mem hn⟩

theorem WF.foldl_addCallee (h : WF G) {n : NodeRef} (hn : G.IsFunctionNode n)
    {l : List NodeRef} (hl : ∀ x ∈ l, G.IsFunctionNode x) :
    WF (l.foldl (fun G it => G.addCallee n it) G) := by
  refine (List.foldlRecOn (motive := fun G' => WF G' ∧ SameNodes G G') l _
    ⟨h, SameNodes.refl G⟩ ?_).1
  rintro H ⟨hH, hs⟩ x hx
  have hn' := hs.isFunctionNode hn
  have hx' := hs.isFunctionNode (hl x hx)
  exact ⟨hH.addCallee hn'.allocated hx'.allocated hn'.ne_root hx'.ne_root,
    hs.trans (sameNodes_addCallee H n x)⟩

theorem WF.copyCallees (h : WF G) {n1 n2 : NodeRef} (hn1 : G.IsFunctionNode n1)
    (hn2 : G.IsFunctionNode n2) : WF (G.copyCallees n1 n2) := by
  simp only [CallGraph.copyCallees]
  split
  · exact h.foldl_addCallee hn1 fun _ hx => h.isFunctionNode_of_mem hx
  · split
    · exact h.foldl_addCallee hn2 fun _ hx => h.isFunctionNode_of_mem hx
    · exact h

/-- The search for an existing edge protects the root: it calls `target` already, so the loop
never appends to its list. -/
theorem WF.adopt (h : WF G) {target it : NodeRef} (ht : G.IsFunctionNode target)
    (hit : G.Allocated it) : WF (G.adopt target it) := by
  simp only [CallGraph.adopt]
  split
  · exact h
  · rename_i hnot
    refine h.addCallee hit ht.allocated ?_ ht.ne_root
    rintro rfl
    exact hnot (h.mem_callees_root ht.allocated ht.ne_root)

theorem WF.adoptParents (h : WF G) (source : NodeRef) {target : NodeRef}
    (ht : G.IsFunctionNode target) :
    WF (G.adoptParents source target) := by
  simp only [CallGraph.adoptParents]
  refine (List.foldlRecOn (motive := fun G' => WF G' ∧ SameNodes G G') _ _
    ⟨h, SameNodes.refl G⟩ ?_).1
  rintro H ⟨hH, hs⟩ it hit
  have hit' : H.Allocated it := by
    simp only [Allocated]
    rw [hs.next]
    exact (h.edge_allocated it source ((h.mem_parents_iff it source).mp hit)).1
  exact ⟨hH.adopt (hs.isFunctionNode ht) hit', hs.trans (sameNodes_adopt H target it)⟩

/-- The two branches of the merge for an empty parent list are never taken: the root is a parent
of both nodes. -/
theorem WF.parents_copyCallees_ne_nil (h : WF G) {n1 n2 n : NodeRef} (hn1 : G.IsFunctionNode n1)
    (hn2 : G.IsFunctionNode n2) (hn : G.IsFunctionNode n) :
    (G.copyCallees n1 n2).parents n ≠ [] := by
  have hn' := (sameNodes_copyCallees G n1 n2).isFunctionNode hn
  have hmem := (h.copyCallees hn1 hn2).root_mem_parents hn'.allocated hn'.ne_root
  exact List.ne_nil_of_mem hmem

/-- On a well-formed graph the merge is the copying followed by both adopting loops. -/
theorem WF.mergeCallGraphNode_eq (h : WF G) {n1 n2 : NodeRef} (hn1 : G.IsFunctionNode n1)
    (hn2 : G.IsFunctionNode n2) :
    G.mergeCallGraphNode n1 n2 =
      ((G.copyCallees n1 n2).adoptParents n2 n1).adoptParents n1 n2 := by
  have h1 := h.parents_copyCallees_ne_nil hn1 hn2 hn1
  have h2 := h.parents_copyCallees_ne_nil hn1 hn2 hn2
  simp [CallGraph.mergeCallGraphNode, h1, h2]

theorem sameNodes_mergeCallGraphNode (G : CallGraph) (n1 n2 : NodeRef) :
    SameNodes G (G.mergeCallGraphNode n1 n2) := by
  have hcopy := sameNodes_copyCallees G n1 n2
  unfold CallGraph.mergeCallGraphNode
  simp only
  split
  · exact hcopy.trans (sameNodes_adoptParents ..)
  · split
    · exact hcopy.trans (sameNodes_adoptParents ..)
    · split
      · exact (hcopy.trans (sameNodes_adoptParents ..)).trans (sameNodes_adoptParents ..)
      · exact hcopy

theorem WF.mergeCallGraphNode (h : WF G) {n1 n2 : NodeRef} (hn1 : G.IsFunctionNode n1)
    (hn2 : G.IsFunctionNode n2) : WF (G.mergeCallGraphNode n1 n2) := by
  rw [h.mergeCallGraphNode_eq hn1 hn2]
  have hcopy := sameNodes_copyCallees G n1 n2
  have hadopt := hcopy.trans (sameNodes_adoptParents (G.copyCallees n1 n2) n2 n1)
  exact ((h.copyCallees hn1 hn2).adoptParents n2 (hcopy.isFunctionNode hn1)).adoptParents n1
    (hadopt.isFunctionNode hn2)

/-! ### The merge sweep -/

/-- What the inner loop body can do: nothing for keys that do not match, one merge for keys that
do, and two for methods of one class. -/
theorem mergeEntries_cases (G : CallGraph) (ast : ASTContext) (it it2 : Option Decl × NodeRef) :
    (¬ ast.Matches it.1 it2.1 ∧ G.mergeEntries ast it it2 = G) ∨
    (ast.Matches it.1 it2.1 ∧
      (G.mergeEntries ast it it2 = G.mergeCallGraphNode it.2 it2.2 ∨
        G.mergeEntries ast it it2 =
          (G.mergeCallGraphNode it.2 it2.2).mergeCallGraphNode it.2 it2.2)) := by
  rw [ASTContext.matches_iff_cast]
  simp only [mergeEntries]
  rcases ast.asNamedDecl it.1 with _ | D
  · exact Or.inl ⟨by simp, rfl⟩
  rcases ast.asNamedDecl it2.1 with _ | D2
  · exact Or.inl ⟨by simp, rfl⟩
  by_cases hname : ast.name D = ast.name D2
  · rcases ast.asCXXMethodDecl it.1 with _ | M
    · exact Or.inr ⟨by simp [hname], Or.inl (by simp [hname])⟩
    rcases ast.asCXXMethodDecl it2.1 with _ | M2
    · exact Or.inr ⟨by simp [hname], Or.inl (by simp [hname])⟩
    by_cases hclass : (ast.info M).parentName = (ast.info M2).parentName
    · exact Or.inr ⟨by simp [hname, hclass], Or.inr (by simp [hname, hclass])⟩
    · exact Or.inl ⟨by simp [hclass], by simp [hname, hclass]⟩
  · exact Or.inl ⟨by simp [hname], by simp [hname]⟩

theorem sameNodes_mergeEntries (G : CallGraph) (ast : ASTContext)
    (it it2 : Option Decl × NodeRef) : SameNodes G (G.mergeEntries ast it it2) := by
  have honce := sameNodes_mergeCallGraphNode G it.2 it2.2
  rcases mergeEntries_cases G ast it it2 with ⟨-, h⟩ | ⟨-, h | h⟩
  · rw [h]
    exact SameNodes.refl G
  · rw [h]
    exact honce
  · rw [h]
    exact honce.trans (sameNodes_mergeCallGraphNode ..)

/-- The entry of a declaration is a node other than the root. -/
theorem WF.isFunctionNode_of_entry (h : WF G) {D : Decl} {n : NodeRef}
    (hn : (some D, n) ∈ G.functionMap) : G.IsFunctionNode n := by
  obtain ⟨ha, hd⟩ := h.entry_decl _ n hn
  refine ⟨ha, ?_⟩
  rintro rfl
  rw [h.decl_root] at hd
  cases hd

/-- A node other than the root is that of a declaration. -/
theorem WF.exists_entry (h : WF G) {n : NodeRef} (hn : G.IsFunctionNode n) :
    ∃ D, G.decl n = some D ∧ (some D, n) ∈ G.functionMap := by
  have hentry := h.entry_of_allocated n hn.allocated
  rcases hD : G.decl n with _ | D
  · rw [hD] at hentry
    exact absurd (h.entry_fun hentry h.root_entry) hn.ne_root
  · exact ⟨D, rfl, hD ▸ hentry⟩

theorem WF.isFunctionNode_of_matches (h : WF G) {it it2 : Option Decl × NodeRef}
    (hit : it ∈ G.functionMap) (hit2 : it2 ∈ G.functionMap) (hM : ast.Matches it.1 it2.1) :
    G.IsFunctionNode it.2 ∧ G.IsFunctionNode it2.2 := by
  obtain ⟨D, D2, hD, hD2, -⟩ := ASTContext.matches_iff.mp hM
  obtain ⟨F, n⟩ := it
  obtain ⟨F2, n2⟩ := it2
  subst hD
  subst hD2
  exact ⟨h.isFunctionNode_of_entry hit, h.isFunctionNode_of_entry hit2⟩

theorem WF.mergeEntries (h : WF G) {it it2 : Option Decl × NodeRef}
    (hit : it ∈ G.functionMap) (hit2 : it2 ∈ G.functionMap) :
    WF (G.mergeEntries ast it it2) := by
  rcases mergeEntries_cases G ast it it2 with ⟨-, heq⟩ | ⟨hM, heq⟩
  · rw [heq]
    exact h
  · obtain ⟨hn, hn2⟩ := h.isFunctionNode_of_matches hit hit2 hM
    have honce := h.mergeCallGraphNode hn hn2
    rcases heq with heq | heq
    · rw [heq]
      exact honce
    · rw [heq]
      have hsame := sameNodes_mergeCallGraphNode G it.2 it2.2
      exact honce.mergeCallGraphNode (hsame.isFunctionNode hn) (hsame.isFunctionNode hn2)

/-- The entries of the map are pairwise different. -/
theorem WF.functionMap_nodup (h : WF G) : G.functionMap.Nodup :=
  List.Nodup.of_map Prod.fst h.keys_nodup

theorem WF.mergeFunctionMap (h : WF G) (ast : ASTContext) (order : G.Enumeration) :
    WF (G.mergeFunctionMap ast order) ∧ SameNodes G (G.mergeFunctionMap ast order) := by
  refine Sweep.pairSweep_invariant (P := fun H => WF H ∧ SameNodes G H)
    (order.perm.nodup_iff.mpr h.functionMap_nodup) ?_ ⟨h, SameNodes.refl G⟩
  rintro it hit it2 hit2 - H ⟨hH, hs⟩
  have hentry : ∀ it ∈ order.entries, it ∈ H.functionMap := by
    intro it hit
    rw [hs.functionMap]
    exact order.perm.mem_iff.mp hit
  exact ⟨hH.mergeEntries (hentry it hit) (hentry it2 hit2),
    hs.trans (sameNodes_mergeEntries H ast it it2)⟩

/-! ## Reachable graphs -/

/-- The graphs the public operations can produce: start from the constructor, look up or insert
nodes, visit declarations, merge two nodes other than the root, merge the whole map. -/
inductive Reachable (ast : ASTContext) : CallGraph → Prop where
  | new : Reachable ast new
  | getOrInsertNode {G : CallGraph} (F : Option Decl) :
    Reachable ast G → Reachable ast (G.getOrInsertNode F).2
  | visitDecl {G : CallGraph} (D : Decl) : Reachable ast G → Reachable ast (visitDecl ast D G)
  | mergeCallGraphNode {G : CallGraph} (n1 n2 : NodeRef) :
    G.IsFunctionNode n1 → G.IsFunctionNode n2 → Reachable ast G →
      Reachable ast (G.mergeCallGraphNode n1 n2)
  | mergeFunctionMap {G : CallGraph} (order : G.Enumeration) :
    Reachable ast G → Reachable ast (G.mergeFunctionMap ast order)

theorem Reachable.wf (h : Reachable ast G) : WF G := by
  induction h with
  | new => exact wf_new
  | getOrInsertNode F _ ih => exact ih.getOrInsertNode F
  | visitDecl D _ ih => exact ih.visitDecl D
  | mergeCallGraphNode n1 n2 hn1 hn2 _ ih => exact ih.mergeCallGraphNode hn1 hn2
  | mergeFunctionMap order _ ih => exact (ih.mergeFunctionMap ast order).1

/-- **The representation invariant**, over every sequence of operations: both ends of an edge
agree; no parent is recorded twice; the root is not called; the root calls every other node exactly
once, so that every other node has a parent and the merge never sees an empty parent list; and the
function map has every key once, is an injection that respects declarations, and owns the nodes. -/
theorem Reachable.representation (h : Reachable ast G) :
    (∀ p n, p ∈ G.parents n ↔ n ∈ G.callees p) ∧
    (∀ n, (G.parents n).Nodup) ∧
    (G.parents G.root = [] ∧ ∀ p, G.root ∉ G.callees p) ∧
    (∀ n, G.IsFunctionNode n → (G.callees G.root).count n = 1 ∧ G.parents n ≠ []) ∧
    (∀ n1 n2, G.IsFunctionNode n1 → G.IsFunctionNode n2 →
      (G.copyCallees n1 n2).parents n1 ≠ [] ∧ (G.copyCallees n1 n2).parents n2 ≠ []) ∧
    (∀ F n, (F, n) ∈ G.functionMap → G.decl n = F) ∧
    (∀ F n F' n', (F, n) ∈ G.functionMap → (F', n') ∈ G.functionMap → F ≠ F' → n ≠ n') ∧
    (G.functionMap.map Prod.fst).Nodup ∧
    (∀ n, G.Allocated n ↔ ∃ F, (F, n) ∈ G.functionMap) := by
  have hwf := h.wf
  refine ⟨hwf.mem_parents_iff, hwf.parents_nodup, ⟨hwf.root_parents, hwf.root_not_callee⟩,
    ?_, ?_, ?_, ?_, hwf.keys_nodup, ?_⟩
  · intro n hn
    exact ⟨hwf.count_root n hn.allocated hn.ne_root,
      List.ne_nil_of_mem (hwf.root_mem_parents hn.allocated hn.ne_root)⟩
  · intro n1 n2 hn1 hn2
    exact ⟨hwf.parents_copyCallees_ne_nil hn1 hn2 hn1,
      hwf.parents_copyCallees_ne_nil hn1 hn2 hn2⟩
  · intro F n hn
    exact (hwf.entry_decl F n hn).2
  · rintro F n F' n' hn hn' hne rfl
    exact hne (hwf.entry_inj hn hn')
  · intro n
    refine ⟨?_, ?_⟩
    · intro hn
      exact ⟨_, hwf.entry_of_allocated n hn⟩
    · rintro ⟨F, hn⟩
      exact (hwf.entry_decl F n hn).1

/-- Two units: `f` calls a declaration of `g`; the definition of `g` calls itself. -/
def splitUnits : ASTContext :=
  .ofTable [.definition "f" [1], .declaration "g", .definition "g" [2]]

/-- Not vacuous: by the merge `f` comes to call the definition of `g`, which records it as a
parent. -/
theorem representation_splitUnits :
    let G := visitDecl splitUnits 2 (visitDecl splitUnits 0 new)
    let G' := G.mergeFunctionMap splitUnits (.self G)
    3 ∉ G.callees 1 ∧ 1 ∈ G'.parents 3 ∧ (G'.parents 3).Nodup := by
  intro G G'
  have h : Reachable splitUnits G' := .mergeFunctionMap (.self G) (.visitDecl 2 (.visitDecl 0 .new))
  have hall := h.representation
  exact ⟨by decide +kernel, (hall.1 1 3).mpr (by decide +kernel), hall.2.1 3⟩

end CallGraph

end FindBoundary
