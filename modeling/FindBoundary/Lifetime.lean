import FindBoundary.Bodies
import FindBoundary.Quotient

/-!
# The life of a graph

What happens to a graph from its constructor to its destructor is a run of the public operations.
Along a run the graph only grows: nodes keep their references and declarations, and what is in a
list or in the map stays where it is, since all that the operations do is to append
(`Reachable.nodes_stable`). So a declaration that has been visited is done with
(`Reachable.addToCallGraph_again`), and at the end the destructor finds every node in the map, and
no node twice (`Reachable.destroy_eq_nil`).
-/

namespace FindBoundary

namespace CallGraph

variable {ast : ASTContext} {G G' : CallGraph}

/-! ## Runs -/

/-- One of the public operations. -/
inductive Step (ast : ASTContext) : CallGraph → CallGraph → Prop where
  | getOrInsertNode (G : CallGraph) (F : Option Decl) : Step ast G (G.getOrInsertNode F).2
  | visitDecl (G : CallGraph) (D : Decl) : Step ast G (visitDecl ast D G)
  | mergeCallGraphNode (G : CallGraph) (n1 n2 : NodeRef) :
    G.IsFunctionNode n1 → G.IsFunctionNode n2 → Step ast G (G.mergeCallGraphNode n1 n2)
  | mergeFunctionMap (G : CallGraph) (order : G.Enumeration) :
    Step ast G (G.mergeFunctionMap ast order)

/-- Any number of operations, one after the other. -/
def Run (ast : ASTContext) : CallGraph → CallGraph → Prop := Relation.ReflTransGen (Step ast)

theorem Reachable.step (h : Reachable ast G) (hs : Step ast G G') : Reachable ast G' := by
  cases hs with
  | getOrInsertNode F => exact .getOrInsertNode F h
  | visitDecl D => exact .visitDecl D h
  | mergeCallGraphNode n1 n2 hn1 hn2 => exact .mergeCallGraphNode n1 n2 hn1 hn2 h
  | mergeFunctionMap order => exact .mergeFunctionMap order h

theorem Reachable.run (h : Reachable ast G) (hr : Run ast G G') : Reachable ast G' := by
  induction hr with
  | refl => exact h
  | tail _ hs ih => exact ih.step hs

/-! ## A graph only grows -/

/-- The nodes of `G` are in `G'`, under the same references and with the same declarations, and the
lists and the map of `G'` begin with those of `G`. -/
structure Grows (G G' : CallGraph) : Prop where
  next : G.next ≤ G'.next
  root : G'.root = G.root
  decl : ∀ n, G.Allocated n → G'.decl n = G.decl n
  callees : ∀ n, G.Allocated n → G.callees n <+: G'.callees n
  parents : ∀ n, G.Allocated n → G.parents n <+: G'.parents n
  functionMap : G.functionMap <+: G'.functionMap

namespace Grows

theorem refl (G : CallGraph) : Grows G G :=
  ⟨Nat.le_refl _, rfl, fun _ _ => rfl, fun _ _ => List.prefix_rfl, fun _ _ => List.prefix_rfl,
    List.prefix_rfl⟩

theorem allocated (h : Grows G G') {n : NodeRef} (hn : G.Allocated n) : G'.Allocated n :=
  Nat.lt_of_lt_of_le hn h.next

theorem trans {G₁ G₂ G₃ : CallGraph} (h₁ : Grows G₁ G₂) (h₂ : Grows G₂ G₃) : Grows G₁ G₃ where
  next := h₁.next.trans h₂.next
  root := h₂.root.trans h₁.root
  decl n hn := (h₂.decl n (h₁.allocated hn)).trans (h₁.decl n hn)
  callees n hn := (h₁.callees n hn).trans (h₂.callees n (h₁.allocated hn))
  parents n hn := (h₁.parents n hn).trans (h₂.parents n (h₁.allocated hn))
  functionMap := h₁.functionMap.trans h₂.functionMap

/-- A loop grows the graph if its body does. -/
theorem foldl {α : Type} {f : CallGraph → α → CallGraph} (hf : ∀ G a, Grows G (f G a)) (l : List α)
    (G : CallGraph) : Grows G (l.foldl f G) :=
  List.foldlRecOn (motive := Grows G) l f (refl G) fun H h a _ => h.trans (hf H a)

theorem addCallee (G : CallGraph) (p n : NodeRef) : Grows G (G.addCallee p n) := by
  refine ⟨Nat.le_of_eq (next_addCallee p n).symm, root_addCallee p n,
    fun q _ => decl_addCallee p n q, fun q _ => ?_, fun q _ => ?_, ?_⟩
  · rw [callees_addCallee]
    split
    · rename_i hq
      rw [hq]
      exact List.prefix_append _ _
    · exact List.prefix_rfl
  · rw [parents_addCallee]
    split
    · rename_i hq
      rw [hq.1]
      exact List.prefix_append _ _
    · exact List.prefix_rfl
  · exact (functionMap_addCallee p n).symm ▸ List.prefix_rfl

theorem allocate (G : CallGraph) (F : Option Decl) : Grows G (G.allocate F) := by
  have hne : ∀ {n}, G.Allocated n → n ≠ G.next := fun hn => Nat.ne_of_lt hn
  refine ⟨Nat.le_succ _, rfl, fun n hn => ?_, fun n hn => ?_, fun n hn => ?_,
    List.prefix_append _ _⟩
  · rw [decl_allocate, if_neg (hne hn)]
  · exact ((callees_allocate F n).trans (if_neg (hne hn))).symm ▸ List.prefix_rfl
  · exact ((parents_allocate F n).trans (if_neg (hne hn))).symm ▸ List.prefix_rfl

theorem getOrInsertNode (G : CallGraph) (F : Option Decl) : Grows G (G.getOrInsertNode F).2 := by
  simp only [CallGraph.getOrInsertNode]
  split
  · exact refl G
  · split
    · exact allocate G F
    · exact (allocate G F).trans (addCallee _ _ _)

theorem perform (callerNode : NodeRef) (r : Request) (G : CallGraph) :
    Grows G (CallGraph.perform ast callerNode r G) := by
  rcases perform_cases ast callerNode r G with heq | heq
  · rw [heq]
    exact refl G
  · rw [heq, addCalledDeclForExpr]
    exact (getOrInsertNode G _).trans (addCallee _ _ _)

theorem walk (E : Decl) (G : CallGraph) : Grows G (CallGraph.walk ast E G) := by
  rw [walk_eq_foldl]
  exact (getOrInsertNode G _).trans (foldl (fun H r => perform _ r H) _ _)

theorem visitDecl (D : Decl) (G : CallGraph) : Grows G (CallGraph.visitDecl ast D G) := by
  rw [visitDecl_eq_foldl]
  exact foldl (fun H E => walk E H) _ G

theorem copyCallees (G : CallGraph) (n1 n2 : NodeRef) : Grows G (G.copyCallees n1 n2) := by
  simp only [CallGraph.copyCallees]
  split
  · exact foldl (fun H it => addCallee H n1 it) _ G
  · split
    · exact foldl (fun H it => addCallee H n2 it) _ G
    · exact refl G

theorem adoptParents (G : CallGraph) (source target : NodeRef) :
    Grows G (G.adoptParents source target) := by
  refine foldl (fun H it => ?_) _ G
  simp only [CallGraph.adopt]
  split
  · exact refl H
  · exact addCallee H it target

theorem mergeCallGraphNode (G : CallGraph) (n1 n2 : NodeRef) :
    Grows G (G.mergeCallGraphNode n1 n2) := by
  have hcopy := copyCallees G n1 n2
  simp only [CallGraph.mergeCallGraphNode]
  split
  · exact hcopy.trans (adoptParents _ n2 n1)
  · split
    · exact hcopy.trans (adoptParents _ n1 n2)
    · split
      · exact (hcopy.trans (adoptParents _ n2 n1)).trans (adoptParents _ n1 n2)
      · exact hcopy

theorem mergeEntries (G : CallGraph) (it it2 : Option Decl × NodeRef) :
    Grows G (G.mergeEntries ast it it2) := by
  rcases mergeEntries_cases G ast it it2 with ⟨-, heq⟩ | ⟨-, heq | heq⟩
  · rw [heq]
    exact refl G
  · rw [heq]
    exact mergeCallGraphNode G it.2 it2.2
  · rw [heq]
    exact (mergeCallGraphNode G it.2 it2.2).trans (mergeCallGraphNode _ it.2 it2.2)

theorem mergeFunctionMap (h : WF G) (order : G.Enumeration) :
    Grows G (G.mergeFunctionMap ast order) :=
  Sweep.pairSweep_invariant (P := Grows G) (order.perm.nodup_iff.mpr h.functionMap_nodup)
    (fun it _ it2 _ _ H hH => hH.trans (mergeEntries H it it2)) (refl G)

end Grows

theorem Reachable.grows_step (h : Reachable ast G) (hs : Step ast G G') : Grows G G' := by
  cases hs with
  | getOrInsertNode F => exact .getOrInsertNode G F
  | visitDecl D => exact .visitDecl D G
  | mergeCallGraphNode n1 n2 _ _ => exact .mergeCallGraphNode G n1 n2
  | mergeFunctionMap order => exact .mergeFunctionMap h.wf order

/-- A graph only grows, whatever operations are run. -/
theorem Reachable.grows (h : Reachable ast G) (hr : Run ast G G') : Grows G G' := by
  induction hr with
  | refl => exact .refl G
  | tail hr hs ih => exact ih.trans ((h.run hr).grows_step hs)

/-- **Nodes are stable**, whatever operations are run: a declaration keeps its node, and a node
keeps its declaration and everything that is in its two lists, in order. -/
theorem Reachable.nodes_stable (h : Reachable ast G) (hr : Run ast G G') :
    (∀ F n, G.getNode F = some n → G'.getNode F = some n) ∧
    (∀ n, G.Allocated n → G'.Allocated n ∧ G'.decl n = G.decl n ∧
      G.callees n <+: G'.callees n ∧ G.parents n <+: G'.parents n) ∧
    G'.root = G.root := by
  have hgrows : Grows G G' := h.grows hr
  refine ⟨fun F n hn => ?_, fun n hn => ?_, hgrows.root⟩
  · obtain ⟨later, hlater⟩ := hgrows.functionMap
    rw [getNode] at hn ⊢
    rw [← hlater, List.lookup_append, hn, Option.some_or]
  · exact ⟨hgrows.allocated hn, hgrows.decl n hn, hgrows.callees n hn, hgrows.parents n hn⟩

theorem run_addToCallGraph (ast : ASTContext) (unit : List Decl) (G : CallGraph) :
    Run ast G (addToCallGraph ast unit G) := by
  induction unit generalizing G with
  | nil => exact .refl
  | cons D unit ih => exact .head (.visitDecl G D) (ih _)

theorem reachable_ofUnits (ast : ASTContext) (units : List (List Decl)) :
    Reachable ast (ofUnits ast units) := by
  rw [ofUnits_eq]
  exact Reachable.new.run (run_addToCallGraph ast units.flatten new)

/-- Not vacuous: what the definition of `g` calls is kept by the sweep. -/
theorem nodes_stable_splitUnits :
    let G := ofUnits splitUnits [[0], [2]]
    G.callees 3 <+: (G.mergeFunctionMap splitUnits (.self G)).callees 3 := by
  intro G
  have hr : Run splitUnits G (G.mergeFunctionMap splitUnits (.self G)) :=
    .single (.mergeFunctionMap G (.self G))
  exact (((reachable_ofUnits splitUnits [[0], [2]]).nodes_stable hr).2.1 3
    (show 3 < G.next by decide +kernel)).2.2.1

/-! ## Declarations that have been visited -/

/-- Visiting the declaration has no effect. -/
def Settled (ast : ASTContext) (G : CallGraph) (D : Decl) : Prop := visitDecl ast D G = G

/-- A visit has no effect if the declaration is not one to visit, is refused whatever the graph is,
or has a node. -/
theorem settled_of (h : isVisited ast D = false ∨ admits ast D = false ∨ G.HasNode D) :
    Settled ast G D := by
  have hwalks : visitWalks ast D G = [] := by
    rw [visitWalks, includeInGraph_eq]
    rcases h with h | h | h
    · simp [h]
    · simp [h]
    · rw [hasNode_iff, Option.isSome_iff_exists] at h
      obtain ⟨n, hn⟩ := h
      simp [hn]
  rw [Settled, visitDecl_eq_foldl, hwalks]
  rfl

theorem HasNode.of_grows {D : Decl} (h : G.HasNode D) (hG : Grows G G') : G'.HasNode D := by
  obtain ⟨n, hn⟩ := h
  exact ⟨n, hG.functionMap.subset hn⟩

/-- What a visit leaves. -/
theorem visited_cases (ast : ASTContext) (D : Decl) (G : CallGraph) :
    isVisited ast D = false ∨ admits ast D = false ∨ (visitDecl ast D G).HasNode D := by
  by_cases hnode : G.HasNode D
  · exact Or.inr (Or.inr (hnode.of_grows (.visitDecl D G)))
  · by_cases hvisited : isVisited ast D = true
    · by_cases hadmits : admits ast D = true
      · right
        right
        have hinclude : G.includeInGraph ast D = true := by
          rw [hasNode_iff, Bool.not_eq_true, Option.isSome_eq_false_iff] at hnode
          rw [includeInGraph_eq, hadmits, hnode, Bool.and_self]
        rw [visitDecl_eq_foldl]
        refine hasNode_of_walked ?_ G
        rw [visitWalks, hvisited, hinclude]
        exact List.mem_append_right _ (List.mem_singleton_self D)
      · exact Or.inr (Or.inl (Bool.not_eq_true _ ▸ hadmits))
    · exact Or.inl (Bool.not_eq_true _ ▸ hvisited)

/-- A declaration that has been visited is settled for all time. -/
theorem Reachable.settled (h : Reachable ast G) (D : Decl)
    (hr : Run ast (CallGraph.visitDecl ast D G) G') : Settled ast G' D := by
  have hgrows : Grows (CallGraph.visitDecl ast D G) G' := (h.visitDecl D).grows hr
  exact settled_of ((visited_cases ast D G).imp_right fun hD => hD.imp_right fun hD =>
    hD.of_grows hgrows)

/-- **Adding a unit again changes nothing**: once the declarations of `unit` have been visited, and
whatever has been done to the graph since, none of them, in any order, makes a difference. -/
theorem Reachable.addToCallGraph_again (h : Reachable ast G) {unit unit' : List Decl}
    (hsub : unit' ⊆ unit) (hr : Run ast (addToCallGraph ast unit G) G') :
    addToCallGraph ast unit' G' = G' := by
  have hsettled : ∀ D ∈ unit, Settled ast G' D := by
    intro D hD
    obtain ⟨before, after, rfl⟩ := List.append_of_mem hD
    have hbefore : Reachable ast (addToCallGraph ast before G) := h.run (run_addToCallGraph ..)
    refine hbefore.settled D (Relation.ReflTransGen.trans ?_ hr)
    have hsplit : addToCallGraph ast (before ++ D :: after) G =
        addToCallGraph ast after (CallGraph.visitDecl ast D (addToCallGraph ast before G)) := by
      rw [addToCallGraph, List.foldl_append, List.foldl_cons]
      rfl
    rw [hsplit]
    exact run_addToCallGraph ast after _
  induction unit' with
  | nil => rfl
  | cons D unit' ih =>
    obtain ⟨hD, hsub'⟩ := List.cons_subset.mp hsub
    have hvisit : CallGraph.visitDecl ast D G' = G' := hsettled D hD
    rw [addToCallGraph, List.foldl_cons, hvisit]
    exact ih hsub'

/-- Not vacuous: the unit of `f`, after the other one has been added and the graph has been
merged. -/
theorem addToCallGraph_again_splitUnits :
    let G := (ofUnits splitUnits [[0], [2]]).mergeFunctionMap splitUnits (.self _)
    addToCallGraph splitUnits [0] G = G := by
  intro G
  refine Reachable.new.addToCallGraph_again (List.Subset.refl [0]) ?_
  exact (run_addToCallGraph splitUnits [2] _).tail (.mergeFunctionMap _ (.self _))

/-! ## The destructor -/

/-- `delete`, where `alive` are the nodes that have not been deleted. It must not be applied to a
node twice. -/
def deleteNode (alive : List NodeRef) (n : NodeRef) : Option (List NodeRef) :=
  if n ∈ alive then some (alive.erase n) else none

/-- `llvm::DeleteContainerSeconds(FunctionMap)`. -/
def deleteContainerSeconds (entries : List (Option Decl × NodeRef)) (alive : List NodeRef) :
    Option (List NodeRef) :=
  entries.foldlM (fun alive it => deleteNode alive it.2) alive

/-- `~CallGraph()`, on all the nodes there are. -/
def destroy (order : G.Enumeration) : Option (List NodeRef) :=
  deleteContainerSeconds order.entries (List.range G.next)

theorem deleteContainerSeconds_of_perm {entries : List (Option Decl × NodeRef)} :
    ∀ {alive : List NodeRef}, (entries.map Prod.snd).Perm alive →
      deleteContainerSeconds entries alive = some [] := by
  induction entries with
  | nil =>
    intro alive h
    rw [List.nil_perm.mp h]
    rfl
  | cons it entries ih =>
    intro alive h
    obtain ⟨hmem, hrest⟩ := List.cons_perm_iff_perm_erase.mp h
    rw [deleteContainerSeconds, List.foldlM_cons, deleteNode, if_pos hmem]
    exact ih hrest

/-- **The map owns the nodes**: the destructor deletes every node there is, and none of them
twice. -/
theorem Reachable.destroy_eq_nil (h : Reachable ast G) (order : G.Enumeration) :
    CallGraph.destroy order = some [] := by
  refine deleteContainerSeconds_of_perm ?_
  refine (List.perm_ext_iff_of_nodup (h.wf.nodes_nodup order) List.nodup_range).mpr fun n => ?_
  rw [h.wf.mem_nodes_iff order n, List.mem_range]
  rfl

/-- Not vacuous: the four nodes of a merged graph. -/
theorem destroy_splitUnits :
    destroy (.self ((ofUnits splitUnits [[0], [2]]).mergeFunctionMap splitUnits (.self _))) =
      some [] :=
  ((reachable_ofUnits splitUnits [[0], [2]]).mergeFunctionMap (.self _)).destroy_eq_nil (.self _)

end CallGraph

end FindBoundary
