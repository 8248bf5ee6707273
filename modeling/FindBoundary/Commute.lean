import FindBoundary.Footprint
import FindBoundary.View

/-!
# The order of the units

Visiting is stateful: the inclusion test looks at the map that all units share, every new node is
appended to the list of the one root, and a walk writes at both ends of an edge. By declarations,
though, a unit reads and writes only the entries of the declarations it mentions
(`footprint_addToCallGraph`). So units that mention different declarations commute, and the order
of the files on the command line shows in the order of the root's list only.
-/

namespace FindBoundary

open Store

/-! ## What a unit mentions -/

namespace CallGraph

/-- The declarations of a unit: those presented, the blocks in them, and those that the bodies of
either call or send messages to. -/
def unitDecls (ast : ASTContext) (unit : List Decl) : List Decl :=
  (unit.flatMap (View.bodiesOf ast)).flatMap (bodyDecls ast)

theorem mem_unitDecls {ast : ASTContext} {unit : List Decl} {F E D : Decl} (hF : F ∈ unit)
    (hE : E ∈ View.bodiesOf ast F) (hD : D ∈ bodyDecls ast E) : D ∈ unitDecls ast unit :=
  List.mem_flatMap.mpr ⟨E, List.mem_flatMap.mpr ⟨F, hF, hE⟩, hD⟩

end CallGraph

namespace View

open CallGraph

variable {ast : ASTContext} {U : Set Decl} {D E : Decl}

theorem footprint_modify (hD : D ∈ U) (f : Entry → Entry) :
    Footprint U fun v : View => v.modify D f :=
  (Footprint.update D fun e => some (f (e.getD {}))).mono (Set.singleton_subset_iff.mpr hD)

/-- A call touches the entries of its two ends. -/
theorem footprint_record (hE : E ∈ U) (hD : D ∈ U) : Footprint U fun v : View => v.record E D :=
  (footprint_modify hD _).comp ((footprint_modify hE _).comp (footprint_modify hD id))

/-- A message send looks at the entry of its target, too. -/
theorem footprint_perform {r : Request} (hE : E ∈ U) (hr : r.target ∈ U) :
    Footprint U fun v : View => v.perform ast E r := by
  cases r with
  | call D => exact footprint_record hE hr
  | send D =>
    exact .ite (fun e => (e.isNone && admits ast D) = true) hr (footprint_record hE hr)
      (.id U)

theorem footprint_walk (hE : ∀ D ∈ bodyDecls ast E, D ∈ U) :
    Footprint U fun v : View => v.walk ast E := by
  have hself : E ∈ U := hE E (List.mem_cons_self ..)
  have hrequest : ∀ r ∈ bodyRequests ast E, Footprint U fun v : View => v.perform ast E r :=
    fun r hr => footprint_perform hself
      (hE r.target (List.mem_cons_of_mem _ (List.mem_map_of_mem hr)))
  exact (Footprint.foldl hrequest).comp (footprint_modify hself id)

/-- Whether `D` is visited depends on its own entry. -/
theorem footprint_visitDecl (hD : ∀ E ∈ bodiesOf ast D, ∀ F ∈ bodyDecls ast E, F ∈ U) :
    Footprint U fun v : View => v.visitDecl ast D := by
  have hself : D ∈ U :=
    hD D (List.mem_append_right _ (List.mem_singleton_self D)) D (List.mem_cons_self ..)
  exact .ite (fun e => (isVisited ast D && (e.isNone && admits ast D)) = true) hself
    (.foldl fun E hE => footprint_walk (hD E hE)) (.id U)

/-- **A unit mentions its own declarations only.** -/
theorem footprint_addToCallGraph (ast : ASTContext) (unit : List Decl) :
    Footprint {D | D ∈ unitDecls ast unit} fun v : View => v.addToCallGraph ast unit :=
  .foldl fun _ hD => footprint_visitDecl fun _ hE _ hF => mem_unitDecls hD hE hF

end View

namespace CallGraph

variable {ast : ASTContext} {G H : CallGraph}

/-! ## Graphs that differ in the order of the root's list -/

/-- The same graph but for the order of the root's list. Nodes are compared by their
declarations, which they determine. -/
structure SameUpToRoot (G H : CallGraph) : Prop where
  /-- the same nodes -/
  hasNode : ∀ D, G.HasNode D ↔ H.HasNode D
  /-- the same list of callees at every node but the root -/
  callees : ∀ D n m, (some D, n) ∈ G.functionMap → (some D, m) ∈ H.functionMap →
    (G.callees n).map G.decl = (H.callees m).map H.decl
  /-- the same list of parents -/
  parents : ∀ D n m, (some D, n) ∈ G.functionMap → (some D, m) ∈ H.functionMap →
    (G.parents n).map G.decl = (H.parents m).map H.decl
  /-- the same functions below the root, as often -/
  root : ((G.callees G.root).map G.decl).Perm ((H.callees H.root).map H.decl)

/-- The root calls each declaration that has a node, and calls it once. -/
theorem WF.mem_map_callees_root (h : WF G) (F : Option Decl) :
    F ∈ (G.callees G.root).map G.decl ↔ ∃ D, F = some D ∧ G.HasNode D := by
  rw [List.mem_map]
  refine ⟨?_, ?_⟩
  · rintro ⟨n, hn, rfl⟩
    obtain ⟨D, hD, hentry⟩ := h.exists_entry (h.isFunctionNode_of_mem hn)
    exact ⟨D, hD, n, hentry⟩
  · rintro ⟨D, rfl, n, hn⟩
    have hnode := h.isFunctionNode_of_entry hn
    exact ⟨n, h.mem_callees_root hnode.allocated hnode.ne_root, (h.entry_decl _ _ hn).2⟩

theorem WF.nodup_map_callees_root (h : WF G) : ((G.callees G.root).map G.decl).Nodup := by
  have hallocated : ∀ n ∈ G.callees G.root, G.Allocated n := fun n hn =>
    (h.edge_allocated _ n hn).2
  have hnodup : (G.callees G.root).Nodup := by
    rw [List.nodup_iff_count_eq_one]
    intro n hn
    exact h.count_root n (hallocated n hn) (h.ne_root_of_mem hn)
  exact hnodup.map_on fun n hn m hm heq => h.decl_inj (hallocated n hn) (hallocated m hm) heq

/-- Graphs with one view are the same up to the order of the root's list. -/
theorem WF.sameUpToRoot (hG : WF G) (hH : WF H) (hview : G.view = H.view) : SameUpToRoot G H := by
  have hasNode : ∀ D, G.HasNode D ↔ H.HasNode D := by
    intro D
    rw [← isSome_view_iff, hview, isSome_view_iff]
  have hentry : ∀ D n m, (some D, n) ∈ G.functionMap → (some D, m) ∈ H.functionMap →
      (⟨(G.callees n).map G.decl, (G.parents n).map G.decl⟩ : Entry) =
        ⟨(H.callees m).map H.decl, (H.parents m).map H.decl⟩ := by
    intro D n m hn hm
    have hD := congrFun hview D
    rw [hG.view_of_entry hn, hH.view_of_entry hm] at hD
    exact Option.some.inj hD
  refine ⟨hasNode, fun D n m hn hm => congrArg Entry.callees (hentry D n m hn hm),
    fun D n m hn hm => congrArg Entry.parents (hentry D n m hn hm), ?_⟩
  rw [List.perm_ext_iff_of_nodup hG.nodup_map_callees_root hH.nodup_map_callees_root]
  intro F
  rw [hG.mem_map_callees_root, hH.mem_map_callees_root]
  simp only [hasNode]

/-! ## The result -/

theorem WF.addUnits (h : WF G) (units : List (List Decl)) :
    WF (units.foldl (fun G unit => CallGraph.addToCallGraph ast unit G) G) :=
  List.foldlRecOn units _ h fun _ h unit _ => h.addToCallGraph unit

theorem WF.view_addUnits (h : WF G) (units : List (List Decl)) :
    (units.foldl (fun G unit => CallGraph.addToCallGraph ast unit G) G).view =
      units.foldl (fun v unit => v.addToCallGraph ast unit) G.view := by
  induction units generalizing G with
  | nil => rfl
  | cons unit units ih =>
    rw [List.foldl_cons, List.foldl_cons, ih (h.addToCallGraph unit), h.view_addToCallGraph]

/-- **Adding units commutes**: two units that mention different declarations may be added to any
graph in either order; and the unmerged graph of units that mention pairwise different
declarations does not depend on their order. -/
theorem addToCallGraph_comm (ast : ASTContext) :
    (∀ (G : CallGraph) (A B : List Decl), WF G →
      (unitDecls ast A).Disjoint (unitDecls ast B) →
        SameUpToRoot (addToCallGraph ast B (addToCallGraph ast A G))
          (addToCallGraph ast A (addToCallGraph ast B G))) ∧
    ∀ units units' : List (List Decl), units.Perm units' →
      (units.Pairwise fun A B => (unitDecls ast A).Disjoint (unitDecls ast B)) →
        SameUpToRoot (ofUnits ast units) (ofUnits ast units') := by
  have hset : ∀ {A B : List Decl}, (unitDecls ast A).Disjoint (unitDecls ast B) →
      Disjoint {D | D ∈ unitDecls ast A} {D | D ∈ unitDecls ast B} := fun hAB =>
    Set.disjoint_left.mpr fun _ hA hB => hAB hA hB
  refine ⟨?_, ?_⟩
  · intro G A B h hAB
    refine ((h.addToCallGraph A).addToCallGraph B).sameUpToRoot
      ((h.addToCallGraph B).addToCallGraph A) ?_
    rw [(h.addToCallGraph A).view_addToCallGraph, (h.addToCallGraph B).view_addToCallGraph,
      h.view_addToCallGraph, h.view_addToCallGraph]
    exact ((View.footprint_addToCallGraph ast A).comm (View.footprint_addToCallGraph ast B)
      (hset hAB) G.view).symm
  · intro units units' hperm hdisjoint
    refine (wf_new.addUnits units).sameUpToRoot (wf_new.addUnits units') ?_
    calc (ofUnits ast units).view
        = units.foldl (fun v unit => v.addToCallGraph ast unit) new.view :=
          wf_new.view_addUnits units
      _ = units'.foldl (fun v unit => v.addToCallGraph ast unit) new.view :=
          Footprint.foldl_perm (View.footprint_addToCallGraph ast) hperm (hdisjoint.imp hset) _
      _ = (ofUnits ast units').view := (wf_new.view_addUnits units').symm

/-- Two units: `f`, which calls `g`, and `h`, which calls itself. -/
def separateUnits : ASTContext :=
  .ofTable [.definition "f" [1], .definition "g" [], .definition "h" [2]]

/-- Not vacuous: their order does not matter. -/
theorem addToCallGraph_comm_separateUnits :
    SameUpToRoot (ofUnits separateUnits [[0, 1], [2]]) (ofUnits separateUnits [[2], [0, 1]]) ∧
    SameUpToRoot (addToCallGraph separateUnits [2] (addToCallGraph separateUnits [0, 1] new))
      (addToCallGraph separateUnits [0, 1] (addToCallGraph separateUnits [2] new)) := by
  have hdisjoint : (unitDecls separateUnits [0, 1]).Disjoint (unitDecls separateUnits [2]) :=
    List.disjoint_left.mpr (by decide +kernel)
  exact ⟨(addToCallGraph_comm separateUnits).2 _ _ (List.Perm.swap ..)
    (List.pairwise_pair.mpr hdisjoint), (addToCallGraph_comm separateUnits).1 _ _ _ wf_new
    hdisjoint⟩

end CallGraph

end FindBoundary
