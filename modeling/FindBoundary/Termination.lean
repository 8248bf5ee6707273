import FindBoundary.Invariant
import FindBoundary.Main

/-!
# When the passes return

None of the recursions marks the nodes it has been at. All they do against cycles is to skip a
callee that has the name of its caller, and in `findMargin` and `findCallee` one that is no
definition. So a cycle through functions of different names is never left, whatever the tables
are, and since every node is called by the root, it is always found.
-/

namespace FindBoundary

namespace CallGraph

open Descent

variable {ast : ASTContext} {G : CallGraph}

/-- The root is no function, so the passes descend into all its callees. -/
theorem WF.not_sameName_root (h : WF G) (n : NodeRef) : ¬ G.SameName ast G.root n := by
  simp only [SameName]
  rw [h.decl_root]
  exact id

theorem WF.followsDefinition_root (h : WF G) (n : NodeRef) : G.FollowsDefinition ast G.root n := by
  simp only [FollowsDefinition]
  rw [h.decl_root]
  trivial

/-- Where two functions of one name are skipped, so are they by the passes that follow definitions
only. -/
theorem not_sameName_of_followsDefinition {p c : NodeRef} (h : G.FollowsDefinition ast p c) :
    ¬ G.SameName ast p c := by
  simp only [FollowsDefinition] at h
  simp only [SameName]
  cases hp : ast.asFunctionDecl (G.decl p) with
  | none => exact id
  | some caller =>
    cases hc : ast.asFunctionDecl (G.decl c) with
    | none => exact id
    | some callee =>
      simp only [hp, hc] at h
      exact h.2

/-! ## Traversals from the root -/

section FromRoot

variable {κ σ : Type} {T : Traversal NodeRef κ σ Fault} {follow : NodeRef → NodeRef → Prop}

/-- The edges of a traversal of the call graph are calls. -/
theorem followed_iff (hchildren : T.children = G.callees) {p c : NodeRef} :
    T.Followed follow p c ↔ c ∈ G.callees p ∧ follow p c := by
  simp only [Traversal.Followed]
  rw [hchildren]

/-- A traversal that descends into all the callees of the root comes to every node with callees. -/
theorem WF.followed_root (h : WF G) (hchildren : T.children = G.callees)
    (hroot : ∀ n, follow G.root n) {p c : NodeRef} (hc : c ∈ G.callees p) :
    Relation.ReflTransGen (T.Followed follow) G.root p := by
  by_cases hp : p = G.root
  · rw [hp]
  · exact .single ((followed_iff hchildren).mpr
      ⟨h.mem_callees_root (h.edge_allocated p c hc).1 hp, hroot p⟩)

/-- It finds every cycle. -/
theorem WF.acc_root_iff (h : WF G) (hchildren : T.children = G.callees)
    (hroot : ∀ n, follow G.root n) :
    Acc (fun c p => T.Followed follow p c) G.root ↔
      ∀ n, ¬ Relation.TransGen (T.Followed follow) n n := by
  refine ⟨?_, ?_⟩
  · intro hacc n hcycle
    obtain ⟨p, -, hpn⟩ := Relation.TransGen.tail'_iff.mp hcycle
    obtain ⟨hn, -⟩ := (followed_iff hchildren).mp hpn
    have hfun := h.isFunctionNode_of_mem hn
    have hedge : T.Followed follow G.root n :=
      (followed_iff hchildren).mpr ⟨h.mem_callees_root hfun.allocated hfun.ne_root, hroot n⟩
    exact not_transGen_of_acc (hacc.inv hedge) hcycle
  · intro hacyclic
    refine acc_of_acyclic (Set.finite_lt_nat G.next) ?_ hacyclic G.root
    intro p c hpc
    exact (h.edge_allocated p c ((followed_iff hchildren).mp hpc).1).2

end FromRoot

/-! ## The passes -/

/-- `traverseFunction` returns exactly when all nodes are functions and no cycle leads through
functions of different names. -/
theorem WF.traverseFunction_returns_iff (h : WF G) (m : FuncPackageMap) :
    (G.traverseFunction ast).Returns G.root m ↔
      (∀ n, G.IsFunctionNode n → (ast.asFunctionDecl (G.decl n)).isSome = true) ∧
      ∀ n, ¬ Relation.TransGen (fun p c => c ∈ G.callees p ∧ ¬ G.SameName ast p c) n n := by
  rw [Traversal.returns_iff traverseFunction_uniform traverseFunctionBody_sound,
    h.acc_root_iff rfl h.not_sameName_root, and_comm]
  refine and_congr ⟨fun hsound n hn => ?_, fun hfun q _ c hc => ?_⟩ Iff.rfl
  · exact hsound G.root .refl n (h.mem_callees_root hn.allocated hn.ne_root)
  · exact hfun c (h.isFunctionNode_of_mem hc)

/-- `findMargin` returns exactly when no cycle leads through definitions of different names. -/
theorem WF.findMargin_returns_iff (h : WF G) (m : FuncPackageMap) (rel : CallRelation) :
    (G.findMargin ast m).Returns G.root rel ↔
      ∀ n, ¬ Relation.TransGen (fun p c => c ∈ G.callees p ∧ G.FollowsDefinition ast p c) n n := by
  rw [Traversal.returns_iff_acc (findMargin_uniform m) (findMarginBody_sound m),
    h.acc_root_iff rfl h.followsDefinition_root]
  rfl

/-- `findCallee` descends where `findMargin` does. -/
theorem WF.findCallee_returns_iff (h : WF G) (m : FuncPackageMap) (callees : List Decl) :
    (G.findCallee ast m).Returns G.root callees ↔
      ∀ n, ¬ Relation.TransGen (fun p c => c ∈ G.callees p ∧ G.FollowsDefinition ast p c) n n := by
  rw [Traversal.returns_iff_acc (findCallee_uniform m) (findCalleeBody_sound m),
    h.acc_root_iff rfl h.followsDefinition_root]
  rfl

/-- A cycle that `findMargin` and `findCallee` follow is one that `traverseFunction` follows. -/
theorem transGen_not_sameName {n : NodeRef} (hcycle : Relation.TransGen
      (fun p c => c ∈ G.callees p ∧ G.FollowsDefinition ast p c) n n) :
    Relation.TransGen (fun p c => c ∈ G.callees p ∧ ¬ G.SameName ast p c) n n :=
  Relation.TransGen.mono
    (fun _ _ hpc => ⟨hpc.1, not_sameName_of_followsDefinition hpc.2⟩) _ _ hcycle

/-- A cycle through definitions of different names stops none of the passes. -/
theorem WF.not_returns_of_cycle (h : WF G) {n : NodeRef} (hcycle : Relation.TransGen
      (fun p c => c ∈ G.callees p ∧ G.FollowsDefinition ast p c) n n)
    (m₀ m : FuncPackageMap) (rel : CallRelation) (callees : List Decl) :
    ¬ (G.traverseFunction ast).Returns G.root m₀ ∧
      ¬ (G.findMargin ast m).Returns G.root rel ∧
      ¬ (G.findCallee ast m).Returns G.root callees := by
  rw [h.traverseFunction_returns_iff, h.findMargin_returns_iff, h.findCallee_returns_iff]
  exact ⟨fun hret => hret.2 n (transGen_not_sameName hcycle), fun hret => hret n hcycle,
    fun hret => hret n hcycle⟩

/-- **When the passes return**: on the merged graph of any units, `traverseFunction`, `findMargin`
and `findCallee` all return exactly when all nodes are functions and no cycle leads through
functions of different names. -/
theorem passes_return_iff (ast : ASTContext) (units : List (List Decl))
    (order : (ofUnits ast units).Enumeration) (m₀ m : FuncPackageMap) (rel : CallRelation)
    (callees : List Decl) :
    let G := (ofUnits ast units).mergeFunctionMap ast order
    ((G.traverseFunction ast).Returns G.root m₀ ∧ (G.findMargin ast m).Returns G.root rel ∧
      (G.findCallee ast m).Returns G.root callees) ↔
    (∀ n, G.IsFunctionNode n → (ast.asFunctionDecl (G.decl n)).isSome = true) ∧
      ∀ n, ¬ Relation.TransGen (fun p c => c ∈ G.callees p ∧ ¬ G.SameName ast p c) n n := by
  intro G
  have h : WF G := ((wf_ofUnits ast units).mergeFunctionMap ast order).1
  rw [h.traverseFunction_returns_iff, h.findMargin_returns_iff, h.findCallee_returns_iff]
  refine and_iff_left_of_imp fun ⟨_, hacyclic⟩ => ?_
  -- the other two descend along fewer edges
  exact ⟨fun n hn => hacyclic n (transGen_not_sameName hn),
    fun n hn => hacyclic n (transGen_not_sameName hn)⟩

/-- Two units, with a function `f` that calls `g` and a function `g` that calls `f`. -/
def pingPong : ASTContext :=
  .ofTable [.definition "f" [1], .declaration "g", .definition "g" [3], .declaration "f"]

/-- On the graph of two functions that call each other none of the passes returns. -/
theorem not_passes_return_pingPong :
    let G := (ofUnits pingPong [[1, 0], [3, 2]]).mergeFunctionMap pingPong (.self _)
    ¬ (G.traverseFunction pingPong).Returns G.root ∅ ∧
      ¬ (G.findMargin pingPong ∅).Returns G.root CallRelation.empty ∧
      ¬ (G.findCallee pingPong ∅).Returns G.root [] := by
  intro G
  have h : WF G := ((wf_ofUnits pingPong [[1, 0], [3, 2]]).mergeFunctionMap pingPong (.self _)).1
  have hthere : 3 ∈ G.callees 1 ∧ G.FollowsDefinition pingPong 1 3 := by decide +kernel
  have hback : 1 ∈ G.callees 3 ∧ G.FollowsDefinition pingPong 3 1 := by decide +kernel
  exact h.not_returns_of_cycle (.head hthere (.single hback)) ∅ ∅ CallRelation.empty []

end CallGraph

end FindBoundary
