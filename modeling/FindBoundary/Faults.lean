import FindBoundary.Outcome
import FindBoundary.Termination

/-!
# Null pointers

`traverseFunction` casts the declaration of a callee to a function and dereferences the result. It
does test it for null, but only together with the declaration of the caller, and then it comes to
the dereference by the `else` branch. Blocks and methods of Objective-C have nodes and are no
functions; and since the root calls every node, only a cycle that the recursion is caught in
keeps it from coming to one.
-/

namespace FindBoundary

namespace CallGraph

open Descent

variable {ast : ASTContext} {G : CallGraph}

/-- The recursion of `traverseFunction` is caught in a cycle: it enters the nodes of an infinite
path, at each of which all earlier callees are functions, and so is everything below them. -/
def CaughtInCycle (ast : ASTContext) (G : CallGraph) : Prop :=
  (G.traverseFunction ast).Loops (fun p c => ¬ G.SameName ast p c)
    (fun _ c => (ast.asFunctionDecl (G.decl c)).isSome = true) G.root

/-- The only fault of `traverseFunction` is the null dereference. -/
theorem eq_nullDereference {fuel : ℕ} {p : NodeRef} {m : FuncPackageMap} {e : Fault}
    (h : (G.traverseFunction ast).descend fuel p m = .error (.fault e)) : e = .nullDereference := by
  obtain ⟨q, c, l, m', hbody⟩ := Traversal.exists_body_eq_error h
  cases hc : ast.asFunctionDecl (G.decl c) with
  | none =>
    cases hbody.symm.trans (traverseFunctionBody_of_none q l m' hc)
    rfl
  | some tmp =>
    rcases traverseFunctionBody_cases q l m' hc with ⟨-, hnext⟩ | ⟨-, hinto⟩
    · cases hbody.symm.trans hnext
    · cases hbody.symm.trans hinto

/-- **When `traverseFunction` dereferences no null pointer**: exactly when all nodes but the root
are those of functions, or the recursion is caught in a cycle before it comes to another one. -/
theorem WF.traverseFunction_not_null_iff (h : WF G) (m : FuncPackageMap) :
    (∀ fuel, (G.traverseFunction ast).descend fuel G.root m ≠
      .error (.fault .nullDereference)) ↔
    (∀ n, G.IsFunctionNode n → (ast.asFunctionDecl (G.decl n)).isSome = true) ∨
      CaughtInCycle ast G := by
  have hnever : (∀ fuel, (G.traverseFunction ast).descend fuel G.root m ≠
      .error (.fault .nullDereference)) ↔
      ∀ fuel e, (G.traverseFunction ast).descend fuel G.root m ≠ .error (.fault e) := by
    refine ⟨fun hnull fuel e he => ?_, fun hnull fuel => hnull fuel _⟩
    obtain rfl := eq_nullDereference he
    exact hnull fuel he
  rw [hnever, Traversal.never_faults_iff traverseFunction_uniform traverseFunctionBody_sound]
  refine ⟨?_, ?_⟩
  · rintro (hsettles | hloops)
    · exact Or.inl fun n hn =>
        hsettles.sound G.root .refl n (h.mem_callees_root hn.allocated hn.ne_root)
    · exact Or.inr hloops
  · rintro (hfunctions | hloops)
    · refine Traversal.not_fails_iff.mp fun hfails => ?_
      obtain ⟨p, c, hc, hnot⟩ := hfails.exists_not_sound
      exact hnot (hfunctions c (h.isFunctionNode_of_mem hc))
    · exact Or.inr hloops

/-- A function `f` that calls the function `g`. -/
def callsFunction : ASTContext := .ofTable [.definition "f" [1], .declaration "g"]

/-- Not vacuous: where all nodes are functions, no null pointer is dereferenced. -/
theorem traverseFunction_not_null_callsFunction :
    let G := (ofUnits callsFunction [[0]]).mergeFunctionMap callsFunction (.self _)
    ∀ fuel, (G.traverseFunction callsFunction).descend fuel G.root ∅ ≠
      .error (.fault .nullDereference) := by
  intro G
  have h : WF G := ((wf_ofUnits callsFunction [[0]]).mergeFunctionMap callsFunction (.self _)).1
  refine (h.traverseFunction_not_null_iff ∅).mpr (Or.inl fun n hn => ?_)
  have hlt : n < 3 := hn.allocated
  have hall : ∀ n < 3, n ≠ G.root → (callsFunction.asFunctionDecl (G.decl n)).isSome = true := by
    decide +kernel
  exact hall n hlt hn.ne_root

/-- A function `f` with a block in its body. -/
def blockInBody : ASTContext :=
  .ofTable [{ DeclInfo.definition "f" [] with
      getBody := some (.stmt [some (.blockExpr 1)])
      decls := [.context 1 []] },
    { kind := .block, getBody := some (.stmt []) }]

/-- The node of the block is dereferenced as a function. -/
theorem not_traverseFunction_not_null_blockInBody :
    let G := (ofUnits blockInBody [[0]]).mergeFunctionMap blockInBody (.self _)
    ¬ ∀ fuel, (G.traverseFunction blockInBody).descend fuel G.root ∅ ≠
      .error (.fault .nullDereference) := by
  intro G hnever
  exact hnever 1 rfl

end CallGraph

end FindBoundary
