import FindBoundary.View

/-!
# Call sites

Where in a body the requests of its walk come from. `Stmt.subStmts` lists everything in a
statement tree, `Stmt.visited` what the walk comes to: `VisitCallExpr` and `VisitObjCMessageExpr`
replace the generic descent, so nothing below a call or a message send is visited. The requests
are those of the visited statements (`requests_eq_filterMap`), and the calls in the arguments of
another call are recorded only if the caller calls the same function elsewhere
(`WalkInv.visit_finds_calls_iff`).
-/

namespace FindBoundary

/-! ## The statements of a tree -/

mutual

/-- Every statement of a tree, a statement before its children. The bodies of blocks are not part
of the tree. -/
def Stmt.subStmts : Stmt → List Stmt
  | .callExpr directCallee callee args =>
    .callExpr directCallee callee args :: (callee.subStmts ++ Stmt.subStmtsOfChildren args)
  | .objCMessageExpr receiverInterface sel isInstanceMessage children =>
    .objCMessageExpr receiverInterface sel isInstanceMessage children ::
      Stmt.subStmtsOfChildren children
  | .blockExpr blockDecl => [.blockExpr blockDecl]
  | .parenImpCast sub => .parenImpCast sub :: sub.subStmts
  | .stmt children => .stmt children :: Stmt.subStmtsOfChildren children

/-- The statements of a list of children. -/
def Stmt.subStmtsOfChildren : List (Option Stmt) → List Stmt
  | [] => []
  | none :: rest => Stmt.subStmtsOfChildren rest
  | some S :: rest => S.subStmts ++ Stmt.subStmtsOfChildren rest

end

mutual

/-- The statements that the builder visits: none below a call or a message send. -/
def Stmt.visited : Stmt → List Stmt
  | .callExpr directCallee callee args => [.callExpr directCallee callee args]
  | .objCMessageExpr receiverInterface sel isInstanceMessage children =>
    [.objCMessageExpr receiverInterface sel isInstanceMessage children]
  | .blockExpr blockDecl => [.blockExpr blockDecl]
  | .parenImpCast sub => .parenImpCast sub :: sub.visited
  | .stmt children => .stmt children :: Stmt.visitedOfChildren children

/-- The statements visited among a list of children. -/
def Stmt.visitedOfChildren : List (Option Stmt) → List Stmt
  | [] => []
  | none :: rest => Stmt.visitedOfChildren rest
  | some S :: rest => S.visited ++ Stmt.visitedOfChildren rest

end

mutual

theorem Stmt.visited_sublist : ∀ S : Stmt, S.visited.Sublist S.subStmts
  | .callExpr _ _ _ => by
      rw [visited, subStmts]
      exact (List.nil_sublist _).cons_cons _
  | .objCMessageExpr _ _ _ _ => by
      rw [visited, subStmts]
      exact (List.nil_sublist _).cons_cons _
  | .blockExpr _ => by
      rw [visited, subStmts]
  | .parenImpCast sub => by
      rw [visited, subStmts]
      exact (visited_sublist sub).cons_cons _
  | .stmt children => by
      rw [visited, subStmts]
      exact (visitedOfChildren_sublist children).cons_cons _

theorem Stmt.visitedOfChildren_sublist : ∀ children : List (Option Stmt),
    (visitedOfChildren children).Sublist (subStmtsOfChildren children)
  | [] => by
      rw [visitedOfChildren, subStmtsOfChildren]
  | none :: rest => by
      rw [visitedOfChildren, subStmtsOfChildren]
      exact visitedOfChildren_sublist rest
  | some S :: rest => by
      rw [visitedOfChildren, subStmtsOfChildren]
      exact (visited_sublist S).append (visitedOfChildren_sublist rest)

end

namespace CallGraph

variable {ast : ASTContext} {G : CallGraph}

/-! ## The requests of a tree -/

/-- What the visit of a single statement asks for. -/
def requestOf (ast : ASTContext) : Stmt → Option Request
  | .callExpr directCallee callee _ => (getDeclFromCall directCallee callee).map .call
  | .objCMessageExpr receiverInterface sel isInstanceMessage _ =>
    (messageTarget ast receiverInterface sel isInstanceMessage).map .send
  | .blockExpr _ | .parenImpCast _ | .stmt _ => none

mutual

theorem requests_eq_filterMap : ∀ S : Stmt, requests ast S = S.visited.filterMap (requestOf ast)
  | .callExpr directCallee callee _ => by
      rw [requests, Stmt.visited]
      simp only [List.filterMap_cons, List.filterMap_nil, requestOf]
      rcases getDeclFromCall directCallee callee with _ | D <;> rfl
  | .objCMessageExpr receiverInterface sel isInstanceMessage _ => by
      rw [requests, Stmt.visited]
      simp only [List.filterMap_cons, List.filterMap_nil, requestOf]
      rcases messageTarget ast receiverInterface sel isInstanceMessage with _ | D <;> rfl
  | .blockExpr _ => by
      rw [requests, Stmt.visited]
      rfl
  | .parenImpCast sub => by
      rw [requests, Stmt.visited, requests_eq_filterMap sub]
      rfl
  | .stmt children => by
      rw [requests, Stmt.visited, requestsOfChildren_eq_filterMap children]
      rfl

theorem requestsOfChildren_eq_filterMap : ∀ children : List (Option Stmt),
    requestsOfChildren ast children = (Stmt.visitedOfChildren children).filterMap (requestOf ast)
  | [] => by
      rw [requestsOfChildren, Stmt.visitedOfChildren, List.filterMap_nil]
  | none :: rest => by
      rw [requestsOfChildren, Stmt.visitedOfChildren, requestsOfChildren_eq_filterMap rest]
  | some S :: rest => by
      rw [requestsOfChildren, Stmt.visitedOfChildren, List.filterMap_append,
        requests_eq_filterMap S, requestsOfChildren_eq_filterMap rest]

end

/-- Distinct requests come from distinct places of the tree, in the same order. -/
theorem requests_sublist (ast : ASTContext) (S : Stmt) :
    (requests ast S).Sublist (S.subStmts.filterMap (requestOf ast)) := by
  rw [requests_eq_filterMap]
  exact S.visited_sublist.filterMap _

theorem call_mem_requests_iff {S : Stmt} {D : Decl} :
    .call D ∈ requests ast S ↔ ∃ directCallee callee args,
      .callExpr directCallee callee args ∈ S.visited ∧
        getDeclFromCall directCallee callee = some D := by
  rw [requests_eq_filterMap, List.mem_filterMap]
  refine ⟨?_, ?_⟩
  · rintro ⟨T, hT, hreq⟩
    cases T <;> simp only [requestOf, Option.map_eq_some_iff, reduceCtorEq] at hreq
    case callExpr directCallee callee args =>
      obtain ⟨D', hD', heq⟩ := hreq
      cases heq
      exact ⟨directCallee, callee, args, hT, hD'⟩
    case objCMessageExpr =>
      obtain ⟨D', -, heq⟩ := hreq
      cases heq
  · rintro ⟨directCallee, callee, args, hT, hD⟩
    exact ⟨_, hT, by rw [requestOf, hD]; rfl⟩

/-! ## Calls found by a walk -/

/-- **What a walk finds.** -/
theorem WalkInv.calls_visit_iff {E D : Decl} {p : NodeRef} (h : WalkInv E p G) (S : Stmt) :
    (visit ast p S G).Calls E D ↔
      G.Calls E D ∨ .call D ∈ requests ast S ∨
        (.send D ∈ requests ast S ∧ G.includeInGraph ast D = true) := by
  have hvisit : WF (visit ast p S G) := by
    rw [visit_eq_foldl]
    exact (h.performAll _).wf
  rw [hvisit.calls_iff, visit_eq_foldl, h.view_performAll, View.mem_calleesOf_performAll,
    h.wf.calls_iff, includes_view]
  exact isSome_view_iff.mpr ⟨p, h.entry⟩

/-- Somewhere in `S`, outside the bodies of blocks, stands a call expression that resolves directly
to `D`. -/
def CallOccurs (S : Stmt) (D : Decl) : Prop :=
  ∃ directCallee callee args, Stmt.callExpr directCallee callee args ∈ S.subStmts ∧
    getDeclFromCall directCallee callee = some D

/-- **When a walk finds every call**: exactly when each function called below another call or
message send is one that the caller calls already, or is also called where the walk comes to (or
is the target of a message send there that is included). -/
theorem WalkInv.visit_finds_calls_iff {E : Decl} {p : NodeRef} (h : WalkInv E p G) (S : Stmt) :
    (∀ D, CallOccurs S D → (visit ast p S G).Calls E D) ↔
    ∀ D, CallOccurs S D → G.Calls E D ∨
      (∃ directCallee callee args, Stmt.callExpr directCallee callee args ∈ S.visited ∧
        getDeclFromCall directCallee callee = some D) ∨
      (.send D ∈ requests ast S ∧ G.includeInGraph ast D = true) := by
  refine forall_congr' fun D => imp_congr_right fun _ => ?_
  rw [h.calls_visit_iff, call_mem_requests_iff]

/-- The functions `h`, `f` and `g`. -/
def nestedCall : ASTContext :=
  .ofTable [.declaration "h", .declaration "f", .declaration "g"]

/-- The statement `f(g())`. -/
def callInArgument : Stmt :=
  .callExpr (some 1) (.stmt []) [some (.callExpr (some 2) (.stmt []) [])]

/-- Not vacuous: after the statements `f(g()); g();` the caller calls both. -/
theorem visit_finds_calls_nestedCall :
    let G := (new.getOrInsertNode (some 0)).2
    WalkInv 0 1 G ∧
      ∀ D, CallOccurs (.stmt [some callInArgument, some (Stmt.calls [2])]) D →
        (visit nestedCall 1 (.stmt [some callInArgument, some (Stmt.calls [2])]) G).Calls 0 D := by
  intro G
  have h : WalkInv 0 1 G := WalkInv.getOrInsertNode wf_new 0
  refine ⟨h, (h.visit_finds_calls_iff _).mpr ?_⟩
  rintro D ⟨directCallee, callee, args, hmem, hD⟩
  refine Or.inr (Or.inl ?_)
  simp only [callInArgument, Stmt.calls, List.map_cons, List.map_nil, Stmt.subStmts,
    Stmt.subStmtsOfChildren, List.mem_cons, List.mem_append, Stmt.callExpr.injEq, reduceCtorEq,
    List.not_mem_nil, or_false, false_or] at hmem
  rcases hmem with (⟨rfl, rfl, -⟩ | ⟨rfl, rfl, -⟩) | ⟨rfl, rfl, -⟩
  · exact ⟨some 1, .stmt [], [some (.callExpr (some 2) (.stmt []) [])],
      by simp [callInArgument, Stmt.visited, Stmt.visitedOfChildren], hD⟩
  · exact ⟨some 2, .stmt [], [], by simp [Stmt.calls, Stmt.visited, Stmt.visitedOfChildren], hD⟩
  · exact ⟨some 2, .stmt [], [], by simp [Stmt.calls, Stmt.visited, Stmt.visitedOfChildren], hD⟩

/-- After `f(g())` alone it does not call `g`. -/
theorem not_visit_finds_calls_nestedCall :
    let G := (new.getOrInsertNode (some 0)).2
    WalkInv 0 1 G ∧
      ¬ ∀ D, CallOccurs callInArgument D → (visit nestedCall 1 callInArgument G).Calls 0 D := by
  intro G
  refine ⟨WalkInv.getOrInsertNode wf_new 0, fun hall => ?_⟩
  obtain ⟨p, n, hp, hn, -⟩ := hall 2 ⟨some 2, .stmt [], [], by simp [callInArgument, Stmt.subStmts,
    Stmt.subStmtsOfChildren], rfl⟩
  have hnone : (visit nestedCall 1 callInArgument G).getNode (some 2) = none := by decide +kernel
  rw [hnone] at hn
  cases hn

end CallGraph

end FindBoundary
