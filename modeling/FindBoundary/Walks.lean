import FindBoundary.Builder

/-!
# The log of a build

The builder is a recursion over statements inside a recursion over declaration contexts inside a
loop over declarations. Here it is flattened twice. Walking a body performs a list of *requests*,
fixed by the body: one for each call or message send that the walk reaches, in order
(`visit_eq_foldl`). Visiting declarations performs a list of *walks*: the declarations whose
bodies are walked, in order (`addToCallGraph_eq_foldl`). What is proved for one request and for
one walk then carries over to whole builds by induction over these lists.
-/

namespace FindBoundary

namespace CallGraph

variable (ast : ASTContext)

/-! ## Requests -/

/-- What a body asks the graph for. -/
inductive Request : Type where
  /-- a call of `D` -/
  | call (D : Decl)
  /-- a message send that resolves to `D` -/
  | send (D : Decl)

/-- The declaration a request is for. -/
def Request.target : Request → Decl
  | .call D => D
  | .send D => D

/-- Carry out one request of the body of `callerNode`. -/
def perform (callerNode : NodeRef) : Request → CallGraph → CallGraph
  | .call D, G => addCalledDeclForExpr callerNode D G
  | .send D, G => addCalledDecl ast callerNode D G

/-- A request is turned down, or recorded as a call of its target. -/
theorem perform_cases (callerNode : NodeRef) (r : Request) (G : CallGraph) :
    perform ast callerNode r G = G ∨
      perform ast callerNode r G = addCalledDeclForExpr callerNode r.target G := by
  cases r with
  | call D => exact Or.inr rfl
  | send D =>
    rw [perform, addCalledDecl]
    split
    · exact Or.inr rfl
    · exact Or.inl rfl

mutual

/-- The requests of a statement, in the order of the walk. -/
def requests : Stmt → List Request
  | .callExpr directCallee callee _ =>
    ((getDeclFromCall directCallee callee).map Request.call).toList
  | .objCMessageExpr receiverInterface sel isInstanceMessage _ =>
    ((messageTarget ast receiverInterface sel isInstanceMessage).map Request.send).toList
  | .blockExpr _ => []
  | .parenImpCast sub => requests sub
  | .stmt children => requestsOfChildren children

/-- The requests of a list of children. -/
def requestsOfChildren : List (Option Stmt) → List Request
  | [] => []
  | none :: rest => requestsOfChildren rest
  | some S :: rest => requests S ++ requestsOfChildren rest

end

mutual

/-- **A walk performs the requests of the body**, in order, and does nothing else. -/
theorem visit_eq_foldl (callerNode : NodeRef) :
    ∀ (S : Stmt) (G : CallGraph),
      visit ast callerNode S G =
        (requests ast S).foldl (fun G r => perform ast callerNode r G) G
  | .callExpr directCallee callee _, G => by
      rw [visit, requests, visitCallExpr]
      rcases getDeclFromCall directCallee callee with _ | D <;> rfl
  | .objCMessageExpr receiverInterface sel isInstanceMessage _, G => by
      rw [visit, requests, visitObjCMessageExpr]
      rcases messageTarget ast receiverInterface sel isInstanceMessage with _ | D <;> rfl
  | .blockExpr _, G => by
      rw [visit, requests, List.foldl_nil]
  | .parenImpCast sub, G => by
      rw [visit, requests, visit_eq_foldl callerNode sub G]
  | .stmt children, G => by
      rw [visit, requests, visitChildren_eq_foldl callerNode children G]

theorem visitChildren_eq_foldl (callerNode : NodeRef) :
    ∀ (children : List (Option Stmt)) (G : CallGraph),
      visitChildren ast callerNode children G =
        (requestsOfChildren ast children).foldl (fun G r => perform ast callerNode r G) G
  | [], G => by
      rw [visitChildren, requestsOfChildren, List.foldl_nil]
  | none :: rest, G => by
      rw [visitChildren, requestsOfChildren, visitChildren_eq_foldl callerNode rest G]
  | some S :: rest, G => by
      rw [visitChildren, requestsOfChildren, List.foldl_append, visit_eq_foldl callerNode S G,
        visitChildren_eq_foldl callerNode rest]

end

/-- The requests of the body of `D`; none if it has no body. -/
def bodyRequests (D : Decl) : List Request :=
  match (ast.info D).getBody with
  | some body => requests ast body
  | none => []

/-! ## Walks -/

/-- Walk the body of `D`. -/
def walk (D : Decl) (G : CallGraph) : CallGraph := addNodeForDecl ast D true G

theorem walk_eq_foldl (D : Decl) (G : CallGraph) :
    walk ast D G = (bodyRequests ast D).foldl
      (fun H r => perform ast (G.getOrInsertNode (some D)).1 r H)
      (G.getOrInsertNode (some D)).2 := by
  simp only [walk, addNodeForDecl, bodyRequests]
  rcases (ast.info D).getBody with _ | body
  · rfl
  · exact visit_eq_foldl ast _ body _

mutual

/-- The blocks declared in a context, outermost first. -/
def blocks : DeclTree → List Decl
  | .decl _ => []
  | .context D decls => (if (ast.info D).kind = .block then [D] else []) ++ blocksOfDecls decls

/-- The blocks declared in a list of declarations. -/
def blocksOfDecls : List DeclTree → List Decl
  | [] => []
  | T :: rest => blocks T ++ blocksOfDecls rest

end

mutual

theorem addNodesForBlocks_eq_foldl :
    ∀ (T : DeclTree) (G : CallGraph),
      addNodesForBlocks ast T G = (blocks ast T).foldl (fun G D => walk ast D G) G
  | .decl _, G => by
      rw [addNodesForBlocks, blocks, List.foldl_nil]
  | .context D decls, G => by
      rw [addNodesForBlocks, blocks, List.foldl_append, addNodesForDecls_eq_foldl decls]
      split <;> rfl

theorem addNodesForDecls_eq_foldl :
    ∀ (decls : List DeclTree) (G : CallGraph),
      addNodesForDecls ast decls G = (blocksOfDecls ast decls).foldl (fun G D => walk ast D G) G
  | [], G => by
      rw [addNodesForDecls, blocksOfDecls, List.foldl_nil]
  | T :: rest, G => by
      rw [addNodesForDecls, blocksOfDecls, List.foldl_append, addNodesForBlocks_eq_foldl T G,
        addNodesForDecls_eq_foldl rest]

end

/-- Is `D` a declaration that the visitor has a visit method for? -/
def isVisited (D : Decl) : Bool :=
  (ast.info D).kind.isFunctionDecl || (ast.info D).kind = .objCMethod

/-- The bodies walked when `D` is visited: if `D` is included, the blocks in it and then its
own. -/
def visitWalks (D : Decl) (G : CallGraph) : List Decl :=
  if isVisited ast D && G.includeInGraph ast D then
    blocks ast (.context D (ast.info D).decls) ++ [D]
  else []

theorem visitDecl_eq_foldl (D : Decl) (G : CallGraph) :
    visitDecl ast D G = (visitWalks ast D G).foldl (fun G D => walk ast D G) G := by
  have hvisit : (if G.includeInGraph ast D then
      walk ast D (addNodesForBlocks ast (.context D (ast.info D).decls) G) else G) =
      (if G.includeInGraph ast D then
        blocks ast (.context D (ast.info D).decls) ++ [D] else []).foldl
          (fun G D => walk ast D G) G := by
    split
    · rw [List.foldl_append, addNodesForBlocks_eq_foldl]
      rfl
    · rfl
  unfold visitDecl visitWalks isVisited
  rcases (ast.info D).kind
  case function => exact hvisit
  case cxxMethod => exact hvisit
  case objCMethod => exact hvisit
  case block => rfl
  case named => rfl
  case unnamed => rfl

/-- The bodies walked when the declarations of `unit` are visited. -/
def walks : List Decl → CallGraph → List Decl
  | [], _ => []
  | D :: unit, G => visitWalks ast D G ++ walks unit (visitDecl ast D G)

/-- **A build performs its walks**, in order, and does nothing else. -/
theorem addToCallGraph_eq_foldl (unit : List Decl) (G : CallGraph) :
    addToCallGraph ast unit G = (walks ast unit G).foldl (fun G D => walk ast D G) G := by
  induction unit generalizing G with
  | nil => rfl
  | cons D unit ih =>
    rw [walks, List.foldl_append, ← visitDecl_eq_foldl]
    exact ih _

theorem walks_append (unit unit' : List Decl) (G : CallGraph) :
    walks ast (unit ++ unit') G =
      walks ast unit G ++ walks ast unit' (addToCallGraph ast unit G) := by
  induction unit generalizing G with
  | nil => rfl
  | cons D unit ih =>
    rw [List.cons_append, walks, walks, ih, List.append_assoc]
    rfl

/-- Adding units one after the other is adding one long unit. -/
theorem ofUnits_eq (units : List (List Decl)) :
    ofUnits ast units = addToCallGraph ast units.flatten new := by
  simp only [ofUnits, addToCallGraph]
  rw [List.foldl_flatten]

end CallGraph

end FindBoundary
