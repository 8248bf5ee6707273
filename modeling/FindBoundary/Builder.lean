import FindBoundary.CallGraph

/-!
# Building the call graph

`CGBuilder`, which walks a body and records its calls, and the declaration visitor around it.
`TraverseDecl` presents the declarations of a unit one after the other; which ones and in which
order is up to clang, so a unit is a list of declarations and the visitor is run over any list.

A direct call makes a node for its callee whatever the callee is (`addCalledDeclForExpr`); a
message send only when `includeInGraph` agrees (`addCalledDecl`). Neither walk descends below the
call or message it records.
-/

namespace FindBoundary

namespace CallGraph

variable (ast : ASTContext)

/-- `includeInGraph`: a declaration that has a node already is not included again; neither is one
without a body, a function declaration that is not the definition or is dependent, one named
`__inline…`, or a method declaration that is not the definition. -/
def includeInGraph (G : CallGraph) (D : Decl) : Bool :=
  let info := ast.info D
  if (G.getNode (some D)).isSome then false
  else if info.getBody.isNone then false
  else if info.kind.isFunctionDecl &&
      (!info.isThisDeclarationADefinition || info.isDependentContext) then false
  else if info.kind.isFunctionDecl &&
      info.getIdentifier.any (fun II => "__inline".toList.isPrefixOf II.toList) then false
  else if info.kind = .objCMethod && !info.isThisDeclarationADefinition then false
  else true

/-! ## Walking a body -/

/-- `getDeclFromCall`: the direct callee, or the block that is called in place. -/
def getDeclFromCall (directCallee : Option Decl) (callee : Stmt) : Option Decl :=
  match directCallee with
  | some calleeDecl => some calleeDecl
  | none =>
    match callee.ignoreParenImpCasts with
    | .blockExpr blockDecl => some blockDecl
    | _ => none

/-- `addCalledDecl`, used for message sends. -/
def addCalledDecl (callerNode : NodeRef) (D : Decl) (G : CallGraph) : CallGraph :=
  if G.includeInGraph ast D then
    let r := G.getOrInsertNode (some D)
    r.2.addCallee callerNode r.1
  else G

/-- `addCalledDeclForExpr`, used for calls: the definition of the callee may be elsewhere. -/
def addCalledDeclForExpr (callerNode : NodeRef) (D : Decl) (G : CallGraph) : CallGraph :=
  let r := G.getOrInsertNode (some D)
  r.2.addCallee callerNode r.1

/-- `VisitCallExpr` -/
def visitCallExpr (callerNode : NodeRef) (directCallee : Option Decl) (callee : Stmt)
    (G : CallGraph) : CallGraph :=
  match getDeclFromCall directCallee callee with
  | some D => addCalledDeclForExpr callerNode D G
  | none => G

/-- The method a message send resolves to, looked up privately in the receiver's interface. -/
def messageTarget (receiverInterface : Option Decl) (sel : String) (isInstanceMessage : Bool) :
    Option Decl :=
  receiverInterface.bind fun iDecl =>
    if isInstanceMessage then ast.lookupPrivateMethod iDecl sel
    else ast.lookupPrivateClassMethod iDecl sel

/-- `VisitObjCMessageExpr` -/
def visitObjCMessageExpr (callerNode : NodeRef) (receiverInterface : Option Decl) (sel : String)
    (isInstanceMessage : Bool) (G : CallGraph) : CallGraph :=
  match messageTarget ast receiverInterface sel isInstanceMessage with
  | some D => addCalledDecl ast callerNode D G
  | none => G

mutual

/-- `Visit`: dispatch on the kind of statement; what has no visit method of its own is descended
into by `VisitStmt`. -/
def visit (callerNode : NodeRef) : Stmt → CallGraph → CallGraph
  | .callExpr directCallee callee _, G => visitCallExpr callerNode directCallee callee G
  | .objCMessageExpr receiverInterface sel isInstanceMessage _, G =>
    visitObjCMessageExpr ast callerNode receiverInterface sel isInstanceMessage G
  | .blockExpr _, G => G
  | .parenImpCast sub, G => visit callerNode sub G
  | .stmt children, G => visitChildren callerNode children G

/-- `VisitChildren`: null children are skipped. -/
def visitChildren (callerNode : NodeRef) : List (Option Stmt) → CallGraph → CallGraph
  | [], G => G
  | none :: rest, G => visitChildren callerNode rest G
  | some S :: rest, G => visitChildren callerNode rest (visit callerNode S G)

end

/-! ## Visiting declarations -/

/-- `addNodeForDecl`: make sure `D` has a node and walk its body, if any. -/
def addNodeForDecl (D : Decl) (_isGlobal : Bool) (G : CallGraph) : CallGraph :=
  let r := G.getOrInsertNode (some D)
  match (ast.info D).getBody with
  | some body => visit ast r.1 body r.2
  | none => r.2

mutual

/-- `addNodesForBlocks`: walk every block declared in the context, outermost first. -/
def addNodesForBlocks : DeclTree → CallGraph → CallGraph
  | .decl _, G => G
  | .context D decls, G =>
    addNodesForDecls decls
      (if (ast.info D).kind = .block then addNodeForDecl ast D true G else G)

/-- The loop of `addNodesForBlocks` over `decls()`. -/
def addNodesForDecls : List DeclTree → CallGraph → CallGraph
  | [], G => G
  | T :: rest, G => addNodesForDecls rest (addNodesForBlocks T G)

end

/-- `VisitFunctionDecl` -/
def visitFunctionDecl (FD : Decl) (G : CallGraph) : CallGraph :=
  if G.includeInGraph ast FD then
    addNodeForDecl ast FD (ast.info FD).isGlobal
      (addNodesForBlocks ast (.context FD (ast.info FD).decls) G)
  else G

/-- `VisitObjCMethodDecl` -/
def visitObjCMethodDecl (MD : Decl) (G : CallGraph) : CallGraph :=
  if G.includeInGraph ast MD then
    addNodeForDecl ast MD true (addNodesForBlocks ast (.context MD (ast.info MD).decls) G)
  else G

/-- What the recursive visitor does at one declaration. -/
def visitDecl (D : Decl) (G : CallGraph) : CallGraph :=
  match (ast.info D).kind with
  | .function | .cxxMethod => visitFunctionDecl ast D G
  | .objCMethod => visitObjCMethodDecl ast D G
  | .block | .named | .unnamed => G

/-- `addToCallGraph`: visit the declarations of a unit, in the order they are presented. -/
def addToCallGraph (unit : List Decl) (G : CallGraph) : CallGraph :=
  unit.foldl (fun G D => visitDecl ast D G) G

/-- The unmerged graph of some units, added one after the other. -/
def ofUnits (units : List (List Decl)) : CallGraph :=
  units.foldl (fun G unit => addToCallGraph ast unit G) new

end CallGraph

end FindBoundary
