import FindBoundary.View

/-!
# Which bodies are walked

`includeInGraph` turns down a declaration that has a node already. The check is there so that a
declaration is not walked twice, but a node is made for every callee of every body walked, so a
declaration that is called before it is presented, by a call that the walk reaches, is never walked.
For a declaration that passes all the other tests this is the only obstacle (`bodyWalked_iff`).
-/

namespace FindBoundary

namespace CallGraph

variable {ast : ASTContext} {G : CallGraph} {D E : Decl} {ds : List Decl}

/-- The tests of `includeInGraph` that do not depend on the graph, for a declaration that is
visited: it has a body and is itself the definition, not dependent, not named `__inline…`. -/
structure Eligible (ast : ASTContext) (D : Decl) : Prop where
  visited : isVisited ast D = true
  hasBody : (ast.info D).getBody.isSome = true
  definition : (ast.info D).isThisDeclarationADefinition = true
  notDependent : (ast.info D).isDependentContext = false
  notInline : (ast.info D).getIdentifier.any
    (fun II => "__inline".toList.isPrefixOf II.toList) = false

theorem Eligible.admits (hD : Eligible ast D) : admits ast D = true := by
  simp only [CallGraph.admits, hD.hasBody, hD.definition, hD.notDependent, hD.notInline,
    Bool.not_true, Bool.or_false, Bool.and_false, Bool.not_false, Bool.and_true]

/-- An eligible declaration is included unless it has a node. -/
theorem Eligible.includeInGraph_iff (hD : Eligible ast D) (G : CallGraph) :
    G.includeInGraph ast D = true ↔ ¬ G.HasNode D := by
  rw [includeInGraph_eq, hD.admits, Bool.and_true, hasNode_iff, ← Option.not_isSome]
  simp

/-- The walks make nodes for the declarations walked and for those their bodies request. -/
theorem Eligible.hasNode_walkAll (hD : Eligible ast D) (h : WF G) (Es : List Decl) :
    (Es.foldl (fun G E => walk ast E G) G).HasNode D ↔
      G.HasNode D ∨ ∃ E ∈ Es, D ∈ bodyDecls ast E := by
  rw [← isSome_view_iff, h.view_walkAll, View.isSome_walkAll hD.admits, isSome_view_iff]

/-! ## Nodes stay -/

/-- Requests only add entries to the map. -/
theorem entry_perform {F : Option Decl} {n : NodeRef} (h : (F, n) ∈ G.functionMap)
    (callerNode : NodeRef) (r : Request) :
    (F, n) ∈ (perform ast callerNode r G).functionMap := by
  rcases perform_cases ast callerNode r G with heq | heq <;> rw [heq]
  · exact h
  · rw [addCalledDeclForExpr, functionMap_addCallee]
    exact entry_getOrInsertNode h

theorem entry_walk {F : Option Decl} {n : NodeRef} {E : Decl}
    (h : (F, n) ∈ (G.getOrInsertNode (some E)).2.functionMap) :
    (F, n) ∈ (walk ast E G).functionMap := by
  rw [walk_eq_foldl]
  exact List.foldlRecOn (motive := fun (H : CallGraph) => (F, n) ∈ H.functionMap) _ _ h
    fun _ h r _ => entry_perform h _ r

theorem entry_walkAll {F : Option Decl} {n : NodeRef} (h : (F, n) ∈ G.functionMap)
    (Es : List Decl) : (F, n) ∈ (Es.foldl (fun G E => walk ast E G) G).functionMap :=
  List.foldlRecOn (motive := fun (H : CallGraph) => (F, n) ∈ H.functionMap) Es _ h
    fun _ h _ _ => entry_walk (entry_getOrInsertNode h)

/-! ## What is walked -/

mutual

theorem kind_of_mem_blocks : ∀ (T : DeclTree), ∀ E ∈ blocks ast T, (ast.info E).kind = .block
  | .decl _, E, hE => by
      rw [blocks] at hE
      cases hE
  | .context D' decls, E, hE => by
      rw [blocks] at hE
      rcases List.mem_append.mp hE with hE | hE
      · split at hE
        · cases List.mem_singleton.mp hE
          assumption
        · cases hE
      · exact kind_of_mem_blocksOfDecls decls E hE

theorem kind_of_mem_blocksOfDecls :
    ∀ (decls : List DeclTree), ∀ E ∈ blocksOfDecls ast decls, (ast.info E).kind = .block
  | [], E, hE => by
      rw [blocksOfDecls] at hE
      cases hE
  | T :: rest, E, hE => by
      rw [blocksOfDecls] at hE
      rcases List.mem_append.mp hE with hE | hE
      · exact kind_of_mem_blocks T E hE
      · exact kind_of_mem_blocksOfDecls rest E hE

end

/-- What the visitor visits is no block. -/
theorem not_mem_blocks (hD : isVisited ast D = true) (T : DeclTree) : D ∉ blocks ast T := by
  intro hmem
  have hkind := kind_of_mem_blocks T D hmem
  simp [isVisited, hkind, DeclKind.isFunctionDecl] at hD

/-- What is walked is known from then on. -/
theorem hasNode_of_walked {Es : List Decl} (hE : E ∈ Es) (G : CallGraph) :
    (Es.foldl (fun G E => walk ast E G) G).HasNode E := by
  obtain ⟨before, after, rfl⟩ := List.append_of_mem hE
  rw [List.foldl_append, List.foldl_cons]
  exact ⟨_, entry_walkAll (entry_walk (getOrInsertNode_entry _ E)) after⟩

/-- The visit that has an effect is the one of a function or method without a node. -/
theorem visitWalks_of_mem (hE : E ∈ visitWalks ast D G) :
    isVisited ast D = true ∧ ¬ G.HasNode D ∧ visitWalks ast D G = View.bodiesOf ast D := by
  rw [visitWalks] at hE ⊢
  split at hE
  · rename_i h
    rw [if_pos h]
    rw [Bool.and_eq_true, includeInGraph_eq, Bool.and_eq_true, Option.isNone_iff_eq_none] at h
    refine ⟨h.1, ?_, rfl⟩
    rw [hasNode_iff, h.2.1]
    exact Bool.false_ne_true
  · cases hE

theorem mem_walks (hE : E ∈ walks ast ds G) :
    ∃ D ∈ ds, isVisited ast D = true ∧ ¬ G.HasNode D ∧ E ∈ View.bodiesOf ast D := by
  induction ds generalizing G with
  | nil => cases hE
  | cons D ds ih =>
    rcases List.mem_append.mp hE with hE | hE
    · obtain ⟨hvisited, hnode, hbodies⟩ := visitWalks_of_mem hE
      exact ⟨D, List.mem_cons_self .., hvisited, hnode, hbodies ▸ hE⟩
    · obtain ⟨D', hD', hvisited, hnode, hbody⟩ := ih hE
      refine ⟨D', List.mem_cons_of_mem _ hD', hvisited, fun h => hnode ?_, hbody⟩
      obtain ⟨n, hn⟩ := h
      rw [visitDecl_eq_foldl]
      exact ⟨n, entry_walkAll hn _⟩

/-- Of what the visitor visits, only what is presented is walked, and only if it has no node. -/
theorem mem_of_mem_walks (hD : isVisited ast D = true) (hmem : D ∈ walks ast ds G) :
    D ∈ ds ∧ ¬ G.HasNode D := by
  obtain ⟨D', hD', -, hnode, hbody⟩ := mem_walks hmem
  rcases List.mem_append.mp hbody with hblock | hself
  · exact absurd hblock (not_mem_blocks hD _)
  · obtain rfl := List.mem_singleton.mp hself
    exact ⟨hD', hnode⟩

/-! ## What a walk records -/

/-- Making a node changes the callees of the root only. -/
theorem WF.callees_getOrInsertNode (h : WF G) {n : NodeRef} (hn : n ≠ G.root) (D' : Decl) :
    (G.getOrInsertNode (some D')).2.callees n = G.callees n := by
  rcases hD' : G.getNode (some D') with _ | n'
  · rw [getOrInsertNode_of_none hD', h.callees_insert, if_neg hn]
  · rw [getOrInsertNode_of_some hD']

theorem root_getOrInsertNode (D' : Decl) : (G.getOrInsertNode (some D')).2.root = G.root := by
  rcases hD' : G.getNode (some D') with _ | n'
  · rw [getOrInsertNode_of_none hD', root_addCallee]
    rfl
  · rw [getOrInsertNode_of_some hD']

theorem root_perform (callerNode : NodeRef) (r : Request) (G : CallGraph) :
    (perform ast callerNode r G).root = G.root := by
  rcases perform_cases ast callerNode r G with heq | heq <;> rw [heq]
  rw [addCalledDeclForExpr, root_addCallee, root_getOrInsertNode]

theorem root_walk (E : Decl) (G : CallGraph) : (walk ast E G).root = G.root := by
  rw [walk_eq_foldl]
  exact List.foldlRecOn (motive := fun (H : CallGraph) => H.root = G.root) _ _
    (root_getOrInsertNode E) fun H h r _ => (root_perform _ r H).trans h

theorem root_walkAll (Es : List Decl) (G : CallGraph) :
    (Es.foldl (fun G E => walk ast E G) G).root = G.root :=
  List.foldlRecOn (motive := fun (H : CallGraph) => H.root = G.root) Es _ rfl
    fun H h E _ => (root_walk E H).trans h

/-- A request of the body of another node leaves the callees of `n` alone. -/
theorem WF.callees_perform (h : WF G) {callerNode n : NodeRef} (hroot : n ≠ G.root)
    (hn : n ≠ callerNode) (r : Request) :
    (CallGraph.perform ast callerNode r G).callees n = G.callees n := by
  rcases perform_cases ast callerNode r G with heq | heq <;> rw [heq]
  rw [addCalledDeclForExpr, callees_addCallee, if_neg hn, h.callees_getOrInsertNode hroot]

/-- A walk changes the callees of the node walked and of the root only. -/
theorem WF.callees_walk (h : WF G) {n : NodeRef} {E : Decl} (hroot : n ≠ G.root)
    (hn : n ≠ (G.getOrInsertNode (some E)).1) :
    (CallGraph.walk ast E G).callees n = G.callees n := by
  rw [walk_eq_foldl]
  refine (List.foldlRecOn (motive := fun H =>
    WalkInv E (G.getOrInsertNode (some E)).1 H ∧ H.root = G.root ∧ H.callees n = G.callees n)
    _ _ ⟨WalkInv.getOrInsertNode h E, root_getOrInsertNode E, h.callees_getOrInsertNode hroot E⟩
    ?_).2.2
  rintro H ⟨hH, hHroot, hHn⟩ r -
  exact ⟨hH.perform r, (root_perform _ r H).trans hHroot,
    (hH.wf.callees_perform (hHroot ▸ hroot) hn r).trans hHn⟩

/-- A node that belongs to no declaration walked keeps its callees. -/
theorem WF.callees_walkAll (h : WF G) {n : NodeRef} (hroot : n ≠ G.root) {Es : List Decl}
    (hn : ∀ E ∈ Es, (some E, n) ∉ (Es.foldl (fun G E => CallGraph.walk ast E G) G).functionMap) :
    (Es.foldl (fun G E => CallGraph.walk ast E G) G).callees n = G.callees n := by
  induction Es generalizing G with
  | nil => rfl
  | cons E Es ih =>
    have hE : n ≠ (G.getOrInsertNode (some E)).1 := by
      rintro rfl
      exact hn E (List.mem_cons_self ..) (entry_walkAll (entry_walk (getOrInsertNode_entry G E)) Es)
    rw [List.foldl_cons, ih (h.walk E) (by rwa [root_walk])
      fun E' hE' => hn E' (List.mem_cons_of_mem _ hE'), h.callees_walk hroot hE]

/-- A declaration that occurs once in the log has no callees before its walk, and ends with those
its walk records. -/
theorem callees_of_walked_once {before after : List Decl} (hbefore : D ∉ before)
    (hafter : D ∉ after) {n : NodeRef}
    (hn : (some D, n) ∈
      ((before ++ D :: after).foldl (fun G E => walk ast E G) new).functionMap) :
    (before.foldl (fun G E => walk ast E G) new).callees n = [] ∧
    ((before ++ D :: after).foldl (fun G E => walk ast E G) new).callees n =
      (walk ast D (before.foldl (fun G E => walk ast E G) new)).callees n := by
  have hwf : WF ((before ++ D :: after).foldl (fun G E => walk ast E G) new) := wf_new.walkAll _
  have hroot : ((before ++ D :: after).foldl (fun G E => walk ast E G) new).root = new.root :=
    root_walkAll _ new
  have hnew : n ≠ new.root := hroot ▸ (hwf.isFunctionNode_of_entry hn).ne_root
  -- in the end `n` is the node of `D` alone, and entries are never removed
  have hother : ∀ E, E ≠ D → (some E, n) ∉
      ((before ++ D :: after).foldl (fun G E => walk ast E G) new).functionMap := fun E hE h =>
    hE (Option.some.inj (hwf.entry_inj h hn))
  rw [List.foldl_append, List.foldl_cons] at hother ⊢
  have hwf₁ : WF (before.foldl (fun G E => walk ast E G) new) := wf_new.walkAll before
  refine ⟨?_, ?_⟩
  · rw [wf_new.callees_walkAll hnew]
    · exact callees_new n
    · intro E hE h
      exact hother E (fun hED => hbefore (hED ▸ hE))
        (entry_walkAll (entry_walk (entry_getOrInsertNode h)) after)
  · refine (hwf₁.walk D).callees_walkAll ?_ fun E hE => hother E fun hED => hafter (hED ▸ hE)
    rwa [root_walk, root_walkAll]

/-! ## The result -/

/-- The body of `D` is walked when the declarations `ds` are presented to a fresh graph, and the
callees which that walk records are those the node of `D` ends with. -/
def BodyWalked (ast : ASTContext) (ds : List Decl) (D : Decl) : Prop :=
  ∃ before after n, walks ast ds new = before ++ D :: after ∧
    (addToCallGraph ast ds new).getNode (some D) = some n ∧
    (before.foldl (fun G E => walk ast E G) new).callees n = [] ∧
    (addToCallGraph ast ds new).callees n =
      (walk ast D (before.foldl (fun G E => walk ast E G) new)).callees n

/-- A body that is walked before `D` is presented for the first time calls `D`, or sends a message
that resolves to it, where the walk comes to see it: what is nested in another call or message is
not looked at. -/
def CalledBefore (ast : ASTContext) (ds : List Decl) (D : Decl) : Prop :=
  ∃ E ∈ walks ast (ds.takeWhile (· ≠ D)) new, ∃ r ∈ bodyRequests ast E, r.target = D

/-- To be called before is to have a node when presented for the first time. -/
theorem Eligible.calledBefore_iff (hD : Eligible ast D) {pre : List Decl} (hpre : D ∉ pre)
    (post : List Decl) :
    CalledBefore ast (pre ++ D :: post) D ↔ (addToCallGraph ast pre new).HasNode D := by
  have htake : (pre ++ D :: post).takeWhile (· ≠ D) = pre := by
    rw [List.takeWhile_append_of_pos fun E hE => by
      simpa using fun h : E = D => hpre (h ▸ hE)]
    simp
  rw [CalledBefore, htake, addToCallGraph_eq_foldl, hD.hasNode_walkAll wf_new]
  refine ⟨?_, ?_⟩
  · rintro ⟨E, hE, hr⟩
    exact Or.inr ⟨E, hE, mem_bodyDecls.mpr (Or.inr hr)⟩
  · rintro (hnew | ⟨E, hE, hmem⟩)
    · exact absurd hnew (not_hasNode_new D)
    · rcases mem_bodyDecls.mp hmem with rfl | hr
      · exact absurd (mem_of_mem_walks hD.visited hE).1 hpre
      · exact ⟨E, hE, hr⟩

/-- A declaration that has a node when presented for the first time is not walked at all. -/
theorem not_mem_walks_of_hasNode (hD : isVisited ast D = true) {pre : List Decl} (hpre : D ∉ pre)
    (post : List Decl) (hnode : (addToCallGraph ast pre new).HasNode D) :
    D ∉ walks ast (pre ++ D :: post) new := by
  rw [walks_append, List.mem_append]
  rintro (hwalked | hwalked)
  · exact hpre (mem_of_mem_walks hD hwalked).1
  · exact (mem_of_mem_walks hD hwalked).2 hnode

/-- One that has none is walked exactly once. -/
theorem Eligible.walks_eq_append_cons (hD : Eligible ast D) {pre : List Decl} (hpre : D ∉ pre)
    (post : List Decl) (hnode : ¬ (addToCallGraph ast pre new).HasNode D) :
    ∃ before after, walks ast (pre ++ D :: post) new = before ++ D :: after ∧
      D ∉ before ∧ D ∉ after := by
  have hvisit : visitWalks ast D (addToCallGraph ast pre new) =
      blocks ast (.context D (ast.info D).decls) ++ [D] := by
    rw [visitWalks, hD.visited, (hD.includeInGraph_iff _).mpr hnode]
    rfl
  refine ⟨walks ast pre new ++ blocks ast (.context D (ast.info D).decls),
    walks ast post (visitDecl ast D (addToCallGraph ast pre new)), ?_, ?_, ?_⟩
  · rw [walks_append, walks, hvisit]
    simp
  · rw [List.mem_append]
    rintro (h | h)
    · exact hpre (mem_of_mem_walks hD.visited h).1
    · exact not_mem_blocks hD.visited _ h
  · intro h
    refine (mem_of_mem_walks hD.visited h).2 ?_
    rw [visitDecl_eq_foldl, hvisit]
    exact hasNode_of_walked (List.mem_append_right _ (List.mem_singleton_self D)) _

/-- **Whose bodies are walked**: that of an eligible declaration is walked exactly when no body
walked earlier calls it. -/
theorem bodyWalked_iff {ds : List Decl} (hmem : D ∈ ds) (hD : Eligible ast D) :
    BodyWalked ast ds D ↔ ¬ CalledBefore ast ds D := by
  obtain ⟨pre, post, rfl, hpre⟩ := List.eq_append_cons_of_mem hmem
  rw [hD.calledBefore_iff hpre]
  refine ⟨?_, ?_⟩
  · rintro ⟨before, after, n, hsplit, -⟩ hnode
    refine not_mem_walks_of_hasNode hD.visited hpre post hnode ?_
    rw [hsplit]
    exact List.mem_append_right _ (List.mem_cons_self ..)
  · intro hnode
    obtain ⟨before, after, hlog, hbefore, hafter⟩ := hD.walks_eq_append_cons hpre post hnode
    have hfinal : (addToCallGraph ast (pre ++ D :: post) new).HasNode D := by
      rw [addToCallGraph_eq_foldl, hlog]
      exact hasNode_of_walked (List.mem_append_right _ (List.mem_cons_self ..)) new
    obtain ⟨n, hn⟩ := hfinal
    have hwf : WF (addToCallGraph ast (pre ++ D :: post) new) := wf_new.addToCallGraph _
    have hgetNode := hwf.getNode_eq_some_iff.mpr hn
    rw [addToCallGraph_eq_foldl, hlog] at hn
    obtain ⟨hnil, hcallees⟩ := callees_of_walked_once hbefore hafter hn
    refine ⟨before, after, n, hlog, hgetNode, hnil, ?_⟩
    rw [addToCallGraph_eq_foldl, hlog]
    exact hcallees

/-- A class with two methods, `f` which calls `g`, and `g` which calls the function `h`. -/
def forwardCall : ASTContext :=
  .ofTable [(DeclInfo.definition "f" [1]).inClass "A", (DeclInfo.definition "g" [2]).inClass "A",
    .definition "h" []]

theorem eligible_forwardCall : Eligible forwardCall 1 :=
  ⟨by decide, by decide, by decide, by decide, by decide⟩

/-- Not vacuous: if `g` is presented first, its body is walked. -/
theorem bodyWalked_iff_forwardCall : BodyWalked forwardCall [2, 1, 0] 1 :=
  (bodyWalked_iff (by decide) eligible_forwardCall).mpr (by unfold CalledBefore; decide +kernel)

/-- If `f` is presented first, as the class has them, the body of `g` is never walked. -/
theorem not_bodyWalked_forwardCall :
    ¬ ∀ (ds : List Decl) (D : Decl), D ∈ ds → Eligible forwardCall D →
      BodyWalked forwardCall ds D := by
  intro hall
  obtain ⟨before, after, n, hlog, -⟩ := hall [2, 0, 1] 1 (by decide) eligible_forwardCall
  have hmem : 1 ∈ walks forwardCall [2, 0, 1] new := by
    rw [hlog]
    exact List.mem_append_right _ (List.mem_cons_self ..)
  revert hmem
  decide +kernel

end CallGraph

end FindBoundary
