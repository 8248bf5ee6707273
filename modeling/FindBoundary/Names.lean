import FindBoundary.Quotient
import FindBoundary.Termination
import FindBoundary.View

/-!
# The calls by name

What the passes look at is the merged graph, which depends on the order of a hash map. Many things
about it are decided by the graph that was built: which functions call functions of another name,
and which names these have. The merge adds no such call (`WF.namedCall_of_mem_callees`), and where
two methods of one name are always of one class, it gives each one to all functions of the two names
(`WF.mem_callees_of_namedCall`). So the names decide whether there is a cycle
(`WF.acyclic_mergeFunctionMap_iff`).
-/

namespace FindBoundary

namespace CallGraph

variable {ast : ASTContext} {G : CallGraph}

/-- The node `n` is a function of the name `a`. -/
def FunctionNamed (G : CallGraph) (ast : ASTContext) (n : NodeRef) (a : String) : Prop :=
  ∃ D, ast.asFunctionDecl (G.decl n) = some D ∧ ast.name D = a

/-- A function of the name `a` calls one of another name, `b`. -/
structure NamedCall (G : CallGraph) (ast : ASTContext) (a b : String) : Prop where
  exists_call : ∃ p c, c ∈ G.callees p ∧ G.FunctionNamed ast p a ∧ G.FunctionNamed ast c b
  name_ne : a ≠ b

/-- All nodes but the root are those of functions. -/
def AllFunctions (G : CallGraph) (ast : ASTContext) : Prop :=
  ∀ n, G.IsFunctionNode n → (ast.asFunctionDecl (G.decl n)).isSome = true

/-- Methods of one name are methods of one class. -/
def OneClassPerName (G : CallGraph) (ast : ASTContext) : Prop :=
  ∀ M M', G.HasNode M → G.HasNode M' → (ast.info M).kind.isCXXMethodDecl = true →
    (ast.info M').kind.isCXXMethodDecl = true → ast.name M = ast.name M' →
      (ast.info M).parentName = (ast.info M').parentName

/-! ## Functions and names -/

theorem FunctionNamed.eq {n : NodeRef} {a b : String} (h : G.FunctionNamed ast n a)
    (h' : G.FunctionNamed ast n b) : a = b := by
  obtain ⟨D, hD, rfl⟩ := h
  obtain ⟨D', hD', rfl⟩ := h'
  exact congrArg ast.name (Option.some.inj (hD.symm.trans hD'))

theorem SameNodes.allocated_iff {G' : CallGraph} (hs : SameNodes G G') {n : NodeRef} :
    G'.Allocated n ↔ G.Allocated n := by
  rw [Allocated, Allocated, hs.next]

theorem SameNodes.functionNamed_iff {G' : CallGraph} (hs : SameNodes G G') {n : NodeRef}
    {a : String} : G'.FunctionNamed ast n a ↔ G.FunctionNamed ast n a := by
  rw [FunctionNamed, hs.decl, FunctionNamed]

/-- A function is a named declaration. -/
theorem isNamedDecl_of_isFunctionDecl {D : Decl} (hD : (ast.info D).kind.isFunctionDecl = true) :
    (ast.info D).kind.isNamedDecl = true := by
  cases hk : (ast.info D).kind <;> simp_all [DeclKind.isFunctionDecl, DeclKind.isNamedDecl]

theorem FunctionNamed.label_eq {n : NodeRef} {a : String} (h : G.FunctionNamed ast n a) :
    G.label ast n = .inl a := by
  obtain ⟨D, hD, rfl⟩ := h
  obtain ⟨hdecl, hkind⟩ := ASTContext.asFunctionDecl_eq_some.mp hD
  rw [label, ASTContext.asNamedDecl_eq_some.mpr ⟨hdecl, isNamedDecl_of_isFunctionDecl hkind⟩]

/-- The name of a function is its label. -/
theorem functionNamed_of_label {n : NodeRef} {a : String}
    (hn : (ast.asFunctionDecl (G.decl n)).isSome = true) (ha : G.label ast n = .inl a) :
    G.FunctionNamed ast n a := by
  obtain ⟨D, hD⟩ := Option.isSome_iff_exists.mp hn
  have hname : G.FunctionNamed ast n (ast.name D) := ⟨D, hD, rfl⟩
  rw [hname.label_eq, Sum.inl.injEq] at ha
  rw [← ha]
  exact hname

theorem AllFunctions.exists_name (hall : G.AllFunctions ast) {n : NodeRef}
    (hn : G.IsFunctionNode n) : ∃ a, G.FunctionNamed ast n a := by
  obtain ⟨D, hD⟩ := Option.isSome_iff_exists.mp (hall n hn)
  exact ⟨ast.name D, D, hD, rfl⟩

/-- The passes skip a callee exactly if it has the name of its caller. -/
theorem sameName_iff {p c : NodeRef} {a b : String} (hp : G.FunctionNamed ast p a)
    (hc : G.FunctionNamed ast c b) : G.SameName ast p c ↔ a = b := by
  obtain ⟨D, hD, rfl⟩ := hp
  obtain ⟨E, hE, rfl⟩ := hc
  simp only [SameName]
  rw [hD, hE]

/-- The declaration of a node has a node. -/
theorem WF.hasNode_of_decl (h : WF G) {n : NodeRef} {D : Decl} (hn : G.Allocated n)
    (hD : G.decl n = some D) : G.HasNode D := by
  have hroot : n ≠ G.root := by
    rintro rfl
    cases h.decl_root.symm.trans hD
  obtain ⟨D', hD', hentry⟩ := h.exists_entry ⟨hn, hroot⟩
  obtain rfl := Option.some.inj (hD.symm.trans hD')
  exact ⟨n, hentry⟩

/-- Where methods of one name are of one class, functions of one name match. -/
theorem WF.sameNode_of_functionNamed (h : WF G) (hclass : G.OneClassPerName ast) {x y : NodeRef}
    {a : String} (hx : G.Allocated x) (hy : G.Allocated y) (hxa : G.FunctionNamed ast x a)
    (hya : G.FunctionNamed ast y a) : G.SameNode ast x y := by
  obtain ⟨D, hD, rfl⟩ := hxa
  obtain ⟨E, hE, hname⟩ := hya
  obtain ⟨hdeclD, hkindD⟩ := ASTContext.asFunctionDecl_eq_some.mp hD
  obtain ⟨hdeclE, hkindE⟩ := ASTContext.asFunctionDecl_eq_some.mp hE
  refine Or.inr ⟨hx, hy, ASTContext.matches_iff.mpr ⟨D, E, hdeclD, hdeclE, ?_⟩⟩
  refine ⟨isNamedDecl_of_isFunctionDecl hkindD, isNamedDecl_of_isFunctionDecl hkindE, hname.symm,
    fun hM hM' => ?_⟩
  exact hclass D E (h.hasNode_of_decl hx hdeclD) (h.hasNode_of_decl hy hdeclE) hM hM' hname.symm

/-- The calls by name, by declarations. -/
theorem WF.namedCall_iff (h : WF G) {a b : String} :
    G.NamedCall ast a b ↔ a ≠ b ∧ ∃ E D, some D ∈ G.view.calleesOf E ∧
      (ast.info E).kind.isFunctionDecl = true ∧ (ast.info D).kind.isFunctionDecl = true ∧
      ast.name E = a ∧ ast.name D = b := by
  refine ⟨?_, ?_⟩
  · rintro ⟨⟨p, c, hc, ⟨E, hE, hnameE⟩, D, hD, hnameD⟩, hne⟩
    obtain ⟨hdeclE, hkindE⟩ := ASTContext.asFunctionDecl_eq_some.mp hE
    obtain ⟨hdeclD, hkindD⟩ := ASTContext.asFunctionDecl_eq_some.mp hD
    obtain ⟨p', hentry⟩ := h.hasNode_of_decl (h.edge_allocated p c hc).1 hdeclE
    obtain rfl : p' = p := h.decl_inj (h.entry_decl _ _ hentry).1 (h.edge_allocated p c hc).1
      ((h.entry_decl _ _ hentry).2.trans hdeclE.symm)
    refine ⟨hne, E, D, ?_, hkindE, hkindD, hnameE, hnameD⟩
    rw [h.calleesOf_view hentry]
    exact List.mem_map.mpr ⟨c, hc, hdeclD⟩
  · rintro ⟨hne, E, D, hmem, hkindE, hkindD, hnameE, hnameD⟩
    obtain ⟨p, c, hp, hc, hcall⟩ := h.calls_iff.mpr hmem
    have hdecl : ∀ {F : Decl} {n : NodeRef}, G.getNode (some F) = some n →
        (ast.info F).kind.isFunctionDecl = true → ast.asFunctionDecl (G.decl n) = some F :=
      fun hn hkind => ASTContext.asFunctionDecl_eq_some.mpr
        ⟨(h.entry_decl _ _ (entry_of_getNode hn)).2, hkind⟩
    exact ⟨⟨p, c, hcall, ⟨E, hdecl hp hkindE, hnameE⟩, D, hdecl hc hkindD, hnameD⟩, hne⟩

/-! ## The merge and the names -/

section Merge

variable {order : G.Enumeration}

theorem WF.allFunctions_mergeFunctionMap (h : WF G) :
    (G.mergeFunctionMap ast order).AllFunctions ast ↔ G.AllFunctions ast := by
  obtain ⟨-, hs⟩ := h.mergeFunctionMap ast order
  have hnode : ∀ n, (G.mergeFunctionMap ast order).IsFunctionNode n ↔ G.IsFunctionNode n := by
    intro n
    have hroot : n ≠ (G.mergeFunctionMap ast order).root ↔ n ≠ G.root := by
      rw [hs.root]
    exact ⟨fun hn => ⟨hs.allocated_iff.mp hn.allocated, hroot.mp hn.ne_root⟩,
      fun hn => ⟨hs.allocated_iff.mpr hn.allocated, hroot.mpr hn.ne_root⟩⟩
  simp only [AllFunctions, hnode, hs.decl]

/-- **A call of the merged graph is one of the names in the graph before.** -/
theorem WF.namedCall_of_mem_callees (h : WF G) (hall : G.AllFunctions ast) {p c : NodeRef}
    {a b : String} (hc : c ∈ (G.mergeFunctionMap ast order).callees p)
    (hpa : G.FunctionNamed ast p a) (hcb : G.FunctionNamed ast c b) (hne : a ≠ b) :
    G.NamedCall ast a b := by
  obtain ⟨o, y, hpo, hcy, hy⟩ := h.linked_of_mem_callees hc
  have hlabel : G.label ast o = .inl a := hpo.label_eq.symm.trans hpa.label_eq
  have hroot : o ≠ G.root := by
    rintro rfl
    rw [label, h.decl_root] at hlabel
    cases hlabel
  have ho : G.FunctionNamed ast o a :=
    functionNamed_of_label (hall o ⟨(h.edge_allocated o y hy).1, hroot⟩) hlabel
  have hyb : G.FunctionNamed ast y b :=
    functionNamed_of_label (hall y (h.isFunctionNode_of_mem hy))
      (hcy.label_eq.symm.trans hcb.label_eq)
  exact ⟨⟨o, y, hy, ho, hyb⟩, hne⟩

/-- **A call of the names is one of the merged graph**, from its caller to every function of the
name of its callee. -/
theorem WF.mem_callees_of_namedCall (h : WF G) (order : G.Enumeration)
    (hclass : G.OneClassPerName ast) {a b : String} (hcall : G.NamedCall ast a b) :
    ∃ p, G.Allocated p ∧ G.FunctionNamed ast p a ∧
      ∀ c, G.Allocated c → G.FunctionNamed ast c b →
        c ∈ (G.mergeFunctionMap ast order).callees p := by
  obtain ⟨p, c, hc, hpa, hcb⟩ := hcall.exists_call
  obtain ⟨hp, hc'⟩ := h.edge_allocated p c hc
  refine ⟨p, hp, hpa, fun d hd hdb => ?_⟩
  exact h.mem_callees_of_sameNode order (h.sameNode_of_functionNamed hclass hd hc' hdb hcb) hc

/-- A path of the merged graph, by names. -/
theorem WF.transGen_namedCall (h : WF G) (hall : G.AllFunctions ast) {n m : NodeRef} {a : String}
    (hna : G.FunctionNamed ast n a)
    (hpath : Relation.TransGen (fun p c => c ∈ (G.mergeFunctionMap ast order).callees p ∧
      ¬ (G.mergeFunctionMap ast order).SameName ast p c) n m) :
    ∃ b, G.FunctionNamed ast m b ∧ Relation.TransGen (G.NamedCall ast) a b := by
  obtain ⟨h', hs⟩ := h.mergeFunctionMap ast order
  -- a callee is a function, and a call of another name is one of the names
  have hstep : ∀ {p c : NodeRef} {a : String}, G.FunctionNamed ast p a →
      c ∈ (G.mergeFunctionMap ast order).callees p →
      ¬ (G.mergeFunctionMap ast order).SameName ast p c →
      ∃ b, G.FunctionNamed ast c b ∧ G.NamedCall ast a b := by
    intro p c a hpa hc hname
    obtain ⟨b, hcb⟩ :=
      (h.allFunctions_mergeFunctionMap.mpr hall).exists_name (h'.isFunctionNode_of_mem hc)
    rw [sameName_iff (hs.functionNamed_iff.mpr hpa) hcb] at hname
    have hcb' := hs.functionNamed_iff.mp hcb
    exact ⟨b, hcb', h.namedCall_of_mem_callees hall hc hpa hcb' hname⟩
  induction hpath with
  | single hc =>
    obtain ⟨b, hcb, hcall⟩ := hstep hna hc.1 hc.2
    exact ⟨b, hcb, .single hcall⟩
  | tail _ hc ih =>
    obtain ⟨b, hpb, hpath⟩ := ih
    obtain ⟨d, hcd, hcall⟩ := hstep hpb hc.1 hc.2
    exact ⟨d, hcd, hpath.tail hcall⟩

/-- A path of names, from a function of the first name to all functions of the last. -/
theorem WF.exists_transGen_of_namedCall (h : WF G) (order : G.Enumeration)
    (hclass : G.OneClassPerName ast) {a b : String}
    (hpath : Relation.TransGen (G.NamedCall ast) a b) :
    ∃ p, G.Allocated p ∧ G.FunctionNamed ast p a ∧
      ∀ c, G.Allocated c → G.FunctionNamed ast c b →
        Relation.TransGen (fun p c => c ∈ (G.mergeFunctionMap ast order).callees p ∧
          ¬ (G.mergeFunctionMap ast order).SameName ast p c) p c := by
  obtain ⟨-, hs⟩ := h.mergeFunctionMap ast order
  have hfollow : ∀ {p c : NodeRef} {a b : String}, G.NamedCall ast a b →
      G.FunctionNamed ast p a → G.FunctionNamed ast c b →
      ¬ (G.mergeFunctionMap ast order).SameName ast p c := by
    intro p c a b hcall hpa hcb
    rw [sameName_iff (hs.functionNamed_iff.mpr hpa) (hs.functionNamed_iff.mpr hcb)]
    exact hcall.name_ne
  induction hpath using Relation.TransGen.head_induction_on with
  | single hcall =>
    obtain ⟨p, hp, hpa, hmem⟩ := h.mem_callees_of_namedCall order hclass hcall
    exact ⟨p, hp, hpa, fun c hc hcb => .single ⟨hmem c hc hcb, hfollow hcall hpa hcb⟩⟩
  | head hcall _ ih =>
    obtain ⟨p, hp, hpa, hmem⟩ := h.mem_callees_of_namedCall order hclass hcall
    obtain ⟨q, hq, hqb, hpath⟩ := ih
    exact ⟨p, hp, hpa, fun c hc hcb =>
      .head ⟨hmem q hq hqb, hfollow hcall hpa hqb⟩ (hpath c hc hcb)⟩

/-- A path of the merged graph that is followed comes to a function. -/
theorem WF.isFunctionNode_of_transGen (h : WF G) {n m : NodeRef}
    (hpath : Relation.TransGen (fun p c => c ∈ (G.mergeFunctionMap ast order).callees p ∧
      ¬ (G.mergeFunctionMap ast order).SameName ast p c) n m) :
    (G.mergeFunctionMap ast order).IsFunctionNode m := by
  obtain ⟨p, -, hpm⟩ := Relation.TransGen.tail'_iff.mp hpath
  exact (h.mergeFunctionMap ast order).1.isFunctionNode_of_mem hpm.1

/-- **The names decide whether there is a cycle**: no cycle of the merged graph leads through
functions of different names if no cycle of names is called, and only then if methods of one name
are of one class. -/
theorem WF.acyclic_mergeFunctionMap_iff (h : WF G) (order : G.Enumeration)
    (hall : G.AllFunctions ast) (hclass : G.OneClassPerName ast) :
    (∀ n, ¬ Relation.TransGen (fun p c => c ∈ (G.mergeFunctionMap ast order).callees p ∧
      ¬ (G.mergeFunctionMap ast order).SameName ast p c) n n) ↔
    ∀ a, ¬ Relation.TransGen (G.NamedCall ast) a a := by
  obtain ⟨-, hs⟩ := h.mergeFunctionMap ast order
  refine ⟨fun hacyclic a hcycle => ?_, fun hacyclic n hcycle => ?_⟩
  · obtain ⟨p, hp, hpa, hpath⟩ := h.exists_transGen_of_namedCall order hclass hcycle
    exact hacyclic p (hpath p hp hpa)
  · obtain ⟨a, hna⟩ := (h.allFunctions_mergeFunctionMap.mpr hall).exists_name
      (h.isFunctionNode_of_transGen hcycle)
    have hna' := hs.functionNamed_iff.mp hna
    obtain ⟨b, hnb, hpath⟩ := h.transGen_namedCall hall hna' hcycle
    obtain rfl := hna'.eq hnb
    exact hacyclic a hpath

end Merge

end CallGraph

end FindBoundary
