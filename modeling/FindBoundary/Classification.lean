import FindBoundary.Termination

/-!
# What is classified

`traverseFunction` enters definitions into `funcPackageMap`. The root calls every node and has no
name, so the loop at the root alone comes to every definition; and whatever node the recursion is
at, it enters the definition of a node, with the package of its file.
-/

namespace FindBoundary

open Descent

namespace CallGraph

variable {ast : ASTContext} {G : CallGraph} {m : FuncPackageMap}

/-! ## Every definition is classified -/

/-- Every entry of `m` is kept in `m'`. -/
def MapKeptIn (m m' : FuncPackageMap) : Prop :=
  ∀ (D : Decl) (package : String), m[D]? = some package → m'[D]? = some package

theorem mapKeptIn_insertIfNew (m : FuncPackageMap) (D : Decl) (package : String) :
    MapKeptIn m (m.insertIfNew D package) := by
  intro D' package' h
  rw [Std.TreeMap.getElem?_insertIfNew, if_neg]
  · exact h
  · rintro ⟨hD, hnot⟩
    cases Nat.compare_eq_eq.mp hD
    exact hnot (Std.TreeMap.isSome_getElem?_iff_mem.mp (by rw [h]; rfl))

/-- If `c` is a definition with a name of its own, it is in the map. -/
def Classified (G : CallGraph) (ast : ASTContext) (p c : NodeRef) (m : FuncPackageMap) : Prop :=
  ¬ G.SameName ast p c → ∀ tmp, ast.asFunctionDecl (G.decl c) = some tmp →
    (ast.info tmp).isThisDeclarationADefinition = true → ∃ package, m[tmp]? = some package

/-- A turn of `traverseFunction` enters its callee, if that is a definition and not skipped, or
nothing. -/
theorem traverseFunctionBody_eq_ok {p c : NodeRef} {l l' : Unit} {m m' : FuncPackageMap}
    (hbody : (G.traverseFunction ast).Step p c l m l' m') :
    ∃ tmp, ast.asFunctionDecl (G.decl c) = some tmp ∧
      (((G.SameName ast p c ∨ (ast.info tmp).isThisDeclarationADefinition = false) ∧ m' = m) ∨
        (ast.info tmp).isThisDeclarationADefinition = true ∧
          m' = m.insertIfNew tmp (packageOf (ast.info tmp).filename)) := by
  cases hc : ast.asFunctionDecl (G.decl c) with
  | none =>
    have herror := traverseFunctionBody_of_none p l m hc
    rcases hbody with hbody | hbody <;> cases herror.symm.trans hbody
  | some tmp =>
    refine ⟨tmp, rfl, ?_⟩
    rcases traverseFunctionBody_cases p l m hc with ⟨hname, hnext⟩ | ⟨-, hinto⟩
    · rcases hbody with hbody | hbody
      · cases hnext.symm.trans hbody
        exact Or.inl ⟨Or.inl hname, rfl⟩
      · cases hnext.symm.trans hbody
    · rcases hbody with hbody | hbody
      · cases hinto.symm.trans hbody
      · cases hinto.symm.trans hbody
        cases hdef : (ast.info tmp).isThisDeclarationADefinition with
        | true => exact Or.inr ⟨rfl, if_pos rfl⟩
        | false => exact Or.inl ⟨Or.inr rfl, if_neg Bool.false_ne_true⟩

/-- A turn of `traverseFunction` keeps the entries and classifies its own callee. -/
theorem classified_traverseFunctionBody {p c : NodeRef} {l l' : Unit} {m m' : FuncPackageMap}
    (hbody : (G.traverseFunction ast).Step p c l m l' m') :
    MapKeptIn m m' ∧ G.Classified ast p c m' := by
  obtain ⟨tmp, hc, ⟨hskip, rfl⟩ | ⟨hdef, rfl⟩⟩ := traverseFunctionBody_eq_ok hbody
  · refine ⟨fun _ _ h => h, fun hne tmp' htmp' hdef => ?_⟩
    obtain rfl := Option.some.inj (hc.symm.trans htmp')
    rcases hskip with hname | hnot
    · exact absurd hname hne
    · cases hdef.symm.trans hnot
  · refine ⟨mapKeptIn_insertIfNew m tmp _, fun _ tmp' htmp' _ => ?_⟩
    obtain rfl := Option.some.inj (hc.symm.trans htmp')
    exact Option.isSome_iff_exists.mp
      (Std.TreeMap.isSome_getElem?_iff_mem.mpr Std.TreeMap.mem_insertIfNew_self)

/-- **Every definition is classified.** -/
theorem WF.classified_traverseFunction (h : WF G) {fuel : ℕ} {m m' : FuncPackageMap}
    (hret : (G.traverseFunction ast).descend fuel G.root m = .ok m') {n : NodeRef} {D : Decl}
    (hn : G.Allocated n) (hD : ast.asFunctionDecl (G.decl n) = some D)
    (hdef : (ast.info D).isThisDeclarationADefinition = true) :
    ∃ package, m'[D]? = some package := by
  have hcovers := Traversal.descend_covers traverseFunction_uniform (L := fun _ _ => True)
    (M := G.Classified ast) (fun _ _ _ hE => hE) (fun _ _ _ h₁ h₂ D v hv => h₂ D v (h₁ D v hv))
    (fun p c m m' hle hclass hne tmp htmp hdef => by
      obtain ⟨package, hp⟩ := hclass hne tmp htmp hdef
      exact ⟨package, hle tmp package hp⟩)
    (fun _ => trivial)
    (fun p c l s l' s' _ hbody => ⟨trivial, classified_traverseFunctionBody hbody⟩) hret
  have hroot : n ≠ G.root := by
    rintro rfl
    rw [h.decl_root] at hD
    cases hD
  exact hcovers.2 G.root .refl n (h.mem_callees_root hn hroot) (h.not_sameName_root n) D hD hdef

/-! ## Nothing else is -/

/-- The entries of the map are the definitions of nodes, each with the package of its file. -/
def Entered (G : CallGraph) (ast : ASTContext) (m : FuncPackageMap) : Prop :=
  ∀ (D : Decl) (package : String), m[D]? = some package →
    (∃ n, G.Allocated n ∧ ast.asFunctionDecl (G.decl n) = some D) ∧
      (ast.info D).isThisDeclarationADefinition = true ∧ package = packageOf (ast.info D).filename

theorem Entered.insertIfNew (hm : G.Entered ast m) {n : NodeRef} {tmp : Decl}
    (hn : G.Allocated n) (htmp : ast.asFunctionDecl (G.decl n) = some tmp)
    (hdef : (ast.info tmp).isThisDeclarationADefinition = true) :
    G.Entered ast (m.insertIfNew tmp (packageOf (ast.info tmp).filename)) := by
  intro D package hD
  rcases FuncPackageMap.getElem?_insertIfNew hD with ⟨rfl, rfl⟩ | hD
  · exact ⟨⟨n, hn, htmp⟩, hdef, rfl⟩
  · exact hm D package hD

/-- A turn of `traverseFunction` enters at most the definition of its own callee. -/
theorem entered_traverseFunctionBody (hm : G.Entered ast m) {p c : NodeRef} (hc : G.Allocated c)
    {l l' : Unit} {m' : FuncPackageMap} (hbody : (G.traverseFunction ast).Step p c l m l' m') :
    G.Entered ast m' := by
  obtain ⟨tmp, htmp, ⟨-, rfl⟩ | ⟨hdef, rfl⟩⟩ := traverseFunctionBody_eq_ok hbody
  · exact hm
  · exact hm.insertIfNew hc htmp hdef

/-- **Only definitions of nodes are entered.** -/
theorem WF.entered_traverseFunction (h : WF G) {fuel : ℕ} {p : NodeRef} {m m' : FuncPackageMap}
    (hm : G.Entered ast m) (hret : (G.traverseFunction ast).descend fuel p m = .ok m') :
    G.Entered ast m' := by
  refine Traversal.descend_invariant (P := G.Entered ast) ?_ hm hret
  intro p c hc l m l' m' hm hbody
  exact entered_traverseFunctionBody hm (h.edge_allocated p c hc).2 hbody

/-- From an empty map, what is entered are the definitions of nodes, with the packages of their
files. -/
theorem WF.getElem?_traverseFunction_iff (h : WF G) {fuel : ℕ}
    (hret : (G.traverseFunction ast).descend fuel G.root ∅ = .ok m) {D : Decl} {package : String} :
    m[D]? = some package ↔
      (∃ n, G.Allocated n ∧ ast.asFunctionDecl (G.decl n) = some D) ∧
        (ast.info D).isThisDeclarationADefinition = true ∧
        package = packageOf (ast.info D).filename := by
  have hentered : G.Entered ast m :=
    h.entered_traverseFunction (fun D package hD => by simp at hD) hret
  refine ⟨?_, ?_⟩
  · exact hentered D package
  · rintro ⟨⟨n, hn, hD⟩, hdef, rfl⟩
    obtain ⟨package, hpackage⟩ := h.classified_traverseFunction hret hn hD hdef
    rw [hpackage, (hentered D package hpackage).2.2]

/-- When the traversal has returned, the functions with nodes are the declarations of the nodes
other than the root. -/
theorem WF.exists_asFunctionDecl_iff (h : WF G) {fuel : ℕ}
    (hret : (G.traverseFunction ast).descend fuel G.root ∅ = .ok m) {D : Decl} :
    (∃ n, G.Allocated n ∧ ast.asFunctionDecl (G.decl n) = some D) ↔
      ∃ n, G.IsFunctionNode n ∧ G.decl n = some D := by
  have hfunctions := ((h.traverseFunction_returns_iff ∅).mp ⟨fuel, m, hret⟩).1
  refine ⟨?_, ?_⟩
  · rintro ⟨n, hn, hD⟩
    obtain ⟨hdecl, -⟩ := ASTContext.asFunctionDecl_eq_some.mp hD
    refine ⟨n, ⟨hn, ?_⟩, hdecl⟩
    rintro rfl
    rw [h.decl_root] at hdecl
    cases hdecl
  · rintro ⟨n, hn, hdecl⟩
    obtain ⟨D', hD'⟩ := Option.isSome_iff_exists.mp (hfunctions n hn)
    obtain ⟨hdecl', -⟩ := ASTContext.asFunctionDecl_eq_some.mp hD'
    obtain rfl := Option.some.inj (hdecl.symm.trans hdecl')
    exact ⟨n, hn.allocated, hD'⟩

/-- **What is classified**: the definitions among the declarations that have a node, each in the
package of its own file. Nothing else about the graph matters: if the same declarations have nodes
in another one, whatever its edges and their order, its map has the same entries. -/
theorem WF.traverseFunction_exact (h : WF G) {fuel : ℕ}
    (hret : (G.traverseFunction ast).descend fuel G.root ∅ = .ok m) :
    (∀ D, D ∈ m ↔ (∃ n, G.IsFunctionNode n ∧ G.decl n = some D) ∧
      (ast.info D).isThisDeclarationADefinition = true) ∧
    (∀ D ∈ m, m[D]? = some (packageOf (ast.info D).filename)) ∧
    ∀ {G' : CallGraph} {fuel' : ℕ} {m' : FuncPackageMap}, WF G' →
      (∀ D, (∃ n, G'.IsFunctionNode n ∧ G'.decl n = some D) ↔
        ∃ n, G.IsFunctionNode n ∧ G.decl n = some D) →
      (G'.traverseFunction ast).descend fuel' G'.root ∅ = .ok m' → m'.toList = m.toList := by
  refine ⟨fun D => ?_, fun D hD => ?_, fun {G' fuel' m'} h' hnodes hret' => ?_⟩
  · rw [← Std.TreeMap.isSome_getElem?_iff_mem, Option.isSome_iff_exists]
    simp only [h.getElem?_traverseFunction_iff hret, h.exists_asFunctionDecl_iff hret,
      exists_and_left, exists_eq, and_true]
  · obtain ⟨package, hpackage⟩ :=
      Option.isSome_iff_exists.mp (Std.TreeMap.isSome_getElem?_iff_mem.mpr hD)
    rw [hpackage, ((h.getElem?_traverseFunction_iff hret).mp hpackage).2.2]
  · refine Std.TreeMap.Equiv.toList_eq (Std.TreeMap.Equiv.of_forall_constGet?_eq fun D => ?_)
    refine Option.ext fun package => ?_
    rw [h.getElem?_traverseFunction_iff hret, h'.getElem?_traverseFunction_iff hret',
      h.exists_asFunctionDecl_iff hret, h'.exists_asFunctionDecl_iff hret', hnodes]

/-- Two functions, of which only one is defined. -/
def oneDefinition : ASTContext :=
  .ofTable [(DeclInfo.definition "f" [1]).inFile "fs/f.c", .declaration "g"]

/-- Not vacuous: the definition is classified. -/
theorem traverseFunction_exact_oneDefinition :
    let G := ofUnits oneDefinition [[0]]
    ∃ m : FuncPackageMap, (G.traverseFunction oneDefinition).descend 3 G.root ∅ = .ok m ∧
      0 ∈ m ∧ m[0]? = some (packageOf "fs/f.c") := by
  intro G
  let m : FuncPackageMap :=
    ((G.traverseFunction oneDefinition).descend 3 G.root ∅).toOption.getD ∅
  have hm : (G.traverseFunction oneDefinition).descend 3 G.root ∅ = .ok m :=
    eq_ok_getD ∅ (by decide +kernel)
  obtain ⟨hkeys, hpackages, -⟩ := (wf_ofUnits oneDefinition [[0]]).traverseFunction_exact hm
  have hnode : G.IsFunctionNode 1 := ⟨show 1 < G.next by decide +kernel, by decide +kernel⟩
  have hmem : 0 ∈ m := (hkeys 0).mpr ⟨⟨1, hnode, by decide +kernel⟩, rfl⟩
  exact ⟨m, hm, hmem, hpackages 0 hmem⟩

end CallGraph

end FindBoundary
