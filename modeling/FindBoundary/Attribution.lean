import FindBoundary.HashOrder

/-!
# Calls the merge attributes to others

Two things the matching rule is meant to keep apart, each with the exact condition on the unmerged
graph under which no order mixes them up:

* a call of a method of one class is not a call of the method of that name of another class
  (`WF.mergeFunctionMap_classes_iff`). A function of that name that is no method matches both, and
  passes callers on;
* a definition calls what its body calls (`mergeFunctionMap_definitions_iff`). The merge takes a
  node without callees for a declaration, and a definition whose body calls nothing is one.
-/

namespace FindBoundary

namespace CallGraph

variable {ast : ASTContext} {G : CallGraph}

/-! ## Methods of different classes -/

/-- Some node labelled like `p` calls something that has the name of the method `M` and is not a
method of a class of another name. -/
def CallsMethod (G : CallGraph) (ast : ASTContext) (p : NodeRef) (M : Decl) : Prop :=
  ∃ p' q D, G.label ast p' = G.label ast p ∧ q ∈ G.callees p' ∧
    ast.asNamedDecl (G.decl q) = some D ∧ ast.name D = ast.name M ∧
    ∀ M', ast.asCXXMethodDecl (G.decl q) = some M' →
      (ast.info M').parentName = (ast.info M).parentName

theorem CallsMethod.of_label_eq {p p' : NodeRef} {M : Decl} (h : G.CallsMethod ast p' M)
    (hlabel : G.label ast p' = G.label ast p) : G.CallsMethod ast p M := by
  obtain ⟨p'', q, D, hp'', hrest⟩ := h
  exact ⟨p'', q, D, hp''.trans hlabel, hrest⟩

/-- A caller of the method, or of a node that it matches, calls the method in this sense. -/
theorem CallsMethod.of_sameNode {p n q : NodeRef} {M : Decl}
    (hM : ast.asCXXMethodDecl (G.decl n) = some M) (hnq : G.SameNode ast n q)
    (hq : q ∈ G.callees p) : G.CallsMethod ast p M := by
  obtain ⟨hdecl, hkind⟩ := ASTContext.asCXXMethodDecl_eq_some.mp hM
  rcases hnq with rfl | hnq
  · have hnamed : (ast.info M).kind.isNamedDecl = true := by
      cases hk : (ast.info M).kind <;> simp_all [DeclKind.isCXXMethodDecl, DeclKind.isNamedDecl]
    refine ⟨p, n, M, rfl, hq, ASTContext.asNamedDecl_eq_some.mpr ⟨hdecl, hnamed⟩, rfl, ?_⟩
    intro M' hM'
    obtain rfl := Option.some.inj (hM.symm.trans hM')
    rfl
  · obtain ⟨D, D2, hD, hD2, hname, hclass⟩ := ASTContext.matches_iff_cast.mp hnq.2.2
    obtain ⟨hdecl', -⟩ := ASTContext.asNamedDecl_eq_some.mp hD
    obtain rfl : M = D := Option.some.inj (hdecl.symm.trans hdecl')
    exact ⟨p, q, D2, rfl, hq, hD2, hname.symm, fun M' hM' => (hclass M M' hM hM').symm⟩

/-- **When classes are kept apart**: in no order does the merge make `p` a caller of a method that
nothing of `p`'s label called, exactly when this holds of every `p` that calls a node two matches
away from the method and not matched with it. -/
theorem WF.mergeFunctionMap_classes_iff (h : WF G) :
    (∀ (order : G.Enumeration) (p n : NodeRef) (M : Decl),
      ast.asCXXMethodDecl (G.decl n) = some M →
        n ∈ (G.mergeFunctionMap ast order).callees p → G.CallsMethod ast p M) ↔
    ∀ (n g y p : NodeRef) (M : Decl), ast.asCXXMethodDecl (G.decl n) = some M →
      G.NodeMatches ast n g → G.NodeMatches ast g y → ¬ G.NodeMatches ast n y →
        y ∈ G.callees p → G.CallsMethod ast p M := by
  refine ⟨?_, ?_⟩
  · intro hall n g y p M hM hng hgy _ hy
    obtain ⟨order, horder⟩ := h.exists_relay hng hgy
    exact hall order p n M hM (horder p hy)
  · intro hrelay order p n M hM hn
    obtain ⟨o, y, hpo, hny, hy⟩ := h.linked_of_mem_callees hn
    have hcalls : G.CallsMethod ast o M := by
      rcases hny.short with hny | ⟨g, hng, hgy⟩
      · exact .of_sameNode hM hny hy
      · by_cases hdirect : G.NodeMatches ast n y
        · exact .of_sameNode hM (Or.inr hdirect) hy
        · exact hrelay n g y o M hM hng hgy hdirect hy
    exact hcalls.of_label_eq hpo.label_eq.symm

/-- A method `f` of class `A`, one of class `B`, a function `f` that is no method, and `main`. -/
def namesakes (calls : List Decl) : ASTContext :=
  .ofTable [(DeclInfo.definition "f" []).inClass "A", (DeclInfo.definition "f" []).inClass "B",
    .definition "f" [], .definition "main" calls]

/-- Not vacuous: if `main` calls both methods, nothing leaks. -/
theorem mergeFunctionMap_classes_namesakes :
    (ofUnits (namesakes [0, 1]) [[0, 1, 2, 3]]).CallsMethod (namesakes [0, 1]) 4 0 := by
  let G := ofUnits (namesakes [0, 1]) [[0, 1, 2, 3]]
  have hwf : WF G := wf_ofUnits _ _
  have hnext : G.next = 5 := by decide +kernel
  have hmethod : ∀ n ∈ List.range 5,
      ((namesakes [0, 1]).asCXXMethodDecl (G.decl n)).isSome → n = 1 ∨ n = 2 := by decide +kernel
  have hpair : ∀ y ∈ List.range 5, G.label (namesakes [0, 1]) y = .inl "f" →
      y = 1 ∨ y = 2 ∨ y = 3 := by decide +kernel
  have hboth : ∀ p ∈ List.range 5, (1 ∈ G.callees p ↔ 2 ∈ G.callees p) := by decide +kernel
  have hlabel : ∀ n ∈ [1, 2], G.label (namesakes [0, 1]) n = .inl "f" ∧
      G.NodeMatches (namesakes [0, 1]) n 3 := by decide +kernel
  refine hwf.mergeFunctionMap_classes_iff.mpr ?_ (.reverse G) 4 1 0 (by decide +kernel)
    (by decide +kernel)
  intro n g y p M hM hng hgy hny hy
  have hrange : ∀ x, G.Allocated x → x ∈ List.range 5 := fun x hx =>
    List.mem_range.mpr (hnext ▸ hx)
  have hn := hmethod n (hrange n hng.1) (Option.isSome_iff_exists.mpr ⟨M, hM⟩)
  obtain ⟨hname, hthree⟩ := hlabel n (by simpa using hn)
  have hy' := hpair y (hrange y hgy.2.1) (by rw [← hgy.label_eq, ← hng.label_eq, hname])
  have hp := hboth p (hrange p (hwf.edge_allocated p y hy).1)
  have hcalls : n ∈ G.callees p := by
    rcases hn with rfl | rfl <;> rcases hy' with rfl | rfl | rfl
    · exact hy
    · exact hp.mpr hy
    · exact absurd hthree hny
    · exact hp.mp hy
    · exact hy
    · exact absurd hthree hny
  exact .of_sameNode hM (Or.inl rfl) hcalls

/-- If `main` calls the method of `B` only, an order that meets the function that is no method
first makes `main` call the method of `A`. -/
theorem mergeFunctionMap_namesakes_leak :
    let G := ofUnits (namesakes [1]) [[0, 1, 2, 3]]
    WF G ∧ ¬ ∀ (order : G.Enumeration) (p n : NodeRef) (M : Decl),
      (namesakes [1]).asCXXMethodDecl (G.decl n) = some M →
        n ∈ (G.mergeFunctionMap (namesakes [1]) order).callees p →
          G.CallsMethod (namesakes [1]) p M := by
  intro G
  have hwf : WF G := wf_ofUnits _ _
  refine ⟨hwf, fun hall => ?_⟩
  obtain ⟨p', q, D, hlabel, hq, -, -, hclass⟩ :=
    hall (.reverse G) 4 1 0 (by decide +kernel) (by decide +kernel)
  have hnext : G.next = 5 := by decide +kernel
  have hmain : ∀ p' ∈ List.range 5, G.label (namesakes [1]) p' = G.label (namesakes [1]) 4 →
      G.callees p' = [2] := by decide +kernel
  rw [hmain p' (List.mem_range.mpr (hnext ▸ (hwf.edge_allocated p' q hq).1)) hlabel] at hq
  obtain rfl := List.mem_singleton.mp hq
  exact absurd (hclass 1 (by decide +kernel)) (by decide +kernel)

/-! ## Definitions that were walked -/

/-- The names of the functions that `p` calls. -/
def calleeNames (G : CallGraph) (ast : ASTContext) (p : NodeRef) : Set String :=
  {name | ∃ x ∈ G.callees p, ∃ D, ast.asNamedDecl (G.decl x) = some D ∧ ast.name D = name}

theorem mem_calleeNames_iff {p : NodeRef} {name : String} :
    name ∈ G.calleeNames ast p ↔ ∃ x ∈ G.callees p, G.label ast x = .inl name := by
  refine exists_congr fun x => and_congr_right fun _ => ?_
  simp only [label]
  rcases ast.asNamedDecl (G.decl x) with _ | D
  · simp
  · simp

theorem calleeNames_of_nil {p : NodeRef} (hp : G.callees p = []) : G.calleeNames ast p = ∅ := by
  refine Set.eq_empty_iff_forall_notMem.mpr fun name hname => ?_
  obtain ⟨x, hx, -⟩ := hname
  rw [hp] at hx
  exact List.not_mem_nil hx

/-- Up to names, a node ends with the callees of its origin. -/
theorem WF.calleeNames_of_filledOrigin (h : WF G) {order : G.Enumeration} {p o : NodeRef}
    (ho : filledOrigin ast order p = some o) :
    (G.mergeFunctionMap ast order).calleeNames ast p = G.calleeNames ast o := by
  obtain ⟨-, hs⟩ := h.mergeFunctionMap ast order
  ext name
  rw [mem_calleeNames_iff, mem_calleeNames_iff]
  refine ⟨?_, ?_⟩
  · rintro ⟨x, hx, hname⟩
    obtain ⟨o', ho', hox⟩ := (h.mem_callees_mergeFunctionMap order).mp hx
    obtain rfl := Option.some.inj (ho.symm.trans ho')
    obtain ⟨y, hxy, hy⟩ := h.gossipedCallers_linked hox
    rw [hs.label_eq, hxy.label_eq] at hname
    exact ⟨y, hy, hname⟩
  · rintro ⟨x, hx, hname⟩
    refine ⟨x, (h.mem_callees_mergeFunctionMap order).mpr
      ⟨o, ho, h.mem_gossipedCallers order (Or.inl rfl) hx⟩, ?_⟩
    rw [hs.label_eq, hname]

theorem WF.calleeNames_of_filledOrigin_none (h : WF G) {order : G.Enumeration} {p : NodeRef}
    (hp : filledOrigin ast order p = none) :
    (G.mergeFunctionMap ast order).calleeNames ast p = ∅ :=
  calleeNames_of_nil (((h.simulates_mergeFunctionMap order).callees_eq_nil_iff p).mpr hp)

/-- A node keeps the names of its callees in all orders exactly when it has callees or none of its
sources calls anything that has a name. -/
theorem WF.calleeNames_stable_iff (h : WF G) (p : NodeRef) :
    (∀ order : G.Enumeration,
      (G.mergeFunctionMap ast order).calleeNames ast p = G.calleeNames ast p) ↔
    (G.callees p ≠ [] ∨ ∀ y, G.Source ast p y → G.calleeNames ast y = ∅) := by
  refine ⟨?_, ?_⟩
  · intro hstable
    refine or_iff_not_imp_left.mpr fun hp y hy => ?_
    have hnil : G.callees p = [] := not_not.mp hp
    obtain ⟨order, ho⟩ := h.exists_filledOrigin hnil hy
    rw [← h.calleeNames_of_filledOrigin ho, hstable order, calleeNames_of_nil hnil]
  · rintro hp order
    rcases ho : filledOrigin ast order p with _ | o
    · have hnil : G.callees p = [] := by
        by_contra hne
        rw [h.filledOrigin_self ast order hne] at ho
        cases ho
      rw [h.calleeNames_of_filledOrigin_none ho, calleeNames_of_nil hnil]
    · rw [h.calleeNames_of_filledOrigin ho]
      rcases hnil : G.callees p with _ | ⟨x, l⟩
      · have hsources := hp.resolve_left fun hne => hne hnil
        rw [hsources o (h.source_of_filledOrigin hnil ho), calleeNames_of_nil hnil]
      · have hne : G.callees p ≠ [] := List.ne_nil_of_mem (hnil ▸ List.mem_cons_self ..)
        rw [h.filledOrigin_self ast order hne] at ho
        rw [Option.some.inj ho]

/-- The node `n` is that of a function definition whose body was walked when the units were
added. -/
def WalkedDefinition (ast : ASTContext) (units : List (List Decl)) (n : NodeRef) : Prop :=
  ∃ D ∈ walks ast units.flatten new, (ofUnits ast units).getNode (some D) = some n ∧
    (ast.info D).kind.isFunctionDecl = true ∧ (ast.info D).isThisDeclarationADefinition = true

/-- **When the merge leaves definitions alone**: in all orders every walked definition ends with
the callee names its own body gave it, exactly when each of them has callees or has only sources
that call nothing that has a name. -/
theorem mergeFunctionMap_definitions_iff (ast : ASTContext) (units : List (List Decl)) :
    (∀ (order : (ofUnits ast units).Enumeration) (n : NodeRef), WalkedDefinition ast units n →
      ((ofUnits ast units).mergeFunctionMap ast order).calleeNames ast n =
        (ofUnits ast units).calleeNames ast n) ↔
    ∀ n, WalkedDefinition ast units n → (ofUnits ast units).callees n ≠ [] ∨
      ∀ y, (ofUnits ast units).Source ast n y → (ofUnits ast units).calleeNames ast y = ∅ := by
  have h := wf_ofUnits ast units
  refine ⟨?_, ?_⟩
  · intro hall n hn
    exact (h.calleeNames_stable_iff n).mp fun order => hall order n hn
  · intro hall order n hn
    exact (h.calleeNames_stable_iff n).mpr (hall n hn) order

/-- Two units with a function `f` each: one calls `a`, the other nothing. -/
def leafNamesake : ASTContext :=
  .ofTable [.definition "a" [], .definition "f" [0], .definition "f" []]

/-- The second `f` comes to call `a`. -/
theorem mergeFunctionMap_leafNamesake :
    let G := ofUnits leafNamesake [[0, 1], [2]]
    ¬ ∀ (order : G.Enumeration) (n : NodeRef), WalkedDefinition leafNamesake [[0, 1], [2]] n →
      (G.mergeFunctionMap leafNamesake order).calleeNames leafNamesake n =
        G.calleeNames leafNamesake n := by
  intro G hall
  have hwalked : WalkedDefinition leafNamesake [[0, 1], [2]] 3 :=
    ⟨2, by decide +kernel, by decide +kernel, by decide +kernel, by decide +kernel⟩
  have hnames := hall (.self G) 3 hwalked
  have hleaf : G.calleeNames leafNamesake 3 = ∅ := calleeNames_of_nil (by decide +kernel)
  have hmem : "a" ∈ (G.mergeFunctionMap leafNamesake (.self G)).calleeNames leafNamesake 3 :=
    ⟨1, by decide +kernel, 0, by decide +kernel, by decide +kernel⟩
  rw [hnames, hleaf] at hmem
  exact hmem

end CallGraph

end FindBoundary
