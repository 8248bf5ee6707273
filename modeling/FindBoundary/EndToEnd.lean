import FindBoundary.Commute
import FindBoundary.Margin
import FindBoundary.Messages
import FindBoundary.Recorded
import FindBoundary.Tool

/-!
# What the reports say of the program

The margin and the report of root callers are made from the merged graph. Here they are taken back
to what was built of the units: a pair in the margin goes back to a call in a body that has been
walked (`margin_backed`), and where methods of one name are of one class, the callers in the margin
and the report are decided by names (`margin_iff`, `rootFunctions_iff`). So as long as the
declarations keep their addresses, which `findRootCaller` goes through in order, the report depends
neither on the order of the hash map nor on that in which the files are added
(`printRootCaller_orderFree`).
-/

namespace FindBoundary

/-! ## From edges to statements -/

namespace View

open CallGraph

variable {ast : ASTContext} {v : View} {D E : Decl}

/-- What is called after some walks was called before, or is requested in a body that is walked. -/
theorem requested_of_mem_calleesOf (Es : List Decl)
    (hD : some D ∈ (Es.foldl (fun v E => v.walk ast E) v).calleesOf E) :
    some D ∈ v.calleesOf E ∨ (E ∈ Es ∧ ∃ r ∈ bodyRequests ast E, r.target = D) := by
  induction Es generalizing v with
  | nil => exact Or.inl hD
  | cons F Es ih =>
    rcases ih hD with hD | ⟨hE, hrequested⟩
    · rcases eq_or_ne E F with rfl | hne
      · rcases mem_calleesOf_walk.mp hD with hD | hcall | ⟨hsend, -⟩
        · exact Or.inl hD
        · exact Or.inr ⟨List.mem_cons_self, _, hcall, rfl⟩
        · exact Or.inr ⟨List.mem_cons_self, _, hsend, rfl⟩
      · rw [calleesOf_walk_of_ne hne] at hD
        exact Or.inl hD
    · exact Or.inr ⟨List.mem_cons_of_mem _ hE, hrequested⟩

end View

namespace CallGraph

variable {ast : ASTContext} {G : CallGraph}

/-- The body of `E` has been walked, and a call expression or message send that is visited in it
resolves to `D`. -/
structure CallSite (ast : ASTContext) (units : List (List Decl)) (E D : Decl) : Prop where
  walked : E ∈ walks ast units.flatten new
  exists_statement : ∃ body S, (ast.info E).getBody = some body ∧ S ∈ body.visited ∧
    ResolvesTo ast (some D) S

/-- A request is made at a statement that is visited. -/
theorem exists_statement_of_request {E : Decl} {r : Request} (hr : r ∈ bodyRequests ast E) :
    ∃ body S, (ast.info E).getBody = some body ∧ S ∈ body.visited ∧
      ResolvesTo ast (some r.target) S := by
  rw [bodyRequests] at hr
  rcases hbody : (ast.info E).getBody with _ | body
  · rw [hbody] at hr
    cases hr
  · rw [hbody] at hr
    simp only [requests_eq_filterMap] at hr
    obtain ⟨S, hS, hrequest⟩ := List.mem_filterMap.mp hr
    exact ⟨body, S, rfl, hS, r, hrequest, rfl⟩

/-- **An edge of the graph that is built goes back to a call site.** -/
theorem callSite_of_mem_callees {units : List (List Decl)} {p c : NodeRef} {E : Decl}
    (hE : (ofUnits ast units).decl p = some E) (hc : c ∈ (ofUnits ast units).callees p) :
    ∃ D, (ofUnits ast units).decl c = some D ∧ CallSite ast units E D := by
  have hwf := wf_ofUnits ast units
  obtain ⟨hp, hc'⟩ := hwf.edge_allocated p c hc
  have hp' : p ≠ (ofUnits ast units).root := by
    rintro rfl
    cases hwf.decl_root.symm.trans hE
  obtain ⟨E', hE', hentry⟩ := hwf.exists_entry ⟨hp, hp'⟩
  obtain rfl := Option.some.inj (hE.symm.trans hE')
  obtain ⟨D, hD, -⟩ := hwf.exists_entry (hwf.isFunctionNode_of_mem hc)
  have hmem : some D ∈ (ofUnits ast units).view.calleesOf E := by
    rw [hwf.calleesOf_view hentry]
    exact List.mem_map.mpr ⟨c, hc, hD⟩
  rw [ofUnits_eq, addToCallGraph_eq_foldl, wf_new.view_walkAll] at hmem
  rcases View.requested_of_mem_calleesOf _ hmem with hmem | ⟨hwalked, r, hr, rfl⟩
  · rw [calleesOf_new] at hmem
    cases hmem
  · exact ⟨r.target, hD, hwalked, exists_statement_of_request hr⟩

/-- A label that is a name is that of a declaration. -/
theorem exists_decl_of_label {n : NodeRef} {a : String} (ha : G.label ast n = .inl a) :
    ∃ D, G.decl n = some D ∧ ast.name D = a := by
  rw [label] at ha
  split at ha
  · rename_i D hD
    exact ⟨D, (ASTContext.asNamedDecl_eq_some.mp hD).1, Sum.inl.inj ha⟩
  · cases ha

/-! ## The margin -/

variable {order : G.Enumeration} {fuel : ℕ} {a : Analysis}

/-- When the passes have come to an end, all nodes are those of functions. -/
theorem WF.allFunctions_of_analyse (h : WF G)
    (ha : (G.mergeFunctionMap ast order).analyse ast fuel = .ok a) : G.AllFunctions ast :=
  h.allFunctions_mergeFunctionMap.mp
    (((h.mergeFunctionMap ast order).1.exists_analyse_iff).mp ⟨fuel, a, ha⟩).1

/-- **A pair in the margin is backed by the program**: the two functions are in files of the two
packages, and some function of the name of the caller has a body, which has been walked, with a call
or message send to a function of the name of the callee. No function of that name is reported as a
root caller. -/
theorem margin_backed {units : List (List Decl)} {order : (ofUnits ast units).Enumeration}
    (ha : ((ofUnits ast units).mergeFunctionMap ast order).analyse ast fuel = .ok a)
    {i j : Fin packageNum} {caller callee : Decl}
    (hcall : (a.callRelation i j)[caller]? = some callee) :
    (i ≠ j ∧ packageOf (ast.info caller).filename = keys i ∧
      packageOf (ast.info callee).filename = keys j) ∧
    (∃ E D, ast.name E = ast.name caller ∧ ast.name D = ast.name callee ∧
      CallSite ast units E D) ∧
    ∀ k, ∀ f ∈ a.rootFunctions k, ast.name f ≠ ast.name callee := by
  have h := wf_ofUnits ast units
  obtain ⟨h', hs⟩ := h.mergeFunctionMap ast order
  have hana := analysed_of_analyse ha
  obtain ⟨n₁, hm⟩ := hana.traverseFunction
  obtain ⟨n₂, hrel⟩ := hana.findMargin
  obtain ⟨n₃, hcallees⟩ := hana.findCallee
  obtain ⟨p, c, hfirst, hX⟩ := onlyFirst_findMargin onlyFirst_empty hrel i j caller callee hcall
  obtain ⟨done, rest, hsplit, -⟩ := hfirst
  have hc : c ∈ ((ofUnits ast units).mergeFunctionMap ast order).callees p :=
    hsplit ▸ List.mem_append_right _ (List.mem_cons_self ..)
  refine ⟨⟨hX.package_ne, ?_, ?_⟩, ?_, fun k f hf => ?_⟩
  · exact ((h'.getElem?_traverseFunction_iff hm).mp hX.callerPackage).2.2.symm
  · exact ((h'.getElem?_traverseFunction_iff hm).mp hX.calleePackage).2.2.symm
  · have hcaller : (ofUnits ast units).FunctionNamed ast p (ast.name caller) :=
      hs.functionNamed_iff.mp ⟨caller, hX.caller_eq, rfl⟩
    have hcallee : (ofUnits ast units).FunctionNamed ast c (ast.name callee) :=
      hs.functionNamed_iff.mp ⟨callee, hX.callee_eq, rfl⟩
    obtain ⟨o, y, hpo, hcy, hy⟩ := h.linked_of_mem_callees hc
    obtain ⟨E, hE, hnameE⟩ := exists_decl_of_label (hpo.label_eq.symm.trans hcaller.label_eq)
    obtain ⟨D, hD, hnameD⟩ := exists_decl_of_label (hcy.label_eq.symm.trans hcallee.label_eq)
    obtain ⟨D', hD', hsite⟩ := callSite_of_mem_callees hE hy
    obtain rfl := Option.some.inj (hD.symm.trans hD')
    exact ⟨E, D, hnameE, hnameD, hsite⟩
  · have hcand := ((mem_findRootCaller_iff hana.findRootCaller).mp hf).1
    refine (((h'.candidate_iff hm hcallees).mp hcand).2 callee ?_).symm
    exact ⟨p, c, caller, hc, hX.caller_eq, hX.callee_eq, hX.definition, hX.name_ne⟩

/-- The definitions of a package are the same after the merge. -/
theorem WF.definedIn_mergeFunctionMap (h : WF G) {i : Fin packageNum} {g : Decl} :
    (G.mergeFunctionMap ast order).DefinedIn ast i g ↔ G.DefinedIn ast i g := by
  obtain ⟨-, hs⟩ := h.mergeFunctionMap ast order
  simp only [DefinedIn, hs.decl, hs.allocated_iff]

/-- After the passes the map has the packages of the definitions. -/
theorem WF.getElem?_analyse_iff (h : WF G)
    (ha : (G.mergeFunctionMap ast order).analyse ast fuel = .ok a) {i : Fin packageNum} {g : Decl} :
    a.funcPackageMap[g]? = some (keys i) ↔ G.DefinedIn ast i g := by
  obtain ⟨n₁, hm⟩ := (analysed_of_analyse ha).traverseFunction
  rw [(h.mergeFunctionMap ast order).1.getElem?_traverseFunction_iff hm,
    ← h.definedIn_mergeFunctionMap, DefinedIn, @eq_comm _ (keys i)]

/-- `D`, at the node `p`, is defined in the package `i` and calls a name, other than its own, that a
definition in the package `j` has. -/
structure CallsAcross (G : CallGraph) (ast : ASTContext) (i j : Fin packageNum) (p : NodeRef)
    (D : Decl) : Prop where
  package_ne : i ≠ j
  definedIn : G.DefinedIn ast i D
  exists_callee : ∃ c ∈ G.callees p, ∃ g, G.DefinedIn ast j g ∧
    G.FunctionNamed ast c (ast.name g) ∧ ast.name D ≠ ast.name g

/-- A function that has calls is in the margin only for one of its own. -/
theorem WF.callsAcross_of_margin (h : WF G)
    (ha : (G.mergeFunctionMap ast order).analyse ast fuel = .ok a) {p : NodeRef} {D E : Decl}
    (hD : G.decl p = some D) (hcalls : G.callees p ≠ []) {i j : Fin packageNum}
    (hE : (a.callRelation i j)[D]? = some E) : G.CallsAcross ast i j p D := by
  obtain ⟨h', hs⟩ := h.mergeFunctionMap ast order
  have hall := h.allFunctions_of_analyse ha
  obtain ⟨n₂, hrel⟩ := (analysed_of_analyse ha).findMargin
  have hp : G.Allocated p := by
    obtain ⟨c, hc⟩ := List.exists_mem_of_ne_nil _ hcalls
    exact (h.edge_allocated p c hc).1
  obtain ⟨q, c, ⟨done, rest, hsplit, -⟩, hX⟩ :=
    onlyFirst_findMargin onlyFirst_empty hrel i j D E hE
  have hc : c ∈ (G.mergeFunctionMap ast order).callees q :=
    hsplit ▸ List.mem_append_right _ (List.mem_cons_self ..)
  have hq : q = p := by
    have hdecl := (ASTContext.asFunctionDecl_eq_some.mp hX.caller_eq).1
    refine h'.decl_inj (h'.edge_allocated q c hc).1 ?_ (hdecl.trans ?_)
    · exact hs.allocated_iff.mpr hp
    · rw [hs.decl, hD]
  subst hq
  -- a node with callees is filled from itself, so the call is one of its own
  obtain ⟨o, ho, hoc⟩ := (h.mem_callees_mergeFunctionMap order).mp hc
  obtain rfl := Option.some.inj ((h.filledOrigin_self ast order hcalls).symm.trans ho)
  obtain ⟨y, hcy, hy⟩ := h.gossipedCallers_linked hoc
  have hcE : G.FunctionNamed ast c (ast.name E) :=
    hs.functionNamed_iff.mp ⟨E, hX.callee_eq, rfl⟩
  have hyE : G.FunctionNamed ast y (ast.name E) :=
    functionNamed_of_label (hall y (h.isFunctionNode_of_mem hy))
      (hcy.label_eq.symm.trans hcE.label_eq)
  exact ⟨hX.package_ne, (h.getElem?_analyse_iff ha).mp hX.callerPackage, y, hy, E,
    (h.getElem?_analyse_iff ha).mp hX.calleePackage, hyE, hX.name_ne⟩

/-- A function that calls across is in the margin. -/
theorem WF.margin_of_callsAcross (h : WF G) (hclass : G.OneClassPerName ast)
    (ha : (G.mergeFunctionMap ast order).analyse ast fuel = .ok a) {p : NodeRef} {D : Decl}
    (hD : G.decl p = some D) {i j : Fin packageNum} (hacross : G.CallsAcross ast i j p D) :
    ∃ E, (a.callRelation i j)[D]? = some E := by
  obtain ⟨h', hs⟩ := h.mergeFunctionMap ast order
  obtain ⟨n₂, hrel⟩ := (analysed_of_analyse ha).findMargin
  obtain ⟨hij, hDi, c, hc, g, hgj, hcg, hname⟩ := hacross
  obtain ⟨hp, hc'⟩ := h.edge_allocated p c hc
  obtain ⟨⟨n, hn, hg⟩, hdef, -⟩ := id hgj
  have hsame : G.SameNode ast n c := h.sameNode_of_functionNamed hclass hn hc' ⟨g, hg, rfl⟩ hcg
  have hcall := h.mem_callees_of_sameNode order hsame hc
  obtain ⟨⟨n', hn', hD'⟩, -, -⟩ := id hDi
  obtain rfl : n' = p :=
    h.decl_inj hn' hp ((ASTContext.asFunctionDecl_eq_some.mp hD').1.trans hD.symm)
  rw [← hs.decl] at hg hD'
  exact h'.recorded_findMargin hrel hcall i j D g ⟨hD', hg, hdef, hname,
    (h.getElem?_analyse_iff ha).mpr hDi, (h.getElem?_analyse_iff ha).mpr hgj, hij⟩

/-- **Which callers are in the margin.** If methods of one name are of one class, then a function
that has calls is a caller in the margin between two packages exactly if it is defined in the first
and calls a name, other than its own, that a definition in the second one has. -/
theorem WF.margin_iff (h : WF G) (hclass : G.OneClassPerName ast)
    (ha : (G.mergeFunctionMap ast order).analyse ast fuel = .ok a) {p : NodeRef} {D : Decl}
    (hD : G.decl p = some D) (hcalls : G.callees p ≠ []) (i j : Fin packageNum) :
    (∃ E, (a.callRelation i j)[D]? = some E) ↔ G.CallsAcross ast i j p D :=
  ⟨fun ⟨_, hE⟩ => h.callsAcross_of_margin ha hD hcalls hE, h.margin_of_callsAcross hclass ha hD⟩

/-! ## The root callers -/

/-- `g` is a definition, in whatever package. -/
def HasDefinition (G : CallGraph) (ast : ASTContext) (g : Decl) : Prop :=
  (∃ n, G.Allocated n ∧ ast.asFunctionDecl (G.decl n) = some g) ∧
    (ast.info g).isThisDeclarationADefinition = true

theorem DefinedIn.hasDefinition {i : Fin packageNum} {g : Decl} (hg : G.DefinedIn ast i g) :
    G.HasDefinition ast g := ⟨hg.1, hg.2.1⟩

/-- A definition of the merged graph is called by a function of another name exactly if its name
is. -/
theorem WF.callsDefinition_iff (h : WF G) (hclass : G.OneClassPerName ast)
    (hall : G.AllFunctions ast) {g : Decl} (hg : G.HasDefinition ast g) :
    (∃ d, (G.mergeFunctionMap ast order).CallsDefinition ast d ∧ ast.name d = ast.name g) ↔
      ∃ b, G.NamedCall ast b (ast.name g) := by
  obtain ⟨-, hs⟩ := h.mergeFunctionMap ast order
  refine ⟨?_, ?_⟩
  · rintro ⟨d, ⟨p, c, caller, hc, hcaller, hcallee, -, hname⟩, hdg⟩
    rw [hs.decl] at hcaller hcallee
    rw [hdg] at hname
    exact ⟨ast.name caller, h.namedCall_of_mem_callees hall hc ⟨caller, hcaller, rfl⟩
      ⟨d, hcallee, hdg⟩ hname⟩
  · rintro ⟨b, hcall⟩
    obtain ⟨⟨n, hn, hgn⟩, hdef⟩ := hg
    obtain ⟨p, -, ⟨caller, hcaller, rfl⟩, hmem⟩ := h.mem_callees_of_namedCall order hclass hcall
    rw [← hs.decl] at hcaller
    refine ⟨g, ⟨p, n, caller, hmem n hn ⟨g, hgn, rfl⟩, hcaller, ?_, hdef, hcall.name_ne⟩, rfl⟩
    rw [hs.decl, hgn]

/-- The candidates of a package are its definitions whose names no function of another name
calls. -/
theorem WF.candidate_iff_names (h : WF G) (hclass : G.OneClassPerName ast)
    (ha : (G.mergeFunctionMap ast order).analyse ast fuel = .ok a) {i : Fin packageNum} {g : Decl} :
    Candidate ast a.funcPackageMap a.callees i g ↔
      G.DefinedIn ast i g ∧ ∀ b, ¬ G.NamedCall ast b (ast.name g) := by
  have hana := analysed_of_analyse ha
  obtain ⟨n₁, hm⟩ := hana.traverseFunction
  obtain ⟨n₃, hcallees⟩ := hana.findCallee
  rw [(h.mergeFunctionMap ast order).1.candidate_iff hm hcallees, h.definedIn_mergeFunctionMap]
  refine and_congr_right fun hg => ?_
  rw [← not_exists, ← h.callsDefinition_iff hclass (h.allFunctions_of_analyse ha) hg.hasDefinition,
    not_exists]
  exact forall_congr' fun d => not_and.symm

/-- **Which functions are reported.** If methods of one name are of one class, then a function is
reported as a root caller of a package exactly if it is the first definition of its name in the
package and no function of another name calls a function of this name. -/
theorem WF.rootFunctions_iff (h : WF G) (hclass : G.OneClassPerName ast)
    (ha : (G.mergeFunctionMap ast order).analyse ast fuel = .ok a) {i : Fin packageNum} {g : Decl} :
    g ∈ a.rootFunctions i ↔ (∀ b, ¬ G.NamedCall ast b (ast.name g)) ∧ G.DefinedIn ast i g ∧
      ∀ g', G.DefinedIn ast i g' → ast.name g' = ast.name g → g ≤ g' := by
  rw [mem_findRootCaller_iff (analysed_of_analyse ha).findRootCaller,
    h.candidate_iff_names hclass ha]
  refine ⟨?_, ?_⟩
  · rintro ⟨⟨hg, hnot⟩, hle⟩
    refine ⟨hnot, hg, fun g' hg' hname => hle g' ?_ hname⟩
    exact (h.candidate_iff_names hclass ha).mpr ⟨hg', fun b => hname ▸ hnot b⟩
  · rintro ⟨hnot, hg, hle⟩
    refine ⟨⟨hg, hnot⟩, fun g' hg' hname => hle g' ?_ hname⟩
    exact ((h.candidate_iff_names hclass ha).mp hg').1

end CallGraph

/-! ## The order of the report -/

section Order

variable {ast : ASTContext} {m : FuncPackageMap} {callees : List Decl}

/-- What has been reported for a package are some of the entries gone through, in their order. -/
theorem sublist_findRootCaller {rf : RootFunctions}
    (hret : findRootCaller ast m callees (fun _ => []) = .ok rf) (i : Fin packageNum) :
    (rf i).Sublist m.keys := by
  have hloop : ∀ (entries done : List (Decl × String)) (rf rf' : RootFunctions),
      (rf i).Sublist (done.map Prod.fst) →
      entries.foldlM (findRootCallerBody ast callees) rf = .ok rf' →
      (rf' i).Sublist ((done ++ entries).map Prod.fst) := by
    intro entries
    induction entries with
    | nil =>
      intro done rf rf' hsub h
      cases h
      rwa [List.append_nil]
    | cons entry entries ih =>
      intro done rf rf' hsub h
      obtain ⟨rf₁, hbody, hrest⟩ := foldlM_cons_eq_ok h
      rw [List.append_cons]
      refine ih (done ++ [entry]) rf₁ rf' ?_ hrest
      rw [List.map_append, List.map_singleton]
      rcases findRootCallerBody_cases hbody with ⟨rfl, -⟩ | ⟨k, -, -, -, -, rfl⟩
      · exact hsub.trans (List.sublist_append_left _ _)
      · by_cases hk : i = k
        · subst hk
          rw [Function.update_self]
          exact hsub.append_right _
        · rw [Function.update_of_ne hk]
          exact hsub.trans (List.sublist_append_left _ _)
  have hall := hloop m.toList [] (fun _ => []) rf (List.nil_sublist _) hret
  rwa [List.nil_append, Std.TreeMap.map_fst_toList_eq_keys] at hall

/-- In a package the functions are reported in the order of addresses. -/
theorem pairwise_findRootCaller {rf : RootFunctions}
    (hret : findRootCaller ast m callees (fun _ => []) = .ok rf) (i : Fin packageNum) :
    (rf i).Pairwise (· < ·) :=
  (m.ordered_keys.imp fun h => Nat.compare_eq_lt.mp h).sublist (sublist_findRootCaller hret i)

end Order

namespace CallGraph

variable {ast : ASTContext} {G H : CallGraph}

/-- The definitions of a package, by declarations. -/
theorem WF.definedIn_iff (h : WF G) {i : Fin packageNum} {g : Decl} :
    G.DefinedIn ast i g ↔ (G.view g).isSome = true ∧ (ast.info g).kind.isFunctionDecl = true ∧
      (ast.info g).isThisDeclarationADefinition = true ∧
      packageOf (ast.info g).filename = keys i := by
  rw [DefinedIn, isSome_view_iff, ← and_assoc (a := G.HasNode g)]
  refine and_congr_left fun _ => ⟨?_, ?_⟩
  · rintro ⟨n, hn, hg⟩
    obtain ⟨hdecl, hkind⟩ := ASTContext.asFunctionDecl_eq_some.mp hg
    exact ⟨h.hasNode_of_decl hn hdecl, hkind⟩
  · rintro ⟨⟨n, hentry⟩, hkind⟩
    obtain ⟨hn, hdecl⟩ := h.entry_decl _ _ hentry
    exact ⟨n, hn, ASTContext.asFunctionDecl_eq_some.mpr ⟨hdecl, hkind⟩⟩

/-- Graphs that say the same of each declaration have the same report, in whatever orders they are
merged. -/
theorem WF.rootFunctions_eq (hG : WF G) (hH : WF H) (hview : G.view = H.view)
    (hclass : G.OneClassPerName ast) {order : G.Enumeration} {order' : H.Enumeration}
    {fuel fuel' : ℕ} {a a' : Analysis}
    (ha : (G.mergeFunctionMap ast order).analyse ast fuel = .ok a)
    (ha' : (H.mergeFunctionMap ast order').analyse ast fuel' = .ok a') :
    a.rootFunctions = a'.rootFunctions := by
  have hclass' : H.OneClassPerName ast := by
    intro M M' hM hM'
    rw [← isSome_view_iff, ← hview, isSome_view_iff] at hM hM'
    exact hclass M M' hM hM'
  have hcand : ∀ i g, Candidate ast a.funcPackageMap a.callees i g ↔
      Candidate ast a'.funcPackageMap a'.callees i g := by
    intro i g
    rw [hG.candidate_iff_names hclass ha, hH.candidate_iff_names hclass' ha', hG.definedIn_iff,
      hH.definedIn_iff, hview]
    simp only [hG.namedCall_iff, hH.namedCall_iff, hview]
  funext i
  refine (pairwise_findRootCaller (analysed_of_analyse ha).findRootCaller i).eq_of_mem_iff
    (pairwise_findRootCaller (analysed_of_analyse ha').findRootCaller i) fun g => ?_
  rw [mem_findRootCaller_iff (analysed_of_analyse ha).findRootCaller,
    mem_findRootCaller_iff (analysed_of_analyse ha').findRootCaller]
  simp only [hcand]

/-- What the graph says of each declaration does not depend on the order of units that mention
different declarations. -/
theorem view_ofUnits_perm {units units' : List (List Decl)} (hperm : units.Perm units')
    (hdisjoint : units.Pairwise fun A B => (unitDecls ast A).Disjoint (unitDecls ast B)) :
    (ofUnits ast units).view = (ofUnits ast units').view := by
  have hset := hdisjoint.imp fun {A B} hAB =>
    (Set.disjoint_left.mpr fun _ hA hB => hAB hA hB :
      Disjoint {D | D ∈ unitDecls ast A} {D | D ∈ unitDecls ast B})
  have hfold := Store.Footprint.foldl_perm (View.footprint_addToCallGraph ast) hperm hset new.view
  exact (wf_new.view_addUnits units).trans (hfold.trans (wf_new.view_addUnits units').symm)

/-- **The report depends on no order but that of the addresses**: if methods of one name are of one
class, and the units mention different declarations, then two runs in which every declaration has
the same address, but which add the units in different orders and merge the graphs in different
orders, report the same functions and log the same text. -/
theorem printRootCaller_orderFree {units units' : List (List Decl)} (hperm : units.Perm units')
    (hdisjoint : units.Pairwise fun A B => (unitDecls ast A).Disjoint (unitDecls ast B))
    (hclass : (ofUnits ast units).OneClassPerName ast) {order : (ofUnits ast units).Enumeration}
    {order' : (ofUnits ast units').Enumeration} {fuel fuel' : ℕ} {a a' : Analysis}
    (ha : ((ofUnits ast units).mergeFunctionMap ast order).analyse ast fuel = .ok a)
    (ha' : ((ofUnits ast units').mergeFunctionMap ast order').analyse ast fuel' = .ok a') :
    a.rootFunctions = a'.rootFunctions ∧
      printRootCaller ast a.rootFunctions = printRootCaller ast a'.rootFunctions := by
  have heq := (wf_ofUnits ast units).rootFunctions_eq (wf_ofUnits ast units')
    (view_ofUnits_perm hperm hdisjoint) hclass ha ha'
  exact ⟨heq, congrArg (printRootCaller ast) heq⟩

/-! ## Two files -/

/-- What the passes leave for the two files of `boundary`. -/
def boundaryAnalysis (order : (ofUnits boundary [[0], [2]]).Enumeration) : Analysis :=
  (((ofUnits boundary [[0], [2]]).mergeFunctionMap boundary order).analyse boundary 4).toOption.getD
    {}

theorem analyse_boundary :
    ((ofUnits boundary [[0], [2]]).mergeFunctionMap boundary (.self _)).analyse boundary 4 =
      .ok (boundaryAnalysis (.self _)) :=
  eq_ok_getD {} (by decide +kernel)

theorem boundary_oneClassPerName : (ofUnits boundary [[0], [2]]).OneClassPerName boundary :=
  oneClassPerName_of_no_method boundary_no_method _

theorem definedIn_boundary : (ofUnits boundary [[0], [2]]).DefinedIn boundary 2 0 ∧
    (ofUnits boundary [[0], [2]]).DefinedIn boundary 5 2 := by
  have hall : ∀ e ∈ [(1, 0, 2), (3, 2, 5)], e.1 < (ofUnits boundary [[0], [2]]).next ∧
      boundary.asFunctionDecl ((ofUnits boundary [[0], [2]]).decl e.1) = some e.2.1 ∧
      (boundary.info e.2.1).isThisDeclarationADefinition = true ∧
      packageOf (boundary.info e.2.1).filename = keys e.2.2 := by decide +kernel
  obtain ⟨hf, hf', hf''⟩ := hall (1, 0, 2) (by decide)
  obtain ⟨hg, hg', hg''⟩ := hall (3, 2, 5) (by decide)
  exact ⟨⟨⟨1, hf, hf'⟩, hf''⟩, ⟨⟨3, hg, hg'⟩, hg''⟩⟩

/-- Not vacuous: the pair of `f` and `g`. -/
theorem margin_backed_boundary : ∃ E D, boundary.name E = "f" ∧ boundary.name D = "g" ∧
    CallSite boundary [[0], [2]] E D := by
  have hcall : ((boundaryAnalysis (.self _)).callRelation 2 5)[0]? = some 2 := by decide +kernel
  exact (margin_backed analyse_boundary hcall).2.1

/-- Not vacuous: `f` is a caller in the margin between its package and that of `g`, of which it
calls a declaration. -/
theorem margin_iff_boundary :
    ∃ E, ((boundaryAnalysis (.self _)).callRelation 2 5)[0]? = some E := by
  have hdecl : (ofUnits boundary [[0], [2]]).decl 1 = some 0 := by decide +kernel
  have hcallees : (ofUnits boundary [[0], [2]]).callees 1 = [2] := by decide +kernel
  have hg : boundary.asFunctionDecl ((ofUnits boundary [[0], [2]]).decl 2) = some 1 := by
    decide +kernel
  have hne : (ofUnits boundary [[0], [2]]).callees 1 ≠ [] := by
    rw [hcallees]
    exact List.cons_ne_nil _ _
  refine ((wf_ofUnits boundary [[0], [2]]).margin_iff boundary_oneClassPerName analyse_boundary
    hdecl hne 2 5).mpr ⟨by decide, definedIn_boundary.1, 2, ?_, 2, definedIn_boundary.2,
      ⟨1, hg, rfl⟩, by decide⟩
  rw [hcallees]
  exact List.mem_singleton_self 2

/-- Not vacuous: `f` is reported, so no function of another name calls it. -/
theorem rootFunctions_iff_boundary :
    ¬ ∃ b, (ofUnits boundary [[0], [2]]).NamedCall boundary b "f" := by
  have hreported : 0 ∈ (boundaryAnalysis (.self _)).rootFunctions 2 := by decide +kernel
  exact not_exists.mpr (((wf_ofUnits boundary [[0], [2]]).rootFunctions_iff
    boundary_oneClassPerName analyse_boundary).mp hreported).1

/-- Not vacuous: the report for the other order of the files, and of the hash map. -/
theorem printRootCaller_orderFree_boundary : ∃ a' : Analysis,
    ((ofUnits boundary [[2], [0]]).mergeFunctionMap boundary ⟨_, List.reverse_perm _⟩).analyse
      boundary 4 = .ok a' ∧
    printRootCaller boundary (boundaryAnalysis (.self _)).rootFunctions =
      printRootCaller boundary a'.rootFunctions := by
  have hdisjoint : (unitDecls boundary [0]).Disjoint (unitDecls boundary [2]) :=
    List.disjoint_left.mpr (by decide +kernel)
  have ha' : ((ofUnits boundary [[2], [0]]).mergeFunctionMap boundary
      ⟨_, List.reverse_perm _⟩).analyse boundary 4 = .ok _ := eq_ok_getD {} (by decide +kernel)
  exact ⟨_, ha', (printRootCaller_orderFree (List.Perm.swap ..) (List.pairwise_pair.mpr hdisjoint)
    boundary_oneClassPerName analyse_boundary ha').2⟩

end CallGraph

end FindBoundary
