import FindBoundary.EndToEnd

/-!
# Nothing that is not called is lost

`findRootCaller` reports a function that nothing calls in one of two ways: in the table of its
package, where a function of the same name may stand for it, or, if its file is in no package, with
a line of the log. Between them they have every definition of the program whose name no function of
another name calls, and no other (`WF.report_complete`).
-/

namespace FindBoundary

variable (ast : ASTContext)

/-- The loop body of `findRootCaller` with what it logs. -/
def findRootCallerLogBody (callees : List Decl) (s : RootFunctions × String)
    (entry : Decl × String) : Except Fault (RootFunctions × String) :=
  match ast.asFunctionDecl (some entry.1) with
  | none => .ok s
  | some function =>
    if callees.any fun it2 => ast.name it2 = ast.name function then .ok s
    else if entry.2 = "empty" then
      .ok (s.1, s.2 ++ ("empty package" ++ ast.name function ++ "\n"))
    else
      match getTypeIndex entry.2 with
      | none => .error .outOfBounds
      | some i =>
        if (s.1 i).any fun iter => ast.name iter = ast.name function then .ok s
        else .ok (Function.update s.1 i (s.1 i ++ [function]), s.2)

/-- `findRootCaller` with the log. -/
def findRootCallerLog (funcPackageMap : FuncPackageMap) (callees : List Decl)
    (s : RootFunctions × String) : Except Fault (RootFunctions × String) :=
  funcPackageMap.toList.foldlM (findRootCallerLogBody ast callees) s

/-! ## The log -/

/-- An entry that is logged: a function that is in no package and is not called. -/
def LoggedEmpty (callees : List Decl) (entry : Decl × String) : Prop :=
  (ast.info entry.1).kind.isFunctionDecl = true ∧
    (∀ e ∈ callees, ast.name e ≠ ast.name entry.1) ∧ entry.2 = "empty"

instance (callees : List Decl) (entry : Decl × String) :
    Decidable (LoggedEmpty ast callees entry) := by
  unfold LoggedEmpty
  infer_instance

/-- The line of a function in no package. -/
def emptyPackageLine (g : Decl) : List Char :=
  'e' :: ("mpty package".toList ++ (ast.name g).toList)

/-- The functions that are logged. -/
def loggedEmpty (m : FuncPackageMap) (callees : List Decl) : List Decl :=
  (m.toList.filter fun entry => LoggedEmpty ast callees entry).map Prod.fst

variable {ast}

/-- A turn does to the table what it does without the log. -/
theorem findRootCallerLogBody_eq_ok {callees : List Decl} {rf rf' : RootFunctions}
    {entry : Decl × String} (hbody : findRootCallerBody ast callees rf entry = .ok rf')
    (errs : String) : ∃ errs',
      findRootCallerLogBody ast callees (rf, errs) entry = .ok (rf', errs') ∧
      errs'.toList = errs.toList ++
        if LoggedEmpty ast callees entry then emptyPackageLine ast entry.1 ++ ['\n'] else [] := by
  simp only [findRootCallerBody] at hbody
  simp only [findRootCallerLogBody]
  cases hfunction : ast.asFunctionDecl (some entry.1) with
  | none =>
    rw [hfunction] at hbody
    cases hbody
    have hkind : ¬ (ast.info entry.1).kind.isFunctionDecl = true := by
      intro hkind
      cases hfunction.symm.trans (ASTContext.asFunctionDecl_eq_some.mpr ⟨rfl, hkind⟩)
    refine ⟨errs, rfl, ?_⟩
    rw [if_neg fun h : LoggedEmpty ast callees entry => hkind h.1, List.append_nil]
  | some function =>
    obtain ⟨hentry, hkind⟩ := ASTContext.asFunctionDecl_eq_some.mp hfunction
    obtain rfl := Option.some.inj hentry
    simp only [hfunction] at hbody ⊢
    split at hbody
    · rename_i hcalled
      cases hbody
      obtain ⟨e, he, hname⟩ := List.any_eq_true.mp hcalled
      refine ⟨errs, if_pos hcalled, ?_⟩
      rw [if_neg fun h : LoggedEmpty ast callees entry => h.2.1 e he (by simpa using hname),
        List.append_nil]
    · rename_i hcalled
      have hnot : ∀ e ∈ callees, ast.name e ≠ ast.name entry.1 := fun e he hname =>
        hcalled (List.any_eq_true.mpr ⟨e, he, by simpa using hname⟩)
      rw [if_neg hcalled]
      split at hbody
      · rename_i hempty
        cases hbody
        refine ⟨_, if_pos hempty, ?_⟩
        have hlogged : LoggedEmpty ast callees entry := ⟨hkind, hnot, hempty⟩
        rw [if_pos hlogged]
        simp [emptyPackageLine]
      · rename_i hempty
        rw [if_neg hempty]
        refine ⟨errs, ?_, ?_⟩
        case refine_2 =>
          rw [if_neg fun h : LoggedEmpty ast callees entry => hempty h.2.2, List.append_nil]
        cases hi : getTypeIndex entry.2 with
        | none =>
          simp only [hi] at hbody
          cases hbody
        | some i =>
          simp only [hi] at hbody
          split at hbody
          · rename_i hold
            cases hbody
            exact if_pos hold
          · rename_i hnew
            cases hbody
            exact if_neg hnew

/-- The run does to the table what it does without the log, and logs the functions in no package
that are not called. -/
theorem findRootCallerLog_eq_ok {m : FuncPackageMap} {callees : List Decl}
    {rf rf' : RootFunctions} (hret : findRootCaller ast m callees rf = .ok rf') (errs : String) :
    ∃ errs', findRootCallerLog ast m callees (rf, errs) = .ok (rf', errs') ∧
      errs'.toList = errs.toList ++
        Lines.unlines '\n' ((loggedEmpty ast m callees).map (emptyPackageLine ast)) := by
  have hloop : ∀ (entries : List (Decl × String)) (rf : RootFunctions) (errs : String),
      entries.foldlM (findRootCallerBody ast callees) rf = .ok rf' →
      ∃ errs', entries.foldlM (findRootCallerLogBody ast callees) (rf, errs) = .ok (rf', errs') ∧
        errs'.toList = errs.toList ++ Lines.unlines '\n'
          (((entries.filter fun entry => LoggedEmpty ast callees entry).map Prod.fst).map
            (emptyPackageLine ast)) := by
    intro entries
    induction entries with
    | nil =>
      intro rf errs h
      cases h
      exact ⟨errs, rfl, (List.append_nil _).symm⟩
    | cons entry entries ih =>
      intro rf errs h
      obtain ⟨rf₁, hbody, hrest⟩ := foldlM_cons_eq_ok h
      obtain ⟨errs₁, hlog, htext⟩ := findRootCallerLogBody_eq_ok hbody errs
      obtain ⟨errs', hlogs, htexts⟩ := ih rf₁ errs₁ hrest
      refine ⟨errs', ?_, ?_⟩
      · rw [List.foldlM_cons, hlog]
        exact hlogs
      · rw [htexts, htext, List.filter_cons]
        by_cases hempty : LoggedEmpty ast callees entry
        · simp [hempty, Lines.unlines]
        · simp [hempty]
  exact hloop m.toList rf errs hret

theorem mem_loggedEmpty {m : FuncPackageMap} {callees : List Decl} {g : Decl} :
    g ∈ loggedEmpty ast m callees ↔ (ast.info g).kind.isFunctionDecl = true ∧
      (∀ e ∈ callees, ast.name e ≠ ast.name g) ∧ m[g]? = some "empty" := by
  simp only [loggedEmpty, List.mem_map, List.mem_filter, decide_eq_true_eq]
  refine ⟨?_, fun ⟨hkind, hnot, hpackage⟩ => ?_⟩
  · rintro ⟨⟨D, package⟩, ⟨hentry, hkind, hnot, rfl⟩, rfl⟩
    exact ⟨hkind, hnot, Std.TreeMap.mem_toList_iff_getElem?_eq_some.mp hentry⟩
  · exact ⟨(g, "empty"), ⟨Std.TreeMap.mem_toList_iff_getElem?_eq_some.mpr hpackage, hkind, hnot,
      rfl⟩, rfl⟩

namespace CallGraph

variable {G : CallGraph} {order : G.Enumeration} {fuel : ℕ} {a : Analysis}

/-! ## The report -/

/-- No collected callee has the name of a definition exactly if no function of another name calls
a function of its name. -/
theorem WF.notCalled_iff (h : WF G) (hclass : G.OneClassPerName ast)
    (ha : (G.mergeFunctionMap ast order).analyse ast fuel = .ok a) {g : Decl}
    (hg : G.HasDefinition ast g) :
    (∀ e ∈ a.callees, ast.name e ≠ ast.name g) ↔ ∀ b, ¬ G.NamedCall ast b (ast.name g) := by
  have h' := (h.mergeFunctionMap ast order).1
  have hana := analysed_of_analyse ha
  obtain ⟨n₁, hm⟩ := hana.traverseFunction
  obtain ⟨n₃, hcallees⟩ := hana.findCallee
  have hcalls : (∃ d, (G.mergeFunctionMap ast order).CallsDefinition ast d ∧
      ast.name d = ast.name g) ↔ ∃ b, G.NamedCall ast b (ast.name g) :=
    h.callsDefinition_iff hclass (h.allFunctions_of_analyse ha) hg
  rw [← not_exists, ← hcalls]
  refine ⟨?_, ?_⟩
  · rintro hnot ⟨d, ⟨p, c, caller, hc, hcaller, hcallee, hdef, hname⟩, hdg⟩
    have hd := (h'.getElem?_traverseFunction_iff hm).mpr
      ⟨⟨c, (h'.edge_allocated p c hc).2, hcallee⟩, hdef, rfl⟩
    have hmem : d ∈ a.funcPackageMap := Std.TreeMap.isSome_getElem?_iff_mem.mp (by rw [hd]; rfl)
    obtain ⟨e, he, -, hnamee⟩ := h'.collected_findCallee hcallees hc
      ((followsDefinition_iff hcaller hcallee).mpr ⟨hdef, hname⟩) caller d hcaller hcallee hmem
    exact hnot e he (hnamee.trans hdg)
  · intro hnot e he hname
    have hcalled := (distinct_findCallee ⟨fun d hd => absurd hd List.not_mem_nil, List.Pairwise.nil⟩
      hcallees).called e he
    obtain ⟨-, hdef, p, c, caller, hc, hcaller, hcallee, hne⟩ := hcalled
    exact hnot ⟨e, ⟨p, c, caller, hc, hcaller, hcallee, hdef, hne⟩, hname⟩

/-- **Nothing that is not called is lost, and nothing else is reported.** If methods of one name are
of one class, then after the passes a definition is reported, be it under its name in the table of
its package or in the log as one of the functions in no package, exactly if no function of another
name calls a function of its name. -/
theorem WF.report_complete (h : WF G) (hclass : G.OneClassPerName ast)
    (ha : (G.mergeFunctionMap ast order).analyse ast fuel = .ok a) :
    ∃ (errs : String) (gs : List Decl),
      findRootCallerLog ast a.funcPackageMap a.callees (fun _ => [], "") =
        .ok (a.rootFunctions, errs) ∧
      errs.toList = Lines.unlines '\n' (gs.map (emptyPackageLine ast)) ∧
      ∀ g, G.HasDefinition ast g → ((∀ b, ¬ G.NamedCall ast b (ast.name g)) ↔
        g ∈ gs ∨ ∃ i, G.DefinedIn ast i g ∧ ∃ f ∈ a.rootFunctions i, ast.name f = ast.name g) := by
  have hana := analysed_of_analyse ha
  obtain ⟨n₁, hm⟩ := hana.traverseFunction
  obtain ⟨errs, hlog, htext⟩ := findRootCallerLog_eq_ok hana.findRootCaller ""
  rw [String.toList_empty, List.nil_append] at htext
  refine ⟨errs, _, hlog, htext, fun g hg => ?_⟩
  have hpackage : a.funcPackageMap[g]? = some (packageOf (ast.info g).filename) := by
    obtain ⟨⟨n, hn, hdecl⟩, hdef⟩ := hg
    obtain ⟨h', hs⟩ := h.mergeFunctionMap ast order
    rw [h'.getElem?_traverseFunction_iff hm]
    exact ⟨⟨n, hs.allocated_iff.mpr hn, (hs.decl n).symm ▸ hdecl⟩, hdef, rfl⟩
  have hkind : (ast.info g).kind.isFunctionDecl = true := by
    obtain ⟨⟨n, -, hdecl⟩, -⟩ := hg
    exact (ASTContext.asFunctionDecl_eq_some.mp hdecl).2
  refine ⟨fun hnot => ?_, ?_⟩
  · rcases packageOf_cases (ast.info g).filename with hempty | ⟨i, hi⟩
    · refine Or.inl (mem_loggedEmpty.mpr ⟨hkind, (h.notCalled_iff hclass ha hg).mpr hnot, ?_⟩)
      rw [hpackage, hempty]
    · -- some candidate of this name is the first
      have hdef : G.DefinedIn ast i g := ⟨hg.1, hg.2, hi⟩
      have hcand := (h.candidate_iff_names hclass ha).mpr ⟨hdef, hnot⟩
      obtain ⟨f, hf, hname⟩ :=
        (reportedFirst_findRootCaller hana.findRootCaller).covered i g hcand.mem_toList hcand
      exact Or.inr ⟨i, hdef, f, hf, hname⟩
  · rintro (hlogged | ⟨i, -, f, hf, hname⟩)
    · exact (h.notCalled_iff hclass ha hg).mp (mem_loggedEmpty.mp hlogged).2.1
    · have hcand := ((mem_findRootCaller_iff hana.findRootCaller).mp hf).1
      have hnot := ((h.candidate_iff_names hclass ha).mp hcand).2
      rw [← hname]
      exact hnot

/-- Not vacuous: `g`, which `f` calls, is not logged. -/
theorem report_complete_boundary : ∃ (errs : String) (gs : List Decl),
    findRootCallerLog boundary (boundaryAnalysis (.self _)).funcPackageMap
      (boundaryAnalysis (.self _)).callees (fun _ => [], "") =
        .ok ((boundaryAnalysis (.self _)).rootFunctions, errs) ∧
    errs.toList = Lines.unlines '\n' (gs.map (emptyPackageLine boundary)) ∧ 2 ∉ gs := by
  have hcallees : (ofUnits boundary [[0], [2]]).callees 1 = [2] := by decide +kernel
  have hf : boundary.asFunctionDecl ((ofUnits boundary [[0], [2]]).decl 1) = some 0 := by
    decide +kernel
  have hg : boundary.asFunctionDecl ((ofUnits boundary [[0], [2]]).decl 2) = some 1 := by
    decide +kernel
  have hcall : (ofUnits boundary [[0], [2]]).NamedCall boundary "f" "g" := by
    refine ⟨⟨1, 2, ?_, ⟨0, hf, rfl⟩, ⟨1, hg, rfl⟩⟩, by decide⟩
    rw [hcallees]
    exact List.mem_singleton_self 2
  obtain ⟨errs, gs, hlog, htext, hreport⟩ :=
    (wf_ofUnits boundary [[0], [2]]).report_complete boundary_oneClassPerName analyse_boundary
  refine ⟨errs, gs, hlog, htext, fun hmem => ?_⟩
  exact (hreport 2 definedIn_boundary.2.hasDefinition).mpr (Or.inl hmem) "f" hcall

end CallGraph

end FindBoundary
