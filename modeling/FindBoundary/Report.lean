import FindBoundary.RootCaller

/-!
# What is reported, exactly

`findRootCaller` goes through `funcPackageMap` in the order of addresses and reports, for each
package, the first function of every name that no collected callee has. It looks at names only,
where `findCallee` tells functions apart by type and name: of two functions of one name, such as
methods of different classes, one that is called keeps the other from being reported, and one that
is reported stands for the other.
-/

namespace FindBoundary

variable {ast : ASTContext} {m : FuncPackageMap} {callees : List Decl}

/-! ## The report as a set -/

/-- A function that could be reported in the package `i`: it is classified there, and no collected
callee has its name. -/
structure Candidate (ast : ASTContext) (m : FuncPackageMap) (callees : List Decl)
    (i : Fin packageNum) (g : Decl) : Prop where
  isFunctionDecl : (ast.info g).kind.isFunctionDecl = true
  package : m[g]? = some (keys i)
  notCalled : ∀ e ∈ callees, ast.name e ≠ ast.name g

/-- What has been reported when the entries `done` have been gone through: of all the candidates
among them, the first of each name. -/
structure ReportedFirst (ast : ASTContext) (m : FuncPackageMap) (callees : List Decl)
    (done : List (Decl × String)) (rf : RootFunctions) : Prop where
  first : ∀ i, ∀ g ∈ rf i, Candidate ast m callees i g ∧ g ∈ done.map Prod.fst ∧
    ∀ g' ∈ done.map Prod.fst, Candidate ast m callees i g' → ast.name g' = ast.name g → g ≤ g'
  covered : ∀ i, ∀ g ∈ done.map Prod.fst, Candidate ast m callees i g →
    ∃ g' ∈ rf i, ast.name g' = ast.name g

/-- One turn, at an entry behind all those gone through. -/
theorem ReportedFirst.findRootCallerBody {done : List (Decl × String)} {rf rf' : RootFunctions}
    {entry : Decl × String} (h : ReportedFirst ast m callees done rf)
    (hlt : ∀ g ∈ done.map Prod.fst, g < entry.1) (hentry : m[entry.1]? = some entry.2)
    (hbody : findRootCallerBody ast callees rf entry = .ok rf') :
    ReportedFirst ast m callees (done ++ [entry]) rf' := by
  have hmem : ∀ {g}, g ∈ (done ++ [entry]).map Prod.fst ↔ g ∈ done.map Prod.fst ∨ g = entry.1 := by
    intro g
    rw [List.map_append, List.mem_append, List.map_singleton, List.mem_singleton]
  -- what was reported before comes before the new entry
  have hfirst : ∀ i, ∀ g ∈ rf i, Candidate ast m callees i g ∧
      g ∈ (done ++ [entry]).map Prod.fst ∧ ∀ g' ∈ (done ++ [entry]).map Prod.fst,
        Candidate ast m callees i g' → ast.name g' = ast.name g → g ≤ g' := by
    intro i g hg
    obtain ⟨hcand, hdone, hle⟩ := h.first i g hg
    refine ⟨hcand, hmem.mpr (Or.inl hdone), fun g' hg' hcand' hname => ?_⟩
    rcases hmem.mp hg' with hg' | rfl
    · exact hle g' hg' hcand' hname
    · exact Nat.le_of_lt (hlt g hdone)
  rcases findRootCallerBody_cases hbody with ⟨rfl, hskip⟩ | ⟨i, hkind, hi, hnot, hnew, rfl⟩
  · constructor
    case first => exact hfirst
    case covered =>
      intro i g hg hcand
      rcases hmem.mp hg with hg | rfl
      · exact h.covered i g hg hcand
      · have hpackage : keys i = entry.2 := Option.some.inj (hcand.package.symm.trans hentry)
        exact hskip i hcand.isFunctionDecl (getTypeIndex_eq_some.mpr hpackage) hcand.notCalled
  · have hpackage : keys i = entry.2 := getTypeIndex_eq_some.mp hi
    have hcand : Candidate ast m callees i entry.1 := ⟨hkind, hpackage ▸ hentry, hnot⟩
    constructor
    case first =>
      intro j g hg
      by_cases hj : j = i
      · subst hj
        rw [Function.update_self] at hg
        rcases List.mem_append.mp hg with hg | hg
        · exact hfirst j g hg
        · obtain rfl := List.mem_singleton.mp hg
          refine ⟨hcand, hmem.mpr (Or.inr rfl), fun g' hg' hcand' hname => ?_⟩
          rcases hmem.mp hg' with hg' | rfl
          · -- an earlier candidate of this name would have been reported
            obtain ⟨g'', hg'', hname''⟩ := h.covered j g' hg' hcand'
            exact absurd (hname''.trans hname) (hnew g'' hg'')
          · exact Nat.le_refl _
      · rw [Function.update_of_ne hj] at hg
        exact hfirst j g hg
    case covered =>
      intro j g hg hcand'
      by_cases hj : j = i
      · subst hj
        rw [Function.update_self]
        rcases hmem.mp hg with hg | rfl
        · obtain ⟨g', hg', hname⟩ := h.covered j g hg hcand'
          exact ⟨g', List.mem_append_left _ hg', hname⟩
        · exact ⟨entry.1, List.mem_append_right _ (List.mem_singleton_self _), rfl⟩
      · rw [Function.update_of_ne hj]
        rcases hmem.mp hg with hg | rfl
        · exact h.covered j g hg hcand'
        · have hpackage' : keys j = entry.2 := Option.some.inj (hcand'.package.symm.trans hentry)
          exact absurd (keys_inj (hpackage'.trans hpackage.symm)) hj

theorem reportedFirst_foldlM {entries done : List (Decl × String)} {rf rf' : RootFunctions}
    (hsorted : (done ++ entries).Pairwise fun a b => a.1 < b.1)
    (hentries : ∀ entry ∈ entries, m[entry.1]? = some entry.2)
    (h : ReportedFirst ast m callees done rf)
    (hret : entries.foldlM (findRootCallerBody ast callees) rf = .ok rf') :
    ReportedFirst ast m callees (done ++ entries) rf' := by
  induction entries generalizing done rf with
  | nil =>
    cases hret
    rw [List.append_nil]
    exact h
  | cons entry entries ih =>
    obtain ⟨rf₁, hbody, hrest⟩ := foldlM_cons_eq_ok hret
    have hlt : ∀ g ∈ done.map Prod.fst, g < entry.1 := by
      intro g hg
      obtain ⟨e, he, rfl⟩ := List.mem_map.mp hg
      exact (List.pairwise_append.mp hsorted).2.2 e he entry (List.mem_cons_self ..)
    have hstep := h.findRootCallerBody hlt (hentries entry (List.mem_cons_self ..)) hbody
    have hassoc : done ++ entry :: entries = done ++ [entry] ++ entries := by simp
    rw [hassoc] at hsorted ⊢
    exact ih hsorted (fun e he => hentries e (List.mem_cons_of_mem _ he)) hstep hrest

theorem reportedFirst_findRootCaller {rf : RootFunctions}
    (hret : findRootCaller ast m callees (fun _ => []) = .ok rf) :
    ReportedFirst ast m callees m.toList rf := by
  have hsorted : m.toList.Pairwise fun a b => a.1 < b.1 :=
    m.ordered_keys_toList.imp fun h => Nat.compare_eq_lt.mp h
  have hnil : ReportedFirst ast m callees [] (fun _ => []) :=
    ⟨fun i g hg => absurd hg List.not_mem_nil, fun i g hg => absurd hg List.not_mem_nil⟩
  refine reportedFirst_foldlM ?_ ?_ hnil hret
  · exact hsorted
  · exact fun _ he => Std.TreeMap.mem_toList_iff_getElem?_eq_some.mp he

/-- A candidate is gone through. -/
theorem Candidate.mem_toList {i : Fin packageNum} {g : Decl}
    (h : Candidate ast m callees i g) : g ∈ m.toList.map Prod.fst :=
  List.mem_map.mpr ⟨_, Std.TreeMap.mem_toList_iff_getElem?_eq_some.mpr h.package, rfl⟩

/-- **The report**: in each package, of all the candidates of one name, the first in the order of
addresses. -/
theorem mem_findRootCaller_iff {rf : RootFunctions}
    (hret : findRootCaller ast m callees (fun _ => []) = .ok rf) {i : Fin packageNum} {g : Decl} :
    g ∈ rf i ↔ Candidate ast m callees i g ∧
      ∀ g', Candidate ast m callees i g' → ast.name g' = ast.name g → g ≤ g' := by
  have hrep := reportedFirst_findRootCaller hret
  refine ⟨?_, ?_⟩
  · intro hg
    obtain ⟨hcand, -, hle⟩ := hrep.first i g hg
    exact ⟨hcand, fun g' hcand' hname => hle g' hcand'.mem_toList hcand' hname⟩
  · rintro ⟨hcand, hle⟩
    -- whatever is reported under this name comes first, too
    obtain ⟨g', hg', hname⟩ := hrep.covered i g hcand.mem_toList hcand
    obtain ⟨hcand', -, hle'⟩ := hrep.first i g' hg'
    have heq : g = g' :=
      Nat.le_antisymm (hle g' hcand' hname) (hle' g hcand.mem_toList hcand hname.symm)
    rw [heq]
    exact hg'

namespace CallGraph

variable {G : CallGraph}

/-! ## The report and the graph -/

/-- `g` is a definition in the package `i`. -/
def DefinedIn (G : CallGraph) (ast : ASTContext) (i : Fin packageNum) (g : Decl) : Prop :=
  (∃ n, G.Allocated n ∧ ast.asFunctionDecl (G.decl n) = some g) ∧
    (ast.info g).isThisDeclarationADefinition = true ∧ packageOf (ast.info g).filename = keys i

/-- A function calls the definition `d`, which has another name than it. -/
def CallsDefinition (G : CallGraph) (ast : ASTContext) (d : Decl) : Prop :=
  ∃ p c caller, c ∈ G.callees p ∧ ast.asFunctionDecl (G.decl p) = some caller ∧
    ast.asFunctionDecl (G.decl c) = some d ∧ (ast.info d).isThisDeclarationADefinition = true ∧
    ast.name caller ≠ ast.name d

/-- After the two traversals, the candidates of a package are its definitions whose names no called
definition has. -/
theorem WF.candidate_iff (h : WF G) {fuel fuel' : ℕ}
    (hm : (G.traverseFunction ast).descend fuel G.root ∅ = .ok m)
    (hcallees : (G.findCallee ast m).descend fuel' G.root [] = .ok callees) {i : Fin packageNum}
    {g : Decl} :
    Candidate ast m callees i g ↔
      G.DefinedIn ast i g ∧ ∀ d, G.CallsDefinition ast d → ast.name d ≠ ast.name g := by
  have hcalled : ∀ e ∈ callees, G.CalledDefinition ast m e :=
    (distinct_findCallee ⟨fun d hd => absurd hd List.not_mem_nil, List.Pairwise.nil⟩
      hcallees).called
  refine ⟨?_, ?_⟩
  · rintro ⟨-, hpackage, hnot⟩
    obtain ⟨hnode, hdef, hkey⟩ := (h.getElem?_traverseFunction_iff hm).mp hpackage
    refine ⟨⟨hnode, hdef, hkey.symm⟩, ?_⟩
    rintro d ⟨p, c, caller, hc, hcaller, hcallee, hdefd, hname⟩ hsame
    have hd := (h.getElem?_traverseFunction_iff hm).mpr
      ⟨⟨c, (h.edge_allocated p c hc).2, hcallee⟩, hdefd, rfl⟩
    have hmem : d ∈ m := Std.TreeMap.isSome_getElem?_iff_mem.mp (by rw [hd]; rfl)
    have hfollows : G.FollowsDefinition ast p c :=
      (followsDefinition_iff hcaller hcallee).mpr ⟨hdefd, hname⟩
    obtain ⟨e, he, -, hnamee⟩ :=
      h.collected_findCallee hcallees hc hfollows caller d hcaller hcallee hmem
    exact hnot e he (hnamee.trans hsame)
  · rintro ⟨⟨⟨n, hn, hg⟩, hdef, hkey⟩, hnot⟩
    refine ⟨(ASTContext.asFunctionDecl_eq_some.mp hg).2, ?_, fun e he => ?_⟩
    · exact (h.getElem?_traverseFunction_iff hm).mpr ⟨⟨n, hn, hg⟩, hdef, hkey.symm⟩
    · obtain ⟨-, hdefe, p, c, caller, hc, hcaller, hcallee, hname⟩ := hcalled e he
      exact hnot e ⟨p, c, caller, hc, hcaller, hcallee, hdefe, hname⟩

/-- Of the definitions of one name in a package, the first in the order of addresses. -/
def FirstDefinition (G : CallGraph) (ast : ASTContext) (i : Fin packageNum) (g : Decl) : Prop :=
  G.DefinedIn ast i g ∧ ∀ g', G.DefinedIn ast i g' → ast.name g' = ast.name g → g ≤ g'

/-- A function of the type and name of `f` is reported in its package exactly when no definition of
its name is called and the first one of its name has its type. -/
theorem WF.represented_iff (h : WF G) {fuel fuel' : ℕ} {rf : RootFunctions}
    (hm : (G.traverseFunction ast).descend fuel G.root ∅ = .ok m)
    (hcallees : (G.findCallee ast m).descend fuel' G.root [] = .ok callees)
    (hrf : findRootCaller ast m callees (fun _ => []) = .ok rf) {i : Fin packageNum} {f : Decl} :
    (∃ g ∈ rf i, SameTypeAndName ast g f) ↔
      (∀ d, G.CallsDefinition ast d → ast.name d ≠ ast.name f) ∧
        ∃ g, G.FirstDefinition ast i g ∧ SameTypeAndName ast g f := by
  refine ⟨?_, ?_⟩
  · rintro ⟨g, hg, hsame⟩
    obtain ⟨hcand, hle⟩ := (mem_findRootCaller_iff hrf).mp hg
    obtain ⟨hdef, hnot⟩ := (h.candidate_iff hm hcallees).mp hcand
    refine ⟨fun d hd => hsame.2 ▸ hnot d hd, g, ⟨hdef, fun g' hdef' hname => ?_⟩, hsame⟩
    exact hle g' ((h.candidate_iff hm hcallees).mpr
      ⟨hdef', fun d hd => hname ▸ hnot d hd⟩) hname
  · rintro ⟨hnot, g, ⟨hdef, hle⟩, hsame⟩
    refine ⟨g, (mem_findRootCaller_iff hrf).mpr ⟨?_, fun g' hcand' hname => ?_⟩, hsame⟩
    · exact (h.candidate_iff hm hcallees).mpr ⟨hdef, fun d hd => hsame.2 ▸ hnot d hd⟩
    · exact hle g' ((h.candidate_iff hm hcallees).mp hcand').1 hname

/-- **When the report is exact.** That a function of the type and name of `f` is reported in a
package exactly if no function of another name calls a definition of this type and name, holds
exactly if one does, or no definition of this name, whatever its type, is called and the first one
in the package has this type. -/
theorem WF.represented_exact_iff (h : WF G) {fuel fuel' : ℕ} {rf : RootFunctions}
    (hm : (G.traverseFunction ast).descend fuel G.root ∅ = .ok m)
    (hcallees : (G.findCallee ast m).descend fuel' G.root [] = .ok callees)
    (hrf : findRootCaller ast m callees (fun _ => []) = .ok rf) (i : Fin packageNum) (f : Decl) :
    ((∃ g ∈ rf i, SameTypeAndName ast g f) ↔
      ¬ ∃ d, G.CallsDefinition ast d ∧ SameTypeAndName ast d f) ↔
    ((∃ d, G.CallsDefinition ast d ∧ SameTypeAndName ast d f) ∨
      ((∀ d, G.CallsDefinition ast d → ast.name d ≠ ast.name f) ∧
        ∃ g, G.FirstDefinition ast i g ∧ SameTypeAndName ast g f)) := by
  rw [h.represented_iff hm hcallees hrf]
  have hcalled : (∃ d, G.CallsDefinition ast d ∧ SameTypeAndName ast d f) →
      ¬ ∀ d, G.CallsDefinition ast d → ast.name d ≠ ast.name f := by
    rintro ⟨d, hd, hsame⟩ hnot
    exact hnot d hd hsame.2
  refine ⟨?_, ?_⟩
  · intro hexact
    by_cases hd : ∃ d, G.CallsDefinition ast d ∧ SameTypeAndName ast d f
    · exact Or.inl hd
    · exact Or.inr (hexact.mpr hd)
  · rintro (hd | hrep)
    · exact iff_of_false (fun hrep => hcalled hd hrep.1) (not_not.mpr hd)
    · exact iff_of_true hrep fun hd => hcalled hd hrep.1

/-- Two methods `f` of different classes in the package `fs`, and `main`, which calls the first
one. -/
def otherClass : ASTContext :=
  .ofTable [((DeclInfo.definition "f" []).ofType "void (int)").inClass "A" |>.inFile "fs/f.cxx",
    ((DeclInfo.definition "f" []).ofType "void (double)").inClass "B" |>.inFile "fs/f.cxx",
    (DeclInfo.definition "main" [0]).inFile "fs/f.cxx"]

/-- The graph that is analysed: the merge leaves methods of different classes alone. -/
def otherClassGraph : CallGraph :=
  (ofUnits otherClass [[0, 1, 2]]).mergeFunctionMap otherClass (.self _)

theorem wf_otherClassGraph : WF otherClassGraph :=
  ((wf_ofUnits otherClass [[0, 1, 2]]).mergeFunctionMap otherClass (.self _)).1

/-- The three passes return on this graph, and report `main` but neither method. -/
theorem findRootCaller_otherClass :
    let G := otherClassGraph
    ∃ (m : FuncPackageMap) (callees : List Decl) (rf : RootFunctions),
      (G.traverseFunction otherClass).descend 3 G.root ∅ = .ok m ∧
      (G.findCallee otherClass m).descend 3 G.root [] = .ok callees ∧
      findRootCaller otherClass m callees (fun _ => []) = .ok rf ∧ rf 2 = [2] := by
  intro G
  let m : FuncPackageMap :=
    ((G.traverseFunction otherClass).descend 3 G.root ∅).toOption.getD ∅
  let callees : List Decl := ((G.findCallee otherClass m).descend 3 G.root []).toOption.getD []
  let rf : RootFunctions :=
    (findRootCaller otherClass m callees (fun _ => [])).toOption.getD (fun _ => [])
  exact ⟨m, callees, rf, eq_ok_getD ∅ (by decide +kernel), eq_ok_getD [] (by decide +kernel),
    eq_ok_getD (fun _ => []) (by decide +kernel), by decide +kernel⟩

/-- Not vacuous: whether the report is exact for the method of `A`. -/
theorem represented_exact_iff_otherClass :
    let G := otherClassGraph
    ∃ rf : RootFunctions, rf 2 = [2] ∧
      ((∃ g ∈ rf 2, SameTypeAndName otherClass g 0) ↔
        ¬ ∃ d, G.CallsDefinition otherClass d ∧ SameTypeAndName otherClass d 0) := by
  intro G
  obtain ⟨m, callees, rf, hm, hcallees, hrf, hreport⟩ := findRootCaller_otherClass
  have hcall : 1 ∈ G.callees 3 ∧ otherClass.asFunctionDecl (G.decl 3) = some 2 ∧
      otherClass.asFunctionDecl (G.decl 1) = some 0 ∧
      (otherClass.info 0).isThisDeclarationADefinition = true ∧
      otherClass.name 2 ≠ otherClass.name 0 := by decide +kernel
  exact ⟨rf, hreport, (wf_otherClassGraph.represented_exact_iff hm hcallees hrf 2 0).mpr
    (Or.inl ⟨0, ⟨3, 1, 2, hcall⟩, rfl, rfl⟩)⟩

/-- The method of `B` is never called, and nothing of its type and name is reported. -/
theorem not_represented_exact_otherClass :
    let G := otherClassGraph
    WF G ∧ (∀ n, G.IsFunctionNode n → (otherClass.asFunctionDecl (G.decl n)).isSome = true) ∧
    ∃ (m : FuncPackageMap) (callees : List Decl) (rf : RootFunctions),
      (G.traverseFunction otherClass).descend 3 G.root ∅ = .ok m ∧
      (G.findCallee otherClass m).descend 3 G.root [] = .ok callees ∧
      findRootCaller otherClass m callees (fun _ => []) = .ok rf ∧
      G.DefinedIn otherClass 2 1 ∧
      ¬ ((∃ g ∈ rf 2, SameTypeAndName otherClass g 1) ↔
        ¬ ∃ d, G.CallsDefinition otherClass d ∧ SameTypeAndName otherClass d 1) := by
  intro G
  have h : WF G := wf_otherClassGraph
  have hnext : G.next = 4 := by decide +kernel
  have hrange : ∀ n, G.Allocated n → n ∈ List.range 4 :=
    fun n hn => List.mem_range.mpr (hnext ▸ hn)
  have hfunctions : ∀ n ∈ List.range 4, n ≠ G.root →
      (otherClass.asFunctionDecl (G.decl n)).isSome = true := by decide +kernel
  obtain ⟨m, callees, rf, hm, hcallees, hrf, hreport⟩ := findRootCaller_otherClass
  refine ⟨h, fun n hn => hfunctions n (hrange n hn.allocated) hn.ne_root, m, callees, rf, hm,
    hcallees, hrf, ⟨⟨2, ?_, ?_⟩, ?_, ?_⟩, fun hexact => ?_⟩
  · decide +kernel
  · decide +kernel
  · decide +kernel
  · decide +kernel
  · -- the only call is that of the method of `A`
    have honly : ∀ p ∈ List.range 4, ∀ c ∈ G.callees p,
        otherClass.asFunctionDecl (G.decl p) ≠ none →
          otherClass.asFunctionDecl (G.decl c) = some 0 := by decide +kernel
    have hnot : ¬ ∃ d, G.CallsDefinition otherClass d ∧ SameTypeAndName otherClass d 1 := by
      rintro ⟨d, ⟨p, c, caller, hc, hcaller, hcallee, -⟩, hsame⟩
      have hzero := honly p (hrange p (h.edge_allocated p c hc).1) c hc
        (by rw [hcaller]; exact Option.some_ne_none _)
      obtain rfl := Option.some.inj (hcallee.symm.trans hzero)
      exact absurd hsame.1 (by decide)
    obtain ⟨g, hg, hsame⟩ := hexact.mpr hnot
    rw [hreport, List.mem_singleton] at hg
    rw [hg] at hsame
    exact absurd hsame.2 (by decide)

end CallGraph

end FindBoundary
