import FindBoundary.Quotient
import FindBoundary.Callees

/-!
# Called functions are not root callers

The report of `findRootCaller` rests on five passes. The builder records a call at a declaration of
the callee, the merge carries the caller to the definitions, `traverseFunction` enters definitions
of nodes only into `funcPackageMap`, `findCallee` collects a callee unless one of its type and name
has been collected, and `findRootCaller` leaves out every function that shares its name with a
collected one. None of them drops the call.
-/

namespace FindBoundary

variable {ast : ASTContext}

/-! ## What is reported -/

/-- A turn of `findRootCaller` reports the function of its entry, or nothing: for a function that
is in a package and whose name no collected callee has, because one of its name is reported
already. -/
theorem findRootCallerBody_cases {callees : List Decl} {rf rf' : RootFunctions}
    {entry : Decl × String} (hbody : findRootCallerBody ast callees rf entry = .ok rf') :
    (rf' = rf ∧ ∀ i, (ast.info entry.1).kind.isFunctionDecl = true → getTypeIndex entry.2 = some i →
      (∀ e ∈ callees, ast.name e ≠ ast.name entry.1) →
        ∃ g ∈ rf i, ast.name g = ast.name entry.1) ∨
    ∃ i, (ast.info entry.1).kind.isFunctionDecl = true ∧ getTypeIndex entry.2 = some i ∧
      (∀ e ∈ callees, ast.name e ≠ ast.name entry.1) ∧
      (∀ g ∈ rf i, ast.name g ≠ ast.name entry.1) ∧
      rf' = Function.update rf i (rf i ++ [entry.1]) := by
  simp only [findRootCallerBody] at hbody
  split at hbody
  · rename_i hfunction
    cases hbody
    refine Or.inl ⟨rfl, fun i hkind => ?_⟩
    rw [ASTContext.asFunctionDecl_eq_some.mpr ⟨rfl, hkind⟩] at hfunction
    cases hfunction
  · rename_i function hfunction
    obtain ⟨hentry, hkind⟩ := ASTContext.asFunctionDecl_eq_some.mp hfunction
    obtain rfl := Option.some.inj hentry
    split at hbody
    · rename_i hcallees
      cases hbody
      refine Or.inl ⟨rfl, fun i _ _ hnot => ?_⟩
      obtain ⟨e, he, hname⟩ := List.any_eq_true.mp hcallees
      exact absurd (by simpa using hname) (hnot e he)
    · rename_i hcallees
      split at hbody
      · rename_i hempty
        cases hbody
        refine Or.inl ⟨rfl, fun i _ hi => ?_⟩
        exact absurd ((getTypeIndex_eq_some.mp hi).trans hempty) (keys_ne_empty i)
      · split at hbody
        · cases hbody
        · rename_i i hi
          split at hbody
          · rename_i hold
            cases hbody
            refine Or.inl ⟨rfl, fun i' _ hi' _ => ?_⟩
            obtain rfl := Option.some.inj (hi.symm.trans hi')
            obtain ⟨g, hg, hname⟩ := List.any_eq_true.mp hold
            exact ⟨g, hg, by simpa using hname⟩
          · rename_i hnew
            cases hbody
            refine Or.inr
              ⟨i, hkind, hi, fun e he hname => hcallees ?_, fun g hg hname => hnew ?_, rfl⟩
            · exact List.any_eq_true.mpr ⟨e, he, by simpa using hname⟩
            · exact List.any_eq_true.mpr ⟨g, hg, by simpa using hname⟩

/-- Every function reported is an entry of the map whose name no collected callee has. -/
def Reported (ast : ASTContext) (m : FuncPackageMap) (callees : List Decl)
    (rootFunctions : RootFunctions) : Prop :=
  ∀ i, ∀ f ∈ rootFunctions i, f ∈ m ∧ ∀ e ∈ callees, ast.name e ≠ ast.name f

theorem reported_findRootCallerBody {m : FuncPackageMap} {callees : List Decl}
    {rf rf' : RootFunctions} {entry : Decl × String} (h : Reported ast m callees rf)
    (hentry : entry.1 ∈ m) (hbody : findRootCallerBody ast callees rf entry = .ok rf') :
    Reported ast m callees rf' := by
  rcases findRootCallerBody_cases hbody with ⟨rfl, -⟩ | ⟨i, -, -, hcallees, -, rfl⟩
  · exact h
  · intro j f hf
    by_cases hj : j = i
    · subst hj
      rw [Function.update_self] at hf
      rcases List.mem_append.mp hf with hf | hf
      · exact h j f hf
      · rw [List.mem_singleton.mp hf]
        exact ⟨hentry, hcallees⟩
    · rw [Function.update_of_ne hj] at hf
      exact h j f hf

/-- **No function is reported whose name a collected callee has**, nor one that is not in the
map. -/
theorem reported_findRootCaller {callees : List Decl} {m : FuncPackageMap}
    {rf rf' : RootFunctions} (h : Reported ast m callees rf)
    (hret : findRootCaller ast m callees rf = .ok rf') : Reported ast m callees rf' := by
  have hkeys : ∀ entry ∈ m.toList, entry.1 ∈ m := by
    intro entry hentry
    have hget := Std.TreeMap.mem_toList_iff_getElem?_eq_some.mp hentry
    exact Std.TreeMap.isSome_getElem?_iff_mem.mp (by rw [hget]; rfl)
  exact foldlM_invariant
    (fun entry hentry _ _ h hbody => reported_findRootCallerBody h (hkeys entry hentry) hbody) h
    hret

namespace CallGraph

/-- **A called function is never reported as a root caller**, across units. On the graph of any
units, merged in any order: if before the merge a function calls a function `g` of another name,
no definition that is `g`, or that the merge matches with `g`, is reported for any package. -/
theorem not_mem_rootFunctions (ast : ASTContext) (units : List (List Decl))
    (order : (ofUnits ast units).Enumeration) {fuel fuel' : ℕ} {m : FuncPackageMap}
    {callees : List Decl} {rf : RootFunctions}
    (hm : (((ofUnits ast units).mergeFunctionMap ast order).traverseFunction ast).descend fuel
      ((ofUnits ast units).mergeFunctionMap ast order).root ∅ = .ok m)
    (hcallees : (((ofUnits ast units).mergeFunctionMap ast order).findCallee ast m).descend fuel'
      ((ofUnits ast units).mergeFunctionMap ast order).root [] = .ok callees)
    (hrf : findRootCaller ast m callees (fun _ => []) = .ok rf)
    {c g : NodeRef} {Dc Dg Df : Decl} (hedge : g ∈ (ofUnits ast units).callees c)
    (hc : ast.asFunctionDecl ((ofUnits ast units).decl c) = some Dc)
    (hg : ast.asFunctionDecl ((ofUnits ast units).decl g) = some Dg)
    (hname : ast.name Dc ≠ ast.name Dg) (hfg : Df = Dg ∨ ast.Matches (some Df) (some Dg))
    (i : Fin packageNum) : Df ∉ rf i := by
  intro hreported
  have h := wf_ofUnits ast units
  obtain ⟨h', hs⟩ := h.mergeFunctionMap ast order
  obtain ⟨hmem, hnot⟩ :=
    reported_findRootCaller (fun i f hf => absurd hf List.not_mem_nil) hrf i Df hreported
  -- what is reported is a definition with a node
  obtain ⟨package, hpackage⟩ :=
    Option.isSome_iff_exists.mp (Std.TreeMap.isSome_getElem?_iff_mem.mpr hmem)
  obtain ⟨⟨f, hf, hDf⟩, hdef, -⟩ := h'.entered_traverseFunction
    (fun D package hD => by simp at hD) hm Df package hpackage
  obtain ⟨hdeclg, -⟩ := ASTContext.asFunctionDecl_eq_some.mp hg
  obtain ⟨hdeclf, -⟩ := ASTContext.asFunctionDecl_eq_some.mp hDf
  -- the merge gives that node the caller of `g`
  have hsame : (ofUnits ast units).SameNode ast f g := by
    have hg' := (h.edge_allocated c g hedge).2
    rw [Allocated, hs.next] at hf
    rw [hs.decl] at hdeclf
    rcases hfg with rfl | hfg
    · exact Or.inl (h.decl_inj hf hg' (hdeclf.trans hdeclg.symm))
    · exact Or.inr ⟨hf, hg', by rwa [hdeclf, hdeclg]⟩
  have hcall : f ∈ ((ofUnits ast units).mergeFunctionMap ast order).callees c :=
    h.mem_callees_of_sameNode order hsame hedge
  have hnamefg : ast.name Df = ast.name Dg := by
    rcases hfg with rfl | hM
    · rfl
    · obtain ⟨D, D2, hD, hD2, -, -, hnames, -⟩ := ASTContext.matches_iff.mp hM
      rw [Option.some.inj hD, Option.some.inj hD2, hnames]
  -- so it is collected by its type and name
  rw [← hs.decl] at hc
  have hfollows : ((ofUnits ast units).mergeFunctionMap ast order).FollowsDefinition ast c f :=
    (followsDefinition_iff hc hDf).mpr ⟨hdef, fun hsame => hname (hsame.trans hnamefg)⟩
  obtain ⟨e, he, -, hnamee⟩ :=
    h'.collected_findCallee hcallees hcall hfollows Dc Df hc hDf hmem
  exact hnot e he hnamee

/-- Two units: in the package `fs`, a function `f` that calls a declaration of `g`; in `io`, the
definition of `g`. -/
def boundary : ASTContext :=
  .ofTable [(DeclInfo.definition "f" [1]).inFile "fs/f.c", .declaration "g",
    (DeclInfo.definition "g" []).inFile "io/g.c"]

/-- Not vacuous: the definition of `g` is not reported. -/
theorem not_mem_rootFunctions_boundary :
    let G := (ofUnits boundary [[0], [2]]).mergeFunctionMap boundary (.self _)
    ∃ (m : FuncPackageMap) (callees : List Decl) (rf : RootFunctions),
      (G.traverseFunction boundary).descend 4 G.root ∅ = .ok m ∧
      (G.findCallee boundary m).descend 4 G.root [] = .ok callees ∧
      findRootCaller boundary m callees (fun _ => []) = .ok rf ∧ 2 ∉ rf 5 := by
  intro G
  let m : FuncPackageMap := ((G.traverseFunction boundary).descend 4 G.root ∅).toOption.getD ∅
  let callees : List Decl := ((G.findCallee boundary m).descend 4 G.root []).toOption.getD []
  let rf : RootFunctions :=
    (findRootCaller boundary m callees (fun _ => [])).toOption.getD (fun _ => [])
  have hm : (G.traverseFunction boundary).descend 4 G.root ∅ = .ok m :=
    eq_ok_getD ∅ (by decide +kernel)
  have hcallees : (G.findCallee boundary m).descend 4 G.root [] = .ok callees :=
    eq_ok_getD [] (by decide +kernel)
  have hrf : findRootCaller boundary m callees (fun _ => []) = .ok rf :=
    eq_ok_getD (fun _ => []) (by decide +kernel)
  have hedge : 2 ∈ (ofUnits boundary [[0], [2]]).callees 1 := by decide +kernel
  have hf : boundary.asFunctionDecl ((ofUnits boundary [[0], [2]]).decl 1) = some 0 := by
    decide +kernel
  have hg : boundary.asFunctionDecl ((ofUnits boundary [[0], [2]]).decl 2) = some 1 := by
    decide +kernel
  exact ⟨m, callees, rf, hm, hcallees, hrf, not_mem_rootFunctions boundary [[0], [2]] (.self _) hm
    hcallees hrf hedge hf hg (by decide) (Or.inr (by decide)) 5⟩

end CallGraph

end FindBoundary
