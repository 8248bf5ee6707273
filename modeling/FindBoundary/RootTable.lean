import FindBoundary.Outcome
import FindBoundary.Report

/-!
# The table of root callers

`findRootCaller` indexes its table with what `getTypeIndex` finds for a package name that another
pass has written. It can rely on that: whatever the graph, `traverseFunction` writes the name of
a package or the mark for the absence of one, and the mark is tested for.
-/

namespace FindBoundary

open Descent

variable {ast : ASTContext} {m : FuncPackageMap} {callees : List Decl}

/-- What `traverseFunction` makes of an empty map on any graph: functions, with the packages of
their files. -/
def Filed (ast : ASTContext) (m : FuncPackageMap) : Prop :=
  ∀ (D : Decl) (package : String), m[D]? = some package →
    (ast.info D).kind.isFunctionDecl = true ∧ package = packageOf (ast.info D).filename

theorem CallGraph.filed_traverseFunction {G : CallGraph} {fuel : ℕ} {p : NodeRef}
    {m m' : FuncPackageMap} (hm : Filed ast m)
    (hret : (G.traverseFunction ast).descend fuel p m = .ok m') : Filed ast m' := by
  refine Traversal.descend_invariant (P := Filed ast) ?_ hm hret
  intro p c _ l m l' m' hm hbody
  obtain ⟨tmp, htmp, ⟨-, rfl⟩ | ⟨-, rfl⟩⟩ := traverseFunctionBody_eq_ok hbody
  · exact hm
  · intro D package hD
    rcases FuncPackageMap.getElem?_insertIfNew hD with ⟨rfl, rfl⟩ | hD
    · exact ⟨(ASTContext.asFunctionDecl_eq_some.mp htmp).2, rfl⟩
    · exact hm D package hD

/-- An entry with the name of a package, or without one, is no fault. -/
theorem exists_findRootCallerBody {entry : Decl × String}
    (hentry : entry.2 = "empty" ∨ ∃ i, entry.2 = keys i) (rf : RootFunctions) :
    ∃ rf', findRootCallerBody ast callees rf entry = .ok rf' := by
  simp only [findRootCallerBody]
  split
  · exact ⟨rf, rfl⟩
  · split
    · exact ⟨rf, rfl⟩
    · split
      · exact ⟨rf, rfl⟩
      · rename_i hempty
        obtain ⟨i, hi⟩ := hentry.resolve_left hempty
        rw [getTypeIndex_eq_some.mpr hi.symm]
        split
        · rename_i hnone
          cases hnone
        · split <;> exact ⟨_, rfl⟩

theorem Filed.exists_findRootCaller (hm : Filed ast m) (callees : List Decl)
    (rf : RootFunctions) : ∃ rf', findRootCaller ast m callees rf = .ok rf' := by
  refine exists_foldlM (fun entry hentry rf => exists_findRootCallerBody ?_ rf) rf
  rw [(hm _ _ (Std.TreeMap.mem_toList_iff_getElem?_eq_some.mp hentry)).2]
  exact packageOf_cases _

/-- In no package two functions of one name are reported. -/
def NamesDistinct (ast : ASTContext) (rf : RootFunctions) : Prop :=
  ∀ i, (rf i).Pairwise fun f g => ast.name f ≠ ast.name g

theorem NamesDistinct.findRootCallerBody {rf rf' : RootFunctions} {entry : Decl × String}
    (h : NamesDistinct ast rf) (hbody : findRootCallerBody ast callees rf entry = .ok rf') :
    NamesDistinct ast rf' := by
  rcases findRootCallerBody_cases hbody with ⟨rfl, -⟩ | ⟨i, -, -, -, hnew, rfl⟩
  · exact h
  · intro j
    by_cases hj : j = i
    · subst hj
      rw [Function.update_self]
      refine List.pairwise_append.mpr ⟨h j, List.pairwise_singleton _ _, ?_⟩
      intro g hg f hf
      rw [List.mem_singleton.mp hf]
      exact hnew g hg
    · rw [Function.update_of_ne hj]
      exact h j

namespace CallGraph

/-- **The indices are valid and the table is well formed**, whatever the graph is. After
`traverseFunction`, every package but the mark for its absence has an index, so neither `findMargin`
nor `findRootCaller` indexes out of bounds; the functions reported for a package are in it, no two
of them have one name, and every name that a function of the package has and no collected callee has
is among theirs. -/
theorem rootFunctions_table {G : CallGraph} {fuel : ℕ}
    (hm : (G.traverseFunction ast).descend fuel G.root ∅ = .ok m) :
    (∀ (D : Decl) (package : String), m[D]? = some package →
      package = "empty" ∨ ∃ i, getTypeIndex package = some i) ∧
    (∀ fuel e, (G.findMargin ast m).descend fuel G.root CallRelation.empty ≠
      .error (.fault e)) ∧
    ∀ callees, ∃ rf, findRootCaller ast m callees (fun _ => []) = .ok rf ∧
      (∀ i, ∀ f ∈ rf i, m[f]? = some (keys i)) ∧
      (∀ i, (rf i).Pairwise fun f g => ast.name f ≠ ast.name g) ∧
      ∀ i D, m[D]? = some (keys i) → (∀ e ∈ callees, ast.name e ≠ ast.name D) →
        ∃ g ∈ rf i, ast.name g = ast.name D := by
  have hfiled : Filed ast m := filed_traverseFunction (fun D package hD => by simp at hD) hm
  refine ⟨fun D package hD => ?_, fun fuel e he => ?_, fun callees => ?_⟩
  · rw [(hfiled D package hD).2]
    exact (packageOf_cases _).imp_right fun ⟨i, hi⟩ => ⟨i, getTypeIndex_eq_some.mpr hi.symm⟩
  · obtain ⟨p, c, l, rel, hbody⟩ := Traversal.exists_body_eq_error he
    obtain ⟨turn, hturn⟩ := findMarginBody_sound m p c l rel
    cases hbody.symm.trans hturn
  · obtain ⟨rf, hrf⟩ := hfiled.exists_findRootCaller callees fun _ => []
    refine ⟨rf, hrf, fun i f hf => ?_, ?_, fun i D hD hnot => ?_⟩
    · exact ((mem_findRootCaller_iff hrf).mp hf).1.package
    · exact foldlM_invariant (P := NamesDistinct ast)
        (fun entry _ rf rf' h hbody => h.findRootCallerBody hbody)
        (fun _ => List.Pairwise.nil) hrf
    · have hcand : Candidate ast m callees i D := ⟨(hfiled D _ hD).1, hD, hnot⟩
      exact (reportedFirst_findRootCaller hrf).covered i D hcand.mem_toList hcand

/-- Not vacuous: with `f`, which calls `g`, in the package `fs` and `g` in `io`, a function named
`f` is reported in `fs`. -/
theorem rootFunctions_table_boundary :
    let G := (ofUnits boundary [[0], [2]]).mergeFunctionMap boundary (.self _)
    ∃ m : FuncPackageMap, (G.traverseFunction boundary).descend 4 G.root ∅ = .ok m ∧
      ∃ rf, findRootCaller boundary m [2] (fun _ => []) = .ok rf ∧
        ∃ g ∈ rf 2, boundary.name g = "f" := by
  intro G
  let m : FuncPackageMap := ((G.traverseFunction boundary).descend 4 G.root ∅).toOption.getD ∅
  have hm : (G.traverseFunction boundary).descend 4 G.root ∅ = .ok m :=
    eq_ok_getD ∅ (by decide +kernel)
  have hf : m[0]? = some (keys 2) := by decide +kernel
  obtain ⟨rf, hrf, -, -, hcovered⟩ := (rootFunctions_table hm).2.2 [2]
  exact ⟨m, hm, rf, hrf, hcovered 2 0 hf (by decide)⟩

end CallGraph

end FindBoundary
