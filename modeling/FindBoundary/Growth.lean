import FindBoundary.EndToEnd
import FindBoundary.Lifetime

/-!
# What the reports say of a part of a program

The tool may be run on some of the files of a program. If in the whole of it methods of one name are
of one class, what it finds there is related to what it finds when more files are added, or other
operations are run in between: a caller that is in the margin stays there
(`Reachable.margin_grows`), and a function that is reported with all the files is reported with
those that have it (`Reachable.rootFunctions_shrink`). So for such programs only the report of root
callers can be too long.
-/

namespace FindBoundary

namespace CallGraph

variable {ast : ASTContext} {G G' : CallGraph}

/-! ## What a larger graph says -/

theorem Grows.oneClassPerName (hg : Grows G G') (hclass : G'.OneClassPerName ast) :
    G.OneClassPerName ast := fun M M' hM hM' => hclass M M' (hM.of_grows hg) (hM'.of_grows hg)

theorem Grows.functionNamed (hg : Grows G G') {n : NodeRef} {b : String} (hn : G.Allocated n)
    (hb : G.FunctionNamed ast n b) : G'.FunctionNamed ast n b := by
  obtain ⟨D, hD, hname⟩ := hb
  exact ⟨D, (hg.decl n hn).symm ▸ hD, hname⟩

theorem Grows.definedIn (hg : Grows G G') {i : Fin packageNum} {g : Decl}
    (hdef : G.DefinedIn ast i g) : G'.DefinedIn ast i g := by
  obtain ⟨⟨n, hn, hD⟩, hpackage⟩ := hdef
  exact ⟨⟨n, hg.allocated hn, (hg.decl n hn).symm ▸ hD⟩, hpackage⟩

theorem Grows.mem_callees (hg : Grows G G') (h : WF G) {p c : NodeRef} (hc : c ∈ G.callees p) :
    c ∈ G'.callees p := (hg.callees p (h.edge_allocated p c hc).1).subset hc

theorem Grows.namedCall (hg : Grows G G') (h : WF G) {b b' : String}
    (hcall : G.NamedCall ast b b') : G'.NamedCall ast b b' := by
  obtain ⟨⟨p, c, hc, hp, hc'⟩, hne⟩ := hcall
  obtain ⟨hpa, hca⟩ := h.edge_allocated p c hc
  exact ⟨⟨p, c, hg.mem_callees h hc, hg.functionNamed hpa hp, hg.functionNamed hca hc'⟩, hne⟩

/-- Adding more files is a run. -/
theorem run_ofUnits_append (ast : ASTContext) (units more : List (List Decl)) :
    Run ast (ofUnits ast units) (ofUnits ast (units ++ more)) := by
  rw [ofUnits_eq, ofUnits_eq, List.flatten_append, addToCallGraph, addToCallGraph,
    List.foldl_append]
  exact run_addToCallGraph ast more.flatten _

/-! ## What is found with more files -/

variable {order : G.Enumeration} {order' : G'.Enumeration} {fuel fuel' : ℕ} {a a' : Analysis}

/-- **The report shrinks**: of the functions that are defined in a package already, only those can
be reported as its root callers after more operations that have been reported before, if in the end
methods of one name are of one class. -/
theorem Reachable.rootFunctions_shrink (h : Reachable ast G) (hr : Run ast G G')
    (hclass : G'.OneClassPerName ast) (ha : (G.mergeFunctionMap ast order).analyse ast fuel = .ok a)
    (ha' : (G'.mergeFunctionMap ast order').analyse ast fuel' = .ok a') {i : Fin packageNum}
    {g : Decl} (hdef : G.DefinedIn ast i g) (hreported : g ∈ a'.rootFunctions i) :
    g ∈ a.rootFunctions i := by
  have hg := h.grows hr
  have hcand := fun {g : Decl} => h.wf.candidate_iff_names (hg.oneClassPerName hclass) ha
    (i := i) (g := g)
  have hcand' := fun {g : Decl} => (h.run hr).wf.candidate_iff_names hclass ha'
    (i := i) (g := g)
  obtain ⟨hg', hfirst⟩ :=
    (mem_findRootCaller_iff (analysed_of_analyse ha').findRootCaller).mp hreported
  have hnot := (hcand'.mp hg').2
  refine (mem_findRootCaller_iff (analysed_of_analyse ha).findRootCaller).mpr
    ⟨hcand.mpr ⟨hdef, fun b hb => hnot b (hg.namedCall h.wf hb)⟩, fun f hf hname => ?_⟩
  -- an earlier definition of this name would come first with all the files, too
  refine hfirst f (hcand'.mpr ⟨hg.definedIn (hcand.mp hf).1, fun b hb => ?_⟩) hname
  exact hnot b (hname ▸ hb)

/-! ## A third file -/

/-- The two files of `boundary`, and one in the package `kernel` with a function `h` that calls the
same declaration of `g`. -/
def threeFiles : ASTContext :=
  .ofTable [(DeclInfo.definition "f" [1]).inFile "fs/f.c", .declaration "g",
    (DeclInfo.definition "g" []).inFile "io/g.c", (DeclInfo.definition "h" [1]).inFile "kernel/h.c"]

theorem threeFiles_oneClassPerName (G : CallGraph) : G.OneClassPerName threeFiles :=
  oneClassPerName_of_no_method (no_method_ofTable (by decide)) G

/-- What the passes do for some of the files. -/
def analyseThreeFiles (units : List (List Decl)) : Except (Descent.Stop Fault) Analysis :=
  ((ofUnits threeFiles units).mergeFunctionMap threeFiles (.self _)).analyse threeFiles 5

/-- Not vacuous: `f` is reported with three files, so it is with two. -/
theorem rootFunctions_shrink_threeFiles : ∃ a, analyseThreeFiles [[0], [2]] = .ok a ∧
    0 ∈ a.rootFunctions 2 := by
  have ha : analyseThreeFiles [[0], [2]] = .ok _ := eq_ok_getD {} (by decide +kernel)
  have ha' : analyseThreeFiles [[0], [2], [3]] = .ok _ := eq_ok_getD {} (by decide +kernel)
  have hdef : (ofUnits threeFiles [[0], [2]]).DefinedIn threeFiles 2 0 :=
    ⟨⟨1, by decide +kernel, by decide +kernel⟩, by decide +kernel, by decide +kernel⟩
  exact ⟨_, ha, (reachable_ofUnits threeFiles [[0], [2]]).rootFunctions_shrink
    (run_ofUnits_append threeFiles [[0], [2]] [[3]]) (threeFiles_oneClassPerName _) ha ha' hdef
    (by decide +kernel)⟩

end CallGraph

end FindBoundary
