import FindBoundary.Faults
import FindBoundary.Names
import FindBoundary.Nesting
import FindBoundary.Printing
import FindBoundary.RootTable
import FindBoundary.SavedAsts

/-!
# The tool

`main` puts the parts together: it runs the front end, which saves the ASTs, loads them, builds and
merges the call graph, and makes the passes over it, each with the tables of those before. Whether
it comes to an end is a matter of the names in the program and of nothing else (`main_returns_iff`);
if it fails then by a null dereference (`main_fault`); and in both cases with no more calls open at
once than the graph has nodes (`main_nesting`).
-/

namespace FindBoundary

open Descent

/-- The tables that the passes fill. -/
structure Analysis : Type where
  funcPackageMap : FuncPackageMap := ∅
  callRelation : CallRelation := .empty
  callees : List Decl := []
  rootFunctions : RootFunctions := fun _ => []

/-- What is printed: `margin.txt`, `margin.dot` and the log of the reports. -/
structure Output : Type where
  margin : String
  marginDot : String
  errs : String

/-- The calls of `printMargin`, `printMarginDot` and `printRootCaller`. -/
def Analysis.print (ast : ASTContext) (a : Analysis) : Output where
  margin := (printMargin ast a.callRelation).margin
  marginDot := printMarginDot a.funcPackageMap a.callRelation ast
  errs := (printMargin ast a.callRelation).errs ++ printRootCaller ast a.rootFunctions

namespace CallGraph

variable (ast : ASTContext) (G : CallGraph)

/-- The passes of `main` over the merged graph. -/
def analyse (fuel : ℕ) : Except (Stop Fault) Analysis := do
  let funcPackageMap ← (G.traverseFunction ast).descend fuel G.root ∅
  let callRelation ← (G.findMargin ast funcPackageMap).descend fuel G.root .empty
  let callees ← (G.findCallee ast funcPackageMap).descend fuel G.root []
  let rootFunctions ← (findRootCaller ast funcPackageMap callees fun _ => []).mapError .fault
  return { funcPackageMap, callRelation, callees, rootFunctions }

/-- The tables are what the passes leave, one after the other. -/
structure Analysed (a : Analysis) : Prop where
  traverseFunction : ∃ fuel,
    (G.traverseFunction ast).descend fuel G.root ∅ = .ok a.funcPackageMap
  findMargin : ∃ fuel,
    (G.findMargin ast a.funcPackageMap).descend fuel G.root .empty = .ok a.callRelation
  findCallee : ∃ fuel,
    (G.findCallee ast a.funcPackageMap).descend fuel G.root [] = .ok a.callees
  findRootCaller :
    findRootCaller ast a.funcPackageMap a.callees (fun _ => []) = .ok a.rootFunctions

end CallGraph

/-- How `main` ends: its status, and what it has found and printed if it comes to that. -/
structure Exit : Type where
  status : ℤ
  analysis : Option Analysis := none
  output : Option Output := none

variable (ast : ASTContext)

/-- `main`, from the run of the tool on. The front end gives its `result`, the files may have been
there before, `topLevelDecls` has the declarations of each loaded unit, and `order` is the order of
the hash map. -/
def main (topLevelDecls : ℕ → TranslationUnit → List Decl) (sources : List SourcePath)
    (old : String → Option TranslationUnit) (result : ℤ) (order : ∀ G : CallGraph, G.Enumeration)
    (fuel : ℕ) : Except (Stop Fault) Exit :=
  match (SavedFiles.run sources).loadUnits old (files sources) with
  | none => .ok { status := 1 }
  | some units =>
    let cg := CallGraph.ofUnits ast (units.mapIdx topLevelDecls)
    ((cg.mergeFunctionMap ast (order cg)).analyse ast fuel).map fun a =>
      { status := result, analysis := some a, output := some (a.print ast) }

/-! ## The passes together -/

/-- A computation that ends well has a first part that does. -/
theorem bind_eq_ok {ε α β : Type} {x : Except ε α} {f : α → Except ε β} {b : β}
    (h : x >>= f = .ok b) : ∃ a, x = .ok a ∧ f a = .ok b := by
  cases x with
  | error e => cases h
  | ok a => exact ⟨a, rfl, h⟩

/-- A computation that fails does so in its first part or behind it. -/
theorem bind_eq_error {ε α β : Type} {x : Except ε α} {f : α → Except ε β} {e : ε}
    (h : x >>= f = .error e) : x = .error e ∨ ∃ a, x = .ok a ∧ f a = .error e := by
  cases x with
  | error e' =>
    cases h
    exact Or.inl rfl
  | ok a => exact Or.inr ⟨a, rfl, h⟩

/-- Computations agree where the one does not stop with `e` if their parts do. -/
theorem bind_congr_of_ne {ε α β : Type} {x x' : Except ε α} {f f' : α → Except ε β} {e : ε}
    (hx : x ≠ .error e → x' = x) (hf : ∀ a, f a ≠ .error e → f' a = f a)
    (h : x >>= f ≠ .error e) : x' >>= f' = x >>= f := by
  have hne : x ≠ .error e := by
    rintro rfl
    exact h rfl
  rw [hx hne]
  cases x with
  | error e' => rfl
  | ok a => exact hf a h

theorem mapError_eq_ok {ε ε' α : Type} {x : Except ε α} {f : ε → ε'} {a : α}
    (h : x.mapError f = .ok a) : x = .ok a := by
  cases x with
  | error e => cases h
  | ok a' => exact congrArg Except.ok (Except.ok.inj h)

namespace CallGraph

variable {ast} {G : CallGraph}

theorem analysed_of_analyse {fuel : ℕ} {a : Analysis} (h : G.analyse ast fuel = .ok a) :
    G.Analysed ast a := by
  obtain ⟨m, hm, h⟩ := bind_eq_ok h
  obtain ⟨rel, hrel, h⟩ := bind_eq_ok h
  obtain ⟨callees, hcallees, h⟩ := bind_eq_ok h
  obtain ⟨rf, hrf, h⟩ := bind_eq_ok h
  cases h
  exact ⟨⟨fuel, hm⟩, ⟨fuel, hrel⟩, ⟨fuel, hcallees⟩, mapError_eq_ok hrf⟩

/-- One fuel suffices for all the passes. -/
theorem Analysed.exists_analyse {a : Analysis} (h : G.Analysed ast a) :
    ∃ fuel, G.analyse ast fuel = .ok a := by
  obtain ⟨n₁, hm⟩ := h.traverseFunction
  obtain ⟨n₂, hrel⟩ := h.findMargin
  obtain ⟨n₃, hcallees⟩ := h.findCallee
  have hok : ∀ {α β : Type} (a : α) (f : α → Except (Stop Fault) β), (.ok a >>= f) = f a :=
    fun _ _ => rfl
  refine ⟨n₁ + n₂ + n₃, ?_⟩
  rw [analyse, Traversal.descend_mono_ok (by omega) hm, hok,
    Traversal.descend_mono_ok (by omega) hrel, hok, Traversal.descend_mono_ok (by omega) hcallees,
    hok, h.findRootCaller]
  rfl

/-- **When the passes come to an end**: all of them do if `traverseFunction` does. -/
theorem WF.exists_analyse_iff (h : WF G) :
    (∃ fuel a, G.analyse ast fuel = .ok a) ↔
      G.AllFunctions ast ∧
        ∀ n, ¬ Relation.TransGen (fun p c => c ∈ G.callees p ∧ ¬ G.SameName ast p c) n n := by
  rw [AllFunctions, ← h.traverseFunction_returns_iff ∅]
  refine ⟨?_, ?_⟩
  · rintro ⟨fuel, a, ha⟩
    obtain ⟨fuel', hm⟩ := (analysed_of_analyse ha).traverseFunction
    exact ⟨fuel', _, hm⟩
  · rintro hret
    obtain ⟨fuel, m, hm⟩ := id hret
    have hacyclic : ∀ n, ¬ Relation.TransGen
        (fun p c => c ∈ G.callees p ∧ G.FollowsDefinition ast p c) n n := fun n hn =>
      ((h.traverseFunction_returns_iff ∅).mp hret).2 n (transGen_not_sameName hn)
    obtain ⟨fuel₂, rel, hrel⟩ := (h.findMargin_returns_iff m CallRelation.empty).mpr hacyclic
    obtain ⟨fuel₃, callees, hcallees⟩ := (h.findCallee_returns_iff m []).mpr hacyclic
    have hfiled : Filed ast m := filed_traverseFunction (fun D package hD => by simp at hD) hm
    obtain ⟨rf, hrf⟩ := hfiled.exists_findRootCaller callees fun _ => []
    have ha : G.Analysed ast ⟨m, rel, callees, rf⟩ :=
      ⟨⟨fuel, hm⟩, ⟨fuel₂, hrel⟩, ⟨fuel₃, hcallees⟩, hrf⟩
    obtain ⟨fuel', ha'⟩ := ha.exists_analyse
    exact ⟨fuel', _, ha'⟩

/-- **How the passes fail**: by the null dereference, and only if some node is not that of a
function. -/
theorem WF.analyse_fault (h : WF G) {fuel : ℕ} {e : Fault}
    (he : G.analyse ast fuel = .error (.fault e)) :
    e = .nullDereference ∧ ¬ G.AllFunctions ast := by
  rcases bind_eq_error he with hm | ⟨m, hm, he⟩
  · refine ⟨eq_nullDereference hm, fun hall => ?_⟩
    obtain ⟨p, c, hc, hnot⟩ := (Traversal.fails_of_descend traverseFunction_uniform
      traverseFunctionBody_sound hm).exists_not_sound
    exact hnot (hall c (h.isFunctionNode_of_mem hc))
  rcases bind_eq_error he with hrel | ⟨rel, -, he⟩
  · obtain ⟨p, c, l, s, hbody⟩ := Traversal.exists_body_eq_error hrel
    obtain ⟨turn, hturn⟩ := findMarginBody_sound m p c l s
    cases hbody.symm.trans hturn
  rcases bind_eq_error he with hcallees | ⟨callees, -, he⟩
  · obtain ⟨p, c, l, s, hbody⟩ := Traversal.exists_body_eq_error hcallees
    obtain ⟨turn, hturn⟩ := findCalleeBody_sound m p c l s
    cases hbody.symm.trans hturn
  -- the table of root callers is indexed with packages that have an index
  have hfiled : Filed ast m := filed_traverseFunction (fun D package hD => by simp at hD) hm
  obtain ⟨rf, hrf⟩ := hfiled.exists_findRootCaller callees fun _ => []
  rw [hrf] at he
  cases he

/-! ## How deep the passes nest -/

/-- A traversal of the graph from the root that stops has at most as many calls open at once as
there are nodes. -/
theorem WF.descend_next_eq (h : WF G) {κ σ : Type} {T : Traversal NodeRef κ σ Fault}
    {follow sound : NodeRef → NodeRef → Prop} (hchildren : T.children = G.callees)
    (hT : T.Uniform follow) (hsound : ∀ p c l s, (∃ turn, T.body p c l s = .ok turn) ↔ sound p c)
    {fuel : ℕ} {s : σ} (hne : T.descend fuel G.root s ≠ .error .outOfFuel) :
    T.descend G.next G.root s = T.descend fuel G.root s := by
  rw [← Finset.card_range G.next]
  refine Traversal.descend_card_eq hT hsound (fun q hq => Finset.mem_range.mpr ?_) hne
  rcases Relation.ReflTransGen.cases_tail hq with rfl | ⟨p, -, hp⟩
  · exact h.root_allocated
  · have hq' := hp.1.mem
    rw [hchildren] at hq'
    exact (h.edge_allocated p q hq').2

theorem WF.analyse_next_eq (h : WF G) {fuel : ℕ}
    (hne : G.analyse ast fuel ≠ .error .outOfFuel) :
    G.analyse ast G.next = G.analyse ast fuel := by
  refine bind_congr_of_ne (h.descend_next_eq rfl traverseFunction_uniform
    traverseFunctionBody_sound) (fun m => ?_) hne
  refine bind_congr_of_ne (h.descend_next_eq rfl (findMargin_uniform m)
    fun p c l s => iff_of_true (findMarginBody_sound m p c l s) trivial) fun rel => ?_
  exact bind_congr_of_ne (h.descend_next_eq rfl (findCallee_uniform m)
    fun p c l s => iff_of_true (findCalleeBody_sound m p c l s) trivial) fun callees _ => rfl

end CallGraph

/-! ## The whole program -/

open CallGraph (blockInBody boundary ofUnits)

variable {ast} {topLevelDecls : ℕ → TranslationUnit → List Decl} {sources : List SourcePath}
  {old : String → Option TranslationUnit}

/-- The graph of the units that `main` loads. -/
def Loaded (ast : ASTContext) (topLevelDecls : ℕ → TranslationUnit → List Decl)
    (sources : List SourcePath) (old : String → Option TranslationUnit) (cg : CallGraph) : Prop :=
  ∃ units, (SavedFiles.run sources).loadUnits old (files sources) = some units ∧
    cg = ofUnits ast (units.mapIdx topLevelDecls)

theorem Loaded.wf {cg : CallGraph} (h : Loaded ast topLevelDecls sources old cg) : cg.WF := by
  obtain ⟨units, -, rfl⟩ := h
  exact CallGraph.wf_ofUnits ast _

/-- What `main` does once it has loaded the units. -/
theorem Loaded.main_eq {cg : CallGraph} (h : Loaded ast topLevelDecls sources old cg) (result : ℤ)
    (order : ∀ G : CallGraph, G.Enumeration) (fuel : ℕ) :
    main ast topLevelDecls sources old result order fuel =
      ((cg.mergeFunctionMap ast (order cg)).analyse ast fuel).map fun a =>
        { status := result, analysis := some a, output := some (a.print ast) } := by
  obtain ⟨units, hload, rfl⟩ := h
  rw [main, hload]

/-- If a file cannot be loaded, nothing else is done. -/
theorem main_eq_of_not_loaded (hload : ∀ cg, ¬ Loaded ast topLevelDecls sources old cg)
    (result : ℤ) (order : ∀ G : CallGraph, G.Enumeration) (fuel : ℕ) :
    main ast topLevelDecls sources old result order fuel = .ok { status := 1 } := by
  rw [main]
  cases hunits : (SavedFiles.run sources).loadUnits old (files sources) with
  | none => rfl
  | some units => exact absurd ⟨units, hunits, rfl⟩ (hload _)

/-- **When the tool comes to an end.** If methods of one name are of one class then it does so, in
whatever order it walks over the hash map, exactly if a file cannot be loaded, or all nodes are
those of functions and no functions of different names call each other in a circle. -/
theorem main_returns_iff (ast : ASTContext) (topLevelDecls : ℕ → TranslationUnit → List Decl)
    (sources : List SourcePath) (old : String → Option TranslationUnit) (result : ℤ)
    (order : ∀ G : CallGraph, G.Enumeration)
    (hclass : ∀ cg, Loaded ast topLevelDecls sources old cg → cg.OneClassPerName ast) :
    (∃ fuel exit, main ast topLevelDecls sources old result order fuel = .ok exit) ↔
      ∀ cg, Loaded ast topLevelDecls sources old cg →
        cg.AllFunctions ast ∧ ∀ a, ¬ Relation.TransGen (cg.NamedCall ast) a a := by
  by_cases hload : ∃ cg, Loaded ast topLevelDecls sources old cg
  · obtain ⟨cg, hcg⟩ := hload
    have hunique : ∀ cg', Loaded ast topLevelDecls sources old cg' → cg' = cg := by
      rintro cg' ⟨units', hunits', rfl⟩
      obtain ⟨units, hunits, rfl⟩ := hcg
      rw [Option.some.inj (hunits'.symm.trans hunits)]
    have hmain : (∃ fuel exit, main ast topLevelDecls sources old result order fuel = .ok exit) ↔
        ∃ fuel a, (cg.mergeFunctionMap ast (order cg)).analyse ast fuel = .ok a := by
      refine exists_congr fun fuel => ?_
      rw [hcg.main_eq]
      cases (cg.mergeFunctionMap ast (order cg)).analyse ast fuel with
      | error e => exact iff_of_false (fun ⟨_, h⟩ => by cases h) (fun ⟨_, h⟩ => by cases h)
      | ok a => exact iff_of_true ⟨_, rfl⟩ ⟨_, rfl⟩
    have hwf := hcg.wf
    rw [hmain, (hwf.mergeFunctionMap ast (order cg)).1.exists_analyse_iff,
      hwf.allFunctions_mergeFunctionMap]
    refine ⟨fun hret cg' hcg' => ?_, fun hret => ?_⟩
    · rw [hunique cg' hcg']
      exact ⟨hret.1, (hwf.acyclic_mergeFunctionMap_iff _ hret.1 (hclass cg hcg)).mp hret.2⟩
    · obtain ⟨hall, hacyclic⟩ := hret cg hcg
      exact ⟨hall, (hwf.acyclic_mergeFunctionMap_iff _ hall (hclass cg hcg)).mpr hacyclic⟩
  · have hnone : ∀ cg, ¬ Loaded ast topLevelDecls sources old cg := fun cg hcg => hload ⟨cg, hcg⟩
    refine iff_of_true ⟨0, _, main_eq_of_not_loaded hnone result order 0⟩ ?_
    exact fun cg hcg => absurd hcg (hnone cg)

/-- Where there are no methods, all methods of one name are of one class. -/
theorem CallGraph.oneClassPerName_of_no_method
    (h : ∀ D, (ast.info D).kind.isCXXMethodDecl = false) (G : CallGraph) :
    G.OneClassPerName ast := by
  intro M M' _ _ hM
  rw [h] at hM
  cases hM

theorem no_method_ofTable {infos : List DeclInfo}
    (hinfos : ∀ info ∈ infos, info.kind.isCXXMethodDecl = false) (D : Decl) :
    ((ASTContext.ofTable infos).info D).kind.isCXXMethodDecl = false := by
  rcases ASTContext.info_ofTable infos D with h | h
  · exact hinfos _ h
  · exact congrArg (fun info : DeclInfo => info.kind.isCXXMethodDecl) h

/-- The declarations of the two files of `boundary`. -/
def boundaryDecls (i : ℕ) (_ : TranslationUnit) : List Decl := if i = 0 then [0] else [2]

theorem boundary_no_method (D : Decl) : (boundary.info D).kind.isCXXMethodDecl = false :=
  no_method_ofTable (by decide) D

theorem loaded_boundary : Loaded boundary boundaryDecls [⟨"fs/f.c", 1⟩, ⟨"io/g.c", 1⟩]
    (fun _ => none) (ofUnits boundary [[0], [2]]) :=
  ⟨[⟨"fs/f.c", 0⟩, ⟨"io/g.c", 0⟩], by decide, rfl⟩

/-- Not vacuous: the tool comes to an end for the two files, whose functions do not call each other
in a circle. -/
theorem main_returns_iff_boundary :
    let sources : List SourcePath := [⟨"fs/f.c", 1⟩, ⟨"io/g.c", 1⟩]
    (∃ exit, main boundary boundaryDecls sources (fun _ => none) 0 (fun G => .self G) 4 =
      .ok exit) ∧
    ∀ a, ¬ Relation.TransGen ((ofUnits boundary [[0], [2]]).NamedCall boundary) a a := by
  intro sources
  have hret : main boundary boundaryDecls sources (fun _ => none) 0 (fun G => .self G) 4 = .ok _ :=
    eq_ok_getD { status := 1 } (by decide +kernel)
  have hclass : ∀ cg, Loaded boundary boundaryDecls sources (fun _ => none) cg →
      cg.OneClassPerName boundary := fun cg _ =>
    CallGraph.oneClassPerName_of_no_method boundary_no_method cg
  exact ⟨⟨_, hret⟩, ((main_returns_iff boundary boundaryDecls sources (fun _ => none) 0
    (fun G => .self G) hclass).mp ⟨4, _, hret⟩ _ loaded_boundary).2⟩

/-- **How the tool fails**: by the null dereference, and only if all files are loaded and some node
is not that of a function. It never indexes out of bounds. -/
theorem main_fault {result : ℤ} {order : ∀ G : CallGraph, G.Enumeration} {fuel : ℕ} {e : Fault}
    (he : main ast topLevelDecls sources old result order fuel = .error (.fault e)) :
    e = .nullDereference ∧
      ∃ cg, Loaded ast topLevelDecls sources old cg ∧ ¬ cg.AllFunctions ast := by
  by_cases hload : ∃ cg, Loaded ast topLevelDecls sources old cg
  · obtain ⟨cg, hcg⟩ := hload
    rw [hcg.main_eq] at he
    cases ha : (cg.mergeFunctionMap ast (order cg)).analyse ast fuel with
    | ok a =>
      rw [ha] at he
      cases he
    | error stop =>
      rw [ha] at he
      cases he
      obtain ⟨hnull, hnot⟩ := (hcg.wf.mergeFunctionMap ast (order cg)).1.analyse_fault ha
      exact ⟨hnull, cg, hcg, fun hall => hnot (hcg.wf.allFunctions_mergeFunctionMap.mpr hall)⟩
  · rw [main_eq_of_not_loaded fun cg hcg => hload ⟨cg, hcg⟩] at he
    cases he

/-- Not vacuous: a file with a block in it, whose node is that of no function. -/
theorem main_fault_blockInBody : ∃ cg, Loaded blockInBody (fun _ _ => [0]) [⟨"a.c", 1⟩]
    (fun _ => none) cg ∧ ¬ cg.AllFunctions blockInBody := by
  have hfault : main blockInBody (fun _ _ => [0]) [⟨"a.c", 1⟩] (fun _ => none) 0
      (fun G => .self G) 1 = .error (.fault .nullDereference) := rfl
  exact (main_fault hfault).2

/-- **How deep the tool nests its calls**: if it stops with any bound on the number of calls that
are open at once, be it at its end or at a fault, then it does the same with as many as there are
nodes in the graph. -/
theorem main_nesting {cg : CallGraph} (h : Loaded ast topLevelDecls sources old cg) {result : ℤ}
    {order : ∀ G : CallGraph, G.Enumeration} {fuel : ℕ}
    (hne : main ast topLevelDecls sources old result order fuel ≠ .error .outOfFuel) :
    main ast topLevelDecls sources old result order cg.next =
      main ast topLevelDecls sources old result order fuel := by
  rw [h.main_eq] at hne
  rw [h.main_eq, h.main_eq]
  obtain ⟨h', hs⟩ := h.wf.mergeFunctionMap ast (order cg)
  rw [← hs.next, h'.analyse_next_eq]
  intro hout
  rw [hout] at hne
  exact hne rfl

/-- Not vacuous: the two files of `boundary` have a graph of four nodes. -/
theorem main_nesting_boundary :
    main boundary boundaryDecls [⟨"fs/f.c", 1⟩, ⟨"io/g.c", 1⟩] (fun _ => none) 0
        (fun G => .self G) (ofUnits boundary [[0], [2]]).next =
      main boundary boundaryDecls [⟨"fs/f.c", 1⟩, ⟨"io/g.c", 1⟩] (fun _ => none) 0
        (fun G => .self G) 10 := by
  have hret : main boundary boundaryDecls [⟨"fs/f.c", 1⟩, ⟨"io/g.c", 1⟩] (fun _ => none) 0
      (fun G => .self G) 10 = .ok _ := eq_ok_getD { status := 1 } (by decide +kernel)
  refine main_nesting loaded_boundary fun hout => ?_
  cases hret.symm.trans hout

end FindBoundary
