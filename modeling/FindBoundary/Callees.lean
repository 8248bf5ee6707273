import FindBoundary.Classification

/-!
# What `findCallee` collects

The list of callees is handed down a recursion that comes to a node once for every path to it. A
callee is appended only if none of its type and name has been, so coming back changes nothing; and
since the root calls every node and skips none, every call is met.
-/

namespace FindBoundary

namespace CallGraph

open Descent

variable {ast : ASTContext} {G : CallGraph} {m : FuncPackageMap}

/-! ## Every called definition is collected -/

/-- The callee of the edge is collected, if it is a definition in the map and followed. -/
def CollectedEdge (G : CallGraph) (ast : ASTContext) (m : FuncPackageMap) (p c : NodeRef)
    (callees : List Decl) : Prop :=
  G.FollowsDefinition ast p c → ∀ caller callee, ast.asFunctionDecl (G.decl p) = some caller →
    ast.asFunctionDecl (G.decl c) = some callee → callee ∈ m → Collected ast callees callee

theorem Collected.mono {callees callees' : List Decl} (hle : callees <+: callees') {D : Decl}
    (h : Collected ast callees D) : Collected ast callees' D := by
  obtain ⟨it3, hmem, hsame⟩ := h
  exact ⟨it3, hle.subset hmem, hsame⟩

/-- A turn of `findCallee` appends the callee of an edge that is followed, if it is not collected
yet, or nothing; and its own edge is dealt with. -/
theorem findCalleeBody_eq_ok {p c : NodeRef} {l l' : Unit} {callees callees' : List Decl}
    (hbody : (G.findCallee ast m).Step p c l callees l' callees') :
    (callees' = callees ∨
      ∃ caller d, G.FollowsDefinition ast p c ∧ ast.asFunctionDecl (G.decl p) = some caller ∧
        ast.asFunctionDecl (G.decl c) = some d ∧ d ∈ m ∧ ¬ Collected ast callees d ∧
          callees' = callees ++ [d]) ∧
    G.CollectedEdge ast m p c callees' := by
  by_cases hf : G.FollowsDefinition ast p c
  · obtain ⟨callees₁, hinto, hkept, hcollected⟩ := findCalleeBody_of_follows l callees hf
    rcases hbody with hbody | hbody
    · cases hinto.symm.trans hbody
    · cases hinto.symm.trans hbody
      refine ⟨hkept.imp_right ?_, fun _ => hcollected⟩
      rintro ⟨caller, d, hd⟩
      exact ⟨caller, d, hf, hd⟩
  · have hnext : G.findCalleeBody ast m p c l callees = .ok (.next () callees) :=
      findCalleeBody_of_not_follows l callees hf
    rcases hbody with hbody | hbody
    · cases hnext.symm.trans hbody
      exact ⟨Or.inl rfl, fun hf' => absurd hf' hf⟩
    · cases hnext.symm.trans hbody

/-- A turn of `findCallee` keeps the list and collects its own callee. -/
theorem collected_findCalleeBody {p c : NodeRef} {l l' : Unit} {callees callees' : List Decl}
    (hbody : (G.findCallee ast m).Step p c l callees l' callees') :
    callees <+: callees' ∧ G.CollectedEdge ast m p c callees' := by
  obtain ⟨hkept, hedge⟩ := findCalleeBody_eq_ok hbody
  refine ⟨?_, hedge⟩
  rcases hkept with rfl | ⟨_, d, _, _, _, _, _, rfl⟩
  · exact List.prefix_refl _
  · exact List.prefix_append _ _

/-- **Every called definition is collected**, by its type and name. -/
theorem WF.collected_findCallee (h : WF G) {fuel : ℕ} {callees callees' : List Decl}
    (hret : (G.findCallee ast m).descend fuel G.root callees = .ok callees') {p c : NodeRef}
    (hc : c ∈ G.callees p) : G.CollectedEdge ast m p c callees' := by
  have hcovers := Traversal.descend_covers (findCallee_uniform m) (L := fun _ _ => True)
    (M := G.CollectedEdge ast m) List.prefix_refl (fun _ _ _ => List.IsPrefix.trans)
    (fun p c s s' hle hedge hf caller callee hp hc hm =>
      (hedge hf caller callee hp hc hm).mono hle)
    (fun _ => trivial)
    (fun p c l s l' s' _ hbody => ⟨trivial, collected_findCalleeBody hbody⟩) hret
  exact hcovers.2 p (h.followed_root rfl h.followsDefinition_root hc) c hc

/-! ## Nothing else is, and nothing twice -/

/-- `d` is a definition in the map which a function of another name calls. -/
structure CalledDefinition (G : CallGraph) (ast : ASTContext) (m : FuncPackageMap) (d : Decl) :
    Prop where
  classified : d ∈ m
  definition : (ast.info d).isThisDeclarationADefinition = true
  called : ∃ p c caller, c ∈ G.callees p ∧ ast.asFunctionDecl (G.decl p) = some caller ∧
    ast.asFunctionDecl (G.decl c) = some d ∧ ast.name caller ≠ ast.name d

/-- Two functions that `findCallee` takes for one: they agree on type and name. -/
def SameTypeAndName (ast : ASTContext) (d d' : Decl) : Prop :=
  (ast.info d).typeAsString = (ast.info d').typeAsString ∧ ast.name d = ast.name d'

/-- The callees collected are called definitions, no two of one type and name. -/
structure Distinct (G : CallGraph) (ast : ASTContext) (m : FuncPackageMap) (callees : List Decl) :
    Prop where
  called : ∀ d ∈ callees, G.CalledDefinition ast m d
  distinct : callees.Pairwise fun d d' => ¬ SameTypeAndName ast d d'

theorem Distinct.append {callees : List Decl} (h : G.Distinct ast m callees) {d : Decl}
    (hd : G.CalledDefinition ast m d) (hnew : ¬ Collected ast callees d) :
    G.Distinct ast m (callees ++ [d]) := by
  constructor
  case called =>
    intro e he
    rcases List.mem_append.mp he with he | he
    · exact h.called e he
    · rw [List.mem_singleton.mp he]
      exact hd
  case distinct =>
    refine List.pairwise_append.mpr ⟨h.distinct, List.pairwise_singleton _ _, ?_⟩
    intro e he d' hd' hsame
    rw [List.mem_singleton.mp hd'] at hsame
    exact hnew ⟨e, he, hsame⟩

/-- **Only called definitions are collected, and one of each type and name.** -/
theorem distinct_findCallee {fuel : ℕ} {p : NodeRef} {callees callees' : List Decl}
    (h : G.Distinct ast m callees)
    (hret : (G.findCallee ast m).descend fuel p callees = .ok callees') :
    G.Distinct ast m callees' := by
  refine Traversal.descend_invariant (P := G.Distinct ast m) ?_ h hret
  intro p c hc l callees l' callees' h hbody
  rcases (findCalleeBody_eq_ok hbody).1 with
    rfl | ⟨caller, d, hf, hcaller, hcallee, hmem, hnew, rfl⟩
  · exact h
  · obtain ⟨hdef, hname⟩ := (followsDefinition_iff hcaller hcallee).mp hf
    exact h.append ⟨hmem, hdef, p, c, caller, hc, hcaller, hcallee, hname⟩ hnew

/-- **What `findCallee` collects**: definitions in the map which a function of another name calls,
all of them up to type and name, and no two of one type and name. -/
theorem WF.findCallee_exact (h : WF G) {fuel : ℕ} {callees : List Decl}
    (hret : (G.findCallee ast m).descend fuel G.root [] = .ok callees) :
    callees.Pairwise (fun d d' => ¬ SameTypeAndName ast d d') ∧
    (∀ d ∈ callees, G.CalledDefinition ast m d) ∧
    ∀ d, G.CalledDefinition ast m d → ∃ e ∈ callees, SameTypeAndName ast e d := by
  have hdistinct : G.Distinct ast m callees :=
    distinct_findCallee ⟨fun d hd => absurd hd List.not_mem_nil, List.Pairwise.nil⟩ hret
  refine ⟨hdistinct.distinct, hdistinct.called, ?_⟩
  rintro d ⟨hmem, hdef, p, c, caller, hc, hcaller, hcallee, hname⟩
  have hfollows : G.FollowsDefinition ast p c :=
    (followsDefinition_iff hcaller hcallee).mpr ⟨hdef, hname⟩
  exact h.collected_findCallee hret hc hfollows caller d hcaller hcallee hmem

/-- A function `f` that calls the function `g`. -/
def oneCall : ASTContext := .ofTable [.definition "f" [1], .definition "g" []]

/-- Not vacuous: `g` is collected. -/
theorem findCallee_exact_oneCall :
    let G := ofUnits oneCall [[0, 1]]
    let m := (∅ : FuncPackageMap).insertIfNew 1 "io"
    ∃ callees : List Decl, (G.findCallee oneCall m).descend 3 G.root [] = .ok callees ∧
      ∃ e ∈ callees, SameTypeAndName oneCall e 1 := by
  intro G m
  let callees : List Decl := ((G.findCallee oneCall m).descend 3 G.root []).toOption.getD []
  have hret : (G.findCallee oneCall m).descend 3 G.root [] = .ok callees :=
    eq_ok_getD [] (by decide +kernel)
  have hcall : 2 ∈ G.callees 1 ∧ oneCall.asFunctionDecl (G.decl 1) = some 0 ∧
      oneCall.asFunctionDecl (G.decl 2) = some 1 ∧ oneCall.name 0 ≠ oneCall.name 1 := by
    decide +kernel
  have hcalled : G.CalledDefinition oneCall m 1 :=
    ⟨Std.TreeMap.mem_insertIfNew_self, by decide, 1, 2, 0, hcall⟩
  exact ⟨callees, hret, ((wf_ofUnits oneCall [[0, 1]]).findCallee_exact hret).2.2 1 hcalled⟩

end CallGraph

end FindBoundary
