import FindBoundary.Classification

/-!
# What `findMargin` records

An entry of `callRelation` is a `std::map` from callers to callees, and inserting into it keeps
what is there: of all the callees that a caller has in one foreign package, the one first in its
callee list is recorded and the others are lost. Visiting a node again changes nothing, since the
list is gone through in the same order.
-/

namespace FindBoundary

namespace CallGraph

open Descent

variable {ast : ASTContext} {G : CallGraph} {m : FuncPackageMap}

/-! ## Crossings -/

theorem Crosses.followsDefinition {p c : NodeRef} {i j : Fin packageNum} {caller callee : Decl}
    (h : G.Crosses ast m p c i j caller callee) : G.FollowsDefinition ast p c :=
  (followsDefinition_iff h.caller_eq h.callee_eq).mpr ⟨h.definition, h.name_ne⟩

/-- An edge crosses between one pair of packages at most. -/
theorem Crosses.unique {p c : NodeRef} {i j i' j' : Fin packageNum}
    {caller callee caller' callee' : Decl} (h : G.Crosses ast m p c i j caller callee)
    (h' : G.Crosses ast m p c i' j' caller' callee') :
    i = i' ∧ j = j' ∧ caller = caller' ∧ callee = callee' := by
  obtain rfl := Option.some.inj (h.caller_eq.symm.trans h'.caller_eq)
  obtain rfl := Option.some.inj (h.callee_eq.symm.trans h'.callee_eq)
  exact ⟨keys_inj (Option.some.inj (h.callerPackage.symm.trans h'.callerPackage)),
    keys_inj (Option.some.inj (h.calleePackage.symm.trans h'.calleePackage)), rfl, rfl⟩

/-- The function at a node determines the node. -/
theorem WF.eq_of_asFunctionDecl (h : WF G) {n n' : NodeRef} {D : Decl} (hn : G.Allocated n)
    (hn' : G.Allocated n') (hD : ast.asFunctionDecl (G.decl n) = some D)
    (hD' : ast.asFunctionDecl (G.decl n') = some D) : n = n' :=
  h.decl_inj hn hn' ((ASTContext.asFunctionDecl_eq_some.mp hD).1.trans
    (ASTContext.asFunctionDecl_eq_some.mp hD').1.symm)

/-- Among the callees of `p`, `c` is the first at which `p` crosses from the package `i` to the
package `j`. -/
def FirstCrossing (G : CallGraph) (ast : ASTContext) (m : FuncPackageMap) (p c : NodeRef)
    (i j : Fin packageNum) : Prop :=
  ∃ done rest, G.callees p = done ++ c :: rest ∧
    ∀ c' ∈ done, ∀ caller callee, ¬ G.Crosses ast m p c' i j caller callee

/-- There is one first crossing. -/
theorem FirstCrossing.unique {p c c' : NodeRef} {i j : Fin packageNum}
    {caller callee caller' callee' : Decl} (h : G.FirstCrossing ast m p c i j)
    (hX : G.Crosses ast m p c i j caller callee) (h' : G.FirstCrossing ast m p c' i j)
    (hX' : G.Crosses ast m p c' i j caller' callee') : c = c' := by
  classical
  have hfind : ∀ {c caller callee}, G.FirstCrossing ast m p c i j →
      G.Crosses ast m p c i j caller callee →
      (G.callees p).find? (fun c => ∃ caller callee, G.Crosses ast m p c i j caller callee) =
        some c := by
    rintro c caller callee ⟨done, rest, hsplit, hdone⟩ hX
    rw [List.find?_eq_some_iff_append]
    refine ⟨by simpa using ⟨caller, callee, hX⟩, done, rest, hsplit, fun c' hc' => ?_⟩
    simpa using hdone c' hc'
  exact Option.some.inj ((hfind h hX).symm.trans (hfind h' hX'))

/-! ## The tables grow -/

/-- Every entry of `rel` is kept in `rel'`. -/
def KeptIn (rel rel' : CallRelation) : Prop :=
  ∀ (i j : Fin packageNum) (D E : Decl), (rel i j)[D]? = some E → (rel' i j)[D]? = some E

theorem KeptIn.refl (rel : CallRelation) : KeptIn rel rel := fun _ _ _ _ hE => hE

theorem KeptIn.trans {rel₁ rel₂ rel₃ : CallRelation} (h₁ : KeptIn rel₁ rel₂)
    (h₂ : KeptIn rel₂ rel₃) : KeptIn rel₁ rel₃ := fun i j D E hE => h₂ i j D E (h₁ i j D E hE)

theorem keptIn_insert (rel : CallRelation) (i j : Fin packageNum) (caller callee : Decl) :
    KeptIn rel (rel.insert i j caller callee) := by
  intro i' j' D E hE
  rw [CallRelation.getElem?_insert, if_neg]
  · exact hE
  · rintro ⟨rfl, rfl, rfl, hnot⟩
    exact hnot (Std.TreeMap.isSome_getElem?_iff_mem.mp (by rw [hE]; rfl))

/-- The caller of the edge from `p` to `c` has an entry wherever the edge crosses. -/
def Recorded (G : CallGraph) (ast : ASTContext) (m : FuncPackageMap) (p c : NodeRef)
    (rel : CallRelation) : Prop :=
  ∀ (i j : Fin packageNum) (caller callee : Decl), G.Crosses ast m p c i j caller callee →
    ∃ E, (rel i j)[caller]? = some E

theorem Recorded.mono {p c : NodeRef} {rel rel' : CallRelation} (hle : KeptIn rel rel')
    (h : G.Recorded ast m p c rel) : G.Recorded ast m p c rel' := by
  intro i j caller callee hX
  obtain ⟨E, hE⟩ := h i j caller callee hX
  exact ⟨E, hle i j caller E hE⟩

/-- Every entry belongs to a first crossing. -/
def OnlyFirst (G : CallGraph) (ast : ASTContext) (m : FuncPackageMap) (rel : CallRelation) : Prop :=
  ∀ (i j : Fin packageNum) (D E : Decl), (rel i j)[D]? = some E →
    ∃ p c, G.FirstCrossing ast m p c i j ∧ G.Crosses ast m p c i j D E

/-! ## One turn -/

/-- Inserting a crossing records it. -/
theorem recorded_insert {p c : NodeRef} {i j : Fin packageNum} {caller callee : Decl}
    (hX : G.Crosses ast m p c i j caller callee) (rel : CallRelation) :
    G.Recorded ast m p c (rel.insert i j caller callee) := by
  intro i' j' caller' callee' hX'
  obtain ⟨rfl, rfl, rfl, rfl⟩ := hX.unique hX'
  rw [CallRelation.getElem?_insert]
  split
  · exact ⟨callee, rfl⟩
  · rename_i hnot
    have hmem : caller ∈ rel i j := not_not.mp fun h => hnot ⟨rfl, rfl, rfl, h⟩
    exact Option.isSome_iff_exists.mp (Std.TreeMap.isSome_getElem?_iff_mem.mpr hmem)

/-- A crossing that is inserted after all earlier ones are recorded is a first one, or its caller
has an entry already. -/
theorem OnlyFirst.insert {p c : NodeRef} {i j : Fin packageNum} {caller callee : Decl}
    {rel : CallRelation} (h : G.OnlyFirst ast m rel) {done rest : List NodeRef}
    (hsplit : G.callees p = done ++ c :: rest) (hdone : ∀ c' ∈ done, G.Recorded ast m p c' rel)
    (hX : G.Crosses ast m p c i j caller callee) :
    G.OnlyFirst ast m (rel.insert i j caller callee) := by
  intro i' j' D E hE
  rw [CallRelation.getElem?_insert] at hE
  split at hE
  · rename_i hnew
    obtain ⟨rfl, rfl, rfl, hnot⟩ := hnew
    cases hE
    refine ⟨p, c, ⟨done, rest, hsplit, fun c' hc' caller' callee' hX' => hnot ?_⟩, hX⟩
    obtain rfl := Option.some.inj (hX.caller_eq.symm.trans hX'.caller_eq)
    obtain ⟨E', hE'⟩ := hdone c' hc' _ _ _ _ hX'
    exact Std.TreeMap.isSome_getElem?_iff_mem.mp (by rw [hE']; rfl)
  · exact h i' j' D E hE

/-- What a turn of the loop at `p` does to the table: it keeps it, or inserts a crossing. -/
theorem findMarginBody_eq_ok {p c : NodeRef} {l l' : String} {rel rel' : CallRelation}
    (hl : G.KnowsPackage ast m p l)
    (hbody : (G.findMargin ast m).Step p c l rel l' rel') :
    G.KnowsPackage ast m p l' ∧
      ((∃ i j caller callee, G.Crosses ast m p c i j caller callee ∧
          rel' = rel.insert i j caller callee) ∨
        ((∀ i j caller callee, ¬ G.Crosses ast m p c i j caller callee) ∧ rel' = rel)) := by
  by_cases hf : G.FollowsDefinition ast p c
  · obtain ⟨l₁, rel₁, hinto, hl₁, hrel₁⟩ := findMarginBody_of_follows rel hf hl
    rcases hbody with hbody | hbody
    · cases hinto.symm.trans hbody
    · cases hinto.symm.trans hbody
      exact ⟨hl₁, hrel₁⟩
  · have hnext : G.findMarginBody ast m p c l rel = .ok (.next l rel) :=
      findMarginBody_of_not_follows l rel hf
    rcases hbody with hbody | hbody
    · cases hnext.symm.trans hbody
      exact ⟨hl, Or.inr ⟨fun i j _ _ hX => hf hX.followsDefinition, rfl⟩⟩
    · cases hnext.symm.trans hbody

/-- A turn keeps the entries and records its own edge. -/
theorem keptIn_recorded_findMarginBody {p c : NodeRef} {l l' : String} {rel rel' : CallRelation}
    (hl : G.KnowsPackage ast m p l)
    (hbody : (G.findMargin ast m).Step p c l rel l' rel') :
    G.KnowsPackage ast m p l' ∧ KeptIn rel rel' ∧ G.Recorded ast m p c rel' := by
  obtain ⟨hl', ⟨i, j, caller, callee, hX, rfl⟩ | ⟨hno, rfl⟩⟩ := findMarginBody_eq_ok hl hbody
  · exact ⟨hl', keptIn_insert rel i j caller callee, recorded_insert hX rel⟩
  · exact ⟨hl', .refl rel', fun i j caller callee hX => absurd hX (hno i j caller callee)⟩

/-! ## The run -/

/-- **Every crossing leaves an entry for its caller.** -/
theorem WF.recorded_findMargin (h : WF G) {fuel : ℕ} {rel rel' : CallRelation}
    (hret : (G.findMargin ast m).descend fuel G.root rel = .ok rel') {p c : NodeRef}
    (hc : c ∈ G.callees p) : G.Recorded ast m p c rel' := by
  have hcovers := Traversal.descend_covers (findMargin_uniform m) (L := G.KnowsPackage ast m)
    (M := G.Recorded ast m) KeptIn.refl (fun _ _ _ => KeptIn.trans)
    (fun p c _ _ hle hrec => hrec.mono hle) (fun p => Or.inl rfl)
    (fun p c l s l' s' hl hbody => keptIn_recorded_findMarginBody hl hbody) hret
  exact hcovers.2 p (h.followed_root rfl h.followsDefinition_root hc) c hc

/-- **Every entry is a first crossing.** -/
theorem onlyFirst_findMargin {fuel : ℕ} {p : NodeRef} {rel rel' : CallRelation}
    (hrel : G.OnlyFirst ast m rel)
    (hret : (G.findMargin ast m).descend fuel p rel = .ok rel') : G.OnlyFirst ast m rel' := by
  -- the invariant at `p`: the edges done so far are recorded, and all entries are first crossings
  have hturn : ∀ p rel₀ done c rest l rel l' rel', G.callees p = done ++ c :: rest →
      ((G.KnowsPackage ast m p l ∧ KeptIn rel₀ rel ∧ ∀ c ∈ done, G.Recorded ast m p c rel) ∧
        (G.OnlyFirst ast m rel₀ → G.OnlyFirst ast m rel)) →
      (G.findMargin ast m).Step p c l rel l' rel' →
      (G.KnowsPackage ast m p l' ∧ KeptIn rel₀ rel' ∧
        ∀ c' ∈ done ++ [c], G.Recorded ast m p c' rel') ∧
        (G.OnlyFirst ast m rel₀ → G.OnlyFirst ast m rel') := by
    rintro p rel₀ done c rest l rel l' rel' hsplit ⟨⟨hl, hkept, hdone⟩, honly⟩ hbody
    obtain ⟨hl', hkept', hrec⟩ := keptIn_recorded_findMarginBody hl hbody
    refine ⟨⟨hl', hkept.trans hkept', fun c' hc' => ?_⟩, fun h₀ => ?_⟩
    · rcases List.mem_append.mp hc' with hc' | hc'
      · exact (hdone c' hc').mono hkept'
      · cases List.mem_singleton.mp hc'
        exact hrec
    · rcases (findMarginBody_eq_ok hl hbody).2 with ⟨i, j, caller, callee, hX, rfl⟩ | ⟨-, rfl⟩
      · exact (honly h₀).insert hsplit hdone hX
      · exact honly h₀
  have hrule := Traversal.descend_rule (T := G.findMargin ast m)
    (R := fun _ rel rel' => KeptIn rel rel' ∧ (G.OnlyFirst ast m rel → G.OnlyFirst ast m rel'))
    (I := fun p rel₀ done l rel => (G.KnowsPackage ast m p l ∧ KeptIn rel₀ rel ∧
      ∀ c ∈ done, G.Recorded ast m p c rel) ∧ (G.OnlyFirst ast m rel₀ → G.OnlyFirst ast m rel))
    ?_ ?_ ?_ ?_ hret
  · exact hrule.2 hrel
  · intro p rel
    exact ⟨⟨Or.inl rfl, .refl rel, fun c hc => absurd hc List.not_mem_nil⟩, id⟩
  · intro p rel₀ done c rest l rel l' rel' hsplit hI hbody
    exact hturn p rel₀ done c rest l rel l' rel' hsplit hI (Or.inl hbody)
  · rintro p rel₀ done c rest l rel l' rel' rel'' hsplit hI hbody ⟨hkept, honly⟩
    obtain ⟨⟨hl', hkept', hdone⟩, honly'⟩ :=
      hturn p rel₀ done c rest l rel l' rel' hsplit hI (Or.inr hbody)
    exact ⟨⟨hl', hkept'.trans hkept, fun c' hc' => (hdone c' hc').mono hkept⟩,
      fun h₀ => honly (honly' h₀)⟩
  · rintro p rel₀ l rel ⟨⟨-, hkept, -⟩, honly⟩
    exact ⟨hkept, honly⟩

theorem onlyFirst_empty : G.OnlyFirst ast m CallRelation.empty := by
  intro i j D E hE
  simp [CallRelation.empty] at hE

/-- **The margin is sound.** With the map that `traverseFunction` fills and empty tables, every pair
that `findMargin` stores is a call of a definition with a name of its own, from one package to
another, and the packages are those of the files; a function without a package is in no pair. -/
theorem WF.findMargin_sound (h : WF G) {fuel fuel' : ℕ} {rel : CallRelation}
    (hm : (G.traverseFunction ast).descend fuel G.root ∅ = .ok m)
    (hret : (G.findMargin ast m).descend fuel' G.root CallRelation.empty = .ok rel)
    {i j : Fin packageNum} {caller callee : Decl} (hE : (rel i j)[caller]? = some callee) :
    i ≠ j ∧
    (∃ p c, G.decl p = some caller ∧ G.decl c = some callee ∧ c ∈ G.callees p) ∧
    (ast.info callee).isThisDeclarationADefinition = true ∧ ast.name caller ≠ ast.name callee ∧
    (m[caller]? = some (keys i) ∧ packageOf (ast.info caller).filename = keys i) ∧
    (m[callee]? = some (keys j) ∧ packageOf (ast.info callee).filename = keys j) ∧
    m[caller]? ≠ some "empty" ∧ m[callee]? ≠ some "empty" := by
  have hentered : G.Entered ast m :=
    h.entered_traverseFunction (fun D package hD => by simp at hD) hm
  obtain ⟨p, c, hfirst, hX⟩ := onlyFirst_findMargin onlyFirst_empty hret i j caller callee hE
  obtain ⟨done, rest, hsplit, -⟩ := hfirst
  have hc : c ∈ G.callees p := hsplit ▸ List.mem_append_right _ (List.mem_cons_self ..)
  have hempty : ∀ (D : Decl) k, m[D]? = some (keys k) → m[D]? ≠ some "empty" := by
    intro D k hD hD'
    exact keys_ne_empty k (Option.some.inj (hD.symm.trans hD'))
  refine ⟨hX.package_ne, ⟨p, c, ?_, ?_, hc⟩, hX.definition, hX.name_ne, ⟨hX.callerPackage, ?_⟩,
    ⟨hX.calleePackage, ?_⟩, hempty _ i hX.callerPackage, hempty _ j hX.calleePackage⟩
  · exact (ASTContext.asFunctionDecl_eq_some.mp hX.caller_eq).1
  · exact (ASTContext.asFunctionDecl_eq_some.mp hX.callee_eq).1
  · exact (hentered caller _ hX.callerPackage).2.2.symm
  · exact (hentered callee _ hX.calleePackage).2.2.symm

/-- What is recorded for an edge that crosses: the edge, exactly if it is the first one. -/
theorem WF.getElem?_findMargin_iff (h : WF G) {fuel : ℕ} {rel : CallRelation}
    (hret : (G.findMargin ast m).descend fuel G.root CallRelation.empty = .ok rel)
    {p c : NodeRef} {i j : Fin packageNum} {caller callee : Decl} (hc : c ∈ G.callees p)
    (hX : G.Crosses ast m p c i j caller callee) :
    (rel i j)[caller]? = some callee ↔ G.FirstCrossing ast m p c i j := by
  have honly := onlyFirst_findMargin onlyFirst_empty hret
  obtain ⟨E, hE⟩ := h.recorded_findMargin hret hc i j caller callee hX
  obtain ⟨p', c', hfirst', hX'⟩ := honly i j caller E hE
  -- the entry belongs to a first crossing from the same node
  have hp' : p' = p := by
    obtain ⟨done, rest, hsplit, -⟩ := hfirst'
    have hc' : c' ∈ G.callees p' := hsplit ▸ List.mem_append_right _ (List.mem_cons_self ..)
    exact h.eq_of_asFunctionDecl (h.edge_allocated p' c' hc').1 (h.edge_allocated p c hc).1
      hX'.caller_eq hX.caller_eq
  subst hp'
  refine ⟨?_, ?_⟩
  · intro hcallee
    obtain rfl := Option.some.inj (hE.symm.trans hcallee)
    obtain ⟨done, rest, hsplit, -⟩ := id hfirst'
    have hc' : c' ∈ G.callees p' := hsplit ▸ List.mem_append_right _ (List.mem_cons_self ..)
    rw [h.eq_of_asFunctionDecl (h.edge_allocated p' c hc).2 (h.edge_allocated p' c' hc').2
      hX.callee_eq hX'.callee_eq]
    exact hfirst'
  · intro hfirst
    obtain rfl := hfirst.unique hX hfirst' hX'
    rw [hE, (hX.unique hX').2.2.2]

/-- An edge that is the only one to cross from its caller to its package is the first. -/
theorem FirstCrossing.of_unique {p c : NodeRef} {i j : Fin packageNum} (hc : c ∈ G.callees p)
    (honly : ∀ c' ∈ G.callees p, ∀ caller callee,
      G.Crosses ast m p c' i j caller callee → c' = c) : G.FirstCrossing ast m p c i j := by
  obtain ⟨done, rest, hsplit, hnot⟩ := List.eq_append_cons_of_mem hc
  refine ⟨done, rest, hsplit, fun c' hc' caller callee hX => ?_⟩
  have hmem : c' ∈ G.callees p := hsplit ▸ List.mem_append_left _ hc'
  exact hnot (honly c' hmem caller callee hX ▸ hc')

/-- **When the margin is complete.** From empty tables, `findMargin` records a call that crosses
from one package to another exactly if it is the first one of its caller that crosses between
these packages; so all of them are recorded exactly if no caller has two. -/
theorem WF.findMargin_complete_iff (h : WF G) {fuel : ℕ} {rel : CallRelation}
    (hret : (G.findMargin ast m).descend fuel G.root CallRelation.empty = .ok rel) :
    (∀ (p c : NodeRef) (i j : Fin packageNum) (caller callee : Decl), c ∈ G.callees p →
      G.Crosses ast m p c i j caller callee →
        ((rel i j)[caller]? = some callee ↔ G.FirstCrossing ast m p c i j)) ∧
    ((∀ (p c : NodeRef) (i j : Fin packageNum) (caller callee : Decl), c ∈ G.callees p →
      G.Crosses ast m p c i j caller callee → (rel i j)[caller]? = some callee) ↔
    ∀ (p c c' : NodeRef) (i j : Fin packageNum) (caller callee callee' : Decl),
      c ∈ G.callees p → c' ∈ G.callees p → G.Crosses ast m p c i j caller callee →
        G.Crosses ast m p c' i j caller callee' → c = c') := by
  refine ⟨fun p c i j caller callee hc hX => h.getElem?_findMargin_iff hret hc hX, ?_, ?_⟩
  · intro hall p c c' i j caller callee callee' hc hc' hX hX'
    have hcallee : callee = callee' := Option.some.inj
      ((hall p c i j caller callee hc hX).symm.trans (hall p c' i j caller callee' hc' hX'))
    exact h.eq_of_asFunctionDecl (h.edge_allocated p c hc).2 (h.edge_allocated p c' hc').2
      hX.callee_eq (hcallee ▸ hX'.callee_eq)
  · intro hone p c i j caller callee hc hX
    refine (h.getElem?_findMargin_iff hret hc hX).mpr (.of_unique hc fun c' hc' D E hX' => ?_)
    obtain rfl : caller = D := Option.some.inj (hX.caller_eq.symm.trans hX'.caller_eq)
    exact hone p c' c i j caller E callee hc' hc hX' hX

/-- A function in the package `fs` that calls two functions in the package `io`. -/
def twoCallees : ASTContext :=
  .ofTable [(DeclInfo.definition "read" [1, 2]).inFile "fs/read.c",
    (DeclInfo.definition "get" []).inFile "io/get.c",
    (DeclInfo.definition "put" []).inFile "io/put.c"]

/-- The packages that `traverseFunction` gives to these functions. -/
def twoCalleesPackages : FuncPackageMap :=
  (((∅ : FuncPackageMap).insertIfNew 1 "io").insertIfNew 2 "io").insertIfNew 0 "fs"

theorem crosses_twoCallees (c : NodeRef) (callee : Decl) (hc : (c, callee) ∈ [(1, 1), (2, 2)]) :
    (ofUnits twoCallees [[1, 2, 0]]).Crosses twoCallees twoCalleesPackages 3 c 2 5 0 callee := by
  revert c callee
  have hall : ∀ e ∈ [(1, 1), (2, 2)],
      twoCallees.asFunctionDecl ((ofUnits twoCallees [[1, 2, 0]]).decl 3) = some 0 ∧
      twoCallees.asFunctionDecl ((ofUnits twoCallees [[1, 2, 0]]).decl e.1) = some e.2 ∧
      (twoCallees.info e.2).isThisDeclarationADefinition = true ∧
      twoCallees.name 0 ≠ twoCallees.name e.2 ∧
      twoCalleesPackages[0]? = some (keys 2) ∧
      twoCalleesPackages[e.2]? = some (keys 5) := by decide +kernel
  intro c callee hc
  obtain ⟨h1, h2, h3, h4, h5, h6⟩ := hall (c, callee) hc
  exact ⟨h1, h2, h3, h4, h5, h6, by decide⟩

/-- `findMargin` returns on this graph, with the first of the two calls. -/
theorem findMargin_twoCallees : ∃ rel : CallRelation,
    ((ofUnits twoCallees [[1, 2, 0]]).findMargin twoCallees twoCalleesPackages).descend 3
      (ofUnits twoCallees [[1, 2, 0]]).root CallRelation.empty = .ok rel ∧
    (rel 2 5)[0]? = some 1 := by
  let run := ((ofUnits twoCallees [[1, 2, 0]]).findMargin twoCallees twoCalleesPackages).descend 3
    (ofUnits twoCallees [[1, 2, 0]]).root CallRelation.empty
  have hrun : run.toOption.bind (fun rel : CallRelation => (rel 2 5)[0]?) = some 1 := by
    decide +kernel
  cases h : run with
  | error e => simp [h, Except.toOption] at hrun
  | ok rel => exact ⟨rel, h, by simpa [h, Except.toOption] using hrun⟩

/-- Not vacuous: what is recorded for either call is decided by which comes first. -/
theorem findMargin_complete_iff_twoCallees :
    let G := ofUnits twoCallees [[1, 2, 0]]
    ∃ rel : CallRelation,
      (G.findMargin twoCallees twoCalleesPackages).descend 3 G.root CallRelation.empty = .ok rel ∧
      ((rel 2 5)[0]? = some 1 ↔ G.FirstCrossing twoCallees twoCalleesPackages 3 1 2 5) ∧
      ((rel 2 5)[0]? = some 2 ↔ G.FirstCrossing twoCallees twoCalleesPackages 3 2 2 5) := by
  intro G
  obtain ⟨rel, hret, -⟩ := findMargin_twoCallees
  have hrecord := ((wf_ofUnits twoCallees [[1, 2, 0]]).findMargin_complete_iff hret).1
  exact ⟨rel, hret,
    hrecord 3 1 2 5 0 1 (by decide +kernel) (crosses_twoCallees 1 1 (by decide)),
    hrecord 3 2 2 5 0 2 (by decide +kernel) (crosses_twoCallees 2 2 (by decide))⟩

/-- The second of the two calls is lost. -/
theorem not_findMargin_complete_twoCallees :
    let G := ofUnits twoCallees [[1, 2, 0]]
    ∃ rel : CallRelation,
      (G.findMargin twoCallees twoCalleesPackages).descend 3 G.root CallRelation.empty = .ok rel ∧
      ¬ ∀ (p c : NodeRef) (i j : Fin packageNum) (caller callee : Decl), c ∈ G.callees p →
        G.Crosses twoCallees twoCalleesPackages p c i j caller callee →
          (rel i j)[caller]? = some callee := by
  intro G
  obtain ⟨rel, hret, hfirst⟩ := findMargin_twoCallees
  refine ⟨rel, hret, fun hall => ?_⟩
  have hsecond := hall 3 2 2 5 0 2 (by decide +kernel) (crosses_twoCallees 2 2 (by decide))
  cases hfirst.symm.trans hsecond

/-- Not vacuous: the pair that is stored for the first of the two calls. -/
theorem findMargin_sound_twoCallees :
    let G := ofUnits twoCallees [[1, 2, 0]]
    ∃ (m : FuncPackageMap) (rel : CallRelation),
      (G.traverseFunction twoCallees).descend 3 G.root ∅ = .ok m ∧
      (G.findMargin twoCallees m).descend 3 G.root CallRelation.empty = .ok rel ∧
      ∃ p c, G.decl p = some 0 ∧ G.decl c = some 1 ∧ c ∈ G.callees p := by
  intro G
  let m : FuncPackageMap := ((G.traverseFunction twoCallees).descend 3 G.root ∅).toOption.getD ∅
  let run := (G.findMargin twoCallees m).descend 3 G.root CallRelation.empty
  let rel : CallRelation := run.toOption.getD CallRelation.empty
  have hm : (G.traverseFunction twoCallees).descend 3 G.root ∅ = .ok m :=
    eq_ok_getD ∅ (by decide +kernel)
  have hret : run = .ok rel := eq_ok_getD _ (by decide +kernel)
  have hE : (rel 2 5)[0]? = some 1 := by decide +kernel
  exact ⟨m, rel, hm, hret,
    ((wf_ofUnits twoCallees [[1, 2, 0]]).findMargin_sound hm hret hE).2.1⟩

end CallGraph

end FindBoundary
