import FindBoundary.View

/-!
# Message sends

The edge of a message send is made by `addCalledDecl`, which asks `includeInGraph` first. That
test turns down a method that has a node already, whoever made it, and then there is no edge
either: of all the bodies that send a message to one method, only the first to be walked gets its
edge, and that only if the method was not met before (`WF.send_recorded_iff`). A call goes through
`addCalledDeclForExpr` and always gets its edge. What is meant are the calls and sends that the walk
reaches; it does not look at those that are nested in another one.
-/

namespace FindBoundary

namespace View

open CallGraph

variable {ast : ASTContext} {v : View} {D E : Decl}

/-- What the walk of a body records at its own node. -/
theorem mem_calleesOf_walk :
    some D ∈ (v.walk ast E).calleesOf E ↔ some D ∈ v.calleesOf E ∨
      .call D ∈ bodyRequests ast E ∨
      (.send D ∈ bodyRequests ast E ∧ E ≠ D ∧ v.includes ast D = true) := by
  have hincludes : (v.enter E).includes ast D = true ↔ E ≠ D ∧ v.includes ast D = true := by
    simp only [includes, ← Option.not_isSome, enter, isSome_modify]
    grind
  rw [walk, mem_calleesOf_performAll _ (by simp [enter]), calleesOf_enter, hincludes]

/-! ## Many walks -/

/-- A list is split either at its head or further on. -/
theorem exists_split_cons {F : Decl} {Es : List Decl} :
    (∃ before after, F :: Es = before ++ E :: after ∧ D ∉ before.flatMap (bodyDecls ast)) ↔
      E = F ∨ (D ∉ bodyDecls ast F ∧
        ∃ before after, Es = before ++ E :: after ∧ D ∉ before.flatMap (bodyDecls ast)) := by
  refine ⟨?_, ?_⟩
  · rintro ⟨_ | ⟨F', before⟩, after, hsplit, hbefore⟩
    · exact Or.inl (List.cons.inj hsplit).1.symm
    · obtain ⟨rfl, hrest⟩ := List.cons.inj hsplit
      rw [List.flatMap_cons, List.mem_append, not_or] at hbefore
      exact Or.inr ⟨hbefore.1, before, after, hrest, hbefore.2⟩
  · rintro (rfl | ⟨hF, before, after, rfl, hbefore⟩)
    · exact ⟨[], Es, rfl, List.not_mem_nil⟩
    · refine ⟨F :: before, after, rfl, ?_⟩
      rw [List.flatMap_cons, List.mem_append, not_or]
      exact ⟨hF, hbefore⟩

/-- **Who calls a method after many walks.** -/
theorem mem_calleesOf_walkAll (hD : admits ast D = true) (Es : List Decl) :
    some D ∈ (Es.foldl (fun v E => v.walk ast E) v).calleesOf E ↔
      some D ∈ v.calleesOf E ∨ (E ∈ Es ∧ .call D ∈ bodyRequests ast E) ∨
      (.send D ∈ bodyRequests ast E ∧ E ≠ D ∧ v D = none ∧
        ∃ before after, Es = before ++ E :: after ∧ D ∉ before.flatMap (bodyDecls ast)) := by
  induction Es generalizing v with
  | nil => simp
  | cons F Es ih =>
    have hnone : (v.walk ast F) D = none ↔ v D = none ∧ D ∉ bodyDecls ast F := by
      rw [← Option.not_isSome_iff_eq_none, isSome_walk hD, not_or, Option.not_isSome_iff_eq_none]
    rw [List.foldl_cons, ih, hnone, exists_split_cons]
    rcases eq_or_ne E F with rfl | hEF
    · have hincludes : v.includes ast D = true ↔ v D = none := by
        rw [includes, hD, Bool.and_true, Option.isNone_iff_eq_none]
      have hsend : .send D ∈ bodyRequests ast E → D ∈ bodyDecls ast E := fun hmem =>
        List.mem_cons_of_mem _ (List.mem_map.mpr ⟨_, hmem, rfl⟩)
      rw [mem_calleesOf_walk, hincludes]
      refine ⟨?_, ?_⟩
      · -- the first walk of `E` mentions `D`, so a later one records nothing new
        rintro ((hold | hcall | ⟨hs, hne, hv⟩) | ⟨-, hcall⟩ | ⟨hs, -, ⟨-, hD'⟩, -⟩)
        · exact Or.inl hold
        · exact Or.inr (Or.inl ⟨List.mem_cons_self .., hcall⟩)
        · exact Or.inr (Or.inr ⟨hs, hne, hv, Or.inl rfl⟩)
        · exact Or.inr (Or.inl ⟨List.mem_cons_self .., hcall⟩)
        · exact absurd (hsend hs) hD'
      · rintro (hold | ⟨-, hcall⟩ | ⟨hs, hne, hv, -⟩)
        · exact Or.inl (Or.inl hold)
        · exact Or.inl (Or.inr (Or.inl hcall))
        · exact Or.inl (Or.inr (Or.inr ⟨hs, hne, hv⟩))
    · rw [calleesOf_walk_of_ne hEF, List.mem_cons]
      grind

end View

namespace CallGraph

variable {ast : ASTContext} {G : CallGraph} {D E : Decl}

/-! ## The result -/

/-- A method with a body that is its own definition passes the tests that do not ask the graph. -/
theorem admits_of_objCMethod (hkind : (ast.info D).kind = .objCMethod)
    (hbody : (ast.info D).getBody.isSome = true)
    (hdef : (ast.info D).isThisDeclarationADefinition = true) : admits ast D = true := by
  simp [admits, hkind, hbody, hdef, DeclKind.isFunctionDecl]

/-- **Which message sends get their edge**, of those in the bodies `Es` that are walked: the edge
is there if it was before, or the body calls the method, too; else it is made exactly when the
method is not the sender and has no node when the sender is walked for the first time, neither in
`G` nor from the walk of a body that mentions it. -/
theorem WF.send_recorded_iff (h : WF G) {Es : List Decl} (hE : E ∈ Es)
    (hsend : .send D ∈ bodyRequests ast E) (hkind : (ast.info D).kind = .objCMethod)
    (hbody : (ast.info D).getBody.isSome = true)
    (hdef : (ast.info D).isThisDeclarationADefinition = true) :
    (Es.foldl (fun G E => CallGraph.walk ast E G) G).Calls E D ↔
      G.Calls E D ∨ .call D ∈ bodyRequests ast E ∨
      (¬ G.HasNode D ∧ E ≠ D ∧
        ∃ before after, Es = before ++ E :: after ∧ D ∉ before.flatMap (bodyDecls ast)) := by
  have hview : G.view D = none ↔ ¬ G.HasNode D := by
    rw [← Option.not_isSome_iff_eq_none, isSome_view_iff]
  rw [(h.walkAll Es).calls_iff, h.calls_iff, h.view_walkAll,
    View.mem_calleesOf_walkAll (admits_of_objCMethod hkind hbody hdef), hview]
  simp only [hE, hsend, true_and]
  rw [@and_left_comm (E ≠ D)]

/-- A method `m`, two functions that send it, and the interface of the receivers. -/
def twoSenders : ASTContext :=
  { ASTContext.ofTable [{ DeclInfo.definition "m" [] with kind := .objCMethod },
      .sending "f" 3 "m", .sending "g" 3 "m", { getNameAsString := "I", kind := .named }] with
    lookupPrivateMethod := fun _ _ => some 0 }

theorem bodyRequests_twoSenders {E : Decl} (hE : E = 1 ∨ E = 2) :
    .send 0 ∈ bodyRequests twoSenders E := by
  rcases hE with rfl | rfl
  · exact List.mem_singleton_self _
  · exact List.mem_singleton_self _

/-- Not vacuous: the first sender gets its edge. -/
theorem send_recorded_twoSenders :
    ([1, 2].foldl (fun G E => walk twoSenders E G) new).Calls 1 0 :=
  (wf_new.send_recorded_iff (by decide) (bodyRequests_twoSenders (Or.inl rfl)) (by decide)
    (by decide) (by decide)).mpr
      (Or.inr (Or.inr ⟨not_hasNode_new 0, by decide, [], [2], rfl, by decide⟩))

/-- The second does not. -/
theorem not_send_recorded_twoSenders :
    ¬ ∀ (Es : List Decl) (E D : Decl), E ∈ Es → .send D ∈ bodyRequests twoSenders E →
      (twoSenders.info D).kind = .objCMethod → (twoSenders.info D).getBody.isSome = true →
      (twoSenders.info D).isThisDeclarationADefinition = true →
        (Es.foldl (fun G E => walk twoSenders E G) new).Calls E D := by
  intro hall
  have hcalls := hall [1, 2] 2 0 (by decide) (bodyRequests_twoSenders (Or.inr rfl)) (by decide)
    (by decide) (by decide)
  rw [(wf_new.walkAll [1, 2]).calls_iff] at hcalls
  revert hcalls
  decide +kernel

end CallGraph

end FindBoundary
