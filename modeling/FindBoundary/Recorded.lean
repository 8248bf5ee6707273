import FindBoundary.Bodies
import FindBoundary.Sites
import Mathlib.Data.List.Forall2

/-!
# Every recorded edge is a call

Blocks bypass the inclusion test: they are walked whenever the function they lie in is visited, and
before it. If each block lies in one function this is no harm, since a function is visited with
effect only once, and no body is walked twice (`walks_nodup`). So the callees of a node come from a
single walk, and that walk records an edge only at a call or message send of the body
(`callees_ofUnits`).
-/

namespace FindBoundary

namespace CallGraph

variable {ast : ASTContext} {G : CallGraph} {D E : Decl} {ds : List Decl}

/-! ## No body is walked twice -/

/-- Of the functions and methods presented, each has its blocks to itself, and meets each of them
once. -/
structure BlocksOwned (ast : ASTContext) (ds : List Decl) : Prop where
  nodup : ∀ D ∈ ds, isVisited ast D = true → (blocks ast (.context D (ast.info D).decls)).Nodup
  owner : ∀ D ∈ ds, ∀ D' ∈ ds, isVisited ast D = true → isVisited ast D' = true →
    ∀ B ∈ blocks ast (.context D (ast.info D).decls),
      B ∈ blocks ast (.context D' (ast.info D').decls) → D = D'

theorem BlocksOwned.of_subset {ds' : List Decl} (h : BlocksOwned ast ds') (hsub : ds ⊆ ds') :
    BlocksOwned ast ds :=
  ⟨fun D hD => h.nodup D (hsub hD), fun D hD D' hD' => h.owner D (hsub hD) D' (hsub hD')⟩

/-- A body belongs to one function: its own, or that which the block lies in. -/
theorem BlocksOwned.eq_of_bodiesOf (h : BlocksOwned ast ds) {D' : Decl} (hD : D ∈ ds)
    (hD' : D' ∈ ds) (hvisited : isVisited ast D = true) (hvisited' : isVisited ast D' = true)
    (hE : E ∈ View.bodiesOf ast D) (hE' : E ∈ View.bodiesOf ast D') : D = D' := by
  rcases List.mem_append.mp hE with hE | hE <;> rcases List.mem_append.mp hE' with hE' | hE'
  · exact h.owner D hD D' hD' hvisited hvisited' E hE hE'
  · obtain rfl := List.mem_singleton.mp hE'
    exact absurd hE (not_mem_blocks hvisited' _)
  · obtain rfl := List.mem_singleton.mp hE
    exact absurd hE' (not_mem_blocks hvisited _)
  · exact (List.mem_singleton.mp hE).symm.trans (List.mem_singleton.mp hE')

/-- **No body is walked twice.** -/
theorem walks_nodup (h : BlocksOwned ast ds) (G : CallGraph) : (walks ast ds G).Nodup := by
  induction ds generalizing G with
  | nil => exact List.nodup_nil
  | cons D ds ih =>
    have hvisit : (visitWalks ast D G).Nodup := by
      rw [visitWalks]
      split
      · rename_i hvisited
        rw [Bool.and_eq_true] at hvisited
        refine List.nodup_append.mpr ⟨h.nodup D (List.mem_cons_self ..) hvisited.1,
          List.nodup_singleton D, ?_⟩
        rintro B hB B' hB' rfl
        obtain rfl := List.mem_singleton.mp hB'
        exact not_mem_blocks hvisited.1 _ hB
      · exact List.nodup_nil
    refine List.nodup_append.mpr ⟨hvisit, ih (h.of_subset (List.subset_cons_self D ds)) _, ?_⟩
    rintro E hE E' hE' rfl
    obtain ⟨hvisited, -, hbodies⟩ := visitWalks_of_mem hE
    obtain ⟨D', hD', hvisited', hnode, hbody'⟩ := mem_walks hE'
    obtain rfl := h.eq_of_bodiesOf (List.mem_cons_self ..) (List.mem_cons_of_mem _ hD') hvisited
      hvisited' (hbodies ▸ hE) hbody'
    -- once visited with effect, `D` has a node
    refine hnode ?_
    rw [visitDecl_eq_foldl, hbodies]
    exact hasNode_of_walked (List.mem_append_right _ (List.mem_singleton_self D)) G

/-! ## What one walk records -/

/-- The statement is a call expression or message send that resolves to `F`. -/
def ResolvesTo (ast : ASTContext) (F : Option Decl) (S : Stmt) : Prop :=
  ∃ r, requestOf ast S = some r ∧ F = some r.target

/-- Requests, in order, at distinct statements. -/
theorem sublistForall₂_of_requests {rs : List Request} {Ss : List Stmt}
    (h : rs.Sublist (Ss.filterMap (requestOf ast))) :
    List.SublistForall₂ (ResolvesTo ast) (rs.map fun r => some r.target) Ss := by
  obtain ⟨Ss', hsub, rfl⟩ := List.sublist_filterMap_iff.mp h
  refine List.sublistForall₂_iff.mpr
    ⟨Ss'.filter fun S => (requestOf ast S).isSome, ?_, List.filter_sublist.trans hsub⟩
  clear h hsub
  induction Ss' with
  | nil => exact .nil
  | cons S Ss' ih =>
    rcases hS : requestOf ast S with _ | r
    · rw [List.filterMap_cons_none hS, List.filter_cons_of_neg (by simp [hS])]
      exact ih
    · rw [List.filterMap_cons_some hS, List.filter_cons_of_pos (by simp [hS]), List.map_cons]
      exact .cons ⟨r, hS, rfl⟩ ih

/-- The callees of `n` come from one walk of the body of `D`, the only one in the log: they were
none before, are not changed after, and correspond, in order and one to one, to distinct call
expressions and message sends of the body, each resolving to the declaration of the callee. -/
def FromOneWalk (ast : ASTContext) (units : List (List Decl)) (D : Decl) (n : NodeRef) : Prop :=
  ∃ before after body, walks ast units.flatten new = before ++ D :: after ∧
    D ∉ before ∧ D ∉ after ∧
    (before.foldl (fun G E => walk ast E G) new).callees n = [] ∧
    (ofUnits ast units).callees n =
      (walk ast D (before.foldl (fun G E => walk ast E G) new)).callees n ∧
    (ast.info D).getBody = some body ∧
    List.SublistForall₂ (ResolvesTo ast)
      (((ofUnits ast units).callees n).map (ofUnits ast units).decl) body.subStmts

theorem calleesOf_new (D : Decl) : new.view.calleesOf D = [] := by
  rw [View.calleesOf, view_of_not_hasNode (not_hasNode_new D)]
  rfl

/-- A declaration that is walked once is recorded from that walk. -/
theorem calleesOf_walked_once {before after : List Decl} (hbefore : D ∉ before)
    (hafter : D ∉ after) :
    ∃ rs : List Request, rs.Sublist (bodyRequests ast D) ∧
      ((before ++ D :: after).foldl (fun v E => v.walk ast E) new.view).calleesOf D =
        rs.map fun r => some r.target := by
  obtain ⟨rs, hsub, hrs⟩ := View.calleesOf_performAll ast D (bodyRequests ast D)
    ((before.foldl (fun v E => v.walk ast E) new.view).enter D)
  refine ⟨rs, hsub, ?_⟩
  rw [List.foldl_append, List.foldl_cons, View.calleesOf_walkAll_of_not_mem hafter, View.walk, hrs,
    View.calleesOf_enter, View.calleesOf_walkAll_of_not_mem hbefore, calleesOf_new]
  rfl

/-- **Every recorded edge is a call.** -/
theorem callees_ofUnits (ast : ASTContext) (units : List (List Decl))
    (hblocks : BlocksOwned ast units.flatten) :
    (walks ast units.flatten new).Nodup ∧
    ∀ n, (ofUnits ast units).Allocated n → n ≠ (ofUnits ast units).root →
      ∃ D, (ofUnits ast units).decl n = some D ∧
        ((ofUnits ast units).callees n = [] ∨ FromOneWalk ast units D n) := by
  have hwf := wf_ofUnits ast units
  have hnodup := walks_nodup hblocks new
  refine ⟨hnodup, fun n hn hr => ?_⟩
  obtain ⟨D, hD, hentry⟩ := hwf.exists_entry ⟨hn, hr⟩
  -- the log of the build, and what it says about the callees of `n`
  have hlog : ofUnits ast units =
      (walks ast units.flatten new).foldl (fun G E => walk ast E G) new := by
    rw [ofUnits_eq, addToCallGraph_eq_foldl]
  have hcallees : ((ofUnits ast units).callees n).map (ofUnits ast units).decl =
      ((walks ast units.flatten new).foldl (fun v E => v.walk ast E) new.view).calleesOf D := by
    rw [← hwf.calleesOf_view hentry, hlog, wf_new.view_walkAll]
  refine ⟨D, hD, ?_⟩
  by_cases hwalked : D ∈ walks ast units.flatten new
  · obtain ⟨before, after, hsplit⟩ := List.append_of_mem hwalked
    rw [hsplit, List.nodup_middle, List.nodup_cons, List.mem_append, not_or] at hnodup
    obtain ⟨⟨hbefore, hafter⟩, -⟩ := hnodup
    obtain ⟨rs, hsub, hrs⟩ := calleesOf_walked_once hbefore hafter
    rw [hsplit, hrs] at hcallees
    rcases hbody : (ast.info D).getBody with _ | body
    · left
      rw [bodyRequests, hbody, List.sublist_nil] at hsub
      rw [hsub] at hcallees
      exact List.map_eq_nil_iff.mp hcallees
    · right
      rw [hlog, hsplit] at hentry
      obtain ⟨hnil, honce⟩ := callees_of_walked_once hbefore hafter hentry
      refine ⟨before, after, body, hsplit, hbefore, hafter, hnil, ?_, hbody, ?_⟩
      · rw [← honce, ← hsplit, ← hlog]
      · rw [bodyRequests, hbody] at hsub
        rw [hcallees]
        exact sublistForall₂_of_requests (hsub.trans (requests_sublist ast body))
  · left
    rw [View.calleesOf_walkAll_of_not_mem hwalked, calleesOf_new] at hcallees
    exact List.map_eq_nil_iff.mp hcallees

/-- A function `f` with a block, which it calls in place, and `g`, which both call. -/
def blockCaller : ASTContext :=
  .ofTable [{ DeclInfo.definition "f" [] with
      getBody := some (.stmt [some (.callExpr none (.parenImpCast (.blockExpr 1)) []),
        some (Stmt.calls [2])])
      decls := [.context 1 []] },
    { kind := .block, getBody := some (Stmt.calls [2]) }, .definition "g" []]

/-- Not vacuous: `f` is presented twice, and its callees, the block and `g`, come from one walk. -/
theorem callees_ofUnits_blockCaller :
    (ofUnits blockCaller [[0, 2], [0]]).callees 3 = [1, 2] ∧
      FromOneWalk blockCaller [[0, 2], [0]] 0 3 := by
  have hblocks : BlocksOwned blockCaller [[0, 2], [0]].flatten :=
    ⟨by decide +kernel, by decide +kernel⟩
  have hcallees : (ofUnits blockCaller [[0, 2], [0]]).callees 3 = [1, 2] := by decide +kernel
  have hdecl : (ofUnits blockCaller [[0, 2], [0]]).decl 3 = some 0 := by decide +kernel
  obtain ⟨D, hD, hnil | hwalk⟩ := (callees_ofUnits blockCaller [[0, 2], [0]] hblocks).2 3
    (by unfold Allocated; decide +kernel) (by decide +kernel)
  · rw [hcallees] at hnil
    cases hnil
  · rw [hdecl] at hD
    cases hD
    exact ⟨hcallees, hwalk⟩

end CallGraph

end FindBoundary
