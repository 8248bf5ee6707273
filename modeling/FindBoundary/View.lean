import FindBoundary.Invariant

/-!
# The call graph by declarations

Which reference a node gets depends on how many nodes were made before it; what the graph says
about a declaration does not mention references at all. `View` keeps only that: to each
declaration that has a node, the declarations it calls and those that call it. Building is defined
once more on views, where a call touches two entries and nothing else, and `view` carries every
operation of the builder over (`WF.view_addToCallGraph`).
-/

namespace FindBoundary

/-- What is known of a declaration: what it calls, one item for each call recorded, and who calls
it. The root is `none`, and is the only caller of a new declaration. -/
structure Entry : Type where
  callees : List (Option Decl) := []
  parents : List (Option Decl) := [none]

/-- One more call of `D`. -/
def Entry.addCallee (D : Decl) (e : Entry) : Entry := { e with callees := e.callees ++ [some D] }

/-- `E` is a caller. -/
def Entry.addParent (E : Decl) (e : Entry) : Entry :=
  if some E ∈ e.parents then e else { e with parents := e.parents ++ [some E] }

@[simp] theorem Entry.callees_addCallee (D : Decl) (e : Entry) :
    (e.addCallee D).callees = e.callees ++ [some D] := rfl

@[simp] theorem Entry.callees_addParent (E : Decl) (e : Entry) :
    (e.addParent E).callees = e.callees := by
  simp only [addParent]
  split <;> rfl

/-- The entries of the declarations that have a node. -/
abbrev View : Type := Decl → Option Entry

namespace CallGraph

/-- The declarations that the walk of the body of `E` mentions. -/
def bodyDecls (ast : ASTContext) (E : Decl) : List Decl :=
  E :: (bodyRequests ast E).map Request.target

theorem mem_bodyDecls {ast : ASTContext} {D E : Decl} :
    D ∈ bodyDecls ast E ↔ E = D ∨ ∃ r ∈ bodyRequests ast E, r.target = D := by
  rw [bodyDecls, List.mem_cons, List.mem_map, @eq_comm _ D]

/-- The tests of `includeInGraph` that do not ask the graph. -/
def admits (ast : ASTContext) (D : Decl) : Bool :=
  let info := ast.info D
  info.getBody.isSome &&
    !(info.kind.isFunctionDecl &&
      (!info.isThisDeclarationADefinition || info.isDependentContext)) &&
    !(info.kind.isFunctionDecl &&
      info.getIdentifier.any (fun II => "__inline".toList.isPrefixOf II.toList)) &&
    !(info.kind = .objCMethod && !info.isThisDeclarationADefinition)

theorem includeInGraph_eq (ast : ASTContext) (G : CallGraph) (D : Decl) :
    G.includeInGraph ast D = ((G.getNode (some D)).isNone && admits ast D) := by
  simp only [includeInGraph, admits, Bool.if_false_left, Bool.decide_eq_true, Bool.and_true,
    Option.not_isSome, Option.not_isNone, Bool.and_assoc]

end CallGraph

namespace View

open CallGraph

variable (ast : ASTContext)

/-! ## Building a view -/

/-- Change the entry of `D`, which is made first if there is none. -/
def modify (D : Decl) (f : Entry → Entry) (v : View) : View :=
  Function.update v D (some (f ((v D).getD {})))

/-- Make sure that `D` has an entry. -/
def enter (D : Decl) (v : View) : View := v.modify D id

/-- `E` calls `D`. -/
def record (E D : Decl) (v : View) : View :=
  ((v.enter D).modify E (Entry.addCallee D)).modify D (Entry.addParent E)

/-- `includeInGraph` -/
def includes (D : Decl) (v : View) : Bool := (v D).isNone && admits ast D

/-- One request of the body of `E`. -/
def perform (E : Decl) : Request → View → View
  | .call D, v => v.record E D
  | .send D, v => if v.includes ast D then v.record E D else v

/-- The walk of the body of `E`. -/
def walk (E : Decl) (v : View) : View :=
  (bodyRequests ast E).foldl (fun v r => v.perform ast E r) (v.enter E)

/-- What is walked if `D` is included: the blocks in it, then its own body. -/
def bodiesOf (D : Decl) : List Decl := blocks ast (.context D (ast.info D).decls) ++ [D]

/-- The visit of `D`. -/
def visitDecl (D : Decl) (v : View) : View :=
  if isVisited ast D && v.includes ast D then
    (bodiesOf ast D).foldl (fun v E => v.walk ast E) v
  else v

/-- The visits of a unit. -/
def addToCallGraph (unit : List Decl) (v : View) : View :=
  unit.foldl (fun v D => v.visitDecl ast D) v

variable {ast} {v : View}

theorem modify_apply (D : Decl) (f : Entry → Entry) (F : Decl) :
    v.modify D f F = if F = D then some (f ((v D).getD {})) else v F :=
  Function.update_apply ..

@[simp] theorem modify_self (D : Decl) (f : Entry → Entry) :
    v.modify D f D = some (f ((v D).getD {})) :=
  Function.update_self ..

theorem modify_of_ne {D F : Decl} (h : F ≠ D) (f : Entry → Entry) : v.modify D f F = v F :=
  Function.update_of_ne h ..

/-- Entries are never removed. -/
@[simp] theorem isSome_modify (D : Decl) (f : Entry → Entry) (F : Decl) :
    (v.modify D f F).isSome = (decide (F = D) || (v F).isSome) := by
  rw [modify_apply]
  split <;> simp [*]

@[simp] theorem isSome_record (E D F : Decl) :
    (v.record E D F).isSome = (decide (F = D) || decide (F = E) || (v F).isSome) := by
  simp only [record, enter, isSome_modify]
  grind

/-- A call, as the two entries see it. -/
theorem link_apply (E D : Decl) {F : Decl} {e : Entry} (hF : v F = some e) :
    (v.modify E (Entry.addCallee D)).modify D (Entry.addParent E) F = some
      ⟨if F = E then e.callees ++ [some D] else e.callees,
        if F = D ∧ some E ∉ e.parents then e.parents ++ [some E] else e.parents⟩ := by
  rcases eq_or_ne F D with rfl | hFD
  · have hE : ((v.modify E (Entry.addCallee F)) F).getD {} =
        ⟨if F = E then e.callees ++ [some F] else e.callees, e.parents⟩ := by
      rw [modify_apply]
      split
      · rename_i hFE
        rw [← hFE, hF]
        rfl
      · rw [hF]
        rfl
    rw [modify_self, hE, Entry.addParent]
    by_cases hmem : some E ∈ e.parents <;> simp [hmem]
  · rw [modify_of_ne hFD, modify_apply]
    split
    · rename_i hFE
      rw [← hFE, hF]
      simp [Entry.addCallee, hFD]
    · simp [hF, hFD]

/-! ## Callees -/

/-- What `E` calls. -/
def calleesOf (v : View) (E : Decl) : List (Option Decl) := (v E).elim [] Entry.callees

/-- What does not touch the callees of `D` changes nobody's callees. -/
theorem calleesOf_modify {D : Decl} {f : Entry → Entry} (hf : ∀ e, (f e).callees = e.callees)
    (F : Decl) : (v.modify D f).calleesOf F = v.calleesOf F := by
  simp only [calleesOf, modify_apply]
  split
  · rename_i h
    subst h
    rcases v F with _ | e <;> simp [hf]
  · rfl

@[simp] theorem calleesOf_enter (D E : Decl) : (v.enter D).calleesOf E = v.calleesOf E :=
  calleesOf_modify (fun _ => rfl) E

/-- A call is one item more in the list of its caller. -/
theorem calleesOf_record (E D F : Decl) :
    (v.record E D).calleesOf F =
      if F = E then v.calleesOf E ++ [some D] else v.calleesOf F := by
  have hpush : ∀ w : View, (w.modify E (Entry.addCallee D)).calleesOf F =
      if F = E then w.calleesOf E ++ [some D] else w.calleesOf F := by
    intro w
    simp only [calleesOf, modify_apply]
    split
    · rcases w E with _ | e <;> rfl
    · rfl
  rw [record, calleesOf_modify (Entry.callees_addParent E), hpush, calleesOf_enter, calleesOf_enter]

/-- Is the request carried out? A call always is. -/
def accepts (ast : ASTContext) (v : View) : Request → Bool
  | .call _ => true
  | .send D => v.includes ast D

theorem perform_eq (E : Decl) (r : Request) :
    v.perform ast E r = if v.accepts ast r then v.record E r.target else v := by
  cases r with
  | call D => rfl
  | send D => rfl

theorem isSome_perform_of_isSome {F : Decl} (h : (v F).isSome = true) (E : Decl) (r : Request) :
    ((v.perform ast E r) F).isSome = true := by
  rw [perform_eq]
  split <;> simp [h]

/-- A request adds nothing but an item for its target at its own caller. -/
theorem calleesOf_perform (E : Decl) (r : Request) (F : Decl) :
    (v.perform ast E r).calleesOf F =
      if F = E ∧ v.accepts ast r = true then v.calleesOf E ++ [some r.target]
      else v.calleesOf F := by
  rw [perform_eq]
  cases hr : v.accepts ast r
  · simp
  · simp [calleesOf_record]

/-- A walk records some of the requests of the body, in order. -/
theorem calleesOf_performAll (ast : ASTContext) (E : Decl) (rs : List Request) (v : View) :
    ∃ rs' : List Request, rs'.Sublist rs ∧
      (rs.foldl (fun v r => v.perform ast E r) v).calleesOf E =
        v.calleesOf E ++ rs'.map fun r => some r.target := by
  induction rs generalizing v with
  | nil => exact ⟨[], List.Sublist.refl _, (List.append_nil _).symm⟩
  | cons r rs ih =>
    obtain ⟨rs', hsub, hrs'⟩ := ih (v.perform ast E r)
    rw [calleesOf_perform] at hrs'
    rw [List.foldl_cons, hrs']
    split
    · exact ⟨r :: rs', hsub.cons_cons r, by simp⟩
    · exact ⟨rs', hsub.cons r, rfl⟩

/-- Which calls are recorded: all that are direct, and message sends to what is included when the
walk begins. -/
theorem mem_calleesOf_performAll {E D : Decl} (rs : List Request) {v : View}
    (hE : (v E).isSome = true) :
    some D ∈ (rs.foldl (fun v r => v.perform ast E r) v).calleesOf E ↔
      some D ∈ v.calleesOf E ∨ .call D ∈ rs ∨ (.send D ∈ rs ∧ v.includes ast D = true) := by
  induction rs generalizing v with
  | nil => simp
  | cons r rs ih =>
    have hD : (v.perform ast E r).includes ast D = true ↔
        v.includes ast D = true ∧ ¬ (r.target = D ∧ v.accepts ast r = true) := by
      rw [perform_eq]
      cases hr : v.accepts ast r
      · simp
      · simp only [includes, ← Option.not_isSome, isSome_record, if_true]
        grind
    rw [List.foldl_cons, ih (isSome_perform_of_isSome hE E r), hD, calleesOf_perform]
    cases r with
    | call D' =>
      simp only [accepts, Request.target, List.mem_cons]
      grind
    | send D' =>
      simp only [accepts, Request.target, List.mem_cons]
      grind

/-! ## Walks -/

theorem isSome_perform {D E : Decl} (hE : (v E).isSome = true) (hD : admits ast D = true)
    (r : Request) :
    ((v.perform ast E r) D).isSome = true ↔ (v D).isSome = true ∨ r.target = D := by
  rw [perform_eq]
  cases hr : v.accepts ast r with
  | true =>
    simp only [if_true, isSome_record]
    grind
  | false =>
    refine ⟨Or.inl, ?_⟩
    rintro (h | rfl)
    · exact h
    · cases r with
      | call D' => cases hr
      | send D' =>
        simp only [accepts, includes, Request.target] at hr hD ⊢
        rw [hD, Bool.and_true, ← Option.not_isSome, Bool.not_eq_false'] at hr
        exact hr

/-- A walk makes entries for the declarations it mentions. What the inclusion test admits gets one
even from a message send: if it is turned down, it has one. -/
theorem isSome_walk {D E : Decl} (hD : admits ast D = true) :
    ((v.walk ast E) D).isSome = true ↔ (v D).isSome = true ∨ D ∈ bodyDecls ast E := by
  have hall : ∀ (rs : List Request) (w : View), (w E).isSome = true →
      ((rs.foldl (fun v r => v.perform ast E r) w D).isSome = true ↔
        (w D).isSome = true ∨ D ∈ rs.map Request.target) := by
    intro rs
    induction rs with
    | nil => simp
    | cons r rs ih =>
      intro w hE
      rw [List.foldl_cons, ih _ (isSome_perform_of_isSome hE E r), isSome_perform hE hD,
        List.map_cons, List.mem_cons, or_assoc, @eq_comm _ D]
  rw [walk, hall _ _ (by simp [enter]), bodyDecls, List.mem_cons, enter, isSome_modify,
    Bool.or_eq_true, decide_eq_true_iff, or_assoc, or_left_comm]

theorem isSome_walkAll {D : Decl} (hD : admits ast D = true) (Es : List Decl) :
    (Es.foldl (fun v E => v.walk ast E) v D).isSome = true ↔
      (v D).isSome = true ∨ ∃ E ∈ Es, D ∈ bodyDecls ast E := by
  induction Es generalizing v with
  | nil => simp
  | cons E Es ih =>
    rw [List.foldl_cons, ih, isSome_walk hD, or_assoc]
    simp

/-- A walk records nothing at other nodes. -/
theorem calleesOf_walk_of_ne {E F : Decl} (hF : F ≠ E) :
    (v.walk ast E).calleesOf F = v.calleesOf F := by
  rw [walk]
  refine List.foldlRecOn (motive := fun (w : View) => w.calleesOf F = v.calleesOf F) _ _
    (calleesOf_enter E F) ?_
  intro w hw r _
  rw [calleesOf_perform, if_neg fun h => hF h.1, hw]

theorem calleesOf_walkAll_of_not_mem {D : Decl} {Es : List Decl} (hD : D ∉ Es) (v : View) :
    (Es.foldl (fun v E => v.walk ast E) v).calleesOf D = v.calleesOf D := by
  refine List.foldlRecOn (motive := fun (w : View) => w.calleesOf D = v.calleesOf D) Es _ rfl ?_
  intro w hw E hE
  have hne : D ≠ E := fun h => hD (h ▸ hE)
  rw [calleesOf_walk_of_ne hne, hw]

end View

namespace CallGraph

variable {ast : ASTContext} {G : CallGraph} {D E F : Decl}

/-! ## The view of a graph -/

/-- `D` has a node. -/
def HasNode (G : CallGraph) (D : Decl) : Prop := ∃ n, (some D, n) ∈ G.functionMap

theorem hasNode_iff : G.HasNode D ↔ (G.getNode (some D)).isSome = true := by
  rcases h : G.getNode (some D) with _ | n
  · simpa [HasNode] using getNode_eq_none_iff.mp h
  · simpa using ⟨n, entry_of_getNode h⟩

theorem not_hasNode_new (D : Decl) : ¬ new.HasNode D := by
  rintro ⟨n, hn⟩
  cases List.mem_singleton.mp hn

theorem hasNode_getOrInsertNode (D' : Decl) :
    (G.getOrInsertNode (some D')).2.HasNode D ↔ G.HasNode D ∨ D' = D := by
  refine ⟨?_, ?_⟩
  · rintro ⟨n, hn⟩
    rcases h : G.getNode (some D') with _ | n'
    · rw [getOrInsertNode_of_none h, functionMap_addCallee] at hn
      rcases List.mem_append.mp hn with hn | hn
      · exact Or.inl ⟨n, hn⟩
      · cases List.mem_singleton.mp hn
        exact Or.inr rfl
    · rw [getOrInsertNode_of_some h] at hn
      exact Or.inl ⟨n, hn⟩
  · rintro (⟨n, hn⟩ | rfl)
    · exact ⟨n, entry_getOrInsertNode hn⟩
    · exact ⟨_, getOrInsertNode_entry G D'⟩

/-- What the graph says about each declaration. -/
def view (G : CallGraph) : View := fun D =>
  (G.getNode (some D)).map fun n => ⟨(G.callees n).map G.decl, (G.parents n).map G.decl⟩

theorem isSome_view (G : CallGraph) (D : Decl) :
    (G.view D).isSome = (G.getNode (some D)).isSome := by
  simp [view]

theorem isSome_view_iff {D : Decl} : (G.view D).isSome = true ↔ G.HasNode D := by
  rw [isSome_view, hasNode_iff]

theorem includes_view (ast : ASTContext) (G : CallGraph) (D : Decl) :
    G.view.includes ast D = G.includeInGraph ast D := by
  simp [View.includes, includeInGraph_eq, view]

theorem WF.view_of_entry (h : WF G) {D : Decl} {n : NodeRef} (hn : (some D, n) ∈ G.functionMap) :
    G.view D = some ⟨(G.callees n).map G.decl, (G.parents n).map G.decl⟩ := by
  rw [view, h.getNode_eq_some_iff.mpr hn]
  rfl

theorem view_of_not_hasNode {D : Decl} (hD : ¬ G.HasNode D) : G.view D = none := by
  rw [← Option.not_isSome_iff_eq_none, isSome_view_iff]
  exact hD

theorem WF.calleesOf_view (h : WF G) {D : Decl} {n : NodeRef} (hn : (some D, n) ∈ G.functionMap) :
    G.view.calleesOf D = (G.callees n).map G.decl := by
  rw [View.calleesOf, h.view_of_entry hn]
  rfl

/-- The node of `D` is among the callees of the node of `E`. -/
def Calls (G : CallGraph) (E D : Decl) : Prop :=
  ∃ p n, G.getNode (some E) = some p ∧ G.getNode (some D) = some n ∧ n ∈ G.callees p

theorem WF.calls_iff (h : WF G) {E D : Decl} : G.Calls E D ↔ some D ∈ G.view.calleesOf E := by
  refine ⟨?_, ?_⟩
  · rintro ⟨p, n, hp, hn, hmem⟩
    rw [h.calleesOf_view (entry_of_getNode hp)]
    exact List.mem_map.mpr ⟨n, hmem, (h.entry_decl _ _ (entry_of_getNode hn)).2⟩
  · intro hmem
    rcases hp : G.getNode (some E) with _ | p
    · simp [View.calleesOf, view, hp] at hmem
    · rw [h.calleesOf_view (entry_of_getNode hp)] at hmem
      obtain ⟨n, hn, hD⟩ := List.mem_map.mp hmem
      have hentry := h.entry_of_allocated n (h.edge_allocated p n hn).2
      exact ⟨p, n, hp, h.getNode_eq_some_iff.mpr (hD ▸ hentry), hn⟩

/-! ## The operations on views are those of the builder -/

/-- A fresh node calls nothing yet, and has the root as its only parent; nothing else changes. -/
theorem WF.view_insert (h : WF G) (hD : G.getNode (some D) = none) :
    ((G.allocate (some D)).addCallee G.root G.next).view = G.view.enter D := by
  have hinsert : (G.getOrInsertNode (some D)).2 = (G.allocate (some D)).addCallee G.root G.next :=
    congrArg Prod.snd (getOrInsertNode_of_none hD)
  have hdecl : ∀ q, G.Allocated q →
      ((G.allocate (some D)).addCallee G.root G.next).decl q = G.decl q := by
    intro q hq
    rw [decl_addCallee, decl_allocate, if_neg hq.ne_next]
  funext F
  rw [View.enter, View.modify_apply]
  split
  · rename_i hF
    subst hF
    have hentry : (some F, G.next) ∈
        ((G.allocate (some F)).addCallee G.root G.next).functionMap := by
      rw [functionMap_addCallee]
      exact List.mem_append_right _ (List.mem_singleton_self _)
    rw [(h.insert hD).view_of_entry hentry, view_of_not_hasNode (by simp [hasNode_iff, hD]),
      h.callees_insert, parents_insert, if_pos rfl, if_neg h.root_allocated.ne_next.symm,
      h.callees_next, List.map_singleton, hdecl G.root h.root_allocated, h.decl_root]
    rfl
  · rename_i hF
    by_cases hnode : G.HasNode F
    · obtain ⟨n, hn⟩ := hnode
      have hn' := hinsert ▸ entry_getOrInsertNode hn
      have hroot := (h.isFunctionNode_of_entry hn).ne_root
      rw [(h.insert hD).view_of_entry hn', h.view_of_entry hn, h.callees_insert, parents_insert,
        if_neg hroot, if_neg (h.entry_decl _ _ hn).1.ne_next,
        List.map_congr_left fun q hq => hdecl q (h.edge_allocated n q hq).2,
        List.map_congr_left fun q hq => hdecl q
          (h.edge_allocated q n ((h.mem_parents_iff q n).mp hq)).1]
    · rw [view_of_not_hasNode hnode, view_of_not_hasNode]
      rw [← hinsert, hasNode_getOrInsertNode]
      exact not_or.mpr ⟨hnode, fun heq => hF heq.symm⟩

theorem WF.view_getOrInsertNode (h : WF G) (D : Decl) :
    (G.getOrInsertNode (some D)).2.view = G.view.enter D := by
  rcases hD : G.getNode (some D) with _ | n
  · rw [getOrInsertNode_of_none hD]
    exact h.view_insert hD
  · rw [getOrInsertNode_of_some hD]
    funext F
    rw [View.enter, View.modify_apply]
    split
    · rename_i hF
      rw [hF, h.view_of_entry (entry_of_getNode hD)]
      rfl
    · rfl

/-- Nodes of declarations are equal when the declarations are. -/
theorem WF.entry_eq_iff (h : WF G) {n p : NodeRef} (hn : (some F, n) ∈ G.functionMap)
    (hp : (some E, p) ∈ G.functionMap) : n = p ↔ F = E := by
  refine ⟨fun heq => ?_, fun heq => ?_⟩
  · subst heq
    exact Option.some.inj (h.entry_inj hn hp)
  · subst heq
    exact h.entry_fun hn hp

/-- The callees after `addCallee`, by declarations. -/
theorem WF.map_callees_addCallee (h : WF G) {m n p : NodeRef} (hm : (some F, m) ∈ G.functionMap)
    (hp : (some E, p) ∈ G.functionMap) (hn : (some D, n) ∈ G.functionMap) :
    ((G.addCallee p n).callees m).map G.decl =
      if F = E then (G.callees m).map G.decl ++ [some D] else (G.callees m).map G.decl := by
  rw [callees_addCallee]
  simp only [h.entry_eq_iff hm hp]
  split
  · rename_i hFE
    rw [(h.entry_eq_iff hm hp).mpr hFE, List.map_append, List.map_singleton,
      (h.entry_decl _ _ hn).2]
  · rfl

/-- The parents after `addCallee`, by declarations: the search for an existing parent finds its
declaration. -/
theorem WF.map_parents_addCallee (h : WF G) {m n p : NodeRef} (hm : (some F, m) ∈ G.functionMap)
    (hp : (some E, p) ∈ G.functionMap) (hn : (some D, n) ∈ G.functionMap) :
    ((G.addCallee p n).parents m).map G.decl =
      if F = D ∧ some E ∉ (G.parents m).map G.decl then (G.parents m).map G.decl ++ [some E]
      else (G.parents m).map G.decl := by
  obtain ⟨hpa, hpd⟩ := h.entry_decl _ _ hp
  have hparent : some E ∈ (G.parents n).map G.decl ↔ p ∈ G.parents n := by
    refine ⟨fun hmem => ?_, fun hmem => List.mem_map.mpr ⟨p, hmem, hpd⟩⟩
    obtain ⟨q, hq, hqd⟩ := List.mem_map.mp hmem
    have hqa := (h.edge_allocated q n ((h.mem_parents_iff q n).mp hq)).1
    rwa [← h.decl_inj hqa hpa (hqd.trans hpd.symm)]
  rw [parents_addCallee]
  simp only [h.entry_eq_iff hm hn]
  rcases eq_or_ne F D with hFD | hFD
  · simp only [(h.entry_eq_iff hm hn).mpr hFD, hparent]
    split
    · rw [List.map_append, List.map_singleton, hpd]
    · rfl
  · rw [if_neg fun hc => hFD hc.1, if_neg fun hc => hFD hc.1]

/-- `addCallee` between the nodes of two declarations. -/
theorem WF.view_addCallee (h : WF G) {n p : NodeRef} (hp : (some E, p) ∈ G.functionMap)
    (hn : (some D, n) ∈ G.functionMap) :
    (G.addCallee p n).view =
      (G.view.modify E (Entry.addCallee D)).modify D (Entry.addParent E) := by
  funext F
  by_cases hF : G.HasNode F
  · obtain ⟨m, hm⟩ := hF
    have hleft : (G.addCallee p n).view F = some
        ⟨((G.addCallee p n).callees m).map G.decl, ((G.addCallee p n).parents m).map G.decl⟩ := by
      simp only [view, getNode, functionMap_addCallee]
      rw [← getNode, h.getNode_eq_some_iff.mpr hm]
      simp
    rw [hleft, h.map_callees_addCallee hm hp hn, h.map_parents_addCallee hm hp hn,
      View.link_apply E D (h.view_of_entry hm)]
  · have hFE : F ≠ E := fun heq => hF ⟨p, heq ▸ hp⟩
    have hFD : F ≠ D := fun heq => hF ⟨n, heq ▸ hn⟩
    rw [View.modify_of_ne hFD, View.modify_of_ne hFE, view_of_not_hasNode hF, view_of_not_hasNode]
    rintro ⟨m, hm⟩
    rw [functionMap_addCallee] at hm
    exact hF ⟨m, hm⟩

theorem WalkInv.view_addCalledDeclForExpr {E : Decl} {p : NodeRef} (h : WalkInv E p G) (D : Decl) :
    (CallGraph.addCalledDeclForExpr p D G).view = G.view.record E D := by
  rw [CallGraph.addCalledDeclForExpr, (h.wf.getOrInsertNode (some D)).view_addCallee
    (entry_getOrInsertNode h.entry) (getOrInsertNode_entry G D), h.wf.view_getOrInsertNode]
  rfl

theorem WalkInv.view_perform {E : Decl} {p : NodeRef} (h : WalkInv E p G) (r : Request) :
    (CallGraph.perform ast p r G).view = G.view.perform ast E r := by
  cases r with
  | call D => exact h.view_addCalledDeclForExpr D
  | send D =>
    rw [CallGraph.perform, addCalledDecl, View.perform, includes_view]
    split
    · exact h.view_addCalledDeclForExpr D
    · rfl

theorem WalkInv.view_performAll {E : Decl} {p : NodeRef} (rs : List Request) {G : CallGraph}
    (h : WalkInv E p G) :
    (rs.foldl (fun G r => CallGraph.perform ast p r G) G).view =
      rs.foldl (fun v r => v.perform ast E r) G.view := by
  induction rs generalizing G with
  | nil => rfl
  | cons r rs ih => rw [List.foldl_cons, List.foldl_cons, ih (h.perform r), h.view_perform]

theorem WF.view_walk (h : WF G) (E : Decl) : (CallGraph.walk ast E G).view = G.view.walk ast E := by
  rw [walk_eq_foldl, (WalkInv.getOrInsertNode h E).view_performAll, h.view_getOrInsertNode]
  rfl

theorem WF.view_walkAll (h : WF G) (Es : List Decl) :
    (Es.foldl (fun G E => CallGraph.walk ast E G) G).view =
      Es.foldl (fun v E => v.walk ast E) G.view := by
  induction Es generalizing G with
  | nil => rfl
  | cons E Es ih => rw [List.foldl_cons, List.foldl_cons, ih (h.walk E), h.view_walk]

theorem WF.view_visitDecl (h : WF G) (D : Decl) :
    (CallGraph.visitDecl ast D G).view = G.view.visitDecl ast D := by
  rw [visitDecl_eq_foldl, h.view_walkAll, View.visitDecl, visitWalks, includes_view]
  split <;> rfl

/-- **The builder, by declarations**: what the graph says of each declaration after a unit is
determined by what it said before. -/
theorem WF.view_addToCallGraph (h : WF G) (unit : List Decl) :
    (CallGraph.addToCallGraph ast unit G).view = G.view.addToCallGraph ast unit := by
  induction unit generalizing G with
  | nil => rfl
  | cons D unit ih => exact (ih (h.visitDecl D)).trans (by rw [h.view_visitDecl]; rfl)

end CallGraph

end FindBoundary
