import FindBoundary.Dump
import FindBoundary.Termination
import FindBoundary.Unfolding

/-!
# What the traversals log

`traverse` logs every node that it descends into, indented by its depth, and `traverseFunction` the
definitions among them, each with its package. Both go through the same forest: below a node there
is once more, for every call of a function of another name, all that is below that function. The
indented log is the outline of the forest, and the forest can be read back from it
(`WF.traverse_inj`); but it is not the graph, and a chain of functions each of which calls the next
one twice makes it exponential (`WF.two_pow_le_traverseFunction`).
-/

namespace FindBoundary

namespace CallGraph

open Descent

variable (ast : ASTContext) (G : CallGraph)

/-! ## traverse -/

/-- `while (temp != 0)`: the indentation. -/
def indent : ℕ → String → String
  | 0, errs => errs
  | temp + 1, errs => indent temp (errs ++ "  ")

/-- The loop body of `traverse`, at a node that has been entered with some `count`. -/
def traverseBody (root it : NodeRef × ℕ) (_ : Unit) (errs : String) :
    Except Fault (Turn Unit String) :=
  if G.SameName ast root.1 it.1 then .ok (.next () errs)
  else .ok (.into () (indent root.2 errs ++ (G.node it.1).print ast ++ "\n"))

/-- `traverse`: the callees are entered with `count + 1`. -/
def traverse : Traversal (NodeRef × ℕ) Unit String Fault where
  children := markedChildren G.callees
  enter := ()
  body := G.traverseBody ast

/-! ## traverseFunction -/

/-- What `traverseFunction` does at a definition: a line in the log, and an entry in the map. -/
def enterDefinition (s : FuncPackageMap × String) (tmp : Decl) : FuncPackageMap × String :=
  let package := packageOf (ast.info tmp).filename
  (s.1.insertIfNew tmp package, s.2 ++ (ast.name tmp ++ " " ++ package ++ "\n"))

/-- The loop body of `traverseFunction` with the log. -/
def traverseFunctionLogBody (root it : NodeRef) (_ : Unit) (s : FuncPackageMap × String) :
    Except Fault (Turn Unit (FuncPackageMap × String)) :=
  match ast.asFunctionDecl (G.decl it) with
  | none => .error .nullDereference
  | some tmp =>
    if (ast.asFunctionDecl (G.decl root)).any fun rootDecl => ast.name rootDecl = ast.name tmp then
      .ok (.next () s)
    else if (ast.info tmp).isThisDeclarationADefinition then
      .ok (.into () (enterDefinition ast s tmp))
    else .ok (.into () s)

/-- `traverseFunction` with the log. -/
def traverseFunctionLog : Traversal NodeRef Unit (FuncPackageMap × String) Fault where
  children := G.callees
  enter := ()
  body := G.traverseFunctionLogBody ast

/-- The declaration of a node, if it is a function definition. -/
def definition (n : NodeRef) : Option Decl :=
  (ast.asFunctionDecl (G.decl n)).filter fun tmp => (ast.info tmp).isThisDeclarationADefinition

/-- The forest below a node, as both traversals go through it. -/
def CallForest (n : NodeRef) (f : Forest NodeRef) : Prop :=
  Unfolds G.callees (fun p c => ¬ G.SameName ast p c) n (G.callees n) f

variable {ast G}

/-! ## The outline -/

theorem toList_indent (temp : ℕ) : ∀ errs : String,
    (indent temp errs).toList = errs.toList ++ List.replicate (2 * temp) ' ' := by
  induction temp with
  | zero => exact fun errs => (List.append_nil _).symm
  | succ temp ih =>
    intro errs
    rw [indent, ih, String.toList_append, List.append_assoc, Nat.mul_succ, Nat.add_comm,
      List.replicate_add]
    rfl

variable (ast G)

/-- The line of a node at a depth. -/
def traverseLine (x : NodeRef × ℕ) : List Char :=
  List.replicate (2 * x.2) ' ' ++ ((G.node x.1).print ast).toList

/-- What the loop body logs; a node has been entered with its depth and one more. -/
def traverseStep (errs : String) (x : NodeRef × ℕ) : String :=
  indent (x.2 - 1) errs ++ (G.node x.1).print ast ++ "\n"

variable {ast G}

theorem traverse_uniform :
    (G.traverse ast).Uniform fun p c => ¬ G.SameName ast p.1 c.1 := by
  constructor
  case next =>
    intro p c l s l' s' hbody
    simp only [traverse, traverseBody] at hbody
    split at hbody
    · rename_i hsame
      exact not_not.mpr hsame
    · cases hbody
  case into =>
    intro p c l s l' s' hbody
    simp only [traverse, traverseBody] at hbody
    split at hbody
    · cases hbody
    · rename_i hsame
      exact hsame

theorem traverseBody_sound (p c : NodeRef × ℕ) (l : Unit) (s : String) :
    ∃ turn, (G.traverse ast).body p c l s = .ok turn := by
  simp only [traverse, traverseBody]
  split <;> exact ⟨_, rfl⟩

theorem traverse_performs :
    (G.traverse ast).Performs (fun p c => ¬ G.SameName ast p.1 c.1) (G.traverseStep ast) := by
  constructor
  case next =>
    intro p c l s l' s' hbody
    refine ⟨traverse_uniform.next hbody, ?_⟩
    simp only [traverse, traverseBody] at hbody
    split at hbody
    · cases hbody
      rfl
    · cases hbody
  case into =>
    intro p c l s l' s' hc hbody
    refine ⟨traverse_uniform.into hbody, ?_⟩
    obtain ⟨c, -, rfl⟩ := List.mem_map.mp hc
    simp only [traverse, traverseBody] at hbody
    split at hbody
    · cases hbody
    · cases hbody
      rfl

/-- With the `count` at every node, the forest is the same. -/
theorem unfolds_traverse_iff {n : NodeRef} {d : ℕ} {F : Forest (NodeRef × ℕ)} :
    Unfolds (G.traverse ast).children (fun p c => ¬ G.SameName ast p.1 c.1) (n, d)
        ((G.traverse ast).children (n, d)) F ↔
      ∃ f, G.CallForest ast n f ∧ F = f.mark (d + 1) :=
  unfolds_marked_iff G.callees fun p c => ¬ G.SameName ast p c

/-- `traverse` returns exactly where there is a forest. -/
theorem traverse_returns_iff {n : NodeRef} {d : ℕ} {errs : String} :
    (G.traverse ast).Returns (n, d) errs ↔ ∃ f, G.CallForest ast n f := by
  rw [Traversal.returns_iff_acc traverse_uniform traverseBody_sound]
  refine exists_unfolds_iff.symm.trans ⟨fun ⟨F, hF⟩ => ?_, fun ⟨f, hf⟩ => ?_⟩
  · obtain ⟨f, hf, -⟩ := unfolds_traverse_iff.mp hF
    exact ⟨f, hf⟩
  · exact ⟨_, unfolds_traverse_iff.mpr ⟨f, hf, rfl⟩⟩

/-- The lines of an outline, one after the other. -/
theorem toList_foldl_traverseStep (f : Forest NodeRef) (d : ℕ) (errs : String) :
    ((f.mark (d + 1)).nodes.foldl (G.traverseStep ast) errs).toList =
      errs.toList ++ Lines.unlines '\n' ((f.outline d).map (G.traverseLine ast)) := by
  have hstep : ∀ (errs : String) (x : NodeRef × ℕ),
      (G.traverseStep ast errs (Prod.map id Nat.succ x)).toList =
        errs.toList ++ (G.traverseLine ast x ++ ['\n']) := by
    intro errs x
    simp [traverseStep, traverseLine, toList_indent]
  rw [Forest.nodes_mark, Forest.outline_succ, List.foldl_map,
    Lines.foldl_appends String.toList hstep, Lines.unlines, List.flatMap_map]

/-- A run has a forest, and logs its outline. -/
theorem exists_callForest_of_traverse {fuel : ℕ} {n : NodeRef} {d : ℕ} {errs errs' : String}
    (hrun : (G.traverse ast).descend fuel (n, d) errs = .ok errs') :
    ∃ f, G.CallForest ast n f ∧ errs'.toList =
      errs.toList ++ Lines.unlines '\n' ((f.outline d).map (G.traverseLine ast)) := by
  obtain ⟨F, hF, herrs⟩ := traverse_performs.exists_unfolds hrun
  obtain ⟨f, hf, rfl⟩ := unfolds_traverse_iff.mp hF
  exact ⟨f, hf, by rw [herrs, toList_foldl_traverseStep]⟩

/-- **What `traverse` logs**, from any node with any `count`, on any graph: it returns exactly if
there is a forest of calls below the node, and then the log has got the outline of the forest. -/
theorem traverse_eq_ok_iff {n : NodeRef} {d : ℕ} {errs errs' : String} :
    (∃ fuel, (G.traverse ast).descend fuel (n, d) errs = .ok errs') ↔
      ∃ f, G.CallForest ast n f ∧ errs'.toList =
        errs.toList ++ Lines.unlines '\n' ((f.outline d).map (G.traverseLine ast)) := by
  refine ⟨fun ⟨fuel, hrun⟩ => exists_callForest_of_traverse hrun, fun ⟨f, hf, herrs⟩ => ?_⟩
  rw [traverse_performs.descend_eq_ok_iff, traverse_returns_iff]
  refine ⟨⟨f, hf⟩, _, unfolds_traverse_iff.mpr ⟨f, hf, rfl⟩, ?_⟩
  rw [← String.toList_inj, herrs, toList_foldl_traverseStep]

/-! ## Reading back -/

/-- What is written of a node: the name and the address of its declaration. -/
def written (ast : ASTContext) (G : CallGraph) (n : NodeRef) : Option (String × Decl) :=
  (ast.asNamedDecl (G.decl n)).map fun D => (ast.name D, D)

/-- All declarations have names, each of one line that is not indented. -/
structure Outlinable (ast : ASTContext) (G : CallGraph) : Prop extends OneLineNames ast G where
  noIndent : ∀ D, G.HasNode D → (ast.name D).toList.head? ≠ some ' '

theorem Dumpable.outlinable (hd : Dumpable ast G) : Outlinable ast G :=
  ⟨hd.toOneLineNames, fun D hD hspace => hd.noSpace D hD (List.mem_of_mem_head? hspace)⟩

theorem Outlinable.noIndent_print (ho : Outlinable ast G) (h : WF G) {n : NodeRef}
    (hn : G.IsFunctionNode n) : ((G.node n).print ast).toList.head? ≠ some ' ' := by
  obtain ⟨D, hD, -, hnamed⟩ := ho.exists_decl h hn
  have hname := ho.noIndent D hD
  rw [toList_print hnamed]
  cases hchars : (ast.name D).toList with
  | nil => simp
  | cons c cs =>
    rw [hchars] at hname
    exact hname

theorem OneLineNames.noNewline_traverseLine (ho : OneLineNames ast G) (h : WF G) {n : NodeRef}
    (hn : G.IsFunctionNode n) (d : ℕ) : '\n' ∉ G.traverseLine ast (n, d) := by
  intro hmem
  rcases List.mem_append.mp hmem with hmem | hmem
  · exact absurd (List.eq_of_mem_replicate hmem) (by decide)
  · exact ho.noNewline_print h hn hmem

/-- What is written decides how it is written. -/
theorem traverseLine_eq_of_written {ast' : ASTContext} {G' : CallGraph} {x x' : NodeRef × ℕ}
    (h : Prod.map (written ast G) id x = Prod.map (written ast' G') id x') :
    G.traverseLine ast x = G'.traverseLine ast' x' := by
  obtain ⟨hwritten, hdepth⟩ := Prod.mk.inj h
  have hprint : (G.node x.1).print ast = (G'.node x'.1).print ast' := by
    simp only [written, decl] at hwritten
    simp only [CallGraphNode.print]
    cases hD : ast.asNamedDecl (G.node x.1).fd with
    | none =>
      rw [hD] at hwritten
      rw [Option.map_eq_none_iff.mp hwritten.symm]
    | some D =>
      rw [hD, Option.map_some, eq_comm, Option.map_eq_some_iff] at hwritten
      obtain ⟨D', hD', hpair⟩ := hwritten
      obtain ⟨hname, rfl⟩ := Prod.mk.inj hpair
      simp only [hD', hname]
  have hcount : x.2 = x'.2 := hdepth
  rw [traverseLine, traverseLine, hprint, hcount]

/-- The name, the address and the depth can be read off a line. -/
theorem Outlinable.written_eq_of_traverseLine {ast' : ASTContext} {G' : CallGraph}
    (ho : Outlinable ast G) (ho' : Outlinable ast' G') (h : WF G) (h' : WF G')
    {x x' : NodeRef × ℕ} (hx : G.IsFunctionNode x.1) (hx' : G'.IsFunctionNode x'.1)
    (heq : G.traverseLine ast x = G'.traverseLine ast' x') :
    Prod.map (written ast G) id x = Prod.map (written ast' G') id x' := by
  obtain ⟨hdepth, hprint⟩ :=
    Lines.indent_inj (ho.noIndent_print h hx) (ho'.noIndent_print h' hx') heq
  obtain ⟨D, -, -, hnamed⟩ := ho.exists_decl h hx
  obtain ⟨D', -, -, hnamed'⟩ := ho'.exists_decl h' hx'
  obtain ⟨hname, rfl⟩ := print_inj hnamed hnamed' (String.toList_inj.mp hprint)
  have hwritten : written ast G x.1 = written ast' G' x'.1 := by
    simp only [written, decl]
    rw [hnamed, hnamed', Option.map_some, Option.map_some, hname]
  have hcount : x.2 = x'.2 := by omega
  exact Prod.ext hwritten hcount

/-- In a forest are nodes of functions. -/
theorem CallForest.isFunctionNode {n : NodeRef} {f : Forest NodeRef} (hf : G.CallForest ast n f)
    (h : WF G) {d : ℕ} {x : NodeRef × ℕ} (hx : x ∈ f.outline d) : G.IsFunctionNode x.1 := by
  have hnode : x.1 ∈ f.nodes := by
    rw [← f.map_fst_outline d]
    exact List.mem_map_of_mem hx
  obtain ⟨q, hq⟩ := hf.exists_mem_children (fun c hc => hc) x.1 hnode
  exact h.isFunctionNode_of_mem hq

/-- **The log of `traverse` can be read back**: two runs on two graphs log the same exactly if their
forests are the same, with the names and the addresses of the declarations. -/
theorem WF.traverse_inj {ast' : ASTContext} {G' : CallGraph} (h : WF G) (h' : WF G')
    (ho : Outlinable ast G) (ho' : Outlinable ast' G') {n n' : NodeRef} {fuel fuel' : ℕ}
    {errs errs' : String} (hrun : (G.traverse ast).descend fuel (n, 0) "" = .ok errs)
    (hrun' : (G'.traverse ast').descend fuel' (n', 0) "" = .ok errs') :
    errs = errs' ↔ ∃ f f', G.CallForest ast n f ∧ G'.CallForest ast' n' f' ∧
      f.map (written ast G) = f'.map (written ast' G') := by
  obtain ⟨f, hf, herrs⟩ := exists_callForest_of_traverse hrun
  obtain ⟨f', hf', herrs'⟩ := exists_callForest_of_traverse hrun'
  rw [String.toList_empty, List.nil_append] at herrs herrs'
  refine ⟨fun heq => ⟨f, f', hf, hf', ?_⟩, ?_⟩
  · have hone : ∀ {ast : ASTContext} {G : CallGraph} {n : NodeRef} {f : Forest NodeRef}, WF G →
        Outlinable ast G → G.CallForest ast n f →
        ∀ l ∈ (f.outline 0).map (G.traverseLine ast), '\n' ∉ l := by
      intro ast G n f h ho hf l hl
      obtain ⟨x, hx, rfl⟩ := List.mem_map.mp hl
      exact ho.noNewline_traverseLine h (hf.isFunctionNode h hx) x.2
    have htext : Lines.unlines '\n' ((f.outline 0).map (G.traverseLine ast)) ++ [] =
        Lines.unlines '\n' ((f'.outline 0).map (G'.traverseLine ast')) ++ [] := by
      rw [← herrs, ← herrs', heq]
    have hlines := (Lines.unlines_inj List.not_mem_nil List.not_mem_nil (hone h ho hf)
      (hone h' ho' hf') htext).1
    apply Forest.outline_inj (d := 0)
    rw [Forest.outline_map, Forest.outline_map]
    refine Lines.map_eq_of_map_eq (fun x hx x' hx' hline => ?_) hlines
    exact ho.written_eq_of_traverseLine ho' h h' (hf.isFunctionNode h hx)
      (hf'.isFunctionNode h' hx') hline
  · rintro ⟨f₁, f₁', hf₁, hf₁', heq⟩
    obtain rfl := hf.unique hf₁
    obtain rfl := hf'.unique hf₁'
    have houtline := congrArg (Forest.outline 0) heq
    rw [Forest.outline_map, Forest.outline_map] at houtline
    have hlines := Lines.map_eq_of_map_eq
      (fun x _ x' _ hwritten => traverseLine_eq_of_written hwritten) houtline
    rw [← String.toList_inj, herrs, herrs', hlines]

/-- One function that calls nothing. -/
def leaf : ASTContext := .ofTable [.definition "f" []]

/-- Not vacuous: the log does not show that a function calls itself. -/
theorem traverse_inj_selfCaller :
    ∃ f f', (visitDecl selfCaller 0 new).CallForest selfCaller 0 f ∧
      (visitDecl leaf 0 new).CallForest leaf 0 f' ∧
      f.map (written selfCaller (visitDecl selfCaller 0 new)) =
        f'.map (written leaf (visitDecl leaf 0 new)) := by
  have hrun : ((visitDecl selfCaller 0 new).traverse selfCaller).descend 3 (0, 0) "" = .ok _ :=
    eq_ok_getD "" (by decide +kernel)
  have hrun' : ((visitDecl leaf 0 new).traverse leaf).descend 3 (0, 0) "" = .ok _ :=
    eq_ok_getD "" (by decide +kernel)
  exact ((wf_new.visitDecl 0).traverse_inj (wf_new.visitDecl 0)
    (dumpable_ofTable _ (by decide +kernel)).outlinable
    (dumpable_ofTable _ (by decide +kernel)).outlinable hrun hrun').mp (by decide +kernel)

/-! ## The log of traverseFunction -/

theorem traverseFunctionLog_refines :
    (G.traverseFunctionLog ast).Refines (G.traverseFunction ast) Prod.fst := by
  refine ⟨rfl, rfl, fun p c l s => ?_⟩
  simp only [traverseFunctionLog, traverseFunction, traverseFunctionLogBody, traverseFunctionBody]
  cases ast.asFunctionDecl (G.decl c) with
  | none => rfl
  | some tmp =>
    simp only
    split
    · rfl
    · split <;> rfl

variable (ast G)

/-- What the loop body does at a callee that it descends into. -/
def traverseFunctionStep (s : FuncPackageMap × String) (it : NodeRef) : FuncPackageMap × String :=
  match G.definition ast it with
  | some tmp => enterDefinition ast s tmp
  | none => s

variable {ast G}

theorem traverseFunctionLog_uniform :
    (G.traverseFunctionLog ast).Uniform fun p c => ¬ G.SameName ast p c :=
  traverseFunctionLog_refines.uniform traverseFunction_uniform

theorem traverseFunctionLog_performs :
    (G.traverseFunctionLog ast).Performs (fun p c => ¬ G.SameName ast p c)
      (G.traverseFunctionStep ast) := by
  constructor
  case next =>
    intro p c l s l' s' hbody
    refine ⟨traverseFunctionLog_uniform.next hbody, ?_⟩
    simp only [traverseFunctionLog, traverseFunctionLogBody] at hbody
    cases hc : ast.asFunctionDecl (G.decl c) with
    | none => simp [hc] at hbody
    | some tmp =>
      simp only [hc] at hbody
      split at hbody
      · cases hbody
        rfl
      · split at hbody <;> cases hbody
  case into =>
    intro p c l s l' s' _ hbody
    refine ⟨traverseFunctionLog_uniform.into hbody, ?_⟩
    simp only [traverseFunctionLog, traverseFunctionLogBody] at hbody
    cases hc : ast.asFunctionDecl (G.decl c) with
    | none => simp [hc] at hbody
    | some tmp =>
      simp only [hc] at hbody
      split at hbody
      · cases hbody
      · split at hbody
        · rename_i hdef
          cases hbody
          simp [traverseFunctionStep, definition, hc, Option.filter_some, hdef]
        · rename_i hdef
          cases hbody
          simp [traverseFunctionStep, definition, hc, Option.filter_some, hdef]

/-- The definitions in a forest, in order. -/
def definitions (ast : ASTContext) (G : CallGraph) (f : Forest NodeRef) : List Decl :=
  f.nodes.filterMap (G.definition ast)

theorem foldl_traverseFunctionStep (f : Forest NodeRef) (s : FuncPackageMap × String) :
    f.nodes.foldl (G.traverseFunctionStep ast) s =
      (definitions ast G f).foldl (enterDefinition ast) s := by
  rw [definitions, List.foldl_filterMap]
  refine congrArg (fun eff => f.nodes.foldl eff s) (funext fun s => funext fun n => ?_)
  rw [traverseFunctionStep]
  cases G.definition ast n <;> rfl

/-- There is a forest below the root exactly if no cycle leads through functions of different
names. -/
theorem WF.exists_callForest_iff (h : WF G) : (∃ f, G.CallForest ast G.root f) ↔
    ∀ n, ¬ Relation.TransGen (fun p c => c ∈ G.callees p ∧ ¬ G.SameName ast p c) n n :=
  exists_unfolds_iff.trans (h.acc_root_iff (T := G.traverseFunction ast) rfl h.not_sameName_root)

/-- **What `traverseFunction` does**, on a graph that keeps the invariant: it returns exactly if all
nodes are functions and there is a forest of calls below the root; and then it has entered the
definitions in the forest, as often as they are there, in the map and in the log. -/
theorem WF.traverseFunctionLog_iff (h : WF G) {s s' : FuncPackageMap × String} :
    (∃ fuel, (G.traverseFunctionLog ast).descend fuel G.root s = .ok s') ↔
      (∀ n, G.IsFunctionNode n → (ast.asFunctionDecl (G.decl n)).isSome = true) ∧
      ∃ f, G.CallForest ast G.root f ∧
        s' = (definitions ast G f).foldl (enterDefinition ast) s := by
  rw [traverseFunctionLog_performs.descend_eq_ok_iff, traverseFunctionLog_refines.returns_iff,
    h.traverseFunction_returns_iff, ← h.exists_callForest_iff]
  refine ⟨fun ⟨⟨hfun, _⟩, f, hf, hs⟩ => ⟨hfun, f, hf, ?_⟩,
    fun ⟨hfun, f, hf, hs⟩ => ⟨⟨hfun, f, hf⟩, f, hf, ?_⟩⟩
  · rw [hs, foldl_traverseFunctionStep]
  · rw [hs, foldl_traverseFunctionStep]

/-- Three functions, defined before they are called, each of which is called twice by the next. -/
def twiceEach : ASTContext :=
  .ofTable [.definition "f" [], .definition "g" [0, 0], .definition "h" [1, 1]]

/-- Not vacuous: these return, so there is a forest. -/
theorem traverseFunctionLog_iff_twiceEach :
    let G := (ofUnits twiceEach [[0, 1, 2]]).mergeFunctionMap twiceEach (.self _)
    ∃ s' f, (G.traverseFunctionLog twiceEach).descend 5 G.root (∅, "") = .ok s' ∧
      G.CallForest twiceEach G.root f ∧
      s' = (definitions twiceEach G f).foldl (enterDefinition twiceEach) (∅, "") := by
  intro G
  have h : WF G := ((wf_ofUnits twiceEach [[0, 1, 2]]).mergeFunctionMap twiceEach (.self _)).1
  have hrun : (G.traverseFunctionLog twiceEach).descend 5 G.root (∅, "") = .ok _ :=
    eq_ok_getD (∅, "") (by decide +kernel)
  obtain ⟨-, f, hf, hs⟩ := h.traverseFunctionLog_iff.mp ⟨5, hrun⟩
  exact ⟨_, f, hrun, hf, hs⟩

/-! ## How long the log is -/

/-- Every definition in the forest adds a line. -/
theorem count_foldl_enterDefinition (ast : ASTContext) (defs : List Decl)
    (s : FuncPackageMap × String) : s.2.toList.count '\n' + defs.length ≤
      (defs.foldl (enterDefinition ast) s).2.toList.count '\n' := by
  induction defs generalizing s with
  | nil => exact Nat.le_refl _
  | cons tmp defs ih =>
    refine Nat.le_trans ?_ (ih (enterDefinition ast s tmp))
    have hline : s.2.toList.count '\n' + 1 ≤
        (enterDefinition ast s tmp).2.toList.count '\n' := by
      simp only [enterDefinition, String.toList_append, List.count_append]
      have hend : "\n".toList.count '\n' = 1 := by decide
      omega
    rw [List.length_cons]
    omega

/-- The forest below the root has that of every node in it. -/
theorem WF.countP_le_of_callForest (h : WF G) (P : NodeRef → Bool) {f : Forest NodeRef}
    (hf : G.CallForest ast G.root f) {n : NodeRef} (hn : G.Allocated n) :
    ∃ below, G.CallForest ast n below ∧ below.nodes.countP P ≤ f.nodes.countP P := by
  by_cases hr : n = G.root
  · exact ⟨f, hr ▸ hf, Nat.le_refl _⟩
  · have hfollow : ¬ G.SameName ast G.root n := h.not_sameName_root n
    obtain ⟨below, hbelow⟩ :=
      exists_unfolds_iff.mpr (hf.acc n (h.mem_callees_root hn hr) hfollow)
    have hcount := hf.count_mul_le_countP P hfollow hbelow
    rw [h.count_root n hn hr, Nat.one_mul] at hcount
    exact ⟨below, hbelow, Nat.le_trans (List.sublist_cons_self n _).countP_le hcount⟩

/-- **The log can be exponential**: if `traverseFunction` returns from the root, and along a path of
`n` calls every function calls the next one at least twice, and the functions called are definitions
with names other than those of their callers, then the log has at least `2 ^ n - 1` lines. -/
theorem WF.two_pow_le_traverseFunction (h : WF G) {n : ℕ} {path : ℕ → NodeRef}
    (hpath : ∀ i < n, 2 ≤ (G.callees (path i)).count (path (i + 1)) ∧
      ¬ G.SameName ast (path i) (path (i + 1)) ∧
      (G.definition ast (path (i + 1))).isSome = true)
    {fuel : ℕ} {s s' : FuncPackageMap × String}
    (hrun : (G.traverseFunctionLog ast).descend fuel G.root s = .ok s') :
    2 ^ n ≤ s'.2.toList.count '\n' + 1 := by
  obtain ⟨f, hf, hs'⟩ := traverseFunctionLog_performs.exists_unfolds hrun
  rw [foldl_traverseFunctionStep] at hs'
  have hlog := count_foldl_enterDefinition ast (definitions ast G f) s
  rw [← hs', definitions, List.length_filterMap_eq_countP] at hlog
  cases n with
  | zero => exact Nat.le_add_left 1 _
  | succ n =>
    have hcall : path 1 ∈ G.callees (path 0) :=
      List.count_pos_iff.mp (Nat.lt_of_lt_of_le Nat.zero_lt_two (hpath 0 (Nat.succ_pos n)).1)
    obtain ⟨below, hbelow, hle⟩ := h.countP_le_of_callForest
      (fun it => (G.definition ast it).isSome) hf (h.edge_allocated _ _ hcall).1
    have hpow := hbelow.two_pow_le_countP (fun it => (G.definition ast it).isSome) path hpath
    omega

/-- Not vacuous: `h` alone logs six lines. -/
theorem two_pow_le_traverseFunction_twiceEach :
    let G := (ofUnits twiceEach [[0, 1, 2]]).mergeFunctionMap twiceEach (.self _)
    ∃ s', (G.traverseFunctionLog twiceEach).descend 5 G.root (∅, "") = .ok s' ∧
      2 ^ 2 ≤ s'.2.toList.count '\n' + 1 := by
  intro G
  have h : WF G := ((wf_ofUnits twiceEach [[0, 1, 2]]).mergeFunctionMap twiceEach (.self _)).1
  have hrun : (G.traverseFunctionLog twiceEach).descend 5 G.root (∅, "") = .ok _ :=
    eq_ok_getD (∅, "") (by decide +kernel)
  have hpath : ∀ i < 2, 2 ≤ (G.callees (3 - i)).count (3 - (i + 1)) ∧
      ¬ G.SameName twiceEach (3 - i) (3 - (i + 1)) ∧
      (G.definition twiceEach (3 - (i + 1))).isSome = true := by decide +kernel
  refine ⟨_, hrun, ?_⟩
  exact WF.two_pow_le_traverseFunction h hpath hrun

end CallGraph

end FindBoundary
