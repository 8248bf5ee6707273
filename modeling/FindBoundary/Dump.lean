import FindBoundary.Lines
import FindBoundary.View

/-!
# The dump of the call graph

`CallGraph::print` writes a line for every node that can be reached from the root, with the nodes it
calls; a node is written as its name, followed by its address. Every node can be reached, and the
assertion on the way never fails (`Reachable.print_lines`). The dump has all that the graph says
about declarations: as long as there are only named ones, and no spaces in their names, the graph
can be read back (`WF.print_inj`).
-/

namespace FindBoundary

variable (ast : ASTContext)

/-- `CallGraphNode::print`: the name and the address. Of a declaration that has no name nothing is
written; what stands behind the `return` is not reached. -/
def CallGraphNode.print (N : CallGraphNode) : String :=
  match ast.asNamedDecl N.fd with
  | some ND => ast.name ND ++ ("0x" ++ String.ofList (Nat.toDigits 16 ND))
  | none => ""

namespace CallGraph

variable (G : CallGraph)

/-- `ReversePostOrderTraversal`: the nodes that can be reached from the root, each of them once. -/
structure ReversePostOrder (G : CallGraph) : Type where
  nodes : List NodeRef
  nodup : nodes.Nodup
  mem_iff : ∀ n, n ∈ nodes ↔ Relation.ReflTransGen (fun p c => c ∈ G.callees p) G.root n

/-- The body of the loop over the callees, with its assertion. -/
def printCallee (OS : String) (CI : NodeRef) : Except String String :=
  if CI = G.root then .error "No one can call the root node."
  else .ok (OS ++ ((G.node CI).print ast ++ " "))

/-- The body of the loop over the nodes. -/
def printNode (OS : String) (N : NodeRef) : Except String String := do
  let OS := OS ++ "  Function: " ++ (if N = G.root then "< root >" else (G.node N).print ast)
  let OS ← (G.callees N).foldlM (G.printCallee ast) (OS ++ " calls: ")
  return OS ++ "\n"

/-- `CallGraph::print` -/
def print (RPOT : G.ReversePostOrder) : Except String String :=
  RPOT.nodes.foldlM (G.printNode ast) " --- Call graph Dump --- \n"

end CallGraph

/-! ## Addresses -/

/-- The digits are those of the base. -/
theorem exists_of_mem_toDigits {n : ℕ} {c : Char} (hc : c ∈ Nat.toDigits 16 n) :
    ∃ d < 16, c = Nat.digitChar d := by
  induction n using Nat.strong_induction_on with
  | _ n ih =>
    rw [Nat.toDigits_eq_if (by decide)] at hc
    split at hc
    · rename_i hn
      exact ⟨n, hn, List.mem_singleton.mp hc⟩
    · rename_i hn
      rcases List.mem_append.mp hc with hc | hc
      · exact ih (n / 16) (by omega) hc
      · exact ⟨n % 16, by omega, List.mem_singleton.mp hc⟩

theorem not_mem_toDigits {c : Char} (hc : ∀ d < 16, Nat.digitChar d ≠ c) (n : ℕ) :
    c ∉ Nat.toDigits 16 n := by
  intro hmem
  obtain ⟨d, hd, rfl⟩ := exists_of_mem_toDigits hmem
  exact hc d hd rfl

theorem digitChar_inj {d d' : ℕ} (hd : d < 16) (hd' : d' < 16)
    (h : Nat.digitChar d = Nat.digitChar d') : d = d' := by
  have hall : ∀ d < 16, ∀ d' < 16, Nat.digitChar d = Nat.digitChar d' → d = d' := by decide
  exact hall d hd d' hd' h

theorem toDigits_inj {m n : ℕ} (h : Nat.toDigits 16 m = Nat.toDigits 16 n) : m = n := by
  induction m using Nat.strong_induction_on generalizing n with
  | _ m ih =>
    have hsplit : ∀ {k : ℕ}, 16 ≤ k →
        Nat.toDigits 16 k = Nat.toDigits 16 (k / 16) ++ [Nat.digitChar (k % 16)] :=
      fun hk => Nat.toDigits_of_base_le (by decide) hk
    -- a number with several digits is not one with a single digit
    have hshort : ∀ {k l : ℕ}, k < 16 → 16 ≤ l → Nat.toDigits 16 k ≠ Nat.toDigits 16 l := by
      intro k l hk hl heq
      rw [Nat.toDigits_of_lt_base hk, hsplit hl, List.singleton_eq_append_iff] at heq
      simp [Nat.toDigits_ne_nil] at heq
    rcases Nat.lt_or_ge m 16 with hm | hm
    · rcases Nat.lt_or_ge n 16 with hn | hn
      · rw [Nat.toDigits_of_lt_base hm, Nat.toDigits_of_lt_base hn] at h
        exact digitChar_inj hm hn (List.cons.inj h).1
      · exact absurd h (hshort hm hn)
    · rcases Nat.lt_or_ge n 16 with hn | hn
      · exact absurd h.symm (hshort hn hm)
      · rw [hsplit hm, hsplit hn] at h
        obtain ⟨hdiv, hmod⟩ := List.append_inj' h rfl
        have hquot := ih (m / 16) (by omega) hdiv
        have hrem := digitChar_inj (Nat.mod_lt m (by decide)) (Nat.mod_lt n (by decide))
          (List.cons.inj hmod).1
        omega

variable {ast}

theorem toList_print {N : CallGraphNode} {D : Decl} (hD : ast.asNamedDecl N.fd = some D) :
    (N.print ast).toList = (ast.name D).toList ++ '0' :: 'x' :: Nat.toDigits 16 D := by
  simp [CallGraphNode.print, hD]

/-- Nodes of named declarations can be told apart, whatever the names are: the last `x` ends the
name. -/
theorem print_inj {ast' : ASTContext} {N N' : CallGraphNode} {D D' : Decl}
    (hD : ast.asNamedDecl N.fd = some D) (hD' : ast'.asNamedDecl N'.fd = some D')
    (h : N.print ast = N'.print ast') : ast.name D = ast'.name D' ∧ D = D' := by
  have hx : ∀ k, 'x' ∉ (Nat.toDigits 16 k).reverse := by
    intro k
    rw [List.mem_reverse]
    exact not_mem_toDigits (by decide) k
  have hreverse := congrArg List.reverse (congrArg String.toList h)
  rw [toList_print hD, toList_print hD'] at hreverse
  simp only [List.reverse_append, List.reverse_cons, List.append_assoc, List.cons_append,
    List.nil_append] at hreverse
  obtain ⟨hdigits, hname⟩ := Lines.cut_inj (hx D) (hx D') hreverse
  exact ⟨String.toList_inj.mp (List.reverse_inj.mp (List.cons.inj hname).2),
    toDigits_inj (List.reverse_inj.mp hdigits)⟩

/-- A character that is neither a digit nor in the name is not written. -/
theorem not_mem_print {N : CallGraphNode} {D : Decl} (hD : ast.asNamedDecl N.fd = some D)
    {c : Char} (hname : c ∉ (ast.name D).toList) (hx : c ≠ 'x')
    (hdigit : ∀ d < 16, Nat.digitChar d ≠ c) : c ∉ (N.print ast).toList := by
  have hzero : c ≠ '0' := fun hc => hdigit 0 (by decide) hc.symm
  rw [toList_print hD]
  simp [hname, hx, hzero, not_mem_toDigits hdigit D]

namespace CallGraph

variable {G : CallGraph}

/-! ## The lines -/

variable (ast G)

/-- A node, as it is written behind `Function:`. -/
def functionText (N : NodeRef) : List Char :=
  if N = G.root then "< root >".toList else ((G.node N).print ast).toList

/-- The nodes called, with what ends each of them. -/
def callsText (N : NodeRef) : List Char :=
  Lines.unlines ' ' ((G.callees N).map fun CI => ((G.node CI).print ast).toList)

/-- The line of a node. -/
def dumpLine (N : NodeRef) : List Char :=
  ' ' :: (" Function: ".toList ++
    (G.functionText ast N ++ ' ' :: ("calls: ".toList ++ G.callsText ast N)))

variable {ast G}

theorem WF.printNode_eq_ok (h : WF G) (N : NodeRef) (OS : String) :
    ∃ OS', G.printNode ast OS N = .ok OS' ∧
      OS'.toList = OS.toList ++ (G.dumpLine ast N ++ ['\n']) := by
  have hcallee : ∀ CI ∈ G.callees N, ∀ OS, ∃ OS', G.printCallee ast OS CI = .ok OS' ∧
      OS'.toList = OS.toList ++ (((G.node CI).print ast).toList ++ [' ']) := by
    intro CI hCI OS
    refine ⟨OS ++ ((G.node CI).print ast ++ " "), if_neg (h.ne_root_of_mem hCI), ?_⟩
    simp
  obtain ⟨OS', hOS', htext⟩ := Lines.foldlM_appends String.toList hcallee
    (OS ++ "  Function: " ++ (if N = G.root then "< root >" else (G.node N).print ast) ++
      " calls: ")
  refine ⟨OS' ++ "\n", ?_, ?_⟩
  · rw [printNode, hOS']
    rfl
  · have hfunction : (if N = G.root then "< root >" else (G.node N).print ast).toList =
        G.functionText ast N := apply_ite String.toList _ _ _
    have hcalls : G.callsText ast N =
        (G.callees N).flatMap fun CI => ((G.node CI).print ast).toList ++ [' '] := by
      rw [callsText, Lines.unlines, List.flatMap_map]
    rw [String.toList_append, htext, String.toList_append, String.toList_append,
      String.toList_append, hfunction, dumpLine, hcalls]
    simp

/-- A dump of a graph that keeps the invariant has a line for each node. -/
theorem WF.print_eq_ok (h : WF G) (ast : ASTContext) (RPOT : G.ReversePostOrder) :
    ∃ OS, G.print ast RPOT = .ok OS ∧ OS.toList =
      Lines.unlines '\n' (" --- Call graph Dump --- ".toList ::
        RPOT.nodes.map (G.dumpLine ast)) := by
  obtain ⟨OS, hOS, htext⟩ := Lines.foldlM_appends (l := RPOT.nodes) String.toList
    (fun N _ OS => h.printNode_eq_ok N OS) " --- Call graph Dump --- \n"
  refine ⟨OS, hOS, htext.trans ?_⟩
  rw [Lines.unlines, List.flatMap_cons, List.flatMap_map]
  rfl

/-- Every node can be reached. -/
theorem WF.reachable_iff (h : WF G) (n : NodeRef) :
    Relation.ReflTransGen (fun p c => c ∈ G.callees p) G.root n ↔ G.Allocated n := by
  refine ⟨fun hn => ?_, fun hn => ?_⟩
  · rcases Relation.ReflTransGen.cases_tail hn with rfl | ⟨p, -, hp⟩
    · exact h.root_allocated
    · exact (h.edge_allocated p n hp).2
  · by_cases hr : n = G.root
    · rw [hr]
    · exact .single (h.mem_callees_root hn hr)

/-- The nodes in the order in which they have been made. -/
def WF.inOrder (h : WF G) : G.ReversePostOrder where
  nodes := List.range G.next
  nodup := List.nodup_range
  mem_iff n := by rw [h.reachable_iff, List.mem_range, Allocated]

/-- **What is dumped**: for every graph that the operations can produce, the assertion that nobody
calls the root holds at every callee, and the dump has one line for each node, whatever the order
of the traversal. -/
theorem Reachable.print_lines (h : Reachable ast G) (RPOT : G.ReversePostOrder) :
    ∃ OS, G.print ast RPOT = .ok OS ∧
      OS.toList = Lines.unlines '\n' (" --- Call graph Dump --- ".toList ::
        RPOT.nodes.map (G.dumpLine ast)) ∧
      RPOT.nodes.Perm (List.range G.next) := by
  obtain ⟨OS, hOS, htext⟩ := h.wf.print_eq_ok ast RPOT
  refine ⟨OS, hOS, htext, (List.perm_ext_iff_of_nodup RPOT.nodup List.nodup_range).mpr fun n => ?_⟩
  rw [RPOT.mem_iff, h.wf.reachable_iff, List.mem_range, Allocated]

/-- One function that calls itself. -/
def selfCaller : ASTContext := .ofTable [.definition "f" [0]]

/-- Not vacuous: the dump of a function that calls itself. -/
theorem print_lines_selfCaller :
    let G := visitDecl selfCaller 0 new
    ∃ OS, G.print selfCaller (wf_new.visitDecl 0).inOrder = .ok OS ∧
      OS.toList = Lines.unlines '\n' [" --- Call graph Dump --- ".toList,
        "  Function: < root > calls: f0x0 ".toList, "  Function: f0x0 calls: f0x0 ".toList] := by
  intro G
  have h : Reachable selfCaller G := .visitDecl 0 .new
  obtain ⟨OS, hOS, htext, -⟩ := h.print_lines h.wf.inOrder
  refine ⟨OS, hOS, htext.trans ?_⟩
  have hlines : (List.range G.next).map (G.dumpLine selfCaller) =
      ["  Function: < root > calls: f0x0 ".toList, "  Function: f0x0 calls: f0x0 ".toList] := by
    decide +kernel
  rw [← hlines]
  rfl

/-! ## Reading back -/

/-- All declarations have names, each of one line. -/
structure OneLineNames (ast : ASTContext) (G : CallGraph) : Prop where
  named : ∀ D, G.HasNode D → (ast.info D).kind.isNamedDecl = true
  noNewline : ∀ D, G.HasNode D → '\n' ∉ (ast.name D).toList

/-- All declarations have names, without spaces. -/
structure Dumpable (ast : ASTContext) (G : CallGraph) : Prop extends OneLineNames ast G where
  noSpace : ∀ D, G.HasNode D → ' ' ∉ (ast.name D).toList

/-- The declaration of a node that is a function. -/
theorem OneLineNames.exists_decl (hd : OneLineNames ast G) (h : WF G) {n : NodeRef}
    (hn : G.IsFunctionNode n) : ∃ D, G.HasNode D ∧ G.decl n = some D ∧
      ast.asNamedDecl (G.node n).fd = some D := by
  obtain ⟨D, hdecl, hentry⟩ := h.exists_entry hn
  have hnode : G.HasNode D := ⟨n, hentry⟩
  exact ⟨D, hnode, hdecl, ASTContext.asNamedDecl_eq_some.mpr ⟨hdecl, hd.named D hnode⟩⟩

theorem OneLineNames.noNewline_print (hd : OneLineNames ast G) (h : WF G) {n : NodeRef}
    (hn : G.IsFunctionNode n) : '\n' ∉ ((G.node n).print ast).toList := by
  obtain ⟨D, hD, -, hnamed⟩ := hd.exists_decl h hn
  exact not_mem_print hnamed (hd.noNewline D hD) (by decide) (by decide)

theorem Dumpable.noSpace_print (hd : Dumpable ast G) (h : WF G) {n : NodeRef}
    (hn : G.IsFunctionNode n) : ' ' ∉ ((G.node n).print ast).toList := by
  obtain ⟨D, hD, -, hnamed⟩ := hd.exists_decl h hn
  exact not_mem_print hnamed (hd.noSpace D hD) (by decide) (by decide)

/-- A line is of one piece. -/
theorem Dumpable.noNewline_dumpLine (hd : Dumpable ast G) (h : WF G) {n : NodeRef}
    (hn : G.Allocated n) : '\n' ∉ G.dumpLine ast n := by
  have hfunction : '\n' ∉ G.functionText ast n := by
    rw [functionText]
    split
    · simp
    · rename_i hr
      exact hd.noNewline_print h ⟨hn, hr⟩
  have hcalls : '\n' ∉ G.callsText ast n := by
    intro hmem
    rw [callsText, Lines.unlines, List.flatMap_map, List.mem_flatMap] at hmem
    obtain ⟨CI, hCI, hmem⟩ := hmem
    rcases List.mem_append.mp hmem with hmem | hmem
    · exact hd.noNewline_print h (h.isFunctionNode_of_mem hCI) hmem
    · exact absurd hmem (by decide)
  simp [dumpLine, hfunction, hcalls]

variable {ast' : ASTContext} {G' : CallGraph}

/-- Nodes that are written alike have the same declaration. -/
theorem Dumpable.decl_eq_of_print (hd : Dumpable ast G) (h : WF G) (h' : WF G')
    (hd' : Dumpable ast' G') {n n' : NodeRef} (hn : G.IsFunctionNode n)
    (hn' : G'.IsFunctionNode n') (heq : (G.node n).print ast = (G'.node n').print ast') :
    ∃ D, G.decl n = some D ∧ G'.decl n' = some D ∧ ast.name D = ast'.name D := by
  obtain ⟨D, -, hdecl, hnamed⟩ := hd.exists_decl h hn
  obtain ⟨D', -, hdecl', hnamed'⟩ := hd'.exists_decl h' hn'
  obtain ⟨hname, rfl⟩ := print_inj hnamed hnamed' heq
  exact ⟨D, hdecl, hdecl', hname⟩

/-- The node and its calls can be read off the line. -/
theorem Dumpable.dumpLine_inj (hd : Dumpable ast G) (h : WF G) (h' : WF G')
    (hd' : Dumpable ast' G') {n n' : NodeRef} (hn : G.Allocated n) (hn' : G'.Allocated n')
    (heq : G.dumpLine ast n = G'.dumpLine ast' n') :
    (n = G.root ∧ n' = G'.root ∨
      ∃ D, G.decl n = some D ∧ G'.decl n' = some D ∧ ast.name D = ast'.name D) ∧
    (G.callees n).map G.decl = (G'.callees n').map G'.decl := by
  -- the root is written with spaces, and other nodes without
  have hroot : ∀ {ast : ASTContext} {G : CallGraph} {m : NodeRef} {rest rest' : List Char},
      WF G → Dumpable ast G → G.IsFunctionNode m → "< root >".toList ++ ' ' :: rest ≠
        ((G.node m).print ast).toList ++ ' ' :: rest' := by
    intro ast G m rest rest' h hd hm heq
    obtain ⟨D, -, -, hnamed⟩ := hd.exists_decl h hm
    have hfirst := (Lines.cut_inj (x := ['<']) (by decide) (hd.noSpace_print h hm) heq).1
    have hx : 'x' ∈ ((G.node m).print ast).toList := by
      rw [toList_print hnamed]
      simp
    rw [← hfirst] at hx
    exact absurd hx (by decide)
  have hcalls : G.callsText ast n = G'.callsText ast' n' →
      (G.callees n).map G.decl = (G'.callees n').map G'.decl := by
    intro heq
    have hspace : ∀ {ast : ASTContext} {G : CallGraph} {m : NodeRef}, WF G → Dumpable ast G →
        ∀ l ∈ (G.callees m).map (fun CI => ((G.node CI).print ast).toList), ' ' ∉ l := by
      intro ast G m h hd l hl
      obtain ⟨CI, hCI, rfl⟩ := List.mem_map.mp hl
      exact hd.noSpace_print h (h.isFunctionNode_of_mem hCI)
    have hlines := (Lines.unlines_inj List.not_mem_nil List.not_mem_nil (hspace h hd)
      (hspace h' hd') (congrArg (· ++ []) heq)).1
    refine Lines.map_eq_of_map_eq (fun CI hCI CI' hCI' hprint => ?_) hlines
    obtain ⟨D, hD, hD', -⟩ := hd.decl_eq_of_print h h' hd' (h.isFunctionNode_of_mem hCI)
      (h'.isFunctionNode_of_mem hCI') (String.toList_inj.mp hprint)
    rw [hD, hD']
  rw [dumpLine, dumpLine, List.cons.injEq, List.append_cancel_left_eq, functionText,
    functionText] at heq
  replace heq := heq.2
  by_cases hr : n = G.root
  · by_cases hr' : n' = G'.root
    · rw [if_pos hr, if_pos hr', List.append_cancel_left_eq, List.cons.injEq,
        List.append_cancel_left_eq] at heq
      exact ⟨Or.inl ⟨hr, hr'⟩, hcalls heq.2⟩
    · rw [if_pos hr, if_neg hr'] at heq
      exact absurd heq (hroot h' hd' ⟨hn', hr'⟩)
  · by_cases hr' : n' = G'.root
    · rw [if_neg hr, if_pos hr'] at heq
      exact absurd heq.symm (hroot h hd ⟨hn, hr⟩)
    · rw [if_neg hr, if_neg hr'] at heq
      obtain ⟨hfunction, hrest⟩ := Lines.cut_inj (hd.noSpace_print h ⟨hn, hr⟩)
        (hd'.noSpace_print h' ⟨hn', hr'⟩) heq
      exact ⟨Or.inr (hd.decl_eq_of_print h h' hd' ⟨hn, hr⟩ ⟨hn', hr'⟩
        (String.toList_inj.mp hfunction)), hcalls (List.append_cancel_left hrest)⟩

/-- Every line of a dump is one of any dump that is the same. -/
theorem Dumpable.exists_dumpLine (hd : Dumpable ast G) (h : WF G) (h' : WF G')
    (hd' : Dumpable ast' G') {RPOT : G.ReversePostOrder} {RPOT' : G'.ReversePostOrder}
    (heq : G.print ast RPOT = G'.print ast' RPOT') {n : NodeRef} (hn : G.Allocated n) :
    ∃ n', G'.Allocated n' ∧ G.dumpLine ast n = G'.dumpLine ast' n' := by
  obtain ⟨OS, hOS, htext⟩ := h.print_eq_ok ast RPOT
  obtain ⟨OS', hOS', htext'⟩ := h'.print_eq_ok ast' RPOT'
  obtain rfl := Except.ok.inj (hOS.symm.trans (heq.trans hOS'))
  have hone : ∀ {ast : ASTContext} {G : CallGraph} (RPOT : G.ReversePostOrder), WF G →
      Dumpable ast G → ∀ l ∈ " --- Call graph Dump --- ".toList ::
        RPOT.nodes.map (G.dumpLine ast), '\n' ∉ l := by
    intro ast G RPOT h hd l hl
    rcases List.mem_cons.mp hl with rfl | hl
    · simp
    · obtain ⟨m, hm, rfl⟩ := List.mem_map.mp hl
      exact hd.noNewline_dumpLine h ((h.reachable_iff m).mp ((RPOT.mem_iff m).mp hm))
  have hlines := (List.cons.inj (Lines.unlines_inj List.not_mem_nil List.not_mem_nil
    (hone RPOT h hd) (hone RPOT' h' hd') (congrArg (· ++ []) (htext.symm.trans htext'))).1).2
  have hmem : G.dumpLine ast n ∈ RPOT.nodes.map (G.dumpLine ast) :=
    List.mem_map_of_mem ((RPOT.mem_iff n).mpr ((h.reachable_iff n).mpr hn))
  rw [hlines] at hmem
  obtain ⟨n', hn', hline⟩ := List.mem_map.mp hmem
  exact ⟨n', (h'.reachable_iff n').mp ((RPOT'.mem_iff n').mp hn'), hline.symm⟩

/-- What is dumped of a declaration in one graph has been dumped of it in the other. -/
theorem Dumpable.entry_of_print (hd : Dumpable ast G) (h : WF G) (h' : WF G')
    (hd' : Dumpable ast' G') {RPOT : G.ReversePostOrder} {RPOT' : G'.ReversePostOrder}
    (heq : G.print ast RPOT = G'.print ast' RPOT') {D : Decl} (hD : G.HasNode D) :
    G'.HasNode D ∧ ast.name D = ast'.name D ∧ G.view.calleesOf D = G'.view.calleesOf D := by
  obtain ⟨n, hn⟩ := hD
  have hfun := h.isFunctionNode_of_entry hn
  obtain ⟨n', hn', hline⟩ := hd.exists_dumpLine h h' hd' heq hfun.allocated
  obtain ⟨hfunction, hcalls⟩ := hd.dumpLine_inj h h' hd' hfun.allocated hn' hline
  rcases hfunction with ⟨hr, -⟩ | ⟨D', hD', hdecl', hname⟩
  · exact absurd hr hfun.ne_root
  · obtain rfl := Option.some.inj ((h.entry_decl _ _ hn).2.symm.trans hD')
    have hentry' : (some D, n') ∈ G'.functionMap := hdecl' ▸ h'.entry_of_allocated n' hn'
    exact ⟨⟨n', hentry'⟩, hname,
      (h.calleesOf_view hn).trans (hcalls.trans (h'.calleesOf_view hentry').symm)⟩

/-- **The dump can be read back**: two graphs with the same dump have nodes for the same
declarations, each of which has the same name in both and calls the same declarations in the same
order. -/
theorem WF.dump_inj (h : WF G) (h' : WF G')
    (hd : Dumpable ast G) (hd' : Dumpable ast' G') {RPOT : G.ReversePostOrder}
    {RPOT' : G'.ReversePostOrder} (heq : G.print ast RPOT = G'.print ast' RPOT') (D : Decl) :
    (G.HasNode D ↔ G'.HasNode D) ∧ (G.HasNode D → ast.name D = ast'.name D) ∧
      G.view.calleesOf D = G'.view.calleesOf D := by
  have hthere := fun hD => hd.entry_of_print h h' hd' heq (D := D) hD
  have hback := fun hD => hd'.entry_of_print h' h hd heq.symm (D := D) hD
  refine ⟨⟨fun hD => (hthere hD).1, fun hD => (hback hD).1⟩, fun hD => (hthere hD).2.1, ?_⟩
  by_cases hD : G.HasNode D
  · exact (hthere hD).2.2
  · have hD' : ¬ G'.HasNode D := fun hD' => hD (hback hD').1
    simp only [View.calleesOf]
    rw [view_of_not_hasNode hD, view_of_not_hasNode hD']

theorem dumpable_ofTable {table : List DeclInfo} (G : CallGraph)
    (htable : ∀ info ∈ table, info.kind.isNamedDecl = true ∧
      ' ' ∉ info.getNameAsString.toList ∧ '\n' ∉ info.getNameAsString.toList) :
    Dumpable (.ofTable table) G := by
  have hinfo : ∀ D, ((ASTContext.ofTable table).info D).kind.isNamedDecl = true ∧
      ' ' ∉ ((ASTContext.ofTable table).name D).toList ∧
      '\n' ∉ ((ASTContext.ofTable table).name D).toList := by
    intro D
    simp only [ASTContext.name]
    rcases ASTContext.info_ofTable table D with hD | hD
    · exact htable _ hD
    · rw [hD]
      simp [DeclKind.isNamedDecl]
  exact ⟨⟨fun D _ => (hinfo D).1, fun D _ => (hinfo D).2.2⟩, fun D _ => (hinfo D).2.1⟩

/-- One function that calls itself in an inner block. -/
def selfCallerInBlock : ASTContext :=
  .ofTable [{ DeclInfo.definition "f" [] with getBody := some (.stmt [some (.calls [0])]) }]

/-- Not vacuous: the dump does not show in which statement the call stands, but it shows the
call. -/
theorem dump_inj_selfCaller :
    (visitDecl selfCallerInBlock 0 new).view.calleesOf 0 =
      (visitDecl selfCaller 0 new).view.calleesOf 0 := by
  have hprint : (visitDecl selfCallerInBlock 0 new).print selfCallerInBlock
      (wf_new.visitDecl 0).inOrder =
        (visitDecl selfCaller 0 new).print selfCaller (wf_new.visitDecl 0).inOrder := by
    decide +kernel
  exact ((wf_new.visitDecl 0).dump_inj (wf_new.visitDecl 0)
    (dumpable_ofTable _ (by decide +kernel)) (dumpable_ofTable _ (by decide +kernel)) hprint 0).2.2

end CallGraph

end FindBoundary
