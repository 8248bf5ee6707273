import FindBoundary.Ast
import FindBoundary.PairSweep

/-!
# The call graph and its merge

`CallGraph.h` and the graph half of `CallGraph.cpp`. Nodes live in a grow-only store and a
`NodeRef` is the position of a node in it, so a reference stays valid and a fresh node is the next
position. An edge is kept at both ends: in `calledFunctions` of the caller and in
`parentFunctions` of the callee; `addCallee` is the only operation that writes either list.

`functionMap` is a `DenseMap` keyed by pointers. Its enumeration order is not determined by the
program, so whatever walks over it takes an `Enumeration` of it.
-/

namespace FindBoundary

open Sweep

/-- A pointer to a call graph node. -/
abbrev NodeRef : Type := ℕ

/-- A node: its declaration, the functions called from it, and the functions that call it. The
virtual root has no declaration. -/
structure CallGraphNode : Type where
  /-- the function or method declaration -/
  fd : Option Decl := none
  /-- the list of functions called from this node -/
  calledFunctions : List NodeRef := []
  /-- the nodes this node is called from -/
  parentFunctions : List NodeRef := []

/-- The call graph. -/
structure CallGraph : Type where
  /-- the nodes, by reference -/
  node : NodeRef → CallGraphNode
  /-- the next reference to allocate -/
  next : NodeRef
  /-- the node of each declaration met so far; the key of the root is the null pointer -/
  functionMap : List (Option Decl × NodeRef)
  /-- the virtual root, with edges to all the functions -/
  root : NodeRef

/-- An enumeration of the function map: its entries, in the order some run walks over them. -/
structure CallGraph.Enumeration (G : CallGraph) : Type where
  entries : List (Option Decl × NodeRef)
  perm : entries.Perm G.functionMap

/-- The map in its order of insertion. -/
def CallGraph.Enumeration.self (G : CallGraph) : G.Enumeration := ⟨G.functionMap, .refl _⟩

namespace CallGraph

variable (G : CallGraph)

/-- The functions called from the node `p`. -/
def callees (p : NodeRef) : List NodeRef := (G.node p).calledFunctions

/-- `getParent`: the nodes that call the node `p`. -/
def parents (p : NodeRef) : List NodeRef := (G.node p).parentFunctions

/-- `getDecl` -/
def decl (p : NodeRef) : Option Decl := (G.node p).fd

/-- `CallGraphNode::empty` -/
def empty (p : NodeRef) : Bool := (G.callees p).isEmpty

/-- The references in use. -/
def Allocated (p : NodeRef) : Prop := p < G.next

/-- `CalledFunctions.push_back(N)` at the node `this`. -/
def pushCallee (this N : NodeRef) : CallGraph :=
  { G with
    node := Function.update G.node this
      { G.node this with calledFunctions := G.callees this ++ [N] } }

/-- `N->parentFunctions.push_back(this)` -/
def pushParent (this N : NodeRef) : CallGraph :=
  { G with
    node := Function.update G.node N
      { G.node N with parentFunctions := G.parents N ++ [this] } }

/-- `this->addCallee(N)`: record the call at `this`, and `this` as a parent of `N` unless it is
one already. -/
def addCallee (this N : NodeRef) : CallGraph :=
  if this ∈ (G.pushCallee this N).parents N then G.pushCallee this N
  else (G.pushCallee this N).pushParent this N

/-- `getNode` -/
def getNode (F : Option Decl) : Option NodeRef := G.functionMap.lookup F

/-- A fresh node for `F`, entered into the function map. -/
def allocate (F : Option Decl) : CallGraph :=
  { G with
    node := Function.update G.node G.next { fd := F }
    next := G.next + 1
    functionMap := G.functionMap ++ [(F, G.next)] }

/-- `getOrInsertNode`: look the node of `F` up; if there is none, allocate it, and make the root
node a parent of it unless it is the root itself. -/
def getOrInsertNode (F : Option Decl) : NodeRef × CallGraph :=
  match G.getNode F with
  | some n => (n, G)
  | none =>
    (G.next, if F = none then G.allocate F else (G.allocate F).addCallee G.root G.next)

/-- The constructor `CallGraph()`: the root is the node of the null pointer. -/
def new : CallGraph :=
  let r := getOrInsertNode { node := fun _ => {}, next := 0, functionMap := [], root := 0 } none
  { r.2 with root := r.1 }

/-! ## Merging two nodes -/

/-- The first part of `mergeCallGraphNode`: a node without callees is taken to be a declaration
and receives the callees of the other. -/
def copyCallees (n1 n2 : NodeRef) : CallGraph :=
  if G.empty n1 then (G.callees n2).foldl (fun G it => G.addCallee n1 it) G
  else if G.empty n2 then (G.callees n1).foldl (fun G it => G.addCallee n2 it) G
  else G

/-- One turn of the loops of the second part: `it` is made to call `target` unless it does. -/
def adopt (target it : NodeRef) : CallGraph :=
  if target ∈ G.callees it then G else G.addCallee it target

/-- One of the loops of the second part: every parent of `source` is made to call `target`. -/
def adoptParents (source target : NodeRef) : CallGraph :=
  (G.parents source).foldl (fun G it => G.adopt target it) G

/-- `mergeCallGraphNode` -/
def mergeCallGraphNode (n1 n2 : NodeRef) : CallGraph :=
  let G := G.copyCallees n1 n2
  if (G.parents n1).isEmpty && !(G.parents n2).isEmpty then
    G.adoptParents n2 n1
  else if (G.parents n2).isEmpty && !(G.parents n1).isEmpty then
    G.adoptParents n1 n2
  else if !(G.parents n1).isEmpty && !(G.parents n2).isEmpty then
    (G.adoptParents n2 n1).adoptParents n1 n2
  else G

/-! ## The merge sweep -/

variable (ast : ASTContext)

/-- The body of the inner loop of `MergeFunctionMap`, for the entries `it` and `it2`. Two methods
are merged twice when their classes have one name, and not at all otherwise. -/
def mergeEntries (it it2 : Option Decl × NodeRef) : CallGraph :=
  match ast.asNamedDecl it.1, ast.asNamedDecl it2.1 with
  | some D, some D2 =>
    if ast.name D = ast.name D2 then
      match ast.asCXXMethodDecl it.1, ast.asCXXMethodDecl it2.1 with
      | some M, some M2 =>
        if (ast.info M).parentName = (ast.info M2).parentName then
          (G.mergeCallGraphNode it.2 it2.2).mergeCallGraphNode it.2 it2.2
        else G
      | _, _ => G.mergeCallGraphNode it.2 it2.2
    else G
  | _, _ => G

/-- `MergeFunctionMap`, walking over the map in the order of the enumeration. -/
def mergeFunctionMap (order : G.Enumeration) : CallGraph :=
  pairSweep (fun it it2 G => G.mergeEntries ast it it2) order.entries G

/-! ## What each operation does to the lists

`addCallee` appends to one callee list and to at most one parent list; the loops of the merge are
folds of it. -/

variable {G}

@[simp] theorem callees_pushCallee (p n q : NodeRef) :
    (G.pushCallee p n).callees q = if q = p then G.callees p ++ [n] else G.callees q := by
  by_cases h : q = p
  · subst h
    simp [pushCallee, callees]
  · simp [pushCallee, callees, h]

@[simp] theorem parents_pushCallee (p n q : NodeRef) :
    (G.pushCallee p n).parents q = G.parents q := by
  by_cases h : q = p
  · subst h
    simp [pushCallee, parents]
  · simp [pushCallee, parents, h]

@[simp] theorem decl_pushCallee (p n q : NodeRef) : (G.pushCallee p n).decl q = G.decl q := by
  by_cases h : q = p
  · subst h
    simp [pushCallee, decl]
  · simp [pushCallee, decl, h]

@[simp] theorem callees_pushParent (p n q : NodeRef) :
    (G.pushParent p n).callees q = G.callees q := by
  by_cases h : q = n
  · subst h
    simp [pushParent, callees]
  · simp [pushParent, callees, h]

@[simp] theorem parents_pushParent (p n q : NodeRef) :
    (G.pushParent p n).parents q = if q = n then G.parents n ++ [p] else G.parents q := by
  by_cases h : q = n
  · subst h
    simp [pushParent, parents]
  · simp [pushParent, parents, h]

@[simp] theorem decl_pushParent (p n q : NodeRef) : (G.pushParent p n).decl q = G.decl q := by
  by_cases h : q = n
  · subst h
    simp [pushParent, decl]
  · simp [pushParent, decl, h]

theorem callees_addCallee (p n q : NodeRef) :
    (G.addCallee p n).callees q = if q = p then G.callees p ++ [n] else G.callees q := by
  simp only [addCallee]
  split
  · rw [callees_pushCallee]
  · rw [callees_pushParent, callees_pushCallee]

theorem parents_addCallee (p n q : NodeRef) :
    (G.addCallee p n).parents q =
      if q = n ∧ p ∉ G.parents n then G.parents n ++ [p] else G.parents q := by
  simp only [addCallee]
  rw [parents_pushCallee]
  by_cases hp : p ∈ G.parents n
  · rw [if_pos hp, if_neg fun h => h.2 hp, parents_pushCallee]
  · rw [if_neg hp, parents_pushParent]
    by_cases hq : q = n
    · rw [if_pos hq, if_pos ⟨hq, hp⟩, parents_pushCallee]
    · rw [if_neg hq, if_neg fun h => hq h.1, parents_pushCallee]

@[simp] theorem decl_addCallee (p n q : NodeRef) : (G.addCallee p n).decl q = G.decl q := by
  simp only [addCallee]
  split <;> simp

@[simp] theorem next_addCallee (p n : NodeRef) : (G.addCallee p n).next = G.next := by
  simp only [addCallee]
  split <;> rfl

@[simp] theorem functionMap_addCallee (p n : NodeRef) :
    (G.addCallee p n).functionMap = G.functionMap := by
  simp only [addCallee]
  split <;> rfl

@[simp] theorem root_addCallee (p n : NodeRef) : (G.addCallee p n).root = G.root := by
  simp only [addCallee]
  split <;> rfl

/-- `addCallee` adds exactly one edge. -/
theorem mem_callees_addCallee {p n q x : NodeRef} :
    x ∈ (G.addCallee p n).callees q ↔ x ∈ G.callees q ∨ (q = p ∧ x = n) := by
  rw [callees_addCallee]
  split
  · rename_i hq
    subst hq
    simp
  · rename_i hq
    simp [hq]

theorem mem_parents_addCallee {p n q x : NodeRef} :
    x ∈ (G.addCallee p n).parents q ↔ x ∈ G.parents q ∨ (q = n ∧ x = p) := by
  rw [parents_addCallee]
  split
  · rename_i hq
    rw [hq.1]
    simp
  · rename_i hq
    refine ⟨?_, ?_⟩
    · exact Or.inl
    · rintro (h | ⟨rfl, rfl⟩)
      · exact h
      · exact not_not.mp fun hx => hq ⟨rfl, hx⟩

@[simp] theorem callees_allocate (F : Option Decl) (q : NodeRef) :
    (G.allocate F).callees q = if q = G.next then [] else G.callees q := by
  by_cases h : q = G.next
  · subst h
    simp [allocate, callees]
  · simp [allocate, callees, h]

@[simp] theorem parents_allocate (F : Option Decl) (q : NodeRef) :
    (G.allocate F).parents q = if q = G.next then [] else G.parents q := by
  by_cases h : q = G.next
  · subst h
    simp [allocate, parents]
  · simp [allocate, parents, h]

@[simp] theorem decl_allocate (F : Option Decl) (q : NodeRef) :
    (G.allocate F).decl q = if q = G.next then F else G.decl q := by
  by_cases h : q = G.next
  · subst h
    simp [allocate, decl]
  · simp [allocate, decl, h]

/-- Everything but the edges is the same: the nodes, their declarations, the map and the root. -/
structure SameNodes (G G' : CallGraph) : Prop where
  decl : ∀ p, G'.decl p = G.decl p
  next : G'.next = G.next
  functionMap : G'.functionMap = G.functionMap
  root : G'.root = G.root

theorem SameNodes.refl (G : CallGraph) : SameNodes G G := ⟨fun _ => rfl, rfl, rfl, rfl⟩

theorem SameNodes.trans {G₁ G₂ G₃ : CallGraph} (h₁ : SameNodes G₁ G₂) (h₂ : SameNodes G₂ G₃) :
    SameNodes G₁ G₃ :=
  ⟨fun p => (h₂.decl p).trans (h₁.decl p), h₂.next.trans h₁.next,
    h₂.functionMap.trans h₁.functionMap, h₂.root.trans h₁.root⟩

theorem sameNodes_addCallee (G : CallGraph) (p n : NodeRef) : SameNodes G (G.addCallee p n) :=
  ⟨decl_addCallee p n, next_addCallee p n, functionMap_addCallee p n, root_addCallee p n⟩

/-- The copying loop appends the whole list at one node. -/
theorem callees_foldl_addCallee (n : NodeRef) (l : List NodeRef) (G : CallGraph) (q : NodeRef) :
    (l.foldl (fun G it => G.addCallee n it) G).callees q =
      if q = n then G.callees n ++ l else G.callees q := by
  induction l generalizing G with
  | nil =>
    rw [List.foldl_nil, List.append_nil]
    split
    · rename_i hq
      rw [hq]
    · rfl
  | cons it l ih =>
    rw [List.foldl_cons, ih, callees_addCallee, if_pos rfl, callees_addCallee]
    by_cases hq : q = n
    · rw [if_pos hq, if_pos hq, List.append_assoc, List.singleton_append]
    · rw [if_neg hq, if_neg hq, if_neg hq]

/-- A node with callees keeps its list in the copying part; a node without takes the other's. -/
theorem callees_copyCallees (n1 n2 q : NodeRef) :
    (G.copyCallees n1 n2).callees q =
      if G.callees n1 = [] ∧ q = n1 then G.callees n2
      else if G.callees n2 = [] ∧ q = n2 then G.callees n1
      else G.callees q := by
  unfold copyCallees empty
  by_cases h1 : G.callees n1 = []
  · rw [if_pos (by rw [h1]; rfl), callees_foldl_addCallee, h1]
    by_cases hq : q = n1
    · simp [hq]
    · by_cases h2 : G.callees n2 = [] ∧ q = n2
      · simp [h2]
      · simp [hq, h2]
  · rw [if_neg (by simpa using h1)]
    by_cases h2 : G.callees n2 = []
    · rw [if_pos (by rw [h2]; rfl), callees_foldl_addCallee, h2]
      simp [h1]
    · rw [if_neg (by simpa using h2)]
      simp [h1, h2]

theorem sameNodes_copyCallees (G : CallGraph) (n1 n2 : NodeRef) :
    SameNodes G (G.copyCallees n1 n2) := by
  have hloop : ∀ (n : NodeRef) (l : List NodeRef),
      SameNodes G (l.foldl (fun G it => G.addCallee n it) G) := fun n l =>
    List.foldlRecOn l _ (SameNodes.refl G) fun H h it _ => h.trans (sameNodes_addCallee H n it)
  simp only [copyCallees]
  split
  · exact hloop n1 _
  · split
    · exact hloop n2 _
    · exact SameNodes.refl G

theorem mem_callees_adopt {target it p x : NodeRef} :
    x ∈ (G.adopt target it).callees p ↔ x ∈ G.callees p ∨ (x = target ∧ p = it) := by
  simp only [adopt]
  split
  · rename_i h
    refine ⟨?_, ?_⟩
    · exact Or.inl
    · rintro (hx | ⟨rfl, rfl⟩)
      · exact hx
      · exact h
  · rw [mem_callees_addCallee]
    exact or_congr Iff.rfl And.comm

theorem sameNodes_adopt (G : CallGraph) (target it : NodeRef) :
    SameNodes G (G.adopt target it) := by
  simp only [adopt]
  split
  · exact SameNodes.refl G
  · exact sameNodes_addCallee G it target

/-- The adopting loop makes the parents of `source`, and no other node, call `target`. -/
theorem mem_callees_adoptParents {source target p x : NodeRef} :
    x ∈ (G.adoptParents source target).callees p ↔
      x ∈ G.callees p ∨ (x = target ∧ p ∈ G.parents source) := by
  simp only [adoptParents]
  generalize G.parents source = l
  induction l generalizing G with
  | nil => simp
  | cons it l ih =>
    rw [List.foldl_cons, ih, mem_callees_adopt, List.mem_cons]
    refine ⟨?_, ?_⟩
    · rintro ((h | ⟨hx, hp⟩) | ⟨hx, hp⟩)
      · exact Or.inl h
      · exact Or.inr ⟨hx, Or.inl hp⟩
      · exact Or.inr ⟨hx, Or.inr hp⟩
    · rintro (h | ⟨hx, hp | hp⟩)
      · exact Or.inl (Or.inl h)
      · exact Or.inl (Or.inr ⟨hx, hp⟩)
      · exact Or.inr ⟨hx, hp⟩

theorem sameNodes_adoptParents (G : CallGraph) (source target : NodeRef) :
    SameNodes G (G.adoptParents source target) := by
  exact List.foldlRecOn _ _ (SameNodes.refl G) fun H h it _ => h.trans (sameNodes_adopt H target it)

end CallGraph

end FindBoundary
