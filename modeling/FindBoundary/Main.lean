import FindBoundary.CallGraph
import FindBoundary.Descent
import FindBoundary.Packages

/-!
# The passes over the merged graph

The recursions of `main.cpp`. `traverseFunction` assigns a package to every definition,
`findMargin` records the calls that cross from one package to another, `findCallee` collects the
called definitions, and `findRootCaller` reports the rest. The first three descend from the root
without marking the nodes they have been at, so each is given as a `Traversal`: the loop body is
the source's, where `continue` is `Turn.next` and the end of the body, with its recursive call, is
`Turn.into`.

Dereferencing a null pointer and indexing out of bounds are faults.
-/

namespace FindBoundary

open Descent

/-- What the passes can do that no program may. -/
inductive Fault : Type where
  | nullDereference
  | outOfBounds
  deriving DecidableEq

/-- A run that ends well ends with the value it has. -/
theorem eq_ok_getD {ε α : Type} {run : Except ε α} (default : α) (h : run.isOk = true) :
    run = .ok (run.toOption.getD default) := by
  cases run with
  | error e => cases h
  | ok a => rfl

/-- A loop that ends well does so after a first turn that ends well. -/
theorem foldlM_cons_eq_ok {α β ε : Type} {f : β → α → Except ε β} {a : α} {l : List α}
    {b b' : β} (h : (a :: l).foldlM f b = .ok b') :
    ∃ b₁, f b a = .ok b₁ ∧ l.foldlM f b₁ = .ok b' := by
  rw [List.foldlM_cons] at h
  cases ha : f b a with
  | error e =>
    rw [ha] at h
    cases h
  | ok b₁ =>
    rw [ha] at h
    exact ⟨b₁, rfl, h⟩

/-- What every turn keeps, a loop that ends well keeps. -/
theorem foldlM_invariant {α β ε : Type} {f : β → α → Except ε β} {P : β → Prop} {l : List α}
    (hstep : ∀ a ∈ l, ∀ b b', P b → f b a = .ok b' → P b') {b b' : β} (hb : P b)
    (h : l.foldlM f b = .ok b') : P b' := by
  induction l generalizing b with
  | nil =>
    cases h
    exact hb
  | cons a l ih =>
    obtain ⟨b₁, ha, hrest⟩ := foldlM_cons_eq_ok h
    exact ih (fun a ha => hstep a (List.mem_cons_of_mem _ ha))
      (hstep a (List.mem_cons_self ..) b b₁ hb ha) hrest

/-- A loop ends well if all its turns do. -/
theorem exists_foldlM {α β ε : Type} {f : β → α → Except ε β} {l : List α}
    (h : ∀ a ∈ l, ∀ b, ∃ b', f b a = .ok b') (b : β) : ∃ b', l.foldlM f b = .ok b' := by
  induction l generalizing b with
  | nil => exact ⟨b, rfl⟩
  | cons a l ih =>
    obtain ⟨b₁, ha⟩ := h a (List.mem_cons_self ..) b
    obtain ⟨b', hrest⟩ := ih (fun a ha => h a (List.mem_cons_of_mem _ ha)) b₁
    refine ⟨b', ?_⟩
    rw [List.foldlM_cons, ha]
    exact hrest

namespace CallGraph

variable (ast : ASTContext) (G : CallGraph)

/-! ## traverseFunction -/

/-- The loop body of `traverseFunction`. A callee that is no function declaration is dereferenced
all the same. -/
def traverseFunctionBody (root it : NodeRef) (_ : Unit) (funcPackageMap : FuncPackageMap) :
    Except Fault (Turn Unit FuncPackageMap) :=
  match ast.asFunctionDecl (G.decl it) with
  | none => .error .nullDereference
  | some tmp =>
    if (ast.asFunctionDecl (G.decl root)).any fun rootDecl => ast.name rootDecl = ast.name tmp then
      .ok (.next () funcPackageMap)
    else if (ast.info tmp).isThisDeclarationADefinition then
      .ok (.into () (funcPackageMap.insertIfNew tmp (packageOf (ast.info tmp).filename)))
    else .ok (.into () funcPackageMap)

/-- `traverseFunction` -/
def traverseFunction : Traversal NodeRef Unit FuncPackageMap Fault where
  children := G.callees
  enter := ()
  body := G.traverseFunctionBody ast

/-- The two nodes are functions of one name. -/
def SameName (p c : NodeRef) : Prop :=
  match ast.asFunctionDecl (G.decl p), ast.asFunctionDecl (G.decl c) with
  | some D, some D' => ast.name D = ast.name D'
  | _, _ => False

instance (p c : NodeRef) : Decidable (G.SameName ast p c) := by
  unfold SameName
  split <;> infer_instance

variable {ast G}

/-- A callee that is a function is skipped if it has the name of its caller. Otherwise it is
entered into the map if it is a definition, and descended into. -/
theorem traverseFunctionBody_cases (p : NodeRef) {c : NodeRef} {tmp : Decl} (l : Unit)
    (m : FuncPackageMap) (htmp : ast.asFunctionDecl (G.decl c) = some tmp) :
    (G.SameName ast p c ∧ G.traverseFunctionBody ast p c l m = .ok (.next () m)) ∨
    (¬ G.SameName ast p c ∧ G.traverseFunctionBody ast p c l m = .ok (.into ()
      (if (ast.info tmp).isThisDeclarationADefinition then
        m.insertIfNew tmp (packageOf (ast.info tmp).filename) else m))) := by
  simp only [SameName, traverseFunctionBody]
  cases hp : ast.asFunctionDecl (G.decl p) with
  | none =>
    right
    cases hdef : (ast.info tmp).isThisDeclarationADefinition <;> simp [htmp, hdef]
  | some rootDecl =>
    by_cases hname : ast.name rootDecl = ast.name tmp
    · exact Or.inl (by simp [htmp, hname])
    · right
      cases hdef : (ast.info tmp).isThisDeclarationADefinition <;> simp [htmp, hname, hdef]

/-- Any other callee is a fault. -/
theorem traverseFunctionBody_of_none (p : NodeRef) {c : NodeRef} (l : Unit) (m : FuncPackageMap)
    (hc : ast.asFunctionDecl (G.decl c) = none) :
    G.traverseFunctionBody ast p c l m = .error .nullDereference := by
  simp [traverseFunctionBody, hc]

theorem traverseFunction_uniform :
    (G.traverseFunction ast).Uniform fun p c => ¬ G.SameName ast p c := by
  constructor
  case next =>
    intro p c l m l' m' hbody
    cases hc : ast.asFunctionDecl (G.decl c) with
    | none => cases (traverseFunctionBody_of_none p l m hc).symm.trans hbody
    | some tmp =>
      rcases traverseFunctionBody_cases p l m hc with ⟨hname, -⟩ | ⟨-, hinto⟩
      · exact not_not.mpr hname
      · cases hinto.symm.trans hbody
  case into =>
    intro p c l m l' m' hbody
    cases hc : ast.asFunctionDecl (G.decl c) with
    | none => cases (traverseFunctionBody_of_none p l m hc).symm.trans hbody
    | some tmp =>
      rcases traverseFunctionBody_cases p l m hc with ⟨-, hnext⟩ | ⟨hname, -⟩
      · cases hnext.symm.trans hbody
      · exact hname

theorem traverseFunctionBody_sound (p c : NodeRef) (l : Unit) (m : FuncPackageMap) :
    (∃ turn, G.traverseFunctionBody ast p c l m = .ok turn) ↔
      (ast.asFunctionDecl (G.decl c)).isSome = true := by
  cases hc : ast.asFunctionDecl (G.decl c) with
  | none => simp [traverseFunctionBody_of_none p l m hc]
  | some tmp =>
    rcases traverseFunctionBody_cases p l m hc with ⟨-, h⟩ | ⟨-, h⟩
    · simp [h]
    · simp [h]

variable (ast G)

/-! ## findMargin -/

/-- The loop body of `findMargin`. `callerType` is the package of the caller once it has been
looked up, and the empty string before. -/
def findMarginBody (funcPackageMap : FuncPackageMap) (root it : NodeRef) (callerType : String)
    (callRelation : CallRelation) : Except Fault (Turn String CallRelation) :=
  match ast.asFunctionDecl (G.decl root), ast.asFunctionDecl (G.decl it) with
  | some caller, some callee =>
    if !(ast.info callee).isThisDeclarationADefinition then .ok (.next callerType callRelation)
    else if ast.name caller = ast.name callee then .ok (.next callerType callRelation)
    else
      match if callerType = "" then funcPackageMap[caller]? else some callerType,
        funcPackageMap[callee]? with
      | some callerType, some calleeType =>
        .ok (.into callerType (callRelation.record callerType calleeType caller callee))
      | _, _ => .ok (.into callerType callRelation)
  | _, _ => .ok (.into callerType callRelation)

/-- `findMargin` -/
def findMargin (funcPackageMap : FuncPackageMap) : Traversal NodeRef String CallRelation Fault where
  children := G.callees
  enter := ""
  body := G.findMarginBody ast funcPackageMap

/-- What `findMargin` and `findCallee` descend along: if both ends are functions, the callee is a
definition and has a name of its own. -/
def FollowsDefinition (p c : NodeRef) : Prop :=
  match ast.asFunctionDecl (G.decl p), ast.asFunctionDecl (G.decl c) with
  | some caller, some callee =>
    (ast.info callee).isThisDeclarationADefinition = true ∧ ast.name caller ≠ ast.name callee
  | _, _ => True

instance (p c : NodeRef) : Decidable (G.FollowsDefinition ast p c) := by
  unfold FollowsDefinition
  split <;> infer_instance

/-- The edge from `p` to `c` crosses from the package `i` to the package `j`. -/
structure Crosses (funcPackageMap : FuncPackageMap) (p c : NodeRef) (i j : Fin packageNum)
    (caller callee : Decl) : Prop where
  caller_eq : ast.asFunctionDecl (G.decl p) = some caller
  callee_eq : ast.asFunctionDecl (G.decl c) = some callee
  definition : (ast.info callee).isThisDeclarationADefinition = true
  name_ne : ast.name caller ≠ ast.name callee
  callerPackage : funcPackageMap[caller]? = some (keys i)
  calleePackage : funcPackageMap[callee]? = some (keys j)
  package_ne : i ≠ j

/-- What the loop at `p` knows: `callerType` is empty or the package of the caller. -/
def KnowsPackage (funcPackageMap : FuncPackageMap) (p : NodeRef) (callerType : String) : Prop :=
  callerType = "" ∨
    ∃ caller, ast.asFunctionDecl (G.decl p) = some caller ∧
      funcPackageMap[caller]? = some callerType

variable {ast G}

/-- Between functions, an edge is followed to definitions of another name. -/
theorem followsDefinition_iff {p c : NodeRef} {caller callee : Decl}
    (hp : ast.asFunctionDecl (G.decl p) = some caller)
    (hc : ast.asFunctionDecl (G.decl c) = some callee) :
    G.FollowsDefinition ast p c ↔
      (ast.info callee).isThisDeclarationADefinition = true ∧
        ast.name caller ≠ ast.name callee := by
  simp only [FollowsDefinition]
  rw [hp, hc]

/-- Only edges between functions are not followed. -/
theorem exists_of_not_followsDefinition {p c : NodeRef} (hf : ¬ G.FollowsDefinition ast p c) :
    ∃ caller callee, ast.asFunctionDecl (G.decl p) = some caller ∧
      ast.asFunctionDecl (G.decl c) = some callee := by
  simp only [FollowsDefinition] at hf
  cases hp : ast.asFunctionDecl (G.decl p) with
  | none => simp [hp] at hf
  | some caller =>
    cases hc : ast.asFunctionDecl (G.decl c) with
    | none => simp [hp, hc] at hf
    | some callee => exact ⟨caller, callee, rfl, rfl⟩

theorem findMarginBody_of_not_follows {fpm : FuncPackageMap} {p c : NodeRef} (l : String)
    (rel : CallRelation) (hf : ¬ G.FollowsDefinition ast p c) :
    G.findMarginBody ast fpm p c l rel = .ok (.next l rel) := by
  obtain ⟨caller, callee, hp, hc⟩ := exists_of_not_followsDefinition hf
  rw [followsDefinition_iff hp hc] at hf
  simp only [findMarginBody, hp, hc]
  cases hdef : (ast.info callee).isThisDeclarationADefinition with
  | false => simp
  | true =>
    have hname : ast.name caller = ast.name callee := not_not.mp fun hne => hf ⟨hdef, hne⟩
    simp [hname]

theorem exists_into_findMarginBody {p c : NodeRef} (fpm : FuncPackageMap) (l : String)
    (rel : CallRelation) (hf : G.FollowsDefinition ast p c) :
    ∃ l' rel', G.findMarginBody ast fpm p c l rel = .ok (.into l' rel') := by
  simp only [FollowsDefinition] at hf
  simp only [findMarginBody]
  cases hp : ast.asFunctionDecl (G.decl p) with
  | none => exact ⟨l, rel, rfl⟩
  | some caller =>
    cases hc : ast.asFunctionDecl (G.decl c) with
    | none => exact ⟨l, rel, rfl⟩
    | some callee =>
      simp only [hp, hc] at hf
      simp only [hf.1, Bool.not_true, Bool.false_eq_true, if_false, if_neg hf.2]
      split <;> exact ⟨_, _, rfl⟩

theorem findMargin_uniform (fpm : FuncPackageMap) :
    (G.findMargin ast fpm).Uniform (G.FollowsDefinition ast) := by
  constructor
  case next =>
    intro p c l rel l' rel' hbody hf
    obtain ⟨l₁, rel₁, hinto⟩ := exists_into_findMarginBody fpm l rel hf
    cases hinto.symm.trans hbody
  case into =>
    intro p c l rel l' rel' hbody
    by_contra hf
    cases (findMarginBody_of_not_follows l rel hf).symm.trans hbody

theorem findMarginBody_sound (fpm : FuncPackageMap) (p c : NodeRef) (l : String)
    (rel : CallRelation) : ∃ turn, G.findMarginBody ast fpm p c l rel = .ok turn := by
  by_cases hf : G.FollowsDefinition ast p c
  · obtain ⟨l', rel', h⟩ := exists_into_findMarginBody fpm l rel hf
    exact ⟨_, h⟩
  · exact ⟨_, findMarginBody_of_not_follows l rel hf⟩

/-- At an edge that is followed, the crossing is recorded, if there is one, and nothing else. -/
theorem findMarginBody_of_follows {fpm : FuncPackageMap} {p c : NodeRef} {l : String}
    (rel : CallRelation) (hf : G.FollowsDefinition ast p c) (hl : G.KnowsPackage ast fpm p l) :
    ∃ l' rel', G.findMarginBody ast fpm p c l rel = .ok (.into l' rel') ∧
      G.KnowsPackage ast fpm p l' ∧
      ((∃ i j caller callee, G.Crosses ast fpm p c i j caller callee ∧
          rel' = rel.insert i j caller callee) ∨
        ((∀ i j caller callee, ¬ G.Crosses ast fpm p c i j caller callee) ∧ rel' = rel)) := by
  simp only [FollowsDefinition] at hf
  simp only [findMarginBody]
  cases hp : ast.asFunctionDecl (G.decl p) with
  | none =>
    refine ⟨l, rel, rfl, hl, Or.inr ⟨fun i j caller callee hX => ?_, rfl⟩⟩
    cases hp.symm.trans hX.caller_eq
  | some caller =>
    cases hc : ast.asFunctionDecl (G.decl c) with
    | none =>
      refine ⟨l, rel, rfl, hl, Or.inr ⟨fun i j caller callee hX => ?_, rfl⟩⟩
      cases hc.symm.trans hX.callee_eq
    | some callee =>
      simp only [hp, hc] at hf
      obtain ⟨hdef, hname⟩ := hf
      -- the variable of the loop only saves the second lookup
      have hlookup : (if l = "" then fpm[caller]? else some l) = fpm[caller]? := by
        rcases hl with rfl | ⟨caller', hcaller', hpackage⟩
        · rw [if_pos rfl]
        · obtain rfl := Option.some.inj (hp.symm.trans hcaller')
          rw [hpackage]
          split <;> rfl
      have hcross : ∀ {i j caller' callee'}, G.Crosses ast fpm p c i j caller' callee' →
          fpm[caller]? = some (keys i) ∧ fpm[callee]? = some (keys j) ∧ i ≠ j := by
        intro i j caller' callee' hX
        obtain rfl := Option.some.inj (hp.symm.trans hX.caller_eq)
        obtain rfl := Option.some.inj (hc.symm.trans hX.callee_eq)
        exact ⟨hX.callerPackage, hX.calleePackage, hX.package_ne⟩
      simp only [hdef, Bool.not_true, Bool.false_eq_true, if_false, if_neg hname, hlookup]
      cases hcaller : fpm[caller]? with
      | none =>
        refine ⟨l, rel, rfl, hl, Or.inr ⟨fun i j _ _ hX => ?_, rfl⟩⟩
        cases hcaller.symm.trans (hcross hX).1
      | some callerType =>
        cases hcallee : fpm[callee]? with
        | none =>
          refine ⟨l, rel, rfl, hl, Or.inr ⟨fun i j _ _ hX => ?_, rfl⟩⟩
          cases hcallee.symm.trans (hcross hX).2.1
        | some calleeType =>
          refine ⟨callerType, _, rfl, Or.inr ⟨caller, hp, hcaller⟩, ?_⟩
          rcases CallRelation.record_cases rel callerType calleeType caller callee with
            ⟨i, j, rfl, rfl, hij, heq⟩ | ⟨hsame, heq⟩
          · exact Or.inl ⟨i, j, caller, callee, ⟨hp, hc, hdef, hname, hcaller, hcallee, hij⟩, heq⟩
          · refine Or.inr ⟨fun i j _ _ hX => ?_, heq⟩
            obtain ⟨hi, hj, hij⟩ := hcross hX
            exact hij (hsame i j (Option.some.inj (hi.symm.trans hcaller))
              (Option.some.inj (hj.symm.trans hcallee)))

variable (ast G)

/-! ## findCallee -/

/-- The loop body of `findCallee`: a called definition is collected unless one of its type and
name has been. -/
def findCalleeBody (funcPackageMap : FuncPackageMap) (root it : NodeRef) (_ : Unit)
    (callees : List Decl) : Except Fault (Turn Unit (List Decl)) :=
  match ast.asFunctionDecl (G.decl root), ast.asFunctionDecl (G.decl it) with
  | some caller, some callee =>
    if ast.name caller = ast.name callee then .ok (.next () callees)
    else if !(ast.info callee).isThisDeclarationADefinition then .ok (.next () callees)
    else if funcPackageMap.contains callee then
      if callees.any fun it3 => (ast.info it3).typeAsString = (ast.info callee).typeAsString ∧
          ast.name it3 = ast.name callee then
        .ok (.into () callees)
      else .ok (.into () (callees ++ [callee]))
    else .ok (.into () callees)
  | _, _ => .ok (.into () callees)

/-- `findCallee` -/
def findCallee (funcPackageMap : FuncPackageMap) :
    Traversal NodeRef Unit (List Decl) Fault where
  children := G.callees
  enter := ()
  body := G.findCalleeBody ast funcPackageMap

variable {ast G}

/-- A definition is collected already: some callee has its type and its name. -/
def Collected (ast : ASTContext) (callees : List Decl) (callee : Decl) : Prop :=
  ∃ it3 ∈ callees, (ast.info it3).typeAsString = (ast.info callee).typeAsString ∧
    ast.name it3 = ast.name callee

theorem findCalleeBody_of_not_follows {fpm : FuncPackageMap} {p c : NodeRef} (l : Unit)
    (callees : List Decl) (hf : ¬ G.FollowsDefinition ast p c) :
    G.findCalleeBody ast fpm p c l callees = .ok (.next () callees) := by
  obtain ⟨caller, callee, hp, hc⟩ := exists_of_not_followsDefinition hf
  rw [followsDefinition_iff hp hc] at hf
  simp only [findCalleeBody, hp, hc]
  by_cases hname : ast.name caller = ast.name callee
  · simp [hname]
  · have hdef : (ast.info callee).isThisDeclarationADefinition = false :=
      Bool.not_eq_true _ ▸ fun hdef => hf ⟨hdef, hname⟩
    simp [hname, hdef]

/-- At an edge that is followed the callee is collected if the map has it: the list is kept, or a
definition that was not collected is appended. -/
theorem findCalleeBody_of_follows {fpm : FuncPackageMap} {p c : NodeRef} (l : Unit)
    (callees : List Decl) (hf : G.FollowsDefinition ast p c) :
    ∃ callees', G.findCalleeBody ast fpm p c l callees = .ok (.into () callees') ∧
      (callees' = callees ∨
        ∃ caller callee, ast.asFunctionDecl (G.decl p) = some caller ∧
          ast.asFunctionDecl (G.decl c) = some callee ∧ callee ∈ fpm ∧
            ¬ Collected ast callees callee ∧ callees' = callees ++ [callee]) ∧
      ∀ caller callee, ast.asFunctionDecl (G.decl p) = some caller →
        ast.asFunctionDecl (G.decl c) = some callee → callee ∈ fpm →
          Collected ast callees' callee := by
  simp only [FollowsDefinition] at hf
  simp only [findCalleeBody]
  cases hp : ast.asFunctionDecl (G.decl p) with
  | none => exact ⟨callees, rfl, Or.inl rfl, fun caller callee h => by cases h⟩
  | some caller =>
    cases hc : ast.asFunctionDecl (G.decl c) with
    | none => exact ⟨callees, rfl, Or.inl rfl, fun caller callee _ h => by cases h⟩
    | some callee =>
      simp only [hp, hc] at hf
      simp only [if_neg hf.2, hf.1, Bool.not_true, Bool.false_eq_true, if_false]
      by_cases hmem : callee ∈ fpm
      · rw [if_pos (Std.TreeMap.mem_iff_contains.mp hmem)]
        split
        · rename_i hany
          refine ⟨callees, rfl, Or.inl rfl, ?_⟩
          rintro _ _ - ⟨⟩ -
          simpa [Collected] using hany
        · rename_i hnew
          have hnew : ¬ Collected ast callees callee := by simpa [Collected] using hnew
          refine ⟨callees ++ [callee], rfl,
            Or.inr ⟨caller, callee, rfl, rfl, hmem, hnew, rfl⟩, ?_⟩
          rintro _ _ - ⟨⟩ -
          exact ⟨callee, List.mem_append_right _ (List.mem_singleton_self _), rfl, rfl⟩
      · rw [if_neg fun h => hmem (Std.TreeMap.mem_iff_contains.mpr h)]
        refine ⟨callees, rfl, Or.inl rfl, ?_⟩
        rintro _ _ - ⟨⟩ h
        exact absurd h hmem

theorem findCallee_uniform (fpm : FuncPackageMap) :
    (G.findCallee ast fpm).Uniform (G.FollowsDefinition ast) := by
  constructor
  case next =>
    intro p c l callees l' callees' hbody hf
    obtain ⟨callees₁, hinto, -⟩ := findCalleeBody_of_follows l callees hf
    cases hinto.symm.trans hbody
  case into =>
    intro p c l callees l' callees' hbody
    by_contra hf
    cases (findCalleeBody_of_not_follows l callees hf).symm.trans hbody

theorem findCalleeBody_sound (fpm : FuncPackageMap) (p c : NodeRef) (l : Unit)
    (callees : List Decl) : ∃ turn, G.findCalleeBody ast fpm p c l callees = .ok turn := by
  by_cases hf : G.FollowsDefinition ast p c
  · obtain ⟨callees', h, -⟩ := findCalleeBody_of_follows l callees hf
    exact ⟨_, h⟩
  · exact ⟨_, findCalleeBody_of_not_follows l callees hf⟩

end CallGraph

/-! ## findRootCaller -/

variable (ast : ASTContext)

/-- The loop body of `findRootCaller`, for one entry of `funcPackageMap`: a function whose name no
collected callee has is reported in its package, unless one of its name has been. -/
def findRootCallerBody (callees : List Decl) (rootFunctions : RootFunctions)
    (entry : Decl × String) : Except Fault RootFunctions :=
  match ast.asFunctionDecl (some entry.1) with
  | none => .ok rootFunctions
  | some function =>
    if callees.any fun it2 => ast.name it2 = ast.name function then .ok rootFunctions
    else if entry.2 = "empty" then .ok rootFunctions
    else
      match getTypeIndex entry.2 with
      | none => .error .outOfBounds
      | some i =>
        if (rootFunctions i).any fun iter => ast.name iter = ast.name function then
          .ok rootFunctions
        else .ok (Function.update rootFunctions i (rootFunctions i ++ [function]))

/-- `findRootCaller` -/
def findRootCaller (funcPackageMap : FuncPackageMap) (callees : List Decl)
    (rootFunctions : RootFunctions) : Except Fault RootFunctions :=
  funcPackageMap.toList.foldlM (findRootCallerBody ast callees) rootFunctions

end FindBoundary
