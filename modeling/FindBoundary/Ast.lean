import Mathlib.Data.Nat.Notation

/-!
# Declarations and statements, as the call graph reads them

What the tool takes from clang. A `Decl` is an address: two declarations are the same when their
addresses are, and a body refers to declarations by address, so recursion between functions needs
no cyclic data. `ASTContext` says what stands at an address; everything the analysis asks a
declaration for is a field of `DeclInfo`, under the name of the method that is asked.

How clang computes these answers (lookup, overload resolution, redeclaration chains) is not part
of the tool and not modelled: an `ASTContext` may answer anything.
-/

namespace FindBoundary

/-- The address of a declaration. The null pointer is `none : Option Decl`. -/
abbrev Decl : Type := ℕ

/-- What `dyn_cast` can find out about a declaration, as far as the tool asks. -/
inductive DeclKind : Type where
  /-- a `FunctionDecl` that is not a member function -/
  | function
  /-- a `CXXMethodDecl`, which is a `FunctionDecl` too -/
  | cxxMethod
  /-- an `ObjCMethodDecl`: named, but not a `FunctionDecl` -/
  | objCMethod
  /-- a `BlockDecl`, which has no name -/
  | block
  /-- any other `NamedDecl` -/
  | named
  /-- any other declaration -/
  | unnamed
  deriving DecidableEq

namespace DeclKind

/-- Does `dyn_cast<FunctionDecl>` succeed? -/
def isFunctionDecl : DeclKind → Bool
  | function | cxxMethod => true
  | _ => false

/-- Does `dyn_cast<CXXMethodDecl>` succeed? -/
def isCXXMethodDecl : DeclKind → Bool
  | cxxMethod => true
  | _ => false

/-- Does `dyn_cast<NamedDecl>` succeed? -/
def isNamedDecl : DeclKind → Bool
  | function | cxxMethod | objCMethod | named => true
  | block | unnamed => false

end DeclKind

/-- Statement trees, split by what the call graph builder distinguishes. A null child is `none`. -/
inductive Stmt : Type where
  /-- a `CallExpr`: the answer of `getDirectCallee`, the callee expression, the arguments -/
  | callExpr (directCallee : Option Decl) (callee : Stmt) (args : List (Option Stmt))
  /-- an `ObjCMessageExpr`: receiver interface, selector, instance or class message, children -/
  | objCMessageExpr (receiverInterface : Option Decl) (sel : String) (isInstanceMessage : Bool)
      (children : List (Option Stmt))
  /-- a `BlockExpr`, which has no child statements -/
  | blockExpr (blockDecl : Decl)
  /-- an expression that `IgnoreParenImpCasts` looks through -/
  | parenImpCast (sub : Stmt)
  /-- every other statement, with its children -/
  | stmt (children : List (Option Stmt))

/-- Strip parentheses and implicit casts. -/
def Stmt.ignoreParenImpCasts : Stmt → Stmt
  | .parenImpCast sub => sub.ignoreParenImpCasts
  | S => S

/-- A declaration together with what `decls()` lists below it, if it is a `DeclContext`. -/
inductive DeclTree : Type where
  /-- a declaration that is not a `DeclContext` -/
  | decl (D : Decl)
  /-- a `DeclContext` -/
  | context (D : Decl) (decls : List DeclTree)

/-- What the tool asks a declaration. -/
structure DeclInfo : Type where
  kind : DeclKind := .function
  getNameAsString : String := ""
  /-- the name of the class of a member function: `getParent()->getNameAsString()` -/
  parentName : String := ""
  /-- `getBody()`; a declaration whose definition is elsewhere in its unit has this body too -/
  getBody : Option Stmt := none
  isThisDeclarationADefinition : Bool := false
  isDependentContext : Bool := false
  /-- the name in `getIdentifier()`, when there is an identifier -/
  getIdentifier : Option String := none
  isGlobal : Bool := true
  /-- `getType().getAsString()` -/
  typeAsString : String := ""
  /-- the file of the presumed location of the declaration's beginning -/
  filename : String := ""
  /-- `decls()`, for a declaration that is a `DeclContext` -/
  decls : List DeclTree := []

/-- The answers of clang: what stands at each address, and the private method lookup of each
Objective-C interface. -/
structure ASTContext : Type where
  info : Decl → DeclInfo
  lookupPrivateMethod : Decl → String → Option Decl := fun _ _ => none
  lookupPrivateClassMethod : Decl → String → Option Decl := fun _ _ => none

namespace ASTContext

variable (ast : ASTContext)

/-- `getNameAsString` of the declaration at `D`. -/
def name (D : Decl) : String := (ast.info D).getNameAsString

/-- `dyn_cast_or_null`: the declaration, if there is one and its kind passes the test. -/
def dynCastOrNull (test : DeclKind → Bool) (F : Option Decl) : Option Decl :=
  F.filter fun D => test (ast.info D).kind

/-- `dyn_cast_or_null<NamedDecl>` -/
def asNamedDecl : Option Decl → Option Decl := ast.dynCastOrNull DeclKind.isNamedDecl

/-- `dyn_cast_or_null<FunctionDecl>` -/
def asFunctionDecl : Option Decl → Option Decl := ast.dynCastOrNull DeclKind.isFunctionDecl

/-- `dyn_cast_or_null<CXXMethodDecl>` -/
def asCXXMethodDecl : Option Decl → Option Decl := ast.dynCastOrNull DeclKind.isCXXMethodDecl

variable {ast}

theorem dynCastOrNull_eq_some {test : DeclKind → Bool} {F : Option Decl} {D : Decl} :
    ast.dynCastOrNull test F = some D ↔ F = some D ∧ test (ast.info D).kind = true :=
  Option.filter_eq_some_iff

theorem asNamedDecl_eq_some {F : Option Decl} {D : Decl} :
    ast.asNamedDecl F = some D ↔ F = some D ∧ (ast.info D).kind.isNamedDecl = true :=
  dynCastOrNull_eq_some

theorem asFunctionDecl_eq_some {F : Option Decl} {D : Decl} :
    ast.asFunctionDecl F = some D ↔ F = some D ∧ (ast.info D).kind.isFunctionDecl = true :=
  dynCastOrNull_eq_some

theorem asCXXMethodDecl_eq_some {F : Option Decl} {D : Decl} :
    ast.asCXXMethodDecl F = some D ↔ F = some D ∧ (ast.info D).kind.isCXXMethodDecl = true :=
  dynCastOrNull_eq_some

/-! ## The matching rule of the merge -/

variable (ast)

/-- Two named declarations that `MergeFunctionMap` takes for the same function: their names are
equal, and if both are member functions, so are the names of their classes. -/
def SameFunction (D D2 : Decl) : Prop :=
  (ast.info D).kind.isNamedDecl = true ∧ (ast.info D2).kind.isNamedDecl = true ∧
    ast.name D = ast.name D2 ∧
    ((ast.info D).kind.isCXXMethodDecl = true → (ast.info D2).kind.isCXXMethodDecl = true →
      (ast.info D).parentName = (ast.info D2).parentName)

instance (D D2 : Decl) : Decidable (ast.SameFunction D D2) := by
  unfold SameFunction
  infer_instance

/-- The matching rule on keys of the function map; the null key matches nothing. -/
def Matches : Option Decl → Option Decl → Prop
  | some D, some D2 => ast.SameFunction D D2
  | _, _ => False

instance (F F2 : Option Decl) : Decidable (ast.Matches F F2) := by
  cases F <;> cases F2 <;> unfold Matches <;> infer_instance

variable {ast}

theorem SameFunction.symm {D D2 : Decl} (h : ast.SameFunction D D2) : ast.SameFunction D2 D :=
  ⟨h.2.1, h.1, h.2.2.1.symm, fun h2 h1 => (h.2.2.2 h1 h2).symm⟩

theorem matches_iff {F F2 : Option Decl} :
    ast.Matches F F2 ↔ ∃ D D2, F = some D ∧ F2 = some D2 ∧ ast.SameFunction D D2 := by
  refine ⟨?_, ?_⟩
  · intro h
    match F, F2, h with
    | some D, some D2, h => exact ⟨D, D2, rfl, rfl, h⟩
  · rintro ⟨D, D2, rfl, rfl, h⟩
    exact h

/-- The matching rule in the terms of the source: two casts to `NamedDecl`, a comparison of names,
and, when both casts to `CXXMethodDecl` succeed, one of class names. -/
theorem matches_iff_cast {F F2 : Option Decl} :
    ast.Matches F F2 ↔ ∃ D D2, ast.asNamedDecl F = some D ∧ ast.asNamedDecl F2 = some D2 ∧
      ast.name D = ast.name D2 ∧
      ∀ M M2, ast.asCXXMethodDecl F = some M → ast.asCXXMethodDecl F2 = some M2 →
        (ast.info M).parentName = (ast.info M2).parentName := by
  rw [matches_iff]
  refine exists_congr fun D => exists_congr fun D2 => ?_
  rw [asNamedDecl_eq_some, asNamedDecl_eq_some]
  refine ⟨?_, ?_⟩
  · rintro ⟨rfl, rfl, hD, hD2, hname, hclass⟩
    refine ⟨⟨rfl, hD⟩, ⟨rfl, hD2⟩, hname, fun M M2 hM hM2 => ?_⟩
    obtain ⟨hDM, hkM⟩ := asCXXMethodDecl_eq_some.mp hM
    obtain ⟨hDM2, hkM2⟩ := asCXXMethodDecl_eq_some.mp hM2
    obtain rfl := Option.some.inj hDM
    obtain rfl := Option.some.inj hDM2
    exact hclass hkM hkM2
  · rintro ⟨⟨rfl, hD⟩, ⟨rfl, hD2⟩, hname, hclass⟩
    exact ⟨rfl, rfl, hD, hD2, hname, fun hk hk2 =>
      hclass D D2 (asCXXMethodDecl_eq_some.mpr ⟨rfl, hk⟩)
        (asCXXMethodDecl_eq_some.mpr ⟨rfl, hk2⟩)⟩

theorem Matches.symm {F F2 : Option Decl} (h : ast.Matches F F2) : ast.Matches F2 F := by
  obtain ⟨D, D2, hF, hF2, hsame⟩ := matches_iff.mp h
  exact matches_iff.mpr ⟨D2, D, hF2, hF, hsame.symm⟩

end ASTContext

/-! ## Small programs

Shapes for the concrete programs that theorems are tried on. -/

/-- A body of direct calls, one after the other. -/
def Stmt.calls (Ds : List Decl) : Stmt :=
  .stmt (Ds.map fun D => some (.callExpr (some D) (.stmt []) []))

/-- A function definition whose body calls `Ds`. -/
def DeclInfo.definition (name : String) (Ds : List Decl) : DeclInfo :=
  { getNameAsString := name
    getBody := some (Stmt.calls Ds)
    isThisDeclarationADefinition := true }

/-- A function declaration without a body. -/
def DeclInfo.declaration (name : String) : DeclInfo := { getNameAsString := name }

/-- A function definition whose body sends the message `sel` to an instance of `iDecl`. -/
def DeclInfo.sending (name : String) (iDecl : Decl) (sel : String) : DeclInfo :=
  { getNameAsString := name
    getBody := some (.objCMessageExpr (some iDecl) sel true [])
    isThisDeclarationADefinition := true }

/-- The same as a member function of the class `parent`. -/
def DeclInfo.inClass (info : DeclInfo) (parent : String) : DeclInfo :=
  { info with kind := .cxxMethod, parentName := parent }

/-- The same in the file `filename`. -/
def DeclInfo.inFile (info : DeclInfo) (filename : String) : DeclInfo :=
  { info with filename := filename }

/-- The same with the type `type`. -/
def DeclInfo.ofType (info : DeclInfo) (type : String) : DeclInfo :=
  { info with typeAsString := type }

/-- The context that has these declarations at the first addresses. -/
def ASTContext.ofTable (table : List DeclInfo) : ASTContext where
  info D := table.getD D {}

theorem ASTContext.info_ofTable (table : List DeclInfo) (D : Decl) :
    (ofTable table).info D ∈ table ∨ (ofTable table).info D = {} := by
  change table.getD D {} ∈ table ∨ table.getD D {} = {}
  rw [List.getD_eq_getElem?_getD]
  rcases h : table[D]? with _ | info
  · exact Or.inr rfl
  · exact Or.inl (List.mem_of_getElem? h)

end FindBoundary
