import FindBoundary.Ast
import Mathlib.Algebra.Ring.Nat
import Mathlib.Data.List.Infix
import Mathlib.Data.List.Nodup

/-!
# What the tool has and does not use

`end_with` of `main.cpp` and `MyVisitor` of `LibtoolingClasses.h` are called from nowhere.

`end_with` compares positions, and the difference of two lengths wraps around: a string also ends
with every string that is longer by one (`endWith_iff`). `MyVisitor` collects the global variables
and the functions defined in the units it is led through, the first one of each type and name
(`visitGlobals_first`).
-/

namespace FindBoundary

/-! ## end_with -/

section EndWith

variable {α : Type} {str sub : List α}

/-- What begins at the last possible position is what is at the end. -/
theorem prefix_drop_iff (h : sub.length ≤ str.length) :
    sub <+: str.drop (str.length - sub.length) ↔ sub <:+ str := by
  have hlength : (str.drop (str.length - sub.length)).length = sub.length := by
    rw [List.length_drop]
    omega
  rw [List.suffix_iff_eq_drop]
  refine ⟨fun hpre => hpre.eq_of_length hlength.symm, fun heq => ?_⟩
  rw [← heq]

variable [DecidableEq α]

/-- `std::string::npos`, the largest `size_t` -/
def npos : ℕ := 2 ^ 64 - 1

/-- The search of `rfind`, from a position down. -/
def rfindFrom (str sub : List α) : ℕ → ℕ
  | 0 => if sub <+: str then 0 else npos
  | pos + 1 => if sub <+: str.drop (pos + 1) then pos + 1 else rfindFrom str sub pos

/-- `str.rfind(sub)`: the last position of `sub`. -/
def rfind (str sub : List α) : ℕ :=
  if sub.length ≤ str.length then rfindFrom str sub (str.length - sub.length) else npos

/-- The difference of two values of `size_t`. -/
def sizeSub (m n : ℕ) : ℕ := (m + 2 ^ 64 - n) % 2 ^ 64

/-- `end_with` -/
def endWith (str sub : List α) : Bool := rfind str sub = sizeSub str.length sub.length

/-- The search ends where it begins exactly if the string is there. -/
theorem rfindFrom_eq_iff {pos : ℕ} (hpos : pos < npos) :
    rfindFrom str sub pos = pos ↔ sub <+: str.drop pos := by
  -- below, it finds a smaller position or none
  have hbelow : ∀ pos, rfindFrom str sub pos ≤ pos ∨ rfindFrom str sub pos = npos := by
    intro pos
    induction pos with
    | zero =>
      rw [rfindFrom]
      split
      · exact Or.inl (Nat.le_refl 0)
      · exact Or.inr rfl
    | succ pos ih =>
      rw [rfindFrom]
      split
      · exact Or.inl (Nat.le_refl _)
      · exact ih.imp_left Nat.le_succ_of_le
  cases pos with
  | zero =>
    rw [rfindFrom, List.drop_zero]
    refine ⟨fun h => ?_, fun h => if_pos h⟩
    by_contra hnot
    rw [if_neg hnot] at h
    omega
  | succ pos =>
    rw [rfindFrom]
    refine ⟨fun h => ?_, fun h => if_pos h⟩
    by_contra hnot
    rw [if_neg hnot] at h
    rcases hbelow pos with hle | hnone
    · omega
    · omega

/-- **When `end_with` says yes**, for any strings that fit in memory: if the second is at the end of
the first, and if it is longer than the first by one, whatever the strings are. -/
theorem endWith_iff (hstr : str.length < npos) (hsub : sub.length < npos) :
    endWith str sub = true ↔ sub <:+ str ∨ sub.length = str.length + 1 := by
  have hnpos : npos = 2 ^ 64 - 1 := rfl
  rw [endWith, decide_eq_true_eq, rfind]
  by_cases hle : sub.length ≤ str.length
  · have hsize : sizeSub str.length sub.length = str.length - sub.length := by
      rw [sizeSub]
      omega
    rw [if_pos hle, hsize, rfindFrom_eq_iff (by omega), prefix_drop_iff hle]
    exact (or_iff_left (by omega)).symm
  · have hsuffix : ¬ sub <:+ str := fun h => hle h.length_le
    have hsize : sizeSub str.length sub.length = 2 ^ 64 - (sub.length - str.length) := by
      rw [sizeSub]
      omega
    rw [if_neg hle, hsize, or_iff_right hsuffix]
    omega

/-- Not vacuous: nothing of the first string is in the second. -/
theorem endWith_iff_longer : endWith ['a'] ['b', 'c'] = true ∧ endWith ['a'] ['b'] = false := by
  have hlong : endWith ['a'] ['b', 'c'] = true ↔ _ := endWith_iff (by decide) (by decide)
  have hshort : endWith ['a'] ['b'] = true ↔ _ := endWith_iff (by decide) (by decide)
  refine ⟨hlong.mpr (Or.inr rfl), ?_⟩
  rw [← Bool.not_eq_true, hshort]
  decide

end EndWith

/-! ## MyVisitor -/

section MyVisitor

variable (isGlobal : Decl → Bool) (key : Decl → String × String)

/-- One visit: the loop over what is collected returns at an entry of the same type and name. -/
def visitGlobal (globals : List Decl) (node : Decl) : List Decl :=
  if isGlobal node ∧ ∀ it ∈ globals, key it ≠ key node then globals ++ [node] else globals

/-- What is collected from `nodes`: the first global one of each type and name, in order. -/
structure FirstOfEach (nodes globals : List Decl) : Prop where
  sublist : globals.Sublist nodes
  nodup : (globals.map key).Nodup
  find : ∀ k, globals.find? (fun it => key it = k) =
    nodes.find? (fun node => isGlobal node ∧ key node = k)

variable {isGlobal key} {globals : List Decl}

/-- One visit adds at most the visited declaration. -/
theorem visitGlobal_sublist (node : Decl) :
    (visitGlobal isGlobal key globals node).Sublist (globals ++ [node]) := by
  rw [visitGlobal]
  split
  · exact List.Sublist.refl _
  · exact List.sublist_append_left globals [node]

/-- No type and name is collected twice. -/
theorem nodup_visitGlobal (node : Decl) (h : (globals.map key).Nodup) :
    ((visitGlobal isGlobal key globals node).map key).Nodup := by
  rw [visitGlobal]
  split
  · next hnew =>
    rw [List.map_append, List.map_singleton, List.nodup_append]
    refine ⟨h, List.nodup_singleton _, ?_⟩
    intro k hk k' hk'
    obtain ⟨it, hit, rfl⟩ := List.mem_map.mp hk
    rw [List.mem_singleton.mp hk']
    exact hnew.2 it hit
  · exact h

/-- An entry of a type and name stays, and where there is none the visited declaration is it. -/
theorem find_visitGlobal (node : Decl) (k : String × String) :
    (visitGlobal isGlobal key globals node).find? (fun it => key it = k) =
      (globals.find? fun it => key it = k).or
        ([node].find? fun node => isGlobal node ∧ key node = k) := by
  rw [visitGlobal]
  split
  · next hnew =>
    rw [List.find?_append]
    simp only [List.find?_singleton, hnew.1, true_and]
  · next hold =>
    by_cases hnode : isGlobal node ∧ key node = k
    · -- the declaration is left out, so there is an entry of its type and name
      have hentry : ∃ it ∈ globals, key it = k := by
        by_contra hnone
        refine hold ⟨hnode.1, fun it hit heq => hnone ⟨it, hit, heq.trans hnode.2⟩⟩
      have hsome : (globals.find? fun it => key it = k).isSome := by
        rw [List.find?_isSome]
        simpa using hentry
      obtain ⟨it, hit⟩ := Option.isSome_iff_exists.mp hsome
      rw [hit, Option.some_or]
    · rw [List.find?_singleton, if_neg (by simpa using hnode), Option.or_none]

/-- Visiting in any order collects the first of each. -/
theorem firstOfEach_visits (nodes : List Decl) :
    FirstOfEach isGlobal key nodes (nodes.foldl (visitGlobal isGlobal key) []) := by
  induction nodes using List.reverseRecOn with
  | nil => exact ⟨List.Sublist.refl _, List.nodup_nil, fun _ => rfl⟩
  | append_singleton nodes node ih =>
    rw [List.foldl_append, List.foldl_cons, List.foldl_nil]
    constructor
    · exact (visitGlobal_sublist node).trans (ih.sublist.append_right [node])
    · exact nodup_visitGlobal node ih.nodup
    · intro k
      rw [find_visitGlobal, ih.find, List.find?_append]

/-- What `MyVisitor` asks a declaration and the call graph does not. -/
structure VisitorInfo : Type where
  isFileVarDecl : Bool := false
  isStaticDataMember : Bool := false
  isDefined : Bool := false
  /-- `getReturnType().getAsString()` -/
  returnTypeAsString : String := ""

variable (ast : ASTContext) (more : Decl → VisitorInfo)

/-- The variables that are collected -/
def isGlobalVar (node : Decl) : Bool :=
  (more node).isFileVarDecl && !(more node).isStaticDataMember

/-- The functions that are collected -/
def isGlobalFunc (node : Decl) : Bool := (more node).isDefined && (ast.info node).isGlobal

/-- What `VisitVarDecl` compares -/
def varKey (node : Decl) : String × String := ((ast.info node).typeAsString, ast.name node)

/-- What `VisitFunctionDecl` compares -/
def funcKey (node : Decl) : String × String := ((more node).returnTypeAsString, ast.name node)

/-- `MyVisitor::VisitVarDecl`, on `globalVars` -/
def visitVarDecl : List Decl → Decl → List Decl := visitGlobal (isGlobalVar more) (varKey ast)

/-- `MyVisitor::VisitFunctionDecl`, on `globalFuncs` -/
def visitFunctionDecl : List Decl → Decl → List Decl :=
  visitGlobal (isGlobalFunc ast more) (funcKey ast more)

/-- **What `MyVisitor` collects** from any units, in any order of the visits: of the global
variables the first of each type and name, and of the global functions the first of each return
type and name. Overloads with one return type are one entry. -/
theorem visitGlobals_first (vars funcs : List Decl) :
    FirstOfEach (isGlobalVar more) (varKey ast) vars (vars.foldl (visitVarDecl ast more) []) ∧
      FirstOfEach (isGlobalFunc ast more) (funcKey ast more) funcs
        (funcs.foldl (visitFunctionDecl ast more) []) :=
  ⟨firstOfEach_visits vars, firstOfEach_visits funcs⟩

end MyVisitor

end FindBoundary
