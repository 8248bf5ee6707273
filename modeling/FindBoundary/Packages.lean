import FindBoundary.Ast
import Mathlib.Data.List.Infix
import Mathlib.Tactic.Common

/-!
# Packages

The package names, the classification of files, and the global tables of `main.cpp`, which the
passes take as states. `funcPackageMap` and the entries of `callRelation` are ordered maps whose
`insert` does not overwrite.
-/

namespace FindBoundary

/-! ## Package names -/

/-- `PACKAGE_NUM` -/
abbrev packageNum : ℕ := 10

/-- `keys`: the names of the packages. -/
def keys (i : Fin packageNum) : String :=
  #v["devs", "error", "fs", "hal", "infra", "io", "isoinfra", "kernel", "language", "services"][i]

/-- `getTypeIndex`: the first index that carries the name; `-1` is `none`. -/
def getTypeIndex (type : String) : Option (Fin packageNum) :=
  (List.finRange packageNum).find? fun i => keys i = type

theorem keys_inj {i j : Fin packageNum} (h : keys i = keys j) : i = j := by
  revert i j
  decide

/-- No package has the name that marks the absence of one. -/
theorem keys_ne_empty (i : Fin packageNum) : keys i ≠ "empty" := by
  revert i
  decide

/-- A name is found exactly at its own index. -/
theorem getTypeIndex_eq_some {type : String} {i : Fin packageNum} :
    getTypeIndex type = some i ↔ keys i = type := by
  refine ⟨?_, ?_⟩
  · intro h
    simpa using List.find?_some h
  · rintro rfl
    revert i
    decide

/-- `filename.find(key) != filename.npos` -/
def containsKey (filename key : String) : Bool := key.toList <:+: filename.toList

/-- The package of a file: the first key that its name contains, unless one of the special names
decides otherwise; the later ones win. -/
def packageOf (filename : String) : String :=
  let package := match (List.finRange packageNum).find? fun i => containsKey filename (keys i) with
    | some i => keys i
    | none => "empty"
  let package := if containsKey filename "mathincl" then "language" else package
  let package := if containsKey filename "libc" then "language" else package
  let package := if containsKey filename "memalloc" then "services" else package
  if containsKey filename "math.h" then "language" else package

/-- A file has no package or one of the ten, so a table with a row for each of these has one for
every function that has a package. -/
theorem packageOf_cases (filename : String) :
    packageOf filename = "empty" ∨ ∃ i, packageOf filename = keys i := by
  have hlanguage : ∃ i, "language" = keys i := ⟨8, rfl⟩
  have hservices : ∃ i, "services" = keys i := ⟨9, rfl⟩
  simp only [packageOf]
  split
  · exact Or.inr hlanguage
  split
  · exact Or.inr hservices
  split
  · exact Or.inr hlanguage
  split
  · exact Or.inr hlanguage
  split
  · exact Or.inr ⟨_, rfl⟩
  · exact Or.inl rfl

/-! ## The tables -/

/-- `funcPackageMap`: the package of each definition. -/
abbrev FuncPackageMap : Type := Std.TreeMap Decl String

/-- Inserting does not overwrite. -/
theorem FuncPackageMap.getElem?_insertIfNew {m : FuncPackageMap} {D D' : Decl}
    {package package' : String} (h : (m.insertIfNew D package)[D']? = some package') :
    (D' = D ∧ package' = package) ∨ m[D']? = some package' := by
  rw [Std.TreeMap.getElem?_insertIfNew] at h
  split at h
  · rename_i hnew
    exact Or.inl ⟨(Nat.compare_eq_eq.mp hnew.1).symm, (Option.some.inj h).symm⟩
  · exact Or.inr h

/-- `callRelation`: for each pair of packages, a callee in the second for callers in the first. -/
abbrev CallRelation : Type := Fin packageNum → Fin packageNum → Std.TreeMap Decl Decl

/-- `callRelation[i][j]->insert(make_pair(caller, callee))` -/
def CallRelation.insert (rel : CallRelation) (i j : Fin packageNum) (caller callee : Decl) :
    CallRelation :=
  Function.update rel i (Function.update (rel i) j ((rel i j).insertIfNew caller callee))

theorem CallRelation.getElem?_insert (rel : CallRelation) (i j i' j' : Fin packageNum)
    (caller callee D : Decl) :
    (rel.insert i j caller callee i' j')[D]? =
      if i' = i ∧ j' = j ∧ caller = D ∧ caller ∉ rel i j then some callee
      else (rel i' j')[D]? := by
  by_cases hi : i' = i
  · subst hi
    by_cases hj : j' = j
    · subst hj
      simp [CallRelation.insert, Std.TreeMap.getElem?_insertIfNew]
    · simp [CallRelation.insert, hj]
  · simp [CallRelation.insert, hi]

/-- The innermost block of `findMargin`: the call is recorded if it crosses from one package that
has an index to another. -/
def CallRelation.record (rel : CallRelation) (callerType calleeType : String)
    (caller callee : Decl) : CallRelation :=
  if callerType = calleeType then rel
  else
    match getTypeIndex callerType, getTypeIndex calleeType with
    | some callerIndex, some calleeIndex => rel.insert callerIndex calleeIndex caller callee
    | _, _ => rel

theorem CallRelation.record_cases (rel : CallRelation) (callerType calleeType : String)
    (caller callee : Decl) :
    (∃ i j : Fin packageNum, keys i = callerType ∧ keys j = calleeType ∧ i ≠ j ∧
      rel.record callerType calleeType caller callee = rel.insert i j caller callee) ∨
    ((∀ i j : Fin packageNum, keys i = callerType → keys j = calleeType → i = j) ∧
      rel.record callerType calleeType caller callee = rel) := by
  simp only [record]
  by_cases heq : callerType = calleeType
  · refine Or.inr ⟨fun i j hi hj => keys_inj (hi.trans (heq.trans hj.symm)), by simp [heq]⟩
  · cases hi : getTypeIndex callerType with
    | none =>
      refine Or.inr ⟨fun i j hi' _ => ?_, by simp [heq]⟩
      cases hi.symm.trans (getTypeIndex_eq_some.mpr hi')
    | some i =>
      cases hj : getTypeIndex calleeType with
      | none =>
        refine Or.inr ⟨fun i' j _ hj' => ?_, by simp [heq]⟩
        cases hj.symm.trans (getTypeIndex_eq_some.mpr hj')
      | some j =>
        have hki := getTypeIndex_eq_some.mp hi
        have hkj := getTypeIndex_eq_some.mp hj
        refine Or.inl ⟨i, j, hki, hkj, ?_, by simp [heq]⟩
        rintro rfl
        exact heq (hki.symm.trans hkj)

/-- Empty maps for all pairs, as `main` allocates them. -/
def CallRelation.empty : CallRelation := fun _ _ => ∅

/-- `rootFunctions`: the functions reported for each package. -/
abbrev RootFunctions : Type := Fin packageNum → List Decl

end FindBoundary
