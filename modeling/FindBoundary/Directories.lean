import FindBoundary.Pieces
import FindBoundary.RootTable

/-!
# Packages and directories

A package is a directory, but a file is classified by the first key, in the order of `keys`, that
its whole name contains anywhere. A file in the directory of a package goes to it exactly if no
earlier key is a part of a component of its name; and since `infra` comes before `isoinfra`, no
file goes to the latter.
-/

namespace FindBoundary

open Descent

/-- The components of a file name. -/
def components (filename : String) : List (List Char) := filename.toList.splitOn '/'

/-- The special names, which decide before the keys do. -/
def specialNames : List String := ["mathincl", "libc", "memalloc", "math.h"]

/-- The file lies in the directory of the package `i`, and of no other, and its name contains no
special name. -/
structure InDirectory (filename : String) (i : Fin packageNum) : Prop where
  component : (keys i).toList ∈ components filename
  unique : ∀ j ≠ i, (keys j).toList ∉ components filename
  not_special : ∀ name ∈ specialNames, containsKey filename name = false

instance (filename : String) (i : Fin packageNum) : Decidable (InDirectory filename i) :=
  decidable_of_iff
    ((keys i).toList ∈ components filename ∧ (∀ j ≠ i, (keys j).toList ∉ components filename) ∧
      ∀ name ∈ specialNames, containsKey filename name = false)
    ⟨fun ⟨h₁, h₂, h₃⟩ => ⟨h₁, h₂, h₃⟩, fun ⟨h₁, h₂, h₃⟩ => ⟨h₁, h₂, h₃⟩⟩

/-- A key is found in a file name exactly if it is a part of a component. -/
theorem containsKey_iff {filename : String} {j : Fin packageNum} :
    containsKey filename (keys j) = true ↔ ∃ c ∈ components filename, (keys j).toList <:+: c := by
  have hslash : '/' ∉ (keys j).toList := by
    revert j
    decide
  rw [containsKey, decide_eq_true_iff]
  exact Pieces.infix_iff hslash

/-- Without special names, the package is that of the first key that is found. -/
theorem packageOf_eq_keys_iff {filename : String} {i : Fin packageNum}
    (hspecial : ∀ name ∈ specialNames, containsKey filename name = false) :
    packageOf filename = keys i ↔
      containsKey filename (keys i) = true ∧ ∀ j < i, containsKey filename (keys j) = false := by
  simp only [specialNames, List.forall_mem_cons] at hspecial
  obtain ⟨hmathincl, hlibc, hmemalloc, hmath, -⟩ := hspecial
  have hfirst : packageOf filename = keys i ↔
      ((List.finRange packageNum).find? fun i => containsKey filename (keys i)) = some i := by
    simp only [packageOf, hmathincl, hlibc, hmemalloc, hmath, Bool.false_eq_true, if_false]
    split
    · rename_i i' hi'
      rw [hi', Option.some_inj]
      exact ⟨keys_inj, congrArg keys⟩
    · rename_i hnone
      rw [hnone]
      exact iff_of_false (fun h => keys_ne_empty i h.symm) (Option.some_ne_none i).symm
  rw [hfirst, List.find?_eq_some_iff_getElem]
  refine and_congr_right fun _ => ⟨?_, ?_⟩
  · rintro ⟨k, hk, hki, hbefore⟩ j hj
    rw [List.getElem_finRange] at hki
    have hjk : j.val < k := by
      rw [← hki] at hj
      exact hj
    simpa using hbefore j.val hjk
  · intro hbefore
    refine ⟨i.val, by simp, by simp, fun j hj => ?_⟩
    simpa using hbefore ⟨j, by omega⟩ hj

/-- A file in the directory of a package goes to the package exactly if no earlier key is a part of
a component of its name. -/
theorem InDirectory.packageOf_eq_iff {filename : String} {i : Fin packageNum}
    (h : InDirectory filename i) :
    packageOf filename = keys i ↔ ∀ j < i, ∀ c ∈ components filename, ¬ (keys j).toList <:+: c := by
  have hi : containsKey filename (keys i) = true :=
    containsKey_iff.mpr ⟨_, h.component, List.infix_refl _⟩
  rw [packageOf_eq_keys_iff h.not_special, and_iff_right hi]
  refine forall_congr' fun j => imp_congr_right fun _ => ?_
  rw [← Bool.not_eq_true, containsKey_iff]
  simp only [not_exists, not_and]

/-- The name of a package alone goes to the package, except for `isoinfra`. -/
theorem packageOf_keys {i : Fin packageNum} (h : keys i ≠ "isoinfra") :
    InDirectory (keys i) i ∧ packageOf (keys i) = keys i := by
  revert i
  decide +kernel

/-- What is found in a name with the component `isoinfra`. -/
theorem infra_infix_isoinfra : (keys 4).toList <:+: (keys 6).toList := by decide

namespace CallGraph

/-- **When a file is classified by its directory**: exactly if no earlier key is a part of a
component of its name. So there are such files for every package but `isoinfra`. -/
theorem classified_by_directory_iff {ast : ASTContext} :
    (∀ {G : CallGraph} {fuel : ℕ} {m : FuncPackageMap},
      (G.traverseFunction ast).descend fuel G.root ∅ = .ok m → ∀ D ∈ m, ∀ i,
        InDirectory (ast.info D).filename i →
          (m[D]? = some (keys i) ↔
            ∀ j < i, ∀ c ∈ components (ast.info D).filename, ¬ (keys j).toList <:+: c)) ∧
    ∀ i, (∃ filename, InDirectory filename i ∧ packageOf filename = keys i) ↔
      keys i ≠ "isoinfra" := by
  refine ⟨fun {G fuel m} hm D hD i h => ?_, fun i => ⟨?_, ?_⟩⟩
  · have hfiled : Filed ast m := filed_traverseFunction (fun D package hD => by simp at hD) hm
    obtain ⟨package, hpackage⟩ :=
      Option.isSome_iff_exists.mp (Std.TreeMap.isSome_getElem?_iff_mem.mpr hD)
    rw [hpackage, (hfiled D package hpackage).2, Option.some_inj]
    exact h.packageOf_eq_iff
  · rintro ⟨filename, h, hpackage⟩ hi
    obtain rfl : i = 6 := keys_inj hi
    exact h.packageOf_eq_iff.mp hpackage 4 (by decide) _ h.component infra_infix_isoinfra
  · intro hi
    exact ⟨keys i, packageOf_keys hi⟩

/-- A function in the directory `kernel`. -/
def kernelFile : ASTContext := .ofTable [(DeclInfo.definition "f" []).inFile "src/kernel/f.c"]

/-- Not vacuous: the function goes to `kernel`. -/
theorem classified_by_directory_kernelFile :
    let G := ofUnits kernelFile [[0]]
    ∃ m : FuncPackageMap, (G.traverseFunction kernelFile).descend 2 G.root ∅ = .ok m ∧
      m[0]? = some "kernel" := by
  intro G
  let m : FuncPackageMap := ((G.traverseFunction kernelFile).descend 2 G.root ∅).toOption.getD ∅
  have hm : (G.traverseFunction kernelFile).descend 2 G.root ∅ = .ok m :=
    eq_ok_getD ∅ (by decide +kernel)
  have hmem : 0 ∈ m := by decide +kernel
  have hdirectory : InDirectory (kernelFile.info 0).filename 7 := by decide +kernel
  exact ⟨m, hm, (classified_by_directory_iff.1 hm 0 hmem 7 hdirectory).mpr (by decide +kernel)⟩

/-- A function in the directory `isoinfra`. -/
def isoinfraFile : ASTContext := .ofTable [(DeclInfo.definition "f" []).inFile "isoinfra/f.c"]

/-- The function goes to `infra`. -/
theorem not_classified_by_directory_isoinfraFile :
    let G := ofUnits isoinfraFile [[0]]
    ∃ m : FuncPackageMap, (G.traverseFunction isoinfraFile).descend 2 G.root ∅ = .ok m ∧
      InDirectory (isoinfraFile.info 0).filename 6 ∧ m[0]? = some "infra" ∧
      m[0]? ≠ some (keys 6) := by
  intro G
  let m : FuncPackageMap :=
    ((G.traverseFunction isoinfraFile).descend 2 G.root ∅).toOption.getD ∅
  have hm : (G.traverseFunction isoinfraFile).descend 2 G.root ∅ = .ok m :=
    eq_ok_getD ∅ (by decide +kernel)
  exact ⟨m, hm, by decide +kernel, by decide +kernel, by decide +kernel⟩

end CallGraph

end FindBoundary
