import FindBoundary.Packages
import Mathlib.Data.List.Induction

/-!
# margin.dot

`printMarginDot` writes, for each pair of packages, the edges of the margin and two clusters, one
for the callers in the first package and one for the callees in the second. The vectors that it
takes the functions of the clusters from belong to the loop over the first package: they are not
emptied for the next second package, so a cluster of callees holds those of all the second packages
so far, under the label of the first of them that has any, and it is written even for a second
package that nothing calls into.
-/

namespace FindBoundary

/-- The two clusters of a pair of packages. Their numbers are those of the packages, followed by
`0` and `1`. -/
inductive Side : Type where
  | callers
  | callees
  deriving DecidableEq

/-- What `printMarginDot` writes in one go. -/
inductive DotItem : Type where
  /-- a line for a call -/
  | edge (caller callee : Decl)
  /-- a block `subgraph cluster`, with the package and the side in its number, the label, if one is
  found, and the functions -/
  | subgraph (package : Fin packageNum) (side : Side) (label : Option String)
    (functions : List Decl)
  deriving DecidableEq

/-- What one turn of the outer loop of `printMarginDot` has written, and its vectors. -/
structure DotRow : Type where
  callers : List Decl := []
  callees : List Decl := []
  items : List DotItem := []

namespace DotRow

/-- The innermost loop body, for one entry of `callRelation[i][j]`. -/
def printEdge (row : DotRow) (iter : Decl × Decl) : DotRow where
  callers := row.callers ++ [iter.1]
  callees := row.callees ++ [iter.2]
  items := row.items ++ [.edge iter.1 iter.2]

/-- The label of a cluster: the package of its first function. -/
def label (funcPackageMap : FuncPackageMap) (functions : List Decl) : Option String :=
  functions.head?.bind fun function => funcPackageMap[function]?

/-- What stands behind the innermost loop: the two clusters, unless there are no functions. -/
def printClusters (funcPackageMap : FuncPackageMap) (i j : Fin packageNum) (row : DotRow) :
    DotRow :=
  if row.callers.isEmpty || row.callees.isEmpty then row
  else
    { row with
      items := row.items ++
        [.subgraph i .callers (label funcPackageMap row.callers) row.callers,
          .subgraph j .callees (label funcPackageMap row.callees) row.callees] }

end DotRow

variable (m : FuncPackageMap) (rel : CallRelation)

/-- The body of the loop over `j`. -/
def printMarginDotBody (i : Fin packageNum) (row : DotRow) (j : Fin packageNum) : DotRow :=
  if i = j then row
  else ((rel i j).toList.foldl DotRow.printEdge row).printClusters m i j

/-- The body of the loop over `i`, with vectors of its own. -/
def printMarginDotRow (i : Fin packageNum) : DotRow :=
  (List.finRange packageNum).foldl (printMarginDotBody m rel i) {}

/-- The digit of a side in the number of a cluster. -/
def Side.digit : Side → String
  | callers => "0"
  | callees => "1"

/-- The text of an item. -/
def DotItem.text (ast : ASTContext) : DotItem → String
  | edge caller callee => ast.name caller ++ "->" ++ ast.name callee ++ ";\n"
  | subgraph package side label functions =>
    "subgraph cluster" ++ toString package.val ++ side.digit ++ "\x7b\n" ++
      (label.map fun package => "label = \"" ++ package ++ "\";").getD "" ++
      String.join (functions.map fun function => ast.name function ++ "\n") ++ "\x7d\n"

/-- `printMarginDot`: what it writes into the file. -/
def printMarginDot (ast : ASTContext) : String :=
  "digraph \"Margin\"\n\x7b" ++
    "edge [fontname=\"Helvetica\",fontsize=\"10\",labelfontname=\"Helvetica\"," ++
    "labelfontsize=\"10\"];node [fontname=\"Helvetica\",fontsize=\"10\",shape=record];" ++
    "rankdir=\"LR\";" ++
    String.join ((List.finRange packageNum).map fun i =>
      String.join ((printMarginDotRow m rel i).items.map (DotItem.text ast))) ++ "\x7d"

/-! ## What the loops leave -/

variable {m rel} {i : Fin packageNum}

/-- The callees that the loop has collected when it has been through the packages `js`. -/
def calleesInto (rel : CallRelation) (i : Fin packageNum) (js : List (Fin packageNum)) :
    List Decl :=
  (js.filter fun j => i ≠ j).flatMap fun j => (rel i j).toList.map Prod.snd

theorem mem_calleesInto {js : List (Fin packageNum)} {callee : Decl} :
    callee ∈ calleesInto rel i js ↔
      ∃ j ∈ js, i ≠ j ∧ ∃ caller : Decl, (rel i j)[caller]? = some callee := by
  simp only [calleesInto, List.mem_flatMap, List.mem_filter, decide_eq_true_eq, List.mem_map,
    Prod.exists, Std.TreeMap.mem_toList_iff_getElem?_eq_some, exists_eq_right, and_assoc]

theorem calleesInto_append (js js' : List (Fin packageNum)) :
    calleesInto rel i (js ++ js') = calleesInto rel i js ++ calleesInto rel i js' := by
  rw [calleesInto, List.filter_append, List.flatMap_append]
  rfl

/-- The innermost loop appends to the vectors, and to the text no cluster. -/
theorem foldl_printEdge (entries : List (Decl × Decl)) (row : DotRow) :
    let row' := entries.foldl DotRow.printEdge row
    row'.callers = row.callers ++ entries.map Prod.fst ∧
      row'.callees = row.callees ++ entries.map Prod.snd ∧
      ∀ j side label functions, .subgraph j side label functions ∈ row'.items ↔
        .subgraph j side label functions ∈ row.items := by
  induction entries generalizing row with
  | nil => simp
  | cons iter entries ih =>
    obtain ⟨hcallers, hcallees, hitems⟩ := ih (row.printEdge iter)
    refine ⟨?_, ?_, fun j side label functions => ?_⟩
    · rw [List.foldl_cons, hcallers, List.map_cons, List.append_cons]
      rfl
    · rw [List.foldl_cons, hcallees, List.map_cons, List.append_cons]
      rfl
    · rw [List.foldl_cons, hitems]
      simp [DotRow.printEdge]

/-- The vectors and the clusters of callees when the loop has been through the packages `js`. -/
structure RowAfter (m : FuncPackageMap) (rel : CallRelation) (i : Fin packageNum)
    (js : List (Fin packageNum)) (row : DotRow) : Prop where
  length_callers : row.callers.length = row.callees.length
  callees : row.callees = calleesInto rel i js
  clusters : ∀ j label functions, .subgraph j .callees label functions ∈ row.items ↔
    ∃ before, before ++ [j] <+: js ∧ i ≠ j ∧ functions = calleesInto rel i (before ++ [j]) ∧
      functions ≠ [] ∧ label = DotRow.label m functions

/-- A prefix that ends with `j'` has been there before, or ends with the new element. -/
theorem exists_prefix_concat_iff {α : Type} {js : List α} {j j' : α} {P : List α → Prop} :
    (∃ before, before ++ [j'] <+: js ++ [j] ∧ P before) ↔
      (∃ before, before ++ [j'] <+: js ∧ P before) ∨ j' = j ∧ P js := by
  constructor
  · rintro ⟨before, hpre, hP⟩
    rcases List.prefix_concat_iff.mp hpre with heq | hpre
    · obtain ⟨rfl, rfl⟩ : before = js ∧ j' = j := by simpa using heq
      exact Or.inr ⟨rfl, hP⟩
    · exact Or.inl ⟨before, hpre, hP⟩
  · rintro (⟨before, hpre, hP⟩ | ⟨rfl, hP⟩)
    · exact ⟨before, hpre.trans (List.prefix_append _ _), hP⟩
    · exact ⟨js, List.prefix_rfl, hP⟩

/-- One turn of the loop over `j`. -/
theorem RowAfter.printMarginDotBody {js : List (Fin packageNum)} {row : DotRow}
    (h : RowAfter m rel i js row) (j : Fin packageNum) :
    RowAfter m rel i (js ++ [j]) (printMarginDotBody m rel i row j) := by
  simp only [FindBoundary.printMarginDotBody]
  by_cases hij : i = j
  · have hsame : calleesInto rel i (js ++ [j]) = calleesInto rel i js := by
      simp [calleesInto, hij]
    rw [if_pos hij]
    refine ⟨h.length_callers, h.callees.trans hsame.symm, fun j' label functions => ?_⟩
    rw [h.clusters, exists_prefix_concat_iff]
    refine (or_iff_left ?_).symm
    rintro ⟨rfl, hne, -⟩
    exact hne hij
  · rw [if_neg hij]
    obtain ⟨hcallers, hcallees, hitems⟩ := foldl_printEdge (rel i j).toList row
    generalize (rel i j).toList.foldl DotRow.printEdge row = row' at hcallers hcallees hitems
    have hlength : row'.callers.length = row'.callees.length := by
      rw [hcallers, hcallees, List.length_append, List.length_append, h.length_callers,
        List.length_map, List.length_map]
    have hall : row'.callees = calleesInto rel i (js ++ [j]) := by
      rw [hcallees, h.callees, calleesInto_append]
      simp [calleesInto, hij]
    simp only [DotRow.printClusters]
    split
    · rename_i hempty
      have hnil : row'.callees = [] := by
        rcases Bool.or_eq_true_iff.mp hempty with hempty | hempty
        · rw [List.isEmpty_iff] at hempty
          rw [hempty] at hlength
          exact List.eq_nil_of_length_eq_zero hlength.symm
        · exact List.isEmpty_iff.mp hempty
      refine ⟨hlength, hall, fun j' label functions => ?_⟩
      rw [hitems, h.clusters, exists_prefix_concat_iff]
      refine (or_iff_left ?_).symm
      rintro ⟨rfl, -, hfunctions, hne, -⟩
      exact hne (hfunctions.trans (hall.symm.trans hnil))
    · rename_i hnonempty
      have hne : row'.callees ≠ [] := by
        intro hnil
        rw [hnil] at hnonempty
        simp at hnonempty
      refine ⟨hlength, hall, fun j' label functions => ?_⟩
      rw [List.mem_append, hitems, h.clusters, exists_prefix_concat_iff]
      refine or_congr_right ?_
      simp only [List.mem_cons, DotItem.subgraph.injEq, reduceCtorEq, false_and, and_false,
        List.not_mem_nil, or_false, false_or, true_and]
      constructor
      · rintro ⟨rfl, rfl, rfl⟩
        exact ⟨rfl, hij, hall, hne, rfl⟩
      · rintro ⟨rfl, -, hfunctions, -, rfl⟩
        have heq : functions = row'.callees := hfunctions.trans hall.symm
        exact ⟨rfl, congrArg (DotRow.label m) heq, heq⟩

theorem rowAfter (m : FuncPackageMap) (rel : CallRelation) (i : Fin packageNum)
    (js : List (Fin packageNum)) :
    RowAfter m rel i js (js.foldl (printMarginDotBody m rel i) {}) := by
  induction js using List.reverseRecOn with
  | nil => exact ⟨rfl, rfl, fun j label functions => by simp⟩
  | append_singleton js j ih =>
    rw [List.foldl_append]
    exact ih.printMarginDotBody j

theorem exists_prefix_finRange {n : ℕ} (j : Fin n) :
    ∃ before, before ++ [j] <+: List.finRange n := by
  obtain ⟨before, after, hsplit⟩ := List.append_of_mem (List.mem_finRange j)
  exact ⟨before, after, by simp [hsplit]⟩

/-- The packages that the loop has been through when it has been through `j`. -/
theorem mem_of_prefix_finRange {n : ℕ} {before : List (Fin n)} {j k : Fin n}
    (h : before ++ [j] <+: List.finRange n) : k ∈ before ++ [j] ↔ k ≤ j := by
  obtain ⟨after, hsplit⟩ := h
  have hsorted : (before ++ [j] ++ after).Pairwise (· < ·) :=
    hsplit ▸ List.pairwise_lt_finRange n
  obtain ⟨hbefore, -, hafter⟩ := List.pairwise_append.mp hsorted
  refine ⟨?_, ?_⟩
  · intro hk
    rcases List.mem_append.mp hk with hk | hk
    · exact Nat.le_of_lt ((List.pairwise_append.mp hbefore).2.2 k hk j (List.mem_singleton_self j))
    · exact Nat.le_of_eq (congrArg Fin.val (List.mem_singleton.mp hk))
  · intro hk
    rcases List.mem_append.mp (hsplit ▸ List.mem_finRange k) with hk' | hk'
    · exact hk'
    · have hlt : j < k := hafter j (List.mem_append_right _ (List.mem_singleton_self j)) k hk'
      exact absurd hk (Nat.not_le_of_gt hlt)

/-- The clusters of callees: for each target package, as soon as anything is called in it or in one
before. -/
theorem subgraph_mem_row_iff {j : Fin packageNum} {label : Option String}
    {functions : List Decl} :
    .subgraph j .callees label functions ∈ (printMarginDotRow m rel i).items ↔
      ∃ before, before ++ [j] <+: List.finRange packageNum ∧ i ≠ j ∧
        functions = calleesInto rel i (before ++ [j]) ∧ functions ≠ [] ∧
        label = DotRow.label m functions :=
  (rowAfter m rel i (List.finRange packageNum)).clusters j label functions

/-! ## Which clusters are right -/

/-- Something in the package `j` is called from the package `i`. -/
def CallsInto (rel : CallRelation) (i j : Fin packageNum) : Prop :=
  ∃ caller callee : Decl, (rel i j)[caller]? = some callee

/-- In every cluster of callees that is written for `i`, the functions have the names of callees in
the package of the cluster, the label is this package, and something in it is called. -/
def CalleeClustersRight (ast : ASTContext) (m : FuncPackageMap) (rel : CallRelation)
    (i : Fin packageNum) : Prop :=
  ∀ j label functions, .subgraph j .callees label functions ∈ (printMarginDotRow m rel i).items →
    (∀ f ∈ functions, ∃ caller callee : Decl,
      (rel i j)[caller]? = some callee ∧ ast.name callee = ast.name f) ∧
    label = some (keys j) ∧ CallsInto rel i j

/-- The label of a cluster of callees is the package of the first call that was gone through. -/
theorem label_of_prefix {js js' : List (Fin packageNum)} (hpre : js <+: js')
    (hne : calleesInto rel i js ≠ [])
    (hsound : ∀ (j : Fin packageNum) (caller callee : Decl), (rel i j)[caller]? = some callee →
      m[callee]? = some (keys j)) :
    ∃ j ∈ js, i ≠ j ∧ CallsInto rel i j ∧
      DotRow.label m (calleesInto rel i js') = some (keys j) := by
  obtain ⟨rest, rfl⟩ := hpre
  obtain ⟨callee, callees, hcons⟩ := List.exists_cons_of_ne_nil hne
  have hmem : callee ∈ calleesInto rel i js := hcons ▸ List.mem_cons_self ..
  obtain ⟨j, hj, hij, caller, hcall⟩ := mem_calleesInto.mp hmem
  refine ⟨j, hj, hij, ⟨caller, callee, hcall⟩, ?_⟩
  rw [calleesInto_append, hcons, DotRow.label]
  exact hsound j caller callee hcall

/-- If anything is called in a package, the clusters of callees of all later packages are written,
under the label of this one or of one before it. -/
theorem exists_mislabelled_cluster
    (hsound : ∀ (i j : Fin packageNum) (caller callee : Decl), (rel i j)[caller]? = some callee →
      m[caller]? = some (keys i) ∧ m[callee]? = some (keys j)) {j j' : Fin packageNum}
    (hij : i ≠ j) (hcalls : CallsInto rel i j) (hlt : j < j') (hij' : i ≠ j') :
    ∃ k functions, k ≤ j ∧
      .subgraph j' .callees (some (keys k)) functions ∈ (printMarginDotRow m rel i).items := by
  obtain ⟨caller, callee, hcall⟩ := hcalls
  obtain ⟨before, hpre'⟩ := exists_prefix_finRange j'
  obtain ⟨before₀, hpre₀⟩ := exists_prefix_finRange j
  have hpre : before₀ ++ [j] <+: before ++ [j'] := by
    refine (List.prefix_or_prefix_of_prefix hpre₀ hpre').resolve_right fun hback => ?_
    have hle : j' ≤ j := (mem_of_prefix_finRange hpre₀).mp
      (hback.subset (List.mem_append_right _ (List.mem_singleton_self j')))
    exact absurd hlt (Nat.not_lt_of_ge hle)
  have hmem : callee ∈ calleesInto rel i (before₀ ++ [j]) :=
    mem_calleesInto.mpr
      ⟨j, List.mem_append_right _ (List.mem_singleton_self j), hij, caller, hcall⟩
  have hmem' : callee ∈ calleesInto rel i (before ++ [j']) := by
    obtain ⟨rest, hrest⟩ := hpre
    rw [← hrest, calleesInto_append]
    exact List.mem_append_left _ hmem
  -- the cluster of `j'` has the callees in `j`, too, and its label is no later package
  obtain ⟨k, hk, -, -, hlabel⟩ := label_of_prefix hpre (List.ne_nil_of_mem hmem)
    fun j caller callee hcall => (hsound i j caller callee hcall).2
  exact ⟨k, _, (mem_of_prefix_finRange hpre₀).mp hk, subgraph_mem_row_iff.mpr
    ⟨before, hpre', hij', rfl, List.ne_nil_of_mem hmem', hlabel.symm⟩⟩

/-- If the clusters are right, nothing is called but in the last package that the loop comes to. -/
theorem CalleeClustersRight.last {ast : ASTContext}
    (hsound : ∀ (i j : Fin packageNum) (caller callee : Decl), (rel i j)[caller]? = some callee →
      m[caller]? = some (keys i) ∧ m[callee]? = some (keys j))
    (h : CalleeClustersRight ast m rel i) :
    ∀ j, i ≠ j → CallsInto rel i j → ∀ j', j < j' → j' = i := by
  intro j hij hcalls j' hlt
  by_contra hne
  obtain ⟨k, functions, hkj, hmem⟩ :=
    exists_mislabelled_cluster hsound hij hcalls hlt fun heq => hne heq.symm
  obtain ⟨-, hlabel, -⟩ := h j' _ _ hmem
  obtain rfl : k = j' := keys_inj (Option.some.inj hlabel)
  exact absurd hlt (Nat.not_lt_of_ge hkj)

/-- If nothing is called but in the last package that the loop comes to, there is no other cluster
than its own. -/
theorem CalleeClustersRight.of_last (ast : ASTContext)
    (hsound : ∀ (i j : Fin packageNum) (caller callee : Decl), (rel i j)[caller]? = some callee →
      m[caller]? = some (keys i) ∧ m[callee]? = some (keys j))
    (hlast : ∀ j, i ≠ j → CallsInto rel i j → ∀ j', j < j' → j' = i) :
    CalleeClustersRight ast m rel i := by
  intro j label functions hmem
  obtain ⟨before, hpre, hij, rfl, hne, rfl⟩ := subgraph_mem_row_iff.mp hmem
  -- no package before `j` is called into
  have honly : ∀ k ∈ before ++ [j], i ≠ k → CallsInto rel i k → k = j := by
    intro k hk hik hcalls
    have hle : k ≤ j := (mem_of_prefix_finRange hpre).mp hk
    by_contra hkj
    exact hij (hlast k hik hcalls j (Nat.lt_of_le_of_ne hle fun h => hkj (Fin.ext h))).symm
  obtain ⟨j₀, hj₀, hij₀, hcalls, hlabel⟩ := label_of_prefix List.prefix_rfl hne
    fun j caller callee hcall => (hsound i j caller callee hcall).2
  obtain rfl := honly j₀ hj₀ hij₀ hcalls
  refine ⟨fun f hf => ?_, hlabel, hcalls⟩
  obtain ⟨k, hk, hik, caller, hcall⟩ := mem_calleesInto.mp hf
  obtain rfl := honly k hk hik ⟨caller, f, hcall⟩
  exact ⟨caller, f, hcall, rfl⟩

/-- **When the clusters of callees are right**, for a margin whose calls lie in the packages of
their row and column: exactly if from the package `i` nothing is called but in the last package that
the loop comes to. -/
theorem calleeClustersRight_iff (ast : ASTContext)
    (hsound : ∀ (i j : Fin packageNum) (caller callee : Decl), (rel i j)[caller]? = some callee →
      m[caller]? = some (keys i) ∧ m[callee]? = some (keys j)) (i : Fin packageNum) :
    CalleeClustersRight ast m rel i ↔
      ∀ j, i ≠ j → CallsInto rel i j → ∀ j', j < j' → j' = i :=
  ⟨CalleeClustersRight.last hsound, .of_last ast hsound⟩

/-- The functions `f` and `g`. -/
def fAndG : ASTContext := .ofTable [.definition "f" [1], .definition "g" []]

/-- What is known of a margin with the one call from `f` in the package `i` to `g` in `j`. -/
theorem packages_of_insert {i j i' j' : Fin packageNum} {caller callee : Decl}
    (h : (CallRelation.empty.insert i j 0 1 i' j')[caller]? = some callee) :
    i' = i ∧ j' = j ∧ caller = 0 ∧ callee = 1 := by
  rw [CallRelation.getElem?_insert] at h
  split at h
  · rename_i hnew
    exact ⟨hnew.1, hnew.2.1, hnew.2.2.1.symm, (Option.some.inj h).symm⟩
  · simp [CallRelation.empty] at h

/-- Not vacuous: with the one call from `io` into `services`, the last package. -/
theorem calleeClustersRight_services :
    let m : FuncPackageMap := ((∅ : FuncPackageMap).insertIfNew 0 "io").insertIfNew 1 "services"
    CalleeClustersRight fAndG m (CallRelation.empty.insert 5 9 0 1) 5 := by
  intro m
  refine (calleeClustersRight_iff fAndG ?_ 5).mpr ?_
  · intro i j caller callee hcall
    obtain ⟨rfl, rfl, rfl, rfl⟩ := packages_of_insert hcall
    exact ⟨by decide +kernel, by decide +kernel⟩
  · rintro j - ⟨caller, callee, hcall⟩ j' hlt
    obtain ⟨-, rfl, -⟩ := packages_of_insert hcall
    exact absurd hlt (Nat.not_lt_of_ge (Nat.le_of_lt_succ j'.isLt))

/-- With the one call from `io` into `fs`, the cluster of `hal` holds the callee in `fs`. -/
theorem not_calleeClustersRight_fs :
    let m : FuncPackageMap := ((∅ : FuncPackageMap).insertIfNew 0 "io").insertIfNew 1 "fs"
    let rel := CallRelation.empty.insert 5 2 0 1
    (∀ (i j : Fin packageNum) (caller callee : Decl), (rel i j)[caller]? = some callee →
      m[caller]? = some (keys i) ∧ m[callee]? = some (keys j)) ∧
    ¬ ∀ i, CalleeClustersRight fAndG m rel i := by
  intro m rel
  refine ⟨?_, fun hright => ?_⟩
  · intro i j caller callee hcall
    obtain ⟨rfl, rfl, rfl, rfl⟩ := packages_of_insert hcall
    exact ⟨by decide +kernel, by decide +kernel⟩
  · have hmem : .subgraph 3 .callees (some "fs") [1] ∈ (printMarginDotRow m rel 5).items := by
      decide +kernel
    obtain ⟨-, hlabel, -⟩ := hright 5 3 _ _ hmem
    exact absurd hlabel (by decide)

end FindBoundary
