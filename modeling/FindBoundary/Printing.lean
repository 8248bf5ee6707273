import FindBoundary.Dot
import FindBoundary.Lines
import Mathlib.Data.List.Nodup

/-!
# What is printed

`printMargin` writes the margin as a graph into `margin.txt`, with the packages only in what it logs
on the way; `printRootCaller` logs the report. Nothing in the formats is escaped. Names of
functions do without it: what is printed can be read back (`printMargin_margin_inj`,
`printMargin_errs_inj`, `printRootCaller_inj`), unless a caller is an `operator->`.
-/

namespace FindBoundary

variable (ast : ASTContext)

/-! ## printMargin -/

/-- The file `margin.txt`, and the log. -/
structure MarginOutput : Type where
  margin : String
  errs : String

/-- What both files begin with. -/
def marginHead : String :=
  "digraph \"Margin\"\n\x7b" ++
    "edge [fontname=\"Helvetica\",fontsize=\"10\",labelfontname=\"Helvetica\"," ++
    "labelfontsize=\"10\"];node [fontname=\"Helvetica\",fontsize=\"10\",shape=record];" ++
    "rankdir=\"LR\";"

/-- The innermost loop body, for one entry of `callRelation[i][j]`. -/
def printMarginEntry (out : MarginOutput) (iter : Decl × Decl) : MarginOutput where
  errs := out.errs ++ (ast.name iter.1 ++ " calls " ++ ast.name iter.2 ++ "\n")
  margin := out.margin ++ (ast.name iter.1 ++ "->" ++ ast.name iter.2 ++ ";\n")

/-- The line that is logged for a pair of packages. -/
def fromPackageToPackage (i j : Fin packageNum) : String :=
  "-------------from package " ++ keys i ++ " to package " ++ keys j ++ "-------------\n"

/-- The body of the loop over `j`. -/
def printMarginBody (rel : CallRelation) (i : Fin packageNum) (out : MarginOutput)
    (j : Fin packageNum) : MarginOutput :=
  if i = j then out
  else
    (rel i j).toList.foldl (printMarginEntry ast)
      { out with errs := out.errs ++ fromPackageToPackage i j }

/-- `printMargin` -/
def printMargin (rel : CallRelation) : MarginOutput :=
  let out := (List.finRange packageNum).foldl
    (fun out i => (List.finRange packageNum).foldl (printMarginBody ast rel i) out)
    { margin := marginHead, errs := "" }
  { out with margin := out.margin ++ "\x7d" }

/-! ## printRootCaller -/

/-- `printRootCaller`: what it logs. -/
def printRootCaller (rootFunctions : RootFunctions) : String :=
  (List.finRange packageNum).foldl
    (fun errs i =>
      (rootFunctions i).foldl (fun errs iter => errs ++ (ast.name iter ++ "\n"))
        (errs ++ ("-------------in package " ++ keys i ++ "---------\n")))
    ""

/-! ## The text as lines -/

/-- The pairs of different packages, in the order of the loops. -/
def packagePairs : List (Fin packageNum × Fin packageNum) :=
  (List.finRange packageNum).flatMap fun i =>
    ((List.finRange packageNum).filter fun j => i ≠ j).map fun j => (i, j)

theorem mem_packagePairs {i j : Fin packageNum} : (i, j) ∈ packagePairs ↔ i ≠ j := by
  simp [packagePairs]

theorem nodup_packagePairs : packagePairs.Nodup := by
  refine List.nodup_flatMap.mpr ⟨fun i _ => ?_, ?_⟩
  · exact ((List.nodup_finRange packageNum).filter _).map fun _ _ h => (Prod.mk.inj h).2
  · refine (List.nodup_finRange packageNum).imp fun {i i'} hne p hp hp' => ?_
    obtain ⟨j, -, rfl⟩ := List.mem_map.mp hp
    obtain ⟨j', -, heq⟩ := List.mem_map.mp hp'
    exact hne (Prod.mk.inj heq).1.symm

/-- Two loops, one in the other, that skip the diagonal. -/
theorem flatMap_packagePairs {α : Type} (g : Fin packageNum → Fin packageNum → List α) :
    ((List.finRange packageNum).flatMap fun i =>
      (List.finRange packageNum).flatMap fun j => if i = j then [] else g i j) =
      packagePairs.flatMap fun ij => g ij.1 ij.2 := by
  have hskip : ∀ (i : Fin packageNum) (js : List (Fin packageNum)),
      js.flatMap (fun j => if i = j then [] else g i j) =
        (js.filter fun j => i ≠ j).flatMap fun j => g i j := by
    intro i js
    induction js with
    | nil => rfl
    | cons j js ih =>
      rw [List.flatMap_cons, ih]
      by_cases hij : i = j
      · simp [hij]
      · simp [hij]
  rw [packagePairs, List.flatMap_assoc]
  refine List.flatMap_congr fun i _ => ?_
  rw [hskip, List.flatMap_map]

/-- The calls of the margin, in the order in which they are printed. -/
def marginCalls (rel : CallRelation) : List (Decl × Decl) :=
  packagePairs.flatMap fun ij => (rel ij.1 ij.2).toList

/-- A call, as a line of `margin.txt`. -/
def callLine (iter : Decl × Decl) : List Char :=
  (ast.name iter.1).toList ++ '-' :: '>' :: ((ast.name iter.2).toList ++ [';'])

/-- A call, as a line of the log. -/
def callsLine (iter : Decl × Decl) : List Char :=
  (ast.name iter.1).toList ++ ' ' :: 'c' :: ("alls ".toList ++ (ast.name iter.2).toList)

/-- The heading of a pair of packages in the log. -/
def pairHeading (ij : Fin packageNum × Fin packageNum) : List Char :=
  ("-------------from package " ++ keys ij.1 ++ " to package " ++ keys ij.2 ++
    "-------------").toList

/-- The heading of a package in the log. -/
def packageHeading (i : Fin packageNum) : List Char :=
  ("-------------in package " ++ keys i ++ "---------").toList

/-- `margin.txt` has a line for each call. -/
theorem toList_printMargin_margin (rel : CallRelation) :
    (printMargin ast rel).margin.toList = marginHead.toList ++
      (Lines.unlines '\n' ((marginCalls rel).map (callLine ast)) ++ ['\x7d']) := by
  let text : MarginOutput → List Char := fun out => out.margin.toList
  have hentry : ∀ out iter,
      text (printMarginEntry ast out iter) = text out ++ (callLine ast iter ++ ['\n']) := by
    intro out iter
    simp [text, printMarginEntry, callLine]
  have hbody : ∀ i out j, text (printMarginBody ast rel i out j) = text out ++
      if i = j then [] else (rel i j).toList.flatMap fun iter => callLine ast iter ++ ['\n'] := by
    intro i out j
    simp only [printMarginBody]
    split
    · exact (List.append_nil _).symm
    · exact Lines.foldl_appends text hentry _ _
  have hall := Lines.foldl_appends text (fun out i => Lines.foldl_appends text (hbody i)
    (List.finRange packageNum) out) (List.finRange packageNum) ⟨marginHead, ""⟩
  rw [flatMap_packagePairs] at hall
  have hmargin : (printMargin ast rel).margin.toList = text ((List.finRange packageNum).foldl
      (fun out i => (List.finRange packageNum).foldl (printMarginBody ast rel i) out)
      ⟨marginHead, ""⟩) ++ ['\x7d'] := String.toList_append
  rw [hmargin, hall, List.append_assoc, marginCalls, Lines.unlines, List.flatMap_map,
    List.flatMap_assoc]

/-- The log of `printMargin` has a group of lines for each pair of packages. -/
theorem toList_printMargin_errs (rel : CallRelation) :
    (printMargin ast rel).errs.toList = Lines.unlines '\n' (Lines.sections
      (packagePairs.map fun ij =>
        (pairHeading ij, (rel ij.1 ij.2).toList.map (callsLine ast)))) := by
  let text : MarginOutput → List Char := fun out => out.errs.toList
  have hentry : ∀ out iter,
      text (printMarginEntry ast out iter) = text out ++ (callsLine ast iter ++ ['\n']) := by
    intro out iter
    simp [text, printMarginEntry, callsLine]
  have hdashes : ∀ s : String,
      (s ++ "-------------\n").toList = (s ++ "-------------").toList ++ ['\n'] := by
    intro s
    simp
  have hheading : ∀ i j, (fromPackageToPackage i j).toList = pairHeading (i, j) ++ ['\n'] :=
    fun _ _ => hdashes _
  have hbody : ∀ i out j, text (printMarginBody ast rel i out j) = text out ++
      if i = j then [] else pairHeading (i, j) ++ ['\n'] ++
        (rel i j).toList.flatMap fun iter => callsLine ast iter ++ ['\n'] := by
    intro i out j
    simp only [printMarginBody]
    split
    · exact (List.append_nil _).symm
    · refine (Lines.foldl_appends text hentry _ _).trans ?_
      rw [← hheading, ← List.append_assoc, ← String.toList_append]
  have hall := Lines.foldl_appends text (fun out i => Lines.foldl_appends text (hbody i)
    (List.finRange packageNum) out) (List.finRange packageNum) ⟨marginHead, ""⟩
  have hstart : text ⟨marginHead, ""⟩ = [] := rfl
  have herrs : (printMargin ast rel).errs.toList = text ((List.finRange packageNum).foldl
      (fun out i => (List.finRange packageNum).foldl (printMarginBody ast rel i) out)
      ⟨marginHead, ""⟩) := rfl
  rw [flatMap_packagePairs, hstart, List.nil_append] at hall
  rw [herrs, hall, Lines.unlines, Lines.sections, List.flatMap_map, List.flatMap_assoc]
  simp only [List.flatMap_cons, List.flatMap_map]

/-- The log of `printRootCaller` has a group of lines for each package. -/
theorem toList_printRootCaller (rf : RootFunctions) :
    (printRootCaller ast rf).toList = Lines.unlines '\n' (Lines.sections
      ((List.finRange packageNum).map fun i =>
        (packageHeading i, (rf i).map fun f => (ast.name f).toList))) := by
  have hname : ∀ (errs : String) (iter : Decl), (errs ++ (ast.name iter ++ "\n")).toList =
      errs.toList ++ ((ast.name iter).toList ++ ['\n']) := by
    intro errs iter
    simp
  have hdashes : ∀ s : String,
      (s ++ "---------\n").toList = (s ++ "---------").toList ++ ['\n'] := by
    intro s
    simp
  have hheading : ∀ i, ("-------------in package " ++ keys i ++ "---------\n").toList =
      packageHeading i ++ ['\n'] := fun _ => hdashes _
  have hbody : ∀ (errs : String) (i : Fin packageNum),
      ((rf i).foldl (fun errs iter => errs ++ (ast.name iter ++ "\n"))
        (errs ++ ("-------------in package " ++ keys i ++ "---------\n"))).toList =
      errs.toList ++ (packageHeading i ++ ['\n'] ++
        (rf i).flatMap fun iter => (ast.name iter).toList ++ ['\n']) := by
    intro errs i
    refine (Lines.foldl_appends String.toList hname _ _).trans ?_
    rw [← hheading, ← List.append_assoc, ← String.toList_append]
  have hall := Lines.foldl_appends String.toList hbody (List.finRange packageNum) ""
  rw [String.toList_empty, List.nil_append] at hall
  rw [printRootCaller, hall, Lines.unlines, Lines.sections, List.flatMap_map, List.flatMap_assoc]
  simp only [List.flatMap_cons, List.flatMap_map]

/-! ## What can be read back -/

variable {ast}

/-- A name that can be told from the lines and the headings around it. -/
structure Printable (name : String) : Prop where
  noNewline : '\n' ∉ name.toList
  noDash : name.toList.head? ≠ some '-'

/-- The names in the margin can be told apart from what is printed around them. -/
structure PrintableMargin (ast : ASTContext) (rel : CallRelation) : Prop where
  caller : ∀ c ∈ marginCalls rel, Printable (ast.name c.1)
  callee : ∀ c ∈ marginCalls rel, Printable (ast.name c.2)

/-- The calls of the margin, by name. -/
def names (ast : ASTContext) (calls : List (Decl × Decl)) : List (String × String) :=
  calls.map fun c => (ast.name c.1, ast.name c.2)

theorem PrintableMargin.noNewline {rel : CallRelation} (h : PrintableMargin ast rel) :
    (∀ l ∈ (marginCalls rel).map (callLine ast), '\n' ∉ l) ∧
      ∀ c ∈ marginCalls rel, '\n' ∉ callsLine ast c := by
  refine ⟨fun l hl => ?_, fun c hc => ?_⟩
  · obtain ⟨c, hc, rfl⟩ := List.mem_map.mp hl
    simp [callLine, (h.caller c hc).noNewline, (h.callee c hc).noNewline]
  · simp [callsLine, (h.caller c hc).noNewline, (h.callee c hc).noNewline]

/-- Lists of lines are equal if their lines can be told apart. -/
theorem names_eq_of_map_eq {ast' : ASTContext} {line line' : Decl × Decl → List Char}
    {calls calls' : List (Decl × Decl)}
    (hline : ∀ c ∈ calls, ∀ c' ∈ calls', line c = line' c' →
      ast.name c.1 = ast'.name c'.1 ∧ ast.name c.2 = ast'.name c'.2)
    (h : calls.map line = calls'.map line') : names ast calls = names ast' calls' := by
  refine Lines.map_eq_of_map_eq (fun c hc c' hc' heq => ?_) h
  obtain ⟨hcaller, hcallee⟩ := hline c hc c' hc' heq
  rw [hcaller, hcallee]

/-- **The file can be read back**: two margins that are printed alike have calls of the same names,
in the same order, if no caller is an `operator->`. -/
theorem printMargin_margin_inj {ast' : ASTContext} {rel rel' : CallRelation}
    (h : PrintableMargin ast rel) (h' : PrintableMargin ast' rel')
    (harrow : ∀ c ∈ marginCalls rel, ¬ ['-', '>'] <:+: (ast.name c.1).toList)
    (harrow' : ∀ c ∈ marginCalls rel', ¬ ['-', '>'] <:+: (ast'.name c.1).toList) :
    (printMargin ast rel).margin = (printMargin ast' rel').margin ↔
      names ast (marginCalls rel) = names ast' (marginCalls rel') := by
  refine ⟨fun heq => ?_, fun heq => ?_⟩
  · rw [← String.toList_inj, toList_printMargin_margin, toList_printMargin_margin,
      List.append_cancel_left_eq] at heq
    have hend : '\n' ∉ ['\x7d'] := by decide
    obtain ⟨hlines, -⟩ := Lines.unlines_inj hend hend h.noNewline.1 h'.noNewline.1 heq
    refine names_eq_of_map_eq (fun c hc c' hc' hline => ?_) hlines
    obtain ⟨hcaller, hcallee⟩ :=
      Lines.fields_inj (by decide) (harrow c hc) (harrow' c' hc') hline
    exact ⟨String.toList_inj.mp hcaller, String.toList_inj.mp (List.append_cancel_right hcallee)⟩
  · have hline : ∀ (ast : ASTContext) (calls : List (Decl × Decl)), calls.map (callLine ast) =
        (names ast calls).map fun c => c.1.toList ++ '-' :: '>' :: (c.2.toList ++ [';']) := by
      intro ast calls
      rw [names, List.map_map]
      rfl
    rw [← String.toList_inj, toList_printMargin_margin, toList_printMargin_margin, hline, heq,
      ← hline]

/-- A margin with one call, from `f` to `g`. -/
theorem mem_marginCalls_fAndG {i j : Fin packageNum} {c : Decl × Decl}
    (hc : c ∈ marginCalls (CallRelation.empty.insert i j 0 1)) : c = (0, 1) := by
  obtain ⟨ij, -, hcall⟩ := List.mem_flatMap.mp hc
  obtain ⟨-, -, hcaller, hcallee⟩ :=
    packages_of_insert (Std.TreeMap.mem_toList_iff_getElem?_eq_some.mp hcall)
  exact Prod.ext hcaller hcallee

theorem printableMargin_fAndG (i j : Fin packageNum) :
    PrintableMargin fAndG (CallRelation.empty.insert i j 0 1) := by
  constructor
  case caller =>
    intro c hc
    cases mem_marginCalls_fAndG hc
    exact ⟨by decide, by decide⟩
  case callee =>
    intro c hc
    cases mem_marginCalls_fAndG hc
    exact ⟨by decide, by decide⟩

/-- Not vacuous: the packages are not in the file, with calls between others it is the same. -/
theorem printMargin_margin_inj_fAndG :
    (printMargin fAndG (CallRelation.empty.insert 5 9 0 1)).margin =
      (printMargin fAndG (CallRelation.empty.insert 0 2 0 1)).margin := by
  have harrow : ∀ i j, ∀ c ∈ marginCalls (CallRelation.empty.insert i j 0 1),
      ¬ ['-', '>'] <:+: (fAndG.name c.1).toList := by
    intro i j c hc
    cases mem_marginCalls_fAndG hc
    decide
  exact (printMargin_margin_inj (printableMargin_fAndG 5 9) (printableMargin_fAndG 0 2)
    (harrow 5 9) (harrow 0 2)).mpr (by decide +kernel)

/-- What begins with a dash is a heading of the log. -/
def IsHeading (l : List Char) : Prop := l.head? = some '-'

theorem noNewline_keys (i : Fin packageNum) : '\n' ∉ (keys i).toList := by
  revert i
  decide +kernel

theorem noNewline_pairHeading (ij : Fin packageNum × Fin packageNum) : '\n' ∉ pairHeading ij := by
  simp [pairHeading, noNewline_keys]

theorem noNewline_packageHeading (i : Fin packageNum) : '\n' ∉ packageHeading i := by
  simp [packageHeading, noNewline_keys]

theorem isHeading_pairHeading (ij : Fin packageNum × Fin packageNum) :
    IsHeading (pairHeading ij) := by
  simp [IsHeading, pairHeading]

theorem isHeading_packageHeading (i : Fin packageNum) : IsHeading (packageHeading i) := by
  simp [IsHeading, packageHeading]

theorem Printable.not_isHeading {name : String} (h : Printable name) (rest : List Char) :
    ¬ IsHeading (name.toList ++ ' ' :: rest) := by
  have hdash := h.noDash
  cases hname : name.toList with
  | nil => simp [IsHeading]
  | cons c cs =>
    rw [hname] at hdash
    exact hdash

/-- The groups have headings, nothing else is one, and every line is of one piece. -/
structure Legible (groups : List (List Char × List (List Char))) : Prop where
  headed : Lines.Headed IsHeading groups
  noNewline : ∀ l ∈ Lines.sections groups, '\n' ∉ l

/-- Groups that are printed alike are the same. -/
theorem Legible.inj {groups groups' : List (List Char × List (List Char))} (h : Legible groups)
    (h' : Legible groups') (heq : Lines.unlines '\n' (Lines.sections groups) =
      Lines.unlines '\n' (Lines.sections groups')) : groups = groups' := by
  have hlines := Lines.unlines_inj List.not_mem_nil List.not_mem_nil h.noNewline h'.noNewline
    (congrArg (· ++ []) heq)
  exact Lines.sections_inj h.headed h'.headed hlines.1

/-- Groups with legible headings and lines. -/
theorem legible_map {α : Type} {l : List α} {heading : α → List Char}
    {lines : α → List (List Char)} (hheading : ∀ a ∈ l, IsHeading (heading a) ∧ '\n' ∉ heading a)
    (hlines : ∀ a ∈ l, ∀ line ∈ lines a, ¬ IsHeading line ∧ '\n' ∉ line) :
    Legible (l.map fun a => (heading a, lines a)) := by
  constructor
  case headed =>
    intro g hg
    obtain ⟨a, ha, rfl⟩ := List.mem_map.mp hg
    exact ⟨(hheading a ha).1, fun line hline => (hlines a ha line hline).1⟩
  case noNewline =>
    intro line hline
    rw [Lines.sections, List.flatMap_map, List.mem_flatMap] at hline
    obtain ⟨a, ha, hline⟩ := hline
    rcases List.mem_cons.mp hline with rfl | hline
    · exact (hheading a ha).2
    · exact (hlines a ha line hline).2

theorem mem_marginCalls_of_mem {rel : CallRelation} {ij : Fin packageNum × Fin packageNum}
    (hij : ij ∈ packagePairs) {c : Decl × Decl} (hc : c ∈ (rel ij.1 ij.2).toList) :
    c ∈ marginCalls rel :=
  List.mem_flatMap.mpr ⟨ij, hij, hc⟩

theorem PrintableMargin.legible {rel : CallRelation} (h : PrintableMargin ast rel) :
    Legible (packagePairs.map fun ij =>
      (pairHeading ij, (rel ij.1 ij.2).toList.map (callsLine ast))) := by
  refine legible_map (fun ij _ => ⟨isHeading_pairHeading ij, noNewline_pairHeading ij⟩) ?_
  intro ij hij line hline
  obtain ⟨c, hc, rfl⟩ := List.mem_map.mp hline
  have hcall : c ∈ marginCalls rel := mem_marginCalls_of_mem hij hc
  exact ⟨(h.caller c hcall).not_isHeading _, h.noNewline.2 c hcall⟩

/-- **The log of the margin can be read back**, with the packages: two margins that are logged alike
have, for each pair of packages, calls of the same names in the same order. -/
theorem printMargin_errs_inj {ast' : ASTContext} {rel rel' : CallRelation}
    (h : PrintableMargin ast rel) (h' : PrintableMargin ast' rel')
    (hspace : ∀ c ∈ marginCalls rel, ¬ [' ', 'c'] <:+: (ast.name c.1).toList)
    (hspace' : ∀ c ∈ marginCalls rel', ¬ [' ', 'c'] <:+: (ast'.name c.1).toList) :
    (printMargin ast rel).errs = (printMargin ast' rel').errs ↔
      ∀ i j, i ≠ j → names ast (rel i j).toList = names ast' (rel' i j).toList := by
  refine ⟨fun heq i j hij => ?_, fun heq => ?_⟩
  · rw [← String.toList_inj, toList_printMargin_errs, toList_printMargin_errs] at heq
    have hpair : (i, j) ∈ packagePairs := mem_packagePairs.mpr hij
    have hgroup := List.map_inj_left.mp (h.legible.inj h'.legible heq) (i, j) hpair
    refine names_eq_of_map_eq (fun c hc c' hc' hline => ?_) (Prod.mk.inj hgroup).2
    obtain ⟨hcaller, hcallee⟩ := Lines.fields_inj (by decide)
      (hspace c (mem_marginCalls_of_mem hpair hc))
      (hspace' c' (mem_marginCalls_of_mem hpair hc')) hline
    exact ⟨String.toList_inj.mp hcaller, String.toList_inj.mp (List.append_cancel_left hcallee)⟩
  · have hline : ∀ (ast : ASTContext) (calls : List (Decl × Decl)), calls.map (callsLine ast) =
        (names ast calls).map fun c =>
          c.1.toList ++ ' ' :: 'c' :: ("alls ".toList ++ c.2.toList) := by
      intro ast calls
      rw [names, List.map_map]
      rfl
    rw [← String.toList_inj, toList_printMargin_errs, toList_printMargin_errs]
    refine congrArg (fun groups => Lines.unlines '\n' (Lines.sections groups)) ?_
    refine List.map_congr_left fun ij hij => ?_
    rw [hline, hline, heq ij.1 ij.2 (mem_packagePairs.mp hij)]

/-- Not vacuous: the packages are in the log. -/
theorem printMargin_errs_inj_fAndG :
    (printMargin fAndG (CallRelation.empty.insert 5 9 0 1)).errs ≠
      (printMargin fAndG (CallRelation.empty.insert 0 2 0 1)).errs := by
  have hspace : ∀ i j, ∀ c ∈ marginCalls (CallRelation.empty.insert i j 0 1),
      ¬ [' ', 'c'] <:+: (fAndG.name c.1).toList := by
    intro i j c hc
    cases mem_marginCalls_fAndG hc
    decide
  intro heq
  have hnames := (printMargin_errs_inj (printableMargin_fAndG 5 9) (printableMargin_fAndG 0 2)
    (hspace 5 9) (hspace 0 2)).mp heq 5 9 (by decide)
  exact absurd hnames (by decide +kernel)

/-- **The report can be read back**: two tables that are logged alike have, for each package, the
same names in the same order. -/
theorem printRootCaller_inj {ast' : ASTContext} {rf rf' : RootFunctions}
    (h : ∀ i, ∀ f ∈ rf i, Printable (ast.name f))
    (h' : ∀ i, ∀ f ∈ rf' i, Printable (ast'.name f)) :
    printRootCaller ast rf = printRootCaller ast' rf' ↔
      ∀ i, (rf i).map ast.name = (rf' i).map ast'.name := by
  have hlegible : ∀ {ast : ASTContext} {rf : RootFunctions},
      (∀ i, ∀ f ∈ rf i, Printable (ast.name f)) →
        Legible ((List.finRange packageNum).map fun i =>
          (packageHeading i, (rf i).map fun f => (ast.name f).toList)) := by
    intro ast rf h
    refine legible_map (fun i _ => ⟨isHeading_packageHeading i, noNewline_packageHeading i⟩) ?_
    intro i _ line hline
    obtain ⟨f, hf, rfl⟩ := List.mem_map.mp hline
    exact ⟨(h i f hf).noDash, (h i f hf).noNewline⟩
  have hmap : ∀ (ast : ASTContext) (fs : List Decl),
      fs.map (fun f => (ast.name f).toList) = (fs.map ast.name).map String.toList := by
    intro ast fs
    rw [List.map_map]
    rfl
  rw [← String.toList_inj, toList_printRootCaller, toList_printRootCaller]
  refine ⟨fun heq i => ?_, fun heq => ?_⟩
  · have hgroups := (hlegible h).inj (hlegible h') heq
    have hgroup := List.map_inj_left.mp hgroups i (List.mem_finRange i)
    have hnames := (Prod.mk.inj hgroup).2
    rw [hmap, hmap] at hnames
    exact List.map_injective_iff.mpr (fun _ _ hs => String.toList_inj.mp hs) hnames
  · refine congrArg (fun groups => Lines.unlines '\n' (Lines.sections groups)) ?_
    refine List.map_congr_left fun i _ => ?_
    rw [hmap, hmap, heq i]

/-- Not vacuous: whether `f` is reported in `io` or in `services` is seen in the log. -/
theorem printRootCaller_inj_fAndG :
    printRootCaller fAndG (Function.update (fun _ => []) 5 [0]) ≠
      printRootCaller fAndG (Function.update (fun _ => []) 9 [0]) := by
  have hprintable : ∀ i₀ i, ∀ f ∈ (Function.update (fun _ => []) i₀ [0] : RootFunctions) i,
      Printable (fAndG.name f) := by
    intro i₀ i f hf
    rw [Function.update_apply] at hf
    split at hf
    · cases List.mem_singleton.mp hf
      exact ⟨by decide, by decide⟩
    · cases hf
  intro heq
  have hnames := (printRootCaller_inj (hprintable 5) (hprintable 9)).mp heq 5
  exact absurd hnames (by decide +kernel)

end FindBoundary
