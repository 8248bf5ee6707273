import FindBoundary.Margin
import FindBoundary.Printing

/-!
# The text of margin.dot

`margin.dot` is a text of lines as `margin.txt` is, but with blocks: a cluster has a heading, its
functions, with the label in front of the first of them, and a brace at the end. Nothing is escaped
here either. If the names are words, the edges and the clusters can be read back, in order and with
their labels (`printMarginDot_inj`).

Between the blocks are the lines of `margin.txt`: in both files, one for each call that has been
recorded, in the same order (`CallGraph.printed_calls`). The blocks of callees are right for a
package only if it calls into no other than the last one (`printMarginDot_calleeClusters`).
-/

namespace FindBoundary

variable (ast : ASTContext)

/-- What `printMarginDot` writes, item by item. -/
def dotItems (m : FuncPackageMap) (rel : CallRelation) : List DotItem :=
  (List.finRange packageNum).flatMap fun i => (printMarginDotRow m rel i).items

namespace DotItem

/-- The first line of a cluster. -/
def openLine (package : Fin packageNum) (side : Side) : List Char :=
  's' :: ("ubgraph cluster".toList ++
    ((toString package.val).toList ++ (side.digit.toList ++ ['\x7b'])))

/-- What stands in front of the first function of a cluster. -/
def labelText (label : Option String) : List Char :=
  (label.map fun package => 'l' :: ("abel = \"".toList ++ (package.toList ++ ['"', ';']))).getD []

/-- The first line of an item. -/
def heading : DotItem → List Char
  | edge caller callee =>
    (ast.name caller).toList ++ '-' :: '>' :: ((ast.name callee).toList ++ [';'])
  | subgraph package side _ _ => openLine package side

/-- The other lines. -/
def body : DotItem → List (List Char)
  | edge .. => []
  | subgraph _ _ label [] => [labelText label ++ ['\x7d']]
  | subgraph _ _ label (f :: fs) =>
    (labelText label ++ (ast.name f).toList) ::
      (fs.map (fun f => (ast.name f).toList) ++ [['\x7d']])

/-- What can be read off an item: names instead of addresses. -/
def named : DotItem → (String × String) ⊕ (Fin packageNum × Side × Option String × List String)
  | edge caller callee => .inl (ast.name caller, ast.name callee)
  | subgraph package side label functions =>
    .inr (package, side, label, functions.map ast.name)

/-- The text of an item is that of its lines. -/
theorem toList_text (it : DotItem) :
    (it.text ast).toList = Lines.unlines '\n' (it.heading ast :: it.body ast) := by
  have hlabel : ∀ label : Option String,
      ((label.map fun package => "label = \"" ++ package ++ "\";").getD "").toList =
        labelText label := by
    intro label
    cases label with
    | none => rfl
    | some package => simp [labelText]
  have hjoin : ∀ fs : List Decl, (String.join (fs.map fun f => ast.name f ++ "\n")).toList =
      Lines.unlines '\n' (fs.map fun f => (ast.name f).toList) := by
    intro fs
    rw [String.toList_join, List.flatMap_map, Lines.unlines, List.flatMap_map]
    simp
  cases it with
  | edge caller callee =>
    have htext : (edge caller callee).text ast =
        ast.name caller ++ "->" ++ ast.name callee ++ ";\n" := rfl
    rw [htext]
    simp [heading, body, Lines.unlines]
  | subgraph package side label functions =>
    have htext : (subgraph package side label functions).text ast =
        "subgraph cluster" ++ toString package.val ++ side.digit ++ "\x7b\n" ++
          (label.map fun package => "label = \"" ++ package ++ "\";").getD "" ++
          String.join (functions.map fun f => ast.name f ++ "\n") ++ "\x7d\n" := rfl
    rw [htext, String.toList_append, String.toList_append, String.toList_append, hlabel, hjoin]
    cases functions with
    | nil => simp [heading, body, openLine, Lines.unlines]
    | cons f fs => simp [heading, body, openLine, Lines.unlines]

/-- A cluster has the group of lines that an edge has one of. -/
def group (it : DotItem) : List Char × List (List Char) := (it.heading ast, it.body ast)

end DotItem

/-- `margin.dot` is made of the groups of lines of its items. -/
theorem toList_printMarginDot (m : FuncPackageMap) (rel : CallRelation) :
    (printMarginDot m rel ast).toList = marginHead.toList ++
      (Lines.unlines '\n' (Lines.sections ((dotItems m rel).map (DotItem.group ast))) ++
        ['\x7d']) := by
  have htext : printMarginDot m rel ast = marginHead ++
      String.join ((List.finRange packageNum).map fun i =>
        String.join ((printMarginDotRow m rel i).items.map (DotItem.text ast))) ++ "\x7d" := rfl
  have hitems : (String.join ((List.finRange packageNum).map fun i =>
        String.join ((printMarginDotRow m rel i).items.map (DotItem.text ast)))).toList =
      Lines.unlines '\n' (Lines.sections ((dotItems m rel).map (DotItem.group ast))) := by
    rw [String.toList_join, List.flatMap_map, Lines.unlines, Lines.sections, List.flatMap_map,
      dotItems, List.flatMap_assoc, List.flatMap_assoc]
    refine List.flatMap_congr fun i _ => ?_
    rw [String.toList_join, List.flatMap_map]
    exact List.flatMap_congr fun it _ => it.toList_text ast
  rw [htext, String.toList_append, String.toList_append, hitems, List.append_assoc]
  simp

/-- **The clusters of callees in the file.** It is made of the rows of the packages, and the
clusters in the row of one list callees in their own packages, under their labels, exactly if from
there nothing is called but in the last package that the loop comes to. -/
theorem printMarginDot_calleeClusters {m : FuncPackageMap} {rel : CallRelation}
    (hsound : ∀ (i j : Fin packageNum) (caller callee : Decl), (rel i j)[caller]? = some callee →
      m[caller]? = some (keys i) ∧ m[callee]? = some (keys j)) :
    ∃ rows : Fin packageNum → List DotItem,
      (printMarginDot m rel ast).toList = marginHead.toList ++ (Lines.unlines '\n' (Lines.sections
        (((List.finRange packageNum).flatMap rows).map (DotItem.group ast))) ++ ['\x7d']) ∧
      ∀ i, (∀ j label functions, .subgraph j .callees label functions ∈ rows i →
          (∀ f ∈ functions, ∃ caller callee : Decl,
            (rel i j)[caller]? = some callee ∧ ast.name callee = ast.name f) ∧
          label = some (keys j) ∧ CallsInto rel i j) ↔
        ∀ j, i ≠ j → CallsInto rel i j → ∀ j', j < j' → j' = i := by
  refine ⟨fun i => (printMarginDotRow m rel i).items, toList_printMarginDot ast m rel, fun i => ?_⟩
  exact ⟨CalleeClustersRight.last hsound, CalleeClustersRight.of_last ast hsound⟩

/-! ## Items that can be read back -/

variable {ast}

/-- A name that is one word: no mark of the format is in it. -/
structure DotName (name : String) : Prop where
  nonempty : name.toList ≠ []
  noMark : ∀ c ∈ name.toList, c ≠ '\n' ∧ c ≠ ' ' ∧ c ≠ ';' ∧ c ≠ '\x7b' ∧ c ≠ '\x7d'
  noArrow : ¬ ['-', '>'] <:+: name.toList

/-- A label that does not end before it is over. -/
structure DotLabel (package : String) : Prop where
  noQuote : '"' ∉ package.toList
  noNewline : '\n' ∉ package.toList

namespace DotItem

/-- The names are words, and every cluster has a function. -/
def Readable (ast : ASTContext) : DotItem → Prop
  | edge caller callee => DotName (ast.name caller) ∧ DotName (ast.name callee)
  | subgraph _ _ label functions =>
    functions ≠ [] ∧ (∀ f ∈ functions, DotName (ast.name f)) ∧ ∀ package ∈ label, DotLabel package

/-- The first line of an item ends with a semicolon or an opening brace. -/
def IsHeading (l : List Char) : Prop := l.getLast? = some ';' ∨ l.getLast? = some '\x7b'

theorem getLast_edge (caller callee : Decl) :
    ((edge caller callee).heading ast).getLast? = some ';' := by
  have hend : (edge caller callee).heading ast =
      ((ast.name caller).toList ++ '-' :: '>' :: (ast.name callee).toList) ++ [';'] := by
    simp [heading]
  rw [hend, List.getLast?_concat]

theorem getLast_openLine (package : Fin packageNum) (side : Side) :
    (openLine package side).getLast? = some '\x7b' := by
  have hend : openLine package side = ('s' :: ("ubgraph cluster".toList ++
      ((toString package.val).toList ++ side.digit.toList))) ++ ['\x7b'] := by
    simp [openLine]
  rw [hend, List.getLast?_concat]

theorem isHeading_heading (it : DotItem) : IsHeading (it.heading ast) := by
  cases it with
  | edge caller callee => exact Or.inl (getLast_edge caller callee)
  | subgraph package side label functions => exact Or.inr (getLast_openLine package side)

/-- No line that ends with a name is a heading. -/
theorem not_isHeading_append {name : String} (h : DotName name) (front : List Char) :
    ¬ IsHeading (front ++ name.toList) := by
  obtain hnil | ⟨cs, c, hname⟩ := List.eq_nil_or_concat' name.toList
  · exact absurd hnil h.nonempty
  · have hc := h.noMark c (by simp [hname])
    rw [IsHeading, hname, ← List.append_assoc, List.getLast?_concat]
    rintro (hlast | hlast)
    · exact hc.2.2.1 (Option.some.inj hlast)
    · exact hc.2.2.2.1 (Option.some.inj hlast)

theorem Readable.body {it : DotItem} (h : it.Readable ast) : ∀ l ∈ it.body ast,
    ¬ IsHeading l ∧ '\n' ∉ l := by
  cases it with
  | edge caller callee => exact fun l hl => absurd hl List.not_mem_nil
  | subgraph package side label functions =>
    obtain ⟨hne, hnames, hlabel⟩ := h
    cases functions with
    | nil => exact absurd rfl hne
    | cons f fs =>
      have hfront : '\n' ∉ labelText label := by
        cases label with
        | none => exact List.not_mem_nil
        | some package => simp [labelText, (hlabel package rfl).noNewline]
      have hname : ∀ g ∈ f :: fs, '\n' ∉ (ast.name g).toList :=
        fun g hg hmem => ((hnames g hg).noMark _ hmem).1 rfl
      intro l hl
      rcases List.mem_cons.mp hl with rfl | hl
      · refine ⟨not_isHeading_append (hnames f List.mem_cons_self) _, ?_⟩
        simp [hfront, hname f List.mem_cons_self]
      · rcases List.mem_append.mp hl with hl | hl
        · obtain ⟨g, hg, rfl⟩ := List.mem_map.mp hl
          exact ⟨not_isHeading_append (hnames g (List.mem_cons_of_mem _ hg)) [],
            hname g (List.mem_cons_of_mem _ hg)⟩
        · rw [List.mem_singleton.mp hl]
          exact ⟨by simp [IsHeading], by simp⟩

theorem noNewline_openLine (package : Fin packageNum) (side : Side) :
    '\n' ∉ openLine package side := by
  have hdigits : '\n' ∉ Nat.toDigits 10 package.val := by
    revert package
    decide +kernel
  cases side <;> simp [openLine, Side.digit, hdigits]

theorem Readable.heading {it : DotItem} (h : it.Readable ast) : '\n' ∉ it.heading ast := by
  cases it with
  | edge caller callee =>
    have hcaller : '\n' ∉ (ast.name caller).toList := fun hmem => (h.1.noMark _ hmem).1 rfl
    have hcallee : '\n' ∉ (ast.name callee).toList := fun hmem => (h.2.noMark _ hmem).1 rfl
    simp [DotItem.heading, hcaller, hcallee]
  | subgraph package side label functions => exact noNewline_openLine package side

theorem openLine_inj {package package' : Fin packageNum} {side side' : Side}
    (h : openLine package side = openLine package' side') : package = package' ∧ side = side' := by
  have hdigits : ∀ (side side' : Side) (package package' : Fin packageNum),
      (toString package.val).toList ++ (side.digit.toList ++ ['\x7b']) =
        (toString package'.val).toList ++ (side'.digit.toList ++ ['\x7b']) →
      package = package' ∧ side = side' := by
    intro side side'
    cases side <;> cases side' <;> decide +kernel
  rw [openLine, openLine, List.cons.injEq, List.append_cancel_left_eq] at h
  exact hdigits side side' package package' h.2

/-- The name of the first function and the label can be read off their line. -/
theorem labelText_inj {label label' : Option String} {name name' : String} (h : DotName name)
    (h' : DotName name') (hlabel : ∀ package ∈ label, DotLabel package)
    (hlabel' : ∀ package ∈ label', DotLabel package)
    (heq : labelText label ++ name.toList = labelText label' ++ name'.toList) :
    label = label' ∧ name = name' := by
  -- a label has a space, and a name has none
  have hspace : ∀ {package name name' : String}, DotName name' →
      labelText (some package) ++ name.toList ≠ name'.toList := by
    intro package name name' h' heq
    have hmem : ' ' ∈ name'.toList := by
      rw [← heq]
      simp [labelText]
    exact (h'.noMark _ hmem).2.1 rfl
  cases label with
  | none =>
    cases label' with
    | none => exact ⟨rfl, String.toList_inj.mp heq⟩
    | some package' => exact absurd heq.symm (hspace h)
  | some package =>
    cases label' with
    | none => exact absurd heq (hspace h')
    | some package' =>
      simp only [labelText, Option.map_some, Option.getD_some, List.cons_append, List.cons.injEq,
        true_and, List.append_assoc, List.append_cancel_left_eq] at heq
      obtain ⟨hpackage, hrest⟩ :=
        Lines.cut_inj (hlabel package rfl).noQuote (hlabel' package' rfl).noQuote heq
      rw [String.toList_inj.mp hpackage, String.toList_inj.mp (List.cons.inj hrest).2]
      exact ⟨rfl, rfl⟩

/-- Names can be told apart as lists of characters. -/
theorem map_toList_inj {ast' : ASTContext} {fs fs' : List Decl}
    (h : fs.map (fun f => (ast.name f).toList) = fs'.map fun f => (ast'.name f).toList) :
    fs.map ast.name = fs'.map ast'.name :=
  Lines.map_eq_of_map_eq (fun _ _ _ _ heq => String.toList_inj.mp heq) h

/-- What an item says can be read off its lines. -/
theorem Readable.named_eq {ast' : ASTContext} {it it' : DotItem} (h : it.Readable ast)
    (h' : it'.Readable ast') (heq : it.group ast = it'.group ast') :
    it.named ast = it'.named ast' := by
  obtain ⟨hheading, hbody⟩ := Prod.mk.inj heq
  -- an edge has an end that a cluster does not have
  have hend : ∀ {ast : ASTContext} {caller callee : Decl} {package : Fin packageNum} {side : Side},
      (edge caller callee).heading ast ≠ openLine package side := by
    intro ast caller callee package side heq
    have hlast := (getLast_edge caller callee).symm.trans
      ((congrArg List.getLast? heq).trans (getLast_openLine package side))
    exact absurd (Option.some.inj hlast) (by decide)
  cases it with
  | edge caller callee =>
    cases it' with
    | edge caller' callee' =>
      obtain ⟨hcaller, hcallee⟩ :=
        Lines.fields_inj (by decide) h.1.noArrow h'.1.noArrow hheading
      rw [named, named, String.toList_inj.mp hcaller,
        String.toList_inj.mp (List.append_cancel_right hcallee)]
    | subgraph package' side' label' functions' => exact absurd hheading hend
  | subgraph package side label functions =>
    cases it' with
    | edge caller' callee' => exact absurd hheading.symm hend
    | subgraph package' side' label' functions' =>
      obtain ⟨rfl, rfl⟩ := openLine_inj hheading
      obtain ⟨hne, hnames, hlabel⟩ := h
      obtain ⟨hne', hnames', hlabel'⟩ := h'
      cases functions with
      | nil => exact absurd rfl hne
      | cons f fs =>
        cases functions' with
        | nil => exact absurd rfl hne'
        | cons f' fs' =>
          obtain ⟨hfirst, hrest⟩ := List.cons.inj hbody
          obtain ⟨rfl, hname⟩ := labelText_inj (hnames f List.mem_cons_self)
            (hnames' f' List.mem_cons_self) hlabel hlabel' hfirst
          rw [named, named, List.map_cons, List.map_cons, hname,
            map_toList_inj (List.append_cancel_right hrest)]

/-- What an item says decides its lines. -/
theorem group_eq_of_named {ast' : ASTContext} {it it' : DotItem}
    (h : it.named ast = it'.named ast') : it.group ast = it'.group ast' := by
  cases it with
  | edge caller callee =>
    cases it' with
    | edge caller' callee' =>
      obtain ⟨hcaller, hcallee⟩ := Prod.mk.inj (Sum.inl.inj h)
      rw [group, group, heading, heading, hcaller, hcallee]
      rfl
    | subgraph package' side' label' functions' => cases h
  | subgraph package side label functions =>
    cases it' with
    | edge caller' callee' => cases h
    | subgraph package' side' label' functions' =>
      simp only [named, Sum.inr.injEq, Prod.mk.injEq] at h
      obtain ⟨rfl, rfl, rfl, hnames⟩ := h
      have hbody : (subgraph package side label functions).body ast =
          (subgraph package side label functions').body ast' := by
        cases functions with
        | nil =>
          rw [List.map_nil, eq_comm, List.map_eq_nil_iff] at hnames
          rw [hnames]
          rfl
        | cons f fs =>
          cases functions' with
          | nil => cases hnames
          | cons f' fs' =>
            obtain ⟨hname, hrest⟩ := List.cons.inj hnames
            have hlines : fs.map (fun f => (ast.name f).toList) =
                fs'.map fun f => (ast'.name f).toList :=
              Lines.map_eq_of_map_eq (fun _ _ _ _ heq => congrArg String.toList heq) hrest
            simp only [body]
            rw [hname, hlines]
      exact Prod.ext rfl hbody

end DotItem

/-! ## The items of a run -/

/-- The names of the calls are words, and so are the packages as labels. -/
structure PrintableDot (ast : ASTContext) (m : FuncPackageMap) (rel : CallRelation) : Prop where
  calls : ∀ c ∈ marginCalls rel, DotName (ast.name c.1) ∧ DotName (ast.name c.2)
  packages : ∀ (D : Decl) (package : String), m[D]? = some package → DotLabel package

/-- What the loops have collected and written can be read back. -/
structure DotRow.Readable (ast : ASTContext) (row : DotRow) : Prop where
  callers : ∀ f ∈ row.callers, DotName (ast.name f)
  callees : ∀ f ∈ row.callees, DotName (ast.name f)
  items : ∀ it ∈ row.items, it.Readable ast

theorem DotRow.Readable.printEdge {row : DotRow} (h : row.Readable ast) {iter : Decl × Decl}
    (hcaller : DotName (ast.name iter.1)) (hcallee : DotName (ast.name iter.2)) :
    (row.printEdge iter).Readable ast := by
  constructor
  case callers =>
    intro f hf
    rcases List.mem_append.mp hf with hf | hf
    · exact h.callers f hf
    · rw [List.mem_singleton.mp hf]
      exact hcaller
  case callees =>
    intro f hf
    rcases List.mem_append.mp hf with hf | hf
    · exact h.callees f hf
    · rw [List.mem_singleton.mp hf]
      exact hcallee
  case items =>
    intro it hit
    rcases List.mem_append.mp hit with hit | hit
    · exact h.items it hit
    · rw [List.mem_singleton.mp hit]
      exact ⟨hcaller, hcallee⟩

theorem DotRow.Readable.printClusters {row : DotRow} (h : row.Readable ast) {m : FuncPackageMap}
    (hm : ∀ (D : Decl) (package : String), m[D]? = some package → DotLabel package)
    (i j : Fin packageNum) : (row.printClusters m i j).Readable ast := by
  have hlabel : ∀ fs, ∀ package ∈ DotRow.label m fs, DotLabel package := by
    intro fs package hpackage
    obtain ⟨f, -, hf⟩ := Option.bind_eq_some_iff.mp hpackage
    exact hm f package hf
  rw [DotRow.printClusters]
  split
  · exact h
  · rename_i hne
    simp only [Bool.or_eq_true, List.isEmpty_iff, not_or] at hne
    refine ⟨h.callers, h.callees, fun it hit => ?_⟩
    rcases List.mem_append.mp hit with hit | hit
    · exact h.items it hit
    · rcases List.mem_cons.mp hit with rfl | hit
      · exact ⟨hne.1, h.callers, hlabel _⟩
      · rw [List.mem_singleton.mp hit]
        exact ⟨hne.2, h.callees, hlabel _⟩

/-- Everything that is written can be read back. -/
theorem PrintableDot.readable {m : FuncPackageMap} {rel : CallRelation}
    (h : PrintableDot ast m rel) : ∀ it ∈ dotItems m rel, it.Readable ast := by
  have hbody : ∀ (i j : Fin packageNum) (row : DotRow), row.Readable ast →
      (printMarginDotBody m rel i row j).Readable ast := by
    intro i j row hrow
    simp only [printMarginDotBody]
    split
    · exact hrow
    · rename_i hij
      have hedges : ((rel i j).toList.foldl DotRow.printEdge row).Readable ast := by
        refine List.foldlRecOn _ _ hrow fun row hrow iter hiter => ?_
        have hcall := h.calls iter (mem_marginCalls_of_mem (mem_packagePairs.mpr hij) hiter)
        exact hrow.printEdge hcall.1 hcall.2
      exact hedges.printClusters h.packages i j
  intro it hit
  obtain ⟨i, -, hit⟩ := List.mem_flatMap.mp hit
  have hrow : (printMarginDotRow m rel i).Readable ast :=
    List.foldlRecOn _ _ ⟨fun _ hf => absurd hf List.not_mem_nil,
      fun _ hf => absurd hf List.not_mem_nil, fun _ hit => absurd hit List.not_mem_nil⟩
      fun row hrow j _ => hbody i j row hrow
  exact hrow.items it hit

/-- Items that can be read back are legible groups. -/
theorem dotItems_legible {items : List DotItem} (h : ∀ it ∈ items, it.Readable ast) :
    (Lines.Headed DotItem.IsHeading (items.map (DotItem.group ast))) ∧
      ∀ l ∈ Lines.sections (items.map (DotItem.group ast)), '\n' ∉ l := by
  refine ⟨fun g hg => ?_, fun l hl => ?_⟩
  · obtain ⟨it, hit, rfl⟩ := List.mem_map.mp hg
    exact ⟨it.isHeading_heading, fun l hl => ((h it hit).body l hl).1⟩
  · rw [Lines.sections, List.flatMap_map, List.mem_flatMap] at hl
    obtain ⟨it, hit, hl⟩ := hl
    rcases List.mem_cons.mp hl with rfl | hl
    · exact (h it hit).heading
    · exact ((h it hit).body l hl).2

/-- **The file can be read back**: two files `margin.dot` are the same exactly if they have the same
edges and clusters, in the same order, with the same labels and functions of the same names. -/
theorem printMarginDot_inj {ast' : ASTContext} {m m' : FuncPackageMap} {rel rel' : CallRelation}
    (h : PrintableDot ast m rel) (h' : PrintableDot ast' m' rel') :
    printMarginDot m rel ast = printMarginDot m' rel' ast' ↔
      (dotItems m rel).map (DotItem.named ast) = (dotItems m' rel').map (DotItem.named ast') := by
  refine ⟨fun heq => ?_, fun heq => ?_⟩
  · rw [← String.toList_inj, toList_printMarginDot, toList_printMarginDot,
      List.append_cancel_left_eq] at heq
    obtain ⟨hheaded, hone⟩ := dotItems_legible h.readable
    obtain ⟨hheaded', hone'⟩ := dotItems_legible h'.readable
    have hend : '\n' ∉ ['\x7d'] := by decide
    obtain ⟨hlines, -⟩ := Lines.unlines_inj hend hend hone hone' heq
    have hgroups := Lines.sections_inj hheaded hheaded' hlines
    exact Lines.map_eq_of_map_eq (fun it hit it' hit' hgroup =>
      (h.readable it hit).named_eq (h'.readable it' hit') hgroup) hgroups
  · have hgroups := Lines.map_eq_of_map_eq
      (fun it _ it' _ hnamed => DotItem.group_eq_of_named hnamed) heq
    rw [← String.toList_inj, toList_printMarginDot, toList_printMarginDot, hgroups]

theorem dotName_fAndG : DotName (fAndG.name 0) ∧ DotName (fAndG.name 1) := by
  have hf : (fAndG.name 0).toList = ['f'] := by decide
  have hg : (fAndG.name 1).toList = ['g'] := by decide
  constructor
  · exact ⟨by rw [hf]; decide, by simp [hf], by rw [hf]; decide⟩
  · exact ⟨by rw [hg]; decide, by simp [hg], by rw [hg]; decide⟩

theorem printableDot_fAndG (i j : Fin packageNum) :
    PrintableDot fAndG ∅ (CallRelation.empty.insert i j 0 1) := by
  constructor
  case calls =>
    intro c hc
    cases mem_marginCalls_fAndG hc
    exact dotName_fAndG
  case packages =>
    intro D package hpackage
    rw [Std.TreeMap.getElem?_emptyc] at hpackage
    cases hpackage

/-- Not vacuous: here the packages are in the file, in the numbers of the clusters. -/
theorem printMarginDot_inj_fAndG :
    printMarginDot ∅ (CallRelation.empty.insert 5 9 0 1) fAndG ≠
      printMarginDot ∅ (CallRelation.empty.insert 0 2 0 1) fAndG := by
  intro heq
  have hitems := (printMarginDot_inj (printableDot_fAndG 5 9) (printableDot_fAndG 0 2)).mp heq
  exact absurd hitems (by decide +kernel)

/-! ## The calls in the files -/

/-- The call of a line of `margin.dot`; a cluster has none. -/
def DotItem.call? : DotItem → Option (Decl × Decl)
  | edge caller callee => some (caller, callee)
  | subgraph .. => none

/-- The line of a call is the one it has in `margin.txt`. -/
theorem DotItem.group_of_call {it : DotItem} {c : Decl × Decl} (hc : it.call? = some c) :
    it.group ast = (callLine ast c, []) := by
  cases it with
  | edge caller callee =>
    cases hc
    rfl
  | subgraph package side label functions => cases hc

/-- A turn of the inner loop adds the calls of one entry of `callRelation`. -/
theorem calls_printMarginDotBody (m : FuncPackageMap) (rel : CallRelation) (i j : Fin packageNum)
    (row : DotRow) : (printMarginDotBody m rel i row j).items.filterMap DotItem.call? =
      row.items.filterMap DotItem.call? ++ if i = j then [] else (rel i j).toList := by
  have hedges : ∀ (entries : List (Decl × Decl)) (row : DotRow),
      (entries.foldl DotRow.printEdge row).items.filterMap DotItem.call? =
        row.items.filterMap DotItem.call? ++ entries := by
    intro entries
    induction entries with
    | nil => exact fun row => (List.append_nil _).symm
    | cons iter entries ih =>
      intro row
      rw [List.foldl_cons, ih, DotRow.printEdge, List.filterMap_append, List.append_assoc]
      rfl
  have hclusters : ∀ row : DotRow, (row.printClusters m i j).items.filterMap DotItem.call? =
      row.items.filterMap DotItem.call? := by
    intro row
    rw [DotRow.printClusters]
    split
    · rfl
    · rw [List.filterMap_append]
      exact List.append_nil _
  simp only [printMarginDotBody]
  split
  · exact (List.append_nil _).symm
  · rw [hclusters, hedges]

/-- Both files have the same calls. -/
theorem calls_dotItems (m : FuncPackageMap) (rel : CallRelation) :
    (dotItems m rel).filterMap DotItem.call? = marginCalls rel := by
  rw [dotItems, List.filterMap_flatMap, marginCalls,
    ← flatMap_packagePairs fun i j => (rel i j).toList]
  refine List.flatMap_congr fun i _ => ?_
  exact Lines.foldl_appends (fun row : DotRow => row.items.filterMap DotItem.call?)
    (fun row j => calls_printMarginDotBody m rel i j row) (List.finRange packageNum) {}

theorem mem_marginCalls {rel : CallRelation} {caller callee : Decl} :
    (caller, callee) ∈ marginCalls rel ↔ ∃ i j, i ≠ j ∧ (rel i j)[caller]? = some callee := by
  simp only [marginCalls, List.mem_flatMap, Prod.exists, mem_packagePairs,
    Std.TreeMap.mem_toList_iff_getElem?_eq_some]

namespace CallGraph

variable {G : CallGraph} {m : FuncPackageMap} {fuel : ℕ} {rel : CallRelation}

/-- No call is recorded twice. -/
theorem nodup_marginCalls
    (hret : (G.findMargin ast m).descend fuel G.root CallRelation.empty = .ok rel) :
    (marginCalls rel).Nodup := by
  have honly := onlyFirst_findMargin onlyFirst_empty hret
  refine List.nodup_flatMap.mpr ⟨fun ij _ => ?_, ?_⟩
  · refine List.Nodup.of_map Prod.fst ?_
    rw [Std.TreeMap.map_fst_toList_eq_keys]
    exact Std.TreeMap.nodup_keys
  · -- an entry of two tables would cross between two pairs of packages
    refine nodup_packagePairs.imp fun {ij ij'} hne call hcall hcall' => hne ?_
    obtain ⟨p, c, -, hX⟩ := honly ij.1 ij.2 call.1 call.2
      (Std.TreeMap.mem_toList_iff_getElem?_eq_some.mp hcall)
    obtain ⟨p', c', -, hX'⟩ := honly ij'.1 ij'.2 call.1 call.2
      (Std.TreeMap.mem_toList_iff_getElem?_eq_some.mp hcall')
    refine Prod.ext (keys_inj ?_) (keys_inj ?_)
    · exact Option.some.inj (hX.callerPackage.symm.trans hX'.callerPackage)
    · exact Option.some.inj (hX.calleePackage.symm.trans hX'.calleePackage)

/-- What is recorded are the first crossings. -/
theorem WF.mem_marginCalls_iff (h : WF G)
    (hret : (G.findMargin ast m).descend fuel G.root CallRelation.empty = .ok rel)
    {caller callee : Decl} : (caller, callee) ∈ marginCalls rel ↔
      ∃ p c i j, G.FirstCrossing ast m p c i j ∧ G.Crosses ast m p c i j caller callee := by
  rw [mem_marginCalls]
  refine ⟨?_, ?_⟩
  · rintro ⟨i, j, -, hcall⟩
    obtain ⟨p, c, hfirst, hX⟩ := onlyFirst_findMargin onlyFirst_empty hret i j caller callee hcall
    exact ⟨p, c, i, j, hfirst, hX⟩
  · rintro ⟨p, c, i, j, hfirst, hX⟩
    obtain ⟨done, rest, hsplit, -⟩ := id hfirst
    have hc : c ∈ G.callees p := hsplit ▸ List.mem_append_right _ (List.mem_cons_self ..)
    exact ⟨i, j, hX.package_ne, (h.getElem?_findMargin_iff hret hc hX).mpr hfirst⟩

/-- **The calls that are printed.** There is a list of calls, which has each call that is the first
of its caller to cross between two packages, once, and no other; `margin.txt` has a line for each of
them, and `margin.dot` has the same lines in the same order, between the blocks of the clusters. -/
theorem printed_calls (h : WF G)
    (hret : (G.findMargin ast m).descend fuel G.root CallRelation.empty = .ok rel) :
    ∃ calls : List (Decl × Decl), calls.Nodup ∧
      (∀ caller callee, (caller, callee) ∈ calls ↔
        ∃ p c i j, G.FirstCrossing ast m p c i j ∧ G.Crosses ast m p c i j caller callee) ∧
      (printMargin ast rel).margin.toList = marginHead.toList ++
        (Lines.unlines '\n' (calls.map (callLine ast)) ++ ['\x7d']) ∧
      ∃ items : List DotItem, items.filterMap DotItem.call? = calls ∧
        (∀ it ∈ items, ∀ c, it.call? = some c → it.group ast = (callLine ast c, [])) ∧
        (printMarginDot m rel ast).toList = marginHead.toList ++
          (Lines.unlines '\n' (Lines.sections (items.map (DotItem.group ast))) ++ ['\x7d']) :=
  ⟨marginCalls rel, nodup_marginCalls hret, fun _ _ => h.mem_marginCalls_iff hret,
    toList_printMargin_margin ast rel, dotItems m rel, calls_dotItems m rel,
    fun _ _ _ hc => DotItem.group_of_call hc, toList_printMarginDot ast m rel⟩

/-- Not vacuous: of the two calls of `read`, the first is printed. -/
theorem printed_calls_twoCallees : ∃ (rel : CallRelation) (calls : List (Decl × Decl)),
    (rel 2 5)[0]? = some 1 ∧ (0, 1) ∈ calls ∧ calls.Nodup ∧
    (printMargin twoCallees rel).margin.toList = marginHead.toList ++
      (Lines.unlines '\n' (calls.map (callLine twoCallees)) ++ ['\x7d']) := by
  obtain ⟨rel, hret, hE⟩ := findMargin_twoCallees
  obtain ⟨calls, hnodup, hcalls, htext, -⟩ :=
    printed_calls (wf_ofUnits twoCallees [[1, 2, 0]]) hret
  have hcallees : (ofUnits twoCallees [[1, 2, 0]]).callees 3 = [1, 2] := by decide +kernel
  have hfirst : (ofUnits twoCallees [[1, 2, 0]]).FirstCrossing twoCallees twoCalleesPackages
      3 1 2 5 := ⟨[], [2], hcallees, fun c' hc' => absurd hc' List.not_mem_nil⟩
  have hcall : (0, 1) ∈ calls :=
    (hcalls 0 1).mpr ⟨3, 1, 2, 5, hfirst, crosses_twoCallees 1 1 (by decide)⟩
  exact ⟨rel, calls, hE, hcall, hnodup, htext⟩

end CallGraph

end FindBoundary
