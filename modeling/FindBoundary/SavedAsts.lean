import FindBoundary.Writes
import Mathlib.Data.List.Forall2

/-!
# The saved ASTs

`main` turns every source path into the name of a file, runs the tool, and then loads the files in
the order of the paths. In the run, `HandleTranslationUnit` saves the AST of every translation unit
in the file where the global iterator `file_it` stands, and moves the iterator on; it does not look
at the source that the unit is of. So the writer goes by the number of calls and the reader goes by
the names, and these agree only if the calls are in step with the paths (`savedRight_iff`).
-/

namespace FindBoundary

/-! ## The run of the tool -/

/-- The AST of a source by one of its compile commands. -/
structure TranslationUnit where
  source : String
  command : ℕ
deriving Repr, DecidableEq

/-- A source on the command line, with the number of calls for it: one for every compile command,
and none if there is no compile command. -/
structure SourcePath where
  path : String
  commands : ℕ
deriving Repr, DecidableEq

/-- `op.getSourcePathList()`. -/
def getSourcePathList (sources : List SourcePath) : List String := sources.map SourcePath.path

/-- The calls for a source. -/
def SourcePath.translationUnits (s : SourcePath) : List TranslationUnit :=
  (List.range s.commands).map fun command => ⟨s.path, command⟩

/-- The calls of the tool, in the order of the command line. -/
def translationUnits (sources : List SourcePath) : List TranslationUnit :=
  sources.flatMap SourcePath.translationUnits

/-- The global vector `files`. -/
def files (sources : List SourcePath) : List String :=
  (getSourcePathList sources).map (· ++ ".ast")

/-- The iterator `file_it`, and what has been saved in the files. -/
structure SavedFiles where
  fileIt : ℕ
  saved : String → Option TranslationUnit

namespace SavedFiles

/-- `file_it = files.begin()`, when nothing has been saved. -/
def start : SavedFiles := ⟨0, fun _ => none⟩

/-- `Unit->Save(file)`. -/
def save (saved : String → Option TranslationUnit) (file : String) (unit : TranslationUnit) :
    String → Option TranslationUnit :=
  Function.update saved file (some unit)

/-- `MyASTConsumer::HandleTranslationUnit`. -/
def handleTranslationUnit (files : List String) (s : SavedFiles) (unit : TranslationUnit) :
    SavedFiles :=
  match files[s.fileIt]? with
  | none => s
  | some file => ⟨s.fileIt + 1, save s.saved file unit⟩

/-- `tool.run`. -/
def run (sources : List SourcePath) : SavedFiles :=
  (translationUnits sources).foldl (handleTranslationUnit (files sources)) start

/-- `ASTUnit::LoadFromASTFile`. A file that the run has not saved may be there from before. -/
def loadFromASTFile (s : SavedFiles) (old : String → Option TranslationUnit) (file : String) :
    Option TranslationUnit :=
  (s.saved file).or (old file)

/-- The loop of `main` that fills `Units`. It gives up at a file that cannot be loaded. -/
def loadUnits (s : SavedFiles) (old : String → Option TranslationUnit) (files : List String) :
    Option (List TranslationUnit) :=
  files.mapM (s.loadFromASTFile old)

end SavedFiles

/-- What has been saved in the file of a source is an AST of that source. -/
def SavedRight (sources : List SourcePath) : Prop :=
  ∀ source ∈ getSourcePathList sources, ∀ unit,
    (SavedFiles.run sources).saved (source ++ ".ast") = some unit → unit.source = source

/-! ## The last call for a file stands -/

/-- The paths of the files that are saved, with the units that are saved in them. -/
def savedPairs (sources : List SourcePath) : List (String × TranslationUnit) :=
  (getSourcePathList sources).zip (translationUnits sources)

/-- The paths of the saved files are on the command line, in the same order. -/
theorem map_fst_zip_sublist (paths : List String) :
    ∀ units : List TranslationUnit, ((paths.zip units).map Prod.fst).Sublist paths := by
  induction paths with
  | nil => exact fun _ => List.Sublist.slnil
  | cons path paths ih =>
    intro units
    cases units with
    | nil => exact List.nil_sublist _
    | cons unit units => exact (ih units).cons_cons path

namespace SavedFiles

/-- The iterator takes the units to the files that are left. -/
theorem saved_foldl_handleTranslationUnit (files : List String) (units : List TranslationUnit) :
    ∀ s : SavedFiles, (units.foldl (handleTranslationUnit files) s).saved =
      Writes.perform ((files.drop s.fileIt).zip units) s.saved := by
  induction units with
  | nil =>
    intro s
    rw [List.zip_nil_right]
    rfl
  | cons unit units ih =>
    intro s
    rw [List.foldl_cons, ih, handleTranslationUnit]
    split
    · rename_i hend
      rw [List.drop_eq_nil_of_le (List.getElem?_eq_none_iff.mp hend)]
      rfl
    · rename_i file hfile
      obtain ⟨hlt, rfl⟩ := List.getElem?_eq_some_iff.mp hfile
      rw [List.drop_eq_getElem_cons hlt]
      rfl

/-- The file of a source holds the unit of the last call that gets to the file. -/
theorem run_saved_eq_some_iff {sources : List SourcePath} {source : String}
    {unit : TranslationUnit} :
    (run sources).saved (source ++ ".ast") = some unit ↔
      Writes.Stands (savedPairs sources) source unit := by
  have hfile : Function.Injective (· ++ ".ast" : String → String) :=
    fun _ _ h => (String.append_left_inj _).mp h
  have hrun : (run sources).saved =
      Writes.perform ((savedPairs sources).map (Prod.map (· ++ ".ast") id)) fun _ => none := by
    rw [run, saved_foldl_handleTranslationUnit, savedPairs, ← List.zip_map_left]
    rfl
  rw [hrun, Writes.perform_map hfile (savedPairs sources) source, Writes.perform_empty_eq_some_iff]

end SavedFiles

/-- The saved files are right if the last call for each of them is for its source. -/
theorem savedRight_iff_stands (sources : List SourcePath) :
    SavedRight sources ↔ ∀ source unit, Writes.Stands (savedPairs sources) source unit →
      unit.source = source := by
  constructor
  · intro h source unit hstands
    exact h source (List.of_mem_zip hstands.mem).1 unit
      (SavedFiles.run_saved_eq_some_iff.mpr hstands)
  · intro h source _ unit hsaved
    exact h source unit (SavedFiles.run_saved_eq_some_iff.mp hsaved)

/-! ## Paths that are all different -/

/-- Every call is for the path of its file. -/
def InStep (sources : List SourcePath) : Prop :=
  ∀ p ∈ savedPairs sources, p.2.source = p.1

/-- If the paths are different then every call is the last one for its file. -/
theorem savedRight_iff_inStep {sources : List SourcePath}
    (hpaths : (getSourcePathList sources).Nodup) : SavedRight sources ↔ InStep sources := by
  have hkeys : ((savedPairs sources).map Prod.fst).Nodup :=
    hpaths.sublist (map_fst_zip_sublist _ (translationUnits sources))
  rw [savedRight_iff_stands]
  constructor
  · rintro h ⟨source, unit⟩ hpair
    exact h source unit ((Writes.stands_iff_mem hkeys).mpr hpair)
  · intro h source unit hstands
    exact h (source, unit) hstands.mem

/-! ## Sources that are handled once -/

theorem translationUnits_cons (s : SourcePath) (sources : List SourcePath) :
    translationUnits (s :: sources) = s.translationUnits ++ translationUnits sources :=
  List.flatMap_cons

/-- A call is for a source on the command line. -/
theorem source_mem_of_mem_translationUnits {sources : List SourcePath} {unit : TranslationUnit}
    (h : unit ∈ translationUnits sources) : unit.source ∈ getSourcePathList sources := by
  obtain ⟨s, hs, hunit⟩ := List.mem_flatMap.mp h
  obtain ⟨command, _, rfl⟩ := List.mem_map.mp hunit
  exact List.mem_map_of_mem hs

theorem translationUnits_eq_nil_iff {sources : List SourcePath} :
    translationUnits sources = [] ↔ ∀ s ∈ sources, s.commands = 0 := by
  simp [translationUnits, SourcePath.translationUnits, List.flatMap_eq_nil_iff]

/-- A source that is handled again. -/
theorem exists_translationUnits_of_two_le {s : SourcePath} (h : 2 ≤ s.commands) :
    ∃ units, s.translationUnits = ⟨s.path, 0⟩ :: ⟨s.path, 1⟩ :: units := by
  obtain ⟨n, hn⟩ := Nat.exists_eq_add_of_le' h
  rw [SourcePath.translationUnits, hn, List.range_succ_eq_map, List.range_succ_eq_map]
  exact ⟨_, rfl⟩

/-- The sources begin with some that are handled once each. Behind these no source is handled, or
there is only one source. -/
def HandledOnce (sources : List SourcePath) : Prop :=
  ∃ handled rest, sources = handled ++ rest ∧ (∀ s ∈ handled, s.commands = 1) ∧
    ((∀ s ∈ rest, s.commands = 0) ∨ ∃ s, rest = [s])

section HandledOnce

variable {s : SourcePath} {sources : List SourcePath}

theorem handledOnce_cons_of_eq_one (hs : s.commands = 1) :
    HandledOnce (s :: sources) ↔ HandledOnce sources := by
  constructor
  · rintro ⟨handled, rest, hsplit, hhandled, hrest⟩
    cases handled with
    | nil =>
      rw [List.nil_append] at hsplit
      subst hsplit
      rcases hrest with hzero | ⟨t, ht⟩
      · exact absurd (hs.symm.trans (hzero s List.mem_cons_self)) Nat.one_ne_zero
      · obtain ⟨rfl, rfl⟩ := List.cons.inj ht
        exact ⟨[], [], rfl, by simp, Or.inl (by simp)⟩
    | cons t handled =>
      obtain ⟨rfl, hsplit'⟩ := List.cons.inj hsplit
      exact ⟨handled, rest, hsplit', fun t ht => hhandled t (List.mem_cons_of_mem _ ht), hrest⟩
  · rintro ⟨handled, rest, rfl, hhandled, hrest⟩
    exact ⟨s :: handled, rest, rfl, by simpa using ⟨hs, hhandled⟩, hrest⟩

theorem handledOnce_cons_of_ne_one (hs : s.commands ≠ 1) :
    HandledOnce (s :: sources) ↔ (∀ t ∈ s :: sources, t.commands = 0) ∨ sources = [] := by
  constructor
  · rintro ⟨handled, rest, hsplit, hhandled, hrest⟩
    cases handled with
    | nil =>
      rw [List.nil_append] at hsplit
      subst hsplit
      exact hrest.imp_right fun ⟨t, ht⟩ => (List.cons.inj ht).2
    | cons t handled =>
      obtain ⟨rfl, _⟩ := List.cons.inj hsplit
      exact absurd (hhandled s List.mem_cons_self) hs
  · rintro (hzero | rfl)
    · exact ⟨[], s :: sources, rfl, by simp, Or.inl hzero⟩
    · exact ⟨[], [s], rfl, by simp, Or.inr ⟨s, rfl⟩⟩

/-- After a source that is handled once, the files and the calls go on with the next one. -/
theorem inStep_cons_of_eq_one (hs : s.commands = 1) : InStep (s :: sources) ↔ InStep sources := by
  have hpairs : savedPairs (s :: sources) = (s.path, ⟨s.path, 0⟩) :: savedPairs sources := by
    rw [savedPairs, translationUnits_cons, SourcePath.translationUnits, hs]
    rfl
  simp [InStep, hpairs]

/-- After a source that is skipped, every call is out of step. -/
theorem InStep.translationUnits_eq_nil (h : InStep (s :: sources))
    (hnot : s.path ∉ getSourcePathList sources) (hs : s.commands = 0) :
    translationUnits (s :: sources) = [] := by
  have hskip : translationUnits (s :: sources) = translationUnits sources := by
    rw [translationUnits_cons, SourcePath.translationUnits, hs]
    rfl
  rw [hskip]
  cases hunits : translationUnits sources with
  | nil => rfl
  | cons unit units =>
    have hpair : (s.path, unit) ∈ savedPairs (s :: sources) := by
      rw [savedPairs, hskip, hunits]
      exact List.mem_cons_self
    have hsource : unit.source = s.path := h _ hpair
    have hunit : unit ∈ translationUnits sources := hunits ▸ List.mem_cons_self
    exact absurd (hsource ▸ source_mem_of_mem_translationUnits hunit) hnot

/-- After a source that is handled again, every file is out of step. -/
theorem InStep.eq_nil (h : InStep (s :: sources)) (hnot : s.path ∉ getSourcePathList sources)
    (hs : 2 ≤ s.commands) : sources = [] := by
  obtain ⟨units, hunits⟩ := exists_translationUnits_of_two_le hs
  cases sources with
  | nil => rfl
  | cons t sources =>
    have hpair : (t.path, ⟨s.path, 1⟩) ∈ savedPairs (s :: t :: sources) := by
      rw [savedPairs, translationUnits_cons, hunits]
      exact List.mem_cons_of_mem _ List.mem_cons_self
    have hpath : s.path = t.path := h _ hpair
    exact absurd (hpath ▸ List.mem_cons_self) hnot

theorem inStep_cons_of_ne_one (hpaths : (getSourcePathList (s :: sources)).Nodup)
    (hs : s.commands ≠ 1) :
    InStep (s :: sources) ↔ (∀ t ∈ s :: sources, t.commands = 0) ∨ sources = [] := by
  have hnot : s.path ∉ getSourcePathList sources := (List.nodup_cons.mp hpaths).1
  constructor
  · intro h
    rcases Nat.lt_or_gt_of_ne hs with hskipped | hagain
    · have hzero : s.commands = 0 := by omega
      exact Or.inl (translationUnits_eq_nil_iff.mp (h.translationUnits_eq_nil hnot hzero))
    · exact Or.inr (h.eq_nil hnot hagain)
  · rintro (hzero | rfl)
    · rw [← translationUnits_eq_nil_iff] at hzero
      rw [InStep, savedPairs, hzero, List.zip_nil_right]
      exact fun p hp => absurd hp List.not_mem_nil
    · rintro ⟨source, unit⟩ hpair
      obtain ⟨hsource, hunit⟩ := List.of_mem_zip hpair
      have hunit' := source_mem_of_mem_translationUnits hunit
      rw [getSourcePathList, List.map_singleton, List.mem_singleton] at hsource hunit'
      exact hunit'.trans hsource.symm

theorem inStep_iff_handledOnce (hpaths : (getSourcePathList sources).Nodup) :
    InStep sources ↔ HandledOnce sources := by
  induction sources with
  | nil =>
    have hin : InStep [] := fun p hp => absurd hp (List.not_mem_nil)
    exact iff_of_true hin ⟨[], [], rfl, by simp, Or.inl (by simp)⟩
  | cons s sources ih =>
    by_cases hs : s.commands = 1
    · rw [inStep_cons_of_eq_one hs, handledOnce_cons_of_eq_one hs]
      exact ih (List.nodup_cons.mp hpaths).2
    · rw [inStep_cons_of_ne_one hpaths hs, handledOnce_cons_of_ne_one hs]

end HandledOnce

/-! ## The loaded units -/

/-- The units are loaded in the order of the files. -/
theorem SavedFiles.forall₂_of_loadUnits {t : SavedFiles} {old : String → Option TranslationUnit}
    {R : String → TranslationUnit → Prop} {paths : List String} :
    ∀ {units}, (∀ source ∈ paths, ∀ unit,
        t.loadFromASTFile old (source ++ ".ast") = some unit → R source unit) →
      t.loadUnits old (paths.map (· ++ ".ast")) = some units → List.Forall₂ R paths units := by
  induction paths with
  | nil =>
    intro units _ hload
    obtain rfl : [] = units := Option.some.inj hload
    exact List.Forall₂.nil
  | cons source paths ih =>
    intro units h hload
    rw [loadUnits, List.map_cons, List.mapM_cons] at hload
    obtain ⟨unit, hunit, hload⟩ := Option.bind_eq_some_iff.mp hload
    obtain ⟨rest, hrest, hload⟩ := Option.bind_eq_some_iff.mp hload
    obtain rfl : unit :: rest = units := Option.some.inj hload
    exact List.Forall₂.cons (h source List.mem_cons_self unit hunit)
      (ih (fun s hs => h s (List.mem_cons_of_mem _ hs)) hrest)

/-- If the files are saved right, then what `main` loads from a saved file is of its source. -/
theorem SavedRight.forall₂_loadUnits {sources : List SourcePath} (h : SavedRight sources)
    {old : String → Option TranslationUnit} {units : List TranslationUnit}
    (hload : (SavedFiles.run sources).loadUnits old (files sources) = some units) :
    List.Forall₂ (fun source unit =>
      ((SavedFiles.run sources).saved (source ++ ".ast")).isSome → unit.source = source)
      (getSourcePathList sources) units := by
  refine SavedFiles.forall₂_of_loadUnits ?_ hload
  intro source hsource unit hunit hsaved
  obtain ⟨saved, hsome⟩ := Option.isSome_iff_exists.mp hsaved
  rw [SavedFiles.loadFromASTFile, hsome, Option.some_or] at hunit
  exact h source hsource unit (hsome.trans hunit)

/-- **When the saved ASTs are right.** In general, they are right if, for the last of the calls that
get to a file, the call is for the path of the file. If the paths are all different, this says that
the sources begin with some that have one compile command each, and that no source is handled behind
these or only one source is left. -/
theorem savedRight_iff (sources : List SourcePath) :
    (SavedRight sources ↔ ∀ before source unit after,
      (getSourcePathList sources).zip (translationUnits sources) =
        before ++ (source, unit) :: after →
      source ∉ after.map Prod.fst → unit.source = source) ∧
    ((getSourcePathList sources).Nodup →
      (SavedRight sources ↔ ∃ handled rest, sources = handled ++ rest ∧
        (∀ s ∈ handled, s.commands = 1) ∧ ((∀ s ∈ rest, s.commands = 0) ∨ ∃ s, rest = [s]))) ∧
    (SavedRight sources → ∀ old units,
      (SavedFiles.run sources).loadUnits old (files sources) = some units →
      List.Forall₂ (fun source unit =>
        ((SavedFiles.run sources).saved (source ++ ".ast")).isSome → unit.source = source)
        (getSourcePathList sources) units) :=
  ⟨(savedRight_iff_stands sources).trans
      ⟨fun h before source unit after hsplit hafter =>
          h source unit ⟨before, after, hsplit, hafter⟩,
        fun h source unit ⟨before, after, hsplit, hafter⟩ =>
          h before source unit after hsplit hafter⟩,
    fun hpaths => (savedRight_iff_inStep hpaths).trans (inStep_iff_handledOnce hpaths),
    fun h _ _ hload => h.forall₂_loadUnits hload⟩

/-- Two sources with one compile command each. -/
theorem savedRight_oneCommand :
    SavedRight [⟨"a.c", 1⟩, ⟨"b.c", 1⟩] ∧
      List.Forall₂ (fun source (unit : TranslationUnit) =>
        ((SavedFiles.run [⟨"a.c", 1⟩, ⟨"b.c", 1⟩]).saved (source ++ ".ast")).isSome →
          unit.source = source)
        ["a.c", "b.c"] [⟨"a.c", 0⟩, ⟨"b.c", 0⟩] := by
  obtain ⟨_, hdistinct, hload⟩ := savedRight_iff [⟨"a.c", 1⟩, ⟨"b.c", 1⟩]
  have hright : SavedRight [⟨"a.c", 1⟩, ⟨"b.c", 1⟩] :=
    (hdistinct (by decide)).mpr ⟨[⟨"a.c", 1⟩, ⟨"b.c", 1⟩], [], rfl, by decide, Or.inl (by decide)⟩
  exact ⟨hright, hload hright (fun _ => none) _ (by decide)⟩

/-- A second compile command of the first source takes the file of the second source, and `main`
loads it from there. -/
theorem not_savedRight_twoCommands :
    ¬ SavedRight [⟨"a.c", 2⟩, ⟨"b.c", 1⟩] ∧
      (SavedFiles.run [⟨"a.c", 2⟩, ⟨"b.c", 1⟩]).loadUnits (fun _ => none) ["a.c.ast", "b.c.ast"] =
        some [⟨"a.c", 0⟩, ⟨"a.c", 1⟩] := by
  refine ⟨fun h => ?_, by decide⟩
  have hsource := h "b.c" (by decide) ⟨"a.c", 1⟩ (by decide)
  exact absurd hsource (by decide)

/-- If the first source is skipped then its file goes to the second source. -/
example : (SavedFiles.run [⟨"a.c", 0⟩, ⟨"b.c", 1⟩]).saved "a.c.ast" = some ⟨"b.c", 0⟩ := by decide

end FindBoundary
