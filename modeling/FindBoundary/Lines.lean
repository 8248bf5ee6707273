import Mathlib.Data.List.Basic
import Mathlib.Data.List.Infix

/-!
# Text made of lines

A text is printed by loops that append to it (`foldl_appends`), line by line, a line field by field,
and lines are grouped under headings. What was printed is determined by the text as long as no part
contains what marks its end: a line no end of line (`unlines_inj`), a first field not the two marks
that end it (`fields_inj`), and a group no heading (`sections_inj`).
-/

namespace Lines

universe u

variable {α : Type u}

/-- A loop that appends to a text appends, in order, what its turns append. -/
theorem foldl_appends {β γ : Type*} (text : β → List α) {f : β → γ → β} {g : γ → List α}
    (hf : ∀ b c, text (f b c) = text b ++ g c) (l : List γ) (b : β) :
    text (l.foldl f b) = text b ++ l.flatMap g := by
  induction l generalizing b with
  | nil => exact (List.append_nil _).symm
  | cons c l ih => rw [List.foldl_cons, ih, hf, List.flatMap_cons, List.append_assoc]

/-- So does one whose turns could fail. -/
theorem foldlM_appends {β γ ε : Type} (text : β → List α) {f : β → γ → Except ε β}
    {g : γ → List α} {l : List γ}
    (hf : ∀ c ∈ l, ∀ b, ∃ b', f b c = .ok b' ∧ text b' = text b ++ g c) (b : β) :
    ∃ b', l.foldlM f b = .ok b' ∧ text b' = text b ++ l.flatMap g := by
  induction l generalizing b with
  | nil => exact ⟨b, rfl, (List.append_nil _).symm⟩
  | cons c l ih =>
    obtain ⟨b₁, hb₁, htext₁⟩ := hf c List.mem_cons_self b
    obtain ⟨b', hb', htext⟩ := ih (fun c hc => hf c (List.mem_cons_of_mem _ hc)) b₁
    refine ⟨b', ?_, ?_⟩
    · rw [List.foldlM_cons, hb₁]
      exact hb'
    · rw [htext, htext₁, List.flatMap_cons, List.append_assoc]

/-- What each item shows of itself, the list shows of its items. -/
theorem map_eq_of_map_eq {β γ δ ε : Type*} {a : β → δ} {b : γ → δ} {c : β → ε} {d : γ → ε} :
    ∀ {l : List β} {l' : List γ}, (∀ x ∈ l, ∀ y ∈ l', a x = b y → c x = d y) →
      l.map a = l'.map b → l.map c = l'.map d := by
  intro l
  induction l with
  | nil =>
    intro l' _ h
    rw [List.map_nil, eq_comm, List.map_eq_nil_iff] at h
    rw [h]
    rfl
  | cons x l ih =>
    intro l' hitem h
    cases l' with
    | nil => cases h
    | cons y l' =>
      obtain ⟨hhead, htail⟩ := List.cons.inj h
      rw [List.map_cons, List.map_cons, hitem x List.mem_cons_self y List.mem_cons_self hhead,
        ih (fun x hx y hy => hitem x (List.mem_cons_of_mem _ hx) y (List.mem_cons_of_mem _ hy))
          htail]

/-! ## Lines and fields -/

/-- The first mark ends the first part. -/
theorem cut_inj {mark : α} {x x' y y' : List α} (hx : mark ∉ x) (hx' : mark ∉ x')
    (h : x ++ mark :: y = x' ++ mark :: y') : x = x' ∧ y = y' := by
  -- what one of the parts has in excess would begin with the mark
  have hexcess : ∀ {x l y y' : List α}, mark ∉ x ++ l → mark :: y = l ++ mark :: y' →
      l = [] ∧ y = y' := by
    intro x l y y' hx h
    cases l with
    | nil => exact ⟨rfl, (List.cons.inj h).2⟩
    | cons c l =>
      obtain ⟨rfl, -⟩ := List.cons.inj h
      exact absurd (List.mem_append_right _ List.mem_cons_self) hx
  rcases List.append_eq_append_iff.mp h with ⟨l, rfl, hl⟩ | ⟨l, rfl, hl⟩
  · obtain ⟨rfl, rfl⟩ := hexcess hx' hl
    exact ⟨(List.append_nil x).symm, rfl⟩
  · obtain ⟨rfl, rfl⟩ := hexcess hx hl
    exact ⟨List.append_nil x', rfl⟩

/-- **Two fields can be told apart** if two different marks end the first one, and it does not
contain them. -/
theorem fields_inj {a b : α} (hab : a ≠ b) {x y x' y' : List α} (hx : ¬ [a, b] <:+: x)
    (hx' : ¬ [a, b] <:+: x') (h : x ++ a :: b :: y = x' ++ a :: b :: y') : x = x' ∧ y = y' := by
  -- what one of the fields has in excess would end with the first mark, or have both
  have hexcess : ∀ {x l y y' : List α}, ¬ [a, b] <:+: x ++ l →
      a :: b :: y = l ++ a :: b :: y' → l = [] ∧ y = y' := by
    intro x l y y' hx h
    rcases l with _ | ⟨c, _ | ⟨d, l⟩⟩
    · simpa using h
    · simp only [List.cons_append, List.nil_append, List.cons.injEq] at h
      exact absurd h.2.1.symm hab
    · simp only [List.cons_append, List.cons.injEq] at h
      obtain ⟨rfl, rfl, -⟩ := h
      exact absurd ⟨x, l, by simp⟩ hx
  rcases List.append_eq_append_iff.mp h with ⟨l, rfl, hl⟩ | ⟨l, rfl, hl⟩
  · obtain ⟨rfl, rfl⟩ := hexcess hx' hl
    exact ⟨(List.append_nil x).symm, rfl⟩
  · obtain ⟨rfl, rfl⟩ := hexcess hx hl
    exact ⟨List.append_nil x', rfl⟩

/-- The first other item ends an indentation. -/
theorem indent_inj {a : α} {x x' : List α} (hx : x.head? ≠ some a) (hx' : x'.head? ≠ some a) :
    ∀ {m m' : ℕ}, List.replicate m a ++ x = List.replicate m' a ++ x' → m = m' ∧ x = x' := by
  intro m
  induction m with
  | zero =>
    intro m' h
    cases m' with
    | zero => exact ⟨rfl, h⟩
    | succ m' => exact absurd (by rw [List.replicate_zero, List.nil_append] at h; rw [h]; rfl) hx
  | succ m ih =>
    intro m' h
    cases m' with
    | zero => exact absurd (by rw [List.replicate_zero, List.nil_append] at h; rw [← h]; rfl) hx'
    | succ m' =>
      obtain ⟨rfl, heq⟩ := ih (List.cons.inj h).2
      exact ⟨rfl, heq⟩

/-- The lines, each with the mark that ends it. -/
def unlines (mark : α) (ls : List (List α)) : List α := ls.flatMap fun l => l ++ [mark]

theorem unlines_cons_append (mark : α) (l : List α) (ls : List (List α)) (rest : List α) :
    unlines mark (l :: ls) ++ rest = l ++ mark :: (unlines mark ls ++ rest) := by
  simp [unlines]

/-- What begins with a line has a mark. -/
theorem mem_unlines_cons_append (mark : α) (l : List α) (ls : List (List α)) (rest : List α) :
    mark ∈ unlines mark (l :: ls) ++ rest := by
  rw [unlines_cons_append]
  exact List.mem_append_right _ List.mem_cons_self

/-- **Lines can be told apart**, together with what stands behind the last of them. -/
theorem unlines_inj {mark : α} {rest rest' : List α} (hrest : mark ∉ rest)
    (hrest' : mark ∉ rest') :
    ∀ {ls ls' : List (List α)}, (∀ l ∈ ls, mark ∉ l) → (∀ l ∈ ls', mark ∉ l) →
      unlines mark ls ++ rest = unlines mark ls' ++ rest' → ls = ls' ∧ rest = rest' := by
  intro ls
  induction ls with
  | nil =>
    intro ls' _ _ h
    cases ls' with
    | nil => exact ⟨rfl, h⟩
    | cons l' ls' =>
      have hmark := mem_unlines_cons_append mark l' ls' rest'
      rw [← h] at hmark
      exact absurd hmark hrest
  | cons l ls ih =>
    intro ls' hls hls' h
    cases ls' with
    | nil =>
      have hmark := mem_unlines_cons_append mark l ls rest
      rw [h] at hmark
      exact absurd hmark hrest'
    | cons l' ls' =>
      rw [unlines_cons_append, unlines_cons_append] at h
      obtain ⟨rfl, htail⟩ := cut_inj (hls l List.mem_cons_self) (hls' l' List.mem_cons_self) h
      obtain ⟨rfl, hrest⟩ := ih (fun l hl => hls l (List.mem_cons_of_mem _ hl))
        (fun l hl => hls' l (List.mem_cons_of_mem _ hl)) htail
      exact ⟨rfl, hrest⟩

/-! ## Groups of lines -/

variable {IsHeading : α → Prop}

/-- Groups of lines, each under its heading. -/
def sections (groups : List (α × List α)) : List α := groups.flatMap fun g => g.1 :: g.2

/-- The groups have headings, and nothing else is one. -/
def Headed (IsHeading : α → Prop) (groups : List (α × List α)) : Prop :=
  ∀ g ∈ groups, IsHeading g.1 ∧ ∀ l ∈ g.2, ¬ IsHeading l

theorem Headed.of_cons {g : α × List α} {groups : List (α × List α)}
    (h : Headed IsHeading (g :: groups)) : Headed IsHeading groups :=
  fun g' hg' => h g' (List.mem_cons_of_mem _ hg')

/-- What begins with a heading, if it does not end. -/
theorem Headed.isHeading_head {groups : List (α × List α)} (h : Headed IsHeading groups) :
    ∀ l ∈ (sections groups).head?, IsHeading l := by
  intro l hl
  cases groups with
  | nil => cases hl
  | cons g groups =>
    obtain rfl : g.1 = l := Option.some.inj hl
    exact (h g List.mem_cons_self).1

/-- The next heading ends a group. -/
theorem group_inj {ls ls' rest rest' : List α} (hls : ∀ l ∈ ls, ¬ IsHeading l)
    (hls' : ∀ l ∈ ls', ¬ IsHeading l) (hrest : ∀ l ∈ rest.head?, IsHeading l)
    (hrest' : ∀ l ∈ rest'.head?, IsHeading l) (h : ls ++ rest = ls' ++ rest') :
    ls = ls' ∧ rest = rest' := by
  -- what one of the groups has in excess would begin with a heading
  have hexcess : ∀ {ls l rest rest' : List α}, (∀ l' ∈ ls ++ l, ¬ IsHeading l') →
      (∀ l' ∈ rest.head?, IsHeading l') → rest = l ++ rest' → l = [] ∧ rest = rest' := by
    intro ls l rest rest' hls hrest h
    cases l with
    | nil => exact ⟨rfl, h⟩
    | cons c l =>
      have hheading : IsHeading c := hrest c (h ▸ rfl)
      exact absurd hheading (hls c (List.mem_append_right _ List.mem_cons_self))
  rcases List.append_eq_append_iff.mp h with ⟨l, rfl, hl⟩ | ⟨l, rfl, hl⟩
  · obtain ⟨rfl, rfl⟩ := hexcess hls' hrest hl
    exact ⟨(List.append_nil ls).symm, rfl⟩
  · obtain ⟨rfl, rfl⟩ := hexcess hls hrest' hl
    exact ⟨List.append_nil ls', rfl⟩

/-- **Groups can be told apart.** -/
theorem sections_inj : ∀ {groups groups' : List (α × List α)}, Headed IsHeading groups →
    Headed IsHeading groups' → sections groups = sections groups' → groups = groups' := by
  intro groups
  induction groups with
  | nil =>
    intro groups' _ _ h
    cases groups' with
    | nil => rfl
    | cons g' groups' => cases h
  | cons g groups ih =>
    intro groups' hgroups hgroups' h
    cases groups' with
    | nil => cases h
    | cons g' groups' =>
      obtain ⟨hheading, htail⟩ := List.cons.inj h
      obtain ⟨hbody, hnext⟩ := group_inj (hgroups g List.mem_cons_self).2
        (hgroups' g' List.mem_cons_self).2 hgroups.of_cons.isHeading_head
        hgroups'.of_cons.isHeading_head htail
      rw [ih hgroups.of_cons hgroups'.of_cons hnext, Prod.ext hheading hbody]

end Lines
