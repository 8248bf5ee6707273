import Mathlib.Data.List.Basic

/-!
# Loops over live lists

A loop that goes through a list by an iterator looks at the list as it is at every turn, while the
body may change the state that the list is part of: it may append to the list, and then the loop
goes on through what it has appended, or does not end. A loop over a snapshot goes through the
list as it was in the beginning.

The two are the same if the body leaves the list alone as long as the loop runs (`Undisturbed`,
`run_eq`).
-/

namespace LiveLoop

universe u v

variable {σ : Type u} {α : Type v}

/-- The loop from the position `i` on. It is over when the position is behind the end of the list
at that time; it need not end, so it takes fuel. -/
def run (read : σ → List α) (body : σ → α → σ) : ℕ → ℕ → σ → Option σ
  | 0, _, _ => none
  | fuel + 1, i, s =>
    match (read s)[i]? with
    | none => some s
    | some a => run read body fuel (i + 1) (body s a)

/-- The loop over a snapshot leaves the list alone at every turn. -/
def Undisturbed (read : σ → List α) (body : σ → α → σ) (s : σ) : Prop :=
  ∀ done, done <+: read s → read (done.foldl body s) = read s

variable {read : σ → List α} {body : σ → α → σ} {s : σ}

/-- To see that the list is left alone, look at a turn for one of its elements. -/
theorem undisturbed_of_step {I : σ → Prop} (hs : I s)
    (hstep : ∀ s', I s' → read s' = read s → ∀ a ∈ read s,
      I (body s' a) ∧ read (body s' a) = read s) : Undisturbed read body s := by
  intro done hdone
  refine (List.foldlRecOn (motive := fun s' => I s' ∧ read s' = read s) done body ⟨hs, rfl⟩ ?_).2
  rintro s' ⟨hI, hread⟩ a ha
  exact hstep s' hI hread a (hdone.subset ha)

/-- The live loop, where it is after the elements `done`. -/
theorem run_foldl (h : Undisturbed read body s) {fuel : ℕ} :
    ∀ {rest done : List α}, read s = done ++ rest → rest.length < fuel →
      run read body fuel done.length (done.foldl body s) = some ((read s).foldl body s) := by
  induction fuel with
  | zero =>
    intro rest done _ hlt
    exact absurd hlt (Nat.not_lt_zero _)
  | succ fuel ih =>
    intro rest done hsplit hlt
    have hread : read (done.foldl body s) = done ++ rest :=
      (h done ⟨rest, hsplit.symm⟩).trans hsplit
    rw [run, hread, List.getElem?_append_right (Nat.le_refl _), Nat.sub_self]
    cases rest with
    | nil =>
      rw [hsplit, List.append_nil]
      rfl
    | cons a rest =>
      have hsplit' : read s = done ++ [a] ++ rest := by simpa using hsplit
      have hrest := ih hsplit' (Nat.lt_of_succ_lt_succ hlt)
      rw [List.length_append, List.foldl_append] at hrest
      exact hrest

/-- **A live loop that does not disturb its list is the loop over a snapshot.** -/
theorem run_eq (h : Undisturbed read body s) {fuel : ℕ} (hfuel : (read s).length < fuel) :
    run read body fuel 0 s = some ((read s).foldl body s) :=
  run_foldl h (List.nil_append _).symm hfuel

end LiveLoop
