import Mathlib.Data.Set.Basic
import Mathlib.Data.List.Nodup
import Mathlib.Logic.Function.Basic
import Mathlib.Logic.Relation

/-!
# Sweeping over the pairs of a list

A *pair sweep* takes a list and steps through its pairs `(a, b)` with `a` before `b`: the first
element against every later one, then the second against every later one, and so on. There is no
fixpoint loop; every pair is stepped through exactly once.

`pairSweep` is the loop over any state, with three rules: a simulation between two sweeps, an
invariant of one, and a property that one particular pair of elements establishes in whichever
order the list has them.
-/

namespace Sweep

universe u v w

variable {α : Type u} {σ : Type v} {τ : Type w}

/-! ## The loop -/

/-- Step through every pair `(a, b)` of the list with `a` before `b`, in lexicographic order. -/
def pairSweep (step : α → α → σ → σ) : List α → σ → σ
  | [], s => s
  | a :: l, s => pairSweep step l (l.foldl (fun s b => step a b s) s)

@[simp] theorem pairSweep_cons (step : α → α → σ → σ) (a : α) (l : List α) (s : σ) :
    pairSweep step (a :: l) s = pairSweep step l (l.foldl (fun s b => step a b s) s) := rfl

/-- Sweeping over images is sweeping with the step composed. -/
theorem pairSweep_map {β : Type*} (h : β → α) (step : α → α → σ → σ) :
    ∀ (l : List β) (s : σ),
      pairSweep step (l.map h) s = pairSweep (fun a b => step (h a) (h b)) l s
  | [], _ => rfl
  | a :: l, s => by
      rw [List.map_cons, pairSweep_cons, pairSweep_cons, List.foldl_map]
      exact pairSweep_map h step l _

/-- A sweep over pairs of states with independent steps is two sweeps. -/
theorem pairSweep_prod (step : α → α → σ → σ) (step' : α → α → τ → τ) :
    ∀ (l : List α) (s : σ) (t : τ),
      pairSweep (fun a b (x : σ × τ) => (step a b x.1, step' a b x.2)) l (s, t) =
        (pairSweep step l s, pairSweep step' l t)
  | [], _, _ => rfl
  | a :: l, s, t => by
      have hinner : ∀ (k : List α) (s : σ) (t : τ),
          k.foldl (fun (x : σ × τ) b => (step a b x.1, step' a b x.2)) (s, t) =
            (k.foldl (fun s b => step a b s) s, k.foldl (fun t b => step' a b t) t) := by
        intro k
        induction k with
        | nil => exact fun _ _ => rfl
        | cons b k ih => exact fun s t => ih _ _
      rw [pairSweep_cons, hinner]
      exact pairSweep_prod step step' l _ _

/-- **Simulation**: two sweeps over one list whose steps respect `R` on every pair of distinct
elements end in states related by `R`. -/
theorem pairSweep_simulation {step : α → α → σ → σ} {step' : α → α → τ → τ} {R : σ → τ → Prop} :
    ∀ {l : List α}, l.Nodup →
      (∀ a ∈ l, ∀ b ∈ l, a ≠ b → ∀ s t, R s t → R (step a b s) (step' a b t)) →
      ∀ {s : σ} {t : τ}, R s t → R (pairSweep step l s) (pairSweep step' l t) := by
  intro l
  induction l with
  | nil =>
    intro _ _ s t hR
    exact hR
  | cons a l ih =>
    intro hnd hstep s t hR
    obtain ⟨ha, hl⟩ := List.nodup_cons.mp hnd
    have hinner : ∀ k : List α, k ⊆ l → ∀ s t, R s t →
        R (k.foldl (fun s b => step a b s) s) (k.foldl (fun t b => step' a b t) t) := by
      intro k
      induction k with
      | nil =>
        intro _ s t hR
        exact hR
      | cons b k ihk =>
        intro hk s t hR
        have hb : b ∈ l := hk (List.mem_cons_self ..)
        have hab : a ≠ b := fun h => ha (h ▸ hb)
        exact ihk (fun c hc => hk (List.mem_cons_of_mem _ hc)) _ _
          (hstep a (List.mem_cons_self ..) b (List.mem_cons_of_mem _ hb) hab s t hR)
    refine ih hl ?_ (hinner l (List.Subset.refl l) s t hR)
    intro b hb c hc
    exact hstep b (List.mem_cons_of_mem _ hb) c (List.mem_cons_of_mem _ hc)

/-- **Invariant rule**: what every step on a pair of distinct elements preserves, the sweep
preserves. -/
theorem pairSweep_invariant {step : α → α → σ → σ} {P : σ → Prop} {l : List α} (hnd : l.Nodup)
    (hstep : ∀ a ∈ l, ∀ b ∈ l, a ≠ b → ∀ s, P s → P (step a b s)) {s : σ} (hs : P s) :
    P (pairSweep step l s) :=
  @pairSweep_simulation α σ Unit step (fun _ _ t => t) (fun s _ => P s) l hnd
    (fun a ha b hb hab s _ h => hstep a ha b hb hab s h) s () hs

/-- What the steps of an inner loop preserve, the inner loop preserves. -/
theorem inner_invariant {step : α → α → σ → σ} {P : σ → Prop} {a : α} {l : List α}
    (hstep : ∀ b ∈ l, ∀ s, P s → P (step a b s)) {s : σ} (hs : P s) :
    P (l.foldl (fun s b => step a b s) s) :=
  List.foldlRecOn l _ hs fun s h b hb => hstep b hb s h

/-- An inner loop that runs into `y` establishes what the step on `y` establishes. -/
theorem inner_establishes {step : α → α → σ → σ} {P Q : σ → Prop} {a y : α} {l : List α}
    (hP : ∀ b ∈ l, ∀ s, P s → P (step a b s))
    (hQ : ∀ b ∈ l, ∀ s, P s → Q s → Q (step a b s))
    (hy : y ∈ l) (hay : ∀ s, P s → Q (step a y s)) {s : σ} (hs : P s) :
    Q (l.foldl (fun s b => step a b s) s) := by
  obtain ⟨l₁, l₂, rfl⟩ := List.append_of_mem hy
  rw [List.foldl_append, List.foldl_cons]
  have hs₁ : P (l₁.foldl (fun s b => step a b s) s) :=
    inner_invariant (fun b hb => hP b (List.mem_append_left _ hb)) hs
  have hs₂ : ∀ b ∈ l₂, b ∈ l₁ ++ y :: l₂ := fun b hb =>
    List.mem_append_right _ (List.mem_cons_of_mem _ hb)
  exact (inner_invariant (P := fun s => P s ∧ Q s)
    (fun b hb s h => ⟨hP b (hs₂ b hb) s h.1, hQ b (hs₂ b hb) s h.1 h.2⟩)
    ⟨hP y hy _ hs₁, hay _ hs₁⟩).2

/-- **A pair leaves its mark**: if `P` is an invariant of the sweep, `Q` is kept by every step, and
the step on `x, y` establishes `Q` in whichever order the list has them, then `Q` holds after the
sweep. -/
theorem pairSweep_establishes {step : α → α → σ → σ} {P Q : σ → Prop} {x y : α} (hxy : x ≠ y)
    (hsx : ∀ s, P s → Q (step x y s)) (hsy : ∀ s, P s → Q (step y x s)) :
    ∀ {l : List α}, l.Nodup → x ∈ l → y ∈ l →
      (∀ a ∈ l, ∀ b ∈ l, a ≠ b → ∀ s, P s → P (step a b s)) →
      (∀ a ∈ l, ∀ b ∈ l, a ≠ b → ∀ s, P s → Q s → Q (step a b s)) →
      ∀ {s : σ}, P s → Q (pairSweep step l s) := by
  intro l
  induction l with
  | nil =>
    intro _ hx
    exact absurd hx (List.not_mem_nil)
  | cons a l ih =>
    intro hnd hx hy hP hQ s hs
    obtain ⟨ha, hl⟩ := List.nodup_cons.mp hnd
    have hne : ∀ b ∈ l, a ≠ b := fun b hb h => ha (h ▸ hb)
    have hPa : ∀ b ∈ l, ∀ s, P s → P (step a b s) := fun b hb =>
      hP a (List.mem_cons_self ..) b (List.mem_cons_of_mem _ hb) (hne b hb)
    have hQa : ∀ b ∈ l, ∀ s, P s → Q s → Q (step a b s) := fun b hb =>
      hQ a (List.mem_cons_self ..) b (List.mem_cons_of_mem _ hb) (hne b hb)
    have hPl : ∀ b ∈ l, ∀ c ∈ l, b ≠ c → ∀ s, P s → P (step b c s) := fun b hb c hc =>
      hP b (List.mem_cons_of_mem _ hb) c (List.mem_cons_of_mem _ hc)
    have hQl : ∀ b ∈ l, ∀ c ∈ l, b ≠ c → ∀ s, P s → Q s → Q (step b c s) := fun b hb c hc =>
      hQ b (List.mem_cons_of_mem _ hb) c (List.mem_cons_of_mem _ hc)
    have hs' : P (l.foldl (fun s b => step a b s) s) := inner_invariant hPa hs
    -- once the inner loop has established `Q`, the rest of the sweep keeps it
    have hkeep : Q (l.foldl (fun s b => step a b s) s) → Q (pairSweep step (a :: l) s) := by
      intro hq
      exact (pairSweep_invariant (P := fun s => P s ∧ Q s) hl
        (fun b hb c hc hbc s h => ⟨hPl b hb c hc hbc s h.1, hQl b hb c hc hbc s h.1 h.2⟩)
        ⟨hs', hq⟩).2
    rcases List.mem_cons.mp hx with rfl | hxl
    · rcases List.mem_cons.mp hy with rfl | hyl
      · exact absurd rfl hxy
      · exact hkeep (inner_establishes hPa hQa hyl hsx hs)
    · rcases List.mem_cons.mp hy with rfl | hyl
      · exact hkeep (inner_establishes hPa hQa hxl hsy hs)
      · exact ih hl hxl hyl hPl hQl hs'

end Sweep
