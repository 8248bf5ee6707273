import FindBoundary.Descent
import Mathlib.Order.WellFounded

/-!
# How a traversal ends

If the edge alone decides whether to descend and whether the body fails, a traversal does one of
three things, and the graph says which:

* it returns, if no infinite path of descents starts at its node and the body fails nowhere below
  (`Settles`);
* it fails, if the first edge it does not get past is one where the body fails, here or further
  down (`Fails`);
* or it goes on forever, if it descends again and again at the first edge that it does not get
  past (`Loops`).
-/

namespace Descent

universe u v w x

namespace Traversal

variable {ν : Type u} {κ : Type v} {σ : Type w} {ε : Type x} (T : Traversal ν κ σ ε)
  (follow sound : ν → ν → Prop)

/-- Below the node every path of descents ends, and the body fails nowhere. -/
structure Settles (p : ν) : Prop where
  acc : Acc (fun c p => T.Followed follow p c) p
  sound : ∀ q, Relation.ReflTransGen (T.Followed follow) p q → ∀ c ∈ T.children q, sound q c

/-- The loop at `p` gets past the child `c`. -/
def Passes (p c : ν) : Prop := sound p c ∧ (follow p c → T.Settles follow sound c)

/-- The loop at `p` comes to the child `c`: it gets past all the children before. -/
def ComesTo (p c : ν) : Prop :=
  ∃ done rest, T.children p = done ++ c :: rest ∧ ∀ c' ∈ done, T.Passes follow sound p c'

/-- The traversal comes to an edge where the body fails. -/
inductive Fails : ν → Prop
  /-- at the node itself -/
  | here {p c : ν} : T.ComesTo follow sound p c → ¬ sound p c → Fails p
  /-- below a child that it descends into -/
  | deeper {p c : ν} : T.ComesTo follow sound p c → sound p c → follow p c → Fails c → Fails p

/-- The loop at `p` comes to `c` and descends into it. -/
def Enters (p c : ν) : Prop := T.ComesTo follow sound p c ∧ sound p c ∧ follow p c

/-- The traversal enters the nodes of an infinite path, one after the other. -/
def Loops (p : ν) : Prop :=
  ∃ path : ℕ → ν, path 0 = p ∧ ∀ i, T.Enters follow sound (path i) (path (i + 1))

variable {T follow sound}

/-- Where a traversal fails, the body fails at some edge. -/
theorem Fails.exists_not_sound {p : ν} (h : T.Fails follow sound p) :
    ∃ q, ∃ c ∈ T.children q, ¬ sound q c := by
  induction h with
  | @here p c hcomes hnot =>
    obtain ⟨done, rest, hsplit, -⟩ := hcomes
    exact ⟨p, c, hsplit ▸ List.mem_append_right _ (List.mem_cons_self ..), hnot⟩
  | deeper _ _ _ _ ih => exact ih

/-! ## The three cases -/

/-- A node settles if its loop gets past all the children. -/
theorem settles_of_passes {p : ν} (h : ∀ c ∈ T.children p, T.Passes follow sound p c) :
    T.Settles follow sound p := by
  constructor
  case acc => exact Acc.intro p fun c hc => ((h c hc.1).2 hc.2).acc
  case sound =>
    intro q hq c hc
    rcases Relation.ReflTransGen.cases_head hq with rfl | ⟨c', ⟨hc', hf⟩, hq⟩
    · exact (h c hc).1
    · exact ((h c' hc').2 hf).sound q hq c hc

theorem Settles.child {p c : ν} (h : T.Settles follow sound p) (hc : c ∈ T.children p)
    (hf : follow p c) : T.Settles follow sound c :=
  ⟨h.acc.inv ⟨hc, hf⟩, fun q hq => h.sound q (.head ⟨hc, hf⟩ hq)⟩

theorem ComesTo.mem {p c : ν} (h : T.ComesTo follow sound p c) : c ∈ T.children p := by
  obtain ⟨done, rest, hsplit, -⟩ := h
  rw [hsplit]
  exact List.mem_append_right _ (List.mem_cons_self ..)

/-- A loop that does not get past all the children comes to one that it does not get past. -/
theorem exists_comesTo {p : ν} (h : ¬ T.Settles follow sound p) :
    ∃ c, T.ComesTo follow sound p c ∧ ¬ T.Passes follow sound p c := by
  have hsplit : ∀ rest done, T.children p = done ++ rest →
      (∀ c' ∈ done, T.Passes follow sound p c') →
        ∃ c, T.ComesTo follow sound p c ∧ ¬ T.Passes follow sound p c := by
    intro rest
    induction rest with
    | nil =>
      intro done hchildren hdone
      rw [List.append_nil] at hchildren
      exact absurd (settles_of_passes (hchildren ▸ hdone)) h
    | cons c rest ih =>
      intro done hchildren hdone
      by_cases hc : T.Passes follow sound p c
      · refine ih (done ++ [c]) (by simp [hchildren]) fun c' hc' => ?_
        rcases List.mem_append.mp hc' with hc' | hc'
        · exact hdone c' hc'
        · rw [List.mem_singleton.mp hc']
          exact hc
      · exact ⟨c, ⟨done, rest, hchildren, hdone⟩, hc⟩
  exact hsplit (T.children p) [] rfl fun c hc => absurd hc List.not_mem_nil

/-- Before the first child that the loop does not get past it comes to no other such child. -/
theorem ComesTo.passes_or_eq {p c c' : ν} (h : T.ComesTo follow sound p c)
    (hc : ¬ T.Passes follow sound p c) (h' : T.ComesTo follow sound p c') :
    T.Passes follow sound p c' ∨ c' = c := by
  obtain ⟨done, rest, hsplit, hdone⟩ := h
  obtain ⟨done', rest', hsplit', hdone'⟩ := h'
  rcases List.append_eq_append_iff.mp (hsplit.symm.trans hsplit') with
    ⟨l, rfl, hrest⟩ | ⟨l, rfl, hrest⟩
  · cases l with
    | nil => exact Or.inr (List.cons.inj hrest).1.symm
    | cons d l =>
      obtain ⟨rfl, -⟩ := List.cons.inj hrest
      exact absurd (hdone' c (List.mem_append_right _ (List.mem_cons_self ..))) hc
  · cases l with
    | nil => exact Or.inr (List.cons.inj hrest).1
    | cons d l =>
      obtain ⟨rfl, -⟩ := List.cons.inj hrest
      exact Or.inl (hdone c' (List.mem_append_right _ (List.mem_cons_self ..)))

theorem Fails.not_settles {p : ν} (h : T.Fails follow sound p) : ¬ T.Settles follow sound p := by
  induction h with
  | here hcomes hnot =>
    intro hsettles
    exact hnot (hsettles.sound _ .refl _ hcomes.mem)
  | deeper hcomes _ hf _ ih =>
    intro hsettles
    exact ih (hsettles.child hcomes.mem hf)

/-- From a node that settles no infinite path can be entered. -/
theorem Settles.acc_enters {p : ν} (h : T.Settles follow sound p) :
    Acc (fun c p => T.Enters follow sound p c) p :=
  Subrelation.accessible (fun hcp => ⟨hcp.1.mem, hcp.2.2⟩) h.acc

theorem Fails.acc_enters {p : ν} (h : T.Fails follow sound p) :
    Acc (fun c p => T.Enters follow sound p c) p := by
  induction h with
  | @here p c hcomes hnot =>
    refine Acc.intro p fun c' hc' => ?_
    rcases hcomes.passes_or_eq (fun hpasses => hnot hpasses.1) hc'.1 with hpasses | rfl
    · exact (hpasses.2 hc'.2.2).acc_enters
    · exact absurd hc'.2.1 hnot
  | @deeper p c hcomes hsound hf hfails ih =>
    refine Acc.intro p fun c' hc' => ?_
    rcases hcomes.passes_or_eq (fun hpasses => hfails.not_settles (hpasses.2 hf)) hc'.1 with
      hpasses | rfl
    · exact (hpasses.2 hc'.2.2).acc_enters
    · exact ih

theorem loops_iff_not_acc {p : ν} :
    T.Loops follow sound p ↔ ¬ Acc (fun c p => T.Enters follow sound p c) p := by
  rw [not_acc_iff_exists_descending_chain]
  rfl

/-- A traversal settles, fails or loops. -/
theorem settles_or_fails_or_loops (p : ν) :
    T.Settles follow sound p ∨ T.Fails follow sound p ∨ T.Loops follow sound p := by
  by_cases hacc : Acc (fun c p => T.Enters follow sound p c) p
  · rw [← or_assoc]
    refine Or.inl ?_
    induction hacc with
    | intro p _ ih =>
      by_cases hsettles : T.Settles follow sound p
      · exact Or.inl hsettles
      · right
        obtain ⟨c, hcomes, hnot⟩ := exists_comesTo hsettles
        by_cases hsound : sound p c
        · -- it descends into the child it does not get past
          obtain ⟨hf, hc⟩ : follow p c ∧ ¬ T.Settles follow sound c := by
            rw [Passes, not_and, Classical.not_imp] at hnot
            exact hnot hsound
          exact .deeper hcomes hsound hf ((ih c ⟨hcomes, hsound, hf⟩).resolve_left hc)
        · exact .here hcomes hsound
  · exact Or.inr (Or.inr (loops_iff_not_acc.mpr hacc))

/-- It does not fail exactly when it settles or loops. -/
theorem not_fails_iff {p : ν} :
    ¬ T.Fails follow sound p ↔ T.Settles follow sound p ∨ T.Loops follow sound p := by
  refine ⟨?_, ?_⟩
  · intro hnot
    rcases settles_or_fails_or_loops p with hsettles | hfails | hloops
    · exact Or.inl hsettles
    · exact absurd hfails hnot
    · exact Or.inr hloops
  · rintro (hsettles | hloops) hfails
    · exact hfails.not_settles hsettles
    · exact loops_iff_not_acc.mp hloops hfails.acc_enters

/-! ## The run -/

/-- A loop that fails has come to a child that it does not get past. -/
theorem fails_of_loop (hT : T.Uniform follow)
    (hsound : ∀ p c l s, (∃ turn, T.body p c l s = .ok turn) ↔ sound p c) {fuel : ℕ}
    (hdescend : ∀ {c : ν} {s : σ} {e : ε}, T.descend fuel c s = .error (.fault e) →
      T.Fails follow sound c) {p : ν} {e : ε} :
    ∀ {rest done : List ν} {l : κ} {s : σ}, T.children p = done ++ rest →
      (∀ c ∈ done, T.Passes follow sound p c) →
      T.loop (T.descend fuel) p rest l s = .error (.fault e) → T.Fails follow sound p := by
  intro rest
  induction rest with
  | nil =>
    intro done l s _ _ h
    cases h
  | cons c rest ih =>
    intro done l s hchildren hdone h
    have hcomes : T.ComesTo follow sound p c := ⟨done, rest, hchildren, hdone⟩
    have hrest : T.Passes follow sound p c → ∀ {l s},
        T.loop (T.descend fuel) p rest l s = .error (.fault e) → T.Fails follow sound p := by
      intro hc l s
      have hchildren' : T.children p = done ++ [c] ++ rest := by simpa using hchildren
      refine ih hchildren' fun c' hc' => ?_
      rcases List.mem_append.mp hc' with hc' | hc'
      · exact hdone c' hc'
      · rw [List.mem_singleton.mp hc']
        exact hc
    rw [loop] at h
    cases hbody : T.body p c l s with
    | error e' =>
      refine .here hcomes fun hs => ?_
      obtain ⟨turn, hturn⟩ := (hsound p c l s).mpr hs
      cases hbody.symm.trans hturn
    | ok turn =>
      have hs : sound p c := (hsound p c l s).mp ⟨turn, hbody⟩
      cases turn with
      | next l₁ s₁ =>
        simp only [hbody] at h
        exact hrest ⟨hs, fun hf => absurd hf (hT.next hbody)⟩ h
      | into l₁ s₁ =>
        simp only [hbody] at h
        cases hs₂ : T.descend fuel c s₁ with
        | error stop =>
          simp only [hs₂] at h
          cases h
          exact .deeper hcomes hs (hT.into hbody) (hdescend hs₂)
        | ok s₂ =>
          simp only [hs₂] at h
          obtain ⟨hacc, hbelow⟩ := of_descend_eq_ok hT
            (fun p c l s turn hb => (hsound p c l s).mp ⟨turn, hb⟩) hs₂
          exact hrest ⟨hs, fun _ => ⟨hacc, hbelow⟩⟩ h

theorem fails_of_descend (hT : T.Uniform follow)
    (hsound : ∀ p c l s, (∃ turn, T.body p c l s = .ok turn) ↔ sound p c) {fuel : ℕ} :
    ∀ {p : ν} {s : σ} {e : ε}, T.descend fuel p s = .error (.fault e) →
      T.Fails follow sound p := by
  induction fuel with
  | zero =>
    intro p s e h
    cases h
  | succ fuel ih =>
    intro p s e h
    exact fails_of_loop hT hsound ih (List.nil_append _).symm
      (fun c hc => absurd hc List.not_mem_nil) h

/-- A fault is one of the body. -/
theorem exists_body_eq_error {fuel : ℕ} : ∀ {p : ν} {s : σ} {e : ε},
    T.descend fuel p s = .error (.fault e) → ∃ q c l s', T.body q c l s' = .error e := by
  induction fuel with
  | zero =>
    intro p s e h
    cases h
  | succ fuel ih =>
    intro p s e h
    have hloop : ∀ {rest l s}, T.loop (T.descend fuel) p rest l s = .error (.fault e) →
        ∃ q c l s', T.body q c l s' = .error e := by
      intro rest
      induction rest with
      | nil =>
        intro l s h
        cases h
      | cons c rest ihrest =>
        intro l s h
        rw [loop] at h
        cases hbody : T.body p c l s with
        | error e' =>
          simp only [hbody] at h
          cases h
          exact ⟨p, c, l, s, hbody⟩
        | ok turn =>
          cases turn with
          | next l₁ s₁ =>
            simp only [hbody] at h
            exact ihrest h
          | into l₁ s₁ =>
            simp only [hbody] at h
            cases hs₂ : T.descend fuel c s₁ with
            | error stop =>
              simp only [hs₂] at h
              cases h
              exact ih hs₂
            | ok s₂ =>
              simp only [hs₂] at h
              exact ihrest h
    exact hloop h

/-- Some fuel brings the loop to every child that it comes to. -/
theorem ComesTo.exists_fuel (hT : T.Uniform follow)
    (hsound : ∀ p c l s, (∃ turn, T.body p c l s = .ok turn) ↔ sound p c) {p c : ν}
    (h : T.ComesTo follow sound p c) :
    ∃ fuel rest, ∀ fuel', fuel ≤ fuel' → ∀ s, ∃ l' s',
      T.descend (fuel' + 1) p s = T.loop (T.descend fuel') p (c :: rest) l' s' := by
  obtain ⟨done, rest, hsplit, hdone⟩ := h
  have hsound' : ∀ p c l s, sound p c → ∃ turn, T.body p c l s = .ok turn :=
    fun p c l s => (hsound p c l s).mpr
  obtain ⟨fuel, hfuel⟩ := exists_common_fuel (P := follow p) (l := done) fun c' hc' hf =>
    have hsettles := (hdone c' hc').2 hf
    Traversal.exists_fuel hT hsound' hsettles.acc hsettles.sound
  refine ⟨fuel, rest, fun fuel' hle s => ?_⟩
  rw [descend, hsplit]
  refine exists_loop_append hT hsound' (fun c' hc' => (hdone c' hc').1) ?_ T.enter s
  intro c' hc' hf s₁
  obtain ⟨s₂, hs₂⟩ := hfuel c' hc' hf s₁
  exact ⟨s₂, descend_mono_ok hle hs₂⟩

theorem Fails.exists_fault (hT : T.Uniform follow)
    (hsound : ∀ p c l s, (∃ turn, T.body p c l s = .ok turn) ↔ sound p c) {p : ν}
    (h : T.Fails follow sound p) :
    ∃ fuel, ∀ fuel', fuel ≤ fuel' → ∀ s, ∃ e, T.descend fuel' p s = .error (.fault e) := by
  induction h with
  | @here p c hcomes hnot =>
    obtain ⟨fuel, rest, hfuel⟩ := hcomes.exists_fuel hT hsound
    refine ⟨fuel + 1, fun fuel' hle s => ?_⟩
    obtain ⟨fuel', rfl⟩ := Nat.exists_eq_add_of_le' hle
    obtain ⟨l', s', hloop⟩ := hfuel (fuel' + fuel) (Nat.le_add_left ..) s
    rw [← Nat.add_assoc, hloop, loop]
    cases hbody : T.body p c l' s' with
    | error e => exact ⟨e, rfl⟩
    | ok turn => exact absurd ((hsound p c l' s').mp ⟨turn, hbody⟩) hnot
  | @deeper p c hcomes hs hf _ ih =>
    obtain ⟨fuel, rest, hfuel⟩ := hcomes.exists_fuel hT hsound
    obtain ⟨fuel₁, hfuel₁⟩ := ih
    refine ⟨max fuel fuel₁ + 1, fun fuel' hle s => ?_⟩
    obtain ⟨fuel', rfl⟩ := Nat.exists_eq_add_of_le' hle
    obtain ⟨l', s', hloop⟩ := hfuel (fuel' + max fuel fuel₁) (by omega) s
    rw [← Nat.add_assoc, hloop, loop]
    obtain ⟨turn, hbody⟩ := (hsound p c l' s').mpr hs
    cases turn with
    | next l₁ s₁ => exact absurd hf (hT.next hbody)
    | into l₁ s₁ =>
      obtain ⟨e, he⟩ := hfuel₁ (fuel' + max fuel fuel₁) (by omega) s₁
      simp only [hbody, he]
      exact ⟨e, rfl⟩

/-- **When a traversal fails**, in whatever state it starts: no run of any length ends in a fault
exactly when the traversal settles or loops. -/
theorem never_faults_iff (hT : T.Uniform follow)
    (hsound : ∀ p c l s, (∃ turn, T.body p c l s = .ok turn) ↔ sound p c) (p : ν) (s : σ) :
    (∀ fuel e, T.descend fuel p s ≠ .error (.fault e)) ↔
      T.Settles follow sound p ∨ T.Loops follow sound p := by
  rw [← not_fails_iff]
  refine ⟨?_, ?_⟩
  · intro hnever hfails
    obtain ⟨fuel, hfuel⟩ := hfails.exists_fault hT hsound
    obtain ⟨e, he⟩ := hfuel fuel le_rfl s
    exact hnever fuel e he
  · intro hnot fuel e he
    exact hnot (fails_of_descend hT hsound he)

end Traversal

end Descent
