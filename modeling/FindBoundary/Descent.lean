import Mathlib.Data.Fintype.Card
import Mathlib.Data.Set.Finite.Basic
import Mathlib.Logic.Relation

/-!
# Descending through a graph

A traversal goes through the children of a node in order. At each child the body of the loop may
change the state, may fail, and decides whether to descend into the child before it goes on. No
node is marked as visited: a node is gone through as often as it is reached.

A recursion of this kind need not return, so `descend` takes fuel. What the rules say:

* `descend_rule` — a loop invariant over the children done so far gives a relation between the
  states before and after;
* `descend_covers` — a mark that the body leaves at every child, and that later steps keep, is
  found afterwards at every edge reached;
* `returns_iff` — if the decisions do not depend on the state, the traversal returns
  exactly when no infinite path of descents starts at its node and the body fails nowhere below.
-/

namespace Descent

universe u v w x

/-- How one turn of the loop ends: with the next child at once, or with a descent into this one
first. -/
inductive Turn (κ : Type v) (σ : Type w) : Type (max v w) where
  /-- go on with the next child -/
  | next (l : κ) (s : σ)
  /-- descend into this child, then go on -/
  | into (l : κ) (s : σ)

/-- Why a traversal does not return. -/
inductive Stop (ε : Type x) : Type x where
  | outOfFuel
  | fault (e : ε)

/-- A traversal: where the edges lead, what a loop's own variables start as, and the loop body. -/
structure Traversal (ν : Type u) (κ : Type v) (σ : Type w) (ε : Type x) :
    Type (max u v w x) where
  children : ν → List ν
  enter : κ
  body : ν → ν → κ → σ → Except ε (Turn κ σ)

namespace Traversal

variable {ν : Type u} {κ : Type v} {σ : Type w} {ε : Type x}

/-- The loop at the node `p` over some of its children; `descendInto` is the recursive call. -/
def loop (T : Traversal ν κ σ ε) (descendInto : ν → σ → Except (Stop ε) σ) (p : ν) :
    List ν → κ → σ → Except (Stop ε) σ
  | [], _, s => .ok s
  | c :: rest, l, s =>
    match T.body p c l s with
    | .error e => .error (.fault e)
    | .ok (.next l s) => T.loop descendInto p rest l s
    | .ok (.into l s) =>
      match descendInto c s with
      | .error e => .error e
      | .ok s => T.loop descendInto p rest l s

/-- Traverse from a node. -/
def descend (T : Traversal ν κ σ ε) : ℕ → ν → σ → Except (Stop ε) σ
  | 0, _, _ => .error .outOfFuel
  | fuel + 1, p, s => T.loop (T.descend fuel) p (T.children p) T.enter s

/-- The traversal from `p` in the state `s` comes to an end. -/
def Returns (T : Traversal ν κ σ ε) (p : ν) (s : σ) : Prop :=
  ∃ fuel s', T.descend fuel p s = .ok s'

variable {T : Traversal ν κ σ ε}

/-! ## One turn -/

/-- A turn at the child `c` of `p`, however it ends, leaves these values. -/
def Step (T : Traversal ν κ σ ε) (p c : ν) (l : κ) (s : σ) (l' : κ) (s' : σ) : Prop :=
  T.body p c l s = .ok (.next l' s') ∨ T.body p c l s = .ok (.into l' s')

/-- What a loop that returns has done at its first child. -/
theorem loop_cons_eq_ok {descendInto : ν → σ → Except (Stop ε) σ} {p c : ν} {rest : List ν}
    {l : κ} {s s' : σ} (h : T.loop descendInto p (c :: rest) l s = .ok s') :
    (∃ l₁ s₁, T.body p c l s = .ok (.next l₁ s₁) ∧ T.loop descendInto p rest l₁ s₁ = .ok s') ∨
    (∃ l₁ s₁ s₂, T.body p c l s = .ok (.into l₁ s₁) ∧ descendInto c s₁ = .ok s₂ ∧
      T.loop descendInto p rest l₁ s₂ = .ok s') := by
  rw [loop] at h
  cases hbody : T.body p c l s with
  | error e => simp [hbody] at h
  | ok turn =>
    cases turn with
    | next l₁ s₁ =>
      simp only [hbody] at h
      exact Or.inl ⟨l₁, s₁, rfl, h⟩
    | into l₁ s₁ =>
      simp only [hbody] at h
      cases hinto : descendInto c s₁ with
      | error e => simp [hinto] at h
      | ok s₂ =>
        simp only [hinto] at h
        exact Or.inr ⟨l₁, s₁, s₂, rfl, hinto, h⟩

/-! ## The rule -/

/-- The rule for one loop: what every turn passes on from the children done so far to one child
more holds of all the children when the loop returns. -/
theorem loop_rule {descendInto : ν → σ → Except (Stop ε) σ} {p : ν} {I : List ν → κ → σ → Prop}
    (hnext : ∀ done c rest l s l' s', T.children p = done ++ c :: rest → I done l s →
      T.body p c l s = .ok (.next l' s') → I (done ++ [c]) l' s')
    (hinto : ∀ done c rest l s l' s' s'', T.children p = done ++ c :: rest → I done l s →
      T.body p c l s = .ok (.into l' s') → descendInto c s' = .ok s'' → I (done ++ [c]) l' s'') :
    ∀ {rest done : List ν} {l : κ} {s s' : σ}, T.children p = done ++ rest → I done l s →
      T.loop descendInto p rest l s = .ok s' → ∃ l', I (T.children p) l' s' := by
  intro rest
  induction rest with
  | nil =>
    intro done l s s' hchildren hI h
    simp only [loop, Except.ok.injEq] at h
    rw [hchildren, List.append_nil, ← h]
    exact ⟨l, hI⟩
  | cons c rest ih =>
    intro done l s s' hchildren hI h
    have hchildren' : T.children p = done ++ [c] ++ rest := by simpa using hchildren
    rcases loop_cons_eq_ok h with ⟨l₁, s₁, hbody, h⟩ | ⟨l₁, s₁, s₂, hbody, hs₂, h⟩
    · exact ih hchildren' (hnext done c rest l s l₁ s₁ hchildren hI hbody) h
    · exact ih hchildren' (hinto done c rest l s l₁ s₁ s₂ hchildren hI hbody hs₂) h

/-- **The rule for traversals.** `I p s₀` is the invariant of the loop at `p` when it is entered
with the state `s₀`; a descent that returns relates its states by `R`. -/
theorem descend_rule {R : ν → σ → σ → Prop} {I : ν → σ → List ν → κ → σ → Prop}
    (henter : ∀ p s, I p s [] T.enter s)
    (hnext : ∀ p s₀ done c rest l s l' s', T.children p = done ++ c :: rest →
      I p s₀ done l s → T.body p c l s = .ok (.next l' s') → I p s₀ (done ++ [c]) l' s')
    (hinto : ∀ p s₀ done c rest l s l' s' s'', T.children p = done ++ c :: rest →
      I p s₀ done l s → T.body p c l s = .ok (.into l' s') → R c s' s'' →
        I p s₀ (done ++ [c]) l' s'')
    (hexit : ∀ p s₀ l s, I p s₀ (T.children p) l s → R p s₀ s) :
    ∀ {fuel : ℕ} {p : ν} {s s' : σ}, T.descend fuel p s = .ok s' → R p s s' := by
  intro fuel
  induction fuel with
  | zero =>
    intro p s s' h
    cases h
  | succ fuel ih =>
    intro p s s' h
    obtain ⟨l', hI⟩ := loop_rule (I := I p s) (hnext p s)
      (fun done c rest l s₁ l' s₁' s'' hchildren hI hbody hs'' =>
        hinto p s done c rest l s₁ l' s₁' s'' hchildren hI hbody (ih hs''))
      (List.nil_append _).symm (henter p s) h
    exact hexit p s l' s' hI

/-- What every turn keeps of the state, a descent that returns keeps. -/
theorem descend_invariant {P : σ → Prop}
    (hstep : ∀ p, ∀ c ∈ T.children p, ∀ l s l' s', P s → T.Step p c l s l' s' → P s')
    {fuel : ℕ} {p : ν} {s s' : σ} (hs : P s) (h : T.descend fuel p s = .ok s') : P s' := by
  have hmem : ∀ {p done c rest}, T.children p = done ++ c :: rest → c ∈ T.children p := by
    intro p done c rest hsplit
    rw [hsplit]
    exact List.mem_append_right _ (List.mem_cons_self ..)
  refine descend_rule (R := fun _ s s' => P s → P s') (I := fun _ s _ _ s' => P s → P s')
    ?_ ?_ ?_ ?_ h hs
  · intro p s hs
    exact hs
  · intro p s₀ done c rest l s l' s' hsplit hI hbody h₀
    exact hstep p c (hmem hsplit) l s l' s' (hI h₀) (Or.inl hbody)
  · intro p s₀ done c rest l s l' s' s'' hsplit hI hbody hrec h₀
    exact hrec (hstep p c (hmem hsplit) l s l' s' (hI h₀) (Or.inr hbody))
  · intro p s₀ l s hI
    exact hI

/-! ## Coverage -/

/-- Whether to descend is decided by the edge alone. -/
structure Uniform (T : Traversal ν κ σ ε) (follow : ν → ν → Prop) : Prop where
  next : ∀ {p c l s l' s'}, T.body p c l s = .ok (.next l' s') → ¬ follow p c
  into : ∀ {p c l s l' s'}, T.body p c l s = .ok (.into l' s') → follow p c

/-- The edges along which the traversal descends. -/
def Followed (T : Traversal ν κ σ ε) (follow : ν → ν → Prop) (p c : ν) : Prop :=
  c ∈ T.children p ∧ follow p c

/-- **Coverage**: a mark `M` that the body leaves at every edge, and that larger states keep, is
found at all the edges below the start. `L` is what the loop at a node knows of its own
variables. -/
theorem descend_covers {follow : ν → ν → Prop} (hT : T.Uniform follow) {L : ν → κ → Prop}
    {le : σ → σ → Prop} {M : ν → ν → σ → Prop} (hrefl : ∀ s, le s s)
    (htrans : ∀ s₁ s₂ s₃, le s₁ s₂ → le s₂ s₃ → le s₁ s₃)
    (hmono : ∀ p c s s', le s s' → M p c s → M p c s')
    (henter : ∀ p, L p T.enter)
    (hturn : ∀ p c l s l' s', L p l → T.Step p c l s l' s' → L p l' ∧ le s s' ∧ M p c s')
    {fuel : ℕ} {p : ν} {s s' : σ} (h : T.descend fuel p s = .ok s') :
    le s s' ∧ ∀ q, Relation.ReflTransGen (T.Followed follow) p q →
      ∀ c ∈ T.children q, M q c s' := by
  refine descend_rule
    (R := fun p s s' => le s s' ∧ ∀ q, Relation.ReflTransGen (T.Followed follow) p q →
      ∀ c ∈ T.children q, M q c s')
    (I := fun p s₀ done l s => L p l ∧ le s₀ s ∧ ∀ c ∈ done, M p c s ∧ (follow p c →
      ∀ q, Relation.ReflTransGen (T.Followed follow) c q → ∀ c' ∈ T.children q, M q c' s))
    ?_ ?_ ?_ ?_ h
  · intro p s
    exact ⟨henter p, hrefl s, fun c hc => absurd hc List.not_mem_nil⟩
  · rintro p s₀ done c rest l s l' s' - ⟨hL, hle, hdone⟩ hbody
    obtain ⟨hL', hle', hmark⟩ := hturn p c l s l' s' hL (Or.inl hbody)
    refine ⟨hL', htrans _ _ _ hle hle', fun c' hc' => ?_⟩
    rcases List.mem_append.mp hc' with hc' | hc'
    · obtain ⟨hm, hbelow⟩ := hdone c' hc'
      exact ⟨hmono _ _ _ _ hle' hm, fun hf q hq c'' hc'' =>
        hmono _ _ _ _ hle' (hbelow hf q hq c'' hc'')⟩
    · cases List.mem_singleton.mp hc'
      exact ⟨hmark, fun hf => absurd hf (hT.next hbody)⟩
  · rintro p s₀ done c rest l s l' s' s'' - ⟨hL, hle, hdone⟩ hbody ⟨hle'', hbelow''⟩
    obtain ⟨hL', hle', hmark⟩ := hturn p c l s l' s' hL (Or.inr hbody)
    have hstep := htrans _ _ _ hle' hle''
    refine ⟨hL', htrans _ _ _ hle hstep, fun c' hc' => ?_⟩
    rcases List.mem_append.mp hc' with hc' | hc'
    · obtain ⟨hm, hbelow⟩ := hdone c' hc'
      exact ⟨hmono _ _ _ _ hstep hm, fun hf q hq c'' hc'' =>
        hmono _ _ _ _ hstep (hbelow hf q hq c'' hc'')⟩
    · cases List.mem_singleton.mp hc'
      exact ⟨hmono _ _ _ _ hle'' hmark, fun _ => hbelow''⟩
  · rintro p s₀ l s ⟨-, hle, hdone⟩
    refine ⟨hle, fun q hq c hc => ?_⟩
    rcases Relation.ReflTransGen.cases_head hq with rfl | ⟨c', ⟨hc', hf⟩, hq⟩
    · exact (hdone c hc).1
    · exact (hdone c' hc').2 hf q hq c hc

/-! ## Returning -/

/-- With a recursive call that stops for want of fuel less often, the loop has the same result. -/
theorem loop_mono {f g : ν → σ → Except (Stop ε) σ} {p : ν}
    (hfg : ∀ c s, f c s ≠ .error .outOfFuel → g c s = f c s) :
    ∀ {rest : List ν} {l : κ} {s : σ}, T.loop f p rest l s ≠ .error .outOfFuel →
      T.loop g p rest l s = T.loop f p rest l s := by
  intro rest
  induction rest with
  | nil =>
    intro l s _
    rfl
  | cons c rest ih =>
    intro l s h
    rw [loop] at h
    rw [loop, loop]
    cases hbody : T.body p c l s with
    | error e => rfl
    | ok turn =>
      cases turn with
      | next l₁ s₁ =>
        simp only [hbody] at h
        exact ih h
      | into l₁ s₁ =>
        simp only [hbody] at h
        have hc : f c s₁ ≠ .error .outOfFuel := by
          intro hout
          simp [hout] at h
        simp only [hfg c s₁ hc]
        cases hs₂ : f c s₁ with
        | error e => rfl
        | ok s₂ =>
          simp only [hs₂] at h
          exact ih h

/-- More fuel never changes a result, be it a state or a fault. -/
theorem descend_mono {fuel : ℕ} : ∀ {p : ν} {s : σ}, T.descend fuel p s ≠ .error .outOfFuel →
    T.descend (fuel + 1) p s = T.descend fuel p s := by
  induction fuel with
  | zero =>
    intro p s h
    exact absurd rfl h
  | succ fuel ih =>
    intro p s h
    exact loop_mono (fun c s hc => ih hc) h

theorem descend_mono_le {fuel fuel' : ℕ} (hle : fuel ≤ fuel') {p : ν} {s : σ}
    (h : T.descend fuel p s ≠ .error .outOfFuel) :
    T.descend fuel' p s = T.descend fuel p s := by
  induction hle with
  | refl => rfl
  | step _ ih => rw [descend_mono (ih ▸ h), ih]

theorem descend_mono_ok {fuel fuel' : ℕ} (hle : fuel ≤ fuel') {p : ν} {s s' : σ}
    (h : T.descend fuel p s = .ok s') : T.descend fuel' p s = .ok s' := by
  rw [descend_mono_le hle, h]
  rw [h]
  exact fun hout => by cases hout

variable {follow sound : ν → ν → Prop}

/-- A loop gets past children at which the body does not fail if the descents into those that are
followed return. -/
theorem exists_loop_append (hT : T.Uniform follow)
    (hsound : ∀ p c l s, sound p c → ∃ turn, T.body p c l s = .ok turn)
    {descendInto : ν → σ → Except (Stop ε) σ} {p : ν} {rest : List ν} :
    ∀ {done : List ν}, (∀ c ∈ done, sound p c) →
      (∀ c ∈ done, follow p c → ∀ s, ∃ s', descendInto c s = .ok s') →
      ∀ (l : κ) (s : σ), ∃ l' s',
        T.loop descendInto p (done ++ rest) l s = T.loop descendInto p rest l' s' := by
  intro done
  induction done with
  | nil =>
    intro _ _ l s
    exact ⟨l, s, rfl⟩
  | cons c done ih =>
    intro hs hd l s
    obtain ⟨turn, hbody⟩ := hsound p c l s (hs c (List.mem_cons_self ..))
    have hdone := ih (fun c hc => hs c (List.mem_cons_of_mem _ hc))
      (fun c hc => hd c (List.mem_cons_of_mem _ hc))
    cases turn with
    | next l₁ s₁ =>
      simp only [List.cons_append, loop, hbody]
      exact hdone l₁ s₁
    | into l₁ s₁ =>
      obtain ⟨s₂, hs₂⟩ := hd c (List.mem_cons_self ..) (hT.into hbody) s₁
      simp only [List.cons_append, loop, hbody, hs₂]
      exact hdone l₁ s₂

/-- A loop that gets past all the children returns. -/
theorem exists_loop (hT : T.Uniform follow)
    (hsound : ∀ p c l s, sound p c → ∃ turn, T.body p c l s = .ok turn)
    {descendInto : ν → σ → Except (Stop ε) σ} {p : ν} {rest : List ν}
    (hs : ∀ c ∈ rest, sound p c)
    (hd : ∀ c ∈ rest, follow p c → ∀ s, ∃ s', descendInto c s = .ok s') (l : κ) (s : σ) :
    ∃ s', T.loop descendInto p rest l s = .ok s' := by
  have hpast : ∃ l' s', T.loop descendInto p (rest ++ []) l s = T.loop descendInto p [] l' s' :=
    exists_loop_append hT hsound hs hd l s
  obtain ⟨l', s', h⟩ := hpast
  rw [List.append_nil] at h
  exact ⟨s', h⟩

/-- What a loop that returns knows of its children. -/
theorem of_loop_eq_ok (hT : T.Uniform follow)
    (hsound : ∀ p c l s turn, T.body p c l s = .ok turn → sound p c)
    {descendInto : ν → σ → Except (Stop ε) σ} {p : ν} :
    ∀ {rest : List ν} {l : κ} {s s' : σ}, T.loop descendInto p rest l s = .ok s' →
      ∀ c ∈ rest, sound p c ∧ (follow p c → ∃ s₁ s₂, descendInto c s₁ = .ok s₂) := by
  intro rest
  induction rest with
  | nil =>
    intro l s s' _ c hc
    cases hc
  | cons c rest ih =>
    intro l s s' h c' hc'
    rcases loop_cons_eq_ok h with ⟨l₁, s₁, hbody, h⟩ | ⟨l₁, s₁, s₂, hbody, hs₂, h⟩
    · rcases List.mem_cons.mp hc' with rfl | hc'
      · exact ⟨hsound _ _ _ _ _ hbody, fun hf => absurd hf (hT.next hbody)⟩
      · exact ih h c' hc'
    · rcases List.mem_cons.mp hc' with rfl | hc'
      · exact ⟨hsound _ _ _ _ _ hbody, fun _ => ⟨s₁, s₂, hs₂⟩⟩
      · exact ih h c' hc'

/-- A descent that returns has come to an end on every path of followed edges, and the body has
failed nowhere. -/
theorem of_descend_eq_ok (hT : T.Uniform follow)
    (hsound : ∀ p c l s turn, T.body p c l s = .ok turn → sound p c) {fuel : ℕ} :
    ∀ {p : ν} {s s' : σ}, T.descend fuel p s = .ok s' →
      Acc (fun c p => T.Followed follow p c) p ∧
        ∀ q, Relation.ReflTransGen (T.Followed follow) p q → ∀ c ∈ T.children q, sound q c := by
  induction fuel with
  | zero =>
    intro p s s' h
    cases h
  | succ fuel ih =>
    intro p s s' h
    have hchildren := of_loop_eq_ok hT hsound h
    have hbelow : ∀ c, T.Followed follow p c → Acc (fun c p => T.Followed follow p c) c ∧
        ∀ q, Relation.ReflTransGen (T.Followed follow) c q → ∀ c' ∈ T.children q, sound q c' := by
      rintro c ⟨hc, hf⟩
      obtain ⟨s₁, s₂, hs₂⟩ := (hchildren c hc).2 hf
      exact ih hs₂
    refine ⟨Acc.intro p fun c hc => (hbelow c hc).1, fun q hq c hc => ?_⟩
    rcases Relation.ReflTransGen.cases_head hq with rfl | ⟨c', hc', hq⟩
    · exact (hchildren c hc).1
    · exact (hbelow c' hc').2 q hq c hc

/-- If some fuel suffices at each of finitely many nodes, one does at all of them. -/
theorem exists_common_fuel {P : ν → Prop} {l : List ν}
    (h : ∀ c ∈ l, P c → ∃ fuel, ∀ s, ∃ s', T.descend fuel c s = .ok s') :
    ∃ fuel, ∀ c ∈ l, P c → ∀ s, ∃ s', T.descend fuel c s = .ok s' := by
  induction l with
  | nil => exact ⟨0, fun c hc => absurd hc List.not_mem_nil⟩
  | cons c l ih =>
    obtain ⟨fuel, hfuel⟩ := ih fun c hc => h c (List.mem_cons_of_mem _ hc)
    by_cases hP : P c
    · obtain ⟨fuel', hfuel'⟩ := h c (List.mem_cons_self ..) hP
      refine ⟨max fuel fuel', fun c' hc' hP' s => ?_⟩
      rcases List.mem_cons.mp hc' with rfl | hc'
      · obtain ⟨s', hs'⟩ := hfuel' s
        exact ⟨s', descend_mono_ok (Nat.le_max_right ..) hs'⟩
      · obtain ⟨s', hs'⟩ := hfuel c' hc' hP' s
        exact ⟨s', descend_mono_ok (Nat.le_max_left ..) hs'⟩
    · refine ⟨fuel, fun c' hc' hP' => ?_⟩
      rcases List.mem_cons.mp hc' with rfl | hc'
      · exact absurd hP' hP
      · exact hfuel c' hc' hP'

/-- Where no infinite path starts and the body fails nowhere below, one fuel suffices for all
states, so that finitely many nodes have one in common. -/
theorem exists_fuel (hT : T.Uniform follow)
    (hsound : ∀ p c l s, sound p c → ∃ turn, T.body p c l s = .ok turn) {p : ν}
    (hacc : Acc (fun c p => T.Followed follow p c) p)
    (hbelow : ∀ q, Relation.ReflTransGen (T.Followed follow) p q → ∀ c ∈ T.children q, sound q c) :
    ∃ fuel, ∀ s, ∃ s', T.descend fuel p s = .ok s' := by
  induction hacc with
  | intro p _ ih =>
    obtain ⟨fuel, hfuel⟩ := exists_common_fuel (P := follow p) fun c hc hf =>
      ih c ⟨hc, hf⟩ fun q hq => hbelow q (Relation.ReflTransGen.head ⟨hc, hf⟩ hq)
    exact ⟨fuel + 1, fun s => exists_loop hT hsound (hbelow p Relation.ReflTransGen.refl) hfuel
      T.enter s⟩

/-- **When a traversal returns**: if the edge alone decides whether to descend and whether the
body fails, some fuel suffices exactly when no infinite path of followed edges starts at `p`, and
the body fails at no edge below `p`. -/
theorem returns_iff (hT : T.Uniform follow)
    (hsound : ∀ p c l s, (∃ turn, T.body p c l s = .ok turn) ↔ sound p c) (p : ν) (s : σ) :
    T.Returns p s ↔
      Acc (fun c p => T.Followed follow p c) p ∧
        ∀ q, Relation.ReflTransGen (T.Followed follow) p q → ∀ c ∈ T.children q, sound q c := by
  refine ⟨?_, ?_⟩
  · rintro ⟨fuel, s', h⟩
    exact of_descend_eq_ok hT (fun p c l s turn hb => (hsound p c l s).mp ⟨turn, hb⟩) h
  · rintro ⟨hacc, hbelow⟩
    obtain ⟨fuel, h⟩ := exists_fuel hT (fun p c l s => (hsound p c l s).mpr) hacc hbelow
    exact ⟨fuel, h s⟩

/-- A traversal whose body never fails returns unless an infinite path starts at `p`. -/
theorem returns_iff_acc (hT : T.Uniform follow)
    (hbody : ∀ p c l s, ∃ turn, T.body p c l s = .ok turn) (p : ν) (s : σ) :
    T.Returns p s ↔ Acc (fun c p => T.Followed follow p c) p := by
  have hsound : ∀ p c l s, (∃ turn, T.body p c l s = .ok turn) ↔ (fun _ _ => True) p c :=
    fun p c l s => iff_of_true (hbody p c l s) trivial
  rw [returns_iff hT hsound]
  exact and_iff_left fun _ _ _ _ => trivial

end Traversal

/-! ## Finite graphs -/

/-- In a finite graph without cycles no infinite path starts anywhere. -/
theorem acc_of_acyclic {ν : Type u} {r : ν → ν → Prop} {S : Set ν} (hS : S.Finite)
    (hr : ∀ p c, r p c → c ∈ S) (hacyclic : ∀ n, ¬ Relation.TransGen r n n) (p : ν) :
    Acc (fun c p => r p c) p := by
  have hfin : Finite S := hS
  let below : S → S → Prop := fun c p => Relation.TransGen r p c
  have htrans : IsTrans S below := ⟨fun _ _ _ hab hbc => Relation.TransGen.trans hbc hab⟩
  have hirrefl : Std.Irrefl below := ⟨fun n hn => hacyclic n hn⟩
  have hwf : WellFounded below := Finite.wellFounded_of_trans_of_irrefl below
  have hS' : ∀ c : S, Acc (fun c p => r p c) c.1 := by
    intro c
    induction c using hwf.induction with
    | _ c ih => exact Acc.intro c.1 fun c' hc' => ih ⟨c', hr _ _ hc'⟩ (.single hc')
  exact Acc.intro p fun c hc => hS' ⟨c, hr p c hc⟩

/-- No cycle goes through a node from which no infinite path starts. -/
theorem not_transGen_of_acc {ν : Type u} {r : ν → ν → Prop} {p : ν}
    (hacc : Acc (fun c p => r p c) p) : ¬ Relation.TransGen r p p := by
  induction hacc with
  | intro p _ ih =>
    intro hcycle
    obtain ⟨c, hpc, hcp⟩ := Relation.TransGen.head'_iff.mp hcycle
    exact ih c hpc (Relation.TransGen.tail' hcp hpc)

end Descent
