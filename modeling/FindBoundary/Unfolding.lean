import FindBoundary.Outcome
import Mathlib.Algebra.Ring.Nat
import Mathlib.Data.List.Count

/-!
# What a traversal unfolds

A traversal that marks no nodes goes through a forest: below each child that it descends into there
is one more copy of the forest of that child. If the edge alone decides whether to descend, the
forest is a matter of the graph (`Unfolds`), there is one exactly if no infinite path of descents
starts at the node (`exists_unfolds_iff`), and the traversal does at each of its nodes, in order,
what the loop body does there (`Performs.exists_unfolds`). It can be large: if along a path every
node has the next one as a child twice, the last one is in the forest exponentially often
(`Unfolds.two_pow_le_countP`).

The outline of a forest has its nodes in order, each with its depth, and determines the forest
(`outline_inj`).
-/

namespace Descent

universe u v w x y

/-! ## Forests -/

/-- An ordered forest: the root of its first tree, what is below that, and the other trees. -/
inductive Forest (ν : Type u) : Type u where
  | nil
  | cons (root : ν) (below rest : Forest ν)

namespace Forest

variable {ν : Type u} {μ : Type v} {σ : Type w}

/-- The nodes in order. -/
def nodes : Forest ν → List ν
  | nil => []
  | cons root below rest => root :: (below.nodes ++ rest.nodes)

/-- The nodes in order, with their depths. -/
def outline : ℕ → Forest ν → List (ν × ℕ)
  | _, nil => []
  | d, cons root below rest => (root, d) :: (below.outline (d + 1) ++ rest.outline d)

/-- The same forest, with other nodes. -/
def map (g : ν → μ) : Forest ν → Forest μ
  | nil => nil
  | cons root below rest => cons (g root) (below.map g) (rest.map g)

/-- The same forest, with the depth at every node. -/
def mark : ℕ → Forest ν → Forest (ν × ℕ)
  | _, nil => nil
  | d, cons root below rest => cons (root, d) (below.mark (d + 1)) (rest.mark d)

theorem nodes_mark (f : Forest ν) : ∀ d, (f.mark d).nodes = f.outline d := by
  induction f with
  | nil => exact fun _ => rfl
  | cons root below rest ihb ihr =>
    intro d
    simp [outline, mark, nodes, ihb, ihr]

theorem outline_map (g : ν → μ) (f : Forest ν) :
    ∀ d, (f.map g).outline d = (f.outline d).map (Prod.map g id) := by
  induction f with
  | nil => exact fun _ => rfl
  | cons root below rest ihb ihr =>
    intro d
    simp [outline, map, ihb, ihr]

theorem outline_succ (f : Forest ν) : ∀ d, f.outline (d + 1) =
    (f.outline d).map (Prod.map id Nat.succ) := by
  induction f with
  | nil => exact fun _ => rfl
  | cons root below rest ihb ihr =>
    intro d
    simp [outline, ihb (d + 1), ihr]

theorem map_fst_outline (f : Forest ν) : ∀ d, (f.outline d).map Prod.fst = f.nodes := by
  induction f with
  | nil => exact fun _ => rfl
  | cons root below rest ihb ihr =>
    intro d
    simp [outline, nodes, ihb, ihr]

theorem foldl_nodes_cons (eff : σ → ν → σ) (root : ν) (below rest : Forest ν) (s : σ) :
    (cons root below rest).nodes.foldl eff s =
      rest.nodes.foldl eff (below.nodes.foldl eff (eff s root)) := by
  rw [nodes, List.foldl_cons, List.foldl_append]

/-- Nothing in the list comes before something less deep than `d`. -/
def Shallow (d : ℕ) (l : List (ν × ℕ)) : Prop := ∀ x ∈ l.head?, x.2 < d

theorem Shallow.outline_append {d : ℕ} {l : List (ν × ℕ)} (h : Shallow d l) (f : Forest ν) :
    Shallow (d + 1) (f.outline d ++ l) := by
  intro x hx
  cases f with
  | nil => exact Nat.lt_succ_of_lt (h x hx)
  | cons root below rest =>
    obtain rfl := Option.some.inj hx
    exact Nat.lt_succ_self d

/-- An outline ends where something less deep follows. -/
theorem outline_append_inj {f : Forest ν} : ∀ {g : Forest ν} {d : ℕ} {l l' : List (ν × ℕ)},
    Shallow d l → Shallow d l' → f.outline d ++ l = g.outline d ++ l' → f = g ∧ l = l' := by
  induction f with
  | nil =>
    intro g d l l' hl _ h
    cases g with
    | nil => exact ⟨rfl, h⟩
    | cons root below rest =>
      rw [outline, List.nil_append] at h
      exact absurd (hl (root, d) (by rw [h]; rfl)) (Nat.lt_irrefl d)
  | cons root below rest ihb ihr =>
    intro g d l l' hl hl' h
    cases g with
    | nil =>
      rw [outline, outline, List.nil_append] at h
      exact absurd (hl' (root, d) (by rw [← h]; rfl)) (Nat.lt_irrefl d)
    | cons root' below' rest' =>
      simp only [outline, List.cons_append, List.append_assoc, List.cons.injEq, Prod.mk.injEq,
        and_true] at h
      obtain ⟨rfl, hbelow⟩ := h
      obtain ⟨rfl, hrest⟩ := ihb (hl.outline_append rest) (hl'.outline_append rest') hbelow
      obtain ⟨rfl, heq⟩ := ihr hl hl' hrest
      exact ⟨rfl, heq⟩

/-- **The outline determines the forest.** -/
theorem outline_inj {f g : Forest ν} {d : ℕ} (h : f.outline d = g.outline d) : f = g := by
  have hnil : Shallow (ν := ν) d [] := fun x hx => by cases hx
  exact (outline_append_inj hnil hnil (congrArg (· ++ []) h)).1

end Forest

/-! ## Unfolding -/

section Unfolding

variable {ν : Type u} {children : ν → List ν} {follow : ν → ν → Prop}

/-- What the loop at a node unfolds of some of its children. -/
inductive Unfolds (children : ν → List ν) (follow : ν → ν → Prop) :
    ν → List ν → Forest ν → Prop
  | nil {p : ν} : Unfolds children follow p [] .nil
  | next {p c : ν} {rest : List ν} {f : Forest ν} : ¬ follow p c →
      Unfolds children follow p rest f → Unfolds children follow p (c :: rest) f
  | into {p c : ν} {rest : List ν} {below f : Forest ν} : follow p c →
      Unfolds children follow c (children c) below → Unfolds children follow p rest f →
      Unfolds children follow p (c :: rest) (.cons c below f)

/-- There is one forest at most. -/
theorem Unfolds.unique {p : ν} {l : List ν} {f f' : Forest ν} (h : Unfolds children follow p l f)
    (h' : Unfolds children follow p l f') : f = f' := by
  induction h generalizing f' with
  | nil =>
    cases h'
    rfl
  | next hnot _ ih =>
    cases h' with
    | next _ hrest => exact ih hrest
    | into hf _ _ => exact absurd hf hnot
  | into hf _ _ ihb ihr =>
    cases h' with
    | next hnot _ => exact absurd hf hnot
    | into _ hbelow hrest => rw [ihb hbelow, ihr hrest]

/-- No infinite path starts at the children that have been unfolded. -/
theorem Unfolds.acc {p : ν} {l : List ν} {f : Forest ν} (h : Unfolds children follow p l f) :
    ∀ c ∈ l, follow p c → Acc (fun c p => c ∈ children p ∧ follow p c) c := by
  induction h with
  | nil => exact fun c hc => absurd hc List.not_mem_nil
  | next hnot _ ih =>
    intro c hc hf
    rcases List.mem_cons.mp hc with rfl | hc
    · exact absurd hf hnot
    · exact ih c hc hf
  | into _ _ _ ihb ihr =>
    intro c hc hf
    rcases List.mem_cons.mp hc with rfl | hc
    · exact Acc.intro c fun c' hc' => ihb c' hc'.1 hc'.2
    · exact ihr c hc hf

/-- The children can be unfolded if each one can that is followed. -/
theorem exists_unfolds_of_forall {p : ν} {l : List ν}
    (h : ∀ c ∈ l, follow p c → ∃ f, Unfolds children follow c (children c) f) :
    ∃ f, Unfolds children follow p l f := by
  induction l with
  | nil => exact ⟨.nil, .nil⟩
  | cons c l ih =>
    obtain ⟨f, hf⟩ := ih fun c' hc' => h c' (List.mem_cons_of_mem c hc')
    by_cases hc : follow p c
    · obtain ⟨below, hbelow⟩ := h c List.mem_cons_self hc
      exact ⟨.cons c below f, .into hc hbelow hf⟩
    · exact ⟨f, .next hc hf⟩

/-- **When there is a forest**: exactly if no infinite path of descents starts at the node. -/
theorem exists_unfolds_iff {p : ν} : (∃ f, Unfolds children follow p (children p) f) ↔
    Acc (fun c p => c ∈ children p ∧ follow p c) p := by
  refine ⟨fun ⟨f, h⟩ => Acc.intro p fun c hc => h.acc c hc.1 hc.2, fun hacc => ?_⟩
  induction hacc with
  | intro p _ ih => exact exists_unfolds_of_forall fun c hc hf => ih c ⟨hc, hf⟩

/-- In the forest are children only. -/
theorem Unfolds.exists_mem_children {p : ν} {l : List ν} {f : Forest ν}
    (h : Unfolds children follow p l f) (hl : ∀ c ∈ l, c ∈ children p) :
    ∀ c ∈ f.nodes, ∃ q, c ∈ children q := by
  induction h with
  | nil => exact fun c hc => absurd hc List.not_mem_nil
  | next _ _ ih => exact ih fun c hc => hl c (List.mem_cons_of_mem _ hc)
  | into _ _ _ ihb ihr =>
    intro c hc
    rcases List.mem_cons.mp hc with rfl | hc
    · exact ⟨_, hl c List.mem_cons_self⟩
    · rcases List.mem_append.mp hc with hc | hc
      · exact ihb (fun c hc => hc) c hc
      · exact ihr (fun c hc => hl c (List.mem_cons_of_mem _ hc)) c hc

/-- The children of a node with its depth. -/
def markedChildren (children : ν → List ν) (q : ν × ℕ) : List (ν × ℕ) :=
  (children q.1).map fun c => (c, q.2 + 1)

/-- With the depths at the nodes of the graph, the forest has them, too. -/
theorem Unfolds.mark {p : ν} {l : List ν} {f : Forest ν} (h : Unfolds children follow p l f) :
    ∀ d, Unfolds (markedChildren children) (fun q c => follow q.1 c.1) (p, d)
      (l.map fun c => (c, d + 1)) (f.mark (d + 1)) := by
  induction h with
  | nil => exact fun d => .nil
  | next hnot _ ih => exact fun d => .next hnot (ih d)
  | into hf _ _ ihb ihr => exact fun d => .into hf (ihb (d + 1)) (ihr d)

/-- There is no other forest with depths. -/
theorem unfolds_marked_iff (children : ν → List ν) (follow : ν → ν → Prop) {p : ν} {d : ℕ}
    {F : Forest (ν × ℕ)} :
    Unfolds (markedChildren children) (fun q c => follow q.1 c.1) (p, d)
        (markedChildren children (p, d)) F ↔
      ∃ f, Unfolds children follow p (children p) f ∧ F = f.mark (d + 1) := by
  refine ⟨fun h => ?_, ?_⟩
  · have hunmark : ∀ {q : ν × ℕ} {l' : List (ν × ℕ)} {F : Forest (ν × ℕ)},
        Unfolds (markedChildren children) (fun q c => follow q.1 c.1) q l' F →
        ∀ l, l' = l.map (fun c => (c, q.2 + 1)) → ∃ f, Unfolds children follow q.1 l f := by
      intro q l' F h
      induction h with
      | nil =>
        intro l hl
        rw [List.map_eq_nil_iff.mp hl.symm]
        exact ⟨.nil, .nil⟩
      | next hnot _ ih =>
        intro l hl
        obtain ⟨c, l, rfl, rfl, rfl⟩ := List.map_eq_cons_iff.mp hl.symm
        obtain ⟨f, hf⟩ := ih l rfl
        exact ⟨f, .next hnot hf⟩
      | into hfollow _ _ ihb ihr =>
        intro l hl
        obtain ⟨c, l, rfl, rfl, rfl⟩ := List.map_eq_cons_iff.mp hl.symm
        obtain ⟨below, hbelow⟩ := ihb _ rfl
        obtain ⟨f, hf⟩ := ihr l rfl
        exact ⟨.cons c below f, .into hfollow hbelow hf⟩
    obtain ⟨f, hf⟩ := hunmark h (children p) rfl
    exact ⟨f, hf, h.unique (hf.mark d)⟩
  · rintro ⟨f, hf, rfl⟩
    exact hf.mark d

/-! ## The size -/

/-- Every occurrence of a child has its own copy of the forest below. -/
theorem Unfolds.count_mul_le_countP [DecidableEq ν] (P : ν → Bool) {p c : ν} {l : List ν}
    {f below : Forest ν} (h : Unfolds children follow p l f) (hf : follow p c)
    (hbelow : Unfolds children follow c (children c) below) :
    l.count c * ((c :: below.nodes).countP P) ≤ f.nodes.countP P := by
  induction h with
  | nil => exact Nat.le_of_eq (Nat.zero_mul _)
  | @next p c' rest f hnot _ ih =>
    have hne : c' ≠ c := by
      rintro rfl
      exact hnot hf
    rw [List.count_cons_of_ne hne]
    exact ih hf
  | @into p c' rest below' f hf' hbelow' _ _ ihr =>
    have hrest := ihr hf
    rw [Forest.nodes, ← List.cons_append, List.countP_append]
    rcases eq_or_ne c' c with rfl | hne
    · obtain rfl := hbelow.unique hbelow'
      rw [List.count_cons_self, Nat.add_mul]
      omega
    · rw [List.count_cons_of_ne hne]
      omega

/-- **A path on which every node has the next one as a child twice** makes the forest exponential.
-/
theorem Unfolds.two_pow_le_countP [DecidableEq ν] (P : ν → Bool) {n : ℕ} :
    ∀ (path : ℕ → ν) {f : Forest ν},
      (∀ i < n, 2 ≤ (children (path i)).count (path (i + 1)) ∧ follow (path i) (path (i + 1)) ∧
        P (path (i + 1)) = true) →
      Unfolds children follow (path 0) (children (path 0)) f →
        2 ^ n ≤ f.nodes.countP P + 1 := by
  induction n with
  | zero =>
    intro path f _ _
    exact Nat.le_add_left 1 _
  | succ n ih =>
    intro path f hpath h
    obtain ⟨htwice, hf, hP⟩ := hpath 0 (Nat.succ_pos n)
    have hmem : path 1 ∈ children (path 0) :=
      List.count_pos_iff.mp (Nat.lt_of_lt_of_le Nat.zero_lt_two htwice)
    obtain ⟨below, hbelow⟩ := exists_unfolds_iff.mpr (h.acc (path 1) hmem hf)
    have hpow : 2 ^ n ≤ below.nodes.countP P + 1 :=
      ih (fun i => path (i + 1)) (fun i hi => hpath (i + 1) (Nat.succ_lt_succ hi)) hbelow
    have hcount : (path 1 :: below.nodes).countP P = below.nodes.countP P + 1 :=
      List.countP_cons_of_pos hP
    calc 2 ^ (n + 1) = 2 * 2 ^ n := by rw [Nat.pow_succ, Nat.mul_comm]
      _ ≤ (children (path 0)).count (path 1) * (path 1 :: below.nodes).countP P :=
        Nat.mul_le_mul htwice (hcount ▸ hpow)
      _ ≤ f.nodes.countP P := h.count_mul_le_countP P hf hbelow
      _ ≤ f.nodes.countP P + 1 := Nat.le_succ _

end Unfolding

/-! ## The run -/

namespace Traversal

variable {ν : Type u} {κ : Type v} {σ : Type w} {τ : Type y} {ε : Type x}
  {T : Traversal ν κ σ ε} {follow : ν → ν → Prop} {eff : σ → ν → σ}

/-- A loop body that does not fail has the effect `eff` at the child and descends, or has none and
goes on, as the edge decides. -/
structure Performs (T : Traversal ν κ σ ε) (follow : ν → ν → Prop) (eff : σ → ν → σ) :
    Prop where
  next : ∀ {p c l s l' s'}, T.body p c l s = .ok (.next l' s') → ¬ follow p c ∧ s' = s
  into : ∀ {p c l s l' s'}, c ∈ T.children p → T.body p c l s = .ok (.into l' s') →
    follow p c ∧ s' = eff s c

/-- A loop that returns has gone through the forest of its children. -/
theorem Performs.exists_unfolds_of_loop (hT : T.Performs follow eff)
    {descendInto : ν → σ → Except (Stop ε) σ}
    (hdescend : ∀ {c s s'}, descendInto c s = .ok s' →
      ∃ f, Unfolds T.children follow c (T.children c) f ∧ s' = f.nodes.foldl eff s) {p : ν} :
    ∀ {rest : List ν} {l : κ} {s s' : σ}, (∀ c ∈ rest, c ∈ T.children p) →
      T.loop descendInto p rest l s = .ok s' →
      ∃ f, Unfolds T.children follow p rest f ∧ s' = f.nodes.foldl eff s := by
  intro rest
  induction rest with
  | nil =>
    intro l s s' _ h
    cases h
    exact ⟨.nil, .nil, rfl⟩
  | cons c rest ih =>
    intro l s s' hmem h
    have hmem' : ∀ c' ∈ rest, c' ∈ T.children p :=
      fun c' hc' => hmem c' (List.mem_cons_of_mem _ hc')
    rcases loop_cons_eq_ok h with ⟨l₁, s₁, hbody, hrest⟩ | ⟨l₁, s₁, s₂, hbody, hs₂, hrest⟩
    · obtain ⟨hnot, rfl⟩ := hT.next hbody
      obtain ⟨f, hf, rfl⟩ := ih hmem' hrest
      exact ⟨f, .next hnot hf, rfl⟩
    · obtain ⟨hfollow, rfl⟩ := hT.into (hmem c List.mem_cons_self) hbody
      obtain ⟨below, hbelow, rfl⟩ := hdescend hs₂
      obtain ⟨f, hf, rfl⟩ := ih hmem' hrest
      exact ⟨.cons c below f, .into hfollow hbelow hf,
        (Forest.foldl_nodes_cons eff c below f s).symm⟩

/-- **A traversal that returns has gone through its forest.** -/
theorem Performs.exists_unfolds (hT : T.Performs follow eff) {fuel : ℕ} : ∀ {p : ν} {s s' : σ},
    T.descend fuel p s = .ok s' →
      ∃ f, Unfolds T.children follow p (T.children p) f ∧ s' = f.nodes.foldl eff s := by
  induction fuel with
  | zero =>
    intro p s s' h
    cases h
  | succ fuel ih =>
    intro p s s' h
    exact hT.exists_unfolds_of_loop ih (fun c hc => hc) h

/-- Where a traversal returns, its forest is what it has gone through. -/
theorem Performs.descend_eq_ok_iff (hT : T.Performs follow eff) {p : ν} {s s' : σ} :
    (∃ fuel, T.descend fuel p s = .ok s') ↔ T.Returns p s ∧
      ∃ f, Unfolds T.children follow p (T.children p) f ∧ s' = f.nodes.foldl eff s := by
  refine ⟨fun ⟨fuel, h⟩ => ⟨⟨fuel, s', h⟩, hT.exists_unfolds h⟩, ?_⟩
  rintro ⟨⟨fuel, s₁, hs₁⟩, f, hf, rfl⟩
  obtain ⟨f₁, hf₁, rfl⟩ := hT.exists_unfolds hs₁
  rw [hf.unique hf₁]
  exact ⟨fuel, hs₁⟩

end Traversal

/-! ## What a run may keep besides -/

section Refinement

variable {ν : Type u} {κ : Type v} {σ : Type w} {τ : Type y} {ε : Type x}

/-- A turn with another state. -/
def Turn.map (g : τ → σ) : Turn κ τ → Turn κ σ
  | .next l s => .next l (g s)
  | .into l s => .into l (g s)

namespace Traversal

variable {U : Traversal ν κ τ ε} {T : Traversal ν κ σ ε} {g : τ → σ}

/-- `U` keeps more than `T`, and does the same to what `T` keeps. -/
structure Refines (U : Traversal ν κ τ ε) (T : Traversal ν κ σ ε) (g : τ → σ) : Prop where
  children : U.children = T.children
  enter : U.enter = T.enter
  body : ∀ p c l s, T.body p c l (g s) = (U.body p c l s).map (Turn.map g)

/-- Where `T` decides by the edge alone, so does `U`. -/
theorem Refines.uniform {follow : ν → ν → Prop} (hU : U.Refines T g) (hT : T.Uniform follow) :
    U.Uniform follow := by
  constructor
  case next =>
    intro p c l s l' s' hbody
    have hnext := hU.body p c l s
    rw [hbody] at hnext
    exact hT.next hnext
  case into =>
    intro p c l s l' s' hbody
    have hinto := hU.body p c l s
    rw [hbody] at hinto
    exact hT.into hinto

theorem Refines.loop (hU : U.Refines T g) {descendInto : ν → τ → Except (Stop ε) τ}
    {descendInto' : ν → σ → Except (Stop ε) σ}
    (hdescend : ∀ c s, descendInto' c (g s) = (descendInto c s).map g) (p : ν) :
    ∀ rest l s, T.loop descendInto' p rest l (g s) = (U.loop descendInto p rest l s).map g := by
  intro rest
  induction rest with
  | nil => exact fun _ _ => rfl
  | cons c rest ih =>
    intro l s
    rw [Traversal.loop, Traversal.loop, hU.body]
    cases hbody : U.body p c l s with
    | error e => rfl
    | ok turn =>
      cases turn with
      | next l₁ s₁ => exact ih l₁ s₁
      | into l₁ s₁ =>
        simp only [Except.map, Turn.map, hdescend]
        cases descendInto c s₁ with
        | error stop => rfl
        | ok s₂ => exact ih l₁ s₂

/-- The runs are the same, with more kept. -/
theorem Refines.descend (hU : U.Refines T g) : ∀ fuel p s,
    T.descend fuel p (g s) = (U.descend fuel p s).map g := by
  intro fuel
  induction fuel with
  | zero => exact fun _ _ => rfl
  | succ fuel ih =>
    intro p s
    rw [Traversal.descend, Traversal.descend, hU.children, hU.enter]
    exact hU.loop ih p (T.children p) T.enter s

theorem Refines.returns_iff (hU : U.Refines T g) {p : ν} {s : τ} :
    U.Returns p s ↔ T.Returns p (g s) := by
  refine ⟨fun ⟨fuel, s', h⟩ => ⟨fuel, g s', ?_⟩, fun ⟨fuel, s', h⟩ => ?_⟩
  · rw [hU.descend, h]
    rfl
  · rw [hU.descend] at h
    cases hs : U.descend fuel p s with
    | error stop => simp [hs, Except.map] at h
    | ok s₁ => exact ⟨fuel, s₁, hs⟩

end Traversal

end Refinement

end Descent
