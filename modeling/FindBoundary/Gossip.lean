import FindBoundary.PairSweep

/-!
# Two sweeps over matched pairs: pooling sets and taking origins

* `gossip` — matched elements pool the sets they hold (`meet`). Afterwards an element holds at
  least what its direct partners held (`subset_gossip_of_rel`), and at most what the elements
  connected to it held (`gossip_subset`).
* `filling` — an element without an origin takes the origin of its partner (`fill`), and keeps it.
  An origin comes from an element reached through elements that had none (`filling_origin`).

When the matching relation is not transitive both depend on the order of the list. The `_head`
lemmas say what the first element of the list ends with, the `_relay` lemmas what is carried from
the first element over the second to the third.
-/

namespace Sweep

universe u v

variable {α : Type u} {β : Type v} [DecidableEq α]

/-! ## Pooling sets -/

/-- `a` and `b` meet: both leave with everything either of them held. -/
def meet (a b : α) (f : α → Set β) : α → Set β :=
  fun x => if x = a ∨ x = b then f a ∪ f b else f x

theorem meet_left (a b : α) (f : α → Set β) : meet a b f a = f a ∪ f b := by
  simp [meet]

theorem meet_right (a b : α) (f : α → Set β) : meet a b f b = f a ∪ f b := by
  simp [meet]

theorem meet_of_ne {a b x : α} (hxa : x ≠ a) (hxb : x ≠ b) (f : α → Set β) :
    meet a b f x = f x := by
  simp [meet, hxa, hxb]

/-- Meeting twice is meeting once. -/
@[simp] theorem meet_meet (a b : α) (f : α → Set β) : meet a b (meet a b f) = meet a b f := by
  funext x
  by_cases hx : x = a ∨ x = b
  · simp [meet, hx]
  · simp [meet, hx]

/-- Nobody forgets at a meeting. -/
theorem subset_meet (a b : α) (f : α → Set β) (x : α) : f x ⊆ meet a b f x := by
  intro p hp
  by_cases hx : x = a ∨ x = b
  · simp only [meet, if_pos hx]
    rcases hx with rfl | rfl
    · exact Or.inl hp
    · exact Or.inr hp
  · simpa only [meet, if_neg hx] using hp

/-- What is held after a meeting was held before it, by the same element or by its partner. -/
theorem mem_meet {a b x : α} {f : α → Set β} {p : β} (hp : p ∈ meet a b f x) :
    p ∈ f x ∨ (x = a ∧ p ∈ f b) ∨ (x = b ∧ p ∈ f a) := by
  by_cases hxa : x = a
  · subst hxa
    rw [meet_left] at hp
    exact hp.imp id fun h => Or.inl ⟨rfl, h⟩
  · by_cases hxb : x = b
    · subst hxb
      rw [meet_right] at hp
      exact hp.symm.imp id fun h => Or.inr ⟨rfl, h⟩
    · rw [meet_of_ne hxa hxb] at hp
      exact Or.inl hp

variable (M : α → α → Prop) [DecidableRel M]

/-- One step of the gossip: matched elements meet. -/
def gossipStep (a b : α) (f : α → Set β) : α → Set β := if M a b then meet a b f else f

/-- Let every matched pair of the list meet, in the order of the list. -/
def gossip (l : List α) (f : α → Set β) : α → Set β := pairSweep (gossipStep M) l f

variable {M}

theorem subset_gossipStep (a b : α) (f : α → Set β) (x : α) : f x ⊆ gossipStep M a b f x := by
  simp only [gossipStep]
  split
  · exact subset_meet a b f x
  · exact Set.Subset.rfl

theorem mem_gossipStep {a b x : α} {f : α → Set β} {p : β} (hp : p ∈ gossipStep M a b f x) :
    p ∈ f x ∨ (M a b ∧ x = a ∧ p ∈ f b) ∨ (M a b ∧ x = b ∧ p ∈ f a) := by
  simp only [gossipStep] at hp
  split at hp
  · rename_i hM
    exact (mem_meet hp).imp id fun h => h.imp (And.intro hM) (And.intro hM)
  · exact Or.inl hp

/-- A step on other elements leaves `x` alone. -/
theorem gossipStep_of_ne {a b x : α} (hxa : x ≠ a) (hxb : x ≠ b) (f : α → Set β) :
    gossipStep M a b f x = f x := by
  simp only [gossipStep]
  split
  · exact meet_of_ne hxa hxb f
  · rfl

theorem subset_gossip {l : List α} (hl : l.Nodup) (f : α → Set β) (x : α) :
    f x ⊆ gossip M l f x :=
  pairSweep_invariant (P := fun (g : α → Set β) => f x ⊆ g x) hl
    (fun a _ b _ _ g h => h.trans (subset_gossipStep a b g x)) Set.Subset.rfl

/-- **Lower bound**: an element ends with everything a direct partner of it held. -/
theorem subset_gossip_of_rel (hsymm : ∀ a b, M a b → M b a) {l : List α} (hl : l.Nodup)
    {x y : α} (hx : x ∈ l) (hy : y ∈ l) (hxy : x ≠ y) (hM : M x y) (f : α → Set β) :
    f y ⊆ gossip M l f x := by
  refine pairSweep_establishes (P := fun (g : α → Set β) => f y ⊆ g y)
    (Q := fun (g : α → Set β) => f y ⊆ g x) hxy
    ?_ ?_ hl hx hy ?_ ?_ Set.Subset.rfl
  · intro g hg
    rw [gossipStep, if_pos hM, meet_left]
    exact hg.trans Set.subset_union_right
  · intro g hg
    rw [gossipStep, if_pos (hsymm x y hM), meet_right]
    exact hg.trans Set.subset_union_left
  · intro a _ b _ _ g hg
    exact hg.trans (subset_gossipStep a b g y)
  · intro a _ b _ _ g _ hg
    exact hg.trans (subset_gossipStep a b g x)

/-- **Upper bound**: what an element ends with was held by an element connected to it. -/
theorem gossip_subset (hsymm : ∀ a b, M a b → M b a) {l : List α} (hl : l.Nodup)
    {f : α → Set β} {x : α} {p : β} (hp : p ∈ gossip M l f x) :
    ∃ y, Relation.ReflTransGen M x y ∧ p ∈ f y := by
  refine pairSweep_invariant
    (P := fun (g : α → Set β) => ∀ x, p ∈ g x → ∃ y, Relation.ReflTransGen M x y ∧ p ∈ f y)
    hl ?_ ?_ x hp
  · intro a _ b _ _ g hg z hz
    rcases mem_gossipStep hz with hp | ⟨hM, rfl, hp⟩ | ⟨hM, rfl, hp⟩
    · exact hg z hp
    · obtain ⟨y, hy, hpy⟩ := hg b hp
      exact ⟨y, Relation.ReflTransGen.head hM hy, hpy⟩
    · obtain ⟨y, hy, hpy⟩ := hg a hp
      exact ⟨y, Relation.ReflTransGen.head (hsymm a z hM) hy, hpy⟩
  · intro z hz
    exact ⟨z, Relation.ReflTransGen.refl, hz⟩

/-- A sweep over a list leaves the elements outside it alone. -/
theorem gossip_of_not_mem {l : List α} (hl : l.Nodup) {x : α} (hx : x ∉ l) (f : α → Set β) :
    gossip M l f x = f x := by
  refine pairSweep_invariant (P := fun (g : α → Set β) => g x = f x) hl ?_ rfl
  intro a ha b hb _ g hg
  have hxa : x ≠ a := fun h => hx (h ▸ ha)
  have hxb : x ≠ b := fun h => hx (h ▸ hb)
  rw [gossipStep_of_ne hxa hxb, hg]

/-- **The first element hears its direct partners only**: all its meetings come before anyone
else has met. -/
theorem gossip_head {l : List α} {x : α} (hl : (x :: l).Nodup) {f : α → Set β} {p : β}
    (hp : p ∈ gossip M (x :: l) f x) : p ∈ f x ∨ ∃ y ∈ l, M x y ∧ p ∈ f y := by
  obtain ⟨hx, hl'⟩ := List.nodup_cons.mp hl
  change p ∈ gossip M l (l.foldl (fun g b => gossipStep M x b g) f) x at hp
  rw [gossip_of_not_mem hl' hx] at hp
  clear hl hl'
  induction l generalizing f with
  | nil => exact Or.inl hp
  | cons b l ih =>
    have hxb : x ≠ b := fun h => hx (h ▸ List.mem_cons_self ..)
    have hxl : x ∉ l := fun h => hx (List.mem_cons_of_mem _ h)
    -- an element still to be met holds what it held, unless it is `b` itself
    have hback : ∀ y, y ≠ x → p ∈ gossipStep M x b f y →
        p ∈ f y ∨ (M x b ∧ y = b ∧ p ∈ f x) := by
      intro y hyx hy
      rcases mem_gossipStep hy with h | ⟨-, h, -⟩ | ⟨hM, rfl, h⟩
      · exact Or.inl h
      · exact absurd h hyx
      · exact Or.inr ⟨hM, rfl, h⟩
    rcases ih hxl hp with hpx | ⟨y, hy, hM, hpy⟩
    · rcases mem_gossipStep hpx with h | ⟨hM, -, h⟩ | ⟨-, h, -⟩
      · exact Or.inl h
      · exact Or.inr ⟨b, List.mem_cons_self .., hM, h⟩
      · exact absurd h hxb
    · rcases hback y (fun h => hxl (h ▸ hy)) hpy with h | ⟨-, -, h⟩
      · exact Or.inr ⟨y, List.mem_cons_of_mem _ hy, hM, h⟩
      · exact Or.inl h

/-- **Relay**: the second element carries what the first held to the third. -/
theorem gossip_relay (hsymm : ∀ a b, M a b → M b a) {y g x : α} {l : List α}
    (hl : (y :: g :: x :: l).Nodup) (hyg : M y g) (hgx : M g x) (f : α → Set β) :
    f y ⊆ gossip M (y :: g :: x :: l) f x := by
  obtain ⟨hy, hl'⟩ := List.nodup_cons.mp hl
  have hgx' : g ≠ x := fun h =>
    (List.nodup_cons.mp hl').1 (h ▸ List.mem_cons_self ..)
  let f' : α → Set β := (g :: x :: l).foldl (fun f b => gossipStep M y b f) f
  have hstep : f y ⊆ f' g := by
    refine inner_establishes (P := fun (k : α → Set β) => f y ⊆ k y)
      (Q := fun (k : α → Set β) => f y ⊆ k g)
      ?_ ?_ (List.mem_cons_self ..) ?_ Set.Subset.rfl
    · intro b _ k hk
      exact hk.trans (subset_gossipStep y b k y)
    · intro b _ k _ hk
      exact hk.trans (subset_gossipStep y b k g)
    · intro k hk
      rw [gossipStep, if_pos hyg, meet_right]
      exact hk.trans Set.subset_union_left
  change f y ⊆ gossip M (g :: x :: l) f' x
  exact hstep.trans (subset_gossip_of_rel hsymm hl'
    (List.mem_cons_of_mem _ (List.mem_cons_self ..)) (List.mem_cons_self ..) hgx'.symm
    (hsymm g x hgx) f')

/-! ## Taking origins -/

/-- `a` and `b` compare origins: the one that has none takes the other's. -/
def fill (a b : α) (g : α → Option β) : α → Option β :=
  if (g a).isNone then Function.update g a (g b)
  else if (g b).isNone then Function.update g b (g a)
  else g

theorem fill_of_none {a b : α} {g : α → Option β} (ha : g a = none) :
    fill a b g = Function.update g a (g b) := by
  simp [fill, ha]

theorem fill_of_some_none {a b : α} {g : α → Option β} (ha : g a ≠ none) (hb : g b = none) :
    fill a b g = Function.update g b (g a) := by
  simp [fill, ha, hb]

theorem fill_of_some_some {a b : α} {g : α → Option β} (ha : g a ≠ none) (hb : g b ≠ none) :
    fill a b g = g := by
  simp [fill, ha, hb]

/-- An origin, once taken, is kept. -/
theorem fill_of_eq_some {a b x : α} {g : α → Option β} {o : β} (hx : g x = some o) :
    fill a b g x = some o := by
  have hne : ∀ c, g c = none → x ≠ c := by
    rintro c hc rfl
    rw [hx] at hc
    cases hc
  by_cases ha : g a = none
  · rw [fill_of_none ha, Function.update_of_ne (hne a ha), hx]
  · by_cases hb : g b = none
    · rw [fill_of_some_none ha hb, Function.update_of_ne (hne b hb), hx]
    · rw [fill_of_some_some ha hb, hx]

/-- A new origin is the partner's. -/
theorem fill_eq_some {a b x : α} {g : α → Option β} {o : β} (hx : fill a b g x = some o) :
    g x = some o ∨ (x = a ∧ g a = none ∧ g b = some o) ∨
      (x = b ∧ g b = none ∧ g a = some o) := by
  by_cases ha : g a = none
  · rw [fill_of_none ha] at hx
    by_cases hxa : x = a
    · subst hxa
      rw [Function.update_self] at hx
      exact Or.inr (Or.inl ⟨rfl, ha, hx⟩)
    · rw [Function.update_of_ne hxa] at hx
      exact Or.inl hx
  · by_cases hb : g b = none
    · rw [fill_of_some_none ha hb] at hx
      by_cases hxb : x = b
      · subst hxb
        rw [Function.update_self] at hx
        exact Or.inr (Or.inr ⟨rfl, hb, hx⟩)
      · rw [Function.update_of_ne hxb] at hx
        exact Or.inl hx
    · rw [fill_of_some_some ha hb] at hx
      exact Or.inl hx

/-- After comparing, either both have an origin or neither does. -/
theorem fill_isNone_iff (a b : α) (g : α → Option β) :
    fill a b g a = none ↔ fill a b g b = none := by
  by_cases ha : g a = none
  · rw [fill_of_none ha, Function.update_self]
    by_cases hba : b = a
    · subst hba
      rw [Function.update_self]
    · rw [Function.update_of_ne hba]
  · by_cases hb : g b = none
    · have hab : a ≠ b := fun h => ha (h ▸ hb)
      rw [fill_of_some_none ha hb, Function.update_self, Function.update_of_ne hab]
    · rw [fill_of_some_some ha hb]
      exact iff_of_false ha hb

/-- Comparing twice is comparing once. -/
@[simp] theorem fill_fill (a b : α) (g : α → Option β) : fill a b (fill a b g) = fill a b g := by
  by_cases h : fill a b g a = none
  · have hb : fill a b g b = none := (fill_isNone_iff a b g).mp h
    rw [fill_of_none h, hb, ← h, Function.update_eq_self]
  · have hb : fill a b g b ≠ none := fun hb => h ((fill_isNone_iff a b g).mpr hb)
    rw [fill_of_some_some h hb]

variable (M)

/-- One step of the filling: matched elements compare origins. -/
def fillStep (a b : α) (g : α → Option β) : α → Option β := if M a b then fill a b g else g

/-- Let every matched pair of the list compare origins, in the order of the list. -/
def filling (l : List α) (g : α → Option β) : α → Option β := pairSweep (fillStep M) l g

variable {M}

theorem fillStep_of_eq_some {a b x : α} {g : α → Option β} {o : β} (hx : g x = some o) :
    fillStep M a b g x = some o := by
  simp only [fillStep]
  split
  · exact fill_of_eq_some hx
  · exact hx

theorem fillStep_ne_none {a b x : α} {g : α → Option β} (hx : g x ≠ none) :
    fillStep M a b g x ≠ none := by
  obtain ⟨o, ho⟩ := Option.ne_none_iff_exists'.mp hx
  rw [fillStep_of_eq_some ho]
  exact Option.some_ne_none o

theorem fillStep_eq_some {a b x : α} {g : α → Option β} {o : β}
    (hx : fillStep M a b g x = some o) :
    g x = some o ∨ (M a b ∧ x = a ∧ g a = none ∧ g b = some o) ∨
      (M a b ∧ x = b ∧ g b = none ∧ g a = some o) := by
  simp only [fillStep] at hx
  split at hx
  · rename_i hM
    exact (fill_eq_some hx).imp id fun h => h.imp (And.intro hM) (And.intro hM)
  · exact Or.inl hx

/-- **An origin is for ever**: who has one before the sweep has the same one after it. -/
theorem filling_of_eq_some {l : List α} (hl : l.Nodup) {g : α → Option β} {x : α} {o : β}
    (hx : g x = some o) : filling M l g x = some o :=
  pairSweep_invariant (P := fun (k : α → Option β) => k x = some o) hl
    (fun _ _ _ _ _ _ hk => fillStep_of_eq_some hk) hx

/-- An element with a direct partner that has an origin ends with one. -/
theorem filling_ne_none (hsymm : ∀ a b, M a b → M b a) {l : List α} (hl : l.Nodup) {x y : α}
    (hx : x ∈ l) (hy : y ∈ l) (hxy : x ≠ y) (hM : M x y) {g : α → Option β}
    (hgy : g y ≠ none) : filling M l g x ≠ none := by
  refine pairSweep_establishes (P := fun (k : α → Option β) => k y ≠ none)
    (Q := fun (k : α → Option β) => k x ≠ none) hxy ?_ ?_ hl hx hy ?_ ?_ hgy
  · intro k hk hkx
    rw [fillStep, if_pos hM] at hkx
    exact fillStep_ne_none (M := M) (a := x) (b := y) hk
      (by rw [fillStep, if_pos hM]; exact (fill_isNone_iff x y k).mp hkx)
  · intro k hk hkx
    rw [fillStep, if_pos (hsymm x y hM)] at hkx
    exact fillStep_ne_none (M := M) (a := y) (b := x) hk
      (by rw [fillStep, if_pos (hsymm x y hM)]; exact (fill_isNone_iff y x k).mpr hkx)
  · intro a _ b _ _ k hk
    exact fillStep_ne_none hk
  · intro a _ b _ _ k _ hk
    exact fillStep_ne_none hk

/-- **Where origins come from**: an origin reaches an element through elements that had none. -/
theorem filling_origin (hsymm : ∀ a b, M a b → M b a) {l : List α} (hl : l.Nodup)
    {g : α → Option β} {x : α} {o : β} (hx : filling M l g x = some o) :
    ∃ z, Relation.ReflTransGen (fun u v => M u v ∧ g u = none) x z ∧ g z = some o := by
  -- the origins found so far extend `g`, and each comes along such a path
  suffices h : (∀ y, filling M l g y = none → g y = none) ∧
      ∀ x o, filling M l g x = some o →
        ∃ z, Relation.ReflTransGen (fun u v => M u v ∧ g u = none) x z ∧ g z = some o from
    h.2 x o hx
  refine pairSweep_invariant
    (P := fun (k : α → Option β) => (∀ y, k y = none → g y = none) ∧
      ∀ x o, k x = some o →
        ∃ z, Relation.ReflTransGen (fun u v => M u v ∧ g u = none) x z ∧ g z = some o)
    hl ?_ ⟨fun _ h => h, fun y o hy => ⟨y, Relation.ReflTransGen.refl, hy⟩⟩
  · rintro a _ b _ _ k ⟨hnone, hk⟩
    refine ⟨?_, ?_⟩
    · intro y hy
      by_contra hgy
      exact fillStep_ne_none (fun h => hgy (hnone y h)) hy
    · intro y o hy
      rcases fillStep_eq_some hy with h | ⟨hM, rfl, hn, h⟩ | ⟨hM, rfl, hn, h⟩
      · exact hk y o h
      · obtain ⟨z, hz, hgz⟩ := hk b o h
        exact ⟨z, Relation.ReflTransGen.head ⟨hM, hnone y hn⟩ hz, hgz⟩
      · obtain ⟨z, hz, hgz⟩ := hk a o h
        exact ⟨z, Relation.ReflTransGen.head ⟨hsymm a y hM, hnone y hn⟩ hz, hgz⟩

/-- A sweep over a list leaves the elements outside it alone. -/
theorem filling_of_not_mem {l : List α} (hl : l.Nodup) {x : α} (hx : x ∉ l)
    (g : α → Option β) : filling M l g x = g x := by
  refine pairSweep_invariant (P := fun (k : α → Option β) => k x = g x) hl ?_ rfl
  intro a ha b hb _ k hk
  have hxa : x ≠ a := fun h => hx (h ▸ ha)
  have hxb : x ≠ b := fun h => hx (h ▸ hb)
  rw [← hk, fillStep]
  split
  · by_cases hka : k a = none
    · rw [fill_of_none hka, Function.update_of_ne hxa]
    · by_cases hkb : k b = none
      · rw [fill_of_some_none hka hkb, Function.update_of_ne hxb]
      · rw [fill_of_some_some hka hkb]
  · rfl

/-- **The first element asks its direct partners only**: if none of them has an origin, it ends
without one. -/
theorem filling_head_none {l : List α} {x : α} (hl : (x :: l).Nodup) {g : α → Option β}
    (hx : g x = none) (hy : ∀ y ∈ l, M x y → g y = none) :
    filling M (x :: l) g x = none := by
  obtain ⟨hxl, hl⟩ := List.nodup_cons.mp hl
  change filling M l (l.foldl (fun k b => fillStep M x b k) g) x = none
  rw [filling_of_not_mem hl hxl]
  have hsame : l.foldl (fun k b => fillStep M x b k) g = g := by
    refine inner_invariant (P := fun (k : α → Option β) => k = g) ?_ rfl
    rintro b hb k rfl
    rw [fillStep]
    split
    · rename_i hM
      rw [fill_of_none hx, hy b hb hM, ← hx, Function.update_eq_self]
    · rfl
  rw [hsame, hx]

/-- The first element, if it has no origin, takes that of a matching second element. -/
theorem filling_head_some {l : List α} {x y : α} (hl : (x :: y :: l).Nodup)
    {g : α → Option β} {o : β} (hx : g x = none) (hM : M x y) (hy : g y = some o) :
    filling M (x :: y :: l) g x = some o := by
  have hfirst : fillStep M x y g x = some o := by
    rw [fillStep, if_pos hM, fill_of_none hx, Function.update_self, hy]
  have hinner : l.foldl (fun k b => fillStep M x b k) (fillStep M x y g) x = some o :=
    inner_invariant (P := fun (k : α → Option β) => k x = some o)
      (fun b _ k hk => fillStep_of_eq_some hk) hfirst
  exact filling_of_eq_some (List.nodup_cons.mp hl).2 hinner

/-- **Relay**: the third element takes the origin of the first through the second. -/
theorem filling_relay {y f x : α} {l : List α} (hl : (y :: f :: x :: l).Nodup)
    {g : α → Option β} {o : β} (hy : g y = some o) (hf : g f = none) (hx : g x = none)
    (hyf : M y f) (hfx : M f x) : filling M (y :: f :: x :: l) g x = some o := by
  have hl' := (List.nodup_cons.mp hl).2
  have hfx' : f ≠ x := fun h =>
    (List.nodup_cons.mp hl').1 (h ▸ List.mem_cons_self ..)
  -- during the first inner loop `y` keeps `o`, and others can only come to `o`
  let P : (α → Option β) → Prop := fun k =>
    k y = some o ∧ (k f = none ∨ k f = some o) ∧ (k x = none ∨ k x = some o)
  have hother : ∀ b k z, k y = some o → (k z = none ∨ k z = some o) →
      fillStep M y b k z = none ∨ fillStep M y b k z = some o := by
    intro b k z hky hkz
    rcases hkz with hkz | hkz
    · cases hz : fillStep M y b k z with
      | none => exact Or.inl rfl
      | some o' =>
        rcases fillStep_eq_some hz with h | ⟨-, rfl, h, -⟩ | ⟨-, -, -, h⟩
        · rw [hkz] at h
          cases h
        · rw [hky] at h
          cases h
        · exact Or.inr (by rw [← h, hky])
    · exact Or.inr (fillStep_of_eq_some hkz)
  have hP : ∀ b k, P k → P (fillStep M y b k) := fun b k hk =>
    ⟨fillStep_of_eq_some hk.1, hother b k f hk.1 hk.2.1, hother b k x hk.1 hk.2.2⟩
  let g' : α → Option β := (f :: x :: l).foldl (fun k b => fillStep M y b k) g
  have hg' : P g' :=
    inner_invariant (fun b _ k hk => hP b k hk) ⟨hy, Or.inl hf, Or.inl hx⟩
  have hg'f : g' f = some o := by
    refine inner_establishes (P := P) (Q := fun k => k f = some o)
      (fun b _ k hk => hP b k hk) (fun b _ k _ hk => fillStep_of_eq_some hk)
      (List.mem_cons_self ..) ?_ ⟨hy, Or.inl hf, Or.inl hx⟩
    rintro k ⟨hky, hkf | hkf, -⟩
    · rw [fillStep, if_pos hyf,
        fill_of_some_none (hky ▸ Option.some_ne_none o) hkf, Function.update_self, hky]
    · exact fillStep_of_eq_some hkf
  change filling M (f :: x :: l) g' x = some o
  rcases hg'.2.2 with hg'x | hg'x
  · have hstep : fillStep M f x g' x = some o := by
      rw [fillStep, if_pos hfx, fill_of_some_none (hg'f ▸ Option.some_ne_none o) hg'x,
        Function.update_self, hg'f]
    have hinner : l.foldl (fun k b => fillStep M f b k) (fillStep M f x g') x = some o :=
      inner_invariant (P := fun (k : α → Option β) => k x = some o)
        (fun b _ k hk => fillStep_of_eq_some hk) hstep
    exact filling_of_eq_some (List.nodup_cons.mp hl').2 hinner
  · exact filling_of_eq_some hl' hg'x

end Sweep
