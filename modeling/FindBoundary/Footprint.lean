import Mathlib.Data.Set.Function
import Mathlib.Data.Set.Lattice
import Mathlib.Data.List.Pairwise
import Mathlib.Logic.Function.Basic
import Mathlib.Order.CompletePartialOrder

/-!
# Operations with a footprint

A store assigns a value to each key. An operation on stores *has the footprint* `U` when it
writes at the keys in `U` only, and what it writes there depends on nothing but the values there.
Operations with disjoint footprints commute (`Footprint.comm`), so a list of them may be carried
out in any order (`foldl_perm`).

Footprints are found from the shape of an operation: one update has the key as its footprint,
sequences and loops have the union of the parts, and a test may look at a key of the footprint.
-/

namespace Store

universe u v w

variable {κ : Type u} {α : Type v} {ι : Type w}

/-- The operation `f` writes and reads at the keys in `U` only. -/
structure Footprint (U : Set κ) (f : (κ → α) → κ → α) : Prop where
  /-- the rest of the store is left alone -/
  frame : ∀ v, Set.EqOn (f v) v Uᶜ
  /-- and has no influence -/
  congr : ∀ v w, Set.EqOn v w U → Set.EqOn (f v) (f w) U

namespace Footprint

variable {U V : Set κ} {f g : (κ → α) → κ → α}

theorem mono (hf : Footprint U f) (hUV : U ⊆ V) : Footprint V f := by
  refine ⟨fun v => (hf.frame v).mono (Set.compl_subset_compl.mpr hUV), fun v w hvw i hi => ?_⟩
  by_cases hU : i ∈ U
  · exact hf.congr v w (hvw.mono hUV) hU
  · rw [hf.frame v hU, hf.frame w hU]
    exact hvw hi

theorem id (U : Set κ) : Footprint U (fun v : κ → α => v) := ⟨fun _ _ _ => rfl, fun _ _ h => h⟩

/-- Two operations, one after the other. -/
theorem comp (hg : Footprint U g) (hf : Footprint U f) : Footprint U fun v => g (f v) :=
  ⟨fun v => (hg.frame _).trans (hf.frame v),
    fun v w hvw => hg.congr _ _ (hf.congr v w hvw)⟩

/-- A loop over a list. -/
theorem foldl {op : ι → (κ → α) → κ → α} {l : List ι} (hop : ∀ i ∈ l, Footprint U (op i)) :
    Footprint U fun v => l.foldl (fun v i => op i v) v := by
  induction l with
  | nil => exact .id U
  | cons i l ih =>
    exact (ih fun j hj => hop j (List.mem_cons_of_mem _ hj)).comp (hop i (List.mem_cons_self ..))

/-- A test of what stands at a key of the footprint. -/
theorem ite {k : κ} (p : α → Prop) [DecidablePred p] (hk : k ∈ U) (hf : Footprint U f)
    (hg : Footprint U g) : Footprint U fun v => if p (v k) then f v else g v := by
  refine ⟨fun v => ?_, fun v w hvw => ?_⟩
  · split
    · exact hf.frame v
    · exact hg.frame v
  · rw [hvw hk]
    split
    · exact hf.congr v w hvw
    · exact hg.congr v w hvw

/-- One write, of something computed from the old value. -/
theorem update [DecidableEq κ] (k : κ) (h : α → α) :
    Footprint {k} fun v : κ → α => Function.update v k (h (v k)) := by
  refine ⟨fun v i hi => Function.update_of_ne hi _ _, fun v w hvw i hi => ?_⟩
  obtain rfl := Set.mem_singleton_iff.mp hi
  simp only [Function.update_self]
  rw [hvw rfl]

/-- **Operations with disjoint footprints commute.** -/
theorem comm (hf : Footprint U f) (hg : Footprint V g) (hUV : Disjoint U V) (v : κ → α) :
    f (g v) = g (f v) := by
  have hg' : Set.EqOn (g v) v U := (hg.frame v).mono (Set.subset_compl_iff_disjoint_right.mpr hUV)
  have hf' : Set.EqOn (f v) v V :=
    (hf.frame v).mono (Set.subset_compl_iff_disjoint_left.mpr hUV)
  funext i
  by_cases hU : i ∈ U
  · have hV : i ∉ V := Set.disjoint_left.mp hUV hU
    rw [hg.frame (f v) hV]
    exact hf.congr _ _ hg' hU
  · rw [hf.frame (g v) hU]
    by_cases hV : i ∈ V
    · exact hg.congr _ _ hf'.symm hV
    · rw [hg.frame v hV, hg.frame (f v) hV, hf.frame v hU]

/-- Operations with pairwise disjoint footprints may be carried out in any order. -/
theorem foldl_perm {op : ι → (κ → α) → κ → α} {U : ι → Set κ}
    (hop : ∀ i, Footprint (U i) (op i)) {l l' : List ι} (hperm : l.Perm l')
    (hl : l.Pairwise fun i j => Disjoint (U i) (U j)) (v : κ → α) :
    l.foldl (fun v i => op i v) v = l'.foldl (fun v i => op i v) v := by
  have : Std.Symm fun i j => Disjoint (U i) (U j) := ⟨fun _ _ h => h.symm⟩
  refine hperm.foldl_eq' (fun i hi j hj w => ?_) v
  by_cases hij : i = j
  · rw [hij]
  · exact (hop j).comm (hop i) (hl.forall hj hi fun h => hij h.symm) w

end Footprint

end Store
