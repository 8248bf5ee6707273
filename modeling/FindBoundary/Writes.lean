import Mathlib.Data.List.Nodup
import Mathlib.Logic.Function.Basic

/-!
# Writes, one after the other

A store starts empty and is written at some keys, maybe at the same key more than once. What is in
it in the end is what was written last (`perform_empty_eq_some_iff`).
-/

namespace Writes

universe u v

variable {κ : Type u} {β : Type v} {writes : List (κ × β)} {k : κ} {b : β}

/-- The value is the last one that is written at the key. -/
def Stands (writes : List (κ × β)) (k : κ) (b : β) : Prop :=
  ∃ before after, writes = before ++ (k, b) :: after ∧ k ∉ after.map Prod.fst

theorem Stands.mem (h : Stands writes k b) : (k, b) ∈ writes := by
  obtain ⟨before, after, rfl, -⟩ := h
  exact List.mem_append_right _ List.mem_cons_self

/-- If no key is written twice then every write stands. -/
theorem stands_iff_mem (h : (writes.map Prod.fst).Nodup) : Stands writes k b ↔ (k, b) ∈ writes := by
  refine ⟨Stands.mem, fun hmem => ?_⟩
  obtain ⟨before, after, rfl⟩ := List.append_of_mem hmem
  rw [List.map_append, List.map_cons] at h
  exact ⟨before, after, rfl, (List.nodup_cons.mp h.of_append_right).1⟩

variable [DecidableEq κ]

/-- The write that stands is the first one from behind. -/
theorem lookup_reverse_eq_some_iff : writes.reverse.lookup k = some b ↔ Stands writes k b := by
  rw [List.lookup_eq_some_iff]
  constructor
  · rintro ⟨later, earlier, hsplit, hlater⟩
    refine ⟨earlier.reverse, later.reverse, ?_, ?_⟩
    · rw [← List.reverse_reverse writes, hsplit]
      simp
    · intro hmem
      obtain ⟨w, hw, heq⟩ := List.mem_map.mp hmem
      exact bne_iff_ne.mp (hlater w (List.mem_reverse.mp hw)) heq.symm
  · rintro ⟨before, after, rfl, hafter⟩
    refine ⟨after.reverse, before.reverse, by simp, ?_⟩
    intro w hw
    exact bne_iff_ne.mpr fun heq =>
      hafter (List.mem_map.mpr ⟨w, List.mem_reverse.mp hw, heq.symm⟩)

/-- The writes in their order. -/
def perform (writes : List (κ × β)) (m : κ → Option β) : κ → Option β :=
  writes.foldl (fun m w => Function.update m w.1 (some w.2)) m

theorem perform_cons (w : κ × β) (writes : List (κ × β)) (m : κ → Option β) :
    perform (w :: writes) m = perform writes (Function.update m w.1 (some w.2)) := rfl

theorem perform_apply (writes : List (κ × β)) (k : κ) :
    ∀ m : κ → Option β, perform writes m k = (writes.reverse.lookup k).or (m k) := by
  induction writes with
  | nil =>
    intro m
    rfl
  | cons w writes ih =>
    intro m
    rw [perform_cons, ih, List.reverse_cons, List.lookup_append, Option.or_assoc]
    congr 1
    by_cases heq : k = w.1
    · rw [heq, Function.update_self, List.lookup_cons_self, Option.some_or]
    · have hlookup : [w].lookup k = none := List.lookup_eq_none_iff.mpr (by simpa using heq)
      rw [Function.update_of_ne heq, hlookup, Option.none_or]

/-- **The last write stands.** -/
theorem perform_empty_eq_some_iff :
    perform writes (fun _ => none) k = some b ↔ Stands writes k b := by
  rw [perform_apply, Option.or_none, lookup_reverse_eq_some_iff]

/-- Different keys may have other names, as long as these are different too. -/
theorem perform_map {κ' : Type u} [DecidableEq κ'] {f : κ → κ'} (hf : Function.Injective f)
    (writes : List (κ × β)) (k : κ) :
    ∀ m : κ' → Option β,
      perform (writes.map (Prod.map f id)) m (f k) = perform writes (fun k => m (f k)) k := by
  induction writes with
  | nil =>
    intro m
    rfl
  | cons w writes ih =>
    intro m
    have hwrite : (fun k => Function.update m (f w.1) (some w.2) (f k)) =
        Function.update (fun k => m (f k)) w.1 (some w.2) :=
      Function.update_comp_eq_of_injective m hf w.1 (some w.2)
    rw [List.map_cons, perform_cons, perform_cons, ih]
    exact congrArg (perform writes · k) hwrite

end Writes
