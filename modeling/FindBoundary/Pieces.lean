import Mathlib.Data.List.Infix

/-!
# The pieces between separators

A list that contains no separator is a part of another one exactly if it is a part of one of the
pieces that the other is split into at its separators.
-/

namespace Pieces

universe u

variable {α : Type u} [DecidableEq α] {sep : α}

/-- An element in front becomes a piece of its own, or goes to the first piece. -/
theorem splitOn_cons (sep x : α) (l : List α) :
    ∃ piece pieces, l.splitOn sep = piece :: pieces ∧
      (x :: l).splitOn sep = if x = sep then [] :: piece :: pieces else (x :: piece) :: pieces := by
  obtain ⟨piece, pieces, hl⟩ := List.exists_cons_of_ne_nil (List.splitOn_ne_nil sep l)
  refine ⟨piece, pieces, hl, ?_⟩
  rw [List.splitOn_cons_eq_if_modifyHead, hl, List.modifyHead_cons]
  by_cases hx : x = sep
  · rw [if_pos hx, if_pos (beq_iff_eq.mpr hx)]
  · rw [if_neg hx, if_neg fun hbeq => hx (beq_iff_eq.mp hbeq)]

/-- Without separators, a beginning of the list is one of the first piece. -/
theorem prefix_iff {l : List α} : ∀ {key : List α}, sep ∉ key →
    ∀ {piece : List α} {pieces : List (List α)}, l.splitOn sep = piece :: pieces →
      (key <+: l ↔ key <+: piece) := by
  induction l with
  | nil =>
    intro key _ piece pieces hl
    cases hl
    exact Iff.rfl
  | cons x l ih =>
    intro key hkey piece pieces hl
    obtain ⟨piece', pieces', hl', hcons⟩ := splitOn_cons sep x l
    rw [hcons] at hl
    cases key with
    | nil => exact iff_of_true List.nil_prefix List.nil_prefix
    | cons k key =>
      rw [List.mem_cons, not_or] at hkey
      obtain ⟨hk, hkey'⟩ := hkey
      split at hl
      · rename_i hx
        cases hl
        rw [List.cons_prefix_cons, List.prefix_nil]
        exact iff_of_false (fun h => hk (hx.symm.trans h.1.symm)) (List.cons_ne_nil _ _)
      · cases hl
        rw [List.cons_prefix_cons, List.cons_prefix_cons, ih hkey' hl']

/-- **A part without separators is a part of a piece.** -/
theorem infix_iff {key : List α} (hkey : sep ∉ key) {l : List α} :
    key <:+: l ↔ ∃ piece ∈ l.splitOn sep, key <:+: piece := by
  induction l with
  | nil => simp
  | cons x l ih =>
    obtain ⟨piece, pieces, hl, hcons⟩ := splitOn_cons sep x l
    rw [hcons, List.infix_cons_iff, ih, hl]
    split
    · rename_i hx
      -- the separator begins no part of the key
      have hpre : key <+: x :: l ↔ key <:+: [] := by
        rw [prefix_iff hkey (hcons.trans (if_pos hx)), List.prefix_nil, List.infix_nil]
      rw [hpre, List.exists_mem_cons_iff (l := piece :: pieces)]
    · rename_i hx
      rw [prefix_iff hkey (hcons.trans (if_neg hx)), List.exists_mem_cons_iff,
        List.exists_mem_cons_iff, List.infix_cons_iff, or_assoc]

end Pieces
