import FindBoundary.Outcome
import Mathlib.Data.Finset.Card

/-!
# How deep a traversal nests

The fuel of `descend` is the number of calls that may be open at once. Where the edge alone decides
what the loop does, a traversal that stops, be it in a state or at a fault, has never had more calls
open than there are nodes: a node that is open twice is open again and again
(`descend_card_eq`). So it can be decided whether a traversal stops.
-/

namespace Descent

universe u v w x

namespace Traversal

variable {ν : Type u} {κ : Type v} {σ : Type w} {ε : Type x} {T : Traversal ν κ σ ε}
  {follow sound : ν → ν → Prop}

/-- A loop that runs out of fuel does so at a child that it enters. -/
theorem enters_of_loop_outOfFuel (hT : T.Uniform follow)
    (hsound : ∀ p c l s, (∃ turn, T.body p c l s = .ok turn) ↔ sound p c) {fuel : ℕ} {p : ν} :
    ∀ {rest done : List ν} {l : κ} {s : σ}, T.children p = done ++ rest →
      (∀ c ∈ done, T.Passes follow sound p c) →
      T.loop (T.descend fuel) p rest l s = .error .outOfFuel →
      ∃ c s', T.Enters follow sound p c ∧ T.descend fuel c s' = .error .outOfFuel := by
  intro rest
  induction rest with
  | nil =>
    intro done l s _ _ h
    cases h
  | cons c rest ih =>
    intro done l s hchildren hdone h
    have hrest : T.Passes follow sound p c → ∀ {l s},
        T.loop (T.descend fuel) p rest l s = .error .outOfFuel →
        ∃ c s', T.Enters follow sound p c ∧ T.descend fuel c s' = .error .outOfFuel := by
      intro hc l s
      have hchildren' : T.children p = done ++ [c] ++ rest := by simpa using hchildren
      refine ih hchildren' fun c' hc' => ?_
      rcases List.mem_append.mp hc' with hc' | hc'
      · exact hdone c' hc'
      · rw [List.mem_singleton.mp hc']
        exact hc
    rw [loop] at h
    cases hbody : T.body p c l s with
    | error e =>
      simp only [hbody] at h
      cases h
    | ok turn =>
      have hs : sound p c := (hsound p c l s).mp ⟨turn, hbody⟩
      cases turn with
      | next l₁ s₁ =>
        simp only [hbody] at h
        exact hrest ⟨hs, fun hf => absurd hf (hT.next hbody)⟩ h
      | into l₁ s₁ =>
        simp only [hbody] at h
        cases hs₂ : T.descend fuel c s₁ with
        | error stop =>
          simp only [hs₂] at h
          cases h
          exact ⟨c, s₁, ⟨⟨done, rest, hchildren, hdone⟩, hs, hT.into hbody⟩, hs₂⟩
        | ok s₂ =>
          simp only [hs₂] at h
          obtain ⟨hacc, hbelow⟩ := of_descend_eq_ok hT
            (fun p c l s turn hb => (hsound p c l s).mp ⟨turn, hb⟩) hs₂
          exact hrest ⟨hs, fun _ => ⟨hacc, hbelow⟩⟩ h

/-- A traversal that stops enters no infinite path. -/
theorem acc_enters_of_descend (hT : T.Uniform follow)
    (hsound : ∀ p c l s, (∃ turn, T.body p c l s = .ok turn) ↔ sound p c) {fuel : ℕ} {p : ν}
    {s : σ} (h : T.descend fuel p s ≠ .error .outOfFuel) :
    Acc (fun c p => T.Enters follow sound p c) p := by
  cases hs : T.descend fuel p s with
  | ok s' =>
    obtain ⟨hacc, hbelow⟩ := of_descend_eq_ok hT
      (fun p c l s turn hb => (hsound p c l s).mp ⟨turn, hb⟩) hs
    exact Settles.acc_enters ⟨hacc, hbelow⟩
  | error stop =>
    cases stop with
    | outOfFuel => exact absurd hs h
    | fault e => exact (fails_of_descend hT hsound hs).acc_enters

/-- Where no infinite path is entered, one call for each node suffices. -/
theorem descend_card_ne_outOfFuel (hT : T.Uniform follow)
    (hsound : ∀ p c l s, (∃ turn, T.body p c l s = .ok turn) ↔ sound p c) {p : ν}
    (hacc : Acc (fun c p => T.Enters follow sound p c) p) :
    ∀ {S : Finset ν}, (∀ q, Relation.ReflTransGen (T.Enters follow sound) p q → q ∈ S) →
      ∀ s, T.descend S.card p s ≠ .error .outOfFuel := by
  classical
  induction hacc with
  | intro p hp ih =>
    intro S hS s hout
    have hcard : (S.erase p).card + 1 = S.card := Finset.card_erase_add_one (hS p .refl)
    rw [← hcard, descend] at hout
    obtain ⟨c, s', hc, hout'⟩ := enters_of_loop_outOfFuel hT hsound (List.nil_append _).symm
      (fun c hc => absurd hc List.not_mem_nil) hout
    -- from the child it does not come back to `p`
    refine ih c hc (S := S.erase p) (fun q hq => ?_) s' hout'
    refine Finset.mem_erase.mpr ⟨?_, hS q (.head hc hq)⟩
    rintro rfl
    exact not_transGen_of_acc (Acc.intro q hp) (Relation.TransGen.head' hc hq)

/-- **A traversal that stops has no more calls open at once than there are nodes**: with that much
fuel it comes to the same end. -/
theorem descend_card_eq (hT : T.Uniform follow)
    (hsound : ∀ p c l s, (∃ turn, T.body p c l s = .ok turn) ↔ sound p c) {p : ν} {S : Finset ν}
    (hS : ∀ q, Relation.ReflTransGen (T.Enters follow sound) p q → q ∈ S) {fuel : ℕ} {s : σ}
    (h : T.descend fuel p s ≠ .error .outOfFuel) :
    T.descend S.card p s = T.descend fuel p s := by
  have hcard : T.descend S.card p s ≠ .error .outOfFuel :=
    descend_card_ne_outOfFuel hT hsound (acc_enters_of_descend hT hsound h) hS s
  rcases Nat.le_total fuel S.card with hle | hle
  · exact descend_mono_le hle h
  · exact (descend_mono_le hle hcard).symm

end Traversal

end Descent
