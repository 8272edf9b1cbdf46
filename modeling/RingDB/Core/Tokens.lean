import Mathlib.Data.List.Flatten
import Mathlib.Data.List.Perm.Subperm

/-!
# Tokens that may be lost and not duplicated

Tokens are passed around, and each carries a list of items.  A place may lose a token or an item, so
that what is there after a step is a part of what was there before (`List.Subperm`).  The lemmas say
what that means for a list of tokens without repetitions and for the number of times that an item is
carried.  Nothing here is about a particular program: the types of the tokens and of their items are
arbitrary.
-/

namespace Core

variable {τ ι : Type*}

/-- A part of a list without repetitions, also behind a list that it shares nothing with. -/
theorem nodup_append_of_subperm {l l' done : List τ} (h : l'.Subperm l)
    (hnodup : (l ++ done).Nodup) : (l' ++ done).Nodup := by
  rcases h with ⟨mid, hperm, hsub⟩
  have hmid : (mid ++ done).Nodup := hnodup.sublist (hsub.append_right done)
  exact (hperm.append_right done).nodup_iff.1 hmid

variable [BEq ι]

/-- Fewer tokens carry an item no more often. -/
theorem count_flatMap_le_of_subperm {f : τ → List ι} {l l' : List τ} (h : l'.Subperm l) (x : ι) :
    (l'.flatMap f).count x ≤ (l.flatMap f).count x := by
  rcases h with ⟨mid, hperm, hsub⟩
  rw [← (hperm.flatMap_right f).count_eq x]
  exact (hsub.flatMap f).count_le x

/-- Neither do tokens that carry no more. -/
theorem count_flatMap_le {f g : τ → List ι} {l : List τ} (x : ι)
    (h : ∀ t ∈ l, (g t).count x ≤ (f t).count x) :
    (l.flatMap g).count x ≤ (l.flatMap f).count x := by
  induction l with
  | nil => exact Nat.le_refl _
  | cons t l ih =>
      have ht := h t List.mem_cons_self
      have hl := ih fun t' ht' => h t' (List.mem_cons_of_mem _ ht')
      rw [List.flatMap_cons, List.flatMap_cons, List.count_append, List.count_append]
      exact Nat.add_le_add ht hl

end Core
