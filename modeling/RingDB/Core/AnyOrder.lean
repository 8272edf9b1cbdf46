import Mathlib.Data.List.Perm.Basic
import RingDB.Core.Bytes

/-!
# Loops whose iterations run in any order

A loop over a list is `List.foldlM` of its iteration.  Where two neighbouring iterations can be
exchanged, the outcome of the loop does not depend on the order of the list.  An iteration may have
no outcome, and which fault it ends in may depend on the order; what is independent of the order is
which outcomes there are.

* **`foldlM_ok_of_perm`** — the exchange rule.
* `foldlM_bind_ok` — a loop that computes an index and then uses it is the loop over the indices.
-/

namespace Core

variable {φ α β γ : Type}

theorem foldlM_cons_ok {f : β → α → Except φ β} {a : α} {l : List α} {b c : β} :
    (a :: l).foldlM f b = .ok c ↔ ∃ b', f b a = .ok b' ∧ l.foldlM f b' = .ok c := by
  rw [List.foldlM_cons, bind_eq_ok]

/-- A loop fails in one of its iterations. -/
theorem foldlM_eq_error {f : β → α → Except φ β} {l : List α} {e : φ} :
    ∀ {b : β}, l.foldlM f b = .error e → ∃ a ∈ l, ∃ b', f b' a = .error e := by
  induction l with
  | nil =>
      intro b h
      cases h
  | cons a l ih =>
      intro b h
      rw [List.foldlM_cons] at h
      rcases bind_eq_error.1 h with hfirst | ⟨b', -, hrest⟩
      · exact ⟨a, List.mem_cons_self, b, hfirst⟩
      · rcases ih hrest with ⟨x, hx, b'', hstep⟩
        exact ⟨x, List.mem_cons_of_mem _ hx, b'', hstep⟩

/-- Two iterations in a row have the same outcomes in either order. -/
def Exchange (f : β → α → Except φ β) : Prop :=
  ∀ b x y c, [x, y].foldlM f b = .ok c → [y, x].foldlM f b = .ok c

/-- A loop whose iterations can be exchanged has the same outcomes in every order. -/
theorem foldlM_ok_of_perm {f : β → α → Except φ β} (hf : Exchange f) {l l' : List α}
    (hl : l.Perm l') : ∀ b c : β, l.foldlM f b = .ok c ↔ l'.foldlM f b = .ok c := by
  induction hl with
  | nil => intro b c; rfl
  | cons x _ ih =>
      intro b c
      simp only [foldlM_cons_ok, ih]
  | swap x y l =>
      intro b c
      rw [show y :: x :: l = [y, x] ++ l from rfl, show x :: y :: l = [x, y] ++ l from rfl,
        List.foldlM_append, List.foldlM_append, bind_eq_ok, bind_eq_ok]
      constructor
      · rintro ⟨b', hb, hc⟩
        exact ⟨b', hf b y x b' hb, hc⟩
      · rintro ⟨b', hb, hc⟩
        exact ⟨b', hf b x y b' hb, hc⟩
  | trans _ _ ih₁ ih₂ =>
      intro b c
      exact (ih₁ b c).trans (ih₂ b c)

/-- The indices may as well be computed before the loop. -/
theorem foldlM_bind_ok {g : α → Except φ γ} {f : β → γ → Except φ β} : ∀ {l : List α} {b c : β},
    l.foldlM (fun b a => g a >>= f b) b = .ok c
      ↔ (l.mapM g >>= fun ks => ks.foldlM f b) = .ok c := by
  intro l
  induction l with
  | nil =>
      intro b c
      rfl
  | cons a l ih =>
      intro b c
      simp only [foldlM_cons_ok, ih, List.mapM_cons, bind_eq_ok]
      constructor
      · rintro ⟨b', ⟨k, hk, hb⟩, ks, hks, hc⟩
        exact ⟨k :: ks, ⟨k, hk, ks, hks, rfl⟩, foldlM_cons_ok.2 ⟨b', hb, hc⟩⟩
      · rintro ⟨_, ⟨k, hk, ks, hks, ⟨⟩⟩, hc⟩
        rcases foldlM_cons_ok.1 hc with ⟨b', hb, hc⟩
        exact ⟨b', ⟨k, hk, hb⟩, ks, hks, hc⟩

end Core
