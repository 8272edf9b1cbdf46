import Mathlib.Data.List.Basic

/-!
# Messages in transit

Messages are launched, travel for a while, are put into one of several mailboxes and wait there
until the mailbox's owner takes them out.  `inTransit` lists those on either part of the way; the
lemmas say how the count of the messages of some kind changes when one is launched, delivered or
taken out.  The mailboxes have an arbitrary type `β`, from which `f` reads off the messages.
-/

namespace Core

variable {χ β : Type*}

/-- Everything launched and not taken out: on the way, or in a mailbox. -/
def inTransit (f : β → List χ) (flight : List χ) (boxes : List β) : List χ :=
  flight ++ boxes.flatMap f

variable {f : β → List χ} {flight : List χ} {boxes : List β} {p : χ → Bool}

theorem mem_inTransit {c : χ} :
    c ∈ inTransit f flight boxes ↔ c ∈ flight ∨ ∃ b ∈ boxes, c ∈ f b := by
  simp [inTransit]

theorem countP_eraseIdx_add {l : List χ} {k : ℕ} {c : χ} (h : l[k]? = some c) :
    (l.eraseIdx k).countP p + (if p c then 1 else 0) = l.countP p := by
  induction l generalizing k with
  | nil => simp at h
  | cons a l ih =>
      cases k with
      | zero =>
          simp only [List.getElem?_cons_zero, Option.some.injEq] at h
          subst h
          rw [List.eraseIdx_cons_zero, List.countP_cons]
      | succ k =>
          have hk := ih (by simpa using h)
          rw [List.eraseIdx_cons_succ, List.countP_cons, List.countP_cons]
          omega

/-- A list around one of its places, and what is done to it there. -/
theorem exists_split {l : List χ} {k : ℕ} {c : χ} (h : l[k]? = some c) :
    ∃ pre post, l = pre ++ c :: post ∧ l.eraseIdx k = pre ++ post ∧
      (∀ g : χ → χ, l.modify k g = pre ++ g c :: post) ∧ ∀ d, l.set k d = pre ++ d :: post := by
  rcases List.getElem?_eq_some_iff.1 h with ⟨hk, rfl⟩
  refine ⟨l.take k, l.drop (k + 1), ?_, List.eraseIdx_eq_take_drop_succ l k, fun g => ?_,
    fun d => ?_⟩
  · rw [← List.drop_eq_getElem_cons hk, List.take_append_drop]
  · rw [List.modify_eq_take_cons_drop hk]
  · rw [List.set_eq_take_append_cons_drop, if_pos hk]

/-- A change of one mailbox changes the count by what it does to that mailbox. -/
theorem countP_flatMap_modify {k : ℕ} {b : β} (g : β → β) (h : boxes[k]? = some b) :
    ((boxes.modify k g).flatMap f).countP p + (f b).countP p
      = (boxes.flatMap f).countP p + (f (g b)).countP p := by
  induction boxes generalizing k with
  | nil => simp at h
  | cons a boxes ih =>
      cases k with
      | zero =>
          simp only [List.getElem?_cons_zero, Option.some.injEq] at h
          subst h
          simp only [List.modify_zero_cons, List.flatMap_cons, List.countP_append]
          omega
      | succ k =>
          have hk := ih (by simpa using h)
          simp only [List.modify_succ_cons, List.flatMap_cons, List.countP_append]
          omega

/-- A change that leaves the messages of a mailbox alone. -/
theorem flatMap_modify_of_eq {g : β → β} (hg : ∀ b, f (g b) = f b) (boxes : List β) (k : ℕ) :
    (boxes.modify k g).flatMap f = boxes.flatMap f := by
  induction boxes generalizing k with
  | nil => simp
  | cons a boxes ih =>
      cases k with
      | zero => simp [List.flatMap_cons, hg]
      | succ k => simp [List.flatMap_cons, ih]

/-- The same for a mailbox that is replaced. -/
theorem countP_flatMap_set {k : ℕ} {b : β} (b' : β) (h : boxes[k]? = some b) :
    ((boxes.set k b').flatMap f).countP p + (f b).countP p
      = (boxes.flatMap f).countP p + (f b').countP p := by
  rcases exists_split h with ⟨pre, post, -, -, hmodify, hset⟩
  rw [hset, ← hmodify fun _ => b']
  exact countP_flatMap_modify (fun _ => b') h

theorem countP_inTransit_launch (flight : List χ) (boxes : List β) (cs : List χ) :
    (inTransit f (flight ++ cs) boxes).countP p
      = (inTransit f flight boxes).countP p + cs.countP p := by
  simp only [inTransit, List.countP_append]
  omega

theorem countP_inTransit_modify (flight : List χ) {k : ℕ} {b : β} (g : β → β)
    (h : boxes[k]? = some b) :
    (inTransit f flight (boxes.modify k g)).countP p + (f b).countP p
      = (inTransit f flight boxes).countP p + (f (g b)).countP p := by
  have hk := countP_flatMap_modify (f := f) (p := p) g h
  simp only [inTransit, List.countP_append]
  omega

/-- Delivery moves a message and loses none. -/
theorem countP_inTransit_deliver {i k : ℕ} {b : β} {c : χ} {g : β → β}
    (hi : flight[i]? = some c) (hk : boxes[k]? = some b) (hg : f (g b) = f b ++ [c]) :
    (inTransit f (flight.eraseIdx i) (boxes.modify k g)).countP p
      = (inTransit f flight boxes).countP p := by
  have hflight := countP_eraseIdx_add (p := p) hi
  have hbox := countP_flatMap_modify (f := f) (p := p) g hk
  simp only [hg, List.countP_append, List.countP_singleton] at hbox
  simp only [inTransit, List.countP_append]
  omega

end Core
