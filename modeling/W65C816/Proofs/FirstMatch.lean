/-!
# The first element of a list that answers

Whoever comes first in a list and satisfies a predicate is found by `List.find?` and changed by
`updateFirst`.

* `find?_updateFirst_of_eq` and `find?_updateFirst_of_ne`: a change shows to those who find the
  element that was changed, and to nobody else.
* `updateFirst_congr`: to change an element it does not matter under which predicate it is found.
-/

namespace W65C816

variable {α : Type} {p q : α → Bool} {f g : α → α}

/-- Replaces the first element that satisfies `p` by its image under `f`. -/
def updateFirst (p : α → Bool) (f : α → α) : List α → List α
  | [] => []
  | x :: l => if p x then f x :: l else x :: updateFirst p f l

/-- Only what becomes of the element found matters. -/
theorem updateFirst_congr_right (l : List α) (h : ∀ x, l.find? p = some x → f x = g x) :
    updateFirst p f l = updateFirst p g l := by
  induction l with
  | nil => rfl
  | cons x l ih =>
      by_cases hx : p x = true
      · rw [updateFirst, updateFirst, if_pos hx, if_pos hx, h x (List.find?_cons_of_pos hx)]
      · rw [updateFirst, updateFirst, if_neg hx, if_neg hx, ih]
        intro y hy
        exact h y ((List.find?_cons_of_neg hx).trans hy)

/-- An update that does not change what it finds changes nothing. -/
theorem updateFirst_self (l : List α) (h : ∀ x, l.find? p = some x → f x = x) :
    updateFirst p f l = l := by
  induction l with
  | nil => rfl
  | cons x l ih =>
      by_cases hx : p x = true
      · rw [updateFirst, if_pos hx, h x (List.find?_cons_of_pos hx)]
      · rw [updateFirst, if_neg hx, ih]
        intro y hy
        exact h y ((List.find?_cons_of_neg hx).trans hy)

theorem updateFirst_of_none (l : List α) (h : l.find? p = none) : updateFirst p f l = l := by
  refine updateFirst_self l ?_
  intro x hx
  rw [h] at hx
  cases hx

/-- Two predicates that find the same element update the same element. -/
theorem updateFirst_congr (l : List α) (h : l.find? p = l.find? q) :
    updateFirst p f l = updateFirst q f l := by
  induction l with
  | nil => rfl
  | cons x l ih =>
      by_cases hp : p x = true
      · by_cases hq : q x = true
        · rw [updateFirst, updateFirst, if_pos hp, if_pos hq]
        · rw [List.find?_cons_of_pos hp, List.find?_cons_of_neg hq] at h
          exact absurd (List.find?_some h.symm) hq
      · by_cases hq : q x = true
        · rw [List.find?_cons_of_neg hp, List.find?_cons_of_pos hq] at h
          exact absurd (List.find?_some h) hp
        · rw [List.find?_cons_of_neg hp, List.find?_cons_of_neg hq] at h
          rw [updateFirst, updateFirst, if_neg hp, if_neg hq, ih h]

/-- An update that leaves `p` as it was finds the same element a second time. -/
theorem updateFirst_updateFirst (l : List α) (hp : ∀ x, p (f x) = p x) :
    updateFirst p g (updateFirst p f l) = updateFirst p (fun x => g (f x)) l := by
  induction l with
  | nil => rfl
  | cons x l ih =>
      by_cases hx : p x = true
      · rw [updateFirst, updateFirst, if_pos hx, if_pos hx, updateFirst, if_pos ((hp x).trans hx)]
      · rw [updateFirst, updateFirst, if_neg hx, if_neg hx, updateFirst, if_neg hx, ih]

/-- The element that was updated is still the one found under `q`, if it was before. -/
theorem find?_updateFirst_of_eq (l : List α) (hq : ∀ x, q (f x) = q x)
    (h : l.find? p = l.find? q) : (updateFirst p f l).find? q = (l.find? q).map f := by
  rw [updateFirst_congr l h]
  clear h
  induction l with
  | nil => rfl
  | cons x l ih =>
      by_cases hx : q x = true
      · rw [updateFirst, if_pos hx, List.find?_cons_of_pos ((hq x).trans hx),
          List.find?_cons_of_pos hx]
        rfl
      · rw [updateFirst, if_neg hx, List.find?_cons_of_neg hx, List.find?_cons_of_neg hx, ih]

/-- What is found under `q` stays the same when another element is updated. -/
theorem find?_updateFirst_of_ne (l : List α) (hq : ∀ x, q (f x) = q x)
    (h : l.find? p ≠ l.find? q) : (updateFirst p f l).find? q = l.find? q := by
  -- At the head of the list the two predicates part: the update passes over what `q` finds, or `q`
  -- over what is updated.
  induction l with
  | nil => rfl
  | cons x l ih =>
      by_cases hp : p x = true
      · by_cases hx : q x = true
        · rw [List.find?_cons_of_pos hp, List.find?_cons_of_pos hx] at h
          exact absurd rfl h
        · have hfx : ¬ q (f x) = true := by rw [hq]; exact hx
          rw [updateFirst, if_pos hp, List.find?_cons_of_neg hfx, List.find?_cons_of_neg hx]
      · by_cases hx : q x = true
        · rw [updateFirst, if_neg hp, List.find?_cons_of_pos hx, List.find?_cons_of_pos hx]
        · rw [List.find?_cons_of_neg hp, List.find?_cons_of_neg hx] at h
          rw [updateFirst, if_neg hp, List.find?_cons_of_neg hx, List.find?_cons_of_neg hx, ih h]

/-- What is found under another predicate than an element that satisfies both comes before it. -/
theorem find?_before {x y : α} (l : List α) (hx : l.find? p = some x) (hq : q x = true)
    (hy : l.find? q = some y) : y = x ∨ ¬ p y = true := by
  induction l with
  | nil => cases hx
  | cons z l ih =>
      by_cases hpz : p z = true
      · have hzx : z = x := Option.some.inj ((List.find?_cons_of_pos hpz).symm.trans hx)
        subst hzx
        exact Or.inl (Option.some.inj (hy.symm.trans (List.find?_cons_of_pos hq)))
      · by_cases hqz : q z = true
        · have hzy : z = y := Option.some.inj ((List.find?_cons_of_pos hqz).symm.trans hy)
          subst hzy
          exact Or.inr hpz
        · exact ih ((List.find?_cons_of_neg hpz).symm.trans hx)
            ((List.find?_cons_of_neg hqz).symm.trans hy)

theorem updateFirst_append_left (l m : List α) {x : α} (h : l.find? p = some x) :
    updateFirst p f (l ++ m) = updateFirst p f l ++ m := by
  induction l with
  | nil => cases h
  | cons y l ih =>
      by_cases hy : p y = true
      · rw [List.cons_append, updateFirst, if_pos hy, updateFirst, if_pos hy, List.cons_append]
      · rw [List.find?_cons_of_neg hy] at h
        rw [List.cons_append, updateFirst, if_neg hy, updateFirst, if_neg hy, ih h,
          List.cons_append]

theorem updateFirst_append_right (l m : List α) (h : l.find? p = none) :
    updateFirst p f (l ++ m) = l ++ updateFirst p f m := by
  induction l with
  | nil => rfl
  | cons y l ih =>
      have hy : ¬ p y = true := by
        intro hy
        rw [List.find?_cons_of_pos hy] at h
        cases h
      rw [List.find?_cons_of_neg hy] at h
      rw [List.cons_append, updateFirst, if_neg hy, ih h, List.cons_append]

/-- An update that a map does not see does not change the image of the list. -/
theorem map_updateFirst {β : Type} {e : α → β} (l : List α) (he : ∀ x, e (f x) = e x) :
    (updateFirst p f l).map e = l.map e := by
  induction l with
  | nil => rfl
  | cons x l ih =>
      by_cases hx : p x = true
      · rw [updateFirst, if_pos hx, List.map_cons, List.map_cons, he]
      · rw [updateFirst, if_neg hx, List.map_cons, List.map_cons, ih]

/-- Updating commutes with a map under which the predicate and the update have counterparts. -/
theorem updateFirst_map {β : Type} {r : β → Bool} {k : β → β} (e : β → α)
    (hr : ∀ x, r x = p (e x)) (hk : ∀ x, e (k x) = f (e x)) (l : List β) :
    (updateFirst r k l).map e = updateFirst p f (l.map e) := by
  induction l with
  | nil => rfl
  | cons x l ih =>
      by_cases hx : r x = true
      · rw [updateFirst, if_pos hx, List.map_cons, List.map_cons, updateFirst,
          if_pos ((hr x).symm.trans hx), hk]
      · have hpx : ¬ p (e x) = true := by rw [← hr]; exact hx
        rw [updateFirst, if_neg hx, List.map_cons, List.map_cons, updateFirst, if_neg hpx, ih]

end W65C816
