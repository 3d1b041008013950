/-!
# Perfect binary trees

A `Tree α n` holds one value of type `α` for each number below `2 ^ n`. Looking one up or
replacing it follows the bits of the number from the highest down. Equal halves can be shared, so
`Tree.uniform` takes room for `n` nodes only.

`Tree.get_update_self`, `Tree.get_update_ne` and `Tree.get_uniform` say all there is to know about
the contents.
-/

namespace W65C816

/-- A perfect binary tree of depth `n`. -/
inductive Tree (α : Type) : Nat → Type where
  | leaf (value : α) : Tree α 0
  | fork {n : Nat} (low high : Tree α n) : Tree α (n + 1)

namespace Tree

variable {α : Type}

/-- The tree that holds the same value everywhere. -/
def uniform (v : α) : (n : Nat) → Tree α n
  | 0 => leaf v
  | n + 1 =>
      let half := uniform v n
      fork half half

/-- The value at position `i`. Bits of `i` above the depth of the tree do not matter. -/
def get : {n : Nat} → Tree α n → Nat → α
  | 0, leaf v, _ => v
  | n + 1, fork low high, i => if i.testBit n then high.get i else low.get i

/-- Replaces the value at position `i` by its image under `f`. -/
def update (f : α → α) : {n : Nat} → Tree α n → Nat → Tree α n
  | 0, leaf v, _ => leaf (f v)
  | n + 1, fork low high, i =>
      if i.testBit n then fork low (high.update f i) else fork (low.update f i) high

/-- A uniform tree has its value everywhere. -/
theorem get_uniform (v : α) (n i : Nat) : (uniform v n).get i = v := by
  induction n with
  | zero => rfl
  | succ n ih =>
      simp only [uniform, get]
      rw [ih]
      exact ite_self v

/-- An update changes the leaf that it goes to. -/
theorem get_update_self (f : α → α) {n : Nat} (t : Tree α n) (i : Nat) :
    (t.update f i).get i = f (t.get i) := by
  induction t with
  | leaf v => rfl
  | @fork n low high ihl ihh =>
      by_cases hb : i.testBit n
      · simp only [update, get, if_pos hb]
        exact ihh
      · simp only [update, get, if_neg hb]
        exact ihl

/-- A position that differs in one of the bits that count keeps its value. -/
theorem get_update_ne (f : α → α) {n : Nat} (t : Tree α n) {i j : Nat}
    (h : ∃ k, k < n ∧ i.testBit k ≠ j.testBit k) : (t.update f i).get j = t.get j := by
  induction t with
  | leaf v =>
      obtain ⟨k, hk, -⟩ := h
      exact absurd hk (Nat.not_lt_zero k)
  | @fork n low high ihl ihh =>
      obtain ⟨k, hk, hne⟩ := h
      -- The top bit picks the half. If it does not tell the positions apart, a lower bit does.
      have below : i.testBit n = j.testBit n → ∃ k, k < n ∧ i.testBit k ≠ j.testBit k := by
        intro hb
        refine ⟨k, ?_, hne⟩
        rcases Nat.lt_succ_iff_lt_or_eq.mp hk with hlt | rfl
        · exact hlt
        · exact absurd hb hne
      by_cases hi : i.testBit n
      · by_cases hj : j.testBit n
        · simp only [update, get, if_pos hi, if_pos hj]
          exact ihh (below (by rw [hi, hj]))
        · simp only [update, get, if_pos hi, if_neg hj]
      · by_cases hj : j.testBit n
        · simp only [update, get, if_neg hi, if_pos hj]
        · simp only [update, get, if_neg hi, if_neg hj]
          exact ihl (below (by simp_all))

end Tree

end W65C816
