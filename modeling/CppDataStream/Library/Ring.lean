/-
# Circular arrays

An array of `m` cells is read from place `n` on, around its end.  `Ring m d n cells l`
says that the cells from `n` on hold the list `l`, and `d` after it.  Writing at the end
of the list appends, replacing an element keeps its place, and when the first cell holds
`d` again the list starts one place later.
-/

import CppDataStream.Library.Masks

namespace CppDataStream

variable {γ : Type*} {m n : ℕ} {d : γ} {cells : ℕ → γ} {l : List γ}

/-- From place `n` on the cells hold `l`, and then `d`. -/
def Ring (m : ℕ) (d : γ) (n : ℕ) (cells : ℕ → γ) (l : List γ) : Prop :=
  ∀ j < m, cells ((n + j) % m) = l.getD j d

namespace Ring

/-- At first all cells hold `d`. -/
theorem init (m : ℕ) (d : γ) : Ring m d 0 (fun _ => d) [] := fun _ _ => rfl

/-- The cell after the last element is free. -/
theorem get_length (h : Ring m d n cells l) (hl : l.length < m) : cells ((n + l.length) % m) = d := by
  rw [h _ hl, List.getD_eq_default _ _ le_rfl]

/-- Writing into the cell of place `j` writes into no other. -/
theorem update (h : Ring m d n cells l) {j : ℕ} (hj : j < m) (c : γ) {l' : List γ}
    (hl' : ∀ i, l'.getD i d = if i = j then c else l.getD i d) :
    Ring m d n (Function.update cells ((n + j) % m) c) l' := by
  intro i hi
  rw [hl']
  split_ifs with hij
  · rw [hij, Function.update_self]
  · rw [Function.update_of_ne fun heq => hij (Masks.add_mod_inj hi hj heq), h i hi]

/-- Writing into the first free cell appends to the list. -/
theorem append (h : Ring m d n cells l) (hl : l.length < m) (c : γ) :
    Ring m d n (Function.update cells ((n + l.length) % m) c) (l ++ [c]) := by
  refine h.update hl c fun i => ?_
  rcases Nat.lt_trichotomy i l.length with hi | rfl | hi
  · rw [if_neg hi.ne, List.getD_append _ _ _ _ hi]
  · rw [if_pos rfl, List.getD_append_right _ _ _ _ le_rfl, Nat.sub_self]
    rfl
  · rw [if_neg hi.ne', List.getD_eq_default _ _ (by rw [List.length_append]; exact hi),
      List.getD_eq_default _ _ hi.le]

/-- Writing into the first cell replaces the first element. -/
theorem set_head {b : γ} (h : Ring m d n cells (b :: l)) (hm : 0 < m) (c : γ) :
    Ring m d n (Function.update cells (n % m) c) (c :: l) := by
  refine h.update (j := 0) hm c fun i => ?_
  cases i <;> simp

/-- A list whose first cell is free starts one place later. -/
theorem tail (h : Ring m d n cells (d :: l)) (hl : l.length < m) : Ring m d (n + 1) cells l := by
  intro j hj
  rcases Nat.lt_or_ge (j + 1) m with hlt | hge
  · rw [Nat.add_assoc, Nat.add_comm 1 j, h (j + 1) hlt, List.getD_cons_succ]
  · obtain rfl : m = j + 1 := by omega
    have h₀ := h 0 (Nat.succ_pos j)
    rw [Nat.add_assoc, Nat.add_comm 1 j, Nat.add_mod_right, ← Nat.add_zero n, h₀, List.getD_cons_zero,
      List.getD_eq_default _ _ (by omega)]

/-- If the list is empty, every cell holds `d`, wherever the array is read from. -/
theorem eq_of_nil (h : Ring m d n cells []) {j : ℕ} (hj : j < m) : cells j = d := by
  have hmod : n % m < m := Nat.mod_lt _ (Nat.zero_lt_of_lt hj)
  have hdiv := Nat.div_add_mod n m
  have hplace : (n + (j + (m - n % m)) % m) % m = j := by
    calc (n + (j + (m - n % m)) % m) % m = (n + (j + (m - n % m))) % m := Nat.add_mod_mod ..
      _ = (j + m * (n / m + 1)) % m := by congr 1; rw [Nat.mul_succ]; omega
      _ = j := by rw [Nat.add_mul_mod_self_left, Nat.mod_eq_of_lt hj]
  exact (congrArg cells hplace).symm.trans (h _ (Nat.mod_lt _ (Nat.zero_lt_of_lt hj)))

end Ring
end CppDataStream
