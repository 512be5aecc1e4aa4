import Mathlib

/-!
# Windows of a circular array

The cells of an array of `cap` cells that a window sees: `n` of them from the cell `front`
on, going round at the end.

* `window_succ`, `window_cons`: a longer window has one more cell at its end, or at its
  head.
* `window_update`: a write to a cell that the window does not see leaves it as it is.
-/

namespace Window

variable {β : Type*}

/-- The cells that a window of length `n` sees. -/
def window (cap : ℕ) (arr : ℕ → β) (front n : ℕ) : List β :=
  (List.range n).map fun i => arr ((front + i) % cap)

variable {cap front n : ℕ} {arr : ℕ → β}

@[simp] theorem window_zero (cap : ℕ) (arr : ℕ → β) (front : ℕ) : window cap arr front 0 = [] :=
  rfl

@[simp] theorem length_window (cap : ℕ) (arr : ℕ → β) (front n : ℕ) :
    (window cap arr front n).length = n := by
  simp [window]

theorem mem_window {b : β} : b ∈ window cap arr front n ↔ ∃ i < n, arr ((front + i) % cap) = b := by
  simp [window]

/-- One more cell at the end. -/
theorem window_succ (cap : ℕ) (arr : ℕ → β) (front n : ℕ) :
    window cap arr front (n + 1) = window cap arr front n ++ [arr ((front + n) % cap)] := by
  simp [window, List.range_succ]

/-- One more cell at the head. -/
theorem window_cons (cap : ℕ) (arr : ℕ → β) (front n : ℕ) :
    window cap arr front (n + 1) = arr (front % cap) :: window cap arr ((front + 1) % cap) n := by
  have h : ∀ i, (front + (i + 1)) % cap = ((front + 1) % cap + i) % cap := by
    intro i
    rw [Nat.mod_add_mod, Nat.add_assoc, Nat.add_comm 1 i]
  simp only [window, List.range_succ_eq_map, List.map_cons, List.map_map, Nat.add_zero]
  refine congrArg _ (List.map_congr_left fun i _ => ?_)
  exact congrArg arr (h i)

variable (front) in
/-- The cells of a window no longer than the array are different ones. -/
theorem add_mod_inj {i j : ℕ} (hi : i < cap) (hj : j < cap)
    (h : (front + i) % cap = (front + j) % cap) : i = j :=
  Nat.ModEq.eq_of_lt_of_lt (Nat.ModEq.add_left_cancel' front h) hi hj

/-- A write to a cell out of sight. -/
theorem window_update {k : ℕ} (b : β) (h : ∀ i < n, (front + i) % cap ≠ k) :
    window cap (Function.update arr k b) front n = window cap arr front n :=
  List.map_congr_left fun i hi => Function.update_of_ne (h i (List.mem_range.1 hi)) _ _

/-- A write to the cell behind the window puts it at the end. -/
theorem window_push (b : β) (hn : n < cap) :
    window cap (Function.update arr ((front + n) % cap) b) front (n + 1) =
      window cap arr front n ++ [b] := by
  rw [window_succ, Function.update_self, window_update]
  intro i hi h
  exact absurd (add_mod_inj front (hi.trans hn) hn h) hi.ne

variable (front arr) in
/-- The window behind the head, whatever is written to the head. -/
theorem window_pop (b : β) (hn : n < cap) :
    window cap (Function.update arr (front % cap) b) ((front + 1) % cap) n =
      (window cap arr front (n + 1)).tail := by
  rw [window_cons, List.tail_cons, window_update]
  intro i hi h
  rw [Nat.mod_add_mod, Nat.add_assoc] at h
  have := add_mod_inj front (by omega : 1 + i < cap) (by omega : 0 < cap) h
  omega

end Window
