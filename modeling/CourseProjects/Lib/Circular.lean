import CourseProjects.Lib.Window

/-!
# Circular buffers with counters that wrap

A buffer of `cap` cells with two counters, of the entries taken out and of those put in,
each modulo `2 ^ 32`, which `cap` divides. The cell of an entry is its number modulo `cap`.

* `Holds.push`, `Holds.pop`, `Holds.unpush`: an entry is put in, taken out, or taken back;
* `Holds.eq_iff`, `Holds.eq_add_iff`: how the counters show that the buffer is empty, or
  full.
-/

namespace Circular

open Function Window

variable {β : Type*}

/-- The buffer holds the entries of a list, the oldest one first. -/
structure Holds (cap : ℕ) (arr : ℕ → β) (r w : UInt32) (q : List β) : Prop where
  length_le : q.length ≤ cap
  counter : w = r + UInt32.ofNat q.length
  cells : window cap arr (r.toNat % cap) q.length = q

variable {cap : ℕ} {arr : ℕ → β} {r w : UInt32} {q : List β} {b : β}

theorem toNat_mod (hcap : cap ∣ 2 ^ 32) (r : UInt32) (n : ℕ) :
    (r + UInt32.ofNat n).toNat % cap = (r.toNat % cap + n) % cap := by
  rw [UInt32.toNat_add, UInt32.toNat_ofNat', Nat.mod_mod_of_dvd _ hcap, Nat.mod_add_mod,
    Nat.add_mod, Nat.mod_mod_of_dvd _ hcap, ← Nat.add_mod]

theorem add_ofNat_inj {m n : ℕ} (hm : m < 2 ^ 32) (hn : n < 2 ^ 32) :
    r + UInt32.ofNat m = r + UInt32.ofNat n ↔ m = n := by
  refine ⟨fun h => ?_, fun h => h ▸ rfl⟩
  have := congrArg UInt32.toNat (add_left_cancel h)
  rwa [UInt32.toNat_ofNat', UInt32.toNat_ofNat', Nat.mod_eq_of_lt hm, Nat.mod_eq_of_lt hn] at this

theorem holds_nil (cap : ℕ) (arr : ℕ → β) (r : UInt32) : Holds cap arr r r [] :=
  ⟨Nat.zero_le _, (add_zero r).symm, rfl⟩

/-- The counters are `n` apart when the buffer holds `n` entries. -/
theorem Holds.counter_iff (h : Holds cap arr r w q) (hcap : cap < 2 ^ 32) {n : ℕ} (hn : n ≤ cap) :
    w = r + UInt32.ofNat n ↔ q.length = n := by
  rw [h.counter]
  exact add_ofNat_inj (h.length_le.trans_lt hcap) (hn.trans_lt hcap)

theorem Holds.eq_iff (h : Holds cap arr r w q) (hcap : cap < 2 ^ 32) : r = w ↔ q = [] := by
  rw [← List.length_eq_zero_iff, ← h.counter_iff hcap (Nat.zero_le cap)]
  exact eq_comm.trans (by rw [show UInt32.ofNat 0 = 0 from rfl, add_zero])

/-- An entry is put in. -/
theorem Holds.push (h : Holds cap arr r w q) (hcap : cap ∣ 2 ^ 32) (hq : q.length < cap) :
    Holds cap (update arr (w.toNat % cap) b) r (w + 1) (q ++ [b]) := by
  refine ⟨by rwa [List.length_append], ?_, ?_⟩
  · rw [h.counter, List.length_append, UInt32.ofNat_add, ← add_assoc]
    rfl
  · rw [h.counter, toNat_mod hcap, List.length_append, List.length_singleton, window_push b hq,
      h.cells]

/-- The oldest entry is taken out. -/
theorem Holds.pop (h : Holds cap arr r w (b :: q)) (hcap : cap ∣ 2 ^ 32) :
    arr (r.toNat % cap) = b ∧ Holds cap arr (r + 1) w q := by
  have hcells := h.cells
  rw [List.length_cons, window_cons, Nat.mod_mod, List.cons.injEq] at hcells
  obtain ⟨hb, hq⟩ := hcells
  refine ⟨hb, Nat.le_of_succ_le h.length_le, ?_, ?_⟩
  · rw [h.counter, List.length_cons, Nat.add_comm, UInt32.ofNat_add, ← add_assoc]
    rfl
  · rwa [show (1 : UInt32) = UInt32.ofNat 1 from rfl, toNat_mod hcap]

/-- The newest entry is taken back. -/
theorem Holds.unpush (h : Holds cap arr r w (q ++ [b])) (hcap : cap ∣ 2 ^ 32) :
    arr ((w - 1).toNat % cap) = b ∧ Holds cap arr r (w - 1) q := by
  have hw : w - 1 = r + UInt32.ofNat q.length := by
    rw [h.counter, List.length_append, UInt32.ofNat_add, ← add_assoc]
    exact add_sub_cancel_right _ _
  have hcells := h.cells
  rw [List.length_append, List.length_singleton, window_succ] at hcells
  obtain ⟨hq, hb⟩ := List.append_inj hcells (length_window ..)
  refine ⟨?_, ?_, hw, hq⟩
  · rw [hw, toNat_mod hcap]
    exact List.singleton_inj.1 hb
  · have hlen := h.length_le
    rw [List.length_append] at hlen
    exact (Nat.le_add_right _ _).trans hlen

end Circular
