import CourseProjects.Lib.Fueled

/-!
# The lazy sieve

Lazy lists of `sol2.sml`, whose tails are functions `fn () => …` (`Thunk`), and the sieve over them.
Integers are unbounded. Forcing a tail takes fuel, as `filterMultiples` skips elements.

* `Enumerates`: a lazy list has the elements of a set in increasing order, and all its tails can be
  forced;
* `Enumerates.filterMultiples`: of an infinite set of elements that are not multiples;
* `primes_correct`: `primes` enumerates the primes, and `firstN` returns the first of them.
-/

namespace Sml

open Fueled

/-! ### Lazy lists -/

/-- The functions `fn () => …`, each with the variables in it. -/
inductive Thunk
  | infSeq (e : ℤ)
  | filterMultiples (f : Thunk) (n : ℤ)
  | sieve (f : Thunk) (e : ℤ)
  | primes

inductive LazyList
  | nullList
  | cons (e : ℤ) (f : Thunk)

/-- The exception of a division by zero. -/
inductive Exn
  | div

abbrev Run := Comp Unit Exn

def mod (e n : ℤ) : Run ℤ := if n = 0 then throw .div else pure (e.fmod n)

def infSeq (e : ℤ) : LazyList := .cons e (.infSeq e)

def sieve : LazyList → LazyList
  | .cons e f => .cons e (.sieve f e)
  | .nullList => .nullList

mutual

/-- A function `fn () => …` is applied. -/
def force : ℕ → Thunk → Run LazyList
  | 0, _ => outOfFuel
  | _ + 1, .infSeq e => pure (infSeq (e + 1))
  | k + 1, .filterMultiples f n => do
    let l ← force k f
    filterMultiples k l n
  | k + 1, .sieve f e => do
    let l ← force k f
    let l ← filterMultiples k l e
    pure (sieve l)
  | k + 1, .primes => filterMultiples k (infSeq 2) 2

def filterMultiples : ℕ → LazyList → ℤ → Run LazyList
  | 0, _, _ => outOfFuel
  | k + 1, .cons e f, n => do
    let r ← mod e n
    if r = 0 then do
      let l ← force k f
      filterMultiples k l n
    else pure (.cons e (.filterMultiples f n))
  | _ + 1, .nullList, _ => pure .nullList

end

def firstN : ℕ → LazyList → ℤ → Run (List ℤ)
  | 0, _, _ => outOfFuel
  | k + 1, .cons e f, n =>
    if n = 0 then pure []
    else do
      let l ← force k f
      let es ← firstN k l (n - 1)
      pure (e :: es)
  | _ + 1, .nullList, _ => pure []

def primes : LazyList := sieve (.cons 2 .primes)

/-! ### Fuel -/

theorem force_succ (k : ℕ) : (∀ f, Le (force k f) (force (k + 1) f)) ∧
    ∀ l n, Le (filterMultiples k l n) (filterMultiples (k + 1) l n) := by
  induction k with
  | zero => exact ⟨fun f => .outOfFuel _, fun l n => .outOfFuel _⟩
  | succ k ih =>
    refine ⟨fun f => ?_, fun l n => ?_⟩
    · rw [force.eq_def (k + 1 + 1), force.eq_def (k + 1)]
      cases f with
      | infSeq e => exact .refl _
      | filterMultiples f n => exact .bind (ih.1 f) fun l => ih.2 l n
      | sieve f e => exact .bind (ih.1 f) fun l => .bind (ih.2 l e) fun l => .refl _
      | primes => exact ih.2 _ _
    · rw [filterMultiples.eq_def (k + 1 + 1), filterMultiples.eq_def (k + 1)]
      cases l with
      | nullList => exact .refl _
      | cons e f =>
        refine .bind (.refl _) fun r => ?_
        split
        · exact .bind (ih.1 f) fun l => ih.2 l n
        · exact .refl _

theorem firstN_succ (k : ℕ) (l : LazyList) (n : ℤ) : Le (firstN k l n) (firstN (k + 1) l n) := by
  induction k generalizing l n with
  | zero => exact .outOfFuel _
  | succ k ih =>
    rw [firstN.eq_def (k + 1 + 1), firstN.eq_def (k + 1)]
    cases l with
    | nullList => exact .refl _
    | cons e f =>
      change Le (if n = 0 then _ else _) (if n = 0 then _ else _)
      split
      · exact .refl _
      · exact .bind ((force_succ k).1 f) fun l => .bind (ih l _) fun es => .refl _

/-- With enough fuel the function returns a lazy list. -/
def Forces (f : Thunk) (l : LazyList) : Prop := ∃ k, Returns (force k f) () l ()

/-- With enough fuel the multiples are skipped up to the first element that is kept. -/
def Filters (l : LazyList) (n : ℤ) (l' : LazyList) : Prop :=
  ∃ k, Returns (filterMultiples k l n) () l' ()

variable {f : Thunk} {l l' : LazyList} {e n : ℤ} {i j k : ℕ}

theorem returns_force_mono (h : Returns (force i f) () l ()) (hij : i ≤ j) :
    Returns (force j f) () l () := h.le (le_of_succ (fun k => (force_succ k).1 f) hij)

theorem returns_filter_mono (h : Returns (filterMultiples i l n) () l' ()) (hij : i ≤ j) :
    Returns (filterMultiples j l n) () l' () :=
  h.le (le_of_succ (fun k => (force_succ k).2 l n) hij)

theorem forces_infSeq (e : ℤ) : Forces (.infSeq e) (infSeq (e + 1)) := ⟨1, returns_pure⟩

theorem forces_primes (h : Filters (infSeq 2) 2 l) : Forces .primes l := by
  obtain ⟨k, h⟩ := h
  exact ⟨k + 1, h⟩

theorem Forces.filterMultiples (hf : Forces f l) (hl : Filters l n l') :
    Forces (.filterMultiples f n) l' := by
  obtain ⟨i, hf⟩ := hf
  obtain ⟨j, hl⟩ := hl
  refine ⟨max i j + 1, ?_⟩
  rw [force]
  exact (returns_force_mono hf (le_max_left i j)).bind
    (returns_filter_mono hl (le_max_right i j))

theorem Forces.sieve (hf : Forces f l) (hl : Filters l e l') :
    Forces (.sieve f e) (sieve l') := by
  obtain ⟨i, hf⟩ := hf
  obtain ⟨j, hl⟩ := hl
  refine ⟨max i j + 1, ?_⟩
  rw [force]
  exact (returns_force_mono hf (le_max_left i j)).bind
    ((returns_filter_mono hl (le_max_right i j)).bind returns_pure)

theorem returns_mod (h : n ≠ 0) : Returns (mod e n) () (e.fmod n) () := by
  rw [mod, if_neg h]
  exact returns_pure

theorem filters_keep (hn : n ≠ 0) (he : e.fmod n ≠ 0) :
    Filters (.cons e f) n (.cons e (.filterMultiples f n)) := by
  refine ⟨1, ?_⟩
  rw [filterMultiples]
  refine (returns_mod hn).bind ?_
  rw [if_neg he]
  exact returns_pure

theorem Filters.skip (h : Filters l n l') (hn : n ≠ 0) (he : e.fmod n = 0) (hf : Forces f l) :
    Filters (.cons e f) n l' := by
  obtain ⟨i, hf⟩ := hf
  obtain ⟨j, h⟩ := h
  refine ⟨max i j + 1, ?_⟩
  rw [Sml.filterMultiples]
  refine (returns_mod hn).bind ?_
  rw [if_pos he]
  exact (returns_force_mono hf (le_max_left i j)).bind
    (returns_filter_mono h (le_max_right i j))

/-! ### Enumerations -/

/-- A lazy list has the elements of a set in increasing order, without an end: its first element
is the least, and its tail can be forced and is such a list of the others. -/
def Enumerates (l : LazyList) (A : Set ℕ) : Prop :=
  ∃ R : LazyList → Set ℕ → Prop, R l A ∧ ∀ l A, R l A →
    ∃ (a : ℕ) (f : Thunk) (l' : LazyList), IsLeast A a ∧ l = .cons a f ∧ Forces f l' ∧
      R l' (A \ {a})

variable {A B : Set ℕ} {a b p q : ℕ}

theorem Enumerates.cases (h : Enumerates l A) : ∃ (a : ℕ) (f : Thunk) (l' : LazyList),
    IsLeast A a ∧ l = .cons a f ∧ Forces f l' ∧ Enumerates l' (A \ {a}) := by
  obtain ⟨R, h, hR⟩ := h
  obtain ⟨a, f, l', ha, hl, hf, h'⟩ := hR l A h
  exact ⟨a, f, l', ha, hl, hf, R, h', hR⟩

theorem enumerates_infSeq (a : ℕ) : Enumerates (infSeq a) {x | a ≤ x} := by
  refine ⟨fun l A => ∃ a : ℕ, l = infSeq a ∧ A = {x | a ≤ x}, ⟨a, rfl, rfl⟩, ?_⟩
  rintro _ _ ⟨a, rfl, rfl⟩
  have ha : IsLeast {x | a ≤ x} a := ⟨le_refl a, fun x hx => hx⟩
  refine ⟨a, _, _, ha, rfl, forces_infSeq a, a + 1, rfl, ?_⟩
  ext x
  change a ≤ x ∧ x ≠ a ↔ a + 1 ≤ x
  omega

/-- The elements of a set without the least one. -/
theorem diff_least (ha : IsLeast A a) : A \ {a} = {x ∈ A | a < x} := by
  ext x
  exact and_congr_right fun hx => ⟨fun hne => (ha.2 hx).lt_of_ne (Ne.symm hne), fun hlt => hlt.ne'⟩

theorem fmod_eq_zero_iff (a k : ℕ) : (a : ℤ).fmod k = 0 ↔ k ∣ a := by
  rw [Int.fmod_eq_emod_of_nonneg _ (Int.natCast_nonneg k), ← Int.dvd_iff_emod_eq_zero,
    Int.natCast_dvd_natCast]

/-- The multiples before the first element that is kept are skipped. The induction is on how far
away it is. -/
theorem Enumerates.skips (h : Enumerates l A) (hk : k ≠ 0) (hb : IsLeast {x ∈ A | ¬k ∣ x} b) :
    ∃ f l', Filters l k (.cons b (.filterMultiples f k)) ∧ Forces f l' ∧
      Enumerates l' {x ∈ A | b < x} := by
  obtain ⟨m, hm⟩ : ∃ m, ∀ x ∈ A, b ≤ x + m := ⟨b, fun x _ => Nat.le_add_left b x⟩
  have hk' : (k : ℤ) ≠ 0 := Int.natCast_ne_zero.2 hk
  induction m using Nat.strong_induction_on generalizing l A with
  | _ m ih =>
    obtain ⟨a, f, l', ha, rfl, hf, h'⟩ := h.cases
    by_cases hka : k ∣ a
    · -- A multiple is skipped, which leaves fewer before the next element that is kept.
      have hab : a < b := (ha.2 hb.1.1).lt_of_ne (by rintro rfl; exact hb.1.2 hka)
      have hba := hm a ha.1
      rw [diff_least ha] at h'
      have hset : {x ∈ {x ∈ A | a < x} | ¬k ∣ x} = {x ∈ A | ¬k ∣ x} := by
        ext x
        refine ⟨fun hx => ⟨hx.1.1, hx.2⟩, fun hx => ⟨⟨hx.1, ?_⟩, hx.2⟩⟩
        exact (ha.2 hx.1).lt_of_ne (by rintro rfl; exact hx.2 hka)
      rw [← hset] at hb
      obtain ⟨f', l'', hfilter, hf', h''⟩ := ih (m - 1) (by omega) h' hb fun x hx => by
        have hax : a < x := hx.2
        omega
      refine ⟨f', l'', hfilter.skip hk' ((fmod_eq_zero_iff a k).2 hka) hf, hf', ?_⟩
      convert h'' using 1
      ext x
      exact ⟨fun hx => ⟨⟨hx.1, hab.trans hx.2⟩, hx.2⟩, fun hx => ⟨hx.1.1, hx.2⟩⟩
    · have hab : a = b := le_antisymm (ha.2 hb.1.1) (hb.2 ⟨ha.1, hka⟩)
      subst hab
      rw [diff_least ha] at h'
      exact ⟨f, l', filters_keep hk' ((fmod_eq_zero_iff a k).not.2 hka), hf, h'⟩

/-- Of infinitely many elements that are not multiples, the filter gives a list, all of whose tails
can be forced. -/
theorem Enumerates.filterMultiples (h : Enumerates l A) (hk : k ≠ 0)
    (hinf : {x ∈ A | ¬k ∣ x}.Infinite) :
    ∃ l', Filters l k l' ∧ Enumerates l' {x ∈ A | ¬k ∣ x} := by
  have hleast : ∀ {B : Set ℕ}, B.Infinite → IsLeast B (sInf B) :=
    fun hB => ⟨Nat.sInf_mem hB.nonempty, fun x hx => Nat.sInf_le hx⟩
  obtain ⟨f, l', hl, hf, h'⟩ := h.skips hk (hleast hinf)
  refine ⟨_, hl, fun l B => ∃ (b : ℕ) (f : Thunk) (l' : LazyList) (A : Set ℕ),
    l = .cons b (.filterMultiples f k) ∧ Forces f l' ∧ Enumerates l' {x ∈ A | b < x} ∧
      IsLeast B b ∧ B = {x ∈ A | ¬k ∣ x} ∧ B.Infinite,
    ⟨_, f, l', A, rfl, hf, h', hleast hinf, rfl, hinf⟩, ?_⟩
  rintro _ _ ⟨b, f, l', A, rfl, hf, h', hb, rfl, hinf⟩
  have hset : {x ∈ A | ¬k ∣ x} \ {b} = {x ∈ {x ∈ A | b < x} | ¬k ∣ x} := by
    rw [diff_least hb]
    ext x
    exact ⟨fun hx => ⟨⟨hx.1.1, hx.2⟩, hx.1.2⟩, fun hx => ⟨⟨hx.1.1, hx.2⟩, hx.1.2⟩⟩
  have hinf' := hinf.sdiff (Set.finite_singleton b)
  rw [hset] at hinf'
  -- The tail filters that of the list, where elements are still left.
  obtain ⟨f', l'', hl', hf', h''⟩ := h'.skips hk (hleast hinf')
  refine ⟨b, _, _, hb, rfl, hf.filterMultiples hl', ?_⟩
  rw [hset]
  exact ⟨_, f', l'', _, rfl, hf', h'', hleast hinf', rfl, hinf'⟩

/-! ### The primes -/

/-- The numbers without a factor below a number. -/
def rough (q : ℕ) : Set ℕ := {x | 2 ≤ x ∧ q ≤ x.minFac}

theorem prime_mem_rough (hp : p.Prime) (hq : q ≤ p) : p ∈ rough q :=
  ⟨hp.two_le, by rwa [hp.minFac_eq]⟩

theorem rough_infinite (q : ℕ) : (rough q).Infinite := by
  refine Set.infinite_of_forall_exists_gt fun n => ?_
  obtain ⟨p, hp, hprime⟩ := Nat.exists_infinite_primes (max (n + 1) q)
  exact ⟨p, prime_mem_rough hprime (le_trans (le_max_right _ _) hp),
    lt_of_lt_of_le n.lt_succ_self (le_trans (le_max_left _ _) hp)⟩

theorem prime_of_isLeast_rough (hp : IsLeast (rough q) p) : p.Prime := by
  have h2 : 2 ≤ p := hp.1.1
  have hfac : p.minFac.Prime := Nat.minFac_prime (by omega)
  have hle : p ≤ p.minFac := hp.2 (prime_mem_rough hfac hp.1.2)
  rwa [le_antisymm hle (Nat.minFac_le (by omega))]

/-- The least of them is prime, and those that it does not divide have no factor up to it. -/
theorem rough_filter (hp : IsLeast (rough q) p) : {x ∈ rough q | ¬p ∣ x} = rough (p + 1) := by
  have h2 : 2 ≤ p := hp.1.1
  have hqp : q ≤ p := hp.1.2.trans (Nat.minFac_le (by omega))
  ext x
  constructor
  · rintro ⟨⟨hx, hq⟩, hpx⟩
    have hfac : x.minFac.Prime := Nat.minFac_prime (by omega)
    have hle : p ≤ x.minFac := hp.2 (prime_mem_rough hfac hq)
    refine ⟨hx, hle.lt_of_ne ?_⟩
    rintro rfl
    exact hpx x.minFac_dvd
  · rintro ⟨hx, hfac⟩
    refine ⟨⟨hx, by omega⟩, fun hpx => ?_⟩
    have := Nat.minFac_le_of_dvd h2 hpx
    omega

/-- The filter of the sieve. -/
theorem Enumerates.filter_rough (h : Enumerates l' (rough q \ {p})) (hp : IsLeast (rough q) p) :
    ∃ l, Filters l' p l ∧ Enumerates l (rough (p + 1)) := by
  have hset : {x ∈ rough q \ {p} | ¬p ∣ x} = rough (p + 1) := by
    rw [← rough_filter hp]
    ext x
    refine ⟨fun hx => ⟨hx.1.1, hx.2⟩, fun hx => ⟨⟨hx.1, ?_⟩, hx.2⟩⟩
    rintro rfl
    exact hx.2 dvd_rfl
  rw [← hset]
  exact h.filterMultiples (prime_of_isLeast_rough hp).ne_zero (by rw [hset]; exact rough_infinite _)

/-- From a prime on, if what is left of the numbers after it is filtered. -/
theorem enumerates_sieve {f : Thunk} {l₁ l₀ : LazyList} (hp : p.Prime) (hf : Forces f l₁)
    (hl : Filters l₁ p l₀) (h : Enumerates l₀ (rough (p + 1))) :
    Enumerates (.cons p (.sieve f p)) {x | x.Prime ∧ p ≤ x} := by
  refine ⟨fun l B => ∃ (p : ℕ) (f : Thunk) (l₁ l₀ : LazyList), p.Prime ∧
    l = .cons p (.sieve f p) ∧ Forces f l₁ ∧ Filters l₁ p l₀ ∧ Enumerates l₀ (rough (p + 1)) ∧
      B = {x | x.Prime ∧ p ≤ x}, ⟨p, f, l₁, l₀, hp, rfl, hf, hl, h, rfl⟩, ?_⟩
  rintro _ _ ⟨p, f, l₁, l₀, hp, rfl, hf, hl, h, rfl⟩
  -- What is left begins with the next prime, which is the next to filter it.
  obtain ⟨p', f', l₂, hp', rfl, hf', h'⟩ := h.cases
  obtain ⟨l₃, hl', h''⟩ := h'.filter_rough hp'
  have h2 : 2 ≤ p' := hp'.1.1
  have hlt : p < p' := (Nat.lt_of_succ_le hp'.1.2).trans_le (Nat.minFac_le (by omega))
  have hset : {x | x.Prime ∧ p ≤ x} \ {p} = {x | x.Prime ∧ p' ≤ x} := by
    ext x
    constructor
    · rintro ⟨⟨hx, hpx⟩, hne⟩
      exact ⟨hx, hp'.2 (prime_mem_rough hx (hpx.lt_of_ne (Ne.symm hne)))⟩
    · rintro ⟨hx, hpx⟩
      exact ⟨⟨hx, by omega⟩, (hlt.trans_le hpx).ne'⟩
  refine ⟨p, _, _, ⟨⟨hp, le_rfl⟩, fun x hx => hx.2⟩, rfl, hf.sieve hl, ?_⟩
  rw [hset]
  exact ⟨p', f', l₂, l₃, prime_of_isLeast_rough hp', rfl, hf', hl', h'', rfl⟩

/-- The multiples of two are left out twice. -/
theorem enumerates_primes : Enumerates primes {x | x.Prime} := by
  have h2 : IsLeast (rough 2) 2 :=
    ⟨prime_mem_rough Nat.prime_two le_rfl, fun x hx => hx.1⟩
  have hall : rough 2 = {x | 2 ≤ x} := by
    ext x
    refine ⟨fun hx => hx.1, fun hx => ⟨hx, (Nat.minFac_prime ?_).two_le⟩⟩
    rintro rfl
    exact absurd hx (by decide)
  have hodd : {x ∈ rough 2 | ¬2 ∣ x} = rough 3 := rough_filter h2
  have hodd' : {x ∈ rough 3 | ¬2 ∣ x} = rough 3 := by
    rw [← hodd]
    ext x
    exact ⟨fun hx => hx.1, fun hx => ⟨hx, hx.2⟩⟩
  have hseq : Enumerates (infSeq 2) (rough 2) := by
    rw [hall]
    exact enumerates_infSeq 2
  have hinf : {x ∈ rough 2 | ¬2 ∣ x}.Infinite := by
    rw [hodd]
    exact rough_infinite 3
  have hinf' : {x ∈ rough 3 | ¬2 ∣ x}.Infinite := by
    rw [hodd']
    exact rough_infinite 3
  obtain ⟨l₁, hl₁, h₁⟩ := hseq.filterMultiples two_ne_zero hinf
  rw [hodd] at h₁
  obtain ⟨l₀, hl₀, h₀⟩ := h₁.filterMultiples two_ne_zero hinf'
  rw [hodd'] at h₀
  have hprimes : {x | x.Prime} = {x | x.Prime ∧ 2 ≤ x} := by
    ext x
    exact ⟨fun hx => ⟨hx, Nat.Prime.two_le hx⟩, fun hx => hx.1⟩
  rw [hprimes]
  exact enumerates_sieve Nat.prime_two (forces_primes hl₁) hl₀ h₀

/-! ### The first elements -/

/-- The elements of an enumeration from an index on. -/
theorem nth_diff {P : ℕ → Prop} (hP : {x | P x}.Infinite) (i : ℕ) :
    {x | P x ∧ Nat.nth P i ≤ x} \ {Nat.nth P i} = {x | P x ∧ Nat.nth P (i + 1) ≤ x} := by
  classical
  ext x
  constructor
  · rintro ⟨⟨hx, hle⟩, hne⟩
    have hlt : Nat.nth P i < x := hle.lt_of_ne (Ne.symm hne)
    rw [← Nat.nth_count hx, Nat.nth_lt_nth hP] at hlt
    refine ⟨hx, ?_⟩
    rw [← Nat.nth_count hx, Nat.nth_le_nth hP]
    exact hlt
  · rintro ⟨hx, hle⟩
    have hlt : Nat.nth P i < x := ((Nat.nth_lt_nth hP).2 i.lt_succ_self).trans_le hle
    exact ⟨⟨hx, hlt.le⟩, hlt.ne'⟩

theorem Enumerates.firstN {P : ℕ → Prop} (hP : {x | P x}.Infinite) (n i : ℕ)
    (h : Enumerates l {x | P x ∧ Nat.nth P i ≤ x}) : ∃ k, Returns (firstN k l n) ()
      ((List.range n).map fun j => (Nat.nth P (i + j) : ℤ)) () := by
  induction n generalizing l i with
  | zero =>
    obtain ⟨a, f, l', ha, rfl, hf, h'⟩ := h.cases
    exact ⟨1, returns_pure⟩
  | succ n ih =>
    obtain ⟨a, f, l', ha, rfl, ⟨j, hf⟩, h'⟩ := h.cases
    have hleast : IsLeast {x | P x ∧ Nat.nth P i ≤ x} (Nat.nth P i) :=
      ⟨⟨Nat.nth_mem_of_infinite hP i, le_rfl⟩, fun x hx => hx.2⟩
    obtain rfl := ha.unique hleast
    rw [nth_diff hP] at h'
    obtain ⟨k, hk⟩ := ih (i + 1) h'
    refine ⟨max j k + 1, ?_⟩
    have hn : ((n + 1 : ℕ) : ℤ) ≠ 0 := by omega
    rw [Sml.firstN, if_neg hn, show ((n + 1 : ℕ) : ℤ) - 1 = n by omega]
    refine (returns_force_mono hf (le_max_left j k)).bind ((hk.le (le_of_succ
      (fun k => firstN_succ k l' n) (le_max_right j k))).bind ?_)
    have htail : (List.range (n + 1)).map (fun j => (Nat.nth P (i + j) : ℤ)) =
        (Nat.nth P i : ℤ) :: (List.range n).map fun j => (Nat.nth P (i + 1 + j) : ℤ) := by
      rw [List.range_succ_eq_map, List.map_cons, List.map_map]
      refine congrArg _ (List.map_congr_left fun j _ => ?_)
      rw [Function.comp_apply, Nat.add_succ, Nat.succ_add]
    rw [htail]
    exact returns_pure

/-- `primes` enumerates the primes, so that each of its tails can be forced, and with enough fuel
`firstN` returns the first of them in order. -/
theorem primes_correct (n : ℕ) : Enumerates primes {p | p.Prime} ∧
    ∃ k, ∀ m ≥ k, Returns (firstN m primes n) ()
      ((List.range n).map fun i => (Nat.nth Nat.Prime i : ℤ)) () := by
  have h : Enumerates primes {p | p.Prime ∧ Nat.nth Nat.Prime 0 ≤ p} := by
    convert enumerates_primes using 1
    ext p
    rw [Nat.nth_prime_zero_eq_two]
    exact ⟨fun hp => hp.1, fun hp => ⟨hp, Nat.Prime.two_le hp⟩⟩
  obtain ⟨k, hk⟩ := h.firstN Nat.infinite_setOfPred_prime n 0
  simp only [Nat.zero_add] at hk
  exact ⟨enumerates_primes, k, fun m hm => hk.le (le_of_succ (fun k => firstN_succ k _ _) hm)⟩

end Sml
