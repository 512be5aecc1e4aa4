import CourseProjects.Lib.PerfectTree

/-!
# Perfect search trees

A perfect tree over linearly ordered keys, whose tips hold keys, is *ordered*
between two bounds (`Ordered`) when the separators of every inner node lie
strictly between its bounds, in order, and the keys under each child lie between
the separators around it: at or above the one before, below the one after.

The path a search follows (`Routed`) leads, in an ordered tree, to a hole whose
bounds enclose the key (`Routed.fits`): the keys of the tips before it lie below
the bounds and those after it above, whatever is ordered between the bounds may
fill the hole, and so may two trees with a separator between them
(`insertUp`), splits on the way up included. Two children that follow each other
in an ordered tree may be replaced by any other two that are ordered between
their bounds, or by one (`Ordered.pair`).

The sizes of the nodes (`Sized`) are kept by `insertUp` too (`sized_insertUp`).
-/

namespace PerfectTree

variable {κ ν lam τ : Type}

/-! ### Order -/

section Order

variable [LinearOrder κ]

/-- The children of a node between the bounds `lo` and `hi`, each with `P`
    between the separators around it. -/
def Chain (P : WithBot κ → WithTop κ → τ → Prop) :
    WithBot κ → τ → List (κ × τ) → WithTop κ → Prop
  | lo, t, [], hi => P lo hi t
  | lo, t, (k, u) :: r, hi => P lo k t ∧ lo < k ∧ (k : WithTop κ) < hi ∧ Chain P k u r hi

section Chain

variable {P : WithBot κ → WithTop κ → τ → Prop}

/-- A chain is two chains, before and after any of its separators. -/
theorem chain_append {lo : WithBot κ} {hi : WithTop κ} {t u : τ} {a b : List (κ × τ)} {k : κ} :
    Chain P lo t (a ++ (k, u) :: b) hi ↔
      Chain P lo t a k ∧ lo < k ∧ (k : WithTop κ) < hi ∧ Chain P k u b hi := by
  induction a generalizing lo t with
  | nil => rfl
  | cons e a ih =>
    obtain ⟨k₀, u₀⟩ := e
    simp only [List.cons_append, Chain]
    rw [ih]
    constructor
    · rintro ⟨ht, hlo, -, ha, hk, hhi, hb⟩
      exact ⟨⟨ht, hlo, WithTop.coe_lt_coe.2 (WithBot.coe_lt_coe.1 hk), ha⟩, hlo.trans hk, hhi, hb⟩
    · rintro ⟨⟨ht, hlo, hk, ha⟩, -, hhi, hb⟩
      exact ⟨ht, hlo, hk.trans hhi, ha, WithBot.coe_lt_coe.2 (WithTop.coe_lt_coe.1 hk), hhi, hb⟩

/-- Every child of a chain has `P` between bounds within those of the chain. -/
theorem Chain.mem {lo : WithBot κ} {hi : WithTop κ} {t u : τ} {a : List (κ × τ)}
    (h : Chain P lo t a hi) (hu : u ∈ t :: a.map Prod.snd) :
    ∃ lo' hi', P lo' hi' u ∧ lo ≤ lo' ∧ hi' ≤ hi := by
  induction a generalizing lo t with
  | nil =>
    rw [List.map_nil, List.mem_singleton] at hu
    exact ⟨lo, hi, hu ▸ h, le_rfl, le_rfl⟩
  | cons e a ih =>
    obtain ⟨k, v⟩ := e
    obtain ⟨ht, hlo, hhi, ha⟩ := h
    rcases List.mem_cons.1 hu with rfl | hu
    · exact ⟨lo, k, ht, le_rfl, hhi.le⟩
    · obtain ⟨lo', hi', hP, hlo', hhi'⟩ := ih ha hu
      exact ⟨lo', hi', hP, hlo.le.trans hlo', hhi'⟩

/-- The separators of a chain lie between its bounds. -/
theorem Chain.separator {lo : WithBot κ} {hi : WithTop κ} {t : τ} {a : List (κ × τ)}
    (h : Chain P lo t a hi) {k : κ} (hk : k ∈ a.map Prod.fst) :
    lo < k ∧ (k : WithTop κ) < hi := by
  obtain ⟨⟨_, u⟩, he, rfl⟩ := List.mem_map.1 hk
  obtain ⟨a, b, rfl⟩ := List.append_of_mem he
  exact ⟨(chain_append.1 h).2.1, (chain_append.1 h).2.2.1⟩

/-- The upper bound of the child before the entries `a`. -/
def upper : List (κ × τ) → WithTop κ → WithTop κ
  | [], hi => hi
  | (k, _) :: _, _ => k

/-- The entries `a` follow the lower bound `lo` of the child before them. -/
def Follows (P : WithBot κ → WithTop κ → τ → Prop) (lo : WithBot κ) :
    List (κ × τ) → WithTop κ → Prop
  | [], _ => True
  | (k, u) :: r, hi => lo < k ∧ (k : WithTop κ) < hi ∧ Chain P k u r hi

/-- A chain is its first child and the entries that follow it. -/
theorem chain_iff {lo : WithBot κ} {hi : WithTop κ} {t : τ} {a : List (κ × τ)} :
    Chain P lo t a hi ↔ P lo (upper a hi) t ∧ Follows P lo a hi := by
  cases a with
  | nil => simp [Chain, upper, Follows]
  | cons e a => rfl

theorem upper_le {lo : WithBot κ} {hi : WithTop κ} {a : List (κ × τ)} (h : Follows P lo a hi) :
    upper a hi ≤ hi := by
  cases a with
  | nil => exact le_rfl
  | cons e a => exact h.2.1.le

/-- What follows a bound follows a smaller one. -/
theorem Follows.of_lt {lo lo' : WithBot κ} {hi : WithTop κ} {a : List (κ × τ)}
    (ha : Follows P lo a hi) (hlo : lo' < lo) : Follows P lo' a hi := by
  cases a with
  | nil => trivial
  | cons e a => exact ⟨hlo.trans ha.1, ha.2⟩

/-- What follows a bound follows any key below it. -/
theorem Follows.of_lt_upper {lo : WithBot κ} {hi : WithTop κ} {a : List (κ × τ)}
    (ha : Follows P lo a hi) {k : κ} (hk : (k : WithTop κ) < upper a hi) : Follows P k a hi := by
  cases a with
  | nil => trivial
  | cons e a => exact ⟨WithBot.coe_lt_coe.2 (WithTop.coe_lt_coe.1 hk), ha.2⟩

end Chain

variable (keys : lam → List κ)

/-- The tree is ordered, with its keys at or above `lo` and below `hi`. -/
def Ordered : {h : ℕ} → WithBot κ → WithTop κ → Perfect κ ν lam h → Prop
  | 0, lo, hi, l => ∀ k ∈ keys (Tip.data l), lo ≤ k ∧ (k : WithTop κ) < hi
  | _ + 1, lo, hi, n => Chain Ordered lo (Inner.first n) (Inner.rest n) hi

/-- All keys: those of the tips and the separators. -/
def keysUnder : {h : ℕ} → Perfect κ ν lam h → List κ
  | 0, l => keys (Tip.data l)
  | _ + 1, n => (Inner.rest n).map Prod.fst ++ (Inner.children n).flatMap keysUnder

/-- The search order, node by node: the keys under the leftmost child lie below
    the first separator, and those under any other at or above the separator
    before it and below the one after it, if any. The tips have `P`. -/
def SearchOrder (P : lam → Prop) : {h : ℕ} → Perfect κ ν lam h → Prop
  | 0, l => P (Tip.data l)
  | _ + 1, n =>
    (∀ k ∈ keysUnder keys (Inner.first n), ∀ e ∈ (Inner.rest n)[0]?, k < e.1) ∧
      (∀ i, ∀ e ∈ (Inner.rest n)[i]?, ∀ k ∈ keysUnder keys e.2,
        e.1 ≤ k ∧ ∀ e' ∈ (Inner.rest n)[i + 1]?, k < e'.1) ∧
      ∀ t ∈ Inner.children n, SearchOrder P t

variable {keys}

theorem Ordered.keysUnder {h : ℕ} {lo : WithBot κ} {hi : WithTop κ} {t : Perfect κ ν lam h}
    (ht : Ordered keys lo hi t) {k : κ} (hk : k ∈ keysUnder keys t) :
    lo ≤ k ∧ (k : WithTop κ) < hi := by
  induction h generalizing lo hi with
  | zero => exact ht k hk
  | succ h ih =>
    rcases List.mem_append.1 hk with hk | hk
    · exact ⟨(Chain.separator ht hk).1.le, (Chain.separator ht hk).2⟩
    · obtain ⟨u, hu, hk⟩ := List.mem_flatMap.1 hk
      obtain ⟨lo', hi', hP, hlo, hhi⟩ := Chain.mem ht hu
      exact ⟨hlo.trans (ih hP hk).1, (ih hP hk).2.trans_le hhi⟩

omit [LinearOrder κ] in
theorem keys_subset_keysUnder {h : ℕ} {t : Perfect κ ν lam h} {l : Tip ν lam} (hl : l ∈ tips t)
    {k : κ} (hk : k ∈ keys l.data) : k ∈ keysUnder keys t := by
  induction h with
  | zero => exact List.mem_singleton.1 hl ▸ hk
  | succ h ih =>
    obtain ⟨u, hu, hl⟩ := List.mem_flatMap.1 hl
    exact List.mem_append_right _ (List.mem_flatMap.2 ⟨u, hu, ih hl⟩)

/-- The keys of the tips of an ordered tree lie between its bounds. -/
theorem Ordered.tipKeys {h : ℕ} {lo : WithBot κ} {hi : WithTop κ} {t : Perfect κ ν lam h}
    (ht : Ordered keys lo hi t) {l : Tip ν lam} (hl : l ∈ tips t) {k : κ} (hk : k ∈ keys l.data) :
    lo ≤ k ∧ (k : WithTop κ) < hi :=
  ht.keysUnder (keys_subset_keysUnder hl hk)

/-- An ordered tree is in search order, node by node. -/
theorem Ordered.searchOrder {P : lam → Prop} {h : ℕ} {lo : WithBot κ} {hi : WithTop κ}
    {t : Perfect κ ν lam h} (ht : Ordered keys lo hi t) (hP : ∀ l ∈ tips t, P l.data) :
    SearchOrder keys P t := by
  induction h generalizing lo hi with
  | zero => exact hP t (List.mem_singleton_self _)
  | succ h ih =>
    refine ⟨fun k hk e he => ?_, fun i e he k hk => ?_, fun u hu => ?_⟩
    · -- The first separator bounds the leftmost child.
      obtain ⟨k₀, u⟩ := e
      obtain ⟨r, hr⟩ : ∃ r, Inner.rest t = (k₀, u) :: r := by
        cases hr : Inner.rest t with
        | nil => simp [hr] at he
        | cons e r =>
          rw [hr] at he
          simp only [List.getElem?_cons_zero, Option.mem_def, Option.some.injEq] at he
          exact ⟨r, by rw [he]⟩
      have hc : Chain (Ordered keys) lo (Inner.first t) (Inner.rest t) hi := ht
      rw [hr] at hc
      exact WithTop.coe_lt_coe.1 (hc.1.keysUnder hk).2
    · -- The separators around the child `i` bound it.
      obtain ⟨k₀, u⟩ := e
      rw [Option.mem_def, List.getElem?_eq_some_iff] at he
      obtain ⟨hi', he⟩ := he
      have hr : Inner.rest t =
          (Inner.rest t).take i ++ (k₀, u) :: (Inner.rest t).drop (i + 1) := by
        rw [← he, ← List.drop_eq_getElem_cons hi', List.take_append_drop]
      have hc : Chain (Ordered keys) lo (Inner.first t) (Inner.rest t) hi := ht
      rw [hr] at hc
      have hu := (chain_append.1 hc).2.2.2
      rw [chain_iff] at hu
      refine ⟨WithBot.coe_le_coe.1 (hu.1.keysUnder hk).1, fun e' he' => ?_⟩
      have hd : ∃ r, (Inner.rest t).drop (i + 1) = e' :: r := by
        rw [Option.mem_def, List.getElem?_eq_some_iff] at he'
        obtain ⟨h', rfl⟩ := he'
        exact ⟨_, List.drop_eq_getElem_cons h'⟩
      obtain ⟨r, hd⟩ := hd
      rw [hd] at hu
      exact WithTop.coe_lt_coe.1 (hu.1.keysUnder hk).2
    · obtain ⟨lo', hi', hu', -, -⟩ := Chain.mem ht hu
      exact ih hu' fun l hl => hP l (List.mem_flatMap.2 ⟨u, hu, hl⟩)

/-- Splitting a node splits its bounds at the separator that goes up. -/
theorem Ordered.split {h : ℕ} {lo : WithBot κ} {hi : WithTop κ}
    {n : Inner κ ν (Perfect κ ν lam h)} (hn : Ordered keys (h := h + 1) lo hi n) {cut : ℕ} {k : κ}
    {m : Perfect κ ν lam h} {r : List (κ × Perfect κ ν lam h)}
    (hd : n.rest.drop cut = (k, m) :: r) (s : ν) :
    Ordered keys (h := h + 1) lo k (⟨n.label, n.first, n.rest.take cut⟩ : Inner κ ν _) ∧
      lo < k ∧ (k : WithTop κ) < hi ∧
      Ordered keys (h := h + 1) k hi (⟨s, m, r⟩ : Inner κ ν _) := by
  have hr : n.rest = n.rest.take cut ++ (k, m) :: r := by rw [← hd, List.take_append_drop]
  have hc : Chain (Ordered keys) lo n.first n.rest hi := hn
  rw [hr, chain_append] at hc
  exact hc

/-! ### The path of a search -/

/-- The search for `key` goes into the hole of the frame: past every separator
    at most `key`, up to the first one above it. -/
def Frame.Routes (key : κ) : Frame κ ν τ → Prop
  | .first _ a => ∀ e ∈ a.head?, key < e.1
  | .later _ _ _ k a => k ≤ key ∧ ∀ e ∈ a.head?, key < e.1

/-- The search for `key` goes down to the hole of the context. -/
def Ctx.Routed (key : κ) : {h H : ℕ} → Ctx κ ν lam h H → Prop
  | _, _, .root => True
  | _, _, .up f c => f.Routes key ∧ Ctx.Routed key c

variable (keys) in
/-- The hole of the context takes what is ordered between `lo` and `hi`: one
    tree, or two with a separator; the tips before it hold keys below `lo`, and
    those after it keys at or above `hi`. -/
structure Fits (max cut : ℕ) (next : ν → ν) {h H : ℕ} (c : Ctx κ ν lam h H)
    (lo : WithBot κ) (hi : WithTop κ) : Prop where
  plug : ∀ t, Ordered keys lo hi t → Ordered keys ⊥ ⊤ (c.plug t)
  insertUp : ∀ t (k : κ) u s, Ordered keys lo k t → lo < k → (k : WithTop κ) < hi →
    Ordered keys k hi u → Ordered keys ⊥ ⊤ (insertUp max cut next c t k u s).2
  pre : ∀ l ∈ c.pre, ∀ k ∈ keys l.data, (k : WithBot κ) < lo
  post : ∀ l ∈ c.post, ∀ k ∈ keys l.data, hi ≤ (k : WithTop κ)

variable {max cut : ℕ} {next : ν → ν}

theorem fits_root {h : ℕ} : Fits keys max cut next (.root : Ctx κ ν lam h h) ⊥ ⊤ where
  plug _ ht := ht
  insertUp _ _ _ _ ht hlo hhi hu := ⟨ht, hlo, hhi, hu⟩
  pre _ hl := absurd hl List.not_mem_nil
  post _ hl := absurd hl List.not_mem_nil

/-- One step down: a node with an ordered filling of bounds `lo'` and `hi'` for
    its hole, whose other children are ordered around it. -/
theorem Fits.up {h H : ℕ} {c : Ctx κ ν lam (h + 1) H} {lo : WithBot κ} {hi : WithTop κ}
    (hc : Fits keys max cut next c lo hi) (hcut : cut ≤ max) {f : Frame κ ν (Perfect κ ν lam h)}
    {lo' : WithBot κ} {hi' : WithTop κ} (hlo : lo ≤ lo') (hhi : hi' ≤ hi)
    (hfill : ∀ t, Ordered keys lo' hi' t → Ordered keys (h := h + 1) lo hi (f.fill t))
    (hins : ∀ t (k : κ) u, Ordered keys lo' k t → lo' < k → (k : WithTop κ) < hi' →
      Ordered keys k hi' u → Ordered keys (h := h + 1) lo hi ((f.insertAfter k u).fill t))
    (hleft : ∀ u ∈ f.left, ∀ l ∈ tips u, ∀ k ∈ keys l.data, (k : WithBot κ) < lo')
    (hright : ∀ u ∈ f.right, ∀ l ∈ tips u, ∀ k ∈ keys l.data, hi' ≤ (k : WithTop κ)) :
    Fits keys max cut next (.up f c) lo' hi' where
  plug t ht := hc.plug _ (hfill t ht)
  insertUp t k u s ht hlo hhi hu := by
    have hn := hins t k u ht hlo hhi hu
    by_cases hlen : ((f.insertAfter k u).fill t).rest.length ≤ max
    · rw [insertUp_fits hlen]
      exact hc.plug _ hn
    · rcases hd : ((f.insertAfter k u).fill t).rest.drop cut with _ | ⟨⟨k', m⟩, r⟩
      · rw [List.drop_eq_nil_iff] at hd
        exact absurd (hd.trans hcut) hlen
      · rw [insertUp_splits rfl (not_le.1 hlen) hd]
        obtain ⟨hl, hlo, hhi, hr⟩ := hn.split hd s
        exact hc.insertUp _ _ _ _ hl hlo hhi hr
  pre l hl k hk := by
    rcases List.mem_append.1 hl with hl | hl
    · exact (hc.pre l hl k hk).trans_le hlo
    · obtain ⟨u, hu, hl⟩ := List.mem_flatMap.1 hl
      exact hleft u hu l hl k hk
  post l hl k hk := by
    rcases List.mem_append.1 hl with hl | hl
    · obtain ⟨u, hu, hl⟩ := List.mem_flatMap.1 hl
      exact hright u hu l hl k hk
    · exact hhi.trans (hc.post l hl k hk)

/-- What follows the hole of a frame between the bounds `lo` and `hi`. -/
theorem Follows.right {h : ℕ} {lo : WithBot κ} {hi : WithTop κ}
    {a : List (κ × Perfect κ ν lam h)} (ha : Follows (Ordered keys) lo a hi) :
    ∀ u ∈ a.map Prod.snd, ∀ l ∈ tips u, ∀ k ∈ keys l.data, upper a hi ≤ (k : WithTop κ) := by
  cases a with
  | nil => exact fun u hu => absurd hu List.not_mem_nil
  | cons e a =>
    intro u hu l hl k hk
    obtain ⟨lo', hi', hu', hlo, -⟩ := Chain.mem ha.2.2 hu
    exact WithTop.coe_le_coe.2 (WithBot.coe_le_coe.1 (hlo.trans (hu'.tipKeys hl hk).1))

/-- The routed hole of an ordered node encloses the key. -/
theorem Fits.routes {h H : ℕ} {c : Ctx κ ν lam (h + 1) H} {lo : WithBot κ} {hi : WithTop κ}
    (hc : Fits keys max cut next c lo hi) (hcut : cut ≤ max) {f : Frame κ ν (Perfect κ ν lam h)}
    {t : Perfect κ ν lam h} (hf : Ordered keys (h := h + 1) lo hi (f.fill t)) {key : κ}
    (hkey : lo ≤ key ∧ (key : WithTop κ) < hi) (hr : f.Routes key) :
    ∃ lo' hi', Fits keys max cut next (.up f c) lo' hi' ∧ Ordered keys lo' hi' t ∧
      lo' ≤ key ∧ (key : WithTop κ) < hi' := by
  have hupper : ∀ {a : List (κ × Perfect κ ν lam h)}, (∀ e ∈ a.head?, key < e.1) →
      (key : WithTop κ) < upper a hi := by
    intro a ha
    cases a with
    | nil => exact hkey.2
    | cons e a => exact WithTop.coe_lt_coe.2 (ha e rfl)
  cases f with
  | first b a =>
    obtain ⟨ht, ha⟩ := chain_iff.1 hf
    refine ⟨lo, upper a hi, hc.up hcut le_rfl (upper_le ha) ?_ ?_ ?_ ha.right, ht, hkey.1, hupper hr⟩
    · exact fun t ht => chain_iff.2 ⟨ht, ha⟩
    · -- The new entry `(k, u)` comes before those after the hole.
      intro t k u ht hlo hhi hu
      exact ⟨ht, hlo, hhi.trans_le (upper_le ha), chain_iff.2 ⟨hu, ha.of_lt_upper hhi⟩⟩
    · exact fun u hu => absurd hu List.not_mem_nil
  | later b m before k₀ a =>
    obtain ⟨hb, hlo₀, hhi₀, hta⟩ := chain_append.1 hf
    obtain ⟨ht, ha⟩ := chain_iff.1 hta
    refine ⟨k₀, upper a hi, hc.up hcut hlo₀.le (upper_le ha) ?_ ?_ ?_ ha.right, ht,
      WithBot.coe_le_coe.2 hr.1, hupper hr.2⟩
    · exact fun t ht => chain_append.2 ⟨hb, hlo₀, hhi₀, chain_iff.2 ⟨ht, ha⟩⟩
    · intro t k u ht hlo hhi hu
      exact chain_append.2 ⟨hb, hlo₀, hhi₀, ht, hlo, hhi.trans_le (upper_le ha),
        chain_iff.2 ⟨hu, ha.of_lt_upper hhi⟩⟩
    · intro u hu l hl k hk
      obtain ⟨lo', hi', hu', -, hhi'⟩ := Chain.mem hb hu
      exact WithBot.coe_lt_coe.2
        (WithTop.coe_lt_coe.1 ((hu'.tipKeys hl hk).2.trans_le hhi'))

/-- In an ordered tree, the hole the search for `key` goes down to encloses it. -/
theorem Ctx.Routed.fits {h H : ℕ} {c : Ctx κ ν lam h H} {t : Perfect κ ν lam h} {key : κ}
    (hr : c.Routed key) (hcut : cut ≤ max) (ht : Ordered keys ⊥ ⊤ (c.plug t)) :
    ∃ lo hi, Fits keys max cut next c lo hi ∧ Ordered keys lo hi t ∧
      lo ≤ key ∧ (key : WithTop κ) < hi := by
  induction c with
  | root => exact ⟨⊥, ⊤, fits_root, ht, bot_le, WithTop.coe_lt_top key⟩
  | up f c ih =>
    obtain ⟨lo, hi, hc, hn, hkey⟩ := ih hr.2 ht
    exact hc.routes hcut hn hkey hr.1

/-! ### Two trees in an ordered one -/

variable (keys) in
/-- Two trees with a separator between them, between the bounds. -/
def OrderedPair {h : ℕ} (lo : WithBot κ) (hi : WithTop κ) (t : Perfect κ ν lam h) (k : κ)
    (u : Perfect κ ν lam h) : Prop :=
  Ordered keys lo k t ∧ lo < k ∧ (k : WithTop κ) < hi ∧ Ordered keys k hi u

/-- Two nodes are ordered, with the separator between them, if the node of all
    their children is. -/
theorem ordered_append {h : ℕ} {lo : WithBot κ} {hi : WithTop κ}
    {m n : Inner κ ν (Perfect κ ν lam h)} {k : κ} :
    Ordered keys (h := h + 1) lo hi (m.append k n) ↔ OrderedPair keys (h := h + 1) lo hi m k n :=
  chain_append

/-- The bounds of the hole of an ordered node. -/
theorem Ordered.fill {h : ℕ} {lo : WithBot κ} {hi : WithTop κ} {f : Frame κ ν (Perfect κ ν lam h)}
    {t : Perfect κ ν lam h} (hf : Ordered keys (h := h + 1) lo hi (f.fill t)) :
    ∃ lo' hi', Ordered keys lo' hi' t ∧
      ∀ u, Ordered keys lo' hi' u → Ordered keys (h := h + 1) lo hi (f.fill u) := by
  cases f with
  | first b a =>
    obtain ⟨ht, ha⟩ := chain_iff.1 hf
    exact ⟨lo, upper a hi, ht, fun u hu => chain_iff.2 ⟨hu, ha⟩⟩
  | later b m before k₀ a =>
    obtain ⟨hb, hlo₀, hhi₀, hta⟩ := chain_append.1 hf
    obtain ⟨ht, ha⟩ := chain_iff.1 hta
    exact ⟨k₀, upper a hi, ht, fun u hu =>
      chain_append.2 ⟨hb, hlo₀, hhi₀, chain_iff.2 ⟨hu, ha⟩⟩⟩

/-- The bounds of the hole of an ordered tree. -/
theorem Ordered.plug {h H : ℕ} {c : Ctx κ ν lam h H} {lo : WithBot κ} {hi : WithTop κ}
    {t : Perfect κ ν lam h} (ht : Ordered keys lo hi (c.plug t)) :
    ∃ lo' hi', Ordered keys lo' hi' t ∧
      ∀ u, Ordered keys lo' hi' u → Ordered keys lo hi (c.plug u) := by
  induction c with
  | root => exact ⟨lo, hi, ht, fun u hu => hu⟩
  | up f c ih =>
    obtain ⟨lo₁, hi₁, hn, hc⟩ := ih ht
    obtain ⟨lo', hi', ht', hf⟩ := hn.fill
    exact ⟨lo', hi', ht', fun u hu => hc _ (hf u hu)⟩

/-- The bounds of two children of an ordered node that follow each other: other
    two between them, or one, may take their place. -/
theorem Ordered.pair {h : ℕ} {lo : WithBot κ} {hi : WithTop κ} {f : Frame κ ν (Perfect κ ν lam h)}
    {t u : Perfect κ ν lam h} {k : κ}
    (hf : Ordered keys (h := h + 1) lo hi ((f.insertAfter k u).fill t)) :
    ∃ lo' hi', OrderedPair keys lo' hi' t k u ∧
      (∀ t' k' u', OrderedPair keys lo' hi' t' k' u' →
        Ordered keys (h := h + 1) lo hi ((f.insertAfter k' u').fill t')) ∧
      ∀ v, Ordered keys lo' hi' v → Ordered keys (h := h + 1) lo hi (f.fill v) := by
  have hupper : ∀ {a : List (κ × Perfect κ ν lam h)}, (k : WithTop κ) < hi →
      Follows (Ordered keys) k a hi → (k : WithTop κ) < upper a hi := by
    intro a hhi ha
    cases a with
    | nil => exact hhi
    | cons e a => exact WithTop.coe_lt_coe.2 (WithBot.coe_lt_coe.1 ha.1)
  cases f with
  | first b a =>
    obtain ⟨ht, hlo, hhi, hua⟩ := hf
    obtain ⟨hu, ha⟩ := chain_iff.1 hua
    refine ⟨lo, upper a hi, ⟨ht, hlo, hupper hhi ha, hu⟩, ?_, fun v hv => chain_iff.2 ⟨hv, ?_⟩⟩
    · rintro t' k' u' ⟨ht', hlo', hhi', hu'⟩
      exact ⟨ht', hlo', hhi'.trans_le (upper_le ha), chain_iff.2 ⟨hu', ha.of_lt_upper hhi'⟩⟩
    · exact ha.of_lt hlo
  | later b m before k₀ a =>
    obtain ⟨hb, hlo₀, hhi₀, ht, hk₀, hhi, hua⟩ := chain_append.1 hf
    obtain ⟨hu, ha⟩ := chain_iff.1 hua
    refine ⟨k₀, upper a hi, ⟨ht, hk₀, hupper hhi ha, hu⟩, ?_, fun v hv => ?_⟩
    · rintro t' k' u' ⟨ht', hlo', hhi', hu'⟩
      exact chain_append.2 ⟨hb, hlo₀, hhi₀, ht', hlo', hhi'.trans_le (upper_le ha),
        chain_iff.2 ⟨hu', ha.of_lt_upper hhi'⟩⟩
    · exact chain_append.2 ⟨hb, hlo₀, hhi₀, chain_iff.2 ⟨hv, ha.of_lt hk₀⟩⟩

/-- The separators before the hole are smaller than the one after it. -/
theorem Ordered.before_lt {h : ℕ} {lo : WithBot κ} {hi : WithTop κ}
    {f : Frame κ ν (Perfect κ ν lam h)} {t u : Perfect κ ν lam h} {k : κ}
    (hf : Ordered keys (h := h + 1) lo hi ((f.insertAfter k u).fill t)) :
    ∀ e ∈ f.before t, e.1 < k := by
  intro e he
  have hc : Chain (Ordered keys) lo ((f.insertAfter k u).fill t).first
    ((f.insertAfter k u).fill t).rest hi := hf
  rw [Frame.rest_fill_insertAfter_eq] at hc
  have := Chain.separator (chain_append.1 hc).1 (List.mem_map_of_mem he)
  exact WithTop.coe_lt_coe.1 this.2

end Order

/-! ### Sizes -/

section Sized

variable (tipOk : Bool → lam → Prop) (min max : ℕ)

/-- Every inner node has from `min` to `max` entries, the root at least one, and
    the tips are of the allowed sizes; the flag says whether a tip is the root. -/
def Sized {h : ℕ} (par : Option ν) (t : Perfect κ ν lam h) : Prop :=
  Everywhere (fun par l => tipOk par.isNone l.data)
    (fun par n => (if par.isNone then 1 else min) ≤ n.rest.length ∧ n.rest.length ≤ max) par t

/-- `Sized` around a hole. -/
def Ctx.Sized {h H : ℕ} (c : Ctx κ ν lam h H) (a : ν) : Prop :=
  c.Everywhere (fun par l => tipOk par.isNone l.data)
    (fun par n => (if par.isNone then 1 else min) ≤ n.rest.length ∧ n.rest.length ≤ max) a

variable {tipOk min max}

/-- The sizes allowed below an inner node do not depend on which one it is. -/
theorem Sized.relabel {h : ℕ} {a : ν} {t : Perfect κ ν lam h}
    (ht : Sized tipOk min max (some a) t) (b : ν) : Sized tipOk min max (some b) t := by
  cases h with
  | zero => exact ht
  | succ h => exact ht

theorem sized_plug {h H : ℕ} {c : Ctx κ ν lam h H} {t : Perfect κ ν lam h} :
    Sized tipOk min max none (c.plug t) ↔
      c.Sized tipOk min max (label t) ∧ Sized tipOk min max c.parent t :=
  everywhere_plug c t

/-- The sizes around a hole do not depend on the label that fills it. -/
theorem Ctx.Sized.relabel {h H : ℕ} {c : Ctx κ ν lam h H} {a : ν} (hc : c.Sized tipOk min max a)
    (b : ν) : c.Sized tipOk min max b := by
  cases c with
  | root => trivial
  | up f c =>
    obtain ⟨hn, hs, hc⟩ := hc
    refine ⟨?_, hs, hc⟩
    cases f <;> simpa [Frame.map, Frame.fill] using hn

/-- An insertion of two trees of the sizes allowed below an inner node keeps the
    sizes, if both halves of a split are big enough. -/
theorem sized_insertUp {cut : ℕ} {next : ν → ν} (hcut : min ≤ cut) (hmax : cut + min ≤ max)
    (hone : 1 ≤ min) {h H : ℕ} {c : Ctx κ ν lam h H} {t u : Perfect κ ν lam h} {k : κ} {s a : ν}
    (hc : c.Sized tipOk min max (label t)) (ht : Sized tipOk min max (some a) t)
    (hu : Sized tipOk min max (some a) u) :
    Sized tipOk min max none (insertUp max cut next c t k u s).2 := by
  induction c generalizing k s a with
  | root =>
    rw [insertUp_root]
    refine ⟨⟨by simp, by simp; omega⟩, fun v hv => ?_⟩
    rcases List.mem_cons.1 hv with rfl | hv
    · exact ht.relabel s
    · simp only [List.map_cons, List.map_nil, List.mem_singleton] at hv
      exact hv ▸ hu.relabel s
  | up f c ih =>
    obtain ⟨hn, hs, hc⟩ := hc
    have hn' : ((f.insertAfter k u).fill t).rest.length = (f.fill t).rest.length + 1 := by
      cases f <;> simp [Frame.insertAfter, Frame.fill, Nat.add_assoc]
    have hlen : ((f.map label).fill (label t)).rest.length = (f.fill t).rest.length := by
      cases f <;> simp [Frame.map, Frame.fill]
    simp only [hlen] at hn
    -- Every child of the node with the new entry is of an allowed size.
    have hch : ∀ v ∈ ((f.insertAfter k u).fill t).children, ∀ b : ν,
        Sized tipOk min max (some b) v := by
      intro v hv b
      rw [Frame.children_fill, Frame.left_insertAfter, Frame.right_insertAfter] at hv
      simp only [List.mem_append, List.mem_cons] at hv hs
      rcases hv with hv | rfl | rfl | hv
      exacts [Sized.relabel (hs v (.inl hv)) b, ht.relabel b, hu.relabel b,
        Sized.relabel (hs v (.inr hv)) b]
    by_cases hle : ((f.insertAfter k u).fill t).rest.length ≤ max
    · rw [insertUp_fits hle, sized_plug]
      refine ⟨Ctx.Sized.relabel hc _, ⟨?_, ?_⟩, fun v hv => hch v hv _⟩
      · rw [Inner.rest_map, List.length_map, hn']
        exact hn.1.trans (Nat.le_succ _)
      · rwa [Inner.rest_map, List.length_map]
    · rcases hd : ((f.insertAfter k u).fill t).rest.drop cut with _ | ⟨⟨k', m⟩, r⟩
      · rw [List.drop_eq_nil_iff] at hd
        omega
      · rw [insertUp_splits rfl (not_le.1 hle) hd]
        have hr : ((f.insertAfter k u).fill t).rest =
            ((f.insertAfter k u).fill t).rest.take cut ++ (k', m) :: r := by
          rw [← hd, List.take_append_drop]
        have hrl : r.length + cut + 1 = ((f.insertAfter k u).fill t).rest.length := by
          have := congrArg List.length hd
          simp only [List.length_drop, List.length_cons] at this
          omega
        have hmem : ∀ v, v ∈ ((f.insertAfter k u).fill t).first ::
            (((f.insertAfter k u).fill t).rest.take cut).map Prod.snd ∨
            v ∈ m :: r.map Prod.snd → v ∈ ((f.insertAfter k u).fill t).children := by
          intro v hv
          rw [Inner.children, hr]
          simp only [List.map_append, List.map_cons, List.mem_cons, List.mem_append] at hv ⊢
          tauto
        refine ih (a := s) (Ctx.Sized.relabel hc _) ⟨⟨?_, ?_⟩, fun v hv => hch v (hmem v (.inl hv)) _⟩
          ⟨⟨?_, ?_⟩, fun v hv => hch v (hmem v (.inr hv)) _⟩
        all_goals simp
        all_goals omega

end Sized

end PerfectTree
