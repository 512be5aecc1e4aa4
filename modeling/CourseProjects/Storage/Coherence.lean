import CourseProjects.Lib.Counting
import CourseProjects.Storage.Cache

/-!
# Coherence

What the cache is for: one memory of blocks for all processes, over a disk (`Memory`).

* `Bcache.run_coherent`: whatever the processes do, a block is in one buffer at most, a
  process that has a buffer finds in it what was written last, and the disk has the blocks
  that the log has not changed since.
-/

namespace Storage

open Counting Function

/-! ### The memory the cache stands for -/

/-- The contents of the blocks, those on the disk, and the blocks that the log keeps from there. -/
structure Memory where
  current : ℕ → Block
  disk : ℕ → Block
  pinned : Finset ℕ

inductive MemEvent
  | logWrite (b : ℕ) (v : Block)
  | bwrite (b : ℕ) (v : Block)
  | crash

def Memory.step (m : Memory) : MemEvent → Option Memory
  | .logWrite b v => some { m with current := update m.current b v, pinned := insert b m.pinned }
  | .bwrite b v =>
    some ⟨update m.current b v, update m.disk b v, m.pinned.erase b⟩
  | .crash => some ⟨m.disk, m.disk, ∅⟩

namespace Bcache

/-- What the cache does to the memory. -/
def label (s : Bcache) : CacheEvent → List MemEvent
  | .logWrite _ i v => [.logWrite (s.buf i).blockno v]
  | .bwrite _ i v => [.bwrite (s.buf i).blockno v]
  | .crash => [.crash]
  | .bread .. | .advance _ | .brelse .. => []

/-- How often the process counts as a user of the buffer, without the lock. -/
def waits (i : Fin nbuf) : Activity → ℕ
  | .acquire j | .release j => if j = i then 1 else 0
  | .idle | .read _ => 0

/-- How often the buffer is locked. -/
def locks (o : Option (Fin nproc)) : ℕ := o.elim 0 fun _ => 1

/-! ### The invariant -/

/-- Each block is in one buffer at most, and the buffers are counted and locked by those who use
    them. -/
structure Sound (s : Bcache) : Prop where
  perm : s.order.Perm (List.finRange nbuf)
  inj : ∀ i j, (s.buf i).dev = rootdev → (s.buf j).dev = rootdev →
    (s.buf i).blockno = (s.buf j).blockno → i = j
  lt : ∀ i, (s.buf i).blockno < fssize
  unused : ∀ i, (s.buf i).dev ≠ rootdev →
    (s.buf i).refcnt = 0 ∧ (s.buf i).valid = false
  refcnt : ∀ i, (s.buf i).refcnt = locks (s.buf i).lock + ∑ p, waits i (s.act p)
  held : ∀ i p, (s.buf i).lock = some p → (s.buf i).valid = false → s.act p = .read i
  reading : ∀ p i, s.act p = .read i → (s.buf i).lock = some p ∧ (s.buf i).valid = false
  dirty : ∀ i, (s.buf i).dirty = true → (s.buf i).valid = true

/-- The cache behaves as the memory `m`. -/
structure Refines (s : Bcache) (m : Memory) : Prop where
  sound : s.Sound
  disk : s.disk = m.disk
  data : ∀ i, (s.buf i).valid = true → (s.buf i).data = m.current (s.buf i).blockno
  pinned : ∀ b, b ∈ m.pinned ↔ ∃ i, (s.buf i).blockno = b ∧ (s.buf i).dirty = true
  clean : ∀ b, b ∉ m.pinned → m.current b = m.disk b

variable {s s' : Bcache} {m : Memory} {i j : Fin nbuf} {p q : Fin nproc} {b : ℕ} {v : Block}

theorem waits_of_ne {a : Activity} (ha : a = .idle ∨ a = .acquire i ∨ a = .read i ∨ a = .release i)
    (h : j ≠ i) : waits j a = 0 := by
  rcases ha with rfl | rfl | rfl | rfl
  · rfl
  · exact if_neg h.symm
  · rfl
  · exact if_neg h.symm

/-- A buffer that nobody counts as a user of is not locked, and not read. -/
theorem Sound.lock_none (h : s.Sound) (hr : (s.buf i).refcnt = 0) : (s.buf i).lock = none := by
  have hl : locks (s.buf i).lock = 0 := by
    have := h.refcnt i
    omega
  cases hlock : (s.buf i).lock with
  | none => rfl
  | some p =>
    rw [hlock] at hl
    cases hl

theorem Sound.dev_of_lock (h : s.Sound) (hl : (s.buf i).lock = some p) :
    (s.buf i).dev = rootdev := by
  by_contra hd
  have hnone := h.lock_none (h.unused i hd).1
  rw [hl] at hnone
  cases hnone

theorem Sound.dev_of_valid (h : s.Sound) (hv : (s.buf i).valid = true) :
    (s.buf i).dev = rootdev := by
  by_contra hd
  rw [(h.unused i hd).2] at hv
  cases hv

/-- Somebody who waits for a buffer, or has given it back, counts as a user of it. -/
theorem Sound.refcnt_ne_zero (h : s.Sound) (hw : waits i (s.act p) = 1) :
    (s.buf i).refcnt ≠ 0 := by
  have hle : waits i (s.act p) ≤ ∑ q, waits i (s.act q) :=
    Finset.single_le_sum (f := fun q => waits i (s.act q)) (fun _ _ => Nat.zero_le _)
      (Finset.mem_univ p)
  have hr := h.refcnt i
  omega

theorem Sound.dev_of_waits (h : s.Sound) (hw : waits i (s.act p) = 1) :
    (s.buf i).dev = rootdev := by
  by_contra hd
  exact h.refcnt_ne_zero hw (h.unused i hd).1

/-- A process that is not reading has only buffers that are valid. -/
theorem Sound.valid_of_lock (h : s.Sound) (hl : (s.buf i).lock = some p)
    (ha : s.act p ≠ .read i) : (s.buf i).valid = true := by
  by_contra hv
  exact ha (h.held i p hl (Bool.not_eq_true _ ▸ hv))

/-- One buffer changes, and what one process does, who is busy with no other buffer. -/
theorem Sound.change {b' : Buf} {a' : Activity} (h : s.Sound)
    (hbuf : s'.buf = update s.buf i b') (hact : s'.act = update s.act p a')
    (hperm : s'.order.Perm (List.finRange nbuf))
    (ha : s.act p = .idle ∨ s.act p = .acquire i ∨ s.act p = .read i ∨ s.act p = .release i)
    (ha' : a' = .idle ∨ a' = .acquire i ∨ a' = .read i ∨ a' = .release i)
    (hinj : ∀ j, j ≠ i → (s.buf j).dev = rootdev → b'.dev = rootdev →
      (s.buf j).blockno ≠ b'.blockno)
    (hlt : b'.blockno < fssize)
    (hunused : b'.dev ≠ rootdev → b'.refcnt = 0 ∧ b'.valid = false)
    (hrefcnt : b'.refcnt + waits i (s.act p) + locks (s.buf i).lock =
      (s.buf i).refcnt + waits i a' + locks b'.lock)
    (hheld : ∀ q, b'.lock = some q → b'.valid = false → update s.act p a' q = .read i)
    (hreading : ∀ q, update s.act p a' q = .read i → b'.lock = some q ∧ b'.valid = false)
    (hdirty : b'.dirty = true → b'.valid = true) : s'.Sound := by
  have hother : ∀ j, j ≠ i → s'.buf j = s.buf j := fun j hj => by rw [hbuf, update_of_ne hj]
  have hself : s'.buf i = b' := by rw [hbuf, update_self]
  have hsum (j : Fin nbuf) : ∑ q, waits j (s'.act q) + waits j (s.act p) =
      ∑ q, waits j (s.act q) + waits j a' := by
    rw [hact]
    exact sum_update_add (waits j) s.act p a'
  -- The process is not reading another buffer, before or after.
  have hne {a : Activity} (ha : a = .idle ∨ a = .acquire i ∨ a = .read i ∨ a = .release i)
      (j : Fin nbuf) (hj : j ≠ i) : a ≠ .read j := by
    rintro rfl
    rcases ha with ha | ha | ha | ha <;> cases ha
    exact hj rfl
  have hread (j : Fin nbuf) (hj : j ≠ i) (q : Fin nproc) : s'.act q = .read j ↔ s.act q = .read j := by
    rw [hact]
    rcases eq_or_ne q p with rfl | hq
    · rw [update_self]
      exact iff_of_false (hne ha' j hj) (hne ha j hj)
    · rw [update_of_ne hq]
  refine ⟨hperm, fun j k hj hk hjk => ?_, fun j => ?_, fun j hj => ?_, fun j => ?_,
    fun j q hl hv => ?_, fun q j hq => ?_, fun j hj => ?_⟩
  · rcases eq_or_ne j i with rfl | hji <;> rcases eq_or_ne k j with rfl | hkj
    · rfl
    · rw [hself, hother k hkj] at hjk
      rw [hself] at hj
      rw [hother k hkj] at hk
      exact absurd hjk.symm (hinj k hkj hk hj)
    · rfl
    · rcases eq_or_ne k i with rfl | hki
      · rw [hself, hother j hji] at hjk
        rw [hself] at hk
        rw [hother j hji] at hj
        exact absurd hjk (hinj j hji hj hk)
      · rw [hother j hji] at hj hjk
        rw [hother k hki] at hk hjk
        exact h.inj j k hj hk hjk
  all_goals rcases eq_or_ne j i with rfl | hji
  · rw [hself]
    exact hlt
  · rw [hother j hji]
    exact h.lt j
  · rw [hself] at hj ⊢
    exact hunused hj
  · rw [hother j hji] at hj ⊢
    exact h.unused j hj
  · have := h.refcnt j
    have := hsum j
    rw [hself]
    omega
  · have := h.refcnt j
    have := hsum j
    rw [waits_of_ne ha hji, waits_of_ne ha' hji] at this
    rw [hother j hji]
    omega
  · rw [hself] at hl hv
    rw [hact]
    exact hheld q hl hv
  · rw [hother j hji] at hl hv
    exact (hread j hji q).2 (h.held j q hl hv)
  · rw [hself]
    rw [hact] at hq
    exact hreading q hq
  · rw [hother j hji]
    exact h.reading q j ((hread j hji q).1 hq)
  · rw [hself] at hj ⊢
    exact hdirty hj
  · rw [hother j hji] at hj ⊢
    exact h.dirty j hj

/-- The memory stays when a buffer that is as dirty as before has the contents of its block. -/
theorem Refines.quiet {b' : Buf} (h : s.Refines m) (hs : s'.Sound) (hdisk : s'.disk = s.disk)
    (hbuf : s'.buf = update s.buf i b') (hd : b'.dirty = (s.buf i).dirty)
    (hno : b'.dirty = true → b'.blockno = (s.buf i).blockno)
    (hdata : b'.valid = true → b'.data = m.current b'.blockno) : s'.Refines m := by
  have hother : ∀ j, j ≠ i → s'.buf j = s.buf j := fun j hj => by rw [hbuf, update_of_ne hj]
  have hself : s'.buf i = b' := by rw [hbuf, update_self]
  refine ⟨hs, hdisk.trans h.disk, fun j hj => ?_, fun b => (h.pinned b).trans ?_, h.clean⟩
  · rcases eq_or_ne j i with rfl | hji
    · rw [hself] at hj ⊢
      exact hdata hj
    · rw [hother j hji] at hj ⊢
      exact h.data j hj
  · refine exists_congr fun j => ?_
    rcases eq_or_ne j i with rfl | hji
    · rw [hself, hd]
      refine and_congr_left fun hdj => ?_
      rw [hno (hd.trans hdj)]
    · rw [hother j hji]

/-! ### The calls -/

/-- `bget` finds the buffer of the block, or takes one that nobody uses and the log has not
    changed. -/
theorem Sound.bget (h : s.Sound) (hs' : s.bget rootdev b = .ok (i, s')) :
    ((s.buf i).dev = rootdev ∧ (s.buf i).blockno = b ∧
      s' = s.setBuf i { s.buf i with refcnt := (s.buf i).refcnt + 1 }) ∨
    ((∀ j, (s.buf j).dev = rootdev → (s.buf j).blockno ≠ b) ∧
      ((s.buf i).refcnt = 0 ∧ (s.buf i).dirty = false) ∧
        s' = s.setBuf i { s.buf i with
          dev := rootdev, blockno := b, valid := false, dirty := false, refcnt := 1 }) := by
  rw [Bcache.bget] at hs'
  split at hs'
  · rename_i j hj
    cases hs'
    rw [lookup] at hj
    obtain ⟨hd, hb⟩ : (s.buf i).dev = rootdev ∧ (s.buf i).blockno = b := by
      simpa using List.find?_some hj
    exact .inl ⟨hd, hb, rfl⟩
  · rename_i hnone
    split at hs'
    · rename_i j hj
      cases hs'
      rw [recycle] at hj
      refine .inr ⟨fun k hk hkb => ?_, by simpa using List.find?_some hj, rfl⟩
      have hmem : k ∈ s.order := h.perm.mem_iff.2 (List.mem_finRange k)
      exact absurd (decide_eq_true ⟨hk, hkb⟩) (List.find?_eq_none.1 hnone k hmem)
    · cases hs'

theorem Refines.bread (h : s.Refines m) (hp : s.act p = .idle) (hb : b < fssize)
    (hs' : s.bget rootdev b = .ok (i, s')) : (s'.setAct p (.acquire i)).Refines m := by
  have hs := h.sound
  rcases hs.bget hs' with ⟨hd, hbi, rfl⟩ | ⟨hno, ⟨hr, hc⟩, rfl⟩
  · refine h.quiet (hs.change rfl rfl hs.perm (.inl hp) (.inr (.inl rfl)) (fun j hj hdj _ hno => ?_)
      (hs.lt i) (fun hne => absurd hd hne) ?_ (fun q hl hv => ?_) (fun q hq => ?_) (hs.dirty i))
      rfl rfl rfl (fun _ => rfl) (h.data i)
    · exact hj (hs.inj j i hdj hd hno)
    · rw [hp]
      simp only [waits, if_true]
    · have hq := hs.held i q hl hv
      rcases eq_or_ne q p with rfl | hqp
      · rw [hp] at hq
        cases hq
      · rwa [update_of_ne hqp]
    · rcases eq_or_ne q p with rfl | hqp
      · rw [update_self] at hq
        cases hq
      · rw [update_of_ne hqp] at hq
        exact hs.reading q i hq
  · have hl := hs.lock_none hr
    refine h.quiet (hs.change rfl rfl hs.perm (.inl hp) (.inr (.inl rfl)) (fun j _ hdj _ => hno j hdj)
      hb (fun hne => absurd rfl hne) ?_ (fun q hlq _ => ?_) (fun q hq => ?_) nofun)
      rfl rfl hc.symm nofun nofun
    · rw [hp, hr, hl]
      simp [waits]
    · rw [hl] at hlq
      cases hlq
    · rcases eq_or_ne q p with rfl | hqp
      · rw [update_self] at hq
        cases hq
      · rw [update_of_ne hqp] at hq
        rw [(hs.reading q i hq).1] at hl
        cases hl

theorem Refines.acquire (h : s.Refines m) (hp : s.act p = .acquire i)
    (hl : (s.buf i).lock = none) : (s.acquire p i).Refines m := by
  have hs := h.sound
  have hd := hs.dev_of_waits (p := p) (by rw [hp, waits, if_pos rfl])
  have hno : ∀ q, s.act q ≠ .read i := fun q hq => by
    rw [(hs.reading q i hq).1] at hl
    cases hl
  refine h.quiet (hs.change rfl rfl hs.perm (.inr (.inl hp)) ?_ (fun j hj hdj _ hno => ?_)
    (hs.lt i) (fun hne => absurd hd hne) ?_ (fun q hlq hv => ?_) (fun q hq => ?_) (hs.dirty i))
    rfl rfl rfl (fun _ => rfl) (h.data i)
  · split
    · exact .inl rfl
    · exact .inr (.inr (.inl rfl))
  · exact hj (hs.inj j i hdj hd hno)
  · rw [hp, hl]
    split <;> simp [waits, locks]
  · cases hlq
    rw [update_self, if_neg (by simpa using hv)]
  · rcases eq_or_ne q p with rfl | hqp
    · rw [update_self] at hq
      split at hq
      · cases hq
      · rename_i hv
        exact ⟨rfl, Bool.not_eq_true _ ▸ hv⟩
    · rw [update_of_ne hqp] at hq
      exact absurd hq (hno q)

/-- `iderw` by a process that reads: the buffer is filled. -/
theorem iderw_read (hs : s.Sound) (hp : s.act p = .read i) :
    s.iderw p i =
      .ok (s.setBuf i { s.buf i with valid := true, data := s.disk (s.buf i).blockno }) := by
  obtain ⟨hl, hv⟩ := hs.reading p i hp
  have hd : (s.buf i).dirty = false := by
    by_contra hd
    rw [hs.dirty i (Bool.not_eq_false _ ▸ hd)] at hv
    cases hv
  have hlt := hs.lt i
  simp [iderw, hl, hv, hd, Nat.not_le.2 hlt]

theorem Refines.read (h : s.Refines m) (hp : s.act p = .read i) :
    ((s.setBuf i { s.buf i with valid := true, data := s.disk (s.buf i).blockno }).setAct p
      .idle).Refines m := by
  have hs := h.sound
  obtain ⟨hl, hv⟩ := hs.reading p i hp
  have hd := hs.dev_of_lock hl
  refine h.quiet (hs.change rfl rfl hs.perm (.inr (.inr (.inl hp))) (.inl rfl)
    (fun j hj hdj _ hno => ?_) (hs.lt i) (fun hne => absurd hd hne) ?_ (fun q _ hv => nomatch hv)
    (fun q hq => ?_) (fun _ => rfl)) rfl rfl rfl (fun _ => rfl) (fun _ => ?_)
  · exact hj (hs.inj j i hdj hd hno)
  · rw [hp]
    rfl
  · rcases eq_or_ne q p with rfl | hqp
    · rw [update_self] at hq
      cases hq
    · -- Nobody else reads the buffer, since it is locked.
      rw [update_of_ne hqp] at hq
      have hlq := (hs.reading q i hq).1
      rw [hl] at hlq
      exact absurd (Option.some.inj hlq).symm hqp
  · -- The block is not pinned: its only buffer is not valid, thus not dirty.
    have hpin : (s.buf i).blockno ∉ m.pinned := by
      rw [h.pinned]
      rintro ⟨j, hj, hdj⟩
      have hvj := hs.dirty j hdj
      rw [hs.inj j i (hs.dev_of_valid hvj) hd hj, hv] at hvj
      cases hvj
    change s.disk _ = _
    rw [h.disk]
    exact (h.clean _ hpin).symm

/-- A process changes a buffer that it has, for the log (`c`) or for the disk. -/
theorem Refines.write {c : Bool} (h : s.Refines m) (hp : s.act p = .idle)
    (hl : (s.buf i).lock = some p)
    (hbuf : s'.buf = update s.buf i { s.buf i with valid := true, dirty := c, data := v })
    (hact : s'.act = s.act) (horder : s'.order = s.order) (hno : (s.buf i).blockno = b)
    (hdisk : s'.disk = if c then s.disk else update s.disk b v) :
    s'.Refines ⟨update m.current b v, if c then m.disk else update m.disk b v,
      if c then insert b m.pinned else m.pinned.erase b⟩ := by
  have hs := h.sound
  have hd := hs.dev_of_lock hl
  have hv := hs.valid_of_lock hl (by rw [hp]; nofun)
  have hother : ∀ j, j ≠ i → s'.buf j = s.buf j := fun j hj => by rw [hbuf, update_of_ne hj]
  have hself : s'.buf i = { s.buf i with valid := true, dirty := c, data := v } := by
    rw [hbuf, update_self]
  -- No other buffer has the block.
  have hne : ∀ j, j ≠ i → (s.buf j).valid = true → (s.buf j).blockno ≠ b := fun j hj hvj he =>
    hj (hs.inj j i (hs.dev_of_valid hvj) hd (he.trans hno.symm))
  have hs' : s'.Sound := by
    refine hs.change hbuf (hact.trans (update_eq_self p s.act).symm) (horder ▸ hs.perm) (.inl hp)
      (.inl hp) (fun j hj hdj _ hno => hj (hs.inj j i hdj hd hno)) (hs.lt i)
      (fun hne => absurd hd hne) rfl (fun q _ hv => nomatch hv) (fun q hq => ?_) fun _ => rfl
    rw [update_eq_self] at hq
    rw [(hs.reading q i hq).2] at hv
    cases hv
  refine ⟨hs', ?_, fun j hj => ?_, fun a => ?_, fun a ha => ?_⟩
  · rw [hdisk, h.disk]
  · rcases eq_or_ne j i with rfl | hji
    · rw [hself]
      change v = update m.current b v (s.buf j).blockno
      rw [hno, update_self]
    · rw [hother j hji] at hj ⊢
      change _ = update m.current b v _
      rw [update_of_ne (hne j hji hj)]
      exact h.data j hj
  · have hex : (∃ j, (s'.buf j).blockno = a ∧ (s'.buf j).dirty = true) ↔
        (b = a ∧ c = true) ∨ ∃ j, j ≠ i ∧ (s.buf j).blockno = a ∧ (s.buf j).dirty = true := by
      constructor
      · rintro ⟨j, hj⟩
        rcases eq_or_ne j i with rfl | hji
        · rw [hself] at hj
          exact .inl ⟨hno.symm.trans hj.1, hj.2⟩
        · rw [hother j hji] at hj
          exact .inr ⟨j, hji, hj⟩
      · rintro (⟨rfl, hc⟩ | ⟨j, hji, hj⟩)
        · refine ⟨i, ?_⟩
          rw [hself]
          exact ⟨hno, hc⟩
        · refine ⟨j, ?_⟩
          rw [hother j hji]
          exact hj
    have hold : a ≠ b → (a ∈ m.pinned ↔
        ∃ j, j ≠ i ∧ (s.buf j).blockno = a ∧ (s.buf j).dirty = true) := by
      intro hab
      rw [h.pinned]
      refine exists_congr fun j => (and_iff_right_of_imp ?_).symm
      rintro ⟨hj, -⟩ rfl
      exact hab (hj.symm.trans hno)
    rw [hex]
    rcases eq_or_ne a b with rfl | hab
    · have hnot : ¬∃ j, j ≠ i ∧ (s.buf j).blockno = a ∧ (s.buf j).dirty = true := by
        rintro ⟨j, hji, hj, hdj⟩
        exact hne j hji (hs.dirty j hdj) hj
      cases c <;> simp [hnot]
    · cases c <;> simp [hab, hab.symm, hold hab]
  · rcases eq_or_ne a b with rfl | hab
    · cases c
      · simp
      · exact absurd (Finset.mem_insert_self a m.pinned) ha
    · change update m.current b v a = _
      rw [update_of_ne hab]
      cases c
      · change _ = update m.disk b v a
        rw [update_of_ne hab]
        exact h.clean a fun hmem => ha (Finset.mem_erase.2 ⟨hab, hmem⟩)
      · exact h.clean a fun hmem => ha (Finset.mem_insert_of_mem hmem)

theorem Refines.logWrite (h : s.Refines m) (hp : s.act p = .idle)
    (hl : (s.buf i).lock = some p) :
    (s.setBuf i { s.buf i with data := v, dirty := true }).Refines
      { m with
        current := update m.current (s.buf i).blockno v
        pinned := insert (s.buf i).blockno m.pinned } := by
  have hv := h.sound.valid_of_lock hl (by rw [hp]; nofun)
  refine h.write (c := true) hp hl ?_ rfl rfl rfl rfl
  rw [setBuf, ← hv]

/-- `bwrite` writes what the process has changed to the disk. -/
theorem Sound.bwrite (h : s.Sound) (hl : (s.buf i).lock = some p) :
    s.bwrite p i v =
      .ok { s.setBuf i { s.buf i with valid := true, dirty := false, data := v } with
        disk := update s.disk (s.buf i).blockno v } := by
  have hlt := h.lt i
  simp [Bcache.bwrite, hl, iderw, setBuf, Nat.not_le.2 hlt]

theorem Refines.bwrite (h : s.Refines m) (hp : s.act p = .idle)
    (hs' : s.bwrite p i v = .ok s') :
    s'.Refines ⟨update m.current (s.buf i).blockno v, update m.disk (s.buf i).blockno v,
      m.pinned.erase (s.buf i).blockno⟩ := by
  have hl : (s.buf i).lock = some p := by
    by_contra hl
    rw [Bcache.bwrite, if_pos hl] at hs'
    cases hs'
  rw [h.sound.bwrite hl] at hs'
  cases hs'
  exact h.write (c := false) hp hl rfl rfl rfl rfl rfl

theorem Refines.brelse (h : s.Refines m) (hp : s.act p = .idle)
    (hs' : s.brelse p i = .ok s') : s'.Refines m := by
  have hs := h.sound
  rw [Bcache.brelse] at hs'
  split at hs'
  · cases hs'
  rename_i hl
  rw [not_not] at hl
  cases hs'
  have hd := hs.dev_of_lock hl
  refine h.quiet (hs.change rfl rfl hs.perm (.inl hp) (.inr (.inr (.inr rfl)))
    (fun j hj hdj _ hno => hj (hs.inj j i hdj hd hno)) (hs.lt i) (fun hne => absurd hd hne) ?_ nofun
    (fun q hq => ?_) (hs.dirty i)) rfl rfl rfl (fun _ => rfl) (h.data i)
  · rw [hp, hl]
    simp [waits, locks]
  · rcases eq_or_ne q p with rfl | hqp
    · rw [update_self] at hq
      cases hq
    · rw [update_of_ne hqp] at hq
      have hlq := (hs.reading q i hq).1
      rw [hl] at hlq
      exact absurd (Option.some.inj hlq).symm hqp

theorem Refines.unref (h : s.Refines m) (hp : s.act p = .release i) : (s.unref p i).Refines m := by
  have hs := h.sound
  have hw : waits i (s.act p) = 1 := by rw [hp, waits, if_pos rfl]
  have hd := hs.dev_of_waits hw
  have hr := hs.refcnt_ne_zero hw
  refine h.quiet (hs.change rfl rfl ?_ (.inr (.inr (.inr hp))) (.inl rfl)
    (fun j hj hdj _ hno => hj (hs.inj j i hdj hd hno)) (hs.lt i) (fun hne => absurd hd hne) ?_
    (fun q hl hv => ?_) (fun q hq => ?_) (hs.dirty i)) rfl rfl rfl (fun _ => rfl) (h.data i)
  · change (ite _ _ _ : List (Fin nbuf)).Perm _
    split
    · exact (List.perm_cons_erase (hs.perm.mem_iff.2 (List.mem_finRange i))).symm.trans hs.perm
    · exact hs.perm
  · rw [hw]
    change (s.buf i).refcnt - 1 + 1 + _ = _ + 0 + _
    rw [Nat.sub_add_cancel (Nat.pos_of_ne_zero hr)]
    rfl
  · have hq := hs.held i q hl hv
    rcases eq_or_ne q p with rfl | hqp
    · rw [hp] at hq
      cases hq
    · rwa [update_of_ne hqp]
  · rcases eq_or_ne q p with rfl | hqp
    · rw [update_self] at hq
      cases hq
    · rw [update_of_ne hqp] at hq
      exact hs.reading q i hq

/-- The machine starts with empty buffers. -/
theorem refines_binit (disk : ℕ → Block) : (binit disk).Refines ⟨disk, disk, ∅⟩ := by
  refine ⟨⟨List.reverse_perm _, ?_, ?_, fun _ _ => ⟨rfl, rfl⟩, ?_, ?_, ?_, ?_⟩, rfl, ?_, ?_,
    fun _ _ => rfl⟩
  · intro i j hi
    cases hi
  · exact fun _ => (by decide : 0 < fssize)
  · intro i
    simp [binit, waits, locks]
  · exact fun _ _ => nofun
  · exact fun _ _ => nofun
  · exact fun _ => nofun
  · exact fun _ => nofun
  · intro b
    simp [binit]

/-! ### Runs -/

theorem Refines.step {e : CacheEvent} (h : s.Refines m) (hs' : s.step e = some s') :
    ∃ m', Trace.run Memory.step m (s.label e) = some m' ∧ s'.Refines m' := by
  obtain ⟨r, hr, hs'⟩ := Option.bind_eq_some_iff.1 hs'
  cases r with
  | error => cases hs'
  | ok t =>
  cases hs'
  cases e with
  | bread p b =>
    rw [call] at hr
    split at hr
    · rename_i hp
      rw [Option.some.injEq] at hr
      cases hb : s.bget rootdev b with
      | error =>
        rw [hb] at hr
        cases hr
      | ok r =>
        rw [hb] at hr
        cases hr
        exact ⟨m, rfl, h.bread hp.1 hp.2 hb⟩
    · cases hr
  | advance p =>
    rw [call, advance] at hr
    refine ⟨m, rfl, ?_⟩
    cases hp : s.act p with
    | idle =>
      rw [hp] at hr
      cases hr
    | acquire i =>
      simp only [hp] at hr
      split at hr
      · rename_i hl
        cases hr
        exact h.acquire hp hl
      · cases hr
    | read i =>
      simp only [hp, iderw_read h.sound hp] at hr
      cases hr
      exact h.read hp
    | release i =>
      simp only [hp] at hr
      cases hr
      exact h.unref hp
  | logWrite p i v =>
    rw [call] at hr
    split at hr
    · rename_i hp
      cases hr
      exact ⟨_, rfl, h.logWrite hp.1 hp.2⟩
    · cases hr
  | bwrite p i v =>
    rw [call] at hr
    split at hr
    · rename_i hp
      exact ⟨_, rfl, h.bwrite hp (Option.some.inj hr)⟩
    · cases hr
  | brelse p i =>
    rw [call] at hr
    split at hr
    · rename_i hp
      exact ⟨m, rfl, h.brelse hp (Option.some.inj hr)⟩
    · cases hr
  | crash =>
    cases hr
    refine ⟨_, rfl, ?_⟩
    rw [h.disk]
    exact refines_binit _

/-- A run of the cache is one of the memory. -/
theorem refines_run {disk : ℕ → Block} {es : List CacheEvent}
    (h : Trace.run step (binit disk) es = some s) :
    ∃ m, Trace.run Memory.step ⟨disk, disk, ∅⟩ (Trace.labels step label (binit disk) es) = some m ∧
      s.Refines m :=
  Trace.run_simulates (P := fun _ _ => True) (fun _ _ _ _ hR _ he => hR.step he)
    (refines_binit disk) (Trace.along_of_forall fun _ _ _ => trivial) h

/-- Two processes want the same block: the second one waits until the first one, which changes it,
    has given it back. -/
def shared : List CacheEvent :=
  [.bread 0 40, .advance 0, .advance 0, .bread 1 40, .logWrite 0 0 (fun _ => 7), .brelse 0 0,
    .advance 1, .advance 0]

end Bcache

end Storage
