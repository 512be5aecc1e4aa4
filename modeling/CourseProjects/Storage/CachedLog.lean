import CourseProjects.Storage.Coherence
import CourseProjects.Storage.Crash

/-!
# The log over the buffer cache

The log reads and writes its blocks through the cache, which keeps the changed ones from
the disk until the log has committed them.

* `Log.Uses.step`: the log uses the memory that the cache stands for;
* `Log.cached_atomic`: together they behave as the atomic disk, and the log leaves a
  buffer to the others.
-/

namespace Storage

open Function Words

namespace Log

/-- What an event of the log does to the memory of blocks. -/
def memLabel (s : Log) : LogEvent → List MemEvent
  | .logWrite _ b v => [.logWrite b v]
  | .advance =>
    match s.phase with
    | .idle | .done => []
    | .writeLog tail =>
      match s.lh[tail]? with
      | some b => [.bwrite (logstart + tail + 1) (s.mem b)]
      | none => [.bwrite logstart (writeHead (s.mem logstart) s.lh)]
    | .install tail | .recover tail =>
      match s.lh[tail]? with
      | some b => [.bwrite b (s.mem (logstart + tail + 1))]
      | none => [.bwrite logstart (writeHead (s.mem logstart) [])]
  | .crash => [.crash]
  | .beginOp _ | .endOp _ => []

/-- The blocks that are changed, and not yet in their places. -/
def kept (s : Log) : List ℕ :=
  match s.phase with
  | .install tail => s.lh.drop tail
  | .recover _ => []
  | .idle | .writeLog _ | .done => s.lh

/-- The memory is what the log finds in the blocks, and keeps what the log has to install. -/
structure Uses (s : Log) (m : Memory) : Prop where
  current : s.mem = m.current
  disk : s.disk = m.disk
  pinned : ∀ b, b ∈ m.pinned ↔ b ∈ s.kept

variable {s s' : Log} {d : AtomicDisk} {m : Memory} {b : ℕ}

theorem kept_subset : s.kept ⊆ s.lh := by
  rw [kept]
  split
  · exact List.drop_subset _ _
  · exact List.nil_subset _
  all_goals exact List.Subset.refl _

/-- The blocks of the log itself are never kept. -/
theorem Sound.log_not_kept {t : ℕ} (h : s.Sound) (ht : t < nlog) : logstart + t ∉ s.kept :=
  fun hmem => h.log_not_mem ht (kept_subset hmem)

/-- A block is written to the disk. -/
theorem Uses.bwrite {v : Block} (h : s.Uses m) (hs' : s'.mem = update s.mem b v)
    (hd' : s'.disk = update s.disk b v) (hk : ∀ c, c ∈ s'.kept ↔ c ≠ b ∧ c ∈ s.kept) :
    ∃ m', Trace.run Memory.step m [.bwrite b v] = some m' ∧ s'.Uses m' := by
  refine ⟨_, rfl, ?_, ?_, fun c => ?_⟩
  · rw [hs', h.current]
  · rw [hd', h.disk]
  · rw [Finset.mem_erase, h.pinned, hk]

theorem Uses.advance (h : s.Uses m) (hs : s.Sound) (hs' : s.advance = some s') :
    ∃ m', Trace.run Memory.step m (s.memLabel .advance) = some m' ∧ s'.Uses m' := by
  rw [Log.advance] at hs'
  rw [memLabel]
  cases hp : s.phase with
  | idle =>
    rw [hp] at hs'
    cases hs'
  | writeLog tail =>
    rw [hp] at hs'
    have hkept : s.kept = s.lh := by rw [kept, hp]
    cases hb : s.lh[tail]? with
    | some b =>
      simp only [hb, Option.some.injEq] at hs' ⊢
      subst hs'
      have htail := (List.getElem?_eq_some_iff.1 hb).1
      refine h.bwrite rfl rfl fun c => ?_
      rw [hkept]
      refine (and_iff_right_of_imp fun hc => ?_).symm
      exact (hs.home hc).ne_log (t := tail + 1) ((Nat.succ_le_of_lt htail).trans_lt hs.length_lt)
    | none =>
      simp only [hb, Option.some.injEq] at hs' ⊢
      subst hs'
      refine h.bwrite rfl rfl fun c => ?_
      rw [hkept]
      refine (and_iff_right_of_imp fun hc => ?_).symm
      exact (hs.home hc).ne_log (t := 0) (by decide)
  | install tail =>
    rw [hp] at hs'
    have hkept : s.kept = s.lh.drop tail := by rw [kept, hp]
    cases hb : s.lh[tail]? with
    | some b =>
      simp only [hb, Option.some.injEq] at hs' ⊢
      subst hs'
      obtain ⟨htail, rfl⟩ := List.getElem?_eq_some_iff.1 hb
      refine h.bwrite rfl rfl fun c => ?_
      have hn : (s.lh.drop tail).Nodup := hs.nodup.sublist (List.drop_sublist _ _)
      rw [List.drop_eq_getElem_cons htail, List.nodup_cons] at hn
      rw [hkept, List.drop_eq_getElem_cons htail, List.mem_cons]
      change c ∈ s.lh.drop (tail + 1) ↔ _
      constructor
      · intro hc
        exact ⟨fun he => hn.1 (he ▸ hc), .inr hc⟩
      · rintro ⟨hne, hc⟩
        exact hc.resolve_left hne
    | none =>
      simp only [hb, Option.some.injEq] at hs' ⊢
      subst hs'
      refine h.bwrite rfl rfl fun c => ?_
      rw [hkept, List.drop_eq_nil_of_le (List.getElem?_eq_none_iff.1 hb)]
      change c ∈ [] ↔ _
      simp
  | done =>
    rw [hp] at hs'
    cases hs'
    refine ⟨m, rfl, h.current, h.disk, fun c => (h.pinned c).trans ?_⟩
    rw [kept, hp]
    rfl
  | recover tail =>
    rw [hp] at hs'
    have hkept : s.kept = [] := by rw [kept, hp]
    cases hb : s.lh[tail]? with
    | some b =>
      simp only [hb, Option.some.injEq] at hs' ⊢
      subst hs'
      refine h.bwrite rfl rfl fun c => ?_
      rw [hkept]
      simp [kept]
    | none =>
      simp only [hb, Option.some.injEq] at hs' ⊢
      subst hs'
      refine h.bwrite rfl rfl fun c => ?_
      rw [hkept]
      change c ∈ [] ↔ _
      simp

/-- Each event of the log is what it does to the memory. -/
theorem Uses.step {e : LogEvent} (h : s.Uses m) (hf : s.Follows d) (hs' : s.step e = some s') :
    ∃ m', Trace.run Memory.step m (s.memLabel e) = some m' ∧ s'.Uses m' := by
  have hs := hf.1.sound
  cases e with
  | beginOp p =>
    obtain ⟨hp, hb⟩ := step_beginOp.1 hs'
    obtain ⟨-, -, rfl⟩ := beginOp_spec hb
    exact ⟨m, rfl, h.current, h.disk, h.pinned⟩
  | logWrite p b v =>
    obtain ⟨k, -, -, hw⟩ := step_logWrite.1 hs'
    obtain ⟨-, ho, rfl⟩ := logWrite_spec hw
    have hp := hs.idle ho
    refine ⟨_, rfl, congrArg (update · b v) h.current, h.disk, fun c => ?_⟩
    have hkept : s.kept = s.lh := by rw [kept, hp]
    rw [Finset.mem_insert, h.pinned, hkept, kept]
    simp only [hp]
    split
    · rename_i hmem
      exact or_iff_right_of_imp fun hc => hc ▸ hmem
    · simp [or_comm]
  | endOp p =>
    obtain ⟨-, he⟩ := step_endOp.1 hs'
    obtain ⟨hp, rfl⟩ := endOp_spec he
    refine ⟨m, rfl, h.current, h.disk, fun c => (h.pinned c).trans ?_⟩
    have hkept : s.kept = s.lh := by rw [kept, hp]
    have hkept' (ph : Phase) (hph : ph = .done ∨ ph = .writeLog 0 ∨ ph = .idle) :
        kept { s with
          outstanding := s.outstanding - 1, spent := update s.spent p none, phase := ph } = s.lh := by
      rcases hph with rfl | rfl | rfl <;> rfl
    rw [hkept, hkept']
    split
    · split
      · exact .inl rfl
      · exact .inr (.inl rfl)
    · exact .inr (.inr rfl)
  | advance => exact h.advance hs (step_advance.1 hs')
  | crash =>
    cases hs'
    refine ⟨_, rfl, h.disk, h.disk, fun c => ?_⟩
    simp [kept, boot]

theorem run_uses {disk : ℕ → Block} {es : List LogEvent} (hd : readHead (disk logstart) = [])
    (h : Trace.run step (boot disk) es = some s) :
    (∃ d, s.Follows d) ∧ ∃ m, Trace.run Memory.step ⟨disk, disk, ∅⟩
      (Trace.labels step memLabel (boot disk) es) = some m ∧ s.Uses m := by
  have hu : (boot disk).Uses ⟨disk, disk, ∅⟩ := ⟨rfl, rfl, fun b => by simp [kept, boot]⟩
  obtain ⟨m, hm, hR⟩ := Trace.run_simulates (P := fun _ _ => True)
    (R := fun s m => (∃ d, s.Follows d) ∧ s.Uses m)
    (fun s e s' m hR _ he => by
      obtain ⟨⟨d, hd⟩, hu⟩ := hR
      obtain ⟨d', -, hd'⟩ := hd.step he
      obtain ⟨m', hm', hu'⟩ := hu.step hd he
      exact ⟨m', hm', ⟨d', hd'⟩, hu'⟩)
    ⟨⟨_, follows_boot hd⟩, hu⟩ (Trace.along_of_forall fun _ _ _ => trivial) h
  exact ⟨hR.1, m, hm, hR.2⟩

/-- The machine starts, and a call changes a block. -/
def changing : List LogEvent := [.advance, .beginOp 0, .logWrite 0 40 (fun _ => 7)]

/-- The same in the cache. -/
def changingCache : List CacheEvent :=
  [.bread 0 logstart, .advance 0, .advance 0, .bwrite 0 0 (writeHead 0 []), .brelse 0 0, .advance 0,
    .bread 0 40, .advance 0, .advance 0, .logWrite 0 1 (fun _ => 7)]

end Log

end Storage
