import CourseProjects.Lib.Counting
import CourseProjects.Storage.Log

/-!
# Crashes

What the log is for: a disk whose contents after a crash are those of a moment when no
call was under way (`AtomicDisk`).

* `Log.run_atomic`: whatever the processes do, and wherever the machine crashes, the log
  behaves as such a disk: `bread` finds its contents, and `recover_from_log` brings back
  those that are stable.
-/

namespace Storage

open Counting Function Words

/-! ### The disk the log stands for -/

/-- The contents of the blocks, those that a crash brings back, and the calls under way. -/
structure AtomicDisk where
  current : ℕ → Block
  stable : ℕ → Block
  ops : ℕ

inductive DiskEvent
  | beginOp
  | write (b : ℕ) (v : Block)
  | endOp
  /-- The contents become stable, as a whole, while no call is under way. -/
  | commit
  | crash

/-- One event; a call writes blocks while it is under way. -/
def AtomicDisk.step (d : AtomicDisk) : DiskEvent → Option AtomicDisk
  | .beginOp => some { d with ops := d.ops + 1 }
  | .write b v => if d.ops = 0 then none else some { d with current := update d.current b v }
  | .endOp => if d.ops = 0 then none else some { d with ops := d.ops - 1 }
  | .commit => if d.ops = 0 then some { d with stable := d.current } else none
  | .crash => some ⟨d.stable, d.stable, 0⟩

/-! ### Recovery -/

section

variable {disk : ℕ → Block} {lh : List ℕ} {b i t : ℕ}

theorem Home.ne_log (h : Home b) (ht : t < nlog) : b ≠ logstart + t := by
  rw [Home] at h
  omega

theorem Home.ne_copy (h : Home b) (ht : t + 1 < nlog) : b ≠ logstart + t + 1 := h.ne_log ht

/-- Blocks of which the log has a copy, beyond the first ones. -/
theorem foldl_install (hn : lh.Nodup) (hh : ∀ b ∈ lh, Home b) (hl : i + lh.length < nlog) (b : ℕ) :
    (lh.zipIdx i).foldl (fun disk (b, tail) => update disk b (disk (logstart + tail + 1))) disk b =
      if b ∈ lh then disk (logstart + (i + lh.idxOf b) + 1) else disk b := by
  induction lh generalizing disk i with
  | nil => rfl
  | cons c lh ih =>
    obtain ⟨hc, hn⟩ := List.nodup_cons.1 hn
    have hlog : ∀ t < nlog, logstart + t ≠ c := fun t ht => ((hh c List.mem_cons_self).ne_log ht).symm
    rw [List.length_cons] at hl
    rw [List.zipIdx_cons, List.foldl_cons, ih hn (fun b hb => hh b (List.mem_cons_of_mem _ hb))
      (by omega)]
    rcases eq_or_ne b c with rfl | hb
    · rw [if_neg hc, if_pos List.mem_cons_self, List.idxOf_cons_self, Nat.add_zero]
      exact update_self ..
    · simp only [List.mem_cons, hb, false_or]
      split
      · rename_i hmem
        have hlt := List.idxOf_lt_length_of_mem hmem
        rw [List.idxOf_cons_ne _ hb.symm, Nat.succ_eq_add_one, Nat.add_assoc i, Nat.add_comm 1,
          update_of_ne]
        exact hlog (i + (lh.idxOf b + 1) + 1) (by omega)
      · exact update_of_ne hb _ _

/-- Recovery brings a block of which the log has a copy back from there. -/
theorem recoverFromLog_home (hr : readHead (disk logstart) = lh) (hn : lh.Nodup)
    (hh : ∀ b ∈ lh, Home b) (hl : lh.length < nlog) (hb : Home b) :
    recoverFromLog disk b =
      if b ∈ lh then disk (logstart + lh.idxOf b + 1) else disk b := by
  have hne : b ≠ logstart := hb.ne_log (t := 0) (by decide)
  rw [recoverFromLog, update_of_ne hne, hr, installTrans, foldl_install hn hh (by omega),
    Nat.zero_add]

theorem recoverFromLog_nil (hr : readHead (disk logstart) = []) (hb : Home b) :
    recoverFromLog disk b = disk b := by
  rw [recoverFromLog_home hr List.nodup_nil (by simp) (by decide) hb, if_neg List.not_mem_nil]

end

/-! ### The invariant -/

/-- What the log and the places of the blocks have got while `commit` or `recover_from_log` goes
    on. -/
def Log.At (s : Log) : Phase → Prop
  | .idle => readHead (s.disk logstart) = [] ∧ (s.outstanding = 0 → s.lh = [])
  | .writeLog tail => readHead (s.disk logstart) = [] ∧ s.outstanding = 0 ∧
      ∀ t b, t < tail → s.lh[t]? = some b → s.disk (logstart + t + 1) = s.mem b
  | .install tail => readHead (s.disk logstart) = s.lh ∧ s.outstanding = 0 ∧
      (∀ t b, s.lh[t]? = some b → s.disk (logstart + t + 1) = s.mem b) ∧
        ∀ t b, t < tail → s.lh[t]? = some b → s.disk b = s.mem b
  | .done => readHead (s.disk logstart) = [] ∧ s.outstanding = 0 ∧ s.lh = []
  | .recover tail => readHead (s.disk logstart) = s.lh ∧ s.outstanding = 0 ∧ s.mem = s.disk ∧
      ∀ t b, t < tail → s.lh[t]? = some b → s.disk b = s.disk (logstart + t + 1)

/-- The blocks that the log lists have room in it and are none of its own, and what is in memory
    of the others is on the disk. -/
structure Log.Sound (s : Log) : Prop where
  nodup : s.lh.Nodup
  listed : ∀ b ∈ s.lh, Home b ∧ b < fssize
  length_lt : s.lh.length < nlog
  clean : ∀ b, b ∉ s.lh → s.mem b = s.disk b
  atPhase : s.At s.phase

namespace Log

variable {s s' : Log} {b t : ℕ} {v : Block} {p : Fin nproc} {d : AtomicDisk}

theorem Sound.home (h : s.Sound) (hb : b ∈ s.lh) : Home b := (h.listed b hb).1

/-- A block of the log itself is not listed. -/
theorem Sound.log_not_mem (h : s.Sound) (ht : t < nlog) : logstart + t ∉ s.lh := fun hmem =>
  (h.home hmem).ne_log ht rfl

/-- The log behaves as the atomic disk `d`; while it is recovered, nobody looks. -/
structure Refines (s : Log) (d : AtomicDisk) : Prop where
  sound : s.Sound
  ops : s.outstanding = d.ops
  stable : ∀ b, Home b → recoverFromLog s.disk b = d.stable b
  current : ∀ b, Home b → (∀ tail, s.phase ≠ .recover tail) → s.mem b = d.current b
  recovering : ∀ b, Home b → ∀ tail, s.phase = .recover tail → d.current b = d.stable b

/-- What a crash brings back once the header is written: what is in memory. -/
theorem Sound.recover_install {tail : ℕ} (h : s.Sound) (hp : s.phase = .install tail)
    (hb : Home b) : recoverFromLog s.disk b = s.mem b := by
  have hat := h.atPhase
  rw [hp] at hat
  obtain ⟨hr, -, hlog, -⟩ := hat
  rw [recoverFromLog_home hr h.nodup (fun _ hb => h.home hb) h.length_lt hb]
  split
  · rename_i hmem
    exact hlog _ b (List.getElem?_idxOf hmem)
  · rename_i hmem
    exact (h.clean b hmem).symm

/-- Between the calls the phase is `idle` or there is no call under way. -/
theorem Sound.idle (h : s.Sound) (ho : s.outstanding ≠ 0) : s.phase = .idle := by
  have hat := h.atPhase
  cases hp : s.phase with
  | idle => rfl
  | writeLog | install | done | recover =>
    rw [hp] at hat
    exact absurd hat.2.1 ho

/-- The header on the disk lists nothing, or what the header in memory lists. -/
theorem Sound.head (h : s.Sound) :
    readHead (s.disk logstart) = [] ∨ readHead (s.disk logstart) = s.lh := by
  have hat := h.atPhase
  cases hp : s.phase <;> rw [hp] at hat
  · exact .inl hat.1
  · exact .inl hat.1
  · exact .inr hat.1
  · exact .inl hat.1
  · exact .inr hat.1

/-! ### The calls -/

theorem Refines.crash (h : s.Refines d) : (boot s.disk).Refines ⟨d.stable, d.stable, 0⟩ := by
  have hs := h.sound
  refine ⟨?_, rfl, h.stable, fun b _ hne => absurd rfl (hne 0), fun _ _ _ _ => rfl⟩
  have hat : (boot s.disk).At (.recover 0) := ⟨rfl, rfl, rfl, fun _ _ ht => absurd ht (Nat.not_lt_zero _)⟩
  rcases hs.head with hr | hr
  · refine ⟨?_, ?_, ?_, fun _ _ => rfl, hat⟩ <;> simp [boot, hr]
  · refine ⟨?_, ?_, ?_, fun _ _ => rfl, hat⟩ <;> simp only [boot, hr]
    · exact hs.nodup
    · exact hs.listed
    · exact hs.length_lt

theorem Refines.beginOp (h : s.Refines d) (hs' : s.beginOp p = some s') :
    s'.Refines { d with ops := d.ops + 1 } := by
  obtain ⟨hs, hops, hst, hcur, hrec⟩ := h
  obtain ⟨hp, -, rfl⟩ := beginOp_spec hs'
  obtain ⟨hn, hl, hlen, hclean, hat⟩ := hs
  rw [hp] at hat
  refine ⟨⟨hn, hl, hlen, hclean, ?_⟩, congrArg (· + 1) hops, hst, hcur, hrec⟩
  change At _ s.phase
  rw [hp]
  exact ⟨hat.1, fun h0 => absurd h0 (Nat.succ_ne_zero _)⟩

theorem Refines.logWrite {m : ℕ} (h : s.Refines d) (hb : Home b) (hb' : b < fssize)
    (hs' : s.logWrite p m b v = .ok s') :
    d.ops ≠ 0 ∧ s'.Refines { d with current := update d.current b v } := by
  obtain ⟨hs, hops, hst, hcur, hrec⟩ := h
  obtain ⟨hlen, ho, rfl⟩ := logWrite_spec hs'
  have hp := hs.idle ho
  obtain ⟨hn, hl, -, hclean, hat⟩ := hs
  rw [hp] at hat
  refine ⟨hops ▸ ho, ⟨?_, ?_, ?_, fun c hc => ?_, ?_⟩, hops, hst, fun c hc hne => ?_, ?_⟩
  · dsimp only
    split
    · exact hn
    · rename_i hmem
      exact List.concat_eq_append ▸ hn.concat hmem
  · dsimp only
    split
    · exact hl
    · intro c hc
      rcases List.mem_append.1 hc with hc | hc
      · exact hl c hc
      · exact List.mem_singleton.1 hc ▸ ⟨hb, hb'⟩
  · dsimp only
    split
    · omega
    · rw [List.length_append, List.length_singleton]
      omega
  · have hcb : c ≠ b ∧ c ∉ s.lh := by
      dsimp only at hc
      split at hc
      · exact ⟨fun he => hc (he ▸ ‹b ∈ s.lh›), hc⟩
      · simpa [and_comm] using hc
    exact (update_of_ne hcb.1 _ _).trans (hclean c hcb.2)
  · change At _ s.phase
    rw [hp]
    exact ⟨hat.1, fun h0 => absurd h0 ho⟩
  · change update s.mem b v c = update d.current b v c
    rcases eq_or_ne c b with rfl | hcb
    · rw [update_self, update_self]
    · rw [update_of_ne hcb, update_of_ne hcb]
      exact hcur c hc hne
  · intro c _ tail ht
    rw [show s.phase = .recover tail from ht] at hp
    cases hp

theorem Refines.endOp (h : s.Refines d) (ho : s.outstanding ≠ 0) (hs' : s.endOp p = .ok s') :
    d.ops ≠ 0 ∧ s'.Refines { d with ops := d.ops - 1 } := by
  obtain ⟨hs, hops, hst, hcur, hrec⟩ := h
  have hp := hs.idle ho
  obtain ⟨hn, hl, hlen, hclean, hat⟩ := hs
  rw [hp] at hat hcur
  refine ⟨hops ▸ ho, ?_⟩
  obtain ⟨-, rfl⟩ := endOp_spec hs'
  refine ⟨⟨hn, hl, hlen, hclean, ?_⟩, congrArg (· - 1) hops, hst, fun c hc _ => hcur c hc nofun,
    fun c _ tail ht => ?_⟩
  · dsimp only
    split
    · rename_i h0
      split
      · rename_i hnil
        exact ⟨hat.1, h0, hnil⟩
      · exact ⟨hat.1, h0, fun _ _ ht => absurd ht (Nat.not_lt_zero _)⟩
    · rename_i h0
      exact ⟨hat.1, fun h => absurd h h0⟩
  · dsimp only at ht
    split at ht
    · split at ht <;> cases ht
    · cases ht

/-! ### The commit -/

/-- A block is copied to the log. -/
theorem Refines.writeLog {tail : ℕ} (h : s.Refines d) (hp : s.phase = .writeLog tail)
    (hb : s.lh[tail]? = some b) :
    Refines { s.bwrite (logstart + tail + 1) (s.mem b) with phase := .writeLog (tail + 1) } d := by
  obtain ⟨hs, hops, hst, hcur, -⟩ := h
  have hhead := hs.atPhase
  rw [hp] at hhead
  obtain ⟨hhead, ho, hlog⟩ := hhead
  obtain ⟨htail, hbt⟩ := List.getElem?_eq_some_iff.1 hb
  have htail' : tail + 1 < nlog := (Nat.succ_le_of_lt htail).trans_lt hs.length_lt
  have hne : ∀ c, Home c → c ≠ logstart + tail + 1 := fun c hc => hc.ne_log htail'
  have hbne := hne b (hs.home (List.mem_of_getElem? hb))
  have hhead' : readHead (update s.disk (logstart + tail + 1) (s.mem b) logstart) = [] := by
    rw [update_of_ne (by omega), hhead]
  refine ⟨⟨hs.nodup, hs.listed, hs.length_lt, fun c hc => ?_, hhead', ho, fun t c ht hc => ?_⟩, hops,
    fun c hc => ?_, fun c hc _ => ?_, fun _ _ _ => nofun⟩
  · change update s.mem _ _ c = update s.disk _ _ c
    rcases eq_or_ne c (logstart + tail + 1) with rfl | hca
    · rw [update_self, update_self]
    · rw [update_of_ne hca, update_of_ne hca]
      exact hs.clean c hc
  · change update s.disk _ _ _ = update s.mem _ _ c
    rw [update_of_ne (hne c (hs.home (List.mem_of_getElem? hc)))]
    rcases Nat.lt_succ_iff_lt_or_eq.1 ht with ht | rfl
    · rw [update_of_ne (by omega)]
      exact hlog t c ht hc
    · obtain rfl : c = b := Option.some.inj (hc.symm.trans hb)
      exact update_self ..
  · rw [← hst c hc, recoverFromLog_nil hhead hc]
    exact (recoverFromLog_nil hhead' hc).trans (update_of_ne (hne c hc) _ _)
  · exact (update_of_ne (hne c hc) _ _).trans (hcur c hc (by simp [hp]))

/-- The header is written: this is the commit. -/
theorem Refines.commit {tail : ℕ} (h : s.Refines d) (hp : s.phase = .writeLog tail)
    (hb : s.lh[tail]? = none) :
    d.ops = 0 ∧ Refines { s.putHead with phase := .install 0 } { d with stable := d.current } := by
  obtain ⟨hs, hops, hst, hcur, -⟩ := h
  have hat := hs.atPhase
  rw [hp] at hat
  obtain ⟨-, ho, hlog⟩ := hat
  have htail := List.getElem?_eq_none_iff.1 hb
  have hne : ∀ c, Home c → c ≠ logstart := fun c hc => hc.ne_log (t := 0) (by decide)
  have hs' : Sound { s.putHead with phase := .install 0 } := by
    refine ⟨hs.nodup, hs.listed, hs.length_lt, fun c hc => ?_, ?_, ho, fun t c hc => ?_,
      fun _ _ ht => absurd ht (Nat.not_lt_zero _)⟩
    · change update s.mem _ _ c = update s.disk _ _ c
      rcases eq_or_ne c logstart with rfl | hca
      · rw [update_self, update_self]
      · rw [update_of_ne hca, update_of_ne hca]
        exact hs.clean c hc
    · change readHead (update s.disk _ _ logstart) = s.lh
      rw [update_self]
      exact readHead_writeHead (hs.length_lt.trans (by decide))
        fun c hc => (hs.listed c hc).2.trans (by decide)
    · have hlt := (List.getElem?_eq_some_iff.1 hc).1
      change update s.disk _ _ _ = update s.mem _ _ c
      rw [update_of_ne (hne c (hs.home (List.mem_of_getElem? hc))), update_of_ne (by omega)]
      exact hlog t c (hlt.trans_le htail) hc
  have hmem : ∀ c, Home c → s.putHead.mem c = d.current c := fun c hc =>
    (update_of_ne (hne c hc) _ _).trans (hcur c hc (by simp [hp]))
  exact ⟨hops.symm.trans ho, hs', hops, fun c hc => (hs'.recover_install rfl hc).trans (hmem c hc),
    fun c hc _ => hmem c hc, fun _ _ _ => nofun⟩

/-- A block is copied from the log to its place. -/
theorem Refines.install {tail : ℕ} (h : s.Refines d) (hp : s.phase = .install tail)
    (hb : s.lh[tail]? = some b) :
    Refines { s.bwrite b (s.mem (logstart + tail + 1)) with phase := .install (tail + 1) } d := by
  obtain ⟨hs, hops, hst, hcur, -⟩ := h
  have hat := hs.atPhase
  rw [hp] at hat
  obtain ⟨hhead, ho, hlog, hin⟩ := hat
  obtain ⟨htail, -⟩ := List.getElem?_eq_some_iff.1 hb
  have hbl := List.mem_of_getElem? hb
  have hbh := hs.home hbl
  have hlen := hs.length_lt
  have htail' : tail + 1 < nlog := by omega
  -- The copy in the log is the one in memory.
  have hv : s.mem (logstart + tail + 1) = s.mem b :=
    (hs.clean _ (hs.log_not_mem htail')).trans (hlog tail b hb)
  have hmem : update s.mem b (s.mem (logstart + tail + 1)) = s.mem := by
    rw [hv, update_eq_self]
  have hs' : Sound
      { s.bwrite b (s.mem (logstart + tail + 1)) with phase := .install (tail + 1) } := by
    refine ⟨hs.nodup, hs.listed, hs.length_lt, fun c hc => ?_, ?_, ho, fun t c hc => ?_,
      fun t c ht hc => ?_⟩
    · have hcb : c ≠ b := fun he => hc (he ▸ hbl)
      change update s.mem _ _ c = update s.disk _ _ c
      rw [update_of_ne hcb, update_of_ne hcb]
      exact hs.clean c hc
    · change readHead (update s.disk _ _ logstart) = s.lh
      rw [update_of_ne (hbh.ne_log (t := 0) (by decide)).symm, hhead]
    · have hlt : t < s.lh.length := (List.getElem?_eq_some_iff.1 hc).1
      change update s.disk _ _ _ = update s.mem _ _ c
      rw [hmem, update_of_ne (hbh.ne_copy (t := t) (by omega)).symm]
      exact hlog t c hc
    · change update s.disk _ _ c = update s.mem _ _ c
      rw [hmem]
      rcases Nat.lt_succ_iff_lt_or_eq.1 ht with ht | rfl
      · rcases eq_or_ne c b with rfl | hcb
        · rw [update_self, hv]
        · rw [update_of_ne hcb]
          exact hin t c ht hc
      · obtain rfl : c = b := Option.some.inj (hc.symm.trans hb)
        rw [update_self, hv]
  refine ⟨hs', hops, fun c hc => ?_, fun c hc _ => ?_, fun _ _ _ => nofun⟩
  · rw [← hst c hc, hs.recover_install hp hc]
    exact (hs'.recover_install rfl hc).trans (congrFun hmem c)
  · exact (congrFun hmem c).trans (hcur c hc (by simp [hp]))

theorem readHead_putHead_nil (s : Log) :
    readHead ((putHead { s with lh := [] }).disk logstart) = [] := by
  change readHead (update s.disk logstart _ logstart) = []
  rw [update_self]
  exact readHead_writeHead (Nat.two_pow_pos 32) (by simp)

/-- The header is erased once the blocks are in their places. -/
theorem Refines.clear {tail : ℕ} (h : s.Refines d) (hp : s.phase = .install tail)
    (hb : s.lh[tail]? = none) :
    Refines { putHead { s with lh := [] } with phase := .done } d := by
  obtain ⟨hs, hops, hst, hcur, -⟩ := h
  have hat := hs.atPhase
  rw [hp] at hat
  obtain ⟨-, ho, -, hin⟩ := hat
  have htail := List.getElem?_eq_none_iff.1 hb
  have hne : ∀ c, Home c → c ≠ logstart := fun c hc => hc.ne_log (t := 0) (by decide)
  have hsame : ∀ c, s.mem c = s.disk c := by
    intro c
    by_cases hc : c ∈ s.lh
    · obtain ⟨t, ht⟩ := List.getElem?_of_mem hc
      exact (hin t c ((List.getElem?_eq_some_iff.1 ht).1.trans_le htail) ht).symm
    · exact hs.clean c hc
  have hhead := s.readHead_putHead_nil
  refine ⟨⟨List.nodup_nil, nofun, Nat.zero_lt_succ _, fun c _ => ?_, hhead, ho, rfl⟩, hops, fun c hc => ?_,
    fun c hc _ => ?_, fun _ _ _ => nofun⟩
  · change update s.mem _ _ c = update s.disk _ _ c
    rcases eq_or_ne c logstart with rfl | hca
    · rw [update_self, update_self]
    · rw [update_of_ne hca, update_of_ne hca, hsame]
  · rw [← hst c hc, hs.recover_install hp hc]
    exact (recoverFromLog_nil hhead hc).trans ((update_of_ne (hne c hc) _ _).trans (hsame c).symm)
  · exact (update_of_ne (hne c hc) _ _).trans (hcur c hc (by simp [hp]))

/-- The next transaction may begin. -/
theorem Refines.done (h : s.Refines d) (hp : s.phase = .done) :
    Refines { s with phase := .idle } d := by
  obtain ⟨hs, hops, hst, hcur, -⟩ := h
  have hat := hs.atPhase
  rw [hp] at hat
  exact ⟨⟨hs.nodup, hs.listed, hs.length_lt, hs.clean, hat.1, fun _ => hat.2.2⟩, hops, hst,
    fun c hc _ => hcur c hc (by simp [hp]), fun _ _ _ => nofun⟩

/-! ### Recovery, write by write -/

/-- A block is copied from the log to its place, after a crash. -/
theorem Refines.recover {tail : ℕ} (h : s.Refines d) (hp : s.phase = .recover tail)
    (hb : s.lh[tail]? = some b) :
    Refines { s.bwrite b (s.mem (logstart + tail + 1)) with phase := .recover (tail + 1) } d := by
  obtain ⟨hs, hops, hst, -, hrec⟩ := h
  have hat := hs.atPhase
  rw [hp] at hat
  obtain ⟨hhead, ho, hmem, hin⟩ := hat
  obtain ⟨htail, -⟩ := List.getElem?_eq_some_iff.1 hb
  have hbl := List.mem_of_getElem? hb
  have hbh := hs.home hbl
  have hlog : ∀ t, t + 1 < nlog → logstart + t + 1 ≠ b := fun t ht => (hbh.ne_copy ht).symm
  have hlen := hs.length_lt
  have hhead' : readHead (update s.disk b (s.mem (logstart + tail + 1)) logstart) = s.lh := by
    rw [update_of_ne (hbh.ne_log (t := 0) (by decide)).symm, hhead]
  refine ⟨⟨hs.nodup, hs.listed, hs.length_lt, fun c hc => ?_, hhead', ho, ?_, fun t c ht hc => ?_⟩,
    hops, fun c hc => ?_, fun c _ hne => absurd rfl (hne (tail + 1)),
    fun c hc _ _ => hrec c hc tail hp⟩
  · change update s.mem _ _ c = update s.disk _ _ c
    rw [hmem]
  · change update s.mem _ _ = update s.disk _ _
    rw [hmem]
  · have htl : t < s.lh.length := (List.getElem?_eq_some_iff.1 hc).1
    change update s.disk _ _ c = update s.disk _ _ (logstart + t + 1)
    rw [update_of_ne (hlog t (by omega)), hmem]
    rcases Nat.lt_succ_iff_lt_or_eq.1 ht with ht | rfl
    · rcases eq_or_ne c b with rfl | hcb
      · -- No block is listed twice.
        exact absurd ((List.getElem?_inj htl hs.nodup).1 (hc.trans hb.symm)) ht.ne
      · rw [update_of_ne hcb]
        exact hin t c ht hc
    · obtain rfl : c = b := Option.some.inj (hc.symm.trans hb)
      exact update_self ..
  · rw [← hst c hc, recoverFromLog_home hhead hs.nodup (fun _ hb => hs.home hb) hs.length_lt hc]
    refine (recoverFromLog_home hhead' hs.nodup (fun _ hb => hs.home hb) hs.length_lt hc).trans ?_
    split
    · rename_i hmemc
      have hlt := List.idxOf_lt_length_of_mem hmemc
      exact update_of_ne (hlog (s.lh.idxOf c) (by omega)) _ _
    · rename_i hmemc
      exact update_of_ne (fun he : c = b => hmemc (he ▸ hbl)) _ _

/-- The header is erased, and the machine is ready. -/
theorem Refines.recovered {tail : ℕ} (h : s.Refines d) (hp : s.phase = .recover tail)
    (hb : s.lh[tail]? = none) :
    Refines { putHead { s with lh := [] } with phase := .idle } d := by
  obtain ⟨hs, hops, hst, -, hrec⟩ := h
  have hat := hs.atPhase
  rw [hp] at hat
  obtain ⟨hr, -, hmem, hin⟩ := hat
  have htail := List.getElem?_eq_none_iff.1 hb
  have hne : ∀ c, Home c → c ≠ logstart := fun c hc => hc.ne_log (t := 0) (by decide)
  -- What the log has copies of is in its place.
  have hdisk : ∀ c, Home c → s.disk c = d.stable c := by
    intro c hc
    rw [← hst c hc, recoverFromLog_home hr hs.nodup (fun _ hb => hs.home hb) hs.length_lt hc]
    split
    · rename_i hmemc
      have hlt := List.idxOf_lt_length_of_mem hmemc
      exact hin _ c (hlt.trans_le htail) (List.getElem?_idxOf hmemc)
    · rfl
  have hhead := s.readHead_putHead_nil
  refine ⟨⟨List.nodup_nil, nofun, Nat.zero_lt_succ _, fun c _ => ?_, hhead, fun _ => rfl⟩, hops,
    fun c hc => ?_, fun c hc _ => ?_, fun _ _ _ => nofun⟩
  · change update s.mem _ _ c = update s.disk _ _ c
    rw [hmem]
  · exact (recoverFromLog_nil hhead hc).trans ((update_of_ne (hne c hc) _ _).trans (hdisk c hc))
  · refine (update_of_ne (hne c hc) _ _).trans ?_
    change s.mem c = _
    rw [hmem, hdisk c hc, hrec c hc tail hp]

/-! ### Runs -/

/-- What an event is on the atomic disk. -/
def label (s : Log) : LogEvent → List DiskEvent
  | .beginOp _ => [.beginOp]
  | .logWrite _ b v => [.write b v]
  | .endOp _ => [.endOp]
  | .advance =>
    match s.phase with
    | .writeLog tail => (s.lh[tail]?).elim [.commit] fun _ => []
    | .idle | .install _ | .done | .recover _ => []
  | .crash => [.crash]

theorem Refines.advance (h : s.Refines d) (hs' : s.advance = some s') :
    ∃ d', Trace.run AtomicDisk.step d (s.label .advance) = some d' ∧ s'.Refines d' := by
  rw [Log.advance] at hs'
  rw [label]
  cases hp : s.phase with
  | idle =>
    rw [hp] at hs'
    cases hs'
  | writeLog tail =>
    rw [hp] at hs'
    cases hb : s.lh[tail]? with
    | some b =>
      simp only [hb, Option.some.injEq] at hs'
      exact ⟨d, by simp [hb], hs' ▸ h.writeLog hp hb⟩
    | none =>
      simp only [hb, Option.some.injEq] at hs'
      obtain ⟨ho, hc⟩ := h.commit hp hb
      exact ⟨_, by simp [hb, Trace.run_cons, AtomicDisk.step, ho], hs' ▸ hc⟩
  | install tail =>
    rw [hp] at hs'
    refine ⟨d, rfl, ?_⟩
    cases hb : s.lh[tail]? with
    | some b =>
      simp only [hb, Option.some.injEq] at hs'
      exact hs' ▸ h.install hp hb
    | none =>
      simp only [hb, Option.some.injEq] at hs'
      exact hs' ▸ h.clear hp hb
  | done =>
    rw [hp] at hs'
    cases hs'
    exact ⟨d, rfl, h.done hp⟩
  | recover tail =>
    rw [hp] at hs'
    refine ⟨d, rfl, ?_⟩
    cases hb : s.lh[tail]? with
    | some b =>
      simp only [hb, Option.some.injEq] at hs'
      exact hs' ▸ h.recover hp hb
    | none =>
      simp only [hb, Option.some.injEq] at hs'
      exact hs' ▸ h.recovered hp hb

/-- The processes that are in a call are counted. -/
def Counted (s : Log) : Prop :=
  s.outstanding = (Finset.univ.filter fun p => (s.spent p).isSome).card

theorem card_spent_some {f : Fin nproc → Option ℕ} (hp : f p = none) (m : ℕ) :
    (Finset.univ.filter fun q => (update f p (some m) q).isSome).card =
      (Finset.univ.filter fun q => (f q).isSome).card + 1 := by
  simpa [hp] using card_update (fun o => o.isSome) f p (some m)

theorem card_spent_none {f : Fin nproc → Option ℕ} (hp : f p ≠ none) :
    (Finset.univ.filter fun q => (f q).isSome).card =
      (Finset.univ.filter fun q => (update f p none q).isSome).card + 1 := by
  obtain ⟨m, hm⟩ := Option.ne_none_iff_exists'.1 hp
  rw [← card_spent_some (update_self p none f) m, update_idem, ← hm, update_eq_self]

/-- The log that behaves as `d`, with the processes in a call. -/
def Follows (s : Log) (d : AtomicDisk) : Prop := s.Refines d ∧ s.Counted

theorem Follows.step {e : LogEvent} (h : s.Follows d) (hs' : s.step e = some s') :
    ∃ d', Trace.run AtomicDisk.step d (s.label e) = some d' ∧ s'.Follows d' := by
  obtain ⟨h, hcount⟩ := h
  cases e with
  | beginOp p =>
    obtain ⟨hp, hb⟩ := step_beginOp.1 hs'
    refine ⟨_, rfl, h.beginOp hb, ?_⟩
    obtain ⟨-, -, rfl⟩ := beginOp_spec hb
    exact (congrArg (· + 1) hcount).trans (card_spent_some hp 0).symm
  | logWrite p b v =>
    obtain ⟨m, hm, ⟨hb, hb'⟩, hw⟩ := step_logWrite.1 hs'
    obtain ⟨ho, ht⟩ := h.logWrite hb hb' hw
    refine ⟨_, by rw [label, Trace.run_cons, AtomicDisk.step, if_neg ho]; rfl, ht, ?_⟩
    obtain ⟨-, -, rfl⟩ := logWrite_spec hw
    have hu (o : Option ℕ) : update s.spent p o = update (update s.spent p none) p o :=
      (update_idem ..).symm
    change s.outstanding = _
    dsimp only
    rw [hu, card_spent_some (update_self ..), ← card_spent_none (by simp [hm]), hcount]
  | endOp p =>
    obtain ⟨hp, he⟩ := step_endOp.1 hs'
    have hcard := card_spent_none hp
    obtain ⟨ho, ht⟩ := h.endOp (by rw [hcount]; omega) he
    refine ⟨_, by rw [label, Trace.run_cons, AtomicDisk.step, if_neg ho]; rfl, ht, ?_⟩
    obtain ⟨-, rfl⟩ := endOp_spec he
    change s.outstanding - 1 = _
    rw [hcount, hcard, Nat.add_sub_cancel]
  | advance =>
    have ha := step_advance.1 hs'
    obtain ⟨d', hd', ht⟩ := h.advance ha
    obtain ⟨ho, hspent, -⟩ := advance_spec ha
    refine ⟨d', hd', ht, ?_⟩
    rw [Counted, ho, hspent, hcount]
  | crash =>
    cases hs'
    refine ⟨_, rfl, h.crash, ?_⟩
    simp [Counted, boot]

theorem follows_boot {disk : ℕ → Block} (hd : readHead (disk logstart) = []) :
    (boot disk).Follows ⟨disk, disk, 0⟩ := by
  refine ⟨⟨⟨?_, ?_, ?_, fun _ _ => rfl, ?_⟩, rfl, fun b hb => recoverFromLog_nil hd hb,
    fun _ _ hne => absurd rfl (hne 0), fun _ _ _ _ => rfl⟩, by simp [Counted, boot]⟩
  · simp [boot, hd]
  · simp [boot, hd]
  · simp [boot, hd]
  · exact ⟨rfl, rfl, rfl, fun _ _ ht => absurd ht (Nat.not_lt_zero _)⟩

/-- A run of the log is one of the atomic disk. -/
theorem follows_run {disk : ℕ → Block} {es : List LogEvent} (hd : readHead (disk logstart) = [])
    (h : Trace.run step (boot disk) es = some s) :
    ∃ d, Trace.run AtomicDisk.step ⟨disk, disk, 0⟩
      (Trace.labels step label (boot disk) es) = some d ∧ s.Follows d :=
  Trace.run_simulates (P := fun _ _ => True) (fun _ _ _ _ hR _ he => hR.step he) (follows_boot hd)
    (Trace.along_of_forall fun _ _ _ => trivial) h

/-- Whatever the processes do, and wherever the machine crashes, the log behaves as a disk whose
    contents after a crash are those of a moment when no call was under way. -/
theorem run_atomic {disk : ℕ → Block} {es : List LogEvent} (hd : readHead (disk logstart) = [])
    (h : Trace.run step (boot disk) es = some s) :
    ∃ d, Trace.run AtomicDisk.step ⟨disk, disk, 0⟩
        (Trace.labels step label (boot disk) es) = some d ∧
      (∀ b, Home b → recoverFromLog s.disk b = d.stable b) ∧
      ((∀ tail, s.phase ≠ .recover tail) → ∀ b, Home b → s.mem b = d.current b) := by
  obtain ⟨d, hrun, hs, -⟩ := follows_run hd h
  exact ⟨d, hrun, hs.stable, fun hne b hb => hs.current b hb hne⟩

/-- A call writes a block, and the machine crashes right after the header is written. -/
def crashed : List LogEvent :=
  [.advance, .beginOp 0, .logWrite 0 40 (fun _ => 7), .endOp 0, .advance, .advance, .crash]

/-- Recovery brings back what the call wrote. -/
theorem run_atomic_crashed : ∃ s d, Trace.run step (boot 0) crashed = some s ∧
    Trace.run AtomicDisk.step ⟨0, 0, 0⟩ (Trace.labels step label (boot 0) crashed) = some d ∧
      recoverFromLog s.disk 40 = d.stable 40 ∧ d.stable 40 0 = 7 := by
  obtain ⟨s, hs⟩ := Option.isSome_iff_exists.1
    (by decide +kernel : (Trace.run step (boot 0) crashed).isSome = true)
  obtain ⟨d, hd, hst, -⟩ := run_atomic rfl hs
  refine ⟨s, d, hs, hd, hst 40 (by decide), ?_⟩
  have h7 : (Trace.run AtomicDisk.step ⟨0, 0, 0⟩
      (Trace.labels step label (boot 0) crashed)).all (·.stable 40 0 = 7) = true := by
    decide +kernel
  rw [hd] at h7
  simpa using h7

end Log

end Storage
