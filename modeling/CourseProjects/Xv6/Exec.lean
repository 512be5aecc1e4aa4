import CourseProjects.Xv6.Freed

/-!
# The end of the old threads

`exec` marks the other slots with the caller's pid killed. A run is careful (`Careful`)
where `thread_kill` finds those slots asleep or ready and none of them creating a
thread, a main thread calls `thread_exit` only when it has no threads, and a main
thread enters `exec` only when no other slot has its page directory.

* `exec_detaches`: in a careful run no slot in use has a page directory that
  `exec` freed, unless it was drawn and not yet given one; and no thread that was
  left behind in an `exec` sets `killed` on the process that called it, but by
  calling `kill`.
-/

namespace Xv6

/-- A kernel thread is in `thread_create`. -/
@[grind =] def Ctl.creating : Ctl → Bool
  | .create | .createAlloc _ _ | .createInit _ _ | .createMap _ _ | .createSet _ _
  | .createReady _ => true
  | .user | .fork | .forkAlloc _ | .forkCopy _ | .forkReady _ | .threadExit _ | .threadJoin _
  | .joinScan _ | .exit | .exitReap | .exitClose | .wait | .kill _ | .exec | .execKill _
  | .execNamei _ | .execLoad _ | .execWake | .dead => false

namespace Kernel

variable {ncpu : ℕ} {k k' : Kernel ncpu}

/-- `thread_kill`, called by a process that is not killed, finds no other slot with its pid in
    `thread_create`. -/
def SiblingsIdle : Kernel ncpu → Event ncpu → Prop :=
  OnAdvance fun k p => (k.ctl p).killing → (k.proc p).killed = false →
    ∀ q, q ≠ p → (k.proc q).pid = (k.proc p).pid → (k.ctl q).creating = false

instance (k : Kernel ncpu) : DecidablePred (SiblingsIdle k) :=
  inferInstanceAs (DecidablePred (OnAdvance _ k))

theorem mem_siblings {p q : Slot} :
    q ∈ k.siblings p ↔ q ≠ p ∧ (k.proc q).state ≠ .unused ∧ (k.proc q).pid = (k.proc p).pid := by
  simp [siblings]

/-- The names of the occupants, and the old threads of the processes that went through `exec`:
    none has such a process as its master, and those of one that is not killed are. -/
structure Spared (k : Kernel ncpu) : Prop where
  crew : Crew k
  nextpid : 0 < k.nextpid
  pid : ∀ q, (k.proc q).pid < k.nextpid
  inst : ∀ q, (k.past q).inst < k.nextpid
  old : ∀ p, ∀ i ∈ (k.past p).former, i < k.nextpid
  named : ∀ q q', (k.proc q).state ≠ .unused → (k.proc q').state ≠ .unused →
    (k.past q).inst = (k.past q').inst → q = q'
  drawn : ∀ p np m, k.ctl p = .createAlloc np m ∨ k.ctl p = .createInit np m →
    (k.past np).former = [] ∧ (∀ r, (k.past np).inst ∉ (k.past r).former) ∧
      ∀ q, q ≠ np → (k.proc q).state ≠ .unused → (k.proc q).pid ≠ (k.proc np).pid
  master : ∀ p, (k.past p).former ≠ [] → (k.proc p).master = none
  own : ∀ p q, (k.past q).inst ∈ (k.past p).former → (k.proc q).master ≠ some p
  marked : ∀ p t, k.ctl p = .execNamei t ∨ k.ctl p = .execLoad t → (k.proc p).killed = false →
    ∀ q, q ≠ p → (k.proc q).state ≠ .unused → (k.proc q).pid = (k.proc p).pid →
      (k.proc q).killed = true ∧ (k.ctl q).creating = false ∧ (k.proc q).state ≠ .embryo
  spared : ∀ p q, q ≠ p → (k.proc p).state ≠ .unused → (k.proc p).killed = false →
    (k.past q).inst ∈ (k.past p).former → (k.proc q).state ≠ .unused →
      (k.proc q).pid = (k.proc p).pid → (k.proc q).killed = true

section

variable {c : Fin ncpu} {p np : Slot}

/-- No slot is drawn or gets the pid of another one, and no thread reaches a section between
    `thread_kill` and the end of `exec`. -/
theorem Spared.keep (h : Spared k) (hc : Crew k') (hn : k'.nextpid = k.nextpid)
    (hs : ∀ q, (k'.proc q).state ≠ .unused → (k.proc q).state ≠ .unused ∧
      ((k'.proc q).state = .embryo → (k.proc q).state = .embryo) ∧
      (k'.proc q).pid = (k.proc q).pid ∧ ((k.proc q).killed = true → (k'.proc q).killed = true))
    (hpid : ∀ q, (k'.proc q).pid = (k.proc q).pid ∨ (k'.proc q).pid = 0)
    (hpast : ∀ q, (k'.past q).inst = (k.past q).inst ∧ (k'.past q).former = (k.past q).former)
    (hm : ∀ q, (k'.proc q).master = (k.proc q).master ∨ (k'.proc q).master = none)
    (hctl : ∀ q, k'.ctl q = k.ctl q ∨
      ((k'.ctl q).creating = true → (k.ctl q).creating = true ∨ (k.proc q).killed = false) ∧
      (∀ np m, k'.ctl q = .createAlloc np m ∨ k'.ctl q = .createInit np m →
        k.ctl q = .createAlloc np m ∨ k.ctl q = .createInit np m) ∧
      ∀ t, k'.ctl q = .execNamei t ∨ k'.ctl q = .execLoad t →
        ∃ t, k.ctl q = .execNamei t ∨ k.ctl q = .execLoad t) : Spared k' := by
  obtain ⟨-, hpos, hpid', hinst, hold, hnamed, hdrawn, hmas, hown, hmark, hspare⟩ := h
  have hact := hc.kin.sound.active
  have hemb := hc.kin.sound.embryo
  have hinst' : ∀ q, (k'.past q).inst = (k.past q).inst := fun q => (hpast q).1
  have hformer : ∀ q, (k'.past q).former = (k.past q).former := fun q => (hpast q).2
  refine ⟨hc, hn ▸ hpos, fun q => ?_, fun q => ?_, fun p i hi => ?_, fun q q' hq hq' he => ?_,
    fun p np m hp => ?_, fun p hp => ?_, fun p q hq => ?_, fun p t hp hk q hqp hq hpq => ?_,
    fun p q hqp hp hk hf hq hpq => ?_⟩
  · have := hpid q
    have := hpid' q
    grind
  · grind
  · exact hn ▸ hold p i (hformer p ▸ hi)
  · exact hnamed q q' (hs q hq).1 (hs q' hq').1 (by rw [← hinst', ← hinst', he])
  · have hp' : k.ctl p = .createAlloc np m ∨ k.ctl p = .createInit np m := by
      rcases hctl p with h | h
      · rwa [h] at hp
      · exact h.2.1 np m hp
    obtain ⟨hf, hnot, hpids⟩ := hdrawn p np m hp'
    refine ⟨hformer np ▸ hf, fun r => ?_, fun q hq hqu => ?_⟩
    · rw [hinst', hformer]
      exact hnot r
    · have hnp := hemb p np (by rcases hp with hp | hp <;> rw [hp] <;> rfl)
      rw [(hs q hqu).2.2.1, (hs np (by simp [hnp])).2.2.1]
      exact hpids q hq (hs q hqu).1
  · have := hmas p (hformer p ▸ hp)
    have := hm p
    grind
  · have := hown p q (by rwa [← hinst', ← hformer])
    have := hm q
    grind
  · have hpa : (k'.proc p).state ≠ .unused := fun hu => by
      have := hact p
      grind
    obtain ⟨t', hp'⟩ : ∃ t, k.ctl p = .execNamei t ∨ k.ctl p = .execLoad t := by
      rcases hctl p with h | h
      · exact ⟨t, h ▸ hp⟩
      · exact h.2.2 t hp
    have := hs p hpa
    have := hs q hq
    have := hmark p t' hp'
    have := hctl q
    grind
  · have := hs p hp
    have := hs q hq
    have := hspare p q hqp
    grind

/-- The slot that is drawn has a new pid and a new name. -/
theorem embryo_spec (k : Kernel ncpu) (p np : Slot) (x : Ctl) :
    (((k.embryo np).goto p x).proc np).state = .embryo ∧
    (((k.embryo np).goto p x).proc np).pid = k.nextpid ∧
    (((k.embryo np).goto p x).proc np).killed = (k.proc np).killed ∧
    (((k.embryo np).goto p x).proc np).master = (k.proc np).master ∧
    (((k.embryo np).goto p x).past np).inst = k.nextpid ∧
    (((k.embryo np).goto p x).past np).former = [] ∧
    (∀ q, q ≠ np → ((k.embryo np).goto p x).proc q = k.proc q) ∧
    (∀ q, q ≠ np → ((k.embryo np).goto p x).past q = k.past q) ∧
    (∀ q, ((k.embryo np).goto p x).ctl q = if q = p then x else k.ctl q) ∧
    ((k.embryo np).goto p x).nextpid = k.nextpid + 1 := by
  refine ⟨?_, ?_, ?_, ?_, ?_, ?_, fun q hq => ?_, fun q hq => ?_, fun q => ?_, rfl⟩ <;>
    grind [Kernel.embryo]

/-- A free slot may be drawn, under a new pid. -/
theorem Spared.draw {x : Ctl} (h : Spared k) (hc : Crew ((k.embryo np).goto p x))
    (hp : k.ctl p = .fork ∧ x = .forkAlloc np ∨
      k.ctl p = .create ∧ ∃ m, x = .createAlloc np m)
    (hnp : (k.proc np).state = .unused) : Spared ((k.embryo np).goto p x) := by
  have hemb := h.crew.kin.sound.embryo
  obtain ⟨-, hpos, hpid, hinst, hold, hnamed, hdrawn, hmas, hown, hmark, hspare⟩ := h
  have hnot : ∀ r, k.nextpid ∉ (k.past r).former := fun r hr => (hold r _ hr).ne rfl
  obtain ⟨hstate, hpidn, hkilled, hmaster, hinstn, hformer, hproc, hpast, hctl, hnext⟩ :=
    k.embryo_spec p np x
  generalize (k.embryo np).goto p x = k' at *
  refine ⟨hc, hnext ▸ Int.lt_add_one_of_le hpos.le, fun q => ?_, fun q => ?_, fun r i hi => ?_,
    fun q q' hq hq' he => ?_, fun b nb m hb => ?_, fun r hr => ?_, fun r q hq => ?_,
    fun r t hr hk q hqr hq hpq => ?_, fun r q hqr hr hk hq hqu hpq => ?_⟩
  · rw [hnext, Int.lt_add_one_iff]
    rcases eq_or_ne q np with rfl | hqn
    · exact hpidn.le
    · exact hproc q hqn ▸ (hpid q).le
  · rw [hnext, Int.lt_add_one_iff]
    rcases eq_or_ne q np with rfl | hqn
    · exact hinstn.le
    · exact hpast q hqn ▸ (hinst q).le
  · rw [hnext, Int.lt_add_one_iff]
    rcases eq_or_ne r np with rfl | hrn
    · rw [hformer] at hi
      exact absurd hi List.not_mem_nil
    · exact (hold r i (hpast r hrn ▸ hi)).le
  · -- The name is new.
    rcases eq_or_ne q np with rfl | hqn
    · by_contra hne
      rw [hinstn, hpast q' (Ne.symm hne)] at he
      exact (hinst q').ne he.symm
    rcases eq_or_ne q' np with rfl | hqn'
    · rw [hinstn, hpast q hqn] at he
      exact absurd he (hinst q).ne
    · rw [hpast q hqn, hpast q' hqn'] at he
      exact hnamed q q' (hproc q hqn ▸ hq) (hproc q' hqn' ▸ hq') he
  · rw [hctl] at hb
    split at hb
    · -- `thread_create` has drawn the slot.
      obtain rfl : nb = np := by
        rcases hp with ⟨-, rfl⟩ | ⟨-, m', rfl⟩ <;> simp at hb
        exact hb.1.symm
      refine ⟨hformer, fun r => ?_, fun q hqn hq => ?_⟩
      · rw [hinstn]
        rcases eq_or_ne r nb with rfl | hrn
        · rw [hformer]
          exact List.not_mem_nil
        · rw [hpast r hrn]
          exact hnot r
      · rw [hpidn, hproc q hqn]
        exact (hpid q).ne
    · obtain ⟨hf, hnotb, hpids⟩ := hdrawn b nb m hb
      have hne : nb ≠ np := by
        rintro rfl
        have := hemb b nb (by rcases hb with hb | hb <;> rw [hb] <;> rfl)
        simp [hnp] at this
      rw [hpast nb hne, hproc nb hne]
      refine ⟨hf, fun r => ?_, fun q hqb hq => ?_⟩
      · rcases eq_or_ne r np with rfl | hrn
        · rw [hformer]
          exact List.not_mem_nil
        · rw [hpast r hrn]
          exact hnotb r
      · rcases eq_or_ne q np with rfl | hqn
        · rw [hpidn]
          exact (hpid nb).ne'
        · rw [hproc q hqn]
          exact hpids q hqb (hproc q hqn ▸ hq)
  · rcases eq_or_ne r np with rfl | hrn
    · exact absurd hformer hr
    · rw [hproc r hrn]
      exact hmas r (hpast r hrn ▸ hr)
  · have hrn : r ≠ np := by
      rintro rfl
      rw [hformer] at hq
      exact absurd hq List.not_mem_nil
    rw [hpast r hrn] at hq
    have hqn : q ≠ np := by
      rintro rfl
      exact hnot r (hinstn ▸ hq)
    rw [hpast q hqn] at hq
    rw [hproc q hqn]
    exact hown r q hq
  · rw [hctl] at hr
    split at hr
    · rcases hp with ⟨-, rfl⟩ | ⟨-, m', rfl⟩ <;> simp at hr
    -- No other slot has the new pid.
    have hrn : r ≠ np := by
      rintro rfl
      rw [hproc q hqr, hpidn] at hpq
      exact (hpid q).ne hpq
    have hqn : q ≠ np := by
      rintro rfl
      rw [hproc r hrn, hpidn] at hpq
      exact (hpid r).ne hpq.symm
    rw [hproc q hqn] at hq hpq ⊢
    rw [hproc r hrn] at hk hpq
    obtain ⟨hkq, hcq, hsq⟩ := hmark r t hr hk q hqr hq hpq
    refine ⟨hkq, ?_, hsq⟩
    rw [hctl]
    split
    · rename_i hqp
      subst hqp
      rcases hp with ⟨-, rfl⟩ | ⟨hcreate, -⟩
      · rfl
      · simp [hcreate, Ctl.creating] at hcq
    · exact hcq
  · have hrn : r ≠ np := by
      rintro rfl
      rw [hformer] at hq
      exact absurd hq List.not_mem_nil
    rw [hpast r hrn] at hq
    have hqn : q ≠ np := by
      rintro rfl
      exact hnot r (hinstn ▸ hq)
    rw [hpast q hqn] at hq
    rw [hproc q hqn] at hqu hpq ⊢
    rw [hproc r hrn] at hr hk hpq
    exact hspare r q hqr hr hk hq hqu hpq

/-- `thread_create` names the slot that it builds. -/
theorem createInit_spec (k : Kernel ncpu) (p np m : Slot) :
    (∀ q, (k.createInit p np m).proc q = if q = np then
      { k.proc np with tid := k.nexttid, master := some m, pid := (k.proc m).pid }
      else k.proc q) ∧
    (∀ q, (k.createInit p np m).ctl q = if q = p then .createMap np m else k.ctl q) ∧
    (∀ q, (k.createInit p np m).past q = k.past q) ∧
    (k.createInit p np m).nextpid = k.nextpid := by
  refine ⟨?_, ?_, fun q => rfl, rfl⟩
  · grind [Kernel.createInit]
  · grind [Kernel.createInit]

/-- A slot is given the pid of a process; the threads of a process that went through `exec`
    are not among those it left behind. -/
theorem Spared.createInit {m : Slot} (h : Spared k) (hc : Crew (k.createInit p np m))
    (hcpu : k.cpu c = some p) (hp : k.ctl p = .createInit np m) :
    Spared (k.createInit p np m) := by
  have hemb := h.crew.kin.sound.embryo
  have hbuild := h.crew.kin.sound.builder
  have hrun := h.crew.kin.sound.running c p hcpu
  have hmaster := h.crew.master p m
  have hleads := h.crew.raises p
  have ⟨_, hpos, hpid, hinst, hold, hnamed, hdrawn, hmas, hown, hmark, hspare⟩ := h
  obtain ⟨hf, hnot, hpids⟩ := hdrawn p np m (.inr hp)
  have hnp := hemb p np (by rw [hp]; rfl)
  have hm : (k.proc p).pid = (k.proc m).pid ∧ (k.proc m).state ≠ .embryo ∧
      (k.proc m).state ≠ .unused := by
    grind
  obtain ⟨hproc, hctl, hpast, hnext⟩ := k.createInit_spec p np m
  generalize k.createInit p np m = k' at *
  have hself : k'.proc np =
      { k.proc np with tid := k.nexttid, master := some m, pid := (k.proc m).pid } := by
    rw [hproc, if_pos rfl]
  have hother : ∀ q, q ≠ np → k'.proc q = k.proc q := fun q hq => by rw [hproc, if_neg hq]
  have hsame : ∀ q, (k'.proc q).state = (k.proc q).state ∧
      (k'.proc q).killed = (k.proc q).killed := by
    intro q
    rcases eq_or_ne q np with rfl | hq
    · rw [hself]
      exact ⟨rfl, rfl⟩
    · rw [hother q hq]
      exact ⟨rfl, rfl⟩
  have hctl' : ∀ b, k'.ctl b ≠ .createMap np m → b ≠ p ∧ k'.ctl b = k.ctl b := by
    intro b hb
    rw [hctl] at hb ⊢
    split at hb
    · exact absurd rfl hb
    · rename_i hbp
      exact ⟨hbp, if_neg hbp⟩
  refine ⟨hc, hnext ▸ hpos, fun q => ?_, fun q => ?_, fun r i hi => ?_, fun q q' hq hq' he => ?_,
    fun b nb m' hb => ?_, fun r hr => ?_, fun r q hq => ?_, fun r t hr hk q hqr hq hpq => ?_,
    fun r q hqr hr hk hq hqu hpq => ?_⟩
  · rw [hnext]
    rcases eq_or_ne q np with rfl | hq
    · rw [hself]
      exact hpid m
    · rw [hother q hq]
      exact hpid q
  · rw [hpast, hnext]
    exact hinst q
  · rw [hpast] at hi
    exact hnext ▸ hold r i hi
  · rw [hpast, hpast] at he
    exact hnamed q q' ((hsame q).1 ▸ hq) ((hsame q').1 ▸ hq') he
  · -- Another slot that is drawn keeps its own pid.
    obtain ⟨hbp, hb'⟩ := hctl' b (by rcases hb with hb | hb <;> simp [hb])
    rw [hb'] at hb
    obtain ⟨hf', hnot', hpids'⟩ := hdrawn b nb m' hb
    have hbnb : (k.ctl b).building = some nb := by rcases hb with hb | hb <;> rw [hb] <;> rfl
    have hnb := hemb b nb hbnb
    have hne : nb ≠ np := by
      rintro rfl
      exact hbp (hbuild b p nb hbnb (by rw [hp]; rfl))
    rw [hpast]
    refine ⟨hf', fun r => ?_, fun q hq hqu => ?_⟩
    · rw [hpast]
      exact hnot' r
    · rw [hother nb hne]
      rcases eq_or_ne q np with rfl | hqnp
      · rw [hself]
        refine hpids' m ?_ hm.2.2
        rintro rfl
        exact hm.2.1 hnb
      · rw [hother q hqnp]
        exact hpids' q hq ((hsame q).1 ▸ hqu)
  · rw [hpast] at hr
    have hrnp : r ≠ np := by
      rintro rfl
      exact hr hf
    rw [hother r hrnp]
    exact hmas r hr
  · rw [hpast, hpast] at hq
    have hqnp : q ≠ np := by
      rintro rfl
      exact hnot r hq
    rw [hother q hqnp]
    exact hown r q hq
  · obtain ⟨hrp, hr'⟩ := hctl' r (by rcases hr with hr | hr <;> simp [hr])
    rw [hr'] at hr
    rw [(hsame r).2] at hk
    rw [(hsame q).1] at hq
    have hrnp : r ≠ np := by
      rintro rfl
      have := h.crew.kin.sound.active r (by rcases hr with hr | hr <;> simp [hr])
        (by rcases hr with hr | hr <;> simp [hr])
      simp [hnp, ProcState.active] at this
    -- The caller is in `thread_create`, and so it has another pid.
    have hpr : (k.proc p).pid ≠ (k.proc r).pid := fun he => by
      have := (hmark r t hr hk p hrp.symm (by simp [hrun]) he).2.1
      simp [hp, Ctl.creating] at this
    rw [hother r hrnp] at hpq
    have hqnp : q ≠ np := by
      rintro rfl
      rw [hself] at hpq
      exact hpr (hm.1.trans hpq)
    rw [hother q hqnp] at hpq
    obtain ⟨hkq, hcq, hsq⟩ := hmark r t hr hk q hqr hq hpq
    refine ⟨(hsame q).2 ▸ hkq, ?_, (hsame q).1 ▸ hsq⟩
    have hqp : q ≠ p := by
      rintro rfl
      exact hpr hpq
    rw [hctl, if_neg hqp]
    exact hcq
  · rw [hpast, hpast] at hq
    have hqnp : q ≠ np := by
      rintro rfl
      exact hnot r hq
    have hrnp : r ≠ np := by
      rintro rfl
      rw [hf] at hq
      exact absurd hq List.not_mem_nil
    rw [hother q hqnp, hother r hrnp] at hpq
    rw [(hsame q).2]
    exact hspare r q hqr ((hsame r).1 ▸ hr) ((hsame r).2 ▸ hk) hq ((hsame q).1 ▸ hqu) hpq

/-- A slot that is not killed puts the others with its pid to sleep, killed. -/
theorem Spared.threadKill {t : ℤ} (h : Spared k)
    (hc : Crew ((k.threadKill p).goto p (.execNamei t)))
    (hcalm : (k.proc p).killed = false → CalmSiblings k p)
    (hidle : (k.proc p).killed = false →
      ∀ q, q ≠ p → (k.proc q).pid = (k.proc p).pid → (k.ctl q).creating = false) :
    Spared ((k.threadKill p).goto p (.execNamei t)) := by
  obtain ⟨-, hpos, hpid, hinst, hold, hnamed, hdrawn, hmas, hown, hmark, hspare⟩ := h
  have hproc : ∀ q, ((k.threadKill p).goto p (.execNamei t)).proc q =
      if (k.proc p).killed = false ∧ q ≠ p ∧ (k.proc p).pid = (k.proc q).pid then
        { k.proc q with state := .sleeping, killed := true, chan := none }
      else k.proc q := fun q => k.threadKill_proc p q
  have hctl : ∀ q, ((k.threadKill p).goto p (.execNamei t)).ctl q =
      if q = p then .execNamei t else k.ctl q := fun q => by simp [goto_ctl]
  have hpast : ∀ q, ((k.threadKill p).goto p (.execNamei t)).past q = k.past q :=
    fun q => by simp
  have hnext : ((k.threadKill p).goto p (.execNamei t)).nextpid = k.nextpid := by simp
  generalize (k.threadKill p).goto p (.execNamei t) = k' at *
  have hsame : ∀ q, (k'.proc q).pid = (k.proc q).pid ∧ (k'.proc q).master = (k.proc q).master ∧
      ((k.proc q).killed = true → (k'.proc q).killed = true) := by
    intro q
    rw [hproc]
    split
    · exact ⟨rfl, rfl, fun _ => rfl⟩
    · exact ⟨rfl, rfl, id⟩
  -- The slots that are put to sleep were asleep or ready before.
  have hused : ∀ q, (k'.proc q).state ≠ .unused → (k.proc q).state ≠ .unused ∧
      ((k'.proc q).state = .embryo → (k.proc q).state = .embryo) := by
    intro q hq
    rw [hproc] at hq ⊢
    split at hq
    · rename_i hcond
      rw [if_pos hcond]
      rcases hcalm hcond.1 q hcond.2.1 hcond.2.2.symm with hst | hst <;> simp [hst]
    · rename_i hcond
      rw [if_neg hcond]
      exact ⟨hq, id⟩
  have hsib : (k.proc p).killed = false → ∀ q, q ≠ p → (k.proc q).pid = (k.proc p).pid →
      (k'.proc q).killed = true ∧ (k'.proc q).state = .sleeping := by
    intro hk q hqp hpq
    rw [hproc, if_pos ⟨hk, hqp, hpq.symm⟩]
    exact ⟨rfl, rfl⟩
  have hkilled : ∀ q, (k'.proc q).killed = false → (k.proc q).killed = false := by
    intro q hq
    by_contra hne
    rw [(hsame q).2.2 (by simpa using hne)] at hq
    cases hq
  refine ⟨hc, hnext ▸ hpos, fun q => ?_, fun q => ?_, fun r i hi => ?_, fun q q' hq hq' he => ?_,
    fun b nb m hb => ?_, fun r hr => ?_, fun r q hq => ?_, fun r t' hr hk q hqr hq hpq => ?_,
    fun r q hqr hr hk hq hqu hpq => ?_⟩
  · rw [(hsame q).1, hnext]
    exact hpid q
  · rw [hpast, hnext]
    exact hinst q
  · rw [hpast] at hi
    exact hnext ▸ hold r i hi
  · rw [hpast, hpast] at he
    exact hnamed q q' (hused q hq).1 (hused q' hq').1 he
  · rw [hctl] at hb
    split at hb
    · simp at hb
    obtain ⟨hf, hnot, hpids⟩ := hdrawn b nb m hb
    rw [hpast]
    refine ⟨hf, fun r => hpast r ▸ hnot r, fun q hq hqu => ?_⟩
    rw [(hsame q).1, (hsame nb).1]
    exact hpids q hq (hused q hqu).1
  · rw [hpast] at hr
    exact (hsame r).2.1 ▸ hmas r hr
  · rw [hpast, hpast] at hq
    exact (hsame q).2.1 ▸ hown r q hq
  · rw [(hsame q).1, (hsame r).1] at hpq
    rw [hctl] at hr ⊢
    split at hr
    · -- The caller has put them all to sleep.
      rename_i hrp
      subst hrp
      obtain ⟨hkq, hst⟩ := hsib (hkilled r hk) q hqr hpq
      rw [if_neg hqr]
      exact ⟨hkq, hidle (hkilled r hk) q hqr hpq, by simp [hst]⟩
    · obtain ⟨hkq, hcq, hsq⟩ := hmark r t' hr (hkilled r hk) q hqr (hused q hq).1 hpq
      refine ⟨(hsame q).2.2 hkq, ?_, fun he => hsq ((hused q hq).2 he)⟩
      split
      · rfl
      · exact hcq
  · rw [hpast, hpast] at hq
    rw [(hsame q).1, (hsame r).1] at hpq
    exact (hsame q).2.2 (hspare r q hqr (hused r hr).1 (hkilled r hk) hq (hused q hqu).1 hpq)

/-- The new image changes the page directory and the record of its process. -/
theorem execLoad_spec (k : Kernel ncpu) (p : Slot) (t : ℤ) :
    (∀ q, (k.execLoad p t true).proc q =
      if q = p then { k.proc p with pgdir := k.nextdir } else k.proc q) ∧
    (∀ q, (k.execLoad p t true).ctl q = if q = p then .execWake else k.ctl q) ∧
    (k.execLoad p t true).nextpid = k.nextpid ∧
    (∀ q, ((k.execLoad p t true).past q).inst = (k.past q).inst) ∧
    (∀ q, q ≠ p → ((k.execLoad p t true).past q).former = (k.past q).former) ∧
    ∀ i, i ∈ ((k.execLoad p t true).past p).former ↔ ∃ q, q ≠ p ∧
      (k.proc q).state ≠ .unused ∧ (k.proc q).pid = (k.proc p).pid ∧ (k.past q).inst = i := by
  refine ⟨?_, ?_, rfl, ?_, ?_, fun i => ?_⟩
  · grind [Kernel.execLoad]
  · grind [Kernel.execLoad]
  · grind [Kernel.execLoad]
  · grind [Kernel.execLoad]
  · have hformer : ((k.execLoad p t true).past p).former =
        (k.siblings p).map fun q => (k.past q).inst := by
      grind [Kernel.execLoad]
    simp only [hformer, List.mem_map, mem_siblings, and_assoc]

/-- The other slots with the pid of the caller are recorded, by their names. -/
theorem Spared.commit {t : ℤ} (h : Spared k) (hc : Crew (k.execLoad p t true))
    (hp : k.ctl p = .execLoad t) : Spared (k.execLoad p t true) := by
  have hmaster := h.crew.master
  have hdet := h.crew.detached p (by rw [hp]; rfl) (by simp [hp])
  have hemb := h.crew.kin.sound.embryo
  have hpa : (k.proc p).state ≠ .unused ∧ (k.proc p).state ≠ .embryo := by
    have := h.crew.kin.sound.active p
    grind
  obtain ⟨-, hpos, hpid, hinst, hold, hnamed, hdrawn, hmas, hown, hmark, hspare⟩ := h
  obtain ⟨hproc, hctl, hnext, hi, hother, hfp⟩ := k.execLoad_spec p t
  generalize k.execLoad p t true = k' at *
  have hsame : ∀ q, (k'.proc q).state = (k.proc q).state ∧ (k'.proc q).pid = (k.proc q).pid ∧
      (k'.proc q).killed = (k.proc q).killed ∧ (k'.proc q).master = (k.proc q).master := by
    intro q
    rw [hproc]
    split
    · rename_i hq
      subst hq
      exact ⟨rfl, rfl, rfl, rfl⟩
    · exact ⟨rfl, rfl, rfl, rfl⟩
  refine ⟨hc, hnext ▸ hpos, fun q => ?_, fun q => ?_, fun r i hr => ?_, ?_, fun b nb m hb => ?_,
    fun r hr => ?_, fun r q hq => ?_, fun r t' hr => ?_, fun r q hqr hr hk hq => ?_⟩
  · rw [(hsame q).2.1, hnext]
    exact hpid q
  · rw [hi, hnext]
    exact hinst q
  · rcases eq_or_ne r p with rfl | hrp
    · obtain ⟨q, -, -, -, rfl⟩ := (hfp i).1 hr
      exact hnext ▸ hinst q
    · exact hnext ▸ hold r i (hother r hrp ▸ hr)
  · intro q q' hq hq' he
    exact hnamed q q' ((hsame q).1 ▸ hq) ((hsame q').1 ▸ hq') (by rw [← hi, ← hi, he])
  · have hb' : k.ctl b = .createAlloc nb m ∨ k.ctl b = .createInit nb m := by grind
    obtain ⟨hf, hnot, hpids⟩ := hdrawn b nb m hb'
    have hnb : (k.proc nb).state = .embryo := hemb b nb (by grind)
    have hnbp : nb ≠ p := fun h => hpa.2 (h ▸ hnb)
    refine ⟨hother nb hnbp ▸ hf, fun r hr => ?_, fun q hq hqu => ?_⟩
    rcases eq_or_ne r p with rfl | hrp
    · -- The slot drawn still has its own pid, and so it is not among the others.
      obtain ⟨q, -, hq, hqr, he⟩ := (hfp _).1 hr
      obtain rfl := hnamed q nb hq (by simp [hnb]) (he.trans (hi nb))
      exact hpids r hnbp.symm hpa.1 hqr.symm
    · exact hnot r (hi nb ▸ hother r hrp ▸ hr)
    · rw [(hsame q).2.1, (hsame nb).2.1]
      exact hpids q hq ((hsame q).1 ▸ hqu)
  · rw [(hsame r).2.2.2]
    rcases eq_or_ne r p with rfl | hrp
    · exact hdet
    · exact hmas r (hother r hrp ▸ hr)
  · rw [(hsame q).2.2.2]
    rcases eq_or_ne r p with rfl | hrp
    · intro hm
      exact absurd (hmaster q r hm).2.2.2.1 (by simp [hp, Ctl.inExec])
    · exact hown r q (hi q ▸ hother r hrp ▸ hq)
  · have := hmark r t'
    grind
  · rw [(hsame q).1, (hsame q).2.1, (hsame r).2.1, (hsame q).2.2.1]
    rw [(hsame r).1] at hr
    rw [(hsame r).2.2.1] at hk
    intro hqu hpq
    rcases eq_or_ne r p with rfl | hrp
    · obtain ⟨q', hqr', hq', hpid', he⟩ := (hfp _).1 hq
      obtain rfl := hnamed q' q hq' hqu (he.trans (hi q))
      exact (hmark r t (.inr hp) hk q' hqr' hq' hpid').1
    · exact hspare r q hqr hr hk (hi q ▸ hother r hrp ▸ hq) hqu hpq

theorem Next.spared {x y : Ctl} (h : Next k p x y) :
    (y.creating = true → x.creating = true ∨ (k.proc p).killed = false) ∧
      (∀ np m, y ≠ .createAlloc np m ∧ y ≠ .createInit np m) ∧
      ∀ t, y = .execNamei t ∨ y = .execLoad t → ∃ t, x = .execNamei t ∨ x = .execLoad t := by
  cases h with
  | enter call _ hk => cases call <;> simp [Call.entry, hk]
  | load t => simp [Ctl.creating]
  | _ => simp [Ctl.creating]

theorem Spared.quiet (h : Spared k) (hc : Crew k') (hq : Quiet k k') : Spared k' := by
  have := hq.state
  have := hq.ctl
  have := hq.killed
  have := hq.past
  refine h.keep hc ?_ ?_ ?_ ?_ ?_ ?_ <;> grind [hq.master, hq.globals, hq.pid]

theorem Spared.goto {x : Ctl} (h : Spared k) (hc : Crew (k.goto p x))
    (hn : Next k p (k.ctl p) x) : Spared (k.goto p x) := by
  obtain ⟨hcreating, hnew, hstage⟩ := hn.spared
  refine h.keep hc ?_ ?_ ?_ ?_ ?_ ?_ <;> grind

theorem Spared.allocStack {x : Ctl} (h : Spared k) (hc : Crew ((k.allocStack np).goto p x))
    (hx : k.ctl p = .forkAlloc np ∧ x = .forkCopy np ∨
      ∃ m, k.ctl p = .createAlloc np m ∧ x = .createInit np m) :
    Spared ((k.allocStack np).goto p x) := by
  have hemb := h.crew.kin.sound.embryo
  refine h.keep hc ?_ ?_ ?_ ?_ ?_ ?_ <;> grind [Kernel.allocStack]

/-- A process that runs gives up the processor, or a ready one gets it. -/
theorem Spared.sched {f : Proc → Proc} {c' : Fin ncpu} (h : Spared k) (hc : Crew k')
    (hk' : k' = (k.modify p f).sched c' ∨ k' = (k.modify p f).take c' p)
    (hf : ∀ x, (f x).pid = x.pid ∧ (f x).killed = x.killed ∧ (f x).master = x.master)
    (hp : (k.proc p).state ≠ .unused) (he : (f (k.proc p)).state ≠ .embryo) : Spared k' := by
  have hproc : ∀ q, k'.proc q = (k.modify p f).proc q := by
    rcases hk' with rfl | rfl <;> simp
  have hctl : ∀ q, k'.ctl q = k.ctl q := by
    rcases hk' with rfl | rfl <;> simp
  have hpast : ∀ q, k'.past q = k.past q := by
    rcases hk' with rfl | rfl <;> simp
  have hglobals : k'.toGlobals = k.toGlobals := by
    rcases hk' with rfl | rfl <;> simp
  refine h.keep hc (by rw [hglobals]) ?_ ?_ (fun q => by rw [hpast]; exact ⟨rfl, rfl⟩) ?_
    (fun q => .inl (hctl q)) <;> grind

theorem Spared.move (h : Spared k) (hm : Move k k') : Spared k' := by
  have hc := h.crew.move hm
  have hrun := h.crew.kin.sound.running
  have hemb := h.crew.kin.sound.embryo
  cases hm with
  | quiet hq => exact h.quiet hc hq
  | goto _ hn => exact h.goto hc hn
  | forkEmbryo _ hp hnp => exact h.draw hc (.inl ⟨hp, rfl⟩) hnp
  | createEmbryo _ hp hnp => exact h.draw hc (.inr ⟨hp, _, rfl⟩) hnp
  | createInit hcpu hp => exact h.createInit hc hcpu hp
  | commit _ hp => exact h.commit hc hp
  | forkStack _ hp => exact h.allocStack hc (.inl ⟨hp, rfl⟩)
  | createStack _ hp => exact h.allocStack hc (.inr ⟨_, hp, rfl⟩)
  | abandon => refine h.keep hc ?_ ?_ ?_ ?_ ?_ ?_ <;> grind [Kernel.abandon]
  | forkCopy => refine h.keep hc ?_ ?_ ?_ ?_ ?_ ?_ <;> grind [Kernel.forkCopy]
  | createSet => refine h.keep hc ?_ ?_ ?_ ?_ ?_ ?_ <;> grind [Kernel.createSet]
  | ready => refine h.keep hc ?_ ?_ ?_ ?_ ?_ ?_ <;> grind [Kernel.ready]
  | dispatch _ hr =>
    exact h.sched hc (.inr rfl) (fun _ => ⟨rfl, rfl, rfl⟩) (by rw [hr]; decide)
      (by simp)
  | yield hcpu =>
    exact h.sched hc (.inl rfl) (fun _ => ⟨rfl, rfl, rfl⟩) (by rw [hrun _ _ hcpu]; decide)
      (by simp)
  | sleep hcpu =>
    exact h.sched hc (.inl rfl) (fun _ => ⟨rfl, rfl, rfl⟩) (by rw [hrun _ _ hcpu]; decide)
      (by simp)
  | reapChild => refine h.keep hc ?_ ?_ ?_ ?_ ?_ ?_ <;> grind [Kernel.reapChild]
  | reapThread | reparent | die | threadWakeup =>
    refine h.keep hc ?_ ?_ ?_ ?_ ?_ ?_ <;> grind

theorem Spared.special {e : Event ncpu} (h : Spared k) (hc : Crew k') (hs : SiblingsReady k e)
    (hi : SiblingsIdle k e) (he : Special k e k') : Spared k' := by
  have hrun := h.crew.kin.sound.running
  cases he with
  | enterExec => refine h.keep hc ?_ ?_ ?_ ?_ ?_ ?_ <;> grind
  | threadExit => refine h.keep hc ?_ ?_ ?_ ?_ ?_ ?_ <;> grind [Kernel.threadExit]
  | @joinScan c p t ok hcpu hp =>
    rcases joinScan_cases k c p t with ⟨z, -, hz, he⟩ | ⟨-, ⟨-, he⟩ | ⟨-, he⟩⟩ <;> rw [he] at hc ⊢
    · refine h.keep hc ?_ ?_ ?_ ?_ ?_ ?_ <;> grind
    · refine h.keep hc ?_ ?_ ?_ ?_ ?_ ?_ <;> grind
    · refine h.keep hc ?_ ?_ ?_ ?_ ?_ ?_ <;> grind [Kernel.sleep]
  | @exec c p ok hcpu hp =>
    rw [Kernel.exec] at hc ⊢
    split at hc
    · refine h.keep hc ?_ ?_ ?_ ?_ ?_ ?_ <;> grind
    · refine h.keep hc ?_ ?_ ?_ ?_ ?_ ?_ <;> grind
  | threadKill hcpu hp =>
    exact h.threadKill hc (hs _ hcpu (by rw [hp]; rfl)) (hi _ hcpu (by rw [hp]; rfl))

theorem spared_boot : Spared (boot ncpu) := by
  constructor
  case crew => exact crew_boot
  all_goals grind

end

/-! ### Careful runs -/

/-- The event is no call of `thread_kill`, `thread_exit` or `exec` that leaves threads which act
    on the wrong process. -/
def Careful (k : Kernel ncpu) (e : Event ncpu) : Prop :=
  SiblingsReady k e ∧ SiblingsIdle k e ∧ ExitsLast k e ∧ ExecsAlone k e

instance (k : Kernel ncpu) : DecidablePred (Careful k) :=
  fun _ => inferInstanceAs (Decidable (_ ∧ _ ∧ _ ∧ _))

/-- What holds along careful runs. -/
structure Detached (k : Kernel ncpu) : Prop where
  clean : Clean k
  spared : Spared k

theorem Detached.step {e : Event ncpu} (h : Detached k) (hq : Careful k e)
    (he : k.step e = some k') : Detached k' := by
  obtain ⟨hs, hi, hl, ha⟩ := hq
  have hc := h.clean.crew.step hs hl ha he
  exact ⟨step_inv (fun _ _ => Clean.move) (h.clean.special hc hs ha) h.clean he,
    step_inv (fun _ _ => Spared.move) (h.spared.special hc hs hi) h.spared he⟩

theorem detached_run {es : List (Event ncpu)}
    (hg : Trace.Along Kernel.step Careful (boot ncpu) es)
    (hr : Trace.run Kernel.step (boot ncpu) es = some k) : Detached k :=
  Trace.run_inv (fun _ _ _ h hq he => h.step hq he) ⟨clean_boot, spared_boot⟩ hg hr

/-! ### Who sets `killed` -/

/-- The ways in which a process sets `killed` on another one. -/
def Kills (k : Kernel ncpu) (q p : Slot) : Prop :=
  (∃ pid, k.ctl q = .kill pid) ∨ k.ctl q = .exitReap ∧ (k.proc p).master = some q ∨
    k.ctl q = .exitClose ∧ (k.proc q).master = some p ∨
    ∃ t, k.ctl q = .execKill t ∧ (k.proc q).killed = false ∧ (k.proc q).pid = (k.proc p).pid

theorem exitReap_kills {c : Fin ncpu} {p q : Slot} (hk : (k.proc p).killed = false)
    (hk' : ((k.exitReap c q).proc p).killed = true) : (k.proc p).master = some q := by
  by_contra hm
  have hl : ((forSlots (exitReapSlot q) (false, k)).2.proc p).killed = false ∧
      ((forSlots (exitReapSlot q) (false, k)).2.proc p).master ≠ some q := by
    refine forSlots_inv (g := exitReapSlot q)
      (P := fun a => (a.2.proc p).killed = false ∧ (a.2.proc p).master ≠ some q) ?_ ⟨hk, hm⟩
    rintro ⟨b, k₁⟩ z hz
    grind [exitReapSlot]
  rw [exitReap] at hk'
  grind [Kernel.sleep]

theorem exitClose_kills {c : Fin ncpu} {p q : Slot} (hk : (k.proc p).killed = false)
    (hk' : ((k.exitClose c q).proc p).killed = true) : (k.proc q).master = some p := by
  by_contra hm
  have hl : ((forSlots (reparentSlot q) (k.exitNotify q)).proc p).killed = false := by
    refine forSlots_inv (g := reparentSlot q) (P := fun k₁ => (k₁.proc p).killed = false) ?_ ?_
    · intro k₁ z hz
      grind [reparentSlot]
    · rw [exitNotify]
      split
      · grind
      · split <;> grind
  rw [exitClose] at hk'
  grind

/-- A process that is marked killed by a step of another one was marked in one of those ways. -/
theorem step_kills {e : Event ncpu} {p q : Slot} (he : k.step e = some k')
    (hq : k.actor e = some q) (hqp : q ≠ p) (hk : (k.proc p).killed = false)
    (hk' : (k'.proc p).killed = true) : Kills k q p := by
  cases e with
  | advance c ok =>
    obtain ⟨q', hc, he⟩ := step_advance he
    obtain rfl : q' = q := Option.some.inj (hc.symm.trans hq)
    cases hp : k.ctl q' <;>
      simp only [advance, hp, reduceCtorEq, Option.some.injEq] at he <;> try subst he
    case kill pid => exact .inl ⟨pid, hp⟩
    case exitReap => exact .inr (.inl ⟨hp, exitReap_kills hk hk'⟩)
    case exitClose => exact .inr (.inr (.inl ⟨hp, exitClose_kills hk hk'⟩))
    case execKill t =>
      refine .inr (.inr (.inr ⟨t, hp, ?_⟩))
      grind
    case joinScan t =>
      rcases joinScan_cases k c q' t with ⟨z, -, -, he'⟩ | ⟨-, ⟨-, he'⟩ | ⟨-, he'⟩⟩ <;>
        grind [Kernel.sleep]
    case wait =>
      rcases wait_cases k c q' with ⟨z, -, -, he'⟩ | ⟨-, he'⟩ | he' <;>
        grind [Kernel.reapChild, Kernel.sleep]
    case fork => rcases fork_cases k q' with h | ⟨np, hnp, h⟩ <;> grind [Kernel.embryo]
    case create => rcases threadCreate_cases k q' with h | ⟨np, hnp, h⟩ <;> grind [Kernel.embryo]
    case exit => grind [Kernel.exit]
    case execWake =>
      rw [execWake] at hk'
      split at hk' <;> grind
    all_goals grind [Kernel.forkAlloc, Kernel.forkCopy, Kernel.allocStack, Kernel.abandon,
      Kernel.ready, Kernel.createAlloc, Kernel.createInit, Kernel.createMap, Kernel.createSet,
      Kernel.threadExit, Kernel.threadJoin, Kernel.exec, Kernel.execNamei, Kernel.execLoad]
  | dispatch c p => cases hq
  | wakeup n => cases hq
  | yield c =>
    obtain ⟨q', hc, rfl⟩ := step_yield he
    grind
  | sleep c n =>
    obtain ⟨q', hc, -, rfl⟩ := step_sleep he
    grind [Kernel.sleep]
  | syscall c call =>
    obtain ⟨q', hc, -, rfl⟩ := step_syscall he
    grind [Kernel.syscall]
  | fault c =>
    obtain ⟨q', hc, -, rfl⟩ := step_fault he
    obtain rfl : q' = q := Option.some.inj (hc.symm.trans hq)
    grind

/-- In a careful run, a slot in use has no page directory that `exec` freed, exactly when no
    slot drawn and not yet given one carries such a page directory as a leftover; and a
    thread that was left behind when a process went through `exec` marks it killed only by
    calling `kill`. -/
theorem exec_detaches {es : List (Event ncpu)} {e : Event ncpu}
    (hg : Trace.Along Kernel.step Careful (boot ncpu) es)
    (hr : Trace.run Kernel.step (boot ncpu) es = some k) (he : k.step e = some k') :
    ((∀ q, (k.proc q).state ≠ .unused → (k.proc q).pgdir ∉ k.freed) ↔
      ∀ q, Leftover k q → (k.proc q).pgdir ∉ k.freed) ∧
    ∀ p q, k.actor e = some q → q ≠ p → (k.past q).inst ∈ (k.past p).former →
      (k.proc p).state ≠ .unused → (k.proc p).killed = false → (k'.proc p).killed = true →
      ∃ pid, k.ctl q = .kill pid := by
  obtain ⟨hclean, hspared⟩ := detached_run hg hr
  refine ⟨⟨fun hall q ⟨b, hb⟩ => ?_, fun hleft q hq => ?_⟩,
    fun p q hact hqp hf hp hk hk' => ?_⟩
  · have hemb := hclean.crew.kin.sound.embryo b q (Ctl.building_of_unset hb)
    exact hall q (by simp [hemb])
  · by_cases hset : Leftover k q
    · exact hleft q hset
    · exact hclean.freed q hq fun b hb => hset ⟨b, hb⟩
  · rcases step_kills he hact hqp hk hk' with h | ⟨-, h⟩ | ⟨-, h⟩ | ⟨t, ht, hkq, hpid⟩
    · exact h
    · have := hspared.master p (List.ne_nil_of_mem hf)
      simp [h] at this
    · exact absurd h (hspared.own p q hf)
    · -- A thread that was left behind is killed itself, and then `thread_kill` does nothing.
      have hq : (k.proc q).state ≠ .unused := fun hu => by
        have := hspared.crew.kin.sound.active q (by simp [ht]) (by simp [ht])
        simp [hu, ProcState.active] at this
      have := hspared.spared p q hqp hp hk hf hq hpid
      simp [hkq] at this

/-- The child of the first process calls `exec`, creates a thread and sleeps; the thread calls
    `exec`, and waits for the main thread, which is killed and exits. -/
def execTwice : List (Event 2) :=
  [.dispatch 0 0, .syscall 0 .fork, .advance 0 true, .advance 0 true, .advance 0 true,
    .advance 0 true, .dispatch 1 1, .syscall 1 .exec, .advance 1 true, .advance 1 true,
    .advance 1 true, .advance 1 true, .advance 1 true,
    .syscall 1 .threadCreate, .advance 1 true, .advance 1 true, .advance 1 true, .advance 1 true,
    .advance 1 true, .advance 1 true, .sleep 1 0,
    .dispatch 1 2, .syscall 1 .exec, .advance 1 true, .advance 1 true, .advance 1 true,
    .advance 1 true, .advance 1 true, .advance 1 true,
    .dispatch 1 1, .syscall 1 .exit, .advance 1 true, .advance 1 true]

theorem exec_detaches_execTwice :
    ∃ k k' : Kernel 2, Trace.run Kernel.step (boot 2) execTwice = some k ∧
      k.step (.advance 1 true) = some k' ∧ k.freed ≠ [] ∧
      (∀ q, (k.proc q).state ≠ .unused → (k.proc q).pgdir ∉ k.freed) ∧
      (k.past 1).inst ∈ (k.past 2).former ∧ (k'.proc 1).state = .zombie ∧
      (k'.proc 2).killed = false := by
  have hk : ∃ k ∈ Trace.run Kernel.step (boot 2) execTwice,
      k.freed ≠ [] ∧ (∀ q, Leftover k q → (k.proc q).pgdir ∉ k.freed) ∧
        k.actor (.advance 1 true) = some 1 ∧ (k.past 1).inst ∈ (k.past 2).former ∧
        k.ctl 1 = .exitClose ∧ (k.proc 2).state ≠ .unused ∧ (k.proc 2).killed = false ∧
        ∃ k' ∈ k.step (.advance 1 true), (k'.proc 1).state = .zombie := by
    decide +kernel
  obtain ⟨k, hr, hfreed, hleft, hact, hf, hp, hu, hkilled, k', he, hz⟩ := hk
  obtain ⟨hdirs, hkills⟩ := exec_detaches (by decide +kernel) hr he
  refine ⟨k, k', hr, he, hfreed, hdirs.2 hleft, hf, hz, ?_⟩
  by_contra hk'
  obtain ⟨pid, hpid⟩ := hkills 2 1 hact (by decide) hf hu hkilled (by simpa using hk')
  simp [hp] at hpid

/-- The main thread of a process with a thread calls `exec`: the thread is ready to run with a
    page directory that was freed, and sets `killed` on the process as it exits. -/
theorem exec_leaves_threads :
    (∃ k ∈ Trace.run Kernel.step (boot 2) (childWithThread ++ [.syscall 1 .exec, .advance 1 true,
        .advance 1 true, .advance 1 true, .advance 1 true, .advance 1 true]),
      k.ctl 1 = .user ∧ (k.proc 2).state = .runnable ∧ (k.proc 2).pgdir ∈ k.freed ∧
        (k.past 2).inst ∈ (k.past 1).former ∧ (k.proc 1).killed = false) ∧
      ∃ k ∈ Trace.run Kernel.step (boot 2) (childWithThread ++ [.syscall 1 .exec,
        .advance 1 true, .advance 1 true, .advance 1 true, .advance 1 true, .advance 1 true,
        .advance 0 true, .dispatch 0 2, .syscall 0 .exit, .advance 0 true, .advance 0 true]),
      (k.proc 2).state = .zombie ∧ (k.proc 1).killed = true := by
  decide +kernel

end Kernel
end Xv6
