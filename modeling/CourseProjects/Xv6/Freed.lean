import CourseProjects.Xv6.Crews

/-!
# The page directories that `exec` frees

`exec` frees the old page directory of a main thread that calls it. Where such a thread
enters `exec` only when no other slot has its page directory, no slot in use has one
that was freed (`Clean`), but for those drawn and not yet given one.
-/

namespace Xv6

namespace Kernel

variable {ncpu : ℕ} {k k' : Kernel ncpu}

/-- The thread goes on to free its page directory in `exec`. -/
@[grind =] def Freeing (k : Kernel ncpu) (p : Slot) : Prop :=
  k.ctl p = .exec ∧ (k.proc p).master = none ∨ k.ctl p = .execKill 0 ∨ k.ctl p = .execNamei 0 ∨
    k.ctl p = .execLoad 0

/-- The page directories that were freed, or are about to be, are those of no other slot. -/
structure Clean (k : Kernel ncpu) : Prop where
  crew : Crew k
  freed : ∀ q, (k.proc q).state ≠ .unused → (∀ p, (k.ctl p).unset ≠ some q) →
    (k.proc q).pgdir ∉ k.freed
  old : ∀ g ∈ k.freed, g < k.nextdir
  sole : ∀ p, k.Freeing p → ∀ q, q ≠ p → (k.proc q).state ≠ .unused →
    (∀ b, (k.ctl b).unset ≠ some q) → (k.proc q).pgdir ≠ (k.proc p).pgdir

section

variable {c : Fin ncpu} {p np : Slot}

/-- No slot is drawn or given a page directory. -/
theorem Clean.stay (h : Clean k) (hc : Crew k')
    (hs : ∀ q, (k'.proc q).state ≠ .unused → (k.proc q).state ≠ .unused)
    (hg : ∀ q, (k'.proc q).pgdir = (k.proc q).pgdir)
    (hun : ∀ q, (k'.ctl q).unset = (k.ctl q).unset)
    (hfree : ∀ p, k'.Freeing p → k.Freeing p)
    (hn : k'.nextdir = k.nextdir ∧ k'.freed = k.freed) : Clean k' := by
  obtain ⟨-, hf, ho, hsole⟩ := h
  refine ⟨hc, fun q hq hset => ?_, fun g hg => ?_, fun p hp q hqp hq hset => ?_⟩
  · rw [hg, hn.2]
    exact hf q (hs q hq) fun p => hun p ▸ hset p
  · rw [hn.1]
    exact ho g (hn.2 ▸ hg)
  · rw [hg, hg]
    exact hsole p (hfree p hp) q hqp (hs q hq) fun b => hun b ▸ hset b

variable (np) in
/-- A slot being built may change; it may be given a new page directory, or that of a slot
    that does not free it. -/
theorem Clean.build (h : Clean k) (hc : Crew k') (hb : (k.proc np).state = .unused ∨
      (k.proc np).state = .embryo)
    (hother : ∀ q, q ≠ np → (k'.proc q).state = (k.proc q).state ∧
      (k'.proc q).pgdir = (k.proc q).pgdir)
    (hun : ∀ q, q ≠ np → ∀ p, (k.ctl p).unset = some q → (k'.ctl p).unset = some q)
    (hnp : (k'.proc np).state ≠ .unused → (∀ p, (k'.ctl p).unset ≠ some np) →
      (k'.proc np).pgdir = k.nextdir ∨ ∃ m, (k'.proc np).pgdir = (k.proc m).pgdir ∧
        (k.proc m).state ≠ .unused ∧ ¬ k.Freeing m ∧ ∀ p, (k.ctl p).unset ≠ some m)
    (hfree : ∀ p, k'.Freeing p → k.Freeing p)
    (hn : k.nextdir ≤ k'.nextdir ∧ k'.freed = k.freed) : Clean k' := by
  obtain ⟨hcrew, hf, ho, hsole⟩ := h
  have hset : ∀ q, q ≠ np → (∀ p, (k'.ctl p).unset ≠ some q) → ∀ p, (k.ctl p).unset ≠ some q :=
    fun q hq hset p hp => hset p (hun q hq p hp)
  have hact := hcrew.kin.sound.active
  have hfresh := hcrew.fresh
  have hpnp : ∀ p, k.Freeing p → p ≠ np := by grind
  refine ⟨hc, fun q hq hq' => ?_, fun g hg => ?_, fun p hp q hqp hq hq' => ?_⟩
  · rw [hn.2]
    rcases eq_or_ne q np with rfl | hqnp
    · rcases hnp hq hq' with hnew | ⟨m, hm, hmu, -, hmset⟩
      · exact fun hmem => (ho _ hmem).ne hnew
      · rw [hm]
        exact hf m hmu hmset
    · rw [(hother q hqnp).2]
      exact hf q ((hother q hqnp).1 ▸ hq) (hset q hqnp hq')
  · exact (ho g (hn.2 ▸ hg)).trans_le hn.1
  · have hp' := hfree p hp
    rw [(hother p (hpnp p hp')).2]
    rcases eq_or_ne q np with rfl | hqnp
    · rcases hnp hq hq' with hnew | ⟨m, hm, hmu, hmf, hmset⟩
      · rw [hnew]
        exact (hfresh p).ne'
      · rw [hm]
        exact hsole p hp' m (fun hmp => hmf (hmp ▸ hp')) hmu hmset
    · rw [(hother q hqnp).2]
      exact hsole p hp' q hqp ((hother q hqnp).1 ▸ hq) (hset q hqnp hq')

theorem Next.freeing {x y : Ctl} (h : Next k p x y) (hx : k.ctl p = x)
    (hy : (k.goto p y).Freeing p) : k.Freeing p := by
  simp only [Freeing, goto_ctl, if_true, goto_proc] at hy
  cases h with
  | enter call hc => cases call <;> simp [Call.entry] at hy hc
  | load t => simpa [Freeing, hx] using hy
  | _ => simp at hy

/-- The old page directory of a main thread is freed, and that of a thread left to the others. -/
theorem Clean.commit {t : ℤ} (h : Clean k) (hc : Crew (k.execLoad p t true))
    (hp : k.ctl p = .execLoad t) : Clean (k.execLoad p t true) := by
  have hfresh := h.crew.fresh
  have hun : ∀ q, ((k.execLoad p t true).ctl q).unset = (k.ctl q).unset := by
    grind [Kernel.execLoad]
  obtain ⟨-, hf, ho, hsole⟩ := h
  refine ⟨hc, fun q hq hset => ?_, ?_, fun r hr q hqr hq hset => ?_⟩
  · have hset : ∀ b, (k.ctl b).unset ≠ some q := fun b => hun b ▸ hset b
    have := hf q
    have := hsole p
    have := ho k.nextdir
    grind [Kernel.execLoad]
  · grind [Kernel.execLoad]
  · have hset : ∀ b, (k.ctl b).unset ≠ some q := fun b => hun b ▸ hset b
    have := hsole r
    have := hfresh r
    grind [Kernel.execLoad]

/-- A thread is given the page directory of its master, which is not in `exec`. -/
theorem Clean.createSet {g : ℕ} (h : Clean k) (hc : Crew (k.createSet p np g))
    (hp : k.ctl p = .createSet np g) : Clean (k.createSet p np g) := by
  obtain ⟨m, hm⟩ : ∃ m, (k.proc np).master = some m :=
    Option.ne_none_iff_exists'.1 (by have := h.crew.kin.fits p; grind)
  obtain ⟨-, hact, -, hexec, -⟩ := h.crew.master np m hm
  have hg : g = (k.proc m).pgdir := by
    have := h.crew.raises p
    grind
  have hset : ∀ q, (k.ctl q).unset ≠ some m := fun q hq => by
    have := h.crew.kin.sound.embryo q m (Ctl.building_of_unset hq)
    simp [this, ProcState.active] at hact
  have hnp := h.crew.kin.sound.embryo p np
  refine h.build np hc (.inr ?_) ?_ ?_ (fun _ _ => .inr ⟨m, ?_, ?_, ?_, hset⟩) ?_ ?_ <;>
    grind [Kernel.createSet]

theorem Clean.move (h : Clean k) (hm : Move k k') : Clean k' := by
  have hc := h.crew.move hm
  have hrun := h.crew.kin.sound.running
  have hemb := h.crew.kin.sound.embryo
  have hact := h.crew.kin.sound.active
  cases hm with
  | quiet hq =>
    have := hq.state
    have := hq.ctl
    refine h.stay hc ?_ hq.pgdir ?_ ?_ ?_ <;> grind [hq.master, hq.globals]
  | @goto c p x hc hn =>
    have := hn.raises (h.crew.raises p)
    have := hn.freeing rfl
    refine h.stay ‹_› ?_ ?_ ?_ ?_ ?_ <;> grind
  | dispatch => refine h.stay hc ?_ ?_ ?_ ?_ ?_ <;> grind [Kernel.dispatch]
  | sleep => refine h.stay hc ?_ ?_ ?_ ?_ ?_ <;> grind [Kernel.sleep]
  | reapChild => refine h.stay hc ?_ ?_ ?_ ?_ ?_ <;> grind [Kernel.reapChild]
  | yield | reapThread | reparent | die | threadWakeup =>
    refine h.stay hc ?_ ?_ ?_ ?_ ?_ <;> grind
  | commit _ hp => exact h.commit hc hp
  | @forkEmbryo c p np _ hp hnp | @createEmbryo c p np _ hp hnp =>
    refine h.build np hc (.inl hnp) ?_ ?_ (fun _ hset => absurd ?_ (hset p)) ?_ ?_ <;>
      grind [Kernel.embryo]
  | @forkStack c p np _ hp | @createStack c p np m _ hp =>
    refine h.build np hc (.inr ?_) ?_ ?_ (fun _ hset => absurd ?_ (hset p)) ?_ ?_ <;>
      grind [Kernel.allocStack]
  | @abandon c p np m _ hp =>
    refine h.build np hc (.inr ?_) ?_ ?_ ?_ ?_ ?_ <;> grind [Kernel.abandon]
  | @forkCopy c p np _ hp =>
    refine h.build np hc (.inr ?_) ?_ ?_ (fun _ _ => .inl ?_) ?_ ?_ <;>
      grind [Kernel.forkCopy]
  | @createInit c p np m _ hp =>
    refine h.build np hc (.inr ?_) ?_ ?_ (fun _ hset => absurd ?_ (hset p)) ?_ ?_ <;>
      grind [Kernel.createInit]
  | createSet _ hp => exact h.createSet hc hp
  | @ready c p np _ hp =>
    have hbuild := h.crew.kin.sound.builder
    have hnp : (k.proc np).state = .embryo := by grind
    have hset : ∀ q, (k.ctl q).unset ≠ some np := by grind
    refine h.build np hc (.inr hnp) ?_ ?_ (fun _ _ => .inr ⟨np, ?_, ?_, ?_, hset⟩) ?_ ?_ <;>
      grind [Kernel.ready]

theorem Clean.special {e : Event ncpu} (h : Clean k) (hc : Crew k') (hs : SiblingsReady k e)
    (ha : ExecsAlone k e) (he : Special k e k') : Clean k' := by
  have hrun := h.crew.kin.sound.running
  have hact := h.crew.kin.sound.active
  cases he with
  | @enterExec c p hcpu hp hk =>
    have halone := ha p hcpu
    obtain ⟨-, hf, ho, hsole⟩ := h
    refine ⟨hc, fun q hq hset => hf q hq fun b => ?_, ho, fun r hr q hqr hq hset => ?_⟩
    · have := hset b
      grind
    · have hun : ∀ b, (k.ctl b).unset ≠ some q := fun b => by
        have := hset b
        grind
      rcases eq_or_ne r p with rfl | hrp
      · exact halone (by grind) q hqr hq fun ⟨b, hb⟩ => hun b hb
      · exact hsole r (by grind) q hqr hq hun
  | threadExit hcpu hp => refine h.stay hc ?_ ?_ ?_ ?_ ?_ <;> grind [Kernel.threadExit]
  | @joinScan c p t ok hcpu hp =>
    rcases joinScan_cases k c p t with ⟨z, -, hz, he⟩ | ⟨-, ⟨-, he⟩ | ⟨-, he⟩⟩ <;> rw [he] at hc ⊢
    · refine h.stay hc ?_ ?_ ?_ ?_ ?_ <;> grind
    · refine h.stay hc ?_ ?_ ?_ ?_ ?_ <;> grind
    · refine h.stay hc ?_ ?_ ?_ ?_ ?_ <;> grind [Kernel.sleep]
  | @exec c p ok hcpu hp =>
    have := h.crew.kin.worker p
    rw [Kernel.exec] at hc ⊢
    split at hc
    · refine h.stay hc ?_ ?_ ?_ ?_ ?_ <;> grind
    · refine h.stay hc ?_ ?_ ?_ ?_ ?_ <;> grind
  | threadKill hcpu hp =>
    have := hs _ hcpu (by rw [hp]; rfl)
    refine h.stay hc ?_ ?_ ?_ ?_ ?_ <;> grind

theorem clean_boot : Clean (boot ncpu) := by
  refine ⟨crew_boot, ?_, ?_, ?_⟩ <;> grind

end

end Kernel
end Xv6
