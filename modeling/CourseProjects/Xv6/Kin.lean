import CourseProjects.Xv6.Lifecycle

/-!
# Masters, parents and thread ids

A slot with a master is a worker thread: it has an id of its own, which no other
worker has, and no parent. A slot without one, once it is built, has the id `0`
(`Kin`). The slot a kernel thread is building is filled in step by step (`Fits`).

* `kin_run`: this holds along every run whose calls of `thread_kill` find the
  siblings asleep or ready, and so along every run without `exec` (`NoExec`).
-/

namespace Xv6

/-- A kernel thread is in `exec`. -/
@[grind =] def Ctl.inExec : Ctl → Bool
  | .exec | .execKill _ | .execNamei _ | .execLoad _ | .execWake => true
  | .user | .fork | .forkAlloc _ | .forkCopy _ | .forkReady _ | .create | .createAlloc _ _
  | .createInit _ _ | .createMap _ _ | .createSet _ _ | .createReady _ | .threadExit _
  | .threadJoin _ | .joinScan _ | .exit | .exitReap | .exitClose | .wait | .kill _ | .dead => false

namespace Kernel

variable {ncpu : ℕ} {k k' : Kernel ncpu}

/-- What a kernel thread has filled in of the slot it is building. -/
@[grind =] def Fits (k : Kernel ncpu) : Ctl → Prop
  | .forkAlloc np | .createAlloc np _ => (k.proc np).master = none ∧ (k.proc np).parent = none
  | .forkCopy np | .createInit np _ =>
    (k.proc np).master = none ∧ (k.proc np).parent = none ∧ (k.proc np).tid = 0
  | .forkReady np => (k.proc np).master = none ∧ (k.proc np).tid = 0
  | .createMap np _ | .createSet np _ | .createReady np => (k.proc np).master ≠ none
  | .user | .fork | .create | .threadExit _ | .threadJoin _ | .joinScan _ | .exit | .exitReap
  | .exitClose | .wait | .kill _ | .exec | .execKill _ | .execNamei _ | .execLoad _ | .execWake
  | .dead => True

/-- A process, built and not yet reaped. -/
@[grind =] def ProcState.built (s : ProcState) : Bool := s ≠ .unused ∧ s ≠ .embryo

/-- The masters, parents and thread ids of the slots. -/
structure Kin (k : Kernel ncpu) : Prop where
  sound : Sound k
  free : ∀ z, (k.proc z).state = .unused → (k.proc z).master = none ∧ (k.proc z).parent = none
  fits : ∀ p, k.Fits (k.ctl p)
  worker : ∀ z, (k.proc z).master ≠ none → (k.proc z).parent = none ∧ 0 < (k.proc z).tid
  main : ∀ z, (k.proc z).state ≠ .unused → (k.proc z).state ≠ .embryo →
    (k.proc z).master = none → (k.proc z).tid = 0
  nexttid : 0 < k.nexttid
  used : ∀ z, (k.proc z).tid < k.nexttid
  unique : ∀ y z, (k.proc y).master ≠ none → (k.proc z).master ≠ none →
    (k.proc y).tid = (k.proc z).tid → y = z

section

variable {p np z : Slot} {x : Ctl}

/-- Only the slot being built matters. -/
theorem Fits.congr (hx : k.Fits x) (h : ∀ np, x.building = some np →
    (k'.proc np).master = (k.proc np).master ∧ (k'.proc np).tid = (k.proc np).tid ∧
      ((k'.proc np).parent = none ↔ (k.proc np).parent = none)) : k'.Fits x := by
  cases x with
  | forkAlloc np | createAlloc np | forkCopy np | createInit np | forkReady np | createMap np
  | createSet np | createReady np =>
    obtain ⟨hm, ht, hp⟩ := h np rfl
    simpa only [Fits, hm, ht, hp] using hx
  | _ => trivial

/-- The masters and ids stay, and no slot is drawn, given back or built. -/
theorem Kin.stay (h : Kin k) (hs : Sound k')
    (hst : ∀ q, ((k'.proc q).state = .unused ↔ (k.proc q).state = .unused) ∧
      ((k'.proc q).state = .embryo ↔ (k.proc q).state = .embryo))
    (hm : ∀ q, (k'.proc q).master = (k.proc q).master)
    (ht : ∀ q, (k'.proc q).tid = (k.proc q).tid)
    (hp : ∀ q, (k'.proc q).parent = none ↔ (k.proc q).parent = none)
    (hctl : ∀ q, k'.ctl q = k.ctl q ∨ k.Fits (k'.ctl q)) (hn : k'.nexttid = k.nexttid) :
    Kin k' := by
  obtain ⟨-, hfree, hf, hworker, hmain, hnext, hused, huniq⟩ := h
  refine ⟨hs, fun z hz => ?_, fun q => ?_, fun z hz => ?_, fun z hu he hz => ?_, hn ▸ hnext,
    fun z => ?_, fun y z hy hz he => ?_⟩
  · rw [hm, hp]
    exact hfree z ((hst z).1.1 hz)
  · have hq : k.Fits (k'.ctl q) := by
      rcases hctl q with h | h
      · rw [h]
        exact hf q
      · exact h
    exact hq.congr fun np _ => ⟨hm np, ht np, hp np⟩
  · rw [hm] at hz
    rw [hp, ht]
    exact hworker z hz
  · rw [hm] at hz
    rw [ht]
    exact hmain z (mt (hst z).1.2 hu) (mt (hst z).2.2 he) hz
  · rw [ht, hn]
    exact hused z
  · rw [hm] at hy hz
    rw [ht, ht] at he
    exact huniq y z hy hz he

/-- A free slot may be drawn. -/
theorem Kin.draw (h : Kin k) (hs : Sound ((k.embryo np).goto p x))
    (hnp : (k.proc np).state = .unused) (hx : x = .forkAlloc np ∨ ∃ m, x = .createAlloc np m) :
    Kin ((k.embryo np).goto p x) := by
  obtain ⟨-, hfree, hf, hworker, hmain, hnext, hused, huniq⟩ := h
  have hother : ∀ q, q ≠ np → ((k.embryo np).goto p x).proc q = k.proc q := fun q hq => by
    rw [goto_proc, embryo_proc, if_neg hq]
  have hsame : ∀ q, (((k.embryo np).goto p x).proc q).master = (k.proc q).master ∧
      (((k.embryo np).goto p x).proc q).parent = (k.proc q).parent ∧
      (((k.embryo np).goto p x).proc q).tid = (k.proc q).tid := by
    intro q
    rcases eq_or_ne q np with rfl | hq
    · rw [goto_proc, embryo_proc, if_pos rfl]
      exact ⟨rfl, rfl, rfl⟩
    · rw [hother q hq]
      exact ⟨rfl, rfl, rfl⟩
  have he : (((k.embryo np).goto p x).proc np).state = .embryo := by
    rw [goto_proc, embryo_proc, if_pos rfl]
  refine ⟨hs, fun z hz => ?_, fun q => ?_, fun z hz => ?_, fun z hu hz hz' => ?_, hnext,
    fun z => ?_, fun y z hy hz hyz => ?_⟩
  · have hne : z ≠ np := by
      rintro rfl
      rw [he] at hz
      cases hz
    rw [hother z hne] at hz ⊢
    exact hfree z hz
  · rw [goto_ctl]
    split
    · -- What the last occupant left has no master and no parent.
      have hnone := hfree np hnp
      rw [← (hsame np).1, ← (hsame np).2.1] at hnone
      rcases hx with rfl | ⟨m, rfl⟩ <;> exact hnone
    · exact (hf q).congr fun np _ => ⟨(hsame np).1, (hsame np).2.2, by rw [(hsame np).2.1]⟩
  · rw [(hsame z).1] at hz
    rw [(hsame z).2.1, (hsame z).2.2]
    exact hworker z hz
  · have hne : z ≠ np := by
      rintro rfl
      exact hz he
    rw [hother z hne] at hu hz hz' ⊢
    exact hmain z hu hz hz'
  · rw [(hsame z).2.2]
    exact hused z
  · rw [(hsame y).1] at hy
    rw [(hsame z).1] at hz
    rw [(hsame y).2.2, (hsame z).2.2] at hyz
    exact huniq y z hy hz hyz

/-- The slot being built is written; nobody else is building it. -/
theorem Kin.build {f : Proc → Proc} (h : Kin k) (hs : Sound k')
    (hb : (k.ctl p).building = some np)
    (hproc : ∀ q, k'.proc q = (k.modify np f).proc q)
    (hctl : ∀ q, k'.ctl q = (k.goto p x).ctl q ∨ q ≠ p ∧ k'.ctl q = .user)
    (hx : (k.modify np f).Fits x)
    (hfree : (f (k.proc np)).state = .unused → (f (k.proc np)).master = none ∧
      (f (k.proc np)).parent = none)
    (hmain : (f (k.proc np)).state ≠ .unused → (f (k.proc np)).state ≠ .embryo →
      (f (k.proc np)).master = none → (f (k.proc np)).tid = 0)
    (hworker : (f (k.proc np)).master ≠ none → (f (k.proc np)).parent = none ∧
      0 < (f (k.proc np)).tid ∧
        ((k.proc np).master ≠ none ∧ (f (k.proc np)).tid = (k.proc np).tid ∨
          (f (k.proc np)).tid = k.nexttid))
    (hn : k.nexttid ≤ k'.nexttid ∧ (f (k.proc np)).tid < k'.nexttid) : Kin k' := by
  obtain ⟨hsnd, hfree', hf, hworker', hmain', hnext, hused, huniq⟩ := h
  have hother : ∀ q, q ≠ np → k'.proc q = k.proc q := fun q hq => by
    rw [hproc, modify_proc, if_neg hq]
  have hnp : k'.proc np = f (k.proc np) := by
    rw [hproc, modify_proc, if_pos rfl]
  rw [← hnp] at hfree hmain hworker hn
  -- The id of the slot, once it has a master, is its own.
  have hown : ∀ y, y ≠ np → (k'.proc y).master ≠ none → (k'.proc np).master ≠ none →
      (k'.proc y).tid ≠ (k'.proc np).tid := by
    intro y hy hym hnm he
    rw [hother y hy] at hym he
    rcases (hworker hnm).2.2 with ⟨hnm', ht'⟩ | ht'
    · exact hy (huniq y np hym hnm' (he.trans ht'))
    · exact (hused y).ne (he.trans ht')
  refine ⟨hs, fun z hz => ?_, fun q => ?_, fun z hz => ?_, fun z hu he hz => ?_,
    hnext.trans_le hn.1, fun z => ?_, fun y z hy hz he => ?_⟩
  · rcases eq_or_ne z np with rfl | hne
    · exact hfree hz
    · rw [hother z hne] at hz ⊢
      exact hfree' z hz
  · rcases hctl q with hq | ⟨-, hq⟩ <;> rw [hq]
    · rw [goto_ctl]
      split
      · exact hx.congr fun nq _ => by simp [hproc]
      · rename_i hqp
        refine (hf q).congr fun nq hnq => ?_
        have hne : nq ≠ np := by
          rintro rfl
          exact hqp (hsnd.builder q p nq hnq hb)
        simp [hother nq hne]
    · trivial
  · rcases eq_or_ne z np with rfl | hne
    · exact ⟨(hworker hz).1, (hworker hz).2.1⟩
    · rw [hother z hne] at hz ⊢
      exact hworker' z hz
  · rcases eq_or_ne z np with rfl | hne
    · exact hmain hu he hz
    · rw [hother z hne] at hu he hz ⊢
      exact hmain' z hu he hz
  · rcases eq_or_ne z np with rfl | hne
    · exact hn.2
    · rw [hother z hne]
      exact (hused z).trans_le hn.1
  · rcases eq_or_ne y np with rfl | hyn
    · by_contra hne
      exact hown z (Ne.symm hne) hz hy he.symm
    rcases eq_or_ne z np with rfl | hzn
    · exact absurd he (hown y hyn hy hz)
    · rw [hother y hyn] at hy he
      rw [hother z hzn] at hz he
      exact huniq y z hy hz he

/-- A dead process may be reaped. -/
theorem Kin.reap (h : Kin k) (hs : Sound k') (hz : (k.proc z).state = .zombie)
    (hz' : (k'.proc z).state = .unused ∧ (k'.proc z).master = none ∧ (k'.proc z).parent = none)
    (ht : ∀ q, (k'.proc q).tid = (k.proc q).tid)
    (hother : ∀ q, q ≠ z → (k'.proc q).state = (k.proc q).state ∧
      (k'.proc q).master = (k.proc q).master ∧ (k'.proc q).parent = (k.proc q).parent)
    (hctl : ∀ q, k'.ctl q = k.ctl q) (hn : k'.nexttid = k.nexttid) : Kin k' := by
  obtain ⟨hsnd, hfree, hf, hworker, hmain, hnext, hused, huniq⟩ := h
  -- A slot with a master is not the one that is reaped.
  have hm : ∀ y, (k'.proc y).master ≠ none → y ≠ z := by
    rintro y hy rfl
    exact hy hz'.2.1
  refine ⟨hs, fun y hy => ?_, fun q => ?_, fun y hy => ?_, fun y hu he hy => ?_, hn ▸ hnext,
    fun y => ?_, fun x y hx hy he => ?_⟩
  · rcases eq_or_ne y z with rfl | hne
    · exact hz'.2
    · rw [(hother y hne).2.1, (hother y hne).2.2]
      exact hfree y ((hother y hne).1 ▸ hy)
  · rw [hctl]
    refine (hf q).congr fun np hnp => ?_
    have hne : np ≠ z := by
      rintro rfl
      simp [hsnd.embryo q np hnp] at hz
    obtain ⟨-, hm, hp⟩ := hother np hne
    exact ⟨hm, ht np, by rw [hp]⟩
  · obtain ⟨-, hmy, hp⟩ := hother y (hm y hy)
    rw [hmy] at hy
    rw [hp, ht]
    exact hworker y hy
  · have hne : y ≠ z := by
      rintro rfl
      exact hu hz'.1
    obtain ⟨hst, hmy, -⟩ := hother y hne
    rw [hst] at hu he
    rw [hmy] at hy
    rw [ht]
    exact hmain y hu he hy
  · rw [ht, hn]
    exact hused y
  · rw [ht, ht] at he
    rw [(hother x (hm x hx)).2.1] at hx
    rw [(hother y (hm y hy)).2.1] at hy
    exact huniq x y hx hy he

theorem Next.fits {x y : Ctl} (h : Next k p x y) (hx : k.Fits x) : k.Fits y := by
  cases h with
  | enter call => cases call <;> trivial
  | map => exact hx
  | _ => trivial

end

/-! ### The moves -/

section

variable {c : Fin ncpu} {p np : Slot}

/-- The fields `Kin` speaks of. -/
def kinFields (x : Proc) : Option Slot × Option Slot × ℤ := (x.master, x.parent, x.tid)

/-- Only the states of built slots change. -/
theorem Kin.keep (h : Kin k) (hs : Sound k')
    (hsame : ∀ q, kinFields (k'.proc q) = kinFields (k.proc q))
    (hst : ∀ q, (k'.proc q).state = (k.proc q).state ∨
      ProcState.built (k.proc q).state = true ∧ ProcState.built (k'.proc q).state = true)
    (hctl : ∀ q, k'.ctl q = k.ctl q ∨ k.Fits (k'.ctl q)) (hn : k'.nexttid = k.nexttid) :
    Kin k' := by
  have hfields : ∀ q, (k'.proc q).master = (k.proc q).master ∧
      (k'.proc q).parent = (k.proc q).parent ∧ (k'.proc q).tid = (k.proc q).tid := by
    intro q
    simpa only [kinFields, Prod.mk.injEq] using hsame q
  refine h.stay hs (fun q => ?_) (fun q => (hfields q).1) (fun q => (hfields q).2.2)
    (fun q => by rw [(hfields q).2.1]) hctl hn
  rcases hst q with hq | ⟨hb, hb'⟩
  · rw [hq]
    exact ⟨.rfl, .rfl⟩
  · simp only [ProcState.built, decide_eq_true_eq] at hb hb'
    exact ⟨iff_of_false hb'.1 hb.1, iff_of_false hb'.2 hb.2⟩

theorem Kin.quiet (h : Kin k) (hs : Sound k') (hq : Quiet k k') : Kin k' := by
  refine h.keep hs (fun q => ?_) (fun q => ?_) (fun q => .inl (hq.ctl q)) (by rw [hq.globals])
  · rw [kinFields, hq.master, hq.parent, hq.tid]
    rfl
  · refine (hq.state q).imp_right fun ⟨hsl, hr⟩ => ?_
    rw [hsl, hr]
    exact ⟨rfl, rfl⟩

theorem Kin.goto {x : Ctl} (h : Kin k) (hs : Sound (k.goto p x)) (hx : k.Fits x) :
    Kin (k.goto p x) := by
  refine h.keep hs (fun q => rfl) (fun q => .inl rfl) (fun q => ?_) rfl
  rw [goto_ctl]
  split
  · exact .inr hx
  · exact .inl rfl

/-- A process in use changes its state, and may get or give up a processor. -/
theorem Kin.sched (h : Kin k) {f : Proc → Proc} {c' : Fin ncpu} (hs : Sound k')
    (hk' : k' = (k.modify p f).sched c' ∨ k' = (k.modify p f).take c' p)
    (hf : ∀ x, kinFields (f x) = kinFields x)
    (hp : ProcState.built (k.proc p).state = true)
    (hfp : ProcState.built (f (k.proc p)).state = true) : Kin k' := by
  have hproc : ∀ q, k'.proc q = (k.modify p f).proc q := by
    rcases hk' with rfl | rfl <;> simp
  have hctl : ∀ q, k'.ctl q = k.ctl q := by
    rcases hk' with rfl | rfl <;> simp
  have hglobals : k'.toGlobals = k.toGlobals := by
    rcases hk' with rfl | rfl <;> simp
  refine h.keep hs (fun q => ?_) (fun q => ?_) (fun q => .inl (hctl q)) (by rw [hglobals])
  · rw [hproc]
    exact k.modify_field kinFields hf q
  · rw [hproc, modify_proc]
    split
    · rename_i hq
      exact .inr ⟨hq ▸ hp, hfp⟩
    · exact .inl rfl

theorem Kin.die (h : Kin k) (hs : Sound (k.die c p)) (hp : (k.proc p).state = .running) :
    Kin (k.die c p) := by
  refine h.keep hs (fun q => ?_) (fun q => ?_) (fun q => ?_) rfl
  · rw [die_proc]
    split
    · rename_i hq
      rw [hq]
      rfl
    · rfl
  · rw [die_proc]
    split
    · rename_i hq
      rw [hq, hp]
      exact .inr ⟨rfl, rfl⟩
    · exact .inl rfl
  · rw [die_ctl]
    split
    · exact .inr trivial
    · exact .inl rfl

/-- The thread that is about to run in the new slot is in user mode. -/
theorem allocStack_ctl {x : Ctl} (q : Slot) :
    ((k.allocStack np).goto p x).ctl q = (k.goto p x).ctl q ∨
      q ≠ p ∧ ((k.allocStack np).goto p x).ctl q = .user := by
  rw [goto_ctl, goto_ctl]
  rcases eq_or_ne q p with rfl | hq
  · rw [if_pos rfl, if_pos rfl]
    exact .inl rfl
  · rw [if_neg hq, if_neg hq, allocStack, goto_ctl]
    split
    · exact .inr ⟨hq, rfl⟩
    · exact .inl rfl

theorem Kin.stack {x : Ctl} (h : Kin k) (hs : Sound ((k.allocStack np).goto p x))
    (hp : k.ctl p = .forkAlloc np ∧ x = .forkCopy np ∨
      ∃ m, k.ctl p = .createAlloc np m ∧ x = .createInit np m) :
    Kin ((k.allocStack np).goto p x) := by
  have hb : (k.ctl p).building = some np := by
    rcases hp with ⟨hp, -⟩ | ⟨m, hp, -⟩ <;> rw [hp] <;> rfl
  have hpa : (k.proc np).parent = none := by
    have hf := h.fits p
    rcases hp with ⟨hp, -⟩ | ⟨m, hp, -⟩ <;> rw [hp] at hf <;> exact hf.2
  refine h.build (f := fun x => { x with master := none, tid := 0 }) hs hb (fun q => rfl)
    allocStack_ctl ?_ (fun _ => ⟨rfl, hpa⟩) (fun _ _ _ => rfl) (fun hne => absurd rfl hne)
    ⟨le_rfl, h.nexttid⟩
  rcases hp with ⟨-, rfl⟩ | ⟨m, -, rfl⟩ <;> simp [Fits, modify_proc, hpa]

theorem Kin.abandon {m : Slot} (h : Kin k) (hs : Sound ((k.abandon np).goto p .user))
    (hp : k.ctl p = .forkAlloc np ∨ k.ctl p = .forkCopy np ∨ k.ctl p = .createAlloc np m) :
    Kin ((k.abandon np).goto p .user) := by
  have hb : (k.ctl p).building = some np := by
    rcases hp with hp | hp | hp <;> rw [hp] <;> rfl
  have hnone : (k.proc np).master = none ∧ (k.proc np).parent = none := by
    have hf := h.fits p
    rcases hp with hp | hp | hp <;> rw [hp] at hf
    · exact hf
    · exact ⟨hf.1, hf.2.1⟩
    · exact hf
  exact h.build (f := fun x => { x with state := .unused }) hs hb (fun _ => rfl)
    (fun _ => .inl rfl) trivial (fun _ => hnone) (fun hu => absurd rfl hu)
    (fun hm => absurd hnone.1 hm) ⟨le_rfl, h.used np⟩

theorem Kin.forkCopy (h : Kin k) (hs : Sound (k.forkCopy p np true))
    (hp : k.ctl p = .forkCopy np) : Kin (k.forkCopy p np true) := by
  have hb : (k.ctl p).building = some np := by
    rw [hp]
    rfl
  have hst := h.sound.embryo p np hb
  obtain ⟨hm, -, ht⟩ : k.Fits (.forkCopy np) := hp ▸ h.fits p
  refine h.build (f := fun x => { x with pgdir := k.nextdir, parent := some p }) hs hb
    (fun _ => rfl) (fun _ => .inl rfl) (x := .forkReady np) ?_ (fun hu => ?_)
    (fun _ _ _ => ht) (fun hne => absurd hm hne) ⟨le_rfl, h.used np⟩
  · simp [Fits, modify_proc, hm, ht]
  · simp [hst] at hu

theorem Kin.createInit {m : Slot} (h : Kin k) (hs : Sound (k.createInit p np m))
    (hp : k.ctl p = .createInit np m) : Kin (k.createInit p np m) := by
  have hb : (k.ctl p).building = some np := by
    rw [hp]
    rfl
  have hst := h.sound.embryo p np hb
  obtain ⟨-, hpa, -⟩ : k.Fits (.createInit np m) := hp ▸ h.fits p
  refine h.build
    (f := fun x => { x with tid := k.nexttid, master := some m, pid := (k.proc m).pid }) hs hb
    (fun _ => rfl) (fun _ => .inl rfl) (x := .createMap np m) ?_ (fun hu => ?_)
    (fun _ he => absurd hst he) (fun _ => ⟨hpa, h.nexttid, .inr rfl⟩)
    ⟨Int.le_add_one le_rfl, Int.lt_succ _⟩
  · simp [Fits, modify_proc]
  · simp [hst] at hu

/-- The slot being built, which has a master, is written but for the masters, parents and ids. -/
theorem Kin.thread {f : Proc → Proc} {x : Ctl} (h : Kin k) (hs : Sound k')
    (hb : (k.ctl p).building = some np) (hm : (k.proc np).master ≠ none)
    (hproc : ∀ q, k'.proc q = (k.modify np f).proc q)
    (hctl : ∀ q, k'.ctl q = (k.goto p x).ctl q) (hf : ∀ x, kinFields (f x) = kinFields x)
    (hu : (f (k.proc np)).state ≠ .unused) (hx : k.Fits x) (hn : k'.nexttid = k.nexttid) :
    Kin k' := by
  have hfields := hf (k.proc np)
  simp only [kinFields, Prod.mk.injEq] at hfields
  obtain ⟨hfm, hfp, hft⟩ := hfields
  have hfits : (k.modify np f).Fits x := by
    refine hx.congr fun nq _ => ?_
    have := k.modify_field kinFields hf (p := np) nq
    simp only [kinFields, Prod.mk.injEq] at this
    exact ⟨this.1, this.2.2, by rw [this.2.1]⟩
  refine h.build hs hb hproc (fun q => .inl (hctl q)) hfits (fun he => absurd he hu)
    (fun _ _ he => absurd (hfm ▸ he) hm) (fun _ => ?_) ?_
  · rw [hfp, hft]
    exact ⟨(h.worker np hm).1, (h.worker np hm).2, .inl ⟨hm, rfl⟩⟩
  · rw [hft, hn]
    exact ⟨le_rfl, h.used np⟩

theorem Kin.createSet {g : ℕ} (h : Kin k) (hs : Sound (k.createSet p np g))
    (hp : k.ctl p = .createSet np g) : Kin (k.createSet p np g) := by
  have hb : (k.ctl p).building = some np := by
    rw [hp]
    rfl
  have hst := h.sound.embryo p np hb
  have hm : k.Fits (.createSet np g) := hp ▸ h.fits p
  refine h.thread (f := fun x => { x with pgdir := g }) (x := .createReady np) hs hb hm
    (fun _ => rfl) (fun _ => rfl) (fun _ => rfl) ?_ hm rfl
  simp [hst]

theorem Kin.ready (h : Kin k) (hs : Sound ((k.ready np).goto p .user))
    (hp : k.ctl p = .forkReady np ∨ k.ctl p = .createReady np) :
    Kin ((k.ready np).goto p .user) := by
  have hf := h.fits p
  rcases hp with hp | hp <;> rw [hp] at hf
  · obtain ⟨hm, ht⟩ := hf
    exact h.build (f := fun x => { x with state := .runnable }) hs (by rw [hp]; rfl)
      (fun _ => rfl) (fun _ => .inl rfl) trivial (fun hu => absurd hu (by simp))
      (fun _ _ _ => ht) (fun hne => absurd hm hne) ⟨le_rfl, h.used np⟩
  · exact h.thread (f := fun x => { x with state := .runnable }) (x := .user) hs
      (by rw [hp]; rfl) hf (fun _ => rfl) (fun _ => rfl) (fun _ => rfl) (by simp) trivial rfl

theorem Kin.reapThread {z : Slot} (h : Kin k) (hz : (k.proc z).state = .zombie) :
    Kin (k.reapThread p z) := by
  have hs : Sound (k.reapThread p z) := by
    refine h.sound.reap hz ?_ ?_ ?_ ?_ <;> grind
  refine h.reap hs hz ?_ (fun q => ?_) (fun q hq => ?_) (fun q => k.reapThread_ctl p q z) (by simp)
  · simp [reapThread_proc]
  · rw [reapThread_proc]
    split
    · rename_i hq
      rw [hq]
    · rfl
  · rw [reapThread_proc, if_neg hq]
    exact ⟨rfl, rfl, rfl⟩

theorem Kin.reapChild {z : Slot} (h : Kin k) (hs : Sound (k.reapChild z))
    (hzp : (k.proc z).parent = some p) (hz : (k.proc z).state = .zombie) :
    Kin (k.reapChild z) := by
  -- A slot with a parent has no master.
  have hm : (k.proc z).master = none := by
    by_contra hne
    rw [(h.worker z hne).1] at hzp
    cases hzp
  refine h.reap hs hz ?_ (k.modify_field (·.tid) fun _ => rfl) (fun q hq => ?_) (fun _ => rfl) rfl
  · rw [Kernel.reapChild, modify_proc, if_pos rfl]
    exact ⟨rfl, hm, rfl⟩
  · rw [Kernel.reapChild, modify_proc, if_neg hq]
    exact ⟨rfl, rfl, rfl⟩

theorem Kin.reparent {q : Slot} (h : Kin k)
    (hs : Sound (k.modify q fun x => { x with parent := some initproc }))
    (hq : (k.proc q).parent = some p) :
    Kin (k.modify q fun x => { x with parent := some initproc }) := by
  have hst := k.modify_field (·.state) (p := q) (f := fun x => { x with parent := some initproc })
    fun _ => rfl
  refine h.stay hs (fun r => ?_) (k.modify_field (·.master) fun _ => rfl)
    (k.modify_field (·.tid) fun _ => rfl) (fun r => ?_) (fun _ => .inl rfl) rfl
  · rw [hst r]
    exact ⟨.rfl, .rfl⟩
  · rw [modify_proc]
    split
    · rename_i hr
      rw [hr, hq]
      exact iff_of_false nofun nofun
    · rfl

theorem Kin.commit {t : ℤ} (h : Kin k) (hs : Sound (k.execLoad p t true)) :
    Kin (k.execLoad p t true) := by
  refine h.keep hs (k.modify_field kinFields (f := fun x => { x with pgdir := k.nextdir })
    fun _ => rfl) (fun q => .inl ?_) (fun q => ?_) rfl
  · exact k.modify_field (·.state) (f := fun x => { x with pgdir := k.nextdir }) (fun _ => rfl) q
  · have hctl : (k.execLoad p t true).ctl q = (k.goto p .execWake).ctl q := rfl
    rw [hctl, goto_ctl]
    split
    · exact .inr trivial
    · exact .inl rfl

theorem Kin.threadWakeup (h : Kin k) (hs : Sound (k.threadWakeup p)) :
    Kin (k.threadWakeup p) := by
  refine h.stay hs (fun q => ?_) (fun q => ?_) (fun q => ?_) (fun q => ?_) (fun _ => .inl rfl) rfl
    <;> rw [threadWakeup_proc]
  · split
    · rename_i hw
      simp only [wakes, decide_eq_true_eq] at hw
      simp [hw.1]
    · exact ⟨.rfl, .rfl⟩
  · split <;> rfl
  · split <;> rfl
  · -- A slot that is woken gets a parent only if it has one.
    split
    · cases (k.proc q).parent <;> simp
    · rfl

theorem Kin.threadExit {v : ℤ} (h : Kin k) (hs : Sound (k.threadExit c p v))
    (hp : (k.proc p).state = .running) : Kin (k.threadExit c p v) := by
  refine h.stay hs ?_ ?_ ?_ ?_ (fun q => ?_) rfl
  · grind [Kernel.threadExit]
  · grind [Kernel.threadExit]
  · grind [Kernel.threadExit]
  · grind [Kernel.threadExit]
  · rw [threadExit_ctl]
    split
    · exact .inr trivial
    · exact .inl rfl

theorem Kin.joinScan {t : ℤ} (h : Kin k) (hs : Sound (k.joinScan c p t).2)
    (hp : (k.proc p).state = .running) : Kin (k.joinScan c p t).2 := by
  rcases joinScan_cases k c p t with ⟨z, -, hz, he⟩ | ⟨-, ⟨-, he⟩ | ⟨-, he⟩⟩ <;> rw [he] at hs ⊢
  · exact (h.reapThread hz).goto hs trivial
  · exact h.goto hs trivial
  · exact h.sched hs (.inl rfl) (fun _ => rfl) (by rw [hp]; rfl) rfl

theorem Kin.threadKill {t : ℤ} (h : Kin k) (hs : Sound ((k.threadKill p).goto p (.execNamei t)))
    (hq : (k.proc p).killed = false → CalmSiblings k p) :
    Kin ((k.threadKill p).goto p (.execNamei t)) := by
  refine h.keep hs (fun q => ?_) (fun q => ?_) (fun q => ?_) (by simp)
  · rw [goto_proc, threadKill_proc]
    split <;> rfl
  · rw [goto_proc, threadKill_proc]
    split
    · rename_i hk
      refine .inr ⟨?_, rfl⟩
      rcases hq hk.1 q hk.2.1 hk.2.2.symm with hst | hst <;> rw [hst] <;> rfl
    · exact .inl rfl
  · rw [goto_ctl, threadKill_ctl]
    split
    · exact .inr trivial
    · exact .inl rfl

theorem Kin.exec (h : Kin k) (hs : Sound (k.exec p)) (hp : (k.proc p).state = .running) :
    Kin (k.exec p) := by
  rw [Kernel.exec] at hs ⊢
  split at hs
  · exact h.goto hs trivial
  · -- A worker thread becomes a master: it is running, and so nobody is building it.
    have hemb := h.sound.embryo
    obtain ⟨_, _, hf, _, _, _, _, _⟩ := h
    refine ⟨hs, ?_, fun q => ?_, ?_, ?_, ?_, ?_, ?_⟩
    · grind
    · rw [goto_ctl]
      split
      · trivial
      · refine (hf q).congr fun np hnp => ?_
        have hne : np ≠ p := by
          rintro rfl
          rw [hemb q np hnp] at hp
          cases hp
        simp [modify_proc, hne]
    all_goals grind

end

theorem Kin.move (h : Kin k) (hm : Move k k') : Kin k' := by
  have hs := h.sound.move hm
  have hrun := h.sound.running
  cases hm with
  | quiet hq => exact h.quiet hs hq
  | goto _ hx => exact h.goto hs (hx.fits (h.fits _))
  | dispatch _ hr => exact h.sched hs (.inr rfl) (fun _ => rfl) (by rw [hr]; rfl) rfl
  | yield hc => exact h.sched hs (.inl rfl) (fun _ => rfl) (by rw [hrun _ _ hc]; rfl) rfl
  | sleep hc => exact h.sched hs (.inl rfl) (fun _ => rfl) (by rw [hrun _ _ hc]; rfl) rfl
  | forkEmbryo _ _ hnp => exact h.draw hs hnp (.inl rfl)
  | createEmbryo _ _ hnp => exact h.draw hs hnp (.inr ⟨_, rfl⟩)
  | forkStack _ hp => exact h.stack hs (.inl ⟨hp, rfl⟩)
  | createStack _ hp => exact h.stack hs (.inr ⟨_, hp, rfl⟩)
  | abandon _ hp => exact h.abandon hs hp
  | forkCopy _ hp => exact h.forkCopy hs hp
  | createInit _ hp => exact h.createInit hs hp
  | createSet _ hp => exact h.createSet hs hp
  | ready _ hp => exact h.ready hs hp
  | reapThread _ _ _ hz => exact h.reapThread hz
  | reapChild _ _ hz hz' => exact h.reapChild hs hz hz'
  | reparent _ _ hq => exact h.reparent hs hq
  | die hc => exact h.die hs (hrun _ _ hc)
  | commit _ hp => exact h.commit hs
  | threadWakeup => exact h.threadWakeup hs

theorem Kin.special {e : Event ncpu} (h : Kin k) (hq : SiblingsReady k e)
    (hs : Special k e k') : Kin k' := by
  have hs' := h.sound.special hq hs
  have hrun := h.sound.running
  cases hs with
  | enterExec => exact h.goto hs' trivial
  | threadExit hc => exact h.threadExit hs' (hrun _ _ hc)
  | joinScan hc => exact h.joinScan hs' (hrun _ _ hc)
  | exec hc => exact h.exec hs' (hrun _ _ hc)
  | threadKill hc hp =>
    exact h.threadKill hs' (hq _ hc (by rw [hp]; rfl))

theorem Kin.step {e : Event ncpu} (h : Kin k) (hq : SiblingsReady k e)
    (he : k.step e = some k') : Kin k' :=
  step_inv (fun _ _ => Kin.move) (h.special hq) h he

theorem kin_boot : Kin (boot ncpu) := by
  refine ⟨sound_boot, ?_, fun p => ?_, ?_, ?_, ?_, ?_, ?_⟩
  · grind
  · rw [boot_ctl]
    split <;> trivial
  all_goals grind

theorem kin_run {es : List (Event ncpu)}
    (hg : Trace.Along Kernel.step SiblingsReady (boot ncpu) es)
    (hr : Trace.run Kernel.step (boot ncpu) es = some k) : Kin k :=
  Trace.run_inv (fun _ _ _ h hq he => h.step hq he) kin_boot hg hr

/-! ### Runs without `exec` -/

/-- The event does not call `exec`. -/
def NoExec : Event ncpu → Prop
  | .syscall _ call => call ≠ .exec
  | _ => True

instance : DecidablePred (@NoExec ncpu)
  | .syscall _ call => inferInstanceAs (Decidable (call ≠ .exec))
  | .dispatch _ _ | .yield _ | .sleep _ _ | .fault _ | .advance _ _ | .wakeup _ => isTrue trivial

/-- A kernel in which no kernel thread is in `exec`. -/
structure Execless (k : Kernel ncpu) : Prop where
  kin : Kin k
  ctl : ∀ p, (k.ctl p).inExec = false

theorem Execless.siblingsReady {e : Event ncpu} (h : Execless k) : SiblingsReady k e := by
  cases e with
  | advance c ok =>
    intro p _ hk
    have := h.ctl p
    cases hp : k.ctl p <;> simp_all [Ctl.killing, Ctl.inExec]
  | _ => trivial

theorem Next.execless {p : Slot} {x y : Ctl} (h : Next k p x y) (hx : x.inExec = false) :
    y.inExec = false := by
  cases h with
  | enter call hc => cases call <;> first | rfl | exact absurd rfl hc
  | _ => first | rfl | exact hx

theorem Execless.move (h : Execless k) (hm : Move k k') : Execless k' := by
  refine ⟨h.kin.move hm, fun q => ?_⟩
  have hx := h.ctl
  cases hm with
  | quiet hq => rw [hq.ctl, hx]
  | @goto c p x hc hn =>
    have := hn.execless (hx p)
    grind
  | reapThread => grind
  | @commit _ p _ _ hp => simpa [hp, Ctl.inExec] using hx p
  | @threadWakeup _ p _ hp => simpa [hp, Ctl.inExec] using hx p
  | _ => grind [Kernel.dispatch, Kernel.sleep, Kernel.embryo, Kernel.allocStack, Kernel.abandon,
      Kernel.forkCopy, Kernel.createInit, Kernel.createSet, Kernel.ready, Kernel.reapChild]

/-- The sections left whole of a run without `exec`. -/
theorem Execless.special {e : Event ncpu} (h : Execless k) (he : NoExec e)
    (hs : Special k e k') :
    ∃ c ok p, e = .advance c ok ∧ k.cpu c = some p ∧
      ((∃ v, k.ctl p = .threadExit v ∧ k' = k.threadExit c p v) ∨
        ∃ t, k.ctl p = .joinScan t ∧ k' = (k.joinScan c p t).2) := by
  have hx := h.ctl
  cases hs with
  | enterExec => exact absurd rfl he
  | threadExit hc hp => exact ⟨_, _, _, rfl, hc, .inl ⟨_, hp, rfl⟩⟩
  | joinScan hc hp => exact ⟨_, _, _, rfl, hc, .inr ⟨_, hp, rfl⟩⟩
  | @exec _ p _ _ hp => simpa [hp, Ctl.inExec] using hx p
  | @threadKill _ p _ _ _ hp => simpa [hp, Ctl.inExec] using hx p

theorem Execless.step {e : Event ncpu} (h : Execless k) (hn : NoExec e)
    (he : k.step e = some k') : Execless k' := by
  refine step_inv (fun _ _ => Execless.move) (fun hs => ?_) h he
  refine ⟨h.kin.special h.siblingsReady hs, fun q => ?_⟩
  have hx := h.ctl
  obtain ⟨c, ok, p, rfl, -, ⟨v, -, rfl⟩ | ⟨t, -, rfl⟩⟩ := h.special hn hs
  · grind
  · rcases joinScan_cases k c p t with ⟨z, -, -, he⟩ | ⟨-, ⟨-, he⟩ | ⟨-, he⟩⟩ <;>
      grind [Kernel.sleep]

theorem execless_boot : Execless (boot ncpu) :=
  ⟨kin_boot, fun p => by rw [boot_ctl]; split <;> rfl⟩

/-- Without `exec`, a process that is ready stays so until it is picked. -/
theorem Execless.ready {e : Event ncpu} {q : Slot} (h : Execless k) (he : k.step e = some k')
    (hq : (k.proc q).state = .runnable) (hd : ∀ c, e ≠ .dispatch c q) :
    (k'.proc q).state = .runnable := by
  have hch := step_change h.kin.sound he q
  generalize (k'.proc q).state = s at hch
  cases hch with
  | @put c ok p _ _ hkill =>
    have := h.ctl p
    cases hp : k.ctl p <;> simp_all [Ctl.killing, Ctl.inExec]
  | picked hp => exact absurd hp (hd _)
  | _ => simp_all

end Kernel
end Xv6
