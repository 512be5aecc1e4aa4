import CourseProjects.FileSystem.References

/-!
# The directories on a path

`namex` goes from directory to directory, each locked and checked before an element is looked
up in it, or before it is returned as the parent. The loop is told a second time with a record
of these directories (`namexVisits`), which changes nothing else (`map_namexVisits`).

* `visits_permitted`: a user other than `root` owns every directory of the record, or others
  may search it;
* `traversal_mediated`: so it is on every path, and a path that leads nowhere gives back the
  references that it took.
-/

namespace FileSystem

open CString Function Tx

/-! ### The loop with a record -/

/-- The loop of `namex`, with the directories in which an element is looked up, and the one that
is returned as the parent. -/
def namexVisits (nameiparent : Bool) : List (List UInt8) → Fin ninode →
    Op (Option (Fin ninode × List UInt8) × List Dinode)
  | [], ip =>
    if nameiparent then do
      iput ip
      pure (none, [])
    else
      pure (some (ip, []), [])
  | name :: rest, ip => do
    ilock ip
    let s ← get
    if (s.inode ip).type ≠ .dir then do
      iunlockput ip
      pure (none, [])
    else if getModeBit s.info (s.inode ip) modeXusr modeXoth = 0 then do
      iunlockput ip
      pure (none, [])
    else if nameiparent ∧ rest = [] then do
      iunlock ip
      pure (some (ip, name), [s.inode ip])
    else
      match ← dirlookup ip name with
      | none => do
        iunlockput ip
        pure (none, [s.inode ip])
      | some (next, _) => do
        iunlockput ip
        let r ← namexVisits nameiparent rest next
        pure (r.1, s.inode ip :: r.2)

/-- `namex` with the record. -/
def namexVisiting (p : Fin nproc) (path : CharPtr) (nameiparent : Bool) :
    Op (Option (Fin ninode × List UInt8) × List Dinode) := do
  let ip ← start p path.bytes
  namexVisits nameiparent (elements path.bytes.length path.bytes) ip

/-- Without the record, it is the loop. -/
theorem map_namexVisits (b : Bool) (names : List (List UInt8)) (ip : Fin ninode) :
    Prod.fst <$> namexVisits b names ip = namexLoop b names ip := by
  induction names generalizing ip with
  | nil =>
    cases b with
    | true => simp [namexVisits, namexLoop]
    | false => simp [namexVisits, namexLoop]
  | cons name rest ih =>
    unfold namexVisits namexLoop
    rw [map_bind]
    refine congrArg _ (funext fun _ => ?_)
    rw [map_bind]
    refine congrArg _ (funext fun s => ?_)
    split
    · simp
    · split
      · simp
      · split
        · simp
        · rw [map_bind]
          refine congrArg _ (funext fun r => ?_)
          rcases r with _ | ⟨next, i⟩
          · simp
          · simp [← ih next]

theorem map_namexVisiting (p : Fin nproc) (path : CharPtr) (b : Bool) :
    Prod.fst <$> namexVisiting p path b = namex p path b := by
  unfold namexVisiting namex
  rw [map_bind]
  exact congrArg _ (funext fun ip => map_namexVisits b _ ip)

variable {s s' : Fs} {p : Fin nproc} {path : CharPtr} {b : Bool}
  {r : Option (Fin ninode × List UInt8)}

/-! ### What the record says -/

/-- The user may search a directory: it is the owner, or others may. -/
def UserInfo.MaySearch (t : UserInfo) (d : Dinode) : Prop :=
  t.Owns d ∨ modeXoth &&& d.permission ≠ 0

instance (t : UserInfo) (d : Dinode) : Decidable (t.MaySearch d) :=
  inferInstanceAs (Decidable (_ ∨ _))

theorem maySearch_of_getModeBit {t : UserInfo} {d : Dinode} (hinit : t.initial = true)
    (hroot : ¬ t.IsRoot) (h : getModeBit t d modeXusr modeXoth ≠ 0) : t.MaySearch d := by
  by_cases ho : t.Owns d
  · exact .inl ho
  · exact .inr ((getModeBit_other hinit hroot ho).1 h)

/-- The directories of the record have been checked. -/
theorem visits_permitted {t : UserInfo} (hinit : t.initial = true) (hroot : ¬ t.IsRoot)
    (names : List (List UInt8)) {ip : Fin ninode} {ds : List Dinode} (hs : s.info = t)
    (h : (namexVisits b names ip).run s = .ok ((r, ds), s')) : ∀ d ∈ ds, t.MaySearch d := by
  have hR := unaltered_accounting
  induction names generalizing ip s r ds with
  | nil =>
    have hds : ds = [] := by
      unfold namexVisits at h
      split at h
      · obtain ⟨_, _, -, h⟩ := bind_eq_ok.1 h
        cases pure_eq_ok.1 h
        rfl
      · cases pure_eq_ok.1 h
        rfl
    rw [hds]
    exact fun _ hd => absurd hd List.not_mem_nil
  | cons name rest ih =>
    unfold namexVisits at h
    obtain ⟨_, u, hl, h⟩ := bind_eq_ok.1 h
    have hu : u.info = t := (hR.ilock ip s _ u hl).2.trans hs
    rw [get_bind] at h
    split at h
    · obtain ⟨_, _, -, h⟩ := bind_eq_ok.1 h
      cases pure_eq_ok.1 h
      exact fun _ hd => absurd hd List.not_mem_nil
    · split at h
      · obtain ⟨_, _, -, h⟩ := bind_eq_ok.1 h
        cases pure_eq_ok.1 h
        exact fun _ hd => absurd hd List.not_mem_nil
      · next hbit =>
        -- the directory passes the check before anything else happens to it
        have hip : t.MaySearch (u.inode ip) := maySearch_of_getModeBit hinit hroot (hu ▸ hbit)
        split at h
        · obtain ⟨_, _, -, h⟩ := bind_eq_ok.1 h
          cases pure_eq_ok.1 h
          exact fun d hd => List.mem_singleton.1 hd ▸ hip
        · obtain ⟨o, v, hd, h⟩ := bind_eq_ok.1 h
          have hv : v.info = t := (hR.dirlookup ip name u o v hd).2.trans hu
          rcases o with _ | ⟨next, i⟩
          · obtain ⟨_, _, -, h⟩ := bind_eq_ok.1 h
            cases pure_eq_ok.1 h
            exact fun d hd => List.mem_singleton.1 hd ▸ hip
          · obtain ⟨_, w, hp, h⟩ := bind_eq_ok.1 h
            obtain ⟨q, x, hrest, h⟩ := bind_eq_ok.1 h
            cases pure_eq_ok.1 h
            have hw : w.info = t := (hR.iunlockput ip v _ w hp).2.trans hv
            intro d hd
            rcases List.mem_cons.1 hd with rfl | hd
            · exact hip
            · exact ih hw hrest d hd

/-! ### The references of a path -/

/-- The open files and the current directories are the same. -/
theorem pointers_accounting : Accounting
    (fun (_ : ℤ) s s' => s'.ftable = s.ftable ∧ s'.cwd = s.cwd) (fun _ => 0) (fun _ => 0) where
  zero s := ⟨rfl, rfl⟩
  add h h' := ⟨h'.1.trans h.1, h'.2.trans h.2⟩
  iget n s ip s' h := by
    rcases iget_eq_ok.1 h with ⟨-, rfl⟩ | ⟨-, -, rfl⟩
    · exact ⟨rfl, rfl⟩
    · exact ⟨rfl, rfl⟩
  idup ip s r s' h := by
    cases idup_eq_ok.1 h
    exact ⟨rfl, rfl⟩
  ilock ip s u s' h := by
    obtain ⟨-, -, -, heq⟩ := ilock_eq_ok.1 h
    cases heq
    exact ⟨rfl, rfl⟩
  iunlock ip s u s' h := by
    obtain ⟨-, -, heq⟩ := iunlock_eq_ok.1 h
    cases heq
    exact ⟨rfl, rfl⟩
  iput ip s u s' h := by
    obtain ⟨-, heq⟩ := iput_eq_ok.1 h
    cases heq
    rw [Fs.put]
    split
    · exact ⟨rfl, rfl⟩
    · exact ⟨rfl, rfl⟩
  ialloc type s ip s' h := by
    obtain ⟨n, -, h⟩ := ialloc_eq_ok.1 h
    rcases iget_eq_ok.1 h with ⟨-, rfl⟩ | ⟨-, -, rfl⟩
    · exact ⟨rfl, rfl⟩
    · exact ⟨rfl, rfl⟩
  writei ip src off s r s' h := by
    rcases writei_cases h with ⟨-, rfl⟩ | ⟨-, -, -, -, rfl⟩
    · exact ⟨rfl, rfl⟩
    · exact ⟨rfl, rfl⟩
  iupdate ip f hf s u s' h := by
    cases iupdate_eq_ok.1 h
    exact ⟨rfl, rfl⟩

/-- A path that leads nowhere leaves every `ref` and every lock as it was. -/
theorem namex_none (h : (namex p path b).run s = .ok (none, s')) (ip : Fin ninode) :
    (s'.icache ip).ref = (s.icache ip).ref ∧ (s'.icache ip).locked = (s.icache ip).locked := by
  have hbooks : s'.books = s.books := by
    have := balance_accounting.namex p path b s none s' h
    rwa [Balance, refOf, Option.elim, add_zero] at this
  obtain ⟨hfiles, hcwd⟩ := pointers_accounting.namex p path b s none s' h
  have hholders : s'.holders ip = s.holders ip := by
    unfold Fs.holders Fs.files Fs.cwds
    rw [hfiles, hcwd]
  have hip := congrFun hbooks ip
  simp only [Fs.books, Prod.mk.injEq, hholders] at hip
  refine ⟨by omega, ?_⟩
  revert hip
  cases (s'.icache ip).locked <;> cases (s.icache ip).locked <;> simp

/-- Once the users are there, a path of a user other than `root` goes through no directory that
the user may not search, and a path that leads nowhere holds no reference. -/
theorem traversal_mediated (h : (namex p path b).run s = .ok (r, s'))
    (hinit : s.info.initial = true) (hroot : ¬ s.info.IsRoot) :
    (∃ ds, (namexVisiting p path b).run s = .ok ((r, ds), s') ∧
      ∀ d ∈ ds, s.info.MaySearch d) ∧
    (r = none → ∀ ip, (s'.icache ip).ref = (s.icache ip).ref) := by
  constructor
  · rw [← map_namexVisiting, map_eq_pure_bind] at h
    obtain ⟨⟨r', ds⟩, t, hrun, h⟩ := bind_eq_ok.1 h
    cases pure_eq_ok.1 h
    refine ⟨ds, hrun, ?_⟩
    obtain ⟨ip, u, hstart, hloop⟩ := bind_eq_ok.1 hrun
    have hu : u.info = s.info := (unaltered_accounting.start p path.bytes s ip u hstart).2
    exact visits_permitted hinit hroot _ hu hloop
  · rintro rfl ip
    exact (namex_none h ip).1

/-- Whether a user other than `root` is there, and gets the parent of the path. -/
def getsParent (s : Fs) (p : Fin nproc) (path : CharPtr) : Bool :=
  match (namex p path true).run s with
  | .ok (some _, _) => decide (s.info.initial = true ∧ ¬ s.info.IsRoot)
  | _ => false

/-- `bob` goes through the root directory, where others may search. -/
theorem traversal_mediated_bob : ∃ s r s', Trace.run step (boot (mkfs [])) writeOnly = some s ∧
    (namex 0 filePath true).run s = .ok (some r, s') ∧
    ∃ ds, (namexVisiting 0 filePath true).run s = .ok ((some r, ds), s') ∧
      ∀ d ∈ ds, s.info.MaySearch d := by
  have h : (Trace.run step (boot (mkfs [])) writeOnly).any (getsParent · 0 filePath) := by
    decide +kernel
  obtain ⟨s, hs, h⟩ := (Option.any_eq_true _ _).1 h
  unfold getsParent at h
  split at h
  · next r s' hrun =>
    obtain ⟨hinit, hroot⟩ := of_decide_eq_true h
    exact ⟨s, r, s', hs, hrun, (traversal_mediated hrun hinit hroot).1⟩
  · cases h

end FileSystem
