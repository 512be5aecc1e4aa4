import CourseProjects.FileSystem.Consistency
import CourseProjects.FileSystem.Mkfs

/-!
# The links of the inodes

* `links_match`: in a run of calls and boots that meet the guard (`Tidy`), the link count of each
  allocated inode is the number of the entries for it, and an inode without entries is held by
  an open file or a process;
* `myopen_leaks`: `sys_myopen` takes back the link of the directory `tmp` twice.
-/

namespace FileSystem

open CString Function Tx

variable {b s s' : Fs} {disk disk' : ℕ → Dinode} {l : List Hold} {ip dp : Fin ninode}
  {n m i : ℕ} {r : Bool} {name : List UInt8} {p : Fin nproc} {path : CharPtr}

/-! ### link -/

/-- `dirlink` leaves the disk, or it has written an entry. -/
theorem Holds.dirlink {a : Hold} (hb : Base b) (hclosed : Closed disk) (h : Holds b disk l s)
    (ha : a ∈ l) (hm : (disk a.inum).LinkedDir) :
    Yields (dirlink a.ip name n) s fun c t => c = -1 ∧ Holds b disk l t ∨
      c = 0 ∧ findEntry name (disk a.inum).data = none ∧ (disk a.inum).size % 16 = 0 ∧
        16 * emptyEntry (disk a.inum).data + 16 ≤ maxfile * bsize ∧
        usedBlocks (update disk a.inum
          { disk a.inum with data := linkData (disk a.inum).data name n }) ≤ nblocks ∧
        Holds b (update disk a.inum
          { disk a.inum with data := linkData (disk a.inum).data name n }) l t := by
  intro c t hrun
  have hinode := h.inode_eq ha
  obtain ⟨-, ⟨rfl, ip, i, u, hl, -, rfl⟩ | ⟨rfl, hnone, hfull, hsize, hused, rfl⟩⟩ :=
    dirlink_cases hrun
  · -- the name is there
    obtain ⟨-, hfind, hu⟩ := h.dirlookup hb ha (some (ip, i)) u hl
    exact .inl ⟨rfl, hu.put (hclosed.inTree_entryAt hm hfind).linked.2⟩
  · have ht : Holds b (update disk a.inum
        { disk a.inum with data := linkData (disk a.inum).data name n }) l
          (s.link a.ip name n) := by
      rw [link_eq, hinode]
      exact h.setInode ha _
    rw [hinode] at hnone hfull hsize
    refine .inr ⟨rfl, hnone, hfull, hsize, ?_, ht⟩
    rw [← ht.disk]
    exact hused

/-- The link that is not made is taken back. -/
theorem Holds.lower (hs : Sound disk) (hn : InTree disk n)
    (h : Holds b (update disk n (disk n).raise) (⟨ip, n, r⟩ :: l) s) :
    Yields (FileSystem.iupdate ip fun d => { d with nlink := short (d.nlink - 1) }) s fun _ t =>
      Holds b disk (⟨ip, n, r⟩ :: l) t := by
  refine (h.iupdate List.mem_cons_self _).mono fun _ t ht => ?_
  have heq : update (update disk n (disk n).raise) n (disk n).raise.lower = disk := by
    rw [update_idem, hs.toTree.lower_raise hs.used hn.one_le hn.lt hn.linked.1, update_eq_self]
  rw [update_self] at ht
  rw [← heq]
  exact ht

theorem consistent_link {new : CharPtr} (hc : Consistent b) :
    Yields (sysLink p path new) b fun _ => Consistent := by
  have hb := hc.base
  have hs := hc.sound
  refine ((Holds.init (s := b)).namei hb hs.closed).bind fun o t ho => ?_
  cases o with
  | none => exact yields_pure (ho.consistent hc (.refl hs) (by simp))
  | some ip =>
    obtain ⟨n, r, ht, hn⟩ := ho
    refine ht.ilock.bind fun _ t ht => ?_
    refine Yields.bind (P := fun d t' => d = b.disk n ∧ t' = t) ?_ fun d t' ⟨hd, ht'⟩ => ?_
    · exact yields_get_bind (yields_pure ⟨ht.inode_eq List.mem_cons_self, rfl⟩)
    · subst hd ht'
      split
      · exact ht.release hn.linked.2 fun _ ht => ht.consistent hc (.refl hs) (by simp)
      · rename_i hdir
        refine (ht.iupdate List.mem_cons_self _).bind fun _ t ht => ht.iunlock.bind fun _ t ht => ?_
        change Holds b (update b.disk n (b.disk n).raise) _ t at ht
        have hclosed := (hs.toTree.shape_raise hs.used hn.one_le hn.lt hn.linked.1 hn.linked).closed
        -- without the link, its inode is as it was
        have hbad : ∀ t', Holds b (update b.disk n (b.disk n).raise) [⟨ip, n, true⟩] t' →
            Yields (ilock ip >>= fun _ =>
              FileSystem.iupdate ip (fun d => { d with nlink := short (d.nlink - 1) }) >>= fun _ =>
              iunlockput ip >>= fun _ => pure (-1)) t' fun _ => Consistent := by
          intro t' ht'
          refine ht'.ilock.bind fun _ t ht => (ht.lower hs hn).bind fun _ t ht => ?_
          exact ht.release hn.linked.2 fun _ ht => ht.consistent hc (.refl hs) (by simp)
        refine (ht.nameiparent hb hclosed).bind fun o t ho => ?_
        rcases o with _ | ⟨dp, name⟩
        · exact hbad t ho
        · obtain ⟨m, r, ht, hm, hname⟩ := ho
          have hmn : m ≠ n := by
            rintro rfl
            rw [update_self] at hm
            exact hdir hm.1
          have hA : update b.disk n (b.disk n).raise m = b.disk m := update_of_ne hmn _ _
          rw [hA] at hm
          refine ht.ilock.bind fun _ t ht => yields_get_bind ?_
          have hinum : (t.icache ip).inum = n :=
            (ht.inum _ (List.mem_cons_of_mem _ List.mem_cons_self)).1
          rw [hinum]
          refine (ht.dirlink hb hclosed List.mem_cons_self (by rwa [hA])).bind fun c t ho => ?_
          rcases ho with ⟨rfl, ht⟩ | ⟨rfl, hnone, hfull, hsize, hused, ht⟩
          · refine (ht.iunlockput (by rw [hA]; exact hm.2)).bind fun _ t ht => ?_
            rw [if_pos (by decide)]
            exact hbad t ht
          · simp only [hA] at hnone hfull hsize hused ht
            have hg := Grows.link hs hn hdir ⟨hm, hname, hnone, hfull, hsize⟩ hused
            have hraise : (b.disk n).raise.nlink ≠ 0 :=
              ((hs.toTree.sameShape_raise hs.used hn.one_le hn.lt hn.linked.1 hn.linked).2.2
                hn.linked).1.2
            refine (ht.iunlockput (by rw [update_self]; exact hm.2)).bind fun _ t ht => ?_
            rw [if_neg (by decide)]
            refine (ht.iput (by rw [update_of_ne hmn.symm, update_self]; exact hraise)).bind ?_
            exact fun _ t ht => yields_pure (ht.consistent hc hg (by simp))

/-! ### unlink -/

/-- If a path leads to an inode, this holds of it in the state after `namei`. -/
def Leads (s : Fs) (p : Fin nproc) (path : CharPtr) (Q : Fin ninode → Fs → Prop) : Prop :=
  match (namei p path).run s with
  | .ok (some ip, t) => Q ip t
  | _ => True

instance {Q : Fin ninode → Fs → Prop} [∀ ip t, Decidable (Q ip t)] :
    Decidable (Leads s p path Q) :=
  match h : (namei p path).run s with
  | .ok (some ip, t) => decidable_of_iff (Q ip t) (by rw [Leads, h])
  | .ok (none, _) => isTrue (by rw [Leads, h]; trivial)
  | .error _ => isTrue (by rw [Leads, h]; trivial)

theorem Leads.run {Q : Fin ninode → Fs → Prop} (h : Leads s p path Q)
    (hn : (namei p path).run s = .ok (some ip, s')) : Q ip s' := by
  rw [Leads, hn] at h
  exact h

/-- The inode has no reference but those of the files and processes that have it open, and the
one that is given to the caller: the path leads to an inode with another link, or to such a one. -/
def OnlyHeld (ip : Fin ninode) (t : Fs) : Prop :=
  (t.inode ip).nlink = 1 → (t.icache ip).ref = t.holders ip + 1

instance (ip : Fin ninode) (t : Fs) : Decidable (OnlyHeld ip t) :=
  inferInstanceAs (Decidable (_ → _))

/-- An entry with a name that is neither `.` nor `..` may be removed. -/
theorem removable_of_findEntry (hs : Sound disk) (hm : (disk m).LinkedDir)
    (hdot : namecmp name dot ≠ 0) (hdotdot : namecmp name dotdot ≠ 0)
    (hfind : findEntry name (disk m).data = some i)
    (hempty : (disk (entryAt (disk m).data i).inum).type = .dir →
      isdirempty (disk (entryAt (disk m).data i).inum) = true) :
    Removable disk m (entryAt (disk m).data i).inum i := by
  obtain ⟨hlt, hnamed⟩ := findEntry_some hfind
  have hget := getElem?_entryAt hlt
  refine ⟨hm, ?_, ⟨_, hget, rfl⟩, hnamed.1, hempty⟩
  rw [hs.entries_eq hm] at hget
  match i, hget with
  | 0, hget =>
    rw [List.getElem?_cons_zero, Option.some.injEq] at hget
    rw [← hget] at hnamed
    exact absurd hnamed.2 hdot
  | 1, hget =>
    rw [List.getElem?_cons_succ, List.getElem?_cons_zero, Option.some.injEq] at hget
    rw [← hget] at hnamed
    exact absurd hnamed.2 hdotdot
  | i + 2, _ => omega

/-- The entry is overwritten, and the link `..` taken back. -/
theorem Holds.removeEntry (hs : Sound disk) (hr : Removable disk m n i)
    (h : Holds b disk (⟨dp, m, r⟩ :: l) s) :
    Yields (writei dp zeroDirent (16 * i) >>= fun _ => dropDotdot (disk n).type dp) s fun _ t =>
      Holds b (update disk m ((disk m).bereft (disk n).type i)) (⟨dp, m, r⟩ :: l) t ∧
        usedBlocks (update disk m ((disk m).bereft (disk n).type i)) ≤ nblocks := by
  have hinode : s.inode dp = disk m := h.inode_eq List.mem_cons_self
  obtain ⟨de, -, -, hget⟩ := hr.kid
  obtain ⟨hlt, -⟩ := List.getElem?_eq_some_iff.1 hget
  have hlen : (clearData (disk m).data i).length = (disk m).data.length := size_clearData hlt
  have hsize := hs.size m hr.dir
  rw [length_entries] at hlt
  rw [Dinode.size] at hsize
  refine Yields.bind (P := fun _ t => Holds b (update disk m
    { disk m with data := clearData (disk m).data i }) (⟨dp, m, r⟩ :: l) t) ?_ fun _ t ht => ?_
  · intro c t hrun
    have hwrite := writei_inside hrun (by rw [hinode, hr.dir.1]; decide)
      (by rw [hinode, Dinode.size]; omega) (by rw [length_zeroDirent]; omega)
    rw [hwrite.2, Fs.write, hinode]
    exact h.setInode List.mem_cons_self _
  · have hused : usedBlocks (update disk m ((disk m).bereft (disk n).type i)) ≤ nblocks := by
      exact (usedBlocks_update_le (blocks_congr hlen).le).trans hs.used
    unfold dropDotdot
    split
    · rename_i hd
      refine (ht.iupdate List.mem_cons_self _).mono fun _ t ht => ⟨?_, hused⟩
      rw [update_self, update_idem] at ht
      rw [Dinode.bereft, if_pos hd]
      exact ht
    · rename_i hd
      refine yields_pure ⟨?_, hused⟩
      rw [Dinode.bereft, if_neg hd]
      exact ht

/-- What `iput` leaves when the entry of an inode has been removed. -/
theorem Holds.consistent_put (hc : Consistent b) (hr : Removable b.disk m n i)
    (hn : InTree b.disk n)
    (hheld : (b.disk n).nlink = 1 → (b.icache ip).ref = b.holders ip)
    (hused : usedBlocks (unlinkDisk b.disk m n i) ≤ nblocks)
    (h : Holds b (unlinkDisk b.disk m n i) [⟨ip, n, true⟩] s) : Consistent (s.put ip) := by
  have hs : Sound (unlinkDisk b.disk m n i) := ⟨hc.sound.toTree.unlink hr hc.sound.used, hused⟩
  have hm : (unlinkDisk b.disk m n i m).nlink ≠ 0 := by
    rw [unlinkDisk, update_of_ne (hc.sound.toTree.removable_linked hr).2.2.1.symm, update_self]
    exact (hc.sound.toTree.parent_unlink hr hc.sound.used).dir'.2
  have hat : unlinkDisk b.disk m n i n = (b.disk n).lower := update_self _ _ _
  -- no other inode has lost a link but the directory, which has others
  have hother : ∀ k, k ≠ n → Orphan (unlinkDisk b.disk m n i) k → Orphan b.disk k := by
    rintro k hkn ⟨hk, hk', hkf, hzero⟩
    by_cases hkm : k = m
    · exact absurd (hkm ▸ hzero) hm
    · rw [unlinkDisk, update_of_ne hkn, update_of_ne hkm] at hkf hzero
      exact ⟨hk, hk', hkf, hzero⟩
  obtain ⟨hinum, hvalid⟩ := h.inum _ List.mem_cons_self
  by_cases hlast : s.Last ip
  · have hput := h.put_of_last hc.base hlast
    have hzero : (unlinkDisk b.disk m n i n).nlink = 0 := by
      rw [← h.inode_eq List.mem_cons_self]
      exact hlast.2.1
    have hg := Grows.alike (v := { unlinkDisk b.disk m n i n with type := .free, data := [] }) hs
      (.inr ⟨hzero, rfl⟩)
      ((usedBlocks_update_le (by rw [blocks_of_nil rfl]; exact Nat.zero_le _)).trans
        hused)
    refine hput.consistent_of_orphan hc hg.sound (by simp) fun k hk => .inl ?_
    refine hother k ?_ (hg.orphan k hk)
    rintro rfl
    exact hk.2.2.1 (by rw [update_self])
  · have hput := h.put_of_not_last hlast
    refine hput.consistent_of_orphan hc hs (by simp) fun k hk => ?_
    by_cases hkn : k = n
    · subst hkn
      have hlower := (hc.sound.toTree.short_links hc.sound.used hn.one_le hn.lt hn.linked.1).2
      have hlinks := hc.sound.links k hn.one_le hn.lt hn.linked.1
      have hzero : (b.disk k).lower.nlink = 0 := hat ▸ hk.2.2.2
      have hone : (b.disk k).nlink = 1 := by
        rw [Dinode.lower] at hzero
        dsimp only at hzero
        omega
      have href := hput.ref ip
      have hbase := hc.base.ref ip
      have hput' := ref_put s ip
      have hne : (s.icache ip).ref ≠ 1 := fun h1 => hlast ⟨hvalid rfl, by
        rw [h.inode_eq List.mem_cons_self]
        exact hat ▸ hzero, h1⟩
      rw [List.map_nil, List.count_nil, Nat.cast_zero, add_zero] at href
      refine .inr ⟨ip, (Fs.inum_put ip).trans hinum, ?_, ?_, ?_⟩
      · rw [valid_put hlast]
        exact hvalid rfl
      · rw [href, hput.holders]
        exact hheld hone
      · omega
    · exact .inl (hother k hkn hk)

/-- What `unlink` does with an entry that it has found. -/
theorem consistent_removeEntry (hc : Consistent b) (hr : Removable b.disk m n i)
    (hn : InTree b.disk n) (hheld : (b.disk n).nlink = 1 → (b.icache ip).ref = b.holders ip)
    (h : Holds b b.disk [⟨ip, n, true⟩, ⟨dp, m, true⟩] s) :
    Yields (writei dp zeroDirent (16 * i) >>= fun _ => dropDotdot (b.disk n).type dp >>= fun _ =>
      iunlockput dp >>= fun _ =>
      FileSystem.iupdate ip (fun d => { d with nlink := short (d.nlink - 1) }) >>= fun _ =>
      iunlockput ip >>= fun _ => (pure 0 : Op ℤ)) s fun _ => Consistent := by
  have hs := hc.sound
  have hnm := (hs.toTree.removable_linked hr).2.2.1
  rw [← bind_assoc]
  refine (h.swap.removeEntry hs hr).bind fun _ t ⟨ht, hused⟩ => ?_
  have hm : (update b.disk m ((b.disk m).bereft (b.disk n).type i) m).nlink ≠ 0 := by
    rw [update_self]
    exact (hs.toTree.parent_unlink hr hs.used).dir'.2
  refine (ht.iunlockput hm).bind fun _ t ht =>
    (ht.iupdate List.mem_cons_self _).bind fun _ t ht => ?_
  change Holds b (update _ n (Dinode.lower (update b.disk m _ n))) _ t at ht
  rw [update_of_ne hnm, ← unlinkDisk] at ht
  have hused' : usedBlocks (unlinkDisk b.disk m n i) ≤ nblocks := by
    refine (usedBlocks_update_le (blocks_congr ?_).le).trans hused
    rw [update_of_ne hnm, Dinode.lower]
  refine Yields.bind (P := fun _ => Consistent) ?_ fun _ _ ht => yields_pure ht
  refine ht.iunlock.bind fun _ t ht => ?_
  intro _ t' hput
  obtain ⟨-, heq⟩ := iput_eq_ok.1 hput
  cases heq
  exact ht.consistent_put hc hr hn hheld hused'

/-- Where `unlink` finds its inode is where the path leads. -/
theorem onlyHeld_of_leads {t : Fs} (hb : Base b) (hm : (b.disk m).LinkedDir)
    (h : Holds b b.disk [⟨dp, m, r⟩] s)
    (hpath : (nameiparent p path).run b = .ok (some (dp, name), s))
    (hg : Leads b p path OnlyHeld)
    (hd : (dirlookup dp name).run (s.lock dp) = .ok (some (ip, i), t))
    (ht : Holds b b.disk [⟨ip, n, false⟩, ⟨dp, m, true⟩] t) :
    (b.disk n).nlink = 1 → (b.icache ip).ref = b.holders ip := by
  intro hone
  have hl := h.lock
  have href := hl.one_le_ref hb List.mem_cons_self
  have hlocked : (t.icache dp).locked = true := by
    rw [iget_locked (dirlookup_eq_ok.1 hd).2.2 href, Fs.lock, Fs.icache_setSlot_self]
  have href' := ht.one_le_ref hb (List.mem_cons_of_mem _ List.mem_cons_self)
  have hput : (iunlockput dp).run t = .ok ((), (t.unlock dp).put dp) :=
    iunlockput_eq_ok.2 ⟨href', hlocked, rfl⟩
  have hheld := hg.run (namei_of_nameiparent hpath hd hput)
  have hunlocked : Holds b b.disk _ (t.unlock dp) := ht.swap.unlock
  have hend := hunlocked.put hm.2
  have hcount := hend.ref ip
  have hinode : Fs.inode _ ip = b.disk n := hend.inode_eq List.mem_cons_self
  rw [OnlyHeld, hinode, hend.holders, hcount] at hheld
  have := hheld hone
  rw [List.map_singleton, List.count_singleton_self, Nat.cast_one] at this
  omega

theorem consistent_unlink (hc : Consistent b) (hg : Leads b p path OnlyHeld) :
    Yields (sysUnlink p path) b fun _ => Consistent := by
  have hb := hc.base
  have hs := hc.sound
  have hdone : ∀ {t : Fs}, Holds b b.disk [] t → Consistent t := fun ht =>
    ht.consistent hc (.refl hs) (by simp)
  refine (((Holds.init (s := b)).nameiparent hb hs.closed).and yields_run).bind
    fun o s ⟨ho, hpath⟩ => ?_
  rcases o with _ | ⟨dp, name⟩
  · exact yields_pure (hdone ho)
  · obtain ⟨m, r, h, hm, -⟩ := ho
    refine (h.ilock.and yields_run).bind fun _ t ⟨ht, hrun⟩ => yields_get_bind ?_
    obtain ⟨-, -, -, heq⟩ := ilock_eq_ok.1 hrun
    cases heq
    split
    · exact ht.release hm.2 fun _ ht => hdone ht
    · split
      · exact ht.release hm.2 fun _ ht => hdone ht
      · rename_i hname
        rw [not_or] at hname
        refine ((ht.dirlookup hb List.mem_cons_self).and yields_run).bind ?_
        rintro o t ⟨⟨_, ho⟩, hd⟩
        rcases o with _ | ⟨ip, i⟩
        · exact ho.2.2.release hm.2 fun _ ht => hdone ht
        · have hn := hs.closed.inTree_entryAt hm ho.1
          have hheld := onlyHeld_of_leads hb hm h hpath hg hd ho.2
          refine ho.2.ilock.bind fun _ t ht => ?_
          refine Yields.bind (P := fun d t' => d = b.disk (entryAt (b.disk m).data i).inum ∧ t' = t)
            ?_ ?_
          · exact yields_get_bind (yields_pure ⟨ht.inode_eq List.mem_cons_self, rfl⟩)
          · rintro d t' ⟨rfl, rfl⟩
            refine yields_failIf_bind fun _ => yields_failIf_bind fun _ => ?_
            split
            · refine (ht.iunlockput hn.linked.2).bind fun _ t ht => ?_
              exact ht.release hm.2 fun _ ht => hdone ht
            · rename_i hempty
              have hr := removable_of_findEntry hs hm hname.1 hname.2 ho.1 fun hdir => by
                simpa [hdir] using hempty
              exact consistent_removeEntry hc hr hn hheld ht

/-! ### The users -/

/-- The table of the users is written to something that is no directory. -/
theorem Holds.updateUserS (hs : Sound disk) (hn : InTree disk n) (hdir : (disk n).type ≠ .dir)
    (h : Holds b disk (⟨ip, n, true⟩ :: l) s) :
    Yields (updateUserS ip) s fun _ t => ∃ disk', Grows disk disk' ∧
      Holds b disk' (⟨ip, n, true⟩ :: l) t ∧ InTree disk' n := by
  refine yields_get_bind (Yields.bind ?_ fun _ t ht => yields_pure ht)
  intro c t hrun
  have hinode : s.inode ip = disk n := h.inode_eq List.mem_cons_self
  rcases writei_cases hrun with ⟨-, rfl⟩ | ⟨-, -, hused, -, rfl⟩
  · exact ⟨disk, .refl hs, h, hn⟩
  · have ht := h.setInode List.mem_cons_self
      { disk n with data := splice (disk n).data s.info.bytes 0 }
    rw [Fs.write, hinode] at hused ⊢
    refine ⟨_, ?_, ht, hn.one_le, hn.lt, ?_⟩
    · refine .alike hs (.inl ⟨rfl, rfl, fun hd => absurd hd.1 hdir⟩) ?_
      rw [← ht.disk]
      exact hused
    · rw [update_self]
      exact hn.linked

theorem Holds.setInfo {t : UserInfo} (h : Holds b disk l s) :
    Yields (setInfo t) s fun _ => Holds b disk l := by
  refine yields_modify ?_
  have hinfo : Holds b { s with info := t }.disk l { s with info := t } := h.congr rfl rfl rfl
  rw [← h.disk]
  exact hinfo

theorem Holds.makeHome {username : CharPtr} (hb : Base b) (hs : Sound disk)
    (h : Holds b disk [] s) :
    Yields (makeHome p username) s fun _ t => ∃ disk', Grows disk disk' ∧ Holds b disk' [] t := by
  refine (h.namei hb hs.closed).bind fun o t ho => ?_
  cases o with
  | some ip =>
    obtain ⟨n, r, ht, hn⟩ := ho
    exact (ht.iput hn.linked.2).mono fun _ t ht => ⟨disk, .refl hs, ht⟩
  | none =>
    refine (Holds.create hb hs ho (by decide)).bind fun o t ho => yields_ofOption_bind ?_
    rintro ip rfl
    obtain ⟨disk', n, hg, ht, hn⟩ := ho
    refine (ht.setRights hg.sound hn ?_).bind ?_
    · exact fun _ => ⟨rfl, rfl, rfl⟩
    · intro _ t ⟨disk'', hg', ht, hn⟩
      exact (ht.iunlockput hn.linked.2).mono fun _ t ht => ⟨disk'', hg.trans hg', ht⟩

/-- The path `/userS` leads to no directory. -/
def NoDir (ip : Fin ninode) (t : Fs) : Prop := (t.inode ip).type ≠ .dir

instance (ip : Fin ninode) (t : Fs) : Decidable (NoDir ip t) := inferInstanceAs (Decidable (_ ≠ _))

theorem consistent_addUser {username password : CharPtr} (hc : Consistent b)
    (hg : b.info.IsRoot → Leads b p userSPath NoDir) :
    Yields (sysAddUser p username password) b fun _ => Consistent := by
  have hb := hc.base
  have hs := hc.sound
  refine yields_get_bind ?_
  split
  · exact yields_pure hc
  · rename_i hroot
    refine (((Holds.init (s := b)).namei hb hs.closed).and yields_run).bind fun o t ⟨ho, hrun⟩ => ?_
    cases o with
    | none => exact yields_pure (ho.consistent hc (.refl hs) (by simp))
    | some userS =>
      obtain ⟨n, r, ht, hn⟩ := ho
      have hdir : (b.disk n).type ≠ .dir := by
        have hnodir := (hg (not_not.1 hroot)).run hrun
        rw [NoDir, ht.inode_eq List.mem_cons_self] at hnodir
        exact hnodir
      refine ht.ilock.bind fun _ t ht => ht.iunlock.bind fun _ t ht =>
        ht.ilock.bind fun _ t ht => ?_
      refine yields_get_bind ?_
      dsimp only
      split
      · exact ht.release hn.linked.2 fun _ ht => ht.consistent hc (.refl hs) (by simp)
      · refine ht.setInfo.bind fun _ t ht => (ht.updateUserS hs hn hdir).bind fun _ t ho => ?_
        obtain ⟨disk', hg, ht, hn⟩ := ho
        refine (ht.iunlockput hn.linked.2).bind fun _ t ht => ?_
        refine (ht.makeHome hb hg.sound).bind fun _ t ⟨disk'', hg', ht⟩ => yields_pure ?_
        exact ht.consistent hc (hg.trans hg') (by simp)

/-- `deleteUser` keeps a reference, to an inode with links. -/
theorem consistent_deleteUser {username : CharPtr} (hc : Consistent b)
    (hg : b.info.IsRoot → Leads b p userSPath NoDir) :
    Yields (sysDeleteUser p username) b fun _ => Consistent := by
  have hb := hc.base
  have hs := hc.sound
  refine yields_get_bind ?_
  split
  · exact yields_pure hc
  · rename_i hroot
    refine (((Holds.init (s := b)).namei hb hs.closed).and yields_run).bind fun o t ⟨ho, hrun⟩ => ?_
    refine yields_ofOption_bind ?_
    rintro userS rfl
    obtain ⟨n, r, ht, hn⟩ := ho
    have hdir : (b.disk n).type ≠ .dir := by
      have hnodir := (hg (not_not.1 hroot)).run hrun
      rw [NoDir, ht.inode_eq List.mem_cons_self] at hnodir
      exact hnodir
    refine ht.ilock.bind fun _ t ht => yields_get_bind ?_
    dsimp only
    split
    · refine ht.iunlock.bind fun _ t ht => yields_pure ?_
      exact ht.consistent hc (.refl hs) (by simpa using hn.linked.2)
    · refine ht.setInfo.bind fun _ t ht => (ht.updateUserS hs hn hdir).bind fun _ t ho => ?_
      obtain ⟨disk', hg, ht, hn⟩ := ho
      refine ht.iunlock.bind fun _ t ht => yields_pure ?_
      exact ht.consistent hc hg (by simpa using hn.linked.2)

/-! ### Runs -/

/-- What happens to the system: a call of a process, or it is booted from its disk. -/
inductive Event
  | call (p : Fin nproc) (c : Call)
  | reboot

/-- The state after an event. -/
def life (s : Fs) : Event → Option Fs
  | .call p c => step s (p, c)
  | .reboot => some (boot s.disk)

/-- The condition on the events: no `myopen`; `unlink` takes the last link only of an inode to
which there is no reference but those of the files and processes that have it open; `root` adds
and deletes users only while `/userS` is no directory; and there is no boot while an inode
without links is open. The processes stay in the root directory. -/
def Tidy (s : Fs) : Event → Prop
  | .reboot => ∀ n < ninodes, ¬ Orphan s.disk n
  | .call p c =>
    match c with
    | .myopen _ => False
    | .chdir _ => False
    | .unlink path => Leads s p path OnlyHeld
    | .addUser _ _ => s.info.IsRoot → Leads s p userSPath NoDir
    | .deleteUser _ => s.info.IsRoot → Leads s p userSPath NoDir
    | _ => True

instance : Decidable (Orphan disk n) := inferInstanceAs (Decidable (_ ∧ _))

instance (s : Fs) (e : Event) : Decidable (Tidy s e) := by
  unfold Tidy
  split
  · infer_instance
  · split <;> infer_instance

/-- The link count of each allocated inode is the number of the entries for it, other than `.`,
and an inode without entries is held by an open file or a process. -/
def LinksMatch (s : Fs) : Prop :=
  ∀ n, 1 ≤ n → n < ninodes → (s.disk n).type ≠ .free → (s.disk n).nlink = naming s.disk n ∧
    (naming s.disk n = 0 → ∃ ip, (s.icache ip).inum = n ∧ 0 < s.holders ip)

theorem Consistent.linksMatch (h : Consistent s) : LinksMatch s := by
  intro n hn hn' hfree
  have hlinks := h.sound.links n hn hn' hfree
  refine ⟨hlinks, fun hz => ?_⟩
  rw [hz, Nat.cast_zero] at hlinks
  obtain ⟨ip, hinum, -, href, hone⟩ := h.orphan n ⟨hn, hn', hfree, hlinks⟩
  exact ⟨ip, hinum, by omega⟩

/-- A disk on which each allocated inode has links may be booted from. -/
theorem consistent_boot (hs : Sound disk) (ho : ∀ n, ¬ Orphan disk n) : Consistent (boot disk) where
  sound := hs
  holders_le ip := (settled_boot disk ip).1.ge
  cwd p ip hp := by
    rw [boot] at hp
    dsimp only at hp
    split at hp
    · cases hp
      rfl
    · cases hp
  orphan n hn := absurd hn (ho n)

/-- The disk that `mkfs` makes may be booted from. -/
theorem consistent_mkfs {files : List (List UInt8 × List UInt8)} (h : Fits files) :
    Consistent (boot (mkfs files)) := by
  refine consistent_boot ⟨tree_mkfs h, h.used⟩ fun n ⟨_, _, hfree, hzero⟩ => ?_
  rcases type_mkfs hfree with rfl | ⟨i, file, rfl, hfile⟩
  · cases hzero
  · rw [mkfs_file hfile] at hzero
    cases hzero

/-- A call that meets the condition keeps the links right. -/
theorem consistent_call {c : Call} {a : ℤ} (hc : Consistent s) (hg : Tidy s (.call p c))
    (h : (c.op p).run s = .ok (a, s')) : Consistent s' := by
  cases c with
  | openPath path omode => exact consistent_open hc a s' h
  | dup fd => exact consistent_dup hc a s' h
  | close fd => exact consistent_close hc a s' h
  | mkdir path => exact consistent_mkdir hc a s' h
  | mknod path major minor => exact consistent_mknod hc a s' h
  | link old new => exact consistent_link hc a s' h
  | unlink path => exact consistent_unlink hc hg a s' h
  | chdir path => exact hg.elim
  | chmod path mode => exact consistent_chmod hc a s' h
  | exec path r => exact consistent_exec hc a s' h
  | myopen typed => exact hg.elim
  | addUser username password => exact consistent_addUser hc hg a s' h
  | deleteUser username => exact consistent_deleteUser hc hg a s' h
  | login id pwd =>
    rw [Call.op, sysLogin, get_bind] at h
    obtain ⟨_, t, hm, h⟩ := bind_eq_ok.1 h
    cases modify_eq_ok.1 hm
    cases pure_eq_ok.1 h
    exact hc.congr rfl rfl rfl rfl
  | logout =>
    rw [Call.op, sysLogout, get_bind] at h
    obtain ⟨_, t, hm, h⟩ := bind_eq_ok.1 h
    cases modify_eq_ok.1 hm
    cases pure_eq_ok.1 h
    exact hc.congr rfl rfl rfl rfl

/-- In a run of events that meet the condition the links match the directory tree. -/
theorem links_match {es : List Event} (hc : Consistent s) (hg : Trace.Along life Tidy s es)
    (hrun : Trace.run life s es = some s') : LinksMatch s' := by
  refine (Trace.run_inv (I := Consistent) (fun t e t' ht hp hstep => ?_) hc hg hrun).linksMatch
  cases e with
  | call p c =>
    obtain ⟨a, h⟩ := step_eq_some.1 hstep
    exact consistent_call ht hp h
  | reboot =>
    cases hstep
    exact consistent_boot ht.sound fun n hn => hp n hn.2.1 hn

/-- The system after a boot, with `root` as its user. -/
def asRoot : Fs := { boot withUserS with info := UserInfo.zero.myopen [] }

/-- `root` removes a file while it is open, and a directory; users come and go. -/
def linking : List Event :=
  [.call 0 (.mkdir bob), .call 0 (.openPath filePath (oCreate ||| oRdwr)),
    .call 0 (.link filePath tmpPath), .call 0 (.unlink filePath), .call 0 (.unlink tmpPath),
    .call 0 (.addUser bob bob), .call 0 (.deleteUser bob), .call 0 (.close 0),
    .call 0 (.unlink bob), .reboot]

theorem links_match_linking :
    ∃ s', Trace.run life asRoot linking = some s' ∧ LinksMatch s' := by
  have hfits : Fits [(userSPath.bytes.drop 1, [])] := by
    refine ⟨fun file hfile => ?_, by decide, by decide +kernel⟩
    rw [List.mem_singleton.1 hfile]
    exact ⟨⟨by decide, by decide, by decide⟩, by decide, by decide⟩
  have hc : Consistent asRoot := (consistent_mkfs hfits).congr rfl rfl rfl rfl
  have h : decide (Trace.Along life Tidy asRoot linking) &&
      (Trace.run life asRoot linking).isSome := by decide +kernel
  rw [Bool.and_eq_true, decide_eq_true_eq, Option.isSome_iff_exists] at h
  obtain ⟨hg, s', hrun⟩ := h
  exact ⟨s', hrun, links_match hc hg hrun⟩

/-- Each `myopen` leaves an inode that is not free, without an entry, and a block. -/
theorem myopen_leaks : ∃ s s', step (boot withUserS) (0, .myopen []) = some s ∧
    step s (0, .myopen []) = some s' ∧ ¬ LinksMatch s ∧ (s.disk 3).nlink = -1 ∧
    naming s.disk 3 = 0 ∧ s.freeInode = some 4 ∧ s'.freeInode = some 5 ∧ s.used < s'.used := by
  have h : (step (boot withUserS) (0, .myopen [])).any fun s =>
      (step s (0, .myopen [])).any fun s' => decide ((s.disk 3).nlink = -1 ∧ naming s.disk 3 = 0 ∧
        s.freeInode = some 4 ∧ s'.freeInode = some 5 ∧ s.used < s'.used) &&
        decide ((s.disk 3).type ≠ .free) := by decide +kernel
  obtain ⟨s, hs, h⟩ := (Option.any_eq_true _ _).1 h
  obtain ⟨s', hs', h⟩ := (Option.any_eq_true _ _).1 h
  rw [Bool.and_eq_true, decide_eq_true_eq, decide_eq_true_eq] at h
  obtain ⟨⟨hlink, hnaming, hrest⟩, hfree⟩ := h
  refine ⟨s, s', hs, hs', fun hm => ?_, hlink, hnaming, hrest⟩
  have hmatch := (hm 3 (by decide) (by decide) hfree).1
  rw [hlink, hnaming] at hmatch
  cases hmatch

end FileSystem
