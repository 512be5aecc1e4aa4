import CourseProjects.FileSystem.Contents

/-!
# The blocks that are freed

`itrunc` clears the bits of the blocks of an inode, the direct ones first, then those that the
indirect block lists, then the indirect block. `bfree` halts when a bit is clear already.

* `Allotted.itrunc`: it never halts, and the blocks of the others are as they were.
-/

namespace FileSystem

open Bitmap Function Storage Tx Words

variable {v w w' : Volume} {O : Finset (Fin ninodes × Option ℕ)} {n m : Fin ninodes}
  {o : Option ℕ} {B : Set ℕ} {b k t : ℕ}

/-- The bits of some blocks have been cleared in the map, and no other block was written. -/
structure Released (v w : Volume) (B : Set ℕ) : Prop where
  block : ∀ c ≠ bmapstart, w.block c = v.block c
  used : ∀ c < fssize, w.Used c ↔ v.Used c ∧ c ∉ B

theorem Released.refl (v : Volume) : Released v v ∅ :=
  ⟨fun _ _ => rfl, fun _ _ => (and_iff_left (Set.notMem_empty _)).symm⟩

theorem Released.trans {B' : Set ℕ} (h : Released v w B) (h' : Released w w' B') :
    Released v w' (B ∪ B') :=
  ⟨fun c hc => (h'.block c hc).trans (h.block c hc), fun c hc => by
    rw [h'.used c hc, h.used c hc, Set.mem_union, not_or, and_assoc]⟩

/-- A block that is marked can be freed. -/
theorem bfree_run (hb : b < fssize) (hu : w.Used b) :
    ∃ w', (bfree b).run w = .ok ((), w') ∧ Released w w' {b} ∧ w'.inode = w.inode := by
  have hmap : b / bpb + bmapstart = bmapstart := by
    rw [Nat.div_eq_of_lt (hb.trans (by decide)), Nat.zero_add]
  refine ⟨w.setBlock (b / bpb + bmapstart) (unmark (w.block (b / bpb + bmapstart)) (b % bpb)),
    ?_, ⟨fun c hc => ?_, fun c hc => ?_⟩, rfl⟩
  · rw [bfree, get_bind]
    exact failIf_bind_eq_ok.2 ⟨not_not.2 hu, rfl⟩
  · rw [hmap]
    exact update_of_ne hc _ _
  · rw [Volume.used_iff hc, Volume.used_iff hc, hmap, Nat.mod_eq_of_lt (hb.trans (by decide)),
      Set.mem_singleton_iff, and_comm, ← bit_unmark]
    have hself : (w.setBlock bmapstart (unmark (w.block bmapstart) b)).block bmapstart =
        unmark (w.block bmapstart) b := by simp [Volume.setBlock]
    rw [hself]

/-- The blocks of an inode before the block `t`. -/
def Volume.blocksBelow (v : Volume) (O : Finset (Fin ninodes × Option ℕ)) (n : Fin ninodes)
    (t : ℕ) : Set ℕ := {b | ∃ k < t, (n, some k) ∈ O ∧ v.addr n k = b}

theorem blocksBelow_zero : v.blocksBelow O n 0 = ∅ := by
  ext b
  refine iff_of_false ?_ (Set.notMem_empty b)
  rintro ⟨k, hk, -⟩
  exact Nat.not_lt_zero k hk

theorem blocksBelow_succ_of_mem (h : (n, some t) ∈ O) :
    v.blocksBelow O n (t + 1) = v.blocksBelow O n t ∪ {v.addr n t} := by
  ext b
  constructor
  · rintro ⟨k, hk, hmem, rfl⟩
    rcases Nat.lt_succ_iff_lt_or_eq.1 hk with hk | rfl
    · exact .inl ⟨k, hk, hmem, rfl⟩
    · exact .inr rfl
  · rintro (⟨k, hk, hmem, rfl⟩ | rfl)
    · exact ⟨k, hk.trans (Nat.lt_succ_self t), hmem, rfl⟩
    · exact ⟨t, Nat.lt_succ_self t, h, rfl⟩

theorem blocksBelow_succ_of_not_mem (h : (n, some t) ∉ O) :
    v.blocksBelow O n (t + 1) = v.blocksBelow O n t := by
  ext b
  constructor
  · rintro ⟨k, hk, hmem, rfl⟩
    rcases Nat.lt_succ_iff_lt_or_eq.1 hk with hk | rfl
    · exact ⟨k, hk, hmem, rfl⟩
    · exact absurd hmem h
  · rintro ⟨k, hk, hmem, rfl⟩
    exact ⟨k, hk.trans (Nat.lt_succ_self t), hmem, rfl⟩

/-- The block `t` is freed after those before it, unless there is none. -/
theorem Allotted.free_next (h : Allotted v O) (ht : t < maxfile)
    (hn : t < ndirect ∨ (n, none) ∈ O) (hw : Released v w (v.blocksBelow O n t)) :
    if v.addr n t = 0 then Released v w (v.blocksBelow O n (t + 1))
    else ∃ w', (bfree (v.addr n t)).run w = .ok ((), w') ∧
      Released v w' (v.blocksBelow O n (t + 1)) ∧ w'.inode = w.inode := by
  have haddr := h.addr n t ht hn
  split
  · rename_i h0
    rwa [blocksBelow_succ_of_not_mem fun hmem => haddr.2 hmem h0]
  · rename_i h0
    have hmem := haddr.1 h0
    have hlt : v.addr n t < fssize := (h.range _ hmem).2
    have hu : w.Used (v.addr n t) := by
      refine (hw.used _ hlt).2 ⟨(h.used _ hlt).2 (.inr ⟨_, hmem, rfl⟩), ?_⟩
      -- It is none of those that were freed before.
      rintro ⟨k, hk, hmem', he⟩
      have hx := h.inj _ hmem' _ hmem he
      cases hx
      exact lt_irrefl _ hk
    obtain ⟨w', hrun, hrel, hinode⟩ := bfree_run hlt hu
    rw [blocksBelow_succ_of_mem hmem]
    exact ⟨w', hrun, hw.trans hrel, hinode⟩

/-- The inodes when one has lost its first block numbers. -/
def Volume.cut (v : Volume) (n : Fin ninodes) (t : ℕ) : Fin ninodes → Layout :=
  update v.inode n { v.inode n with addrs := fun k => if k < t then 0 else (v.inode n).addrs k }

theorem cut_zero (v : Volume) (n : Fin ninodes) : v.cut n 0 = v.inode := by
  simp [Volume.cut]

theorem cut_self (v : Volume) (n : Fin ninodes) (t : ℕ) :
    (v.cut n t n).addrs t = (v.inode n).addrs t := by
  simp [Volume.cut]

theorem setAddr_cut (hw : w.inode = v.cut n t) : (w.setAddr n t 0).inode = v.cut n (t + 1) := by
  have hlt (k : ℕ) : k < t + 1 ↔ k = t ∨ k < t := Nat.lt_succ_iff_lt_or_eq.trans or_comm
  simp only [Volume.setAddr, hw, Volume.cut, update_self, update_idem]
  refine congrArg (update v.inode n) (congrArg (Layout.mk · _) ?_)
  funext k
  rw [update_apply]
  simp only [hlt, ite_or]

theorem cut_succ (h : (v.inode n).addrs t = 0) : v.cut n (t + 1) = v.cut n t := by
  refine congrArg (update v.inode n) (congrArg (Layout.mk · _) ?_)
  funext k
  rcases Nat.lt_trichotomy k t with hk | rfl | hk
  · rw [if_pos (by omega), if_pos hk]
  · rw [if_pos (Nat.lt_succ_self k), if_neg (lt_irrefl k), h]
  · rw [if_neg (by omega), if_neg hk.not_gt]

/-- The direct blocks are freed, one after the other. -/
theorem Allotted.freeDirect (h : Allotted v O) (n : Fin ninodes) :
    ∃ w, ((List.range ndirect).forM (freeDirect n)).run v = .ok ((), w) ∧
      w.inode = v.cut n ndirect ∧ Released v w (v.blocksBelow O n ndirect) := by
  refine forM_range (I := fun t w => w.inode = v.cut n t ∧ Released v w (v.blocksBelow O n t))
    (fun t ht w => ?_) ⟨(cut_zero v n).symm, blocksBelow_zero ▸ .refl v⟩
  rintro ⟨hinode, hrel⟩
  have hnext := h.free_next (n := n) (ht.trans (by decide)) (.inl ht) hrel
  have haddr : v.addr n t = (v.inode n).addrs t := if_pos ht
  have hw : (w.inode n).addrs t = (v.inode n).addrs t := by rw [hinode, cut_self]
  rw [haddr] at hnext
  rw [FileSystem.freeDirect, get_bind, hw]
  by_cases h0 : (v.inode n).addrs t = 0
  · rw [if_pos h0] at hnext
    rw [if_pos h0]
    exact ⟨w, rfl, hinode.trans (cut_succ h0).symm, hnext⟩
  · rw [if_neg h0] at hnext
    rw [if_neg h0]
    obtain ⟨w', hrun, hrel', hinode'⟩ := hnext
    exact ⟨w'.setAddr n t 0, bind_eq_ok.2 ⟨(), w', hrun, rfl⟩,
      setAddr_cut (hinode'.trans hinode), hrel'.block, hrel'.used⟩

/-- Then those of the indirect block. -/
theorem Allotted.freeListed (h : Allotted v O) (hn : (n, none) ∈ O)
    (hinode : w.inode = v.cut n ndirect) (hw : Released v w (v.blocksBelow O n ndirect)) :
    ∃ w', ((List.range nindirect).forM (freeListed ((v.inode n).addrs ndirect))).run w =
      .ok ((), w') ∧ w'.inode = v.cut n ndirect ∧ Released v w' (v.blocksBelow O n maxfile) := by
  refine forM_range (I := fun t w => w.inode = v.cut n ndirect ∧
    Released v w (v.blocksBelow O n (ndirect + t))) (fun t ht u => ?_) ⟨hinode, hw⟩
  rintro ⟨hinode, hrel⟩
  have hnext := h.free_next (n := n) (Nat.add_lt_add_left ht ndirect) (.inr hn) hrel
  have haddr : v.addr n (ndirect + t) = word (v.block ((v.inode n).addrs ndirect)) t := by
    rw [Volume.addr, if_neg (Nat.not_lt.2 (Nat.le_add_right _ _)), Nat.add_sub_cancel_left]
  have hblock : u.block ((v.inode n).addrs ndirect) = v.block ((v.inode n).addrs ndirect) :=
    hrel.block _ (h.place_ne_map hn)
  rw [haddr] at hnext
  rw [FileSystem.freeListed, get_bind, hblock]
  by_cases h0 : word (v.block ((v.inode n).addrs ndirect)) t = 0
  · rw [if_pos h0] at hnext
    rw [if_pos h0]
    exact ⟨u, rfl, hinode, hnext⟩
  · rw [if_neg h0] at hnext
    rw [if_neg h0]
    obtain ⟨w', hrun, hrel', hinode'⟩ := hnext
    exact ⟨w', hrun, hinode'.trans hinode, hrel'⟩

/-! ### An inode without blocks -/

/-- The blocks of an inode, with its indirect block. -/
def Volume.blocksOf (v : Volume) (O : Finset (Fin ninodes × Option ℕ)) (n : Fin ninodes) : Set ℕ :=
  {b | ∃ o, (n, o) ∈ O ∧ v.place n o = b}

theorem Allotted.blocksOf_of_none (h : Allotted v O) (hn : (n, none) ∈ O) :
    v.blocksOf O n = v.blocksBelow O n maxfile ∪ {(v.inode n).addrs ndirect} := by
  ext b
  constructor
  · rintro ⟨_ | k, hmem, rfl⟩
    · exact .inr rfl
    · exact .inl ⟨k, h.lt n k hmem, hmem, rfl⟩
  · rintro (⟨k, -, hmem, rfl⟩ | rfl)
    · exact ⟨some k, hmem, rfl⟩
    · exact ⟨none, hn, rfl⟩

theorem Allotted.blocksOf_of_not_none (h : Allotted v O) (hn : (n, none) ∉ O) :
    v.blocksOf O n = v.blocksBelow O n ndirect := by
  ext b
  constructor
  · rintro ⟨_ | k, hmem, rfl⟩
    · exact absurd hmem hn
    · exact ⟨k, not_le.1 fun hk => hn (h.none_mem n k hmem hk), hmem, rfl⟩
  · rintro ⟨k, -, hmem, rfl⟩
    exact ⟨some k, hmem, rfl⟩

/-- An inode whose blocks have been freed: the others have theirs, and what is in them stays. -/
theorem Allotted.released (h : Allotted v O) (hrel : Released v w (v.blocksOf O n))
    (hself : ∀ k ≤ ndirect, (w.inode n).addrs k = 0)
    (hother : ∀ m, m ≠ n → w.inode m = v.inode m) :
    Allotted w (O.filter fun x => x.1 ≠ n) ∧
      ∀ m j, (m, some j) ∈ O → m ≠ n → w.data m j = v.data m j := by
  have hind : ∀ m, m ≠ n → (w.inode m).addrs ndirect = (v.inode m).addrs ndirect := fun m hm => by
    rw [hother m hm]
  have haddr : ∀ m j, m ≠ n → (j < ndirect ∨ (m, none) ∈ O) → w.addr m j = v.addr m j := by
    intro m j hm hj
    by_cases hlt : j < ndirect
    · rw [Volume.addr, if_pos hlt, Volume.addr, if_pos hlt, hother m hm]
    · have hblock : w.block ((v.inode m).addrs ndirect) = v.block ((v.inode m).addrs ndirect) :=
        hrel.block _ (h.place_ne_map (hj.resolve_left hlt))
      rw [Volume.addr, if_neg hlt, Volume.addr, if_neg hlt, hind m hm, hblock]
  have hplace : ∀ x ∈ O, x.1 ≠ n → w.place x.1 x.2 = v.place x.1 x.2 := by
    rintro ⟨m, p⟩ hx hm
    cases p with
    | none => exact hind m hm
    | some j => exact haddr m j hm ((lt_or_ge j ndirect).imp_right (h.none_mem m j hx))
  have hmem {m : Fin ninodes} {p : Option ℕ} :
      (m, p) ∈ (O.filter fun x => x.1 ≠ n) ↔ (m, p) ∈ O ∧ m ≠ n := Finset.mem_filter
  refine ⟨⟨fun m k hk => h.lt m k (hmem.1 hk).1, fun m k hk hle => ?_, fun m k hk hk' => ?_,
    fun m => ?_, fun x hx y hy hxy => ?_, fun x hx => ?_, fun b hb => ?_⟩, fun m j hj hm => ?_⟩
  · exact hmem.2 ⟨h.none_mem m k (hmem.1 hk).1 hle, (hmem.1 hk).2⟩
  · rw [hmem]
    rw [hmem] at hk'
    by_cases hm : m = n
    · subst hm
      have hk'' := hk'.resolve_right fun hn => hn.2 rfl
      refine iff_of_false (fun hne => hne ?_) fun hx => hx.2 rfl
      rw [Volume.addr, if_pos hk'', hself k hk''.le]
    · rw [haddr m k hm (hk'.imp_right And.left), h.addr m k hk (hk'.imp_right And.left)]
      exact (and_iff_left hm).symm
  · rw [hmem]
    by_cases hm : m = n
    · subst hm
      exact iff_of_false (fun hne => hne (hself ndirect le_rfl)) fun hx => hx.2 rfl
    · rw [hind m hm, h.indirect m]
      exact (and_iff_left hm).symm
  · obtain ⟨hx, hxn⟩ := Finset.mem_filter.1 hx
    obtain ⟨hy, hyn⟩ := Finset.mem_filter.1 hy
    rw [hplace x hx hxn, hplace y hy hyn] at hxy
    exact h.inj x hx y hy hxy
  · obtain ⟨hx, hxn⟩ := Finset.mem_filter.1 hx
    rw [hplace x hx hxn]
    exact h.range x hx
  · rw [hrel.used b hb, h.used b hb]
    constructor
    · rintro ⟨hlt | ⟨x, hx, rfl⟩, hno⟩
      · exact .inl hlt
      · have hxn : x.1 ≠ n := fun he => hno ⟨x.2, he ▸ hx, by rw [he]⟩
        exact .inr ⟨x, Finset.mem_filter.2 ⟨hx, hxn⟩, hplace x hx hxn⟩
    · rintro (hlt | ⟨x, hx, rfl⟩)
      · refine ⟨.inl hlt, ?_⟩
        rintro ⟨o, ho, rfl⟩
        exact absurd hlt (not_lt.2 (h.range _ ho).1)
      · obtain ⟨hx, hxn⟩ := Finset.mem_filter.1 hx
        rw [hplace x hx hxn]
        refine ⟨.inr ⟨x, hx, rfl⟩, ?_⟩
        rintro ⟨o, ho, he⟩
        exact hxn (congrArg Prod.fst (h.inj _ ho _ hx he)).symm
  · rw [Volume.data, haddr m j hm ((lt_or_ge j ndirect).imp_right (h.none_mem m j hj))]
    exact hrel.block _ (h.place_ne_map hj)

/-- `itrunc` frees the blocks of an inode, and never halts. -/
theorem Allotted.itrunc (h : Allotted v O) (n : Fin ninodes) :
    ∃ w, (itrunc n).run v = .ok ((), w) ∧ Allotted w (O.filter fun x => x.1 ≠ n) ∧
      (∀ m j, (m, some j) ∈ O → m ≠ n → w.data m j = v.data m j) ∧
      ∀ m, (w.inode m).size = if m = n then 0 else (v.inode m).size := by
  obtain ⟨w₁, hrun₁, hinode₁, hrel₁⟩ := h.freeDirect n
  have hind : (w₁.inode n).addrs ndirect = (v.inode n).addrs ndirect := by rw [hinode₁, cut_self]
  -- After the rest of the call, whether there is an indirect block or not.
  have hend : ∃ w₂, (FileSystem.itrunc n).run v = .ok ((), w₂.setSize n 0) ∧
      w₂.inode = v.cut n (ndirect + 1) ∧ Released v w₂ (v.blocksOf O n) := by
    by_cases h0 : (v.inode n).addrs ndirect = 0
    · have hn : (n, none) ∉ O := fun hn => (h.indirect n).2 hn h0
      refine ⟨w₁, ?_, hinode₁.trans (cut_succ h0).symm, h.blocksOf_of_not_none hn ▸ hrel₁⟩
      rw [FileSystem.itrunc]
      refine bind_eq_ok.2 ⟨(), w₁, hrun₁, ?_⟩
      rw [get_bind, hind, if_pos h0]
      rfl
    · have hn : (n, none) ∈ O := (h.indirect n).1 h0
      obtain ⟨w₂, hrun₂, hinode₂, hrel₂⟩ := h.freeListed hn hinode₁ hrel₁
      have hlt : (v.inode n).addrs ndirect < fssize := (h.range _ hn).2
      have hu : w₂.Used ((v.inode n).addrs ndirect) := by
        refine (hrel₂.used _ hlt).2 ⟨(h.used _ hlt).2 (.inr ⟨_, hn, rfl⟩), ?_⟩
        rintro ⟨k, -, hk, he⟩
        exact nomatch congrArg Prod.snd (h.inj _ hk (n, none) hn he)
      obtain ⟨w₃, hrun₃, hrel₃, hinode₃⟩ := bfree_run hlt hu
      have hcut := setAddr_cut (hinode₃.trans hinode₂)
      have hrel := hrel₂.trans hrel₃
      refine ⟨w₃.setAddr n ndirect 0, ?_, hcut, h.blocksOf_of_none hn ▸ ⟨hrel.block, hrel.used⟩⟩
      rw [FileSystem.itrunc]
      refine bind_eq_ok.2 ⟨(), w₁, hrun₁, ?_⟩
      rw [get_bind, hind, if_neg h0]
      refine bind_eq_ok.2 ⟨(), w₂, hrun₂, ?_⟩
      exact bind_eq_ok.2 ⟨(), w₃, hrun₃, rfl⟩
  obtain ⟨w₂, hrun, hinode, hrel⟩ := hend
  have hself (k : ℕ) (hk : k ≤ ndirect) : (w₂.inode n).addrs k = 0 := by
    rw [hinode, Volume.cut, update_self]
    exact if_pos (Nat.lt_succ_of_le hk)
  have hother (m : Fin ninodes) (hm : m ≠ n) : w₂.inode m = v.inode m := by
    rw [hinode, Volume.cut, update_of_ne hm]
  obtain ⟨hal, hdata⟩ := h.released hrel hself hother
  refine ⟨w₂.setSize n 0, hrun, hal.setSize n 0, fun m j hj hm => ?_, fun m => ?_⟩
  · rw [data_setSize, hdata m j hj hm]
  · rw [Volume.setSize_size]
    split
    · rfl
    · rename_i hm
      rw [hother m hm]

end FileSystem
