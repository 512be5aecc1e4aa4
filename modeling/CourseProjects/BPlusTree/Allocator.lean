import CourseProjects.Lib.Run
import CourseProjects.BPlusTree.Rep

/-!
# The page allocator

Whoever calls `new_page` and `usetofree` remembers which pages it was handed out and which it freed,
the last one first (`Client`); to the pages that it was handed out it may write what it likes.

The free list of the file goes from `hp->fpo` from page to page through their `parent_page_offset`
(`FreeList`). It is the list of the freed pages, and together with the pages that are handed out they
are the pages of the file (`Pooled`).

* `allocator_sane`: this holds along every run that frees and writes only pages that are handed out.
-/

namespace CourseProjects.BPlusTree

open Function

/-- The free list from `off` on, each page pointing to the next by its
    `parent_page_offset`, up to `0`. -/
def FreeList (pages : ℕ → Page) (off : ℕ) : List ℕ → Prop
  | [] => off = 0
  | a :: as => off = a ∧ FreeList pages (pages a).parentPageOffset as

theorem FreeList.congr {pages pages' : ℕ → Page} {off : ℕ} {as : List ℕ}
    (h : FreeList pages off as) (hp : ∀ a ∈ as, pages' a = pages a) : FreeList pages' off as := by
  induction as generalizing off with
  | nil => exact h
  | cons a as ih =>
    refine ⟨h.1, ?_⟩
    rw [hp a List.mem_cons_self]
    exact ih h.2 fun b hb => hp b (List.mem_cons_of_mem _ hb)

/-- A write to a page that is not free. -/
theorem FreeList.update {pages : ℕ → Page} {off a : ℕ} {as : List ℕ} (h : FreeList pages off as)
    (ha : a ∉ as) (p : Page) : FreeList (update pages a p) off as :=
  h.congr fun _ hb => update_of_ne (ne_of_mem_of_not_mem hb ha) _ _

/-- A call of the allocator, or a write to a page. -/
inductive PageCall
  | newPage
  | usetofree (wbf : ℕ)
  | write (off : ℕ) (p : Page)

/-- The table, with the pages that are handed out and those that were freed since they were. -/
structure Client where
  table : Table
  handed : List ℕ
  freed : List ℕ

namespace Client

variable (s : Client)

/-- Before the first call. -/
def fresh : Client := ⟨freshTable, [], []⟩

def call : PageCall → Except Fault (Option ℕ × Client)
  | .newPage => do
    let (a, t) ← s.table.newPage
    pure (some a, ⟨t, a :: s.handed, s.freed.erase a⟩)
  | .usetofree wbf => do
    let t ← s.table.usetofree wbf
    pure (none, ⟨t, s.handed.erase wbf, wbf :: s.freed⟩)
  | .write off p => pure (none, { s with table := s.table.pwritePage off p })

/-- Only pages that are handed out are freed and written. -/
def Owned : PageCall → Prop
  | .newPage => True
  | .usetofree a | .write a _ => a ∈ s.handed

/-- The free list is the list of the freed pages, each of them once, the header is on disk, and
    `new_page` would return a page that is not handed out: the one freed last, or else a new one at
    the end of the file. -/
structure Sane : Prop where
  list : FreeList s.table.disk.pages s.table.hp.fpo s.freed
  nodup : s.freed.Nodup
  header : s.table.disk.header = s.table.hp
  newPage : ∃ a t, s.table.newPage = .ok (a, t) ∧ a ∉ s.handed ∧ (∀ b ∈ s.freed.head?, a = b) ∧
    (s.freed = [] → a = s.table.disk.size)

/-- The file is made of the pages that are handed out and those on the free list. -/
structure Pooled (n : ℕ) : Prop where
  laid : Laid s.table n
  list : FreeList s.table.disk.pages s.table.hp.fpo s.freed
  pages : (s.handed ++ s.freed).Perm (offsets n)

variable {s} {n a : ℕ} {c : PageCall}

theorem pooled_fresh : fresh.Pooled 0 := ⟨⟨rfl, rfl, rfl⟩, rfl, .refl _⟩

namespace Pooled

theorem nodup (h : s.Pooled n) : (s.handed ++ s.freed).Nodup :=
  h.pages.nodup_iff.2 (offsets_nodup n)

theorem mem_offsets_of_handed (h : s.Pooled n) (ha : a ∈ s.handed) : a ∈ offsets n :=
  h.pages.subset (List.mem_append_left _ ha)

theorem not_mem_freed (h : s.Pooled n) (ha : a ∈ s.handed) : a ∉ s.freed :=
  fun ha' => (List.nodup_append.1 h.nodup).2.2 a ha a ha' rfl

/-- `new_page` returns the page freed last, or else a new one. -/
theorem newPage (h : s.Pooled n) :
    ∃ a s', s.call .newPage = .ok (some a, s') ∧ (∃ m, s'.Pooled m) ∧ a ∉ s.handed ∧
      (∀ b ∈ s.freed.head?, a = b) ∧ (s.freed = [] → a = s.table.disk.size) := by
  rcases hf : s.freed with _ | ⟨a, as⟩
  · have h0 : s.table.hp.fpo = 0 := by
      have := h.list
      rwa [hf] at this
    obtain ⟨t, hnew, hl, hpages, hhp, -, -⟩ := h.laid.newPage_fresh h0
    have hperm : s.handed.Perm (offsets n) := by
      have := h.pages
      rwa [hf, List.append_nil] at this
    refine ⟨pageOffset n, ⟨t, pageOffset n :: s.handed, []⟩, ?_, ⟨n + 1, hl, ?_, ?_⟩, ?_, ?_, ?_⟩
    · rw [call, hnew, ok_bind, hf]
      rfl
    · change t.hp.fpo = 0
      rw [hhp]
      exact h0
    · rw [List.append_nil, offsets_succ]
      exact (hperm.cons _).trans (List.perm_append_singleton _ _).symm
    · exact fun hmem => not_mem_offsets n (hperm.subset hmem)
    · exact fun b hb => absurd hb (Option.not_mem_none b)
    · exact fun _ => h.laid.size.symm
  · have hlist := h.list
    rw [hf] at hlist
    obtain ⟨hfpo, hrest⟩ := hlist
    have hnd := h.nodup
    have hperm := h.pages
    rw [hf] at hnd hperm
    have ha : a ∈ offsets n := hperm.subset (List.mem_append_right _ List.mem_cons_self)
    obtain ⟨t, hnew, hl, hpages, hhp⟩ := h.laid.newPage_reuse (hfpo ▸ ha)
    rw [hfpo] at hnew hpages hhp
    refine ⟨a, ⟨t, a :: s.handed, as⟩, ?_, ⟨n, hl, ?_, ?_⟩, ?_, ?_, fun h => nomatch h⟩
    · rw [call, hnew, ok_bind, hf]
      exact congrArg (fun l => Except.ok (some a, Client.mk t (a :: s.handed) l))
        (List.erase_cons_head a as)
    · rw [hpages, hhp]
      refine hrest.update ?_ _
      exact (List.nodup_cons.1 (List.nodup_append.1 hnd).2.1).1
    · exact List.perm_middle.symm.trans hperm
    · exact fun hmem => (List.nodup_append.1 hnd).2.2 a hmem a List.mem_cons_self rfl
    · exact fun b hb => Option.some.inj hb

theorem sane (h : s.Pooled n) : s.Sane := by
  obtain ⟨a, s', hcall, -, ha, hhead, hend⟩ := h.newPage
  refine ⟨h.list, (List.nodup_append.1 h.nodup).2.1, h.laid.header, ?_⟩
  rcases hnew : s.table.newPage with e | ⟨b, t⟩
  · rw [call, hnew] at hcall
    cases hcall
  · rw [call, hnew] at hcall
    cases hcall
    exact ⟨a, t, rfl, ha, hhead, hend⟩

theorem call (h : s.Pooled n) (hc : s.Owned c) : ∃ r s', s.call c = .ok (r, s') ∧ ∃ m, s'.Pooled m := by
  cases c with
  | newPage =>
    obtain ⟨a, s', hcall, hs', -⟩ := h.newPage
    exact ⟨some a, s', hcall, hs'⟩
  | usetofree a =>
    have hfree : a ∉ s.freed := h.not_mem_freed hc
    obtain ⟨t, hfreed, hl, hhp, -, hpages⟩ := h.laid.usetofree (h.mem_offsets_of_handed hc)
    refine ⟨none, ⟨t, s.handed.erase a, a :: s.freed⟩, ?_, n, hl, ⟨?_, ?_⟩, ?_⟩
    · rw [Client.call, hfreed]
      rfl
    · rw [hhp]
    · rw [hpages, update_self]
      exact h.list.update hfree _
    · refine List.perm_middle.trans (.trans ?_ h.pages)
      exact (List.perm_cons_erase hc).symm.append_right s.freed
  | write a p =>
    refine ⟨none, _, rfl, n, h.laid.pwritePage (h.mem_offsets_of_handed hc) p, ?_, h.pages⟩
    exact h.list.update (h.not_mem_freed hc) p

end Pooled

/-- Along every run from a fresh table that frees and writes only pages that are handed out, the free
    list is the list of the freed pages, and `new_page` returns the last of them or a new page. -/
theorem allocator_sane {cs : List PageCall} (hcs : Run.Along call Owned fresh cs) :
    ∃ rs s, Run.run call fresh cs = .ok (rs, s) ∧ s.Sane := by
  have hstep : ∀ s c, (∃ n, Pooled s n) → s.Owned c →
      ∃ r s', s.call c = .ok (r, s') ∧ ∃ n, Pooled s' n := fun s c ⟨_, h⟩ hc => h.call hc
  obtain ⟨rs, s, hrun, n, hs⟩ := Run.run_inv hstep ⟨0, pooled_fresh⟩ hcs
  exact ⟨rs, s, hrun, hs.sane⟩

/-- A page is handed out, freed and handed out again. -/
theorem allocator_sane_reuse :
    ∃ rs s, Run.run call fresh [.newPage, .usetofree 4096, .newPage] = .ok (rs, s) ∧ s.Sane := by
  refine allocator_sane ⟨trivial, fun r s hr => ?_⟩
  cases hr
  refine ⟨List.mem_singleton.2 rfl, fun r s _ => ⟨trivial, fun _ _ _ => trivial⟩⟩

end Client

end CourseProjects.BPlusTree
