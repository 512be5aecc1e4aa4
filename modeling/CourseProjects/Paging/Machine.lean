import CourseProjects.Lib.Transaction
import CourseProjects.Lib.Words
import CourseProjects.Xv6.Vm

/-!
# Frames and page tables

`kalloc.c` and `vm.c` on the memory of the machine. It consists of frames of `PGSIZE` bytes, which
are named by their numbers: the kernel finds the frame `f` at `P2V (PGSIZE * f)`. A call that
panics has no memory after it.
-/

namespace Paging

open Function Tx Words Xv6

/-- Where the first megabyte ends. -/
def EXTMEM : ℕ := 0x100000

/-- Where the physical memory ends. -/
def PHYSTOP : ℕ := 0xE000000

/-- The first address of the devices. -/
def DEVSPACE : ℕ := 0xFE000000

/-- Where the kernel is linked. -/
def KERNLINK : ℕ := KERNBASE + EXTMEM

def P2V (a : ℕ) : ℕ := a + KERNBASE

def V2P (a : ℕ) : ℕ := a - KERNBASE

def PTE_P : ℕ := 1

def PTE_W : ℕ := 2

def PTE_U : ℕ := 4

def PTE_ADDR (pte : ℕ) : ℕ := pte / PGSIZE * PGSIZE

def PTE_FLAGS (pte : ℕ) : ℕ := pte % PGSIZE

def PDX (va : ℕ) : ℕ := va / 2 ^ 22 % 1024

def PTX (va : ℕ) : ℕ := va / 2 ^ 12 % 1024

def PGROUNDDOWN (a : ℕ) : ℕ := a / PGSIZE * PGSIZE

/-- What the linker says about the kernel: where its data starts, and where it ends. -/
structure Kernel where
  data : ℕ
  end_ : ℕ
  kernlink_lt : KERNLINK < data
  dvd_data : PGSIZE ∣ data
  data_le : data ≤ end_
  end_lt : end_ < P2V PHYSTOP

abbrev Page := ℕ → UInt8

/-- The frames, and `kmem.freelist`: a pointer, or zero. -/
structure Machine where
  frame : ℕ → Page
  freelist : ℕ

namespace Machine

variable (m : Machine)

def fill (f : ℕ) (page : Page) : Machine := { m with frame := update m.frame f page }

def setWord (f i x : ℕ) : Machine := m.fill f (Words.setWord (m.frame f) i x)

end Machine

/-- A function of the kernel on the memory, or the panic that it ends in. -/
abbrev MemOp := Tx Machine String

/-! ### `kalloc.c` -/

def kfree (k : Kernel) (f : ℕ) : MemOp Unit := do
  failIf (P2V (PGSIZE * f) < k.end_ ∨ PHYSTOP ≤ PGSIZE * f) "kfree"
  modify fun m =>
    { m.fill f (setWord (fun _ => 1) 0 m.freelist) with freelist := P2V (PGSIZE * f) }

def kalloc : MemOp (Option ℕ) := do
  let m ← get
  if m.freelist = 0 then pure none
  else do
    let r := V2P m.freelist / PGSIZE
    set { m with freelist := word (m.frame r) 0 }
    pure (some r)

/-- The frames of `freerange`, by their numbers. -/
def freerangeFrames (vstart vend : ℕ) : List ℕ :=
  (List.range ((vend - PGROUNDUP vstart) / PGSIZE)).map fun i =>
    V2P (PGROUNDUP vstart) / PGSIZE + i

def freerange (k : Kernel) (vstart vend : ℕ) : MemOp Unit :=
  (freerangeFrames vstart vend).forM (kfree k)

/-! ### `vm.c` -/

/-- The place of the page table entry of an address: in which frame, and the how manieth. -/
def walkpgdir (pgdir va : ℕ) (alloc : Bool) : MemOp (Option (ℕ × ℕ)) := do
  let m ← get
  let pde := word (m.frame pgdir) (PDX va)
  if pde &&& PTE_P ≠ 0 then pure (some (PTE_ADDR pde / PGSIZE, PTX va))
  else if alloc then do
    match ← kalloc with
    | none => pure none
    | some pgtab => do
      modify fun m => m.fill pgtab 0
      modify fun m => m.setWord pgdir (PDX va) (PGSIZE * pgtab ||| PTE_P ||| PTE_W ||| PTE_U)
      pure (some (pgtab, PTX va))
  else pure none

/-- The loop of `mappages`, from the address `a` on, with fuel for all pages. -/
def mapLoop (pgdir perm last : ℕ) : ℕ → ℕ → ℕ → MemOp Bool
  | 0, _, _ => pure true
  | fuel + 1, a, pa => do
    match ← walkpgdir pgdir a true with
    | none => pure false
    | some (pgtab, i) => do
      let m ← get
      failIf (word (m.frame pgtab) i &&& PTE_P ≠ 0) "remap"
      set (m.setWord pgtab i (pa ||| perm ||| PTE_P))
      if a = last then pure true
      else mapLoop pgdir perm last fuel ((a + PGSIZE) % 2 ^ 32) ((pa + PGSIZE) % 2 ^ 32)

/-- Whether the pages got mapped. -/
def mappages (pgdir va size pa perm : ℕ) : MemOp Bool :=
  mapLoop pgdir perm (PGROUNDDOWN ((va + size + (2 ^ 32 - 1)) % 2 ^ 32)) (2 ^ 20) (PGROUNDDOWN va)
    pa

/-- The loop of `deallocuvm`, from the address `a` on, with fuel for all pages. -/
def deallocLoop (k : Kernel) (pgdir oldsz : ℕ) : ℕ → ℕ → MemOp Unit
  | 0, _ => pure ()
  | fuel + 1, a =>
    if a < oldsz then do
      match ← walkpgdir pgdir a false with
      -- The next address is the first one of the next page table.
      | none => deallocLoop k pgdir oldsz fuel ((PDX a + 1) * 2 ^ 22 % 2 ^ 32)
      | some (pgtab, i) => do
        let m ← get
        let pte := word (m.frame pgtab) i
        if pte &&& PTE_P ≠ 0 then do
          failIf (PTE_ADDR pte = 0) "kfree"
          kfree k (PTE_ADDR pte / PGSIZE)
          modify fun m => m.setWord pgtab i 0
        deallocLoop k pgdir oldsz fuel ((a + PGSIZE) % 2 ^ 32)
    else pure ()

def deallocuvm (k : Kernel) (pgdir oldsz newsz : ℕ) : MemOp ℕ :=
  if oldsz ≤ newsz then pure oldsz
  else do
    deallocLoop k pgdir oldsz (2 ^ 20) (PGROUNDUP newsz)
    pure newsz

/-- A page table of `freevm`. -/
def freeTable (k : Kernel) (pgdir i : ℕ) : MemOp Unit := do
  let m ← get
  let pde := word (m.frame pgdir) i
  if pde &&& PTE_P ≠ 0 then kfree k (PTE_ADDR pde / PGSIZE) else pure ()

def freevm (k : Kernel) (pgdir : ℕ) : MemOp Unit := do
  let _ ← deallocuvm k pgdir KERNBASE 0
  (List.range 1024).forM (freeTable k pgdir)
  kfree k pgdir

/-- `struct kmap`. -/
structure Kmap where
  virt : ℕ
  phys_start : ℕ
  phys_end : ℕ
  perm : ℕ

/-- The kernel's mappings. -/
def Kernel.kmap (k : Kernel) : List Kmap :=
  [⟨KERNBASE, 0, EXTMEM, PTE_W⟩,
   ⟨KERNLINK, V2P KERNLINK, V2P k.data, 0⟩,
   ⟨k.data, V2P k.data, PHYSTOP, PTE_W⟩,
   ⟨DEVSPACE, DEVSPACE, 0, PTE_W⟩]

/-- The loop of `setupkvm`. -/
def kmapLoop (k : Kernel) (pgdir : ℕ) : List Kmap → MemOp (Option ℕ)
  | [] => pure (some pgdir)
  | e :: es => do
    if ← mappages pgdir e.virt ((e.phys_end + 2 ^ 32 - e.phys_start) % 2 ^ 32) e.phys_start e.perm
    then kmapLoop k pgdir es
    else do
      freevm k pgdir
      pure none

def setupkvm (k : Kernel) : MemOp (Option ℕ) := do
  match ← kalloc with
  | none => pure none
  | some pgdir => do
    modify fun m => m.fill pgdir 0
    failIf (DEVSPACE < P2V PHYSTOP) "PHYSTOP too high"
    kmapLoop k pgdir k.kmap

/-- The loop of `allocuvm`. -/
def allocLoop (k : Kernel) (pgdir oldsz newsz : ℕ) : List ℕ → MemOp ℕ
  | [] => pure newsz
  | a :: as => do
    match ← kalloc with
    | none => do
      let _ ← deallocuvm k pgdir newsz oldsz
      pure 0
    | some mem => do
      modify fun m => m.fill mem 0
      if ← mappages pgdir a PGSIZE (PGSIZE * mem) (PTE_W ||| PTE_U)
      then allocLoop k pgdir oldsz newsz as
      else do
        let _ ← deallocuvm k pgdir newsz oldsz
        kfree k mem
        pure 0

def allocuvm (k : Kernel) (pgdir oldsz newsz : ℕ) : MemOp ℕ :=
  if KERNBASE ≤ newsz then pure 0
  else if newsz < oldsz then pure oldsz
  else allocLoop k pgdir oldsz newsz (Vm.pageRange oldsz newsz)

/-- The loop of `copyuvm`. -/
def copyLoop (k : Kernel) (pgdir d : ℕ) : List ℕ → MemOp (Option ℕ)
  | [] => pure (some d)
  | i :: is => do
    match ← walkpgdir pgdir i false with
    | none => throw "copyuvm: pte should exist"
    | some (pgtab, j) => do
      let m ← get
      let pte := word (m.frame pgtab) j
      if pte &&& PTE_P = 0 then copyLoop k pgdir d is
      else do
        match ← kalloc with
        | none => do
          freevm k d
          pure none
        | some mem => do
          modify fun m => m.fill mem (m.frame (PTE_ADDR pte / PGSIZE))
          if ← mappages d i PGSIZE (PGSIZE * mem) (PTE_FLAGS pte) then copyLoop k pgdir d is
          else do
            -- The frame `mem` is not given back.
            freevm k d
            pure none

def copyuvm (k : Kernel) (pgdir sz : ℕ) : MemOp (Option ℕ) := do
  match ← setupkvm k with
  | none => pure none
  | some d => copyLoop k pgdir d ((List.range ((sz + (PGSIZE - 1)) / PGSIZE)).map (PGSIZE * ·))

end Paging
