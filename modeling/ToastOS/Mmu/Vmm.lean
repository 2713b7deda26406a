import ToastOS.Mmu.Pmm

/-!
# Page tables: `vmm.c`

Physical memory is a `Mem`; a pointer into the HHDM is written as the physical address behind it, so a page table is the
address of its frame and a `vmm_context_t` the address of its PML4 (`pml_phys`). A function that can reach a `KPANIC`
returns an `Except`. The TLB is not modelled: where the source executes `invlpg`, the ghost `log` records the mapping.
-/

namespace ToastOS.Mmu

open ToastOS.Lib

abbrev Entry := BitVec 64

def ptePresent : Entry := 0x1

def pteWrite : Entry := 0x2

def pteUser : Entry := 0x4

def ptePs : Entry := 0x80

def pteNx : Entry := 0x8000000000000000

def pteFrameMask : Entry := 0x000FFFFFFFFFF000

def vmmFlagsKernelRw : Entry := ptePresent ||| pteWrite

/-- `USER_SPACE_END`: below it are the PML4 slots 0 to 255. -/
def userSpaceEnd : Nat := 0x0000800000000000

/-- `e & flag` as a condition. -/
def has (e flag : Entry) : Bool := e &&& flag != 0

/-- `e & PTE_FRAME_MASK`, the address of the table or page. -/
def frameOf (e : Entry) : Nat := (e &&& pteFrameMask).toNat

/-- `table[idx]`. -/
def entry (m : Mem) (table idx : Nat) : Entry := read64 m (table + 8 * idx)

def setEntry (m : Mem) (table idx : Nat) (e : Entry) : Mem := write64 m (table + 8 * idx) e

/-- `memset(table, 0, PAGE_SIZE)`. -/
def zeroFrame (m : Mem) (table : Nat) : Mem := fill m table 4096 0

/-- The four table indices of an address. -/
def pml4Idx (vAddr : Nat) : Nat := vAddr / 2 ^ 39 % 512

def pdptIdx (vAddr : Nat) : Nat := vAddr / 2 ^ 30 % 512

def pdIdx (vAddr : Nat) : Nat := vAddr / 2 ^ 21 % 512

def ptIdx (vAddr : Nat) : Nat := vAddr / 2 ^ 12 % 512

/-- The table that `get_or_alloc_table` walks to. -/
inductive TableLevel
  | pdpt | pd | pt
  deriving DecidableEq

def TableLevel.name : TableLevel → String
  | .pdpt => "PDPT"
  | .pd => "PD"
  | .pt => "PT"

/-- The panics of `vmm.c`, with the values they print. -/
inductive Kpanic
  | hugePageCollision (level : TableLevel) (vAddr table idx : Nat) (raw flags : Entry)
  | unmapIn1G (vAddr : Nat) (raw : Entry)
  | unmapIn2M (vAddr : Nat) (raw : Entry)
  | prePopulating

def Kpanic.text : Kpanic → String
  | .hugePageCollision .. =>
    "vmm: huge page collision walking to %s for v_addr=0x%016llx\n" ++
      "     table(virt)=0x%016llx idx=%llu raw_entry=0x%016llx\n" ++
      "     entry_frame=0x%016llx requested_flags=0x%llx"
  | .unmapIn1G .. => "vmm: attempted to unmap 4K page v_addr=0x%016llx inside a 1GB huge mapping (PDPT entry=0x%016llx)"
  | .unmapIn2M .. => "vmm: attempted to unmap 4K page v_addr=0x%016llx inside a 2MB huge mapping (PD entry=0x%016llx)"
  | .prePopulating => "vmm: out of memory pre-populating kernel PML4"

/-- Ghost: a page of a context was mapped with these flags, or unmapped. -/
structure MapEvent where
  ctx : Nat
  page : Nat
  flags : Option Entry

structure Heap where
  baseAddr : Nat
  brk : Nat
  mappedEnd : Nat
  limit : Nat
  flags : Entry
  vmmCtx : Nat

/-- The memory system: physical memory, its manager, the globals of `vmm.c` and `heap.c`, and the loaded page table. -/
structure MemState where
  mem : Mem
  pmm : Pmm
  /-- `g_kernel_ctx` -/
  kernelCtx : Nat
  /-- `g_nx_enabled` -/
  nxEnabled : Bool
  cr3 : Nat
  /-- `k_heap`, `none` before `init_kheap` -/
  heap : Option Heap
  /-- Ghost: the latest first. -/
  log : List MapEvent

def vmmNxFlag (s : MemState) : Entry := if s.nxEnabled then pteNx else 0

def vmmSwitchContext (s : MemState) (ctx : Nat) : MemState := { s with cr3 := ctx }

/-! ## Walking and mapping -/

/-- `get_or_alloc_table`; `none` is NULL. -/
def getOrAllocTable (s : MemState) (table idx : Nat) (flags : Entry) (vAddr : Nat) (level : TableLevel) :
    Except Kpanic (Option Nat × MemState) :=
  let e := entry s.mem table idx
  if has e ptePresent then
    if has e ptePs then .error (.hugePageCollision level vAddr table idx e flags)
    else if has flags pteUser && !has e pteUser then
      .ok (some (frameOf (e ||| pteUser)), { s with mem := setEntry s.mem table idx (e ||| pteUser) })
    else .ok (some (frameOf e), s)
  else
    let (phys, pmm) := pmmAlloc s.pmm
    if phys = 0 then .ok (none, { s with pmm })
    else
      let mem := setEntry (zeroFrame s.mem phys) table idx
        (BitVec.ofNat 64 phys ||| ptePresent ||| pteWrite ||| (flags &&& pteUser))
      .ok (some phys, { s with mem, pmm })

def vmmMapPage (s : MemState) (ctx vAddr pAddr : Nat) (flags : Entry) : Except Kpanic (Int × MemState) :=
  if has flags pteUser && vAddr ≥ userSpaceEnd then .ok (-1, s)
  else
    match getOrAllocTable s ctx (pml4Idx vAddr) flags vAddr .pdpt with
    | .error e => .error e
    | .ok (none, s) => .ok (-1, s)
    | .ok (some pdpt, s) =>
      match getOrAllocTable s pdpt (pdptIdx vAddr) flags vAddr .pd with
      | .error e => .error e
      | .ok (none, s) => .ok (-1, s)
      | .ok (some pd, s) =>
        match getOrAllocTable s pd (pdIdx vAddr) flags vAddr .pt with
        | .error e => .error e
        | .ok (none, s) => .ok (-1, s)
        | .ok (some pt, s) =>
          .ok (0, { s with
            mem := setEntry s.mem pt (ptIdx vAddr) ((BitVec.ofNat 64 pAddr &&& pteFrameMask) ||| ptePresent ||| flags)
            log := ⟨ctx, vAddr / 4096, some flags⟩ :: s.log })

/-- `vmm_get_phys`; 0 when nothing is mapped. -/
def vmmGetPhys (m : Mem) (ctx vAddr : Nat) : Nat :=
  let pml4e := entry m ctx (pml4Idx vAddr)
  if !has pml4e ptePresent then 0
  else
    let pdpte := entry m (frameOf pml4e) (pdptIdx vAddr)
    if !has pdpte ptePresent then 0
    else if has pdpte ptePs then ((pdpte &&& pteFrameMask) ||| (BitVec.ofNat 64 vAddr &&& 0x3FFFFFFF)).toNat
    else
      let pde := entry m (frameOf pdpte) (pdIdx vAddr)
      if !has pde ptePresent then 0
      else if has pde ptePs then ((pde &&& pteFrameMask) ||| (BitVec.ofNat 64 vAddr &&& 0x1FFFFF)).toNat
      else
        let pte := entry m (frameOf pde) (ptIdx vAddr)
        if !has pte ptePresent then 0
        else ((pte &&& pteFrameMask) ||| (BitVec.ofNat 64 vAddr &&& 0xFFF)).toNat

def vmmUnmapPage (s : MemState) (ctx vAddr : Nat) : Except Kpanic MemState :=
  let pml4e := entry s.mem ctx (pml4Idx vAddr)
  if !has pml4e ptePresent then .ok s
  else
    let pdpte := entry s.mem (frameOf pml4e) (pdptIdx vAddr)
    if !has pdpte ptePresent then .ok s
    else if has pdpte ptePs then .error (.unmapIn1G vAddr pdpte)
    else
      let pde := entry s.mem (frameOf pdpte) (pdIdx vAddr)
      if !has pde ptePresent then .ok s
      else if has pde ptePs then .error (.unmapIn2M vAddr pde)
      else
        let pt := frameOf pde
        if !has (entry s.mem pt (ptIdx vAddr)) ptePresent then .ok s
        else .ok { s with
          mem := setEntry s.mem pt (ptIdx vAddr) 0
          log := ⟨ctx, vAddr / 4096, none⟩ :: s.log }

/-- The bytes that `vmm_user_alloc` copies to page `i`. -/
def initBytes (init : Option (List (BitVec 8))) (initLen i : Nat) : List (BitVec 8) :=
  match init with
  | some bytes => if i * 4096 < initLen then (bytes.drop (i * 4096)).take (min (initLen - i * 4096) 4096) else []
  | none => []

/-- The loop of `vmm_user_alloc` from page `i` on, with `n` pages to go. -/
def userAllocLoop (ctx vAddr : Nat) (flags : Entry) (init : Option (List (BitVec 8))) (initLen : Nat) :
    Nat → Nat → MemState → Except Kpanic (Int × MemState)
  | 0, _, s => .ok (0, s)
  | n + 1, i, s =>
    let (phys, pmm) := pmmAlloc s.pmm
    if phys = 0 then .ok (-1, { s with pmm })
    else
      let mem := copyIn (zeroFrame s.mem phys) phys (initBytes init initLen i)
      match vmmMapPage { s with mem, pmm } ctx (vAddr + i * 4096) phys (flags ||| pteUser) with
      | .error e => .error e
      | .ok (r, s) =>
        if r ≠ 0 then .ok (-1, { s with pmm := pmmFree s.pmm phys })
        else userAllocLoop ctx vAddr flags init initLen n (i + 1) s

def vmmUserAlloc (s : MemState) (ctx vAddr len : Nat) (flags : Entry) (init : Option (List (BitVec 8))) (initLen : Nat) :
    Except Kpanic (Int × MemState) :=
  if vAddr % 4096 ≠ 0 then .ok (-1, s)
  else if len = 0 then .ok (0, s)
  else if vAddr ≥ userSpaceEnd ∨ len > userSpaceEnd - vAddr then .ok (-1, s)
  else if initLen > len then .ok (-1, s)
  else userAllocLoop ctx vAddr flags init initLen ((len + 4096 - 1) / 4096) 0 s

/-- The loop of `walk_user`: the indices that are left, the table, and whether every level so far allows writes. -/
def walkUserLoop (m : Mem) : List Nat → Nat → Bool → Option Bool
  | [], _, w => some w
  | idx :: rest, t, w =>
    let e := entry m t idx
    if !has e ptePresent || !has e pteUser then none
    else
      let w := w && has e pteWrite
      if rest = [] then some w
      else if has e ptePs then none
      else walkUserLoop m rest (frameOf e) w

/-- `walk_user`: `none` is 0, `some w` is 1 with `*writable = w`. -/
def walkUser (m : Mem) (ctx vAddr : Nat) : Option Bool :=
  walkUserLoop m [pml4Idx vAddr, pdptIdx vAddr, pdIdx vAddr, ptIdx vAddr] ctx true

/-- `vmm_user_range_ok`; the context is not NULL. -/
def vmmUserRangeOk (m : Mem) (ctx vAddr len : Nat) (needWrite : Bool) : Bool :=
  if len = 0 then true
  else if vAddr ≥ userSpaceEnd ∨ len > userSpaceEnd - vAddr then false
  else
    let start := vAddr / 4096 * 4096
    let stop := (vAddr + len + 4096 - 1) / 4096 * 4096
    (List.range ((stop - start) / 4096)).all fun i =>
      match walkUser m ctx (start + 4096 * i) with
      | none => false
      | some writable => !(needWrite && !writable)

/-! ## Contexts -/

/-- The slots 256 to 511, copied from one PML4 to another. -/
def copyKernelHalf (m : Mem) (src dst : Nat) : Mem :=
  (List.range 256).foldl (fun m i => setEntry m dst (256 + i) (entry m src (256 + i))) m

/-- `vmm_create_context`; `kmallocOk` is whether there is memory for the context, and `none` is NULL. -/
def vmmCreateContext (s : MemState) (kmallocOk : Bool) : Option Nat × MemState :=
  if !kmallocOk then (none, s)
  else
    let (phys, pmm) := pmmAlloc s.pmm
    if phys = 0 then (none, { s with pmm })
    else (some phys, { s with mem := copyKernelHalf (zeroFrame s.mem phys) s.kernelCtx phys, pmm })

/-- `free_table`; level 3 is a PDPT, 1 a page table, whose present entries are leaf frames. -/
def freeTable (m : Mem) : Nat → Nat → Pmm → Pmm
  | 0, _, p => p
  | level + 1, table, p =>
    pmmFree ((List.range 512).foldl (fun p i =>
      let e := entry m table i
      if !has e ptePresent then p
      else if level = 0 then pmmFree p (frameOf e)
      else if !has e ptePs then freeTable m level (frameOf e) p
      else p) p) table

/-- `vmm_destroy_context` of a context that is not NULL. -/
def vmmDestroyContext (s : MemState) (ctx : Nat) : MemState :=
  if ctx = s.kernelCtx then s
  else
    let s := if s.cr3 = ctx then vmmSwitchContext s s.kernelCtx else s
    let pmm := (List.range 256).foldl (fun p i =>
      let e := entry s.mem ctx i
      if has e ptePresent then freeTable s.mem 3 (frameOf e) p else p) s.pmm
    { s with pmm := pmmFree pmm ctx }

/-- The second loop of `init_vmm`: a zeroed PDPT for each empty slot of the kernel half. -/
def prePopulate (pml4 : Nat) : List Nat → MemState → Except Kpanic MemState
  | [], s => .ok s
  | i :: rest, s =>
    if has (entry s.mem pml4 i) ptePresent then prePopulate pml4 rest s
    else
      let (phys, pmm) := pmmAlloc s.pmm
      if phys = 0 then .error .prePopulating
      else
        let mem := setEntry (zeroFrame s.mem phys) pml4 i (BitVec.ofNat 64 phys ||| ptePresent ||| pteWrite)
        prePopulate pml4 rest { s with mem, pmm }

/-- `init_vmm`, from the memory and `cr3` that Limine leaves; `nx` is what `cpuid` says. The first `pmm_alloc` is not
checked. -/
def initVmm (mem : Mem) (pmm : Pmm) (cr3 : Entry) (nx : Bool) : Except Kpanic MemState :=
  let limine := frameOf cr3
  let (pml4, pmm) := pmmAlloc pmm
  let mem := copyKernelHalf (zeroFrame mem pml4) limine pml4
  match prePopulate pml4 ((List.range 256).map (256 + ·)) ⟨mem, pmm, pml4, nx, limine, none, []⟩ with
  | .error e => .error e
  | .ok s => .ok (vmmSwitchContext s pml4)

/-! ## The kernel heap: `heap.c` -/

def pageAlignUp (x : Nat) : Nat := u64 (x + (4096 - 1)) / 4096 * 4096

/-- The growing loop of `sys_sbrk` with `n` pages to go; the result says whether it got to the end, and where it is. -/
def growLoop (heap : Heap) : Nat → Nat → MemState → Except Kpanic (Bool × Nat × MemState)
  | 0, mapped, s => .ok (true, mapped, s)
  | n + 1, mapped, s =>
    let (phys, pmm) := pmmAlloc s.pmm
    if phys = 0 then .ok (false, mapped, { s with pmm })
    else
      -- the result of `vmm_map_page` is not looked at
      match vmmMapPage { s with pmm } heap.vmmCtx mapped phys heap.flags with
      | .error e => .error e
      | .ok (_, s) => growLoop heap n (mapped + 4096) s

/-- The shrinking loop of `sys_sbrk` with `n` pages to go. -/
def shrinkLoop (heap : Heap) : Nat → Nat → MemState → Except Kpanic (Nat × MemState)
  | 0, mapped, s => .ok (mapped, s)
  | n + 1, mapped, s =>
    let phys := vmmGetPhys s.mem heap.vmmCtx (mapped - 4096)
    let s := if phys ≠ 0 then { s with pmm := pmmFree s.pmm phys } else s
    match vmmUnmapPage s heap.vmmCtx (mapped - 4096) with
    | .error e => .error e
    | .ok s => shrinkLoop heap n (mapped - 4096) s

/-- `sys_sbrk`; `none` is `(void*)-1`. -/
def sysSbrk (s : MemState) (increment : Int) : Except Kpanic (Option Nat × MemState) :=
  match s.heap with
  | none => .ok (none, s)
  | some heap =>
    if increment = 0 then .ok (some heap.brk, s)
    else if increment > 0 then
      let newBrk := u64 (heap.brk + increment.toNat)
      if newBrk > heap.limit then .ok (none, s)
      else
        match growLoop heap ((pageAlignUp newBrk - heap.mappedEnd + (4096 - 1)) / 4096) heap.mappedEnd s with
        | .error e => .error e
        | .ok (false, mapped, s) => .ok (none, { s with heap := some { heap with mappedEnd := mapped } })
        | .ok (true, mapped, s) =>
          .ok (some heap.brk, { s with heap := some { heap with mappedEnd := mapped, brk := newBrk } })
    else
      let shrinkBy := u64 (-increment).toNat
      -- `brk` is never below `base_addr` (`HeapOk`), so the difference does not wrap
      let newBrk := if shrinkBy > heap.brk - heap.baseAddr then heap.baseAddr else heap.brk - shrinkBy
      match shrinkLoop heap ((heap.mappedEnd - pageAlignUp newBrk + (4096 - 1)) / 4096) heap.mappedEnd s with
      | .error e => .error e
      | .ok (mapped, s) =>
        .ok (some heap.brk, { s with heap := some { heap with mappedEnd := mapped, brk := newBrk } })

def kheapVirtBase : Nat := 0xFFFF900000000000

def initKheap (s : MemState) : MemState :=
  let heap : Heap :=
    { baseAddr := kheapVirtBase, brk := kheapVirtBase, mappedEnd := kheapVirtBase,
      limit := kheapVirtBase + 1024 * 1024 * 64, flags := vmmFlagsKernelRw, vmmCtx := s.kernelCtx }
  { s with heap := some heap }

end ToastOS.Mmu
