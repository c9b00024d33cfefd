import PmemProgram.Lib.Cmd

/-!
# The page cache on persistent memory (`cbs_req_pmem.cpp`)

`Pool` is what the pool file holds: the magic number, the page metas and the 4 KB pages; `Dram` is the disk map and
the free list that `cbsInit` builds. A meta is addressed by its position `i`, page ids are positions plus one
(`pageIdFromMeta`, `pageMetaFromId`), and the page of meta `i` is `pages i`.

`writeReq`, `readReq`, `deletePage` and `cbsInit` follow the source; a copy of a page may be torn by a power
failure, an 8-byte meta store may not. A store to a meta that has not been persisted yet waits in `dirty`, from
where the cache may write it back at any moment (`Evict`).
-/

namespace PmemProgram.Cbs
open PmemProgram.Lib

/-- `REQ_BLOCK`. -/
def reqBlock : Nat := 10
/-- `REQ_PAGE`. -/
def reqPage : Nat := 0x3ff
/-- `DISK_BLOCK_NUM`. -/
def diskBlockNum : Nat := 1048576
/-- `BLOCK_PAGE_NUM`. -/
def blockPageNum : Nat := 1024
/-- `MAGIC_NUMBER`. -/
def magicNumber : Nat := 0xabcdabcd
/-- `PAGE_SIZE`. -/
def pageSize : Nat := 4096
/-- `PMEM_META_SIZE`. -/
def pmemMetaSize : Nat := 64
/-- `MAGIC_NUM_SIZE`. -/
def magicNumSize : Nat := 64
/-- `PMEM_SIZE`. -/
def pmemSize : Nat := 100 * 1024 * 1024 * 1024
/-- `PMEM_PAGE_NUMBERS`. -/
def pmemPageNumbers : Nat := (pmemSize - magicNumSize) / (pageSize + pmemMetaSize) - 1

/-- The content of a page. -/
abbrev Page := Fin 4096 → UInt8

/-- `page_meta_t`: the fields of its 8-byte word. -/
structure Meta where
  valid : Bool
  sn : Nat
  reqId : Nat
  deriving DecidableEq, Repr

/-- The bit fields `valid : 1`, `sn : 31`, `req_id : 32` of a word. -/
def Meta.ofWord (w : Nat) : Meta := ⟨w.testBit 0, w / 2 % 2 ^ 31, w / 2 ^ 32 % 2 ^ 32⟩

/-- `pmem_layout_t`, the metas and the pages. -/
structure Pool where
  magicNumber : Nat
  pageOffset : Nat
  metas : Nat → Meta
  pages : Nat → Page

/-- `block_page_t`. -/
structure BlockPage where
  pageId1 : Nat
  pageId2 : Nat
  deriving DecidableEq, Repr

/-- `disk_t` and `free_pages_t`. -/
structure Dram where
  disk : Nat → Nat → BlockPage
  cachedPagesCnt : Nat → Nat
  freeNum : Nat
  freeList : Nat → Nat

structure St where
  pool : Pool
  /-- Stores to metas that are still in the processor's cache. -/
  dirty : Nat → Option Meta
  dram : Dram
  pageAddress : Nat

/-- `PAGE_ID_FROM_META`, kept in a 32-bit field. -/
def pageIdFromMeta (i : Nat) : Nat := (i + 1) % 2 ^ 32

/-- `PAGE_META_FROM_ID`. -/
def pageMetaFromId (id : Nat) : Nat := id - 1

/-- The meta the processor sees. -/
def St.meta (s : St) (i : Nat) : Meta := (s.dirty i).getD (s.pool.metas i)

/-! ## Changes of the state -/

def Pool.setMeta (p : Pool) (i : Nat) (m : Meta) : Pool := { p with metas := Function.update p.metas i m }

def Pool.setPage (p : Pool) (i : Nat) (c : Page) : Pool := { p with pages := Function.update p.pages i c }

/-- The page after the bytes `m` of a copy of `c`. -/
def tornPage (m : Nat → Bool) (c old : Page) : Page := fun k => if m k then c k else old k

def Dram.slot (d : Dram) (reqId : Nat) : BlockPage := d.disk (reqId >>> reqBlock) (reqId &&& reqPage)

def Dram.setSlot (d : Dram) (reqId : Nat) (f : BlockPage → BlockPage) : Dram :=
  { d with
    disk := Function.update d.disk (reqId >>> reqBlock)
      (Function.update (d.disk (reqId >>> reqBlock)) (reqId &&& reqPage) (f (d.slot reqId))) }

/-- `cached_pages_cnt++`. -/
def Dram.countPage (d : Dram) (reqId : Nat) : Dram :=
  { d with
    cachedPagesCnt := Function.update d.cachedPagesCnt (reqId >>> reqBlock)
      ((d.cachedPagesCnt (reqId >>> reqBlock) + 1) % 2 ^ 32) }

/-- `free_list[j] = i`. -/
def Dram.setFree (d : Dram) (j i : Nat) : Dram := { d with freeList := Function.update d.freeList j i }

/-- `free_num = k`. -/
def Dram.setFreeNum (d : Dram) (k : Nat) : Dram := { d with freeNum := k }

def St.setDram (s : St) (f : Dram → Dram) : St := { s with dram := f s.dram }

/-! ## Persistent stores -/

/-- `pmem_memcpy_persist(PAGE_FROM_META(i), content, 4096)`. -/
def copyPage (i : Nat) (content : Page) : Cmd Unit St Unit :=
  .pieces fun m s => { s with pool := s.pool.setPage i (tornPage m content (s.pool.pages i)) }

/-- `pmem_memcpy_persist(meta, &atomic_value, 8)`. -/
def storeMeta (i : Nat) (word : Nat) : Cmd Unit St Unit :=
  .step fun s => { s with pool := s.pool.setMeta i (Meta.ofWord word), dirty := Function.update s.dirty i none }

/-- A plain store to a meta. -/
def dirtyMeta (i : Nat) (f : Meta → Meta) : Cmd Unit St Unit :=
  .modify fun s => { s with dirty := Function.update s.dirty i (some (f (s.meta i))) }

/-- `pmem_persist(meta, 8)`. -/
def persistMeta (i : Nat) : Cmd Unit St Unit :=
  .step fun s => { s with pool := s.pool.setMeta i (s.meta i), dirty := Function.update s.dirty i none }

/-- The cache writes a store back. -/
def Evict (s t : St) : Prop := ∃ i m, s.dirty i = some m ∧ t = { s with pool := s.pool.setMeta i m }

/-- `free_list[free_num-1]`; with no free page the index is out of bounds. -/
def freeTop (freeNum : Nat) : Cmd Unit St Nat := do
  Cmd.check (freeNum ≠ 0)
  Cmd.get fun s => s.dram.freeList (freeNum - 1)

/-! ## `write_req` -/

/-- The branch for a request without a page. -/
def writeNew (reqId : Nat) (content : Page) (freeNum : Nat) : Cmd Unit St Unit := do
  let pageNew ← freeTop freeNum
  copyPage pageNew content
  storeMeta pageNew (reqId <<< 32 % 2 ^ 64 ||| 1)
  .modify fun s => s.setDram fun d =>
    ((d.setFreeNum (d.freeNum - 1)).setSlot reqId fun b => { b with pageId1 := pageIdFromMeta pageNew }).countPage
      reqId

/-- The sequence number of the old page goes back to 0 first. -/
def resetSn (pageOld : Nat) : Cmd Unit St Unit := do
  let old ← Cmd.get fun s => s.meta pageOld
  if old.sn ≠ 0 then
    dirtyMeta pageOld fun m => { m with sn := 0 }
    persistMeta pageOld
  else
    return ()

/-- The branch for a request with one page: the content goes to a new page, then the old one is freed. -/
def writeShadow (reqId : Nat) (content : Page) (freeNum : Nat) (pageOld : Nat) : Cmd Unit St Unit := do
  resetSn pageOld
  let pageNew ← freeTop freeNum
  copyPage pageNew content
  storeMeta pageNew (reqId <<< 32 % 2 ^ 64 ||| 1 <<< 1 ||| 1)
  Cmd.modify fun s => s.setDram fun d => d.setSlot reqId fun b => { b with pageId2 := pageIdFromMeta pageNew }
  -- a failure here leaves two valid pages for the request
  storeMeta pageOld 0
  Cmd.modify fun s => s.setDram fun d =>
    (d.setFree (freeNum - 1) pageOld).setSlot reqId fun b => { b with pageId1 := 0 }

/-- `sn << 1`: the 31-bit field is an `int` there, and its sign goes into the 64-bit word. -/
def shiftSn (sn : Nat) : Nat := ((BitVec.ofNat 32 sn <<< 1).signExtend 64).toNat

/-- The branch for a request with two pages. -/
def writeTwo (reqId : Nat) (content : Page) (freeNum : Nat) (page1 page2 : Nat) : Cmd Unit St Unit := do
  let sn1 ← Cmd.get fun s => (s.meta page1).sn
  let sn2 ← Cmd.get fun s => (s.meta page2).sn
  if sn1 < sn2 then
    copyPage page1 content
    dirtyMeta page2 fun m => { m with sn := (m.sn + 1) % 2 ^ 31 }
    storeMeta page1 (reqId <<< 32 % 2 ^ 64 ||| shiftSn sn2 ||| 1)
    storeMeta page2 0
    Cmd.modify fun s => s.setDram fun d =>
      ((d.setSlot reqId fun b => { b with pageId2 := 0 }).setFreeNum (freeNum + 1)).setFree freeNum page2
  else
    copyPage page2 content
    dirtyMeta page1 fun m => { m with sn := (m.sn + 1) % 2 ^ 31 }
    storeMeta page2 (reqId <<< 32 % 2 ^ 64 ||| shiftSn sn1 ||| 1)
    storeMeta page2 0
    Cmd.modify fun s => s.setDram fun d =>
      ((d.setSlot reqId fun b => { b with pageId1 := 0 }).setFreeNum (freeNum + 1)).setFree freeNum page1

/-- `write_req`. -/
def writeReq (reqId : Nat) (content : Page) : Cmd Unit St Int := do
  let freeNum ← Cmd.get fun s => s.dram.freeNum
  if reqId >>> reqBlock > diskBlockNum then
    return -1
  else
    let slot ← Cmd.get fun s => s.dram.slot reqId
    if slot.pageId1 = 0 ∧ slot.pageId2 = 0 then
      writeNew reqId content freeNum
    else if slot.pageId1 ≠ 0 ∧ slot.pageId2 = 0 then
      writeShadow reqId content freeNum (pageMetaFromId slot.pageId1)
    else if slot.pageId1 = 0 ∧ slot.pageId2 ≠ 0 then
      writeShadow reqId content freeNum (pageMetaFromId slot.pageId2)
    else
      writeTwo reqId content freeNum (pageMetaFromId slot.pageId1) (pageMetaFromId slot.pageId2)
    return 0

/-! ## `read_req` -/

/-- `read_req`: the position of the page whose address is returned; `none` is `NULL`. -/
def readReq (s : St) (reqId : Nat) : Option Nat :=
  if reqId >>> reqBlock > diskBlockNum then none
  else
    let slot := s.dram.slot reqId
    if slot.pageId1 ≠ 0 ∧ slot.pageId2 = 0 then some (pageMetaFromId slot.pageId1)
    else if slot.pageId1 = 0 ∧ slot.pageId2 ≠ 0 then some (pageMetaFromId slot.pageId2)
    else if slot.pageId1 ≠ 0 ∧ slot.pageId2 ≠ 0 then
      if (s.meta (pageMetaFromId slot.pageId1)).sn < (s.meta (pageMetaFromId slot.pageId2)).sn then
        some (pageMetaFromId slot.pageId2)
      else some (pageMetaFromId slot.pageId1)
    else none

/-- What the caller of `read_req` finds behind the returned pointer. -/
def readContent (s : St) (reqId : Nat) : Option Page := (readReq s reqId).map s.pool.pages

/-! ## `delete_page` -/

/-- The branch for a request with one page: `clear` empties its field of the slot. -/
def deleteOne (reqId : Nat) (freeNum : Nat) (page : Nat) (clear : BlockPage → BlockPage) : Cmd Unit St Unit := do
  Cmd.modify fun s => s.setDram fun d => d.setSlot reqId clear
  storeMeta page 0
  Cmd.modify fun s => s.setDram fun d => (d.setFreeNum (freeNum + 1)).setFree freeNum page

/-- The branch for a request with two pages: the older one goes first. -/
def deleteTwo (reqId : Nat) (freeNum : Nat) (page1 page2 : Nat) : Cmd Unit St Unit := do
  let sn1 ← Cmd.get fun s => (s.meta page1).sn
  let sn2 ← Cmd.get fun s => (s.meta page2).sn
  if sn1 < sn2 then
    storeMeta page1 0
    storeMeta page2 0
  else
    storeMeta page2 0
    storeMeta page1 0
  Cmd.modify fun s => s.setDram fun d =>
    (((d.setSlot reqId fun _ => ⟨0, 0⟩).setFree freeNum page1).setFree (freeNum + 1) page2).setFreeNum (freeNum + 2)

/-- `delete_page`. -/
def deletePage (reqId : Nat) : Cmd Unit St Unit := do
  if reqId >>> reqBlock > diskBlockNum then
    return ()
  else
    let slot ← Cmd.get fun s => s.dram.slot reqId
    let freeNum ← Cmd.get fun s => s.dram.freeNum
    if slot.pageId1 ≠ 0 ∧ slot.pageId2 = 0 then
      deleteOne reqId freeNum (pageMetaFromId slot.pageId1) fun b => { b with pageId1 := 0 }
    else if slot.pageId1 = 0 ∧ slot.pageId2 ≠ 0 then
      deleteOne reqId freeNum (pageMetaFromId slot.pageId2) fun b => { b with pageId2 := 0 }
    else if slot.pageId1 ≠ 0 ∧ slot.pageId2 ≠ 0 then
      deleteTwo reqId freeNum (pageMetaFromId slot.pageId1) (pageMetaFromId slot.pageId2)
    else
      return ()

/-! ## `cbs_init` -/

/-- One round of the scan over the metas. -/
def rebuildStep (metas : Nat → Meta) (d : Dram) (i : Nat) : Dram :=
  if (metas i).valid = false then (d.setFree d.freeNum i).setFreeNum (d.freeNum + 1)
  else if (d.slot (metas i).reqId).pageId1 = 0 then
    (d.setSlot (metas i).reqId fun b => { b with pageId1 := pageIdFromMeta i }).countPage (metas i).reqId
  else d.setSlot (metas i).reqId fun b => { b with pageId1 := pageIdFromMeta i }

/-- The scan over `n` metas, from a disk map of zeros and a free list with arbitrary entries. -/
def rebuild (metas : Nat → Meta) (n : Nat) (freeList : Nat → Nat) : Dram :=
  (List.range n).foldl (rebuildStep metas) ⟨fun _ _ => ⟨0, 0⟩, fun _ => 0, 0, freeList⟩

/-- The address of the first page in a pool mapped at `base`. -/
def firstPageAddress (base n : Nat) : Nat :=
  (base + magicNumSize + pmemMetaSize * n + pageSize) &&& 0xfffffffffffff000

/-- The metas after the bytes `m` of `pmem_memset_persist(pmem_meta, 0, ..)`. -/
def Pool.clearMetas (p : Pool) (n : Nat) (m : Nat → Bool) : Pool :=
  { p with metas := fun i => if i < n ∧ m i = true then Meta.ofWord 0 else p.metas i }

/-- The memory structures of a new pool: every page is free. -/
def allFree (n : Nat) (d : Dram) : Dram :=
  ⟨fun _ _ => ⟨0, 0⟩, fun _ => 0, n, fun i => if i < n then i else d.freeList i⟩

/-- `cbs_init` for a pool of `n` pages that is mapped at `base`. -/
def cbsInit (base n : Nat) : Cmd Unit St Int := do
  let mapped ← Cmd.succeeds ()
  if ¬ mapped then return -1
  else
    let disk ← Cmd.succeeds ()
    if ¬ disk then return -1
    else
      let list ← Cmd.succeeds ()
      if ¬ list then return -1
      else
        let magic ← Cmd.get fun s => s.pool.magicNumber
        if magic ≠ magicNumber then
          -- pmem_memset_persist of the metas
          Cmd.pieces fun m s => { s with pool := s.pool.clearMetas n m, dirty := fun _ => none }
          Cmd.step fun s => { s with
            pool := { s.pool with pageOffset := firstPageAddress base n - base },
            pageAddress := firstPageAddress base n }
          Cmd.step fun s => { s with pool := { s.pool with magicNumber := magicNumber } }
          Cmd.modify fun s => s.setDram (allFree n)
        else
          Cmd.modify fun s => { s with
            dram := rebuild s.meta n s.dram.freeList
            pageAddress := s.pool.pageOffset + base }
        return 0

/-- `get_cached_count`. -/
def getCachedCount (s : St) : Int :=
  ((List.range diskBlockNum).foldl (fun cnt i => cnt + BitVec.ofNat 32 (s.dram.cachedPagesCnt i)) 0#32).toInt

/-- The machine after a power failure: the pool is what it was, everything else is gone. -/
def St.reboot (s : St) : St := { s with dirty := fun _ => none, dram := ⟨fun _ _ => ⟨0, 0⟩, fun _ => 0, 0, fun _ => 0⟩ }

end PmemProgram.Cbs
