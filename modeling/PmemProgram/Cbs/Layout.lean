import PmemProgram.Cbs.Pmem

/-!
# The layout of the pool file (`cbs_init` and the macros of `cbs_req_pmem.cpp`)

The pool holds a header, the page metas and, from a page boundary on, the pages. `page_offset` is stored when the pool is
created, and `page_address` computed from it when the file is mapped again.

* `Mapping`, `create`, `reopen` : where the pool is mapped; `pageIdFromMeta`, `pageFromMeta`, `pageMetaFromId` : the macros,
  in unsigned 64-bit arithmetic;
* `Fits` : the metas end before the first page, the pages before the end of the pool;
* `Sound` : no two parts overlap, ids, metas and pages correspond, and the page cache has the ids and positions of the
  macros; `layout_sound` : for every size and base.
-/

namespace PmemProgram.Cbs.Layout

/-- A `uint64_t`. -/
abbrev U64 := BitVec 64

/-- `PMEM_PAGE_NUMBERS` for a pool of some size. -/
def pmemPageNumbers (size : U64) : U64 := (size - 64) / (4096 + 64) - 1

/-- `pmem_base` and `page_address`. -/
structure Mapping where
  pmemBase : U64
  pageAddress : U64

/-- `PAGE_ID_FROM_META`. -/
def pageIdFromMeta (m : Mapping) (pageMeta : U64) : U64 := (pageMeta - 64 - m.pmemBase) / 64 + 1

/-- `PAGE_FROM_META`. -/
def pageFromMeta (m : Mapping) (pageMeta : U64) : U64 := m.pageAddress + 4096 * ((pageMeta - 64 - m.pmemBase) / 64)

/-- `PAGE_META_FROM_ID`. -/
def pageMetaFromId (m : Mapping) (id : U64) : U64 := m.pmemBase + 64 + (id - 1) * 64

/-- `cbs_init` on a new pool. -/
def create (base size : U64) : Mapping :=
  ⟨base, (base + 64 + 64 * pmemPageNumbers size + 4096) &&& 0xfffffffffffff000⟩

/-- The stored `page_offset`. -/
def Mapping.pageOffset (m : Mapping) : U64 := m.pageAddress - m.pmemBase

/-- `cbs_init` on an old one. -/
def reopen (base pageOffset : U64) : Mapping := ⟨base, pageOffset + base⟩

/-! ## What the layout is to be -/

/-- The ids of the pages. -/
def ids (size : U64) : Set U64 := {id | 1 ≤ id.toNat ∧ id.toNat ≤ (size.toNat - 64) / (4096 + 64) - 1}

/-- The page metas of a mapped pool: `N` of them behind the header. -/
def metas (m : Mapping) (size : U64) : Set U64 :=
  {p | ∃ i, i < (size.toNat - 64) / (4096 + 64) - 1 ∧ p.toNat = m.pmemBase.toNat + 64 + 64 * i}

/-- The parts of a pool. -/
inductive Part
  | header
  | pageMeta (id : U64)
  | page (id : U64)

/-- The part is one of a pool of this size. -/
def Part.In (size : U64) : Part → Prop
  | header => True
  | pageMeta id => id ∈ ids size
  | page id => id ∈ ids size

/-- The bytes of a part. -/
def Part.region (m : Mapping) : Part → Set Nat
  | header => Set.Ico m.pmemBase.toNat (m.pmemBase.toNat + 64)
  | pageMeta id => Set.Ico (pageMetaFromId m id).toNat ((pageMetaFromId m id).toNat + 64)
  | page id =>
    Set.Ico (pageFromMeta m (pageMetaFromId m id)).toNat ((pageFromMeta m (pageMetaFromId m id)).toNat + 4096)

/-- A layout without overlaps, in which ids, metas and pages correspond. The page cache counts the metas from zero: its ids
are those of `PAGE_ID_FROM_META`, kept in 32 bits, and its positions those of `PAGE_META_FROM_ID` and `PAGE_FROM_META`. -/
structure Sound (m : Mapping) (size : U64) : Prop where
  disjoint : {p : Part | p.In size}.PairwiseDisjoint (Part.region m)
  inside : ∀ p : Part, p.In size → p.region m ⊆ Set.Ico m.pmemBase.toNat (m.pmemBase.toNat + size.toNat)
  aligned : ∀ id ∈ ids size, (pageFromMeta m (pageMetaFromId m id)).toNat % 4096 = 0
  metas_ids : Set.BijOn (pageMetaFromId m) (ids size) (metas m size)
  id_of_meta : ∀ id ∈ ids size, pageIdFromMeta m (pageMetaFromId m id) = id
  meta_of_id : ∀ p ∈ metas m size, pageMetaFromId m (pageIdFromMeta m p) = p
  page_injective : Set.InjOn (pageFromMeta m) (metas m size)
  id_ne_zero : ∀ p ∈ metas m size, pageIdFromMeta m p ≠ 0
  stored_id : ∀ i < (size.toNat - 64) / (4096 + 64) - 1, ∀ p : U64, p.toNat = m.pmemBase.toNat + 64 + 64 * i →
    (pageIdFromMeta m p).toNat % 2 ^ 32 = Cbs.pageIdFromMeta i ∧ Cbs.pageMetaFromId (pageIdFromMeta m p).toNat = i ∧
      (pageFromMeta m p).toNat = m.pageAddress.toNat + pageSize * i

/-! ## Addresses -/

/-- The metas end before the first page, the pages before the end of the pool. -/
structure Fits (m : Mapping) (size : U64) : Prop where
  mapped : m.pmemBase.toNat + size.toNat ≤ 2 ^ 64
  one : 64 + 2 * (4096 + 64) ≤ size.toNat
  metas_le : m.pmemBase.toNat + 64 + 64 * ((size.toNat - 64) / (4096 + 64) - 1) ≤ m.pageAddress.toNat
  pages_le : m.pageAddress.toNat + 4096 * ((size.toNat - 64) / (4096 + 64) - 1) ≤ m.pmemBase.toNat + size.toNat
  aligned : m.pageAddress.toNat % 4096 = 0

theorem toNat_pmemPageNumbers {size : U64} (h : 64 + 2 * (4096 + 64) ≤ size.toNat) :
    (pmemPageNumbers size).toNat = (size.toNat - 64) / (4096 + 64) - 1 := by
  have hsize := size.isLt
  have hsub : (size - 64).toNat = size.toNat - 64 := by
    rw [BitVec.toNat_sub, show (64 : U64).toNat = 64 from rfl]
    omega
  rw [pmemPageNumbers, BitVec.toNat_sub, BitVec.toNat_udiv, hsub, show (1 : U64).toNat = 1 from rfl,
    show (4096 + 64 : U64).toNat = 4096 + 64 from rfl]
  omega

/-- Rounding down to a page boundary. -/
theorem toNat_and_pageMask (a : U64) : (a &&& 0xfffffffffffff000).toNat = a.toNat / 4096 * 4096 := by
  have hmask : (0xfffffffffffff000 : U64) = (BitVec.allOnes 52 ++ 0#12 : U64) := by decide
  have hand : a &&& (0xfffffffffffff000 : U64) = (a >>> 12) <<< 12 := by
    apply BitVec.eq_of_getLsbD_eq
    intro i hi
    rw [hmask, BitVec.getLsbD_and, BitVec.getLsbD_append, BitVec.getLsbD_shiftLeft, BitVec.getLsbD_ushiftRight]
    by_cases hlow : i < 12
    · simp [hlow]
    · rw [if_neg hlow, BitVec.getLsbD_allOnes, show 12 + (i - 12) = i by omega]
      simp [hlow, hi, show i - 12 < 52 by omega]
  have ha := a.isLt
  rw [hand, BitVec.toNat_shiftLeft, BitVec.toNat_ushiftRight, Nat.shiftLeft_eq, Nat.shiftRight_eq_div_pow]
  omega

section
variable {m : Mapping} {size : U64}

theorem Fits.toNat_metaFromId (h : Fits m size) {id : U64} (hid : id ∈ ids size) :
    (pageMetaFromId m id).toNat = m.pmemBase.toNat + 64 + 64 * (id.toNat - 1) := by
  obtain ⟨h₁, hn⟩ := hid
  have := h.mapped
  have := h.pages_le
  have := h.metas_le
  have hsub : (id - 1).toNat = id.toNat - 1 := by
    have := id.isLt
    rw [BitVec.toNat_sub, show (1 : U64).toNat = 1 from rfl]
    omega
  rw [pageMetaFromId, BitVec.toNat_add, BitVec.toNat_add, BitVec.toNat_mul, hsub, show (64 : U64).toNat = 64 from rfl]
  omega

/-- The position of a meta, as the macros compute it. -/
theorem Fits.toNat_position (h : Fits m size) {p : U64} {i : Nat}
    (hp : p.toNat = m.pmemBase.toNat + 64 + 64 * i) : ((p - 64 - m.pmemBase) / 64).toNat = i := by
  have := h.mapped
  have := p.isLt
  rw [BitVec.toNat_udiv, BitVec.toNat_sub, BitVec.toNat_sub, hp, show (64 : U64).toNat = 64 from rfl]
  omega

theorem Fits.toNat_page (h : Fits m size) {p : U64} {i : Nat} (hi : i < (size.toNat - 64) / (4096 + 64) - 1)
    (hp : p.toNat = m.pmemBase.toNat + 64 + 64 * i) : (pageFromMeta m p).toNat = m.pageAddress.toNat + 4096 * i := by
  have := h.mapped
  have := h.pages_le
  rw [pageFromMeta, BitVec.toNat_add, BitVec.toNat_mul, h.toNat_position hp, show (4096 : U64).toNat = 4096 from rfl]
  omega

theorem Fits.toNat_id (h : Fits m size) {p : U64} {i : Nat} (hp : p.toNat = m.pmemBase.toNat + 64 + 64 * i) :
    (pageIdFromMeta m p).toNat = i + 1 := by
  have := p.isLt
  rw [pageIdFromMeta, BitVec.toNat_add, h.toNat_position hp, show (1 : U64).toNat = 1 from rfl]
  omega

theorem Fits.toNat_pageOfId (h : Fits m size) {id : U64} (hid : id ∈ ids size) :
    (pageFromMeta m (pageMetaFromId m id)).toNat = m.pageAddress.toNat + 4096 * (id.toNat - 1) :=
  h.toNat_page (by have := hid.1; have := hid.2; omega) (h.toNat_metaFromId hid)

/-- The byte is in the part, whose ends are written out. -/
def Part.Holds (m : Mapping) (a : Nat) : Part → Prop
  | header => m.pmemBase.toNat ≤ a ∧ a < m.pmemBase.toNat + 64
  | pageMeta id =>
    m.pmemBase.toNat + 64 + 64 * (id.toNat - 1) ≤ a ∧ a < m.pmemBase.toNat + 64 + 64 * (id.toNat - 1) + 64
  | page id =>
    m.pageAddress.toNat + 4096 * (id.toNat - 1) ≤ a ∧ a < m.pageAddress.toNat + 4096 * (id.toNat - 1) + 4096

theorem Fits.mem_region (h : Fits m size) {p : Part} (hp : p.In size) {a : Nat} (ha : a ∈ p.region m) : p.Holds m a := by
  cases p with
  | header => exact ha
  | pageMeta id =>
    show _ ≤ a ∧ a < _
    rw [← h.toNat_metaFromId hp]
    exact ha
  | page id =>
    show _ ≤ a ∧ a < _
    rw [← h.toNat_pageOfId hp]
    exact ha

/-- Two ids are the same or their pages and metas are apart. -/
theorem Fits.disjoint (h : Fits m size) : {p : Part | p.In size}.PairwiseDisjoint (Part.region m) := by
  intro p hp q hq hne
  show Disjoint (p.region m) (q.region m)
  have hle := h.metas_le
  rw [Set.disjoint_left]
  intro a hap haq
  have ha := h.mem_region hp hap
  have hb := h.mem_region hq haq
  cases p with
  | header =>
    have hlt : a < m.pmemBase.toNat + 64 := ha.2
    cases q with
    | header => exact hne rfl
    | pageMeta id =>
      have := hb.1
      omega
    | page id =>
      have := hb.1
      omega
  | pageMeta id =>
    obtain ⟨h₁, hn⟩ := hp
    obtain ⟨hge, hlt⟩ := ha
    cases q with
    | header =>
      have := hb.2
      omega
    | pageMeta id' =>
      obtain ⟨h₁', hn'⟩ := hq
      obtain ⟨hge', hlt'⟩ := hb
      exact hne (congrArg Part.pageMeta (BitVec.eq_of_toNat_eq (by omega)))
    | page id' =>
      have := hb.1
      omega
  | page id =>
    obtain ⟨h₁, hn⟩ := hp
    obtain ⟨hge, hlt⟩ := ha
    cases q with
    | header =>
      have := hb.2
      omega
    | pageMeta id' =>
      obtain ⟨h₁', hn'⟩ := hq
      have := hb.2
      omega
    | page id' =>
      obtain ⟨h₁', hn'⟩ := hq
      obtain ⟨hge', hlt'⟩ := hb
      exact hne (congrArg Part.page (BitVec.eq_of_toNat_eq (by omega)))

theorem Fits.inside (h : Fits m size) (p : Part) (hp : p.In size) :
    p.region m ⊆ Set.Ico m.pmemBase.toNat (m.pmemBase.toNat + size.toNat) := by
  have hone := h.one
  have hmetas := h.metas_le
  have hpages := h.pages_le
  intro a hap
  have ha := h.mem_region hp hap
  show _ ≤ a ∧ a < _
  cases p with
  | header =>
    obtain ⟨hge, hlt⟩ := ha
    omega
  | pageMeta id =>
    obtain ⟨h₁, hn⟩ := hp
    obtain ⟨hge, hlt⟩ := ha
    omega
  | page id =>
    obtain ⟨h₁, hn⟩ := hp
    obtain ⟨hge, hlt⟩ := ha
    omega

theorem Fits.id_of_meta (h : Fits m size) (id : U64) (hid : id ∈ ids size) :
    pageIdFromMeta m (pageMetaFromId m id) = id := by
  have := hid.1
  have := hid.2
  apply BitVec.eq_of_toNat_eq
  rw [h.toNat_id (i := id.toNat - 1) (h.toNat_metaFromId hid)]
  omega

theorem Fits.id_mem (h : Fits m size) {p : U64} (hp : p ∈ metas m size) : pageIdFromMeta m p ∈ ids size := by
  obtain ⟨i, hi, he⟩ := hp
  show 1 ≤ (pageIdFromMeta m p).toNat ∧ _ ≤ _
  rw [h.toNat_id he]
  omega

theorem Fits.meta_of_id (h : Fits m size) (p : U64) (hp : p ∈ metas m size) :
    pageMetaFromId m (pageIdFromMeta m p) = p := by
  apply BitVec.eq_of_toNat_eq
  rw [h.toNat_metaFromId (h.id_mem hp)]
  obtain ⟨i, hi, he⟩ := hp
  rw [h.toNat_id he, he]
  omega

theorem Fits.meta_mem (h : Fits m size) {id : U64} (hid : id ∈ ids size) : pageMetaFromId m id ∈ metas m size := by
  have := hid.1
  have := hid.2
  exact ⟨id.toNat - 1, by omega, h.toNat_metaFromId hid⟩

/-- The page cache counts metas from zero. -/
theorem Fits.stored_id (h : Fits m size) {i : Nat} (hi : i < (size.toNat - 64) / (4096 + 64) - 1)
    (hp : p.toNat = m.pmemBase.toNat + 64 + 64 * i) :
    (pageIdFromMeta m p).toNat % 2 ^ 32 = Cbs.pageIdFromMeta i ∧ Cbs.pageMetaFromId (pageIdFromMeta m p).toNat = i ∧
      (pageFromMeta m p).toNat = m.pageAddress.toNat + pageSize * i := by
  rw [h.toNat_id hp, h.toNat_page hi hp]
  exact ⟨rfl, Nat.add_sub_cancel i 1, rfl⟩

/-- **A pool that fits is sound.** -/
theorem Fits.sound (h : Fits m size) : Sound m size where
  disjoint := h.disjoint
  inside := h.inside
  aligned := by
    intro id hid
    have := h.aligned
    rw [h.toNat_pageOfId hid]
    omega
  metas_ids := by
    refine ⟨fun id hid => h.meta_mem hid, ?_, fun p hp => ⟨_, h.id_mem hp, h.meta_of_id p hp⟩⟩
    intro id hid id' hid' he
    rw [← h.id_of_meta id hid, he, h.id_of_meta id' hid']
  id_of_meta := h.id_of_meta
  meta_of_id := h.meta_of_id
  page_injective := by
    intro p hp q hq he
    obtain ⟨i, hi, hpi⟩ := hp
    obtain ⟨j, hj, hqj⟩ := hq
    have hpage := congrArg BitVec.toNat he
    rw [h.toNat_page hi hpi, h.toNat_page hj hqj] at hpage
    apply BitVec.eq_of_toNat_eq
    omega
  id_ne_zero := by
    intro p hp hzero
    have hid := (h.id_mem hp).1
    rw [hzero] at hid
    exact absurd hid (by decide)
  stored_id := fun _ hi _ hp => h.stored_id hi hp

end

/-! ## Creation and reopening -/

/-- The first page of a new pool is on the next page boundary behind its metas. -/
theorem fits_create {base size : U64} (hone : 64 + 2 * (4096 + 64) ≤ size.toNat)
    (hmapped : base.toNat + size.toNat ≤ 2 ^ 64) : Fits (create base size) size := by
  have hn := toNat_pmemPageNumbers hone
  have hend : (base + 64 + 64 * pmemPageNumbers size + 4096).toNat =
      base.toNat + 64 + 64 * ((size.toNat - 64) / (4096 + 64) - 1) + 4096 := by
    rw [BitVec.toNat_add, BitVec.toNat_add, BitVec.toNat_add, BitVec.toNat_mul, hn, show (64 : U64).toNat = 64 from rfl,
      show (4096 : U64).toNat = 4096 from rfl]
    omega
  have haddress : (create base size).pageAddress.toNat =
      (base.toNat + 64 + 64 * ((size.toNat - 64) / (4096 + 64) - 1) + 4096) / 4096 * 4096 := by
    rw [create, toNat_and_pageMask, hend]
  have hbase : (create base size).pmemBase = base := rfl
  exact ⟨hmapped, hone, by rw [haddress, hbase]; omega, by rw [haddress, hbase]; omega, by rw [haddress]; omega⟩

/-- With page-aligned bases the pages of a remapped pool are as far from its base as they were. -/
theorem Fits.reopen {m : Mapping} {base size : U64} (h : Fits m size) (halign : m.pmemBase.toNat % 4096 = 0)
    (hbase : base.toNat % 4096 = 0) (hmapped : base.toNat + size.toNat ≤ 2 ^ 64) :
    Fits (Layout.reopen base m.pageOffset) size := by
  have := h.one
  have := h.metas_le
  have := h.pages_le
  have := h.aligned
  have hoffset : m.pageOffset.toNat = m.pageAddress.toNat - m.pmemBase.toNat := by
    have := m.pageAddress.isLt
    rw [Mapping.pageOffset, BitVec.toNat_sub]
    omega
  have haddress : (Layout.reopen base m.pageOffset).pageAddress.toNat =
      m.pageAddress.toNat - m.pmemBase.toNat + base.toNat := by
    rw [Layout.reopen, BitVec.toNat_add, hoffset]
    omega
  have hpm : (Layout.reopen base m.pageOffset).pmemBase = base := rfl
  exact ⟨hmapped, h.one, by rw [haddress, hpm]; omega, by rw [haddress, hpm]; omega, by rw [haddress]; omega⟩

/-- **The layout is sound**, where the pool is created and wherever it is mapped later. -/
theorem layout_sound (size base base' : U64) (hone : 64 + 2 * (4096 + 64) ≤ size.toNat) (halign : base.toNat % 4096 = 0)
    (hmapped : base.toNat + size.toNat ≤ 2 ^ 64) (halign' : base'.toNat % 4096 = 0)
    (hmapped' : base'.toNat + size.toNat ≤ 2 ^ 64) :
    (pmemPageNumbers size).toNat = (size.toNat - 64) / (4096 + 64) - 1 ∧ Sound (create base size) size ∧
      Sound (reopen base' (create base size).pageOffset) size :=
  ⟨toNat_pmemPageNumbers hone, (fits_create hone hmapped).sound,
    ((fits_create hone hmapped).reopen halign halign' hmapped').sound⟩

/-- The pool of 100 GB, mapped at two places. -/
theorem layout_sound_pmemSize :
    Sound (create 0x7f0000000000 (BitVec.ofNat 64 pmemSize)) (BitVec.ofNat 64 pmemSize) ∧
      Sound (reopen 0x7e0000000000 (create 0x7f0000000000 (BitVec.ofNat 64 pmemSize)).pageOffset)
        (BitVec.ofNat 64 pmemSize) :=
  (layout_sound (BitVec.ofNat 64 pmemSize) 0x7f0000000000 0x7e0000000000 (by decide) (by decide) (by decide) (by decide)
    (by decide)).2

end PmemProgram.Cbs.Layout
