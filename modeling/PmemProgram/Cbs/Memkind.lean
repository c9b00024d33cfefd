import PmemProgram.Cbs.PmemInv
import PmemProgram.Lib.Objects

/-!
# The page cache on a memory kind (`cbs_req_memkind.cpp`)

The disk map holds a pointer for every page, `0` is `NULL`; the pages come from `memkind_malloc`.

* `writeReq`, `readReq`, `deletePage` : the three requests;
* `Sound` : the pointers that are not null are to live pages, no two to the same one; `content` : the page of a request;
* `writeReq_spec`, `deletePage_spec` : what the requests change.
-/

namespace PmemProgram.Cbs.Memkind
open PmemProgram.Lib PmemProgram.Lib.Objects

/-- `disk_t`, and the pages that `memkind_malloc` has handed out. -/
structure St where
  disk : Nat → Nat → Nat
  cachedPagesCnt : Nat → Nat
  live : List Nat
  pages : Nat → Page

/-- `disk->blocks[block_id].pages[req_page_id].page`. -/
def St.page (s : St) (reqId : Nat) : Nat := s.disk (reqId >>> reqBlock) (reqId &&& reqPage)

def St.setPage (s : St) (reqId page : Nat) : St :=
  { s with
    disk := Function.update s.disk (reqId >>> reqBlock)
      (Function.update (s.disk (reqId >>> reqBlock)) (reqId &&& reqPage) page) }

def St.alloc (s : St) (page : Nat) : St := { s with live := page :: s.live }

def St.free (s : St) (page : Nat) : St := { s with live := s.live.filter (· ≠ page) }

def St.store (s : St) (page : Nat) (content : Page) : St :=
  { s with pages := Function.update s.pages page content }

/-- `memkind_malloc`. -/
def memkindMalloc : Cmd Ask St Nat := do
  let ok ← Cmd.succeeds .alloc
  if ok then .ask .object fun n => .stepGet fun s => (pick s.live n, s.alloc (pick s.live n))
  else return 0

/-- `memkind_free`. -/
def memkindFree (page : Nat) : Cmd Ask St Unit := do
  let live ← Cmd.get St.live
  Cmd.check (page ∈ live)
  Cmd.step fun s => s.free page

/-- The pointer of the request, from `memkind_malloc` if there is none. -/
def obtainPage (reqId page : Nat) : Cmd Ask St Nat :=
  if page = 0 then do
    let page ← memkindMalloc
    Cmd.modify fun s => s.setPage reqId page
    return page
  else return page

/-- `pmem_memcpy_nodrain(page, content, PAGE_SIZE)`, if there is a page. -/
def copyContent (page : Nat) (content : Page) : Cmd Ask St Unit :=
  if page ≠ 0 then do
    let live ← Cmd.get St.live
    Cmd.check (page ∈ live)
    Cmd.step fun s => s.store page content
  else return ()

/-- `write_req`. -/
def writeReq (reqId : Nat) (content : Page) : Cmd Ask St Int := do
  if reqId >>> reqBlock > diskBlockNum then
    return -1
  else
    let page ← Cmd.get fun s => s.page reqId
    let page ← obtainPage reqId page
    copyContent page content
    return 0

/-- `read_req`: the pointer that is returned; `none` is `NULL`. -/
def readReq (s : St) (reqId : Nat) : Option Nat :=
  if reqId >>> reqBlock > diskBlockNum then none
  else if s.page reqId = 0 then none
  else some (s.page reqId)

/-- What the caller of `read_req` finds behind the returned pointer. -/
def readContent (s : St) (reqId : Nat) : Option Page := (readReq s reqId).map s.pages

/-- `delete_page`. -/
def deletePage (reqId : Nat) : Cmd Ask St Unit := do
  if reqId >>> reqBlock > diskBlockNum then
    return ()
  else
    let page ← Cmd.get fun s => s.page reqId
    if page ≠ 0 then
      memkindFree page
      Cmd.modify fun s => s.setPage reqId 0
    else
      return ()

/-- `get_cached_count`. -/
def getCachedCount (s : St) : Int :=
  ((List.range diskBlockNum).foldl (fun cnt i => cnt + BitVec.ofNat 32 (s.cachedPagesCnt i)) 0#32).toInt

/-- The disk map after `cbs_init`: `memkind_calloc` has cleared it. -/
structure Cleared (s : St) : Prop where
  disk : s.disk = fun _ _ => 0
  cachedPagesCnt : s.cachedPagesCnt = fun _ => 0

/-! ## Pointers -/

/-- Pointers are to live pages, each page has one. -/
structure Sound (s : St) : Prop where
  live : ∀ r, InRange r → s.page r ≠ 0 → s.page r ∈ s.live
  inj : ∀ r q, InRange r → InRange q → s.page r = s.page q → s.page r ≠ 0 → r = q

variable {G : Ask → Nat → Prop} {s t : St} {r q : Nat} {c : Page}

theorem Cleared.page (h : Cleared s) (r : Nat) : s.page r = 0 := by
  rw [St.page, h.disk]

theorem Cleared.sound (h : Cleared s) : Sound s :=
  ⟨fun r _ hne => absurd (h.page r) hne, fun r _ _ _ _ hne => absurd (h.page r) hne⟩

theorem page_setPage (s : St) (r p q : Nat) : (s.setPage r p).page q = if q = r then p else s.page q := by
  by_cases hq : q = r
  · subst hq
    simp [St.setPage, St.page]
  · rw [if_neg hq, St.setPage, St.page]
    by_cases h₁ : q >>> reqBlock = r >>> reqBlock
    · have h₂ : q &&& reqPage ≠ r &&& reqPage := fun h₂ => hq (req_ext h₁ h₂)
      simp [St.page, h₁, h₂]
    · simp [St.page, h₁]

theorem setPage_same (s : St) (r : Nat) : s.setPage r (s.page r) = s := by
  simp [St.setPage, St.page]

theorem readContent_eq (hr : InRange r) : readContent s r = if s.page r = 0 then none else some (s.pages (s.page r)) := by
  rw [readContent, readReq, if_neg hr.block]
  split_ifs <;> rfl

/-- Weakest precondition without interference. -/
abbrev mwp {α : Type} (G : Ask → Nat → Prop) (c : Cmd Ask St α) (Q : α → St → Prop) (s : St) : Prop :=
  Cmd.wp (fun s t => s = t) G (fun _ => True) c Q s

theorem mwp_step {f : St → St} {Q : Unit → St → Prop} (hQ : Q () (f s)) : mwp G (.step f) Q s :=
  Cmd.wp_step fun _ ht => ht ▸ ⟨trivial, hQ⟩

theorem mwp_malloc {Q : Nat → St → Prop} (hnull : (∃ n, G .alloc n ∧ n ≠ 0) → Q 0 s)
    (hpage : ∀ p, p ∉ s.live → p ≠ 0 → Q p (s.alloc p)) : mwp G memkindMalloc Q s := by
  simp only [memkindMalloc, mwp, Cmd.wp_bind, Cmd.wp_succeeds, Cmd.wp_ite, Cmd.wp_pure]
  intro n hn
  refine ⟨fun _ m _ => ?_, fun hne => hnull ⟨n, hn, by simpa using hne⟩⟩
  apply Cmd.wp_stepGet
  intro u hu
  subst hu
  exact ⟨trivial, hpage _ (pick_notMem s.live m) (pick_ne_zero s.live m)⟩

/-- The page of `r` is `p` and holds `c`; the rest is as it was. -/
structure Written (s t : St) (r p : Nat) (c : Page) : Prop where
  page : ∀ q, t.page q = if q = r then p else s.page q
  nonnull : p ≠ 0
  new : s.page r = p ∨ s.page r = 0 ∧ p ∉ s.live
  pages : t.pages = Function.update s.pages p c
  live : ∀ x, x ∈ t.live ↔ x ∈ s.live ∨ x = p
  cachedPagesCnt : t.cachedPagesCnt = s.cachedPagesCnt

theorem Written.other {p : Nat} (h : Written s t r p c) (hs : Sound s) (hr : InRange r) (hq : InRange q) (hqr : q ≠ r)
    (hne : s.page q ≠ 0) : s.page q ≠ p := by
  intro heq
  rcases h.new with hold | ⟨-, hnew⟩
  · exact hqr (hs.inj q r hq hr (heq.trans hold.symm) hne)
  · exact hnew (heq ▸ hs.live q hq hne)

theorem Written.sound {p : Nat} (h : Written s t r p c) (hs : Sound s) (hr : InRange r) : Sound t := by
  refine ⟨fun q hq hne => ?_, fun q q' hq hq' heq hne => ?_⟩
  · rw [h.page] at hne ⊢
    apply (h.live _).mpr
    split_ifs at hne ⊢ with hqr
    · exact Or.inr rfl
    · exact Or.inl (hs.live q hq hne)
  · rw [h.page] at heq hne
    rw [h.page] at heq
    split_ifs at heq hne with h₁ h₂ h₂
    · rw [h₁, h₂]
    · exact absurd heq.symm (h.other hs hr hq' h₂ (heq ▸ hne))
    · exact absurd heq (h.other hs hr hq h₁ hne)
    · exact hs.inj q q' hq hq' heq hne

theorem Written.content {p : Nat} (h : Written s t r p c) (hs : Sound s) (hr : InRange r) (hq : InRange q) :
    readContent t q = if q = r then some c else readContent s q := by
  rw [readContent_eq hq, readContent_eq hq, h.page, h.pages]
  by_cases hqr : q = r
  · rw [if_pos hqr, if_pos hqr, if_neg h.nonnull, Function.update_self]
  · rw [if_neg hqr, if_neg hqr]
    split_ifs with hz
    · rfl
    · rw [Function.update_of_ne (h.other hs hr hq hqr hz)]

/-- **`write_req`** returns 0: the page has been written, or there was none and none could be had. -/
theorem writeReq_spec (hs : Sound s) (hr : InRange r) :
    mwp G (writeReq r c) (fun v t => v = 0 ∧ ((∃ p, Written s t r p c) ∨
      t = s ∧ s.page r = 0 ∧ ∃ n, G .alloc n ∧ n ≠ 0)) s := by
  simp only [writeReq, obtainPage, Cmd.wp_bind, Cmd.wp_ite, Cmd.wp_pure, Cmd.wp_get]
  refine ⟨fun hb => absurd hb hr.block, fun _ => ⟨fun hz => ?_, fun hne => ?_⟩⟩
  · refine mwp_malloc (fun hn => ?_) fun p hp hp0 => ?_
    · simp only [Cmd.wp_modify, copyContent, Cmd.wp_ite, Cmd.wp_pure]
      refine ⟨fun h0 => absurd rfl h0, fun _ => ⟨trivial, Or.inr ⟨?_, hz, hn⟩⟩⟩
      rw [← hz, setPage_same]
    · simp only [Cmd.wp_modify, copyContent, Cmd.wp_ite, Cmd.wp_pure, Cmd.wp_bind, Cmd.wp_get, Cmd.wp_check]
      refine ⟨fun _ => ⟨List.mem_cons_self, mwp_step ⟨trivial, Or.inl ⟨p, ?_⟩⟩⟩, fun h0 => absurd hp0 h0⟩
      refine ⟨fun q => page_setPage (s.alloc p) r p q, hp0, Or.inr ⟨hz, hp⟩, rfl, fun x => ?_, rfl⟩
      exact List.mem_cons.trans Or.comm
  · simp only [copyContent, Cmd.wp_ite, Cmd.wp_pure, Cmd.wp_bind, Cmd.wp_get, Cmd.wp_check]
    have hlive := hs.live r hr hne
    refine ⟨fun _ => ⟨hlive, mwp_step ⟨trivial, Or.inl ⟨s.page r, ?_⟩⟩⟩, fun h0 => absurd hne h0⟩
    refine ⟨fun q => ?_, hne, Or.inl rfl, rfl, fun x => ?_, rfl⟩
    · split_ifs with hq
      · rw [hq]
        rfl
      · rfl
    · exact ⟨Or.inl, fun h => h.elim id fun hx => hx ▸ hlive⟩

/-- The pointer of `r` is null, and its page is free. -/
structure Deleted (s t : St) (r : Nat) : Prop where
  page : ∀ q, t.page q = if q = r then 0 else s.page q
  pages : t.pages = s.pages
  live : ∀ x, x ∈ t.live ↔ x ∈ s.live ∧ (s.page r ≠ 0 → x ≠ s.page r)
  cachedPagesCnt : t.cachedPagesCnt = s.cachedPagesCnt

theorem Deleted.sound (h : Deleted s t r) (hs : Sound s) (hr : InRange r) : Sound t := by
  refine ⟨fun q hq hne => ?_, fun q q' hq hq' heq hne => ?_⟩
  · rw [h.page] at hne ⊢
    split_ifs at hne ⊢ with hqr
    · exact absurd rfl hne
    · refine (h.live _).mpr ⟨hs.live q hq hne, fun _ heq => hqr (hs.inj q r hq hr heq hne)⟩
  · rw [h.page] at heq hne
    rw [h.page] at heq
    split_ifs at heq hne with h₁ h₂ h₂
    · exact absurd rfl hne
    · exact absurd rfl hne
    · exact absurd heq hne
    · exact hs.inj q q' hq hq' heq hne

theorem Deleted.content (h : Deleted s t r) (hq : InRange q) :
    readContent t q = if q = r then none else readContent s q := by
  rw [readContent_eq hq, readContent_eq hq, h.page, h.pages]
  by_cases hqr : q = r
  · rw [if_pos hqr, if_pos hqr, if_pos rfl]
  · rw [if_neg hqr, if_neg hqr]

/-- **`delete_page`** frees the page of the request, if it has one. -/
theorem deletePage_spec (hs : Sound s) (hr : InRange r) : mwp G (deletePage r) (fun _ t => Deleted s t r) s := by
  simp only [deletePage, memkindFree, Cmd.wp_bind, Cmd.wp_ite, Cmd.wp_pure, Cmd.wp_get, Cmd.wp_check]
  refine ⟨fun hb => absurd hb hr.block, fun _ => ⟨fun hne => ⟨hs.live r hr hne, mwp_step ?_⟩, fun hz => ?_⟩⟩
  · refine ⟨fun q => page_setPage (s.free (s.page r)) r 0 q, rfl, fun x => ?_, rfl⟩
    have hmem : x ∈ s.live.filter (· ≠ s.page r) ↔ x ∈ s.live ∧ x ≠ s.page r := by simp
    exact hmem.trans (and_congr_right fun _ => ⟨fun h _ => h, fun h => h hne⟩)
  · have hz' : s.page r = 0 := not_not.mp hz
    refine ⟨fun q => ?_, rfl, fun x => ⟨fun hx => ⟨hx, fun hne => absurd hz' hne⟩, fun hx => hx.1⟩, rfl⟩
    split_ifs with hq
    · rw [hq, hz']
    · rfl

/-! No request is ever blocked. -/

theorem total_memkindMalloc : memkindMalloc.Total :=
  Cmd.total_bind (Cmd.total_succeeds _) fun _ => Cmd.total_ite (fun _ => Cmd.total_stepGet _) (Cmd.total_pure _)

theorem total_writeReq (r : Nat) (c : Page) : (writeReq r c).Total := by
  have hobtain : ∀ p, (obtainPage r p).Total := fun p => Cmd.total_ite (Cmd.total_bind total_memkindMalloc fun _ =>
    Cmd.total_bind (Cmd.total_modify _) fun _ => Cmd.total_pure _) (Cmd.total_pure _)
  have hcopy : ∀ p, (copyContent p c).Total := fun p => Cmd.total_ite (Cmd.total_bind (Cmd.total_get _) fun _ =>
    Cmd.total_bind (Cmd.total_check _) fun _ => Cmd.total_step _) (Cmd.total_pure _)
  exact Cmd.total_ite (Cmd.total_pure _) (Cmd.total_bind (Cmd.total_get _) fun _ =>
    Cmd.total_bind (hobtain _) fun _ => Cmd.total_bind (hcopy _) fun _ => Cmd.total_pure _)

theorem total_deletePage (r : Nat) : (deletePage r).Total :=
  Cmd.total_ite (Cmd.total_pure _) (Cmd.total_bind (Cmd.total_get _) fun _ =>
    Cmd.total_ite (Cmd.total_bind (Cmd.total_bind (Cmd.total_get _) fun _ => Cmd.total_bind (Cmd.total_check _) fun _ =>
      Cmd.total_step _) fun _ => Cmd.total_modify _) (Cmd.total_pure _))

end PmemProgram.Cbs.Memkind
