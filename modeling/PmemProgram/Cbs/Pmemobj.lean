import PmemProgram.Cbs.PmemInv
import PmemProgram.Lib.Tx

/-!
# The page store on persistent objects (`cbs_req_pmemobj.cpp`)

The root has an object id for every block, a block one for each of its pages and the count of them, a page its content.

* `writeReq`, `readReq`, `deletePage` : the three requests over the cells of `Cell`;
* `Ref`, `Sound` : the references of the root and of the blocks; those that are not null are to live objects, no two to
  the same one;
* `cached` : the page of a request; `Written` : what a write changes.
-/

namespace PmemProgram.Cbs.Pmemobj
open PmemProgram.Lib PmemProgram.Lib.Tx PmemProgram.Lib.Objects

/-- `rootp->blocks[i]`, and the fields of `struct block` and `struct page` in the object `o`. -/
inductive Cell
  | blocks (i : Nat)
  | pages (o i : Nat)
  | cachedPageCnt (o : Nat)
  | rpage (o : Nat)
  deriving DecidableEq

/-- What the cells hold: `PMEMoid`, `uint64_t` or the bytes of a page. -/
abbrev Cell.Val : Cell → Type
  | blocks _ => Nat
  | pages _ _ => Nat
  | cachedPageCnt _ => Nat
  | rpage _ => Page

instance : Cells Cell where
  owner
    | .blocks _ => none
    | .pages o _ => some o
    | .cachedPageCnt o => some o
    | .rpage o => some o

/-- `memset(blockp, 0x0, sizeof(struct block))`. -/
def zeroBlock (o : Nat) : ∀ a : Cell, Option a.Val
  | .blocks _ => none
  | .pages o' i => if o' = o ∧ i < blockPageNum then some (0 : Nat) else none
  | .cachedPageCnt o' => if o' = o then some (0 : Nat) else none
  | .rpage _ => none

/-- `blockp->cached_page_cnt++`. -/
def countPage (o : Nat) : Code Cell.Val Unit := do
  let cnt ← load (.cachedPageCnt o)
  store (.cachedPageCnt o) ((cnt + 1) % 2 ^ 64)

/-- The branch of `write_req` for a block that is not there; `false` if an allocation fails. -/
def writeNewBlock (blockId reqPageId : Nat) (content : Page) : Code Cell.Val Bool := do
  let some blockOid ← txAlloc | return false
  direct blockOid
  storeRange (zeroBlock blockOid)
  let some pageOid ← txAlloc | return false
  direct pageOid
  store (.rpage pageOid) content
  txAdd [.blocks blockId]
  store (.blocks blockId) blockOid
  txAdd [.pages blockOid reqPageId]
  store (.pages blockOid reqPageId) pageOid
  txAdd [.cachedPageCnt blockOid]
  countPage blockOid
  return true

/-- The branch for a page that is not there. -/
def writeNewPage (blockOid reqPageId : Nat) (content : Page) : Code Cell.Val Bool := do
  let some pageOid ← txAlloc | return false
  direct pageOid
  store (.rpage pageOid) content
  txAdd [.pages blockOid reqPageId]
  store (.pages blockOid reqPageId) pageOid
  txAdd [.cachedPageCnt blockOid]
  countPage blockOid
  return true

/-- The branch for a page that is there. -/
def overwritePage (pageOid : Nat) (content : Page) : Code Cell.Val Bool := do
  direct pageOid
  txAdd [.rpage pageOid]
  store (.rpage pageOid) content
  return true

/-- What `write_req` does in its transaction. -/
def writePage (blockId reqPageId : Nat) (content : Page) : Code Cell.Val Bool := do
  let blockOid ← load (.blocks blockId)
  if blockOid = 0 then writeNewBlock blockId reqPageId content
  else
    direct blockOid
    let pageOid ← load (.pages blockOid reqPageId)
    if pageOid = 0 then writeNewPage blockOid reqPageId content
    else overwritePage pageOid content

/-- `write_req`. -/
def writeReq (reqId : Nat) (content : Page) : Code Cell.Val Unit := do
  let blockId := reqId >>> reqBlock
  let reqPageId := reqId &&& reqPage
  .check (reqPageId < blockPageNum)
  txBegin
  if ← writePage blockId reqPageId content then txEnd else txAbort

/-- The object id of the page of a request, or null. -/
def findPage (reqId : Nat) : Code Cell.Val Nat := do
  let blockOid ← load (.blocks (reqId >>> reqBlock))
  if blockOid = 0 then return 0
  else
    direct blockOid
    load (Cell.pages blockOid (reqId &&& reqPage))

/-- `read_req`, and the use of the page that it returns. -/
def readReq (reqId : Nat) : Code Cell.Val (Option Page) := do
  let pageOid ← findPage reqId
  if pageOid = 0 then return none
  else
    direct pageOid
    return some (← load (Cell.rpage pageOid))

/-- `delete_page`. -/
def deletePage (reqId : Nat) : Code Cell.Val Unit := do
  let pageOid ← findPage reqId
  if pageOid = 0 then return ()
  else
    txBegin
    txFree pageOid
    txEnd

/-- `get_cached_count`. Its variable `cnt` is not initialised: the sum starts from what it happens to hold. -/
def getCachedCount (s : Store Cell.Val) (cnt : BitVec 32) : Int :=
  ((List.range diskBlockNum).foldl (fun cnt i =>
    if s.mem (.blocks i) = (0 : Nat) then cnt
    else cnt + BitVec.ofNat 32 (s.mem (.cachedPageCnt (s.mem (.blocks i))))) cnt).toInt

/-! ## References -/

/-- The places that hold an object id: the root's for a block, and that of block `b` for its page `i`. -/
inductive Ref
  | block (b : Nat)
  | page (b i : Nat)
  deriving DecidableEq

def Ref.InRange : Ref → Prop
  | block b => b < diskBlockNum
  | page b i => b < diskBlockNum ∧ i < blockPageNum

/-- The place for the page of a request. -/
def pageRef (reqId : Nat) : Ref := .page (reqId >>> reqBlock) (reqId &&& reqPage)

theorem reqPage_lt (r : Nat) : r &&& reqPage < blockPageNum := by
  rw [reqPage, show 0x3ff = 2 ^ 10 - 1 from rfl, Nat.and_two_pow_sub_one_eq_mod]
  exact Nat.mod_lt _ (by decide)

theorem inRange_pageRef {r : Nat} (h : InRange r) : (pageRef r).InRange := by
  refine ⟨?_, reqPage_lt r⟩
  rw [Nat.shiftRight_eq_div_pow]
  have := h.lt
  simp only [reqBlock, diskBlockNum]
  omega

theorem inRange_block {r : Nat} (h : InRange r) : (Ref.block (r >>> reqBlock)).InRange := (inRange_pageRef h).1

theorem pageRef_injective {r q : Nat} (h : pageRef r = pageRef q) : r = q := by
  injection h with h₁ h₂
  exact req_ext h₁ h₂

section
variable (s : Store Cell.Val)

/-- The object id at a place. -/
def oid : Ref → Nat
  | .block b => s.mem (.blocks b)
  | .page b i => if s.mem (.blocks b) = (0 : Nat) then 0 else s.mem (.pages (s.mem (.blocks b)) i)

/-- The page of a request. -/
def cached (r : Nat) : Option Page := if oid s (pageRef r) = 0 then none else some (s.mem (.rpage (oid s (pageRef r))))

/-- References are to live objects, each object has one. -/
structure Sound : Prop where
  idle : s.Idle
  live : ∀ x, x.InRange → oid s x ≠ 0 → oid s x ∈ s.live
  inj : ∀ x y, x.InRange → y.InRange → oid s x = oid s y → oid s x ≠ 0 → x = y

/-- A pool that has just been created. -/
structure Created : Prop where
  idle : s.Idle
  blocks : ∀ b, s.mem (.blocks b) = (0 : Nat)

end

variable {s t : Store Cell.Val}

theorem oid_page {b i : Nat} (h : oid s (.block b) ≠ 0) : oid s (.page b i) = s.mem (.pages (oid s (.block b)) i) :=
  if_neg h

theorem oid_page_none {b i : Nat} (h : oid s (.block b) = 0) : oid s (.page b i) = 0 := if_pos h

theorem Created.oid (h : Created s) (x : Ref) : oid s x = 0 := by
  cases x with
  | block b => exact h.blocks b
  | page b i => exact oid_page_none (h.blocks b)

theorem Created.sound (h : Created s) : Sound s :=
  ⟨h.idle, fun x _ hx => absurd (h.oid x) hx, fun x _ _ _ _ hx => absurd (h.oid x) hx⟩

theorem Created.cached (h : Created s) (r : Nat) : cached s r = none := if_pos (h.oid _)

/-- A pool whose root is zeroed and that has no objects. -/
def emptyPool : Store Cell.Val :=
  Store.closed (fun
    | .blocks _ => (0 : Nat)
    | .pages _ _ => (0 : Nat)
    | .cachedPageCnt _ => (0 : Nat)
    | .rpage _ => fun _ => 0) []

theorem created_emptyPool : Created emptyPool := ⟨Store.idle_closed _ _, fun _ => rfl⟩

/-! ## What a write changes -/

/-- The page of block `b` at `i` is `q`, in the object `o`, and holds `c`; everything else is as it was. -/
structure Written (s t : Store Cell.Val) (b i : Nat) (c : Page) (o q : Nat) : Prop where
  idle : t.Idle
  block : o ≠ 0 ∧ (oid s (.block b) = o ∨ oid s (.block b) = 0 ∧ o ∉ s.live)
  page : q ≠ 0 ∧ (oid s (.page b i) = q ∨ oid s (.page b i) = 0 ∧ q ∉ s.live ∧ q ≠ o)
  oids : ∀ x, x.InRange → oid t x = if x = .page b i then q else if x = .block b then o else oid s x
  content : ∀ p, p ∈ s.live ∨ p = q → t.mem (.rpage p) = if p = q then c else s.mem (.rpage p)
  live : ∀ p, p ∈ s.live ∨ p = o ∨ p = q → p ∈ t.live

theorem Written.sound {b i o q : Nat} {c : Page} (h : Written s t b i c o q) (hs : Sound s) (hb : b < diskBlockNum)
    (hi : i < blockPageNum) : Sound t := by
  have hblock : Ref.InRange (.block b) := hb
  have hpage : Ref.InRange (.page b i) := ⟨hb, hi⟩
  have hoid := h.oids
  -- an object of another place is not one of the two
  have hother : ∀ x, x.InRange → x ≠ .page b i → x ≠ .block b → oid s x ≠ 0 → oid s x ≠ q ∧ oid s x ≠ o := by
    intro x hx hxp hxb hne
    have hlive := hs.live x hx hne
    constructor
    · rintro rfl
      rcases h.page.2 with heq | ⟨-, hnew, -⟩
      · exact hxp (hs.inj x _ hx hpage heq.symm hne)
      · exact hnew hlive
    · rintro rfl
      rcases h.block.2 with heq | ⟨-, hnew⟩
      · exact hxb (hs.inj x _ hx hblock heq.symm hne)
      · exact hnew hlive
  have hoq : o ≠ q := by
    rintro rfl
    rcases h.page.2 with hp | ⟨-, -, hne⟩
    · rcases h.block.2 with ho | ⟨ho, -⟩
      · have heq := hs.inj (.block b) (.page b i) hblock hpage (ho.trans hp.symm) (by rw [ho]; exact h.block.1)
        cases heq
      · rw [oid_page_none ho] at hp
        exact h.page.1 hp.symm
    · exact hne rfl
  refine ⟨h.idle, fun x hx hne => ?_, fun x y hx hy heq hne => ?_⟩
  · rw [hoid x hx] at hne ⊢
    apply h.live
    split_ifs at hne ⊢
    · exact Or.inr (Or.inr rfl)
    · exact Or.inr (Or.inl rfl)
    · exact Or.inl (hs.live x hx hne)
  · rw [hoid x hx] at heq hne
    rw [hoid y hy] at heq
    split_ifs at heq hne with hxp hyp hyb hxb hyp hyb hyp hyb
    · rw [hxp, hyp]
    · exact absurd heq.symm hoq
    · exact absurd heq.symm (hother y hy hyp hyb (heq ▸ hne)).1
    · exact absurd heq hoq
    · rw [hxb, hyb]
    · exact absurd heq.symm (hother y hy hyp hyb (heq ▸ hne)).2
    · exact absurd heq (hother x hx hxp hxb hne).1
    · exact absurd heq (hother x hx hxp hxb hne).2
    · exact hs.inj x y hx hy heq hne

theorem Written.cached {r o q : Nat} {c : Page} (h : Written s t (r >>> reqBlock) (r &&& reqPage) c o q) (hs : Sound s)
    (hr : InRange r) {r' : Nat} (hr' : InRange r') : cached t r' = if r' = r then some c else cached s r' := by
  have hoid := h.oids _ (inRange_pageRef hr')
  unfold Pmemobj.cached
  by_cases heq : r' = r
  · subst heq
    have hq : oid t (pageRef r') = q := hoid.trans (if_pos rfl)
    rw [hq, if_neg h.page.1, if_pos rfl, h.content q (Or.inr rfl), if_pos rfl]
  · have hsame : oid t (pageRef r') = oid s (pageRef r') := by
      rw [hoid, if_neg, if_neg]
      · exact fun h => Ref.noConfusion h
      · exact fun h => heq (pageRef_injective h)
    rw [hsame, if_neg heq]
    split_ifs with hz
    · rfl
    · have hlive := hs.live _ (inRange_pageRef hr') hz
      rw [h.content _ (Or.inl hlive), if_neg]
      intro hq
      rcases h.page.2 with hp | ⟨-, hnew, -⟩
      · have hplace := hs.inj _ _ (inRange_pageRef hr') (inRange_pageRef hr) (hq.trans hp.symm) hz
        exact heq (pageRef_injective hplace)
      · exact hnew (hq ▸ hlive)

/-! ## The three branches of a write -/

theorem put_blocks (u : Store Cell.Val) (b o b' : Nat) :
    (u.put (.blocks b) o).mem (.blocks b') = if b' = b then o else u.mem (.blocks b') := by
  split_ifs with h
  · subst h
    exact u.put_mem_self _ _
  · exact u.put_mem_of_ne _ fun heq => h (Cell.blocks.inj heq)

theorem put_pages (u : Store Cell.Val) (o i q o' i' : Nat) :
    (u.put (.pages o i) q).mem (.pages o' i') = if o' = o ∧ i' = i then q else u.mem (.pages o' i') := by
  split_ifs with h
  · obtain ⟨rfl, rfl⟩ := h
    exact u.put_mem_self _ _
  · exact u.put_mem_of_ne _ fun heq => h (Cell.pages.inj heq)

theorem put_rpage (u : Store Cell.Val) (q : Nat) (c : Page) (q' : Nat) :
    (u.put (.rpage q) c).mem (.rpage q') = if q' = q then c else u.mem (.rpage q') := by
  split_ifs with h
  · subst h
    exact u.put_mem_self _ _
  · exact u.put_mem_of_ne _ fun heq => h (Cell.rpage.inj heq)

section
variable {G : Ask → Nat → Prop} {p : Store Cell.Val} {b i o q : Nat} {c : Page}

/-- The commit of a transaction that has set the references of block `b` and page `i`, where they were null. -/
theorem Written.of_mem (hs : Sound s) (hb : b < diskBlockNum) (hfreed : t.freed = [])
    (ho : o ≠ 0 ∧ (oid s (.block b) = o ∨ oid s (.block b) = 0 ∧ o ∉ s.live))
    (hq : q ≠ 0 ∧ (oid s (.page b i) = q ∨ oid s (.page b i) = 0 ∧ q ∉ s.live ∧ q ≠ o))
    (hblocks : ∀ b', t.mem (.blocks b') = if b' = b then o else s.mem (.blocks b'))
    (hpages : ∀ o' i', i' < blockPageNum → t.mem (.pages o' i') =
      if o' = o ∧ i' = i then q else if o' = o ∧ oid s (.block b) = 0 then 0 else s.mem (.pages o' i'))
    (hrpage : ∀ q', t.mem (.rpage q') = if q' = q then c else s.mem (.rpage q'))
    (hlive : ∀ x, x ∈ s.live ∨ x = o ∨ x = q → x ∈ t.live) : Written s t.commit b i c o q := by
  refine ⟨Store.idle_closed _ _, ho, hq, fun x hx => ?_, fun x _ => hrpage x, fun x hx => ?_⟩
  rotate_left
  · rw [Store.commit_live hfreed]
    exact hlive x hx
  cases x with
  | block b' =>
    show t.mem (.blocks b') = _
    rw [hblocks b', if_neg (fun h => Ref.noConfusion h)]
    by_cases hb' : b' = b
    · rw [if_pos hb', if_pos (congrArg Ref.block hb')]
    · rw [if_neg hb', if_neg (fun h => hb' (Ref.block.inj h))]
      rfl
  | page b' i' =>
    rw [if_neg (c := Ref.page b' i' = .block b) (fun h => Ref.noConfusion h)]
    show (if t.mem (.blocks b') = (0 : Nat) then (0 : Nat) else t.mem (.pages (t.mem (.blocks b')) i')) = _
    rw [hblocks b']
    by_cases hb' : b' = b
    · subst hb'
      rw [if_pos rfl, if_neg ho.1, hpages o i' hx.2]
      by_cases hi' : i' = i
      · rw [if_pos ⟨rfl, hi'⟩, if_pos (congrArg _ hi')]
      · rw [if_neg (fun h => hi' h.2), if_neg (fun h => hi' (Ref.page.inj h).2)]
        rcases ho.2 with hold | ⟨hnew, -⟩
        · rw [if_neg (fun h => ho.1 (hold.symm.trans h.2)), oid_page (by rw [hold]; exact ho.1), hold]
        · rw [if_pos ⟨rfl, hnew⟩, oid_page_none hnew]
    · rw [if_neg hb', if_neg (fun h => hb' (Ref.page.inj h).1)]
      by_cases hz : s.mem (.blocks b') = (0 : Nat)
      · rw [if_pos hz]
        exact (oid_page_none hz).symm
      · have hne : s.mem (.blocks b') ≠ o := by
          intro heq
          rcases ho.2 with hold | ⟨-, hnew⟩
          · exact hb' (Ref.block.inj (hs.inj (.block b') (.block b) hx.1 hb (heq.trans hold.symm) hz))
          · exact hnew (heq ▸ hs.live (.block b') hx.1 hz)
        rw [if_neg hz, hpages _ i' hx.2, if_neg (fun h => hne h.1), if_neg (fun h => hne h.1)]
        exact (oid_page hz).symm

/-- What the transaction of a write leaves before its end. -/
def Filled (G : Ask → Nat → Prop) (p : Store Cell.Val) (b i : Nat) (c : Page) (done : Bool) (u : Store Cell.Val) : Prop :=
  Covered p u ∧
    if done then u.depth = 1 ∧ ∃ o q, Written p u.commit b i c o q else ∃ n, G .alloc n ∧ n ≠ 0

theorem overwritePage_filled (hs : Sound p) (hb : b < diskBlockNum) (hi : i < blockPageNum) (ho : oid p (.block b) ≠ 0)
    (hq : oid p (.page b i) ≠ 0) :
    twp G (Undone p) (overwritePage (oid p (.page b i)) c) (Filled G p b i c) p.begin := by
  have hlive := hs.live (.page b i) ⟨hb, hi⟩ hq
  unfold overwritePage
  refine (Cmd.wp_bind _ _ _ _).mpr (wp_direct.mpr ⟨hlive, ?_⟩)
  refine (Cmd.wp_bind _ _ _ _).mpr (wp_txAdd (Covered.refl hs.idle).begin fun h₁ => ?_)
  refine (Cmd.wp_bind _ _ _ _).mpr (wp_store h₁ (fun _ => ?_) fun h₂ => ?_)
  · simp [Store.add]
  refine ⟨h₂, ?_, oid p (.block b), oid p (.page b i), ?_⟩
  · exact congrArg (· + 1) hs.idle.depth
  · refine Written.of_mem hs hb hs.idle.freed ⟨ho, Or.inl rfl⟩ ⟨hq, Or.inl rfl⟩ ?_ ?_ ?_ ?_
    · intro b'
      simp only [Store.put_mem_of_ne, ne_eq, reduceCtorEq, not_false_eq_true, Store.add_mem, Store.begin_mem]
      split_ifs with hb'
      · rw [hb']
        rfl
      · rfl
    · intro o' i' _
      simp only [Store.put_mem_of_ne, ne_eq, reduceCtorEq, not_false_eq_true, Store.add_mem, Store.begin_mem]
      split_ifs with hpage hnew
      · rw [hpage.1, hpage.2]
        exact (oid_page ho).symm
      · exact absurd hnew.2 ho
      · rfl
    · intro q'
      exact put_rpage _ _ _ _
    · intro x hx
      rcases hx with hx | hx | hx
      · exact hx
      · exact hx ▸ hs.live _ hb ho
      · exact hx ▸ hlive

theorem countPage_covered {u : Store Cell.Val} {Q : Unit → Store Cell.Val → Prop} (h : Covered p u)
    (hsaved : u.saved (.cachedPageCnt o) ≠ none)
    (hQ : ∀ v, Covered p (u.put (.cachedPageCnt o) v) → Q () (u.put (.cachedPageCnt o) v)) :
    twp G (Undone p) (countPage o) Q u := by
  unfold countPage
  refine (Cmd.wp_bind _ _ _ _).mpr (wp_load.mpr ?_)
  exact wp_store h (fun _ => hsaved) fun h' => hQ _ h'

theorem writeNewPage_filled (hs : Sound p) (hb : b < diskBlockNum) (ho : oid p (.block b) ≠ 0)
    (hq : oid p (.page b i) = 0) :
    twp G (Undone p) (writeNewPage (oid p (.block b)) i c) (Filled G p b i c) p.begin := by
  have hblock := hs.live (.block b) hb ho
  unfold writeNewPage
  refine (Cmd.wp_bind _ _ _ _).mpr (wp_txAlloc (Covered.refl hs.idle).begin (fun hn => ?_) fun q hqlive hq0 h₁ => ?_)
  · exact ⟨(Covered.refl hs.idle).begin, hn⟩
  have hne : q ≠ oid p (.block b) := fun h => hqlive (h ▸ hblock)
  have hnew : ¬ Alive p (.rpage q) := h₁.fresh rfl List.mem_cons_self
  refine (Cmd.wp_bind _ _ _ _).mpr (wp_direct.mpr ⟨List.mem_cons_self, ?_⟩)
  refine (Cmd.wp_bind _ _ _ _).mpr (wp_store h₁ (fun ha => absurd ha hnew) fun h₂ => ?_)
  refine (Cmd.wp_bind _ _ _ _).mpr (wp_txAdd h₂ fun h₃ => ?_)
  refine (Cmd.wp_bind _ _ _ _).mpr (wp_store h₃ (fun _ => ?_) fun h₄ => ?_)
  · simp [Store.add]
  refine (Cmd.wp_bind _ _ _ _).mpr (wp_txAdd h₄ fun h₅ => ?_)
  refine (Cmd.wp_bind _ _ _ _).mpr (countPage_covered h₅ ?_ fun v h₆ => ?_)
  · simp [Store.add]
  refine ⟨h₆, ?_, oid p (.block b), q, ?_⟩
  · exact congrArg (· + 1) hs.idle.depth
  · refine Written.of_mem hs hb hs.idle.freed ⟨ho, Or.inl rfl⟩ ⟨hq0, Or.inr ⟨hq, hqlive, hne⟩⟩ ?_ ?_ ?_ ?_
    · intro b'
      simp only [Store.put_mem_of_ne, ne_eq, reduceCtorEq, not_false_eq_true, Store.add_mem, Store.alloc_mem,
        Store.begin_mem]
      split_ifs with hb'
      · rw [hb']
        rfl
      · rfl
    · intro o' i' _
      simp only [Store.put_mem_of_ne, ne_eq, reduceCtorEq, not_false_eq_true, Store.add_mem, Store.alloc_mem,
        Store.begin_mem, put_pages]
      rw [if_neg (c := o' = oid p (.block b) ∧ oid p (.block b) = 0) (fun h => ho h.2)]
    · intro q'
      simp only [Store.put_mem_of_ne, ne_eq, reduceCtorEq, not_false_eq_true, Store.add_mem, Store.alloc_mem,
        Store.begin_mem, put_rpage]
    · intro x hx
      rcases hx with hx | hx | hx
      · exact List.mem_cons_of_mem _ hx
      · exact List.mem_cons_of_mem _ (hx ▸ hblock)
      · exact hx ▸ List.mem_cons_self

theorem writeNewBlock_filled (hs : Sound p) (hb : b < diskBlockNum) (ho : oid p (.block b) = 0) :
    twp G (Undone p) (writeNewBlock b i c) (Filled G p b i c) p.begin := by
  have h₀ := (Covered.refl hs.idle).begin
  unfold writeNewBlock
  refine (Cmd.wp_bind _ _ _ _).mpr (wp_txAlloc h₀ (fun hn => ⟨h₀, hn⟩) fun o holive ho0 h₁ => ?_)
  have hblock : ∀ a, Cells.owner a = some o → ¬ Alive p a := fun a ha => h₁.fresh ha List.mem_cons_self
  refine (Cmd.wp_bind _ _ _ _).mpr (wp_direct.mpr ⟨List.mem_cons_self, ?_⟩)
  refine (Cmd.wp_bind _ _ _ _).mpr (wp_storeRange h₁ (fun a ha halive => ?_) fun h₂ => ?_)
  · refine absurd halive (hblock a ?_)
    cases a <;> simp_all [zeroBlock, Cells.owner]
  refine (Cmd.wp_bind _ _ _ _).mpr (wp_txAlloc h₂ (fun hn => ⟨h₂, hn⟩) fun q hqlive hq0 h₃ => ?_)
  have hpage : ¬ Alive p (.rpage q) := h₃.fresh rfl List.mem_cons_self
  refine (Cmd.wp_bind _ _ _ _).mpr (wp_direct.mpr ⟨List.mem_cons_self, ?_⟩)
  refine (Cmd.wp_bind _ _ _ _).mpr (wp_store h₃ (fun ha => absurd ha hpage) fun h₄ => ?_)
  refine (Cmd.wp_bind _ _ _ _).mpr (wp_txAdd h₄ fun h₅ => ?_)
  refine (Cmd.wp_bind _ _ _ _).mpr (wp_store h₅ (fun _ => ?_) fun h₆ => ?_)
  · simp [Store.add]
  refine (Cmd.wp_bind _ _ _ _).mpr (wp_txAdd h₆ fun h₇ => ?_)
  refine (Cmd.wp_bind _ _ _ _).mpr (wp_store h₇ (fun _ => ?_) fun h₈ => ?_)
  · simp [Store.add]
  refine (Cmd.wp_bind _ _ _ _).mpr (wp_txAdd h₈ fun h₉ => ?_)
  refine (Cmd.wp_bind _ _ _ _).mpr (countPage_covered h₉ ?_ fun v h => ?_)
  · simp [Store.add]
  refine ⟨h, congrArg (· + 1) hs.idle.depth, o, q, ?_⟩
  have hne : q ≠ o := fun heq => hqlive (heq ▸ List.mem_cons_self)
  have hqnew : q ∉ p.live := fun hq => hqlive (List.mem_cons_of_mem _ hq)
  refine Written.of_mem hs hb hs.idle.freed ⟨ho0, Or.inr ⟨ho, holive⟩⟩
    ⟨hq0, Or.inr ⟨oid_page_none ho, hqnew, hne⟩⟩ (fun b' => ?_) (fun o' i' hi' => ?_) (fun q' => ?_) (fun x hx => ?_)
  · simp only [Store.put_mem_of_ne, ne_eq, reduceCtorEq, not_false_eq_true, Store.add_mem, Store.alloc_mem,
      Store.begin_mem, Store.fill_mem, put_blocks]
    rfl
  · simp only [Store.put_mem_of_ne, ne_eq, reduceCtorEq, not_false_eq_true, Store.add_mem, Store.alloc_mem,
      Store.begin_mem, Store.fill_mem, put_pages, zeroBlock]
    by_cases hqi : o' = o ∧ i' = i
    · rw [if_pos hqi, if_pos hqi]
    · rw [if_neg hqi, if_neg hqi]
      by_cases ho' : o' = o
      · rw [if_pos ⟨ho', hi'⟩, if_pos ⟨ho', ho⟩]
        rfl
      · rw [if_neg (fun h => ho' h.1), if_neg (fun h => ho' h.1)]
        rfl
  · simp only [Store.put_mem_of_ne, ne_eq, reduceCtorEq, not_false_eq_true, Store.add_mem, Store.alloc_mem,
      Store.begin_mem, Store.fill_mem, put_rpage]
    rfl
  · rcases hx with hx | hx | hx
    · exact List.mem_cons_of_mem _ (List.mem_cons_of_mem _ hx)
    · exact hx ▸ List.mem_cons_of_mem _ List.mem_cons_self
    · exact hx ▸ List.mem_cons_self

theorem writePage_filled (hs : Sound p) (hb : b < diskBlockNum) (hi : i < blockPageNum) :
    twp G (Undone p) (writePage b i c) (Filled G p b i c) p.begin := by
  unfold writePage
  refine (Cmd.wp_bind _ _ _ _).mpr (wp_load.mpr ((Cmd.wp_ite _ _ _).mpr ⟨fun ho => ?_, fun ho => ?_⟩))
  · exact writeNewBlock_filled hs hb ho
  refine (Cmd.wp_bind _ _ _ _).mpr (wp_direct.mpr ⟨hs.live (.block b) hb ho, ?_⟩)
  refine (Cmd.wp_bind _ _ _ _).mpr (wp_load.mpr ?_)
  have hoid : oid p (.page b i) = p.mem (.pages (oid p (.block b)) i) := oid_page ho
  refine (Cmd.wp_ite _ _ _).mpr ⟨fun hq => ?_, fun hq => ?_⟩
  · exact writeNewPage_filled hs hb ho (hoid.trans hq)
  · have hfill := overwritePage_filled (G := G) (c := c) hs hb hi ho (fun h => hq (hoid.symm.trans h))
    rwa [hoid] at hfill

/-- A write is done, or an allocation has failed and nothing is done; a crash in it leaves what was there. -/
theorem wp_writeReq {r : Nat} (hs : Sound s) (hr : InRange r) :
    twp G (Undone s) (writeReq r c)
      (fun _ t => (∃ o q, Written s t (r >>> reqBlock) (r &&& reqPage) c o q) ∨
        (Same s t ∧ t.Idle ∧ ∃ n, G .alloc n ∧ n ≠ 0)) s := by
  obtain ⟨hb, hi⟩ := inRange_pageRef hr
  refine (Cmd.wp_bind _ _ _ _).mpr ((Cmd.wp_check _ _).mpr ⟨hi, ?_⟩)
  refine (Cmd.wp_bind _ _ _ _).mpr (wp_txBegin (Covered.refl hs.idle) fun _ => ?_)
  refine (Cmd.wp_bind _ _ _ _).mpr (Cmd.wp_conseq (writePage_filled hs hb hi) fun done u hu => ?_)
  obtain ⟨hcovered, hdone⟩ := hu
  cases done with
  | true =>
    obtain ⟨hdepth, o, q, hw⟩ := hdone
    refine wp_txEnd hcovered (Or.inl ⟨o, q, ?_⟩)
    rwa [Store.finish_outermost hdepth.le]
  | false => exact wp_txAbort hcovered fun hsame hidle => Or.inr ⟨hsame, hidle, hdone⟩

end

theorem Sound.alive_pages (h : Sound s) {b i : Nat} (hb : b < diskBlockNum) (ho : oid s (.block b) ≠ 0) :
    Alive s (.pages (oid s (.block b)) i) := by
  intro o heq
  cases heq
  exact h.live (.block b) hb ho

theorem Sound.oid_same (h : Sound s) (hst : Same s t) {x : Ref} (hx : x.InRange) : oid t x = oid s x := by
  have hblock : ∀ b, t.mem (.blocks b) = s.mem (.blocks b) := fun b => hst.mem _ fun o heq => by cases heq
  cases x with
  | block b => exact hblock b
  | page b i =>
    by_cases ho : oid s (.block b) = 0
    · rw [oid_page_none ho, oid_page_none ((hblock b).trans ho)]
    · have ho' : oid t (.block b) ≠ 0 := fun h => ho ((hblock b).symm.trans h)
      rw [oid_page ho, oid_page ho', ← hst.mem _ (h.alive_pages hx.1 ho)]
      exact congrArg (fun o => t.mem (.pages o i)) (hblock b)

/-- What is left as it was is sound, and has the same pages. -/
theorem Sound.same (h : Sound s) (hst : Same s t) (ht : t.Idle) : Sound t := by
  refine ⟨ht, fun x hx hne => ?_, fun x y hx hy heq hne => ?_⟩
  · rw [h.oid_same hst hx] at hne ⊢
    rw [hst.live]
    exact h.live x hx hne
  · rw [h.oid_same hst hx] at heq hne
    rw [h.oid_same hst hy] at heq
    exact h.inj x y hx hy heq hne

end PmemProgram.Cbs.Pmemobj
