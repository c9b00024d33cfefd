import PmemProgram.Cbs.Pmem
import PmemProgram.Lib.Machine

/-!
# The store in a mapped file (`cbs_req_ssd.cpp`)

The page of a request is at `req_id << 12` in the mapping. The system writes bytes of the mapping to the file when it likes,
and all of a page during `pmem_msync`.

* `writeReq`, `readReq` : the two requests; `WritesBack` : what the system does between two actions;
* `arrayStep` : the requests on an array of pages, with the ids modulo `2 ^ 52`;
* `Holds` : the mapping has the pages of the array, and so has the file if no `pmem_msync` fails; `Mixed` : during a write;
* `ssd_is_array` : the runs, the faults and what a failure leaves in the file.
-/

namespace PmemProgram.Cbs.Ssd
open PmemProgram.Lib

/-- `PMEM_SIZE`. -/
def pmemSize : Nat := 100 * 1024 * 1024 * 1024

/-- The bytes of the mapping, and those of the file behind it. -/
structure St where
  memory : Nat → UInt8
  file : Nat → UInt8

/-- Does `pmem_msync` succeed. -/
inductive Ask
  | msync

/-- `req_id << 12`. -/
def pageOffset (reqId : BitVec 64) : Nat := (reqId <<< 12).toNat

def St.store (s : St) (o : Nat) (b : UInt8) : St := { s with memory := Function.update s.memory o b }

/-- The page at this offset has been written to the file. -/
def St.sync (s : St) (offset : Nat) : St :=
  { s with file := fun o => if offset ≤ o ∧ o < offset + 4096 then s.memory o else s.file o }

/-- The page at this offset is in the mapping. Irreducible, as is the copy of a page: unfolded they are
thousands of steps. -/
@[irreducible] def inside (offset : Nat) : Bool := offset + 4096 ≤ pmemSize

/-- `memcpy` to this offset, of these bytes. -/
def copyBytes (offset : Nat) (content : Page) : List (Fin 4096) → Cmd Ask St Unit
  | [] => return ()
  | k :: ks => do
    Cmd.step fun s => s.store (offset + k) (content k)
    copyBytes offset content ks

/-- `memcpy` of a page. -/
@[irreducible] def memcpyPage (offset : Nat) (content : Page) : Cmd Ask St Unit :=
  copyBytes offset content (List.finRange 4096)

/-- `pmem_msync`; its result is not looked at. -/
def pmemMsync (offset : Nat) : Cmd Ask St Unit := do
  let ok ← Cmd.succeeds .msync
  if ok then Cmd.step fun s => s.sync offset
  else return ()

/-- `write_req`; the assertion is the fault of an access beyond the mapping. -/
def writeReq (reqId : BitVec 64) (content : Page) : Cmd Ask St Int := do
  Cmd.check (inside (pageOffset reqId))
  memcpyPage (pageOffset reqId) content
  pmemMsync (pageOffset reqId)
  return 0

/-- `read_req`: the pointer that is returned, from `pmem_base`. -/
def readReq (reqId : BitVec 64) : Nat := pageOffset reqId

/-- What the caller of `read_req` finds behind the pointer. -/
def readContent (reqId : BitVec 64) : Cmd Ask St Page := do
  Cmd.check (inside (readReq reqId))
  Cmd.get fun s k => s.memory (readReq reqId + k)

inductive Op
  | write (r : BitVec 64) (c : Page)
  | read (r : BitVec 64)

def Op.reqId : Op → BitVec 64
  | write r _ => r
  | read r => r

def perform : Op → Cmd Ask St (Option Page)
  | .write r c => do
    let _ ← writeReq r c
    return none
  | .read r => do
    let page ← readContent r
    return some page

abbrev serveAll (ops : List Op) : Cmd Ask St (List (Option Page)) := Machine.serveAll perform ops

/-- The system has written some bytes of the mapping to the file. -/
def WritesBack (s t : St) : Prop := t.memory = s.memory ∧ ∀ o, t.file o = s.file o ∨ t.file o = s.memory o

/-! ## The array -/

/-- The page of a request. -/
def index (reqId : BitVec 64) : Nat := reqId.toNat % 2 ^ 52

/-- The pages of the mapping. -/
def pageNumber : Nat := pmemSize / 4096

def pagesOf (bytes : Nat → UInt8) (i : Nat) : Page := fun k => bytes (4096 * i + k)

def arrayStep (M : Nat → Page) : Op → (Nat → Page) × Option Page
  | .write r c => (Function.update M (index r) c, none)
  | .read r => (M, some (M (index r)))

/-- A failure during the request leaves the bytes of the array, or some of those that are being written. -/
def Torn (M : Nat → Page) (op : Op) (bytes : Nat → UInt8) : Prop :=
  ∀ i k, pagesOf bytes i k = M i k ∨ ∃ r c, op = .write r c ∧ index r = i ∧ pagesOf bytes i k = c k

/-- Every `pmem_msync` succeeds. -/
def Granted (_ : Ask) (n : Nat) : Prop := n = 0

/-- No `pmem_msync` fails. -/
def Reliable (A : Ask → Nat → Prop) : Prop := ∀ n, A .msync n → n = 0

variable {A : Ask → Nat → Prop} {I : St → Prop} {s t : St} {M : Nat → Page} {r : BitVec 64} {c : Page} {i : Nat} {p : Prop}

theorem pageOffset_eq (r : BitVec 64) : pageOffset r = 4096 * index r := by
  have hsize : 2 ^ 64 = 4096 * 2 ^ 52 := by norm_num
  rw [pageOffset, BitVec.toNat_shiftLeft, Nat.shiftLeft_eq, hsize, Nat.mul_comm, index]
  exact Nat.mul_mod_mul_left 4096 _ _

theorem inside_iff : inside (pageOffset r) = true ↔ index r < pageNumber := by
  unfold inside
  simp only [decide_eq_true_eq, pageOffset_eq, pageNumber, pmemSize]
  omega

theorem WritesBack.refl (s : St) : WritesBack s s := ⟨rfl, fun _ => Or.inl rfl⟩

/-- The mapping has the pages of the array, and so has the file under `p`. -/
structure Holds (p : Prop) (s : St) (M : Nat → Page) : Prop where
  memory : pagesOf s.memory = M
  file : p → pagesOf s.file = M

/-- So it is but for some bytes of page `i`, which are those of `c`. -/
structure Mixed (p : Prop) (s : St) (M : Nat → Page) (i : Nat) (c : Page) : Prop where
  memory : ∀ j k, pagesOf s.memory j k = M j k ∨ j = i ∧ pagesOf s.memory j k = c k
  file : p → ∀ j k, pagesOf s.file j k = M j k ∨ j = i ∧ pagesOf s.file j k = c k

theorem Holds.mixed (h : Holds p s M) (i : Nat) (c : Page) : Mixed p s M i c :=
  ⟨fun j k => Or.inl (congrFun (congrFun h.memory j) k), fun hp j k => Or.inl (congrFun (congrFun (h.file hp) j) k)⟩

theorem Mixed.back (h : Mixed p s M i c) (hb : WritesBack s t) : Mixed p t M i c := by
  obtain ⟨hmem, hfile⟩ := hb
  refine ⟨by rw [hmem]; exact h.memory, fun hp j k => ?_⟩
  rcases hfile (4096 * j + k) with hold | hnew
  · have := h.file hp j k
    rwa [pagesOf, ← hold] at this
  · have := h.memory j k
    rwa [pagesOf, ← hnew] at this

theorem pagesOf_store (s : St) (i j : Nat) (k l : Fin 4096) (b : UInt8) :
    pagesOf (s.store (4096 * i + k) b).memory j l = if j = i ∧ l = k then b else pagesOf s.memory j l := by
  have hiff : 4096 * j + l.val = 4096 * i + k.val ↔ j = i ∧ l = k := by
    rw [Fin.ext_iff]
    omega
  show Function.update s.memory (4096 * i + k) b (4096 * j + l) = _
  rw [Function.update_apply]
  simp only [hiff]
  rfl

theorem Mixed.store (h : Mixed p s M i c) (k : Fin 4096) : Mixed p (s.store (4096 * i + k) (c k)) M i c := by
  refine ⟨fun j l => ?_, h.file⟩
  rw [pagesOf_store]
  split_ifs with hjl
  · obtain ⟨rfl, rfl⟩ := hjl
    exact Or.inr ⟨rfl, rfl⟩
  · exact h.memory j l

theorem pagesOf_sync (s : St) (i j : Nat) (k : Fin 4096) :
    pagesOf (s.sync (4096 * i)).file j k = if j = i then pagesOf s.memory j k else pagesOf s.file j k := by
  have hiff : (4096 * i ≤ 4096 * j + k.val ∧ 4096 * j + k.val < 4096 * i + 4096) ↔ j = i := by omega
  show (if 4096 * i ≤ 4096 * j + k.val ∧ 4096 * j + k.val < 4096 * i + 4096 then s.memory (4096 * j + k)
    else s.file (4096 * j + k)) = _
  simp only [hiff]
  rfl

/-! ## One request -/

/-- The bytes are written one after the other, and those before them stay. -/
theorem wp_copyBytes {ks : List (Fin 4096)} (hI : ∀ t, Mixed p t M i c → I t) (h : Mixed p s M i c)
    (hdone : ∀ k, k ∉ ks → pagesOf s.memory i k = c k) :
    Cmd.wp WritesBack A I (copyBytes (4096 * i) c ks)
      (fun _ t => Mixed p t M i c ∧ pagesOf t.memory i = c) s := by
  induction ks generalizing s with
  | nil => exact ⟨h, funext fun k => hdone k List.not_mem_nil⟩
  | cons k ks ih =>
    refine (Cmd.wp_bind _ _ _ _).mpr (Cmd.wp_step fun s₁ hs₁ => ⟨hI s₁ (h.back hs₁), ih ((h.back hs₁).store k) ?_⟩)
    intro l hl
    rw [pagesOf_store]
    split_ifs with hlk
    · rw [hlk.2]
    · have hnot : l ∉ k :: ks := fun hmem => (List.mem_cons.mp hmem).elim (fun heq => hlk ⟨rfl, heq⟩) hl
      rw [hs₁.1]
      exact hdone l hnot

theorem wp_memcpyPage (hI : ∀ t, Mixed p t M i c → I t) (h : Holds p s M) :
    Cmd.wp WritesBack A I (memcpyPage (4096 * i) c) (fun _ t => Mixed p t M i c ∧ pagesOf t.memory i = c) s := by
  have hall : ∀ k : Fin 4096, k ∈ List.finRange 4096 := List.mem_finRange
  unfold memcpyPage
  generalize List.finRange 4096 = ks at hall ⊢
  exact wp_copyBytes hI (h.mixed i c) fun k hk => absurd (hall k) hk

/-- With all bytes of the page the mapping has the new page. -/
theorem Mixed.copied (h : Mixed p s M i c) (hc : pagesOf s.memory i = c) :
    pagesOf s.memory = Function.update M i c := by
  funext j k
  rw [Function.update_apply]
  split_ifs with hj
  · rw [hj, hc]
  · exact (h.memory j k).resolve_right fun hnew => hj hnew.1

theorem wp_pmemMsync (hI : ∀ t, Mixed (Reliable A) t M i c → I t) (h : Mixed (Reliable A) s M i c)
    (hc : pagesOf s.memory i = c) :
    Cmd.wp WritesBack A I (pmemMsync (4096 * i)) (fun _ t => Holds (Reliable A) t (Function.update M i c)) s := by
  rw [pmemMsync, Cmd.wp_bind, Cmd.wp_succeeds]
  intro n hn
  rw [Cmd.wp_ite]
  refine ⟨fun _ => Cmd.wp_step fun s₁ hs₁ => ⟨hI s₁ (h.back hs₁), ?_⟩, fun hfail => ?_⟩
  · have h₁ := h.back hs₁
    have hc₁ : pagesOf s₁.memory i = c := by rw [hs₁.1, hc]
    refine ⟨h₁.copied hc₁, fun hp => ?_⟩
    funext j k
    rw [pagesOf_sync, Function.update_apply]
    split_ifs with hj
    · rw [hj, hc₁]
    · exact (h₁.file hp j k).resolve_right fun hnew => hj hnew.1
  · refine ⟨h.copied hc, fun hp => ?_⟩
    rw [hp n hn] at hfail
    exact absurd rfl hfail

theorem Mixed.torn (h : Mixed p s M (index r) c) (hp : p) : Torn M (.write r c) s.file := fun j k =>
  (h.file hp j k).imp_right fun ⟨hj, hb⟩ => ⟨r, c, rfl, hj.symm, hb⟩

theorem wp_writeReq (h : Holds (Reliable A) s M) (hr : index r < pageNumber) :
    Cmd.wp WritesBack A (fun t => Reliable A → Torn M (.write r c) t.file) (writeReq r c)
      (fun v t => v = 0 ∧ Holds (Reliable A) t (Function.update M (index r) c)) s := by
  have himage : ∀ t, Mixed (Reliable A) t M (index r) c → Reliable A → Torn M (.write r c) t.file := fun _ ht => ht.torn
  rw [writeReq, Cmd.wp_bind, Cmd.wp_check]
  refine ⟨inside_iff.mpr hr, ?_⟩
  rw [Cmd.wp_bind, pageOffset_eq]
  refine Cmd.wp_conseq (wp_memcpyPage himage h) ?_
  rintro - s₁ ⟨h₁, hc⟩
  rw [Cmd.wp_bind]
  exact Cmd.wp_conseq (wp_pmemMsync himage h₁ hc) fun _ t ht => ⟨rfl, ht⟩

theorem wp_perform {op : Op} (h : Holds (Reliable A) s M) (hop : index op.reqId < pageNumber) :
    Cmd.wp WritesBack A (fun t => Reliable A → Torn M op t.file) (perform op)
      (fun x t => x = (arrayStep M op).2 ∧ Holds (Reliable A) t (arrayStep M op).1) s := by
  cases op with
  | write r c =>
    rw [perform, Cmd.wp_bind]
    exact Cmd.wp_conseq (wp_writeReq h hop) fun _ t ht => ⟨rfl, ht.2⟩
  | read r =>
    rw [perform, Cmd.wp_bind, readContent, Cmd.wp_bind, Cmd.wp_check]
    refine ⟨inside_iff.mpr hop, congrArg some ?_, h⟩
    show (fun k : Fin 4096 => s.memory (readReq r + k)) = M (index r)
    rw [readReq, pageOffset_eq, ← h.memory]
    rfl

theorem aborts_perform {op : Op} (hop : ¬ index op.reqId < pageNumber) : Cmd.Aborts WritesBack A (perform op) s := by
  cases op with
  | write r c =>
    have hout : ¬ inside (pageOffset r) = true := fun hin => hop (inside_iff.mp hin)
    rw [perform, writeReq, Cmd.check, if_neg hout]
    exact .abort
  | read r =>
    have hout : ¬ inside (readReq r) = true := fun hin => hop (inside_iff.mp hin)
    rw [perform, readContent, Cmd.check, if_neg hout]
    exact .abort

/-! ## Any number of requests -/

theorem total_memcpyPage (offset : Nat) (c : Page) : (memcpyPage offset c).Total := by
  unfold memcpyPage
  induction List.finRange 4096 with
  | nil => exact Cmd.total_pure _
  | cons k ks ih => exact Cmd.total_bind (Cmd.total_step _) fun _ => ih

theorem total_perform (op : Op) : (perform op).Total := by
  cases op with
  | write r c =>
    refine Cmd.total_bind (Cmd.total_bind (Cmd.total_check _) fun _ => Cmd.total_bind (total_memcpyPage _ _) fun _ =>
      Cmd.total_bind ?_ fun _ => Cmd.total_pure _) fun _ => Cmd.total_pure _
    exact Cmd.total_bind (Cmd.total_succeeds _) fun _ => Cmd.total_ite (Cmd.total_step _) (Cmd.total_pure _)
  | read r => exact Cmd.total_bind (Cmd.total_bind (Cmd.total_check _) fun _ => Cmd.total_get _) fun _ => Cmd.total_pure _

theorem allowed_iff (M : Nat → Page) (ops : List Op) :
    Machine.Allowed arrayStep (fun _ op => index op.reqId < pageNumber) M ops ↔
      ∀ op ∈ ops, index op.reqId < pageNumber := by
  induction ops generalizing M with
  | nil => exact iff_of_true trivial fun _ hop => absurd hop List.not_mem_nil
  | cons op ops ih => rw [Machine.Allowed, ih, List.forall_mem_cons]

theorem wp_serveAll {ops : List Op} (h : Holds (Reliable A) s M) (hin : ∀ op ∈ ops, index op.reqId < pageNumber) :
    Cmd.wp WritesBack A (fun t => ∃ pre op post, ops = pre ++ op :: post ∧
        (Reliable A → Torn (Machine.answers arrayStep M pre).1 op t.file)) (serveAll ops)
      (fun xs t => xs = (Machine.answers arrayStep M ops).2 ∧
        Holds (Reliable A) t (Machine.answers arrayStep M ops).1) s := by
  have hstep : ∀ (s : St) (M : Nat → Page) (op : Op), Holds (Reliable A) s M → index op.reqId < pageNumber →
      Cmd.wp WritesBack A (fun t => Reliable A → Torn M op t.file) (perform op)
        (fun x t => x = (arrayStep M op).2 ∧ Holds (Reliable A) t (arrayStep M op).1) s := fun _ _ _ h hop =>
    wp_perform h hop
  exact Machine.wp_serveAll_image hstep h ((allowed_iff M ops).mpr hin)

/-- The first request beyond the mapping faults. -/
theorem aborts_serveAll {ops : List Op} (hA : ∀ q, A q 0) (h : ∀ A, Holds (Reliable A) s M)
    (hout : ¬ ∀ op ∈ ops, index op.reqId < pageNumber) : Cmd.Aborts WritesBack A (serveAll ops) s := by
  have hstep : ∀ (s : St) (M : Nat → Page) (op : Op), Holds (Reliable fun _ n => n = 0) s M → index op.reqId < pageNumber →
      Cmd.wp WritesBack (fun _ n => n = 0) (fun _ => True) (perform op) (fun x t => x = (arrayStep M op).2 ∧
        Holds (Reliable fun _ n => n = 0) t (arrayStep M op).1) s := fun _ _ _ h hop =>
    Cmd.wp_mono (fun _ _ => trivial) (fun _ _ hQ => hQ) (wp_perform h hop)
  exact Machine.aborts_serveAll WritesBack.refl hA total_perform hstep (fun _ _ _ _ hop => aborts_perform hop)
    (h _) fun hall => hout ((allowed_iff M ops).mp hall)

/-- **The store is an array of pages**, `2 ^ 52` ids apart one page. A run of requests faults exactly if one of them is
beyond the mapping; otherwise it answers like the array. If no `pmem_msync` fails the file has at last the pages of the
array, and a failure in the middle leaves in it what the requests before have made of the array, but for some bytes of the
page that is being written. -/
theorem ssd_is_array (ops : List Op) (hA : ∀ q, A q 0) (hs : s.file = s.memory) :
    (Cmd.Aborts WritesBack A (serveAll ops) s ↔ ∃ op ∈ ops, pageNumber ≤ index op.reqId) ∧
      ((∀ op ∈ ops, index op.reqId < pageNumber) →
        (∀ xs t, Cmd.Run WritesBack A (serveAll ops) s xs t →
          xs = (Machine.answers arrayStep (pagesOf s.memory) ops).2 ∧
            pagesOf t.memory = (Machine.answers arrayStep (pagesOf s.memory) ops).1 ∧
            (Reliable A → pagesOf t.file = (Machine.answers arrayStep (pagesOf s.memory) ops).1)) ∧
        ∀ t, Reliable A → Cmd.Crash WritesBack A (serveAll ops) s t → ∃ pre op post, ops = pre ++ op :: post ∧
          Torn (Machine.answers arrayStep (pagesOf s.memory) pre).1 op t.file) := by
  have hstart : ∀ A : Ask → Nat → Prop, Holds (Reliable A) s (pagesOf s.memory) := fun _ =>
    ⟨rfl, fun _ => congrArg pagesOf hs⟩
  refine ⟨⟨fun hfault => ?_, fun ⟨op, hop, hout⟩ => ?_⟩, fun hin => ?_⟩
  · by_contra hnone
    have hin : ∀ op ∈ ops, index op.reqId < pageNumber := fun op hop =>
      lt_of_not_ge fun hout => hnone ⟨op, hop, hout⟩
    exact Cmd.wp_not_aborts (wp_serveAll (hstart A) hin) hfault
  · exact aborts_serveAll hA hstart fun hin => absurd (hin op hop) (not_lt.mpr hout)
  · have hwp := wp_serveAll (hstart A) hin
    refine ⟨fun xs t hrun => ?_, fun t hrel hcrash => ?_⟩
    · obtain ⟨hxs, ht⟩ := Cmd.wp_run hwp hrun
      exact ⟨hxs, ht.memory, ht.file⟩
    · obtain ⟨pre, op, post, heq, htorn⟩ := Cmd.wp_crash hwp hcrash
      exact ⟨pre, op, post, heq, htorn hrel⟩

/-- The ids `5` and `2 ^ 52 + 5` are one page. -/
theorem ssd_is_array_alias : ∃ t, Cmd.Run WritesBack Granted
    (serveAll [.write 5 (fun _ => 1), .write 0x10000000000005 (fun _ => 2), .read 5]) ⟨fun _ => 0, fun _ => 0⟩
      [none, none, some fun _ => 2] t := by
  have hA : ∀ q : Ask, Granted q 0 := fun _ => rfl
  have hin : ∀ op ∈ [Op.write 5 (fun _ => 1), .write 0x10000000000005 (fun _ => 2), .read 5],
      index op.reqId < pageNumber := by
    simp [Op.reqId, index, pageNumber, pmemSize]
  obtain ⟨hfault, hall⟩ := ssd_is_array (s := ⟨fun _ => 0, fun _ => 0⟩)
    [.write 5 (fun _ => 1), .write 0x10000000000005 (fun _ => 2), .read 5] hA rfl
  obtain ⟨xs, t, hrun⟩ := Cmd.returns WritesBack.refl (fun q => ⟨0, hA q⟩) (Machine.total_serveAll total_perform _)
    fun habort => by
    obtain ⟨op, hop, hout⟩ := hfault.mp habort
    exact absurd (hin op hop) (not_lt.mpr hout)
  obtain ⟨rfl, -⟩ := (hall hin).1 xs t hrun
  exact ⟨t, by simpa [Machine.answers, arrayStep, index] using hrun⟩

end PmemProgram.Cbs.Ssd
