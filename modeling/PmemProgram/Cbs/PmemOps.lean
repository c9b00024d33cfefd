import PmemProgram.Cbs.PmemInv

/-!
# What `write_req`, `delete_page` and `cbs_init` do to the invariant

`writeReq_spec`, `deletePage_spec` : from a state that stores `M` an operation ends in a state that stores the
changed map, and a failure at any point in between leaves an `Image`. `cbsInit_fresh` : a new pool stores nothing.
-/

namespace PmemProgram.Cbs
open PmemProgram.Lib

/-- The cache may write lines back at any moment. -/
abbrev Evicts : St → St → Prop := Relation.ReflTransGen Evict

/-- Weakest precondition with calls that succeed. -/
abbrev cwp {α : Type} (I : St → Prop) (c : Cmd Unit St α) (Q : α → St → Prop) (s : St) : Prop :=
  Cmd.wp Evicts (fun _ k => k = 0) I c Q s

theorem exec_runs {α : Type} {c : Cmd Unit St α} {s t : St} {a : α} (h : c.exec s = some (a, t)) :
    Cmd.Run Evicts (fun _ k => k = 0) c s a t :=
  Cmd.exec_run (R := Evicts) (A := fun _ k => k = 0) (fun _ => Relation.ReflTransGen.refl) (fun _ => rfl) h

theorem images_crashes {α : Type} {c : Cmd Unit St α} {s t : St} (h : t ∈ c.images s) :
    Cmd.Crash Evicts (fun _ k => k = 0) c s t :=
  Cmd.images_crash (R := Evicts) (A := fun _ k => k = 0) (fun _ => Relation.ReflTransGen.refl) (fun _ => rfl) h

theorem evicts_clean {s t : St} (h : s.dirty = fun _ => none) (ht : Evicts s t) : t = s := by
  induction ht with
  | refl => rfl
  | tail _ he ih =>
    subst ih
    obtain ⟨i, m, hm, _⟩ := he
    rw [h] at hm
    cases hm

/-- A copy of a page, from a state with nothing to write back. -/
theorem cwp_copyPage {s : St} {I : St → Prop} {Q : Unit → St → Prop} {i : Nat} {c : Page}
    (hd : s.dirty = fun _ => none) (hI : I s) (ht : ∀ c', I { s with pool := s.pool.setPage i c' })
    (hQ : Q () { s with pool := s.pool.setPage i c }) : cwp I (copyPage i c) Q s := by
  have hfull : tornPage (fun _ => true) c (s.pool.pages i) = c := by funext k; simp [tornPage]
  refine Cmd.wp_pieces fun s₁ hs₁ => ?_
  obtain rfl := evicts_clean hd hs₁
  exact ⟨hI, fun m => ht _, by rw [hfull]; exact hQ⟩

/-- A store of a meta, from a state with nothing to write back. -/
theorem cwp_storeMeta {s : St} {I : St → Prop} {Q : Unit → St → Prop} {i w : Nat} (hd : s.dirty = fun _ => none)
    (hI : I s) (hQ : Q () { s with pool := s.pool.setMeta i (Meta.ofWord w) }) : cwp I (storeMeta i w) Q s := by
  have hdirty : Function.update s.dirty i none = s.dirty := by
    rw [hd]; funext j; by_cases hji : j = i <;> simp [hji]
  refine Cmd.wp_step fun s₁ hs₁ => ?_
  obtain rfl := evicts_clean hd hs₁
  exact ⟨hI, by rw [hdirty]; exact hQ⟩

/-- With one line to write back, it is written back or not. -/
theorem evicts_one {s t : St} {i : Nat} {m : Meta} (h : ∀ j k, s.dirty j = some k → j = i ∧ k = m) (ht : Evicts s t) :
    t = s ∨ t = { s with pool := s.pool.setMeta i m } := by
  induction ht with
  | refl => exact Or.inl rfl
  | tail _ he ih =>
    obtain ⟨j, k, hm, rfl⟩ := he
    rcases ih with rfl | rfl
    · obtain ⟨rfl, rfl⟩ := h j k hm
      exact Or.inr rfl
    · obtain ⟨rfl, rfl⟩ := h j k hm
      simp [Pool.setMeta]

theorem dirty_one {f : Nat → Option Meta} {i : Nat} {m' : Meta} (hf : f = Function.update (fun _ => none) i (some m'))
    {k : Nat} {m : Meta} (hk : f k = some m) : k = i ∧ m = m' := by
  rw [hf] at hk
  by_cases hki : k = i
  · subst hki
    rw [Function.update_self] at hk
    exact ⟨rfl, (Option.some.inj hk).symm⟩
  · rw [Function.update_of_ne hki] at hk
    cases hk

/-- The sequence number is written back before it is persisted, or not. -/
theorem cwp_resetSn_clean {s : St} {J : Pool → Prop} {Q : Unit → St → Prop} {i : Nat} (hd : s.dirty = fun _ => none)
    (hJ : J s.pool) (hreset : J (s.pool.setMeta i { s.pool.metas i with sn := 0 })) (hQ : Q () s)
    (hQ' : Q () { s with pool := s.pool.setMeta i { s.pool.metas i with sn := 0 } }) :
    cwp (fun t => J t.pool) (resetSn i) Q s := by
  have hmeta : ∀ j, s.meta j = s.pool.metas j := fun j => by rw [St.meta, hd]; rfl
  have hdirty : Function.update (Function.update s.dirty i (some { s.pool.metas i with sn := 0 })) i none = s.dirty := by
    rw [hd]
    funext j
    by_cases hji : j = i <;> simp [hji]
  simp only [resetSn, Cmd.wp_bind, Cmd.wp_get, Cmd.wp_ite, Cmd.wp_pure]
  refine ⟨fun _ => ?_, fun _ => hQ⟩
  simp only [dirtyMeta, Cmd.wp_modify, hmeta]
  refine Cmd.wp_step fun s₁ hs₁ => ?_
  rcases evicts_one (fun _ _ => dirty_one (by rw [hd])) hs₁ with rfl | rfl
  · refine ⟨hJ, ?_⟩
    simp only [St.meta, Function.update_self, Option.getD_some, hdirty]
    exact hQ'
  · refine ⟨hreset, ?_⟩
    simp only [St.meta, Function.update_self, Option.getD_some, hdirty, Pool.setMeta, Function.update_idem]
    exact hQ'

/-! ## Changes of the pool -/

theorem valid_setMeta {n : Nat} {p : Pool} {i r j : Nat} {m : Meta} :
    Valid n (p.setMeta i m) r j ↔ (j = i ∧ i < n ∧ m.valid = true ∧ m.reqId = r) ∨ (j ≠ i ∧ Valid n p r j) := by
  by_cases hj : j = i
  · subst hj; simp [Valid, Pool.setMeta]
  · simp [Valid, Pool.setMeta, hj]

theorem valid_setPage {n : Nat} {p : Pool} {i r j : Nat} {c : Page} :
    Valid n (p.setPage i c) r j ↔ Valid n p r j := Iff.rfl

@[simp] theorem pages_setMeta (p : Pool) (i : Nat) (m : Meta) : (p.setMeta i m).pages = p.pages := rfl

@[simp] theorem metas_setPage (p : Pool) (i : Nat) (c : Page) : (p.setPage i c).metas = p.metas := rfl

@[simp] theorem magic_setMeta (p : Pool) (i : Nat) (m : Meta) : (p.setMeta i m).magicNumber = p.magicNumber := rfl

@[simp] theorem magic_setPage (p : Pool) (i : Nat) (c : Page) : (p.setPage i c).magicNumber = p.magicNumber := rfl

theorem pages_setPage_ne {p : Pool} {i j : Nat} {c : Page} (h : j ≠ i) : (p.setPage i c).pages j = p.pages j :=
  Function.update_of_ne h ..

@[simp] theorem pages_setPage_self (p : Pool) (i : Nat) (c : Page) : (p.setPage i c).pages i = c :=
  Function.update_self ..

theorem range_setMeta {n : Nat} {p : Pool} {i : Nat} {m : Meta}
    (h : ∀ j < n, (p.metas j).valid = true → InRange (p.metas j).reqId) (hm : m.valid = true → InRange m.reqId) :
    ∀ j < n, ((p.setMeta i m).metas j).valid = true → InRange ((p.setMeta i m).metas j).reqId := by
  intro j hj
  by_cases hji : j = i
  · subst hji; simpa [Pool.setMeta] using hm
  · simpa [Pool.setMeta, hji] using h j hj

/-- The bytes of an invalid page do not matter. -/
theorem Stored.setPage {n : Nat} {p : Pool} {M : Nat → Option Page} (h : Stored n p M) {i : Nat}
    (hi : (p.metas i).valid = false) (c : Page) : Stored n (p.setPage i c) M where
  magic := h.magic
  range := h.range
  sole r hr := (h.sole r hr).congr (fun _ => Iff.rfl) fun j hj => pages_setPage_ne fun e => by
    rw [e] at hj
    simp [Valid, hi] at hj

/-- Sequence numbers do not matter. -/
theorem Stored.setSn {n : Nat} {p : Pool} {M : Nat → Option Page} (h : Stored n p M) (i sn : Nat) :
    Stored n (p.setMeta i { p.metas i with sn := sn }) M where
  magic := h.magic
  range j hj hv := by
    by_cases hji : j = i
    · subst hji
      simp only [Pool.setMeta, Function.update_self] at hv ⊢
      exact h.range j hj hv
    · simp only [Pool.setMeta, Function.update_of_ne hji] at hv ⊢
      exact h.range j hj hv
  sole r hr := (h.sole r hr).congr (fun j => by
    rw [valid_setMeta]
    by_cases hji : j = i
    · subst hji; simp [Valid]
    · simp [hji]) fun _ _ => rfl

/-- The pool after the new content of `r` has been published in page `i`. -/
def published (p : Pool) (i r sn : Nat) (c : Page) : Pool := (p.setPage i c).setMeta i ⟨true, sn, r⟩

section Publish
variable {n : Nat} {p : Pool} {M : Nat → Option Page} {i r sn : Nat} {c : Page}

theorem valid_published {q j : Nat} (hi : i < n) (hv : (p.metas i).valid = false) :
    Valid n (published p i r sn c) q j ↔ (j = i ∧ r = q) ∨ Valid n p q j := by
  unfold published
  rw [valid_setMeta, valid_setPage]
  constructor
  · rintro (⟨rfl, _, _, h⟩ | ⟨_, h⟩)
    · exact Or.inl ⟨rfl, h⟩
    · exact Or.inr h
  · rintro (⟨rfl, h⟩ | h)
    · exact Or.inl ⟨rfl, hi, rfl, h⟩
    · refine Or.inr ⟨fun e => ?_, h⟩
      rw [e] at h
      simp [Valid, hv] at h

theorem pages_published {j : Nat} : (published p i r sn c).pages j = if j = i then c else p.pages j := by
  by_cases hj : j = i
  · subst hj; simp [published]
  · simp [published, hj, pages_setPage_ne hj]

theorem sole_published (h : Stored n p M) (hi : i < n) (hv : (p.metas i).valid = false) {q : Nat} (hq : InRange q)
    (hqr : q ≠ r) : Sole n (published p i r sn c) q (M q) := by
  refine (h.sole q hq).congr (fun j => ?_) fun j hj => ?_
  · rw [valid_published hi hv]
    simp [Ne.symm hqr]
  · rw [pages_published, if_neg]
    rintro rfl
    simp [Valid, hv] at hj

theorem range_published (h : Stored n p M) (hr : InRange r) :
    ∀ j < n, ((published p i r sn c).metas j).valid = true → InRange ((published p i r sn c).metas j).reqId :=
  range_setMeta h.range fun _ => hr

/-- A request without a page gets its first one. -/
theorem Stored.publishNew (h : Stored n p M) (hr : InRange r) (hM : M r = none) (hi : i < n)
    (hv : (p.metas i).valid = false) : Stored n (published p i r sn c) (Function.update M r (some c)) where
  magic := h.magic
  range := range_published h hr
  sole q hq := by
    by_cases hqr : q = r
    · subst hqr
      rw [Function.update_self]
      have hs := h.sole q hq
      rw [hM] at hs
      refine ⟨i, (valid_published hi hv).mpr (Or.inl ⟨rfl, rfl⟩), by simp [pages_published], fun j hj => ?_⟩
      rcases (valid_published hi hv).mp hj with ⟨rfl, _⟩ | hj
      · rfl
      · exact absurd hj (hs j)
    · rw [Function.update_of_ne hqr]
      exact sole_published h hi hv hq hqr

/-- While the old page of `r` is not freed yet, `r` has two pages. -/
theorem Stored.publishTwin (h : Stored n p M) (hr : InRange r) {c₀ : Page} (hM : M r = some c₀) (hi : i < n)
    (hv : (p.metas i).valid = false) : Image n (published p i r sn c) M r (some c) where
  magic := h.magic
  range := range_published h hr
  other q hq hqr := sole_published h hi hv hq hqr
  this := by
    have hs := h.sole r hr
    rw [hM] at hs
    obtain ⟨k, hk, hc, hj⟩ := hs
    have hki : k ≠ i := by
      rintro rfl
      simp [Valid, hv] at hk
    refine Or.inr (Or.inr ⟨c₀, c, hM, rfl, k, i, hki, (valid_published hi hv).mpr (Or.inr hk), ?_,
      (valid_published hi hv).mpr (Or.inl ⟨rfl, rfl⟩), by simp [pages_published], fun j hj' => ?_⟩)
    · rw [pages_published, if_neg hki, hc]
    · rcases (valid_published hi hv).mp hj' with ⟨rfl, _⟩ | hj'
      · exact Or.inr rfl
      · exact Or.inl (hj j hj')

/-- Freeing the old page ends the update. -/
theorem Stored.publishFree (h : Stored n p M) (hr : InRange r) (hi : i < n) (hv : (p.metas i).valid = false) {k : Nat}
    (hk : Valid n p r k) (hj : ∀ j, Valid n p r j → j = k) :
    Stored n ((published p i r sn c).setMeta k ⟨false, 0, 0⟩) (Function.update M r (some c)) where
  magic := h.magic
  range := range_setMeta (range_published h hr) (by simp)
  sole q hq := by
    have hki : i ≠ k := by
      rintro rfl
      simp [Valid, hv] at hk
    by_cases hqr : q = r
    · subst hqr
      rw [Function.update_self]
      refine ⟨i, valid_setMeta.mpr (Or.inr ⟨hki, (valid_published hi hv).mpr (Or.inl ⟨rfl, rfl⟩)⟩),
        by simp [pages_published], fun j hj' => ?_⟩
      rcases valid_setMeta.mp hj' with ⟨_, _, h, _⟩ | ⟨hjk, hj'⟩
      · cases h
      · rcases (valid_published hi hv).mp hj' with ⟨rfl, _⟩ | hj'
        · rfl
        · exact absurd (hj j hj') hjk
    · rw [Function.update_of_ne hqr]
      have hsole : Sole n (published p i r sn c) q (M q) := sole_published h hi hv hq hqr
      refine hsole.congr (fun j => ?_) fun _ _ => rfl
      rw [valid_setMeta]
      constructor
      · rintro (⟨_, _, h, _⟩ | ⟨_, h⟩)
        · cases h
        · exact h
      · refine fun hv' => Or.inr ⟨?_, hv'⟩
        rintro rfl
        rcases (valid_published hi hv).mp hv' with ⟨e, _⟩ | hv'
        · exact hki e.symm
        · exact hqr (hv'.2.2.symm.trans hk.2.2)

end Publish

/-- Freeing the page of a request deletes it. -/
theorem Stored.freePage {n : Nat} {p : Pool} {M : Nat → Option Page} {r k : Nat} (h : Stored n p M)
    (hk : Valid n p r k) (hj : ∀ j, Valid n p r j → j = k) :
    Stored n (p.setMeta k ⟨false, 0, 0⟩) (Function.update M r none) where
  magic := h.magic
  range := range_setMeta h.range (by simp)
  sole q hq := by
    by_cases hqr : q = r
    · subst hqr
      rw [Function.update_self]
      intro j hj'
      rcases valid_setMeta.mp hj' with ⟨_, _, h, _⟩ | ⟨hjk, hj'⟩
      · cases h
      · exact hjk (hj j hj')
    · rw [Function.update_of_ne hqr]
      refine (h.sole q hq).congr (fun j => ?_) fun _ _ => rfl
      rw [valid_setMeta]
      constructor
      · rintro (⟨_, _, h, _⟩ | ⟨_, h⟩)
        · cases h
        · exact h
      · refine fun hv => Or.inr ⟨?_, hv⟩
        rintro rfl
        exact hqr (hv.2.2.symm.trans hk.2.2)

/-! ## The free list -/

/-- The page on top of the free list. -/
theorem Inv.top {n : Nat} {s : St} {M : Nat → Option Page} (h : Inv n s M) (hf : 0 < s.dram.freeNum) :
    s.dram.freeList (s.dram.freeNum - 1) < n ∧
      (s.pool.metas (s.dram.freeList (s.dram.freeNum - 1))).valid = false :=
  h.free _ (by omega)

theorem metas_setMeta_ne {p : Pool} {i j : Nat} {m : Meta} (h : j ≠ i) : (p.setMeta i m).metas j = p.metas j :=
  Function.update_of_ne h ..

@[simp] theorem metas_setMeta_self (p : Pool) (i : Nat) (m : Meta) : (p.setMeta i m).metas i = m :=
  Function.update_self ..

theorem metas_published_ne {p : Pool} {i r sn j : Nat} {c : Page} (h : j ≠ i) :
    (published p i r sn c).metas j = p.metas j :=
  Function.update_of_ne h ..

@[simp] theorem metas_published_self (p : Pool) (i r sn : Nat) (c : Page) :
    (published p i r sn c).metas i = ⟨true, sn, r⟩ :=
  Function.update_self ..

/-! ## The invariant after each kind of change -/

section Changes
variable {n : Nat} {s : St} {M : Nat → Option Page} {r : Nat} {c : Page}

/-- The first page of a request is taken from the top of the free list. -/
theorem Inv.publishNew (h : Inv n s M) (hr : InRange r) (hM : M r = none) (hf : 0 < s.dram.freeNum) {i : Nat}
    (hi : s.dram.freeList (s.dram.freeNum - 1) = i) (sn : Nat) {d : Dram}
    (hslot : ∀ q, d.slot q = if q = r then ⟨i + 1, 0⟩ else s.dram.slot q) (hnum : d.freeNum = s.dram.freeNum - 1)
    (hlist : d.freeList = s.dram.freeList) :
    Inv n { s with pool := published s.pool i r sn c, dram := d } (Function.update M r (some c)) := by
  obtain ⟨hin, hiv⟩ := h.top hf
  rw [hi] at hin hiv
  refine ⟨h.toStored.publishNew hr hM hin hiv, h.clean, fun q hq hq' => ?_, fun j hj hjv => ?_, fun j hj => ?_,
    fun j hj k hk he => ?_, fun j hj hjv => ?_⟩
  · have hqr : q ≠ r := by rintro rfl; simp at hq'
    rw [Function.update_of_ne hqr] at hq'
    simp only [hslot, if_neg hqr]
    exact h.slotNone q hq hq'
  · by_cases hji : j = i
    · subst hji
      simp only [metas_published_self, hslot, if_true]
      exact Or.inl rfl
    · simp only [metas_published_ne hji] at hjv ⊢
      have href := h.slotSome j hj hjv
      have hqr : (s.pool.metas j).reqId ≠ r := fun e => by
        rw [e, h.slotNone r hr hM] at href
        rcases href with h | h <;> simp at h
      simpa only [hslot, if_neg hqr] using href
  · simp only [hnum, hlist] at hj ⊢
    have hne : s.dram.freeList j ≠ i := fun e => by
      have := h.freeInj j (by omega) (s.dram.freeNum - 1) (by omega) (e.trans hi.symm)
      omega
    rw [metas_published_ne hne]
    exact h.free j (by omega)
  · simp only [hnum, hlist] at hj hk he
    exact h.freeInj j (by omega) k (by omega) he
  · have hji : j ≠ i := by rintro rfl; simp at hjv
    simp only [metas_published_ne hji, hnum, hlist] at hjv ⊢
    obtain ⟨k, hk, rfl⟩ := h.freeAll j hj hjv
    have hkt : k ≠ s.dram.freeNum - 1 := by rintro rfl; exact hji hi
    exact ⟨k, by omega, rfl⟩

/-- The new page of a request comes from the top of the free list, and the old page `k` takes its place there. -/
theorem Inv.publishFree (h : Inv n s M) (hr : InRange r) {k : Nat} (hk : Valid n s.pool r k)
    (hsole : ∀ j, Valid n s.pool r j → j = k) (hf : 0 < s.dram.freeNum) {i : Nat}
    (hi : s.dram.freeList (s.dram.freeNum - 1) = i) (sn : Nat) {d : Dram}
    (hslot : ∀ q, d.slot q = if q = r then ⟨0, i + 1⟩ else s.dram.slot q) (hnum : d.freeNum = s.dram.freeNum)
    (hlist : d.freeList = Function.update s.dram.freeList (s.dram.freeNum - 1) k) :
    Inv n { s with pool := (published s.pool i r sn c).setMeta k ⟨false, 0, 0⟩, dram := d }
      (Function.update M r (some c)) := by
  obtain ⟨hin, hiv⟩ := h.top hf
  rw [hi] at hin hiv
  have hki : i ≠ k := by
    rintro rfl
    simp [Valid, hiv] at hk
  have hmetas : ∀ j, j ≠ k → j ≠ i →
      ((published s.pool i r sn c).setMeta k ⟨false, 0, 0⟩).metas j = s.pool.metas j := fun j h₁ h₂ => by
    rw [metas_setMeta_ne h₁, metas_published_ne h₂]
  refine ⟨h.toStored.publishFree hr hin hiv hk hsole, h.clean, fun q hq hq' => ?_, fun j hj hjv => ?_, fun j hj => ?_,
    fun j hj l hl he => ?_, fun j hj hjv => ?_⟩
  · have hqr : q ≠ r := by rintro rfl; simp at hq'
    rw [Function.update_of_ne hqr] at hq'
    simp only [hslot, if_neg hqr]
    exact h.slotNone q hq hq'
  · have hjk : j ≠ k := by rintro rfl; simp at hjv
    by_cases hji : j = i
    · subst hji
      simp only [metas_setMeta_ne hki, metas_published_self, hslot, if_true]
      exact Or.inr rfl
    · simp only [hmetas j hjk hji] at hjv ⊢
      have hqr : (s.pool.metas j).reqId ≠ r := fun e => hjk (hsole j ⟨hj, hjv, e⟩)
      simpa only [hslot, if_neg hqr] using h.slotSome j hj hjv
  · simp only [hnum, hlist] at hj ⊢
    by_cases hjt : j = s.dram.freeNum - 1
    · subst hjt
      simp only [Function.update_self, metas_setMeta_self]
      exact ⟨hk.1, trivial⟩
    · rw [Function.update_of_ne hjt]
      have h₂ : s.dram.freeList j ≠ i := fun e =>
        hjt (h.freeInj j hj (s.dram.freeNum - 1) (by omega) (e.trans hi.symm))
      have h₁ : s.dram.freeList j ≠ k := fun e => by
        have := (h.free j hj).2
        rw [e, hk.2.1] at this
        cases this
      rw [hmetas _ h₁ h₂]
      exact h.free j hj
  · -- `k` was not in the free list before
    have hno : ∀ l < s.dram.freeNum, s.dram.freeList l ≠ k := fun l hl e => by
      have := (h.free l hl).2
      rw [e, hk.2.1] at this
      cases this
    simp only [hnum, hlist, Function.update_apply] at hj hl he
    split_ifs at he with h₁ h₂ h₂
    · omega
    · exact absurd he.symm (hno l hl)
    · exact absurd he (hno j hj)
    · exact h.freeInj j hj l hl he
  · simp only [hnum, hlist]
    by_cases hjk : j = k
    · subst hjk
      exact ⟨s.dram.freeNum - 1, by omega, Function.update_self ..⟩
    · have hji : j ≠ i := by
        rintro rfl
        simp [metas_setMeta_ne hjk] at hjv
      simp only [hmetas j hjk hji] at hjv
      obtain ⟨l, hl, rfl⟩ := h.freeAll j hj hjv
      have hlt : l ≠ s.dram.freeNum - 1 := by rintro rfl; exact hji hi
      exact ⟨l, hl, Function.update_of_ne hlt ..⟩

/-- The page `k` of a deleted request goes to the top of the free list. -/
theorem Inv.freePage (h : Inv n s M) {k : Nat} (hk : Valid n s.pool r k) (hsole : ∀ j, Valid n s.pool r j → j = k)
    {d : Dram} (hslot : ∀ q, d.slot q = if q = r then ⟨0, 0⟩ else s.dram.slot q)
    (hnum : d.freeNum = s.dram.freeNum + 1) (hlist : d.freeList = Function.update s.dram.freeList s.dram.freeNum k) :
    Inv n { s with pool := s.pool.setMeta k ⟨false, 0, 0⟩, dram := d } (Function.update M r none) := by
  have hno : ∀ l < s.dram.freeNum, s.dram.freeList l ≠ k := fun l hl e => by
    have := (h.free l hl).2
    rw [e, hk.2.1] at this
    cases this
  refine ⟨h.toStored.freePage hk hsole, h.clean, fun q hq hq' => ?_, fun j hj hjv => ?_, fun j hj => ?_,
    fun j hj l hl he => ?_, fun j hj hjv => ?_⟩
  · by_cases hqr : q = r
    · simp only [hslot, if_pos hqr]
    · rw [Function.update_of_ne hqr] at hq'
      simp only [hslot, if_neg hqr]
      exact h.slotNone q hq hq'
  · have hjk : j ≠ k := by rintro rfl; simp at hjv
    simp only [metas_setMeta_ne hjk] at hjv ⊢
    have hqr : (s.pool.metas j).reqId ≠ r := fun e => hjk (hsole j ⟨hj, hjv, e⟩)
    simpa only [hslot, if_neg hqr] using h.slotSome j hj hjv
  · simp only [hnum, hlist] at hj ⊢
    by_cases hjt : j = s.dram.freeNum
    · subst hjt
      simp only [Function.update_self, metas_setMeta_self]
      exact ⟨hk.1, trivial⟩
    · rw [Function.update_of_ne hjt, metas_setMeta_ne (hno j (by omega))]
      exact h.free j (by omega)
  · simp only [hnum, hlist, Function.update_apply] at hj hl he
    split_ifs at he with h₁ h₂ h₂
    · omega
    · exact absurd he.symm (hno l (by omega))
    · exact absurd he (hno j (by omega))
    · exact h.freeInj j (by omega) l (by omega) he
  · simp only [hnum, hlist]
    by_cases hjk : j = k
    · subst hjk
      exact ⟨s.dram.freeNum, by omega, Function.update_self ..⟩
    · simp only [metas_setMeta_ne hjk] at hjv
      obtain ⟨l, hl, rfl⟩ := h.freeAll j hj hjv
      exact ⟨l, by omega, Function.update_of_ne (by omega) ..⟩

/-- A change of a sequence number. -/
theorem Inv.setSn (h : Inv n s M) (i sn : Nat) :
    Inv n { s with pool := s.pool.setMeta i { s.pool.metas i with sn := sn } } M := by
  have hsame : ∀ j, ((s.pool.setMeta i { s.pool.metas i with sn := sn }).metas j).valid = (s.pool.metas j).valid ∧
      ((s.pool.setMeta i { s.pool.metas i with sn := sn }).metas j).reqId = (s.pool.metas j).reqId := by
    intro j
    by_cases hji : j = i
    · subst hji; simp
    · rw [metas_setMeta_ne hji]; exact ⟨rfl, rfl⟩
  refine ⟨h.toStored.setSn i sn, h.clean, h.slotNone, fun j hj hv => ?_, fun j hj => ?_, h.freeInj, fun j hj hv => ?_⟩
  · simp only [(hsame j).1, (hsame j).2] at hv ⊢
    exact h.slotSome j hj hv
  · simp only [(hsame _).1]
    exact h.free j hj
  · simp only [(hsame j).1] at hv
    exact h.freeAll j hj hv

end Changes

/-! ## The operations -/

section Specs
variable {n : Nat} {s : St} {M : Nat → Option Page} {r : Nat} {c : Page}

/-- The branch for a request without a page. -/
theorem writeNew_spec (hn : n < 2 ^ 32) (h : Inv n s M) (hr : InRange r) (hM : M r = none)
    (hf : 0 < s.dram.freeNum) :
    cwp (fun t => Image n t.pool M r (some c)) (writeNew r c s.dram.freeNum)
      (fun _ t => Inv n t (Function.update M r (some c))) s := by
  obtain ⟨hin, hiv⟩ := h.top hf
  simp only [writeNew, freeTop, Cmd.wp_bind, Cmd.wp_check, Cmd.wp_get]
  refine ⟨by omega, ?_⟩
  generalize hi : s.dram.freeList (s.dram.freeNum - 1) = i at hin hiv ⊢
  refine cwp_copyPage h.clean (h.toStored.image hr _) (fun c' => (h.toStored.setPage hiv c').image hr _) ?_
  refine cwp_storeMeta h.clean ((h.toStored.setPage hiv c).image hr _) ?_
  rw [ofWord_new (show r < 2 ^ 32 by have := hr.lt; omega), Cmd.wp_modify]
  refine h.publishNew hr hM hf hi 0 (fun q => ?_) rfl rfl
  by_cases hqr : q = r
  · subst hqr
    simp [h.slotNone q hr hM, pageIdFromMeta_eq hin hn]
  · simp [slot_setSlot, hqr]

/-- Resetting the sequence number of a page changes nothing that is stored. -/
theorem resetSn_spec (h : Inv n s M) (i : Nat) :
    cwp (fun t => Stored n t.pool M) (resetSn i) (fun _ t => Inv n t M ∧ t.dram = s.dram) s :=
  cwp_resetSn_clean (J := fun p => Stored n p M) h.clean h.toStored (h.toStored.setSn i 0) ⟨h, rfl⟩ ⟨h.setSn i 0, rfl⟩

/-- The branch for a request with one page. -/
theorem writeShadow_spec (hn : n < 2 ^ 32) (h : Inv n s M) (hr : InRange r) {k : Nat}
    (hk : Refers (s.dram.slot r) k) {c₀ : Page} (hM : M r = some c₀) (hf : 0 < s.dram.freeNum) :
    cwp (fun t => Image n t.pool M r (some c)) (writeShadow r c s.dram.freeNum k)
      (fun _ t => Inv n t (Function.update M r (some c))) s := by
  simp only [writeShadow, freeTop, Cmd.wp_bind, Cmd.wp_check, Cmd.wp_get]
  refine Cmd.wp_mono (fun t ht => ht.image hr _) (fun _ t ht => ?_) (resetSn_spec h k)
  obtain ⟨h, hdram⟩ := ht
  rw [← hdram] at hk hf ⊢
  clear hdram
  refine ⟨by omega, ?_⟩
  obtain ⟨hin, hiv⟩ := h.top hf
  generalize hi : t.dram.freeList (t.dram.freeNum - 1) = i at hin hiv ⊢
  -- the page the slot refers to is the only valid page of the request
  obtain ⟨k', hk', -, href, hsole⟩ := h.page hr hM
  obtain rfl := href.inj hk
  refine cwp_copyPage h.clean (h.toStored.image hr _) (fun c' => (h.toStored.setPage hiv c').image hr _) ?_
  refine cwp_storeMeta h.clean ((h.toStored.setPage hiv c).image hr _) ?_
  rw [ofWord_shadow (show r < 2 ^ 32 by have := hr.lt; omega), Cmd.wp_modify]
  refine cwp_storeMeta h.clean (h.toStored.publishTwin hr hM hin hiv) ?_
  rw [ofWord_zero, Cmd.wp_modify]
  refine h.publishFree hr hk' hsole hf hi 1 (fun q => ?_) rfl rfl
  by_cases hqr : q = r
  · subst hqr
    simp [St.setDram, pageIdFromMeta_eq hin hn]
  · simp [St.setDram, slot_setSlot, hqr]

/-- **`write_req`** stores the content; a failure leaves the old or the new content. -/
theorem writeReq_spec (hn : n < 2 ^ 32) (h : Inv n s M) (hr : InRange r) (hf : 0 < s.dram.freeNum) :
    cwp (fun t => Image n t.pool M r (some c)) (writeReq r c)
      (fun v t => v = 0 ∧ Inv n t (Function.update M r (some c))) s := by
  simp only [writeReq, Cmd.wp_bind, Cmd.wp_get, Cmd.wp_ite, Cmd.wp_pure]
  refine ⟨fun hb => absurd hb hr.block, fun _ => ?_⟩
  cases hM : M r with
  | none =>
    have hslot := h.slotNone r hr hM
    rw [hslot]
    refine ⟨fun _ => Cmd.wp_conseq (writeNew_spec hn h hr hM hf) fun _ t ht => ⟨trivial, ht⟩, fun hne => ?_⟩
    exact absurd ⟨rfl, rfl⟩ hne
  | some c₀ =>
    obtain ⟨k, _, _, href, _⟩ := h.page hr hM
    have hsh := Cmd.wp_conseq (writeShadow_spec (c := c) hn h hr href hM hf)
      (fun _ t ht => (⟨trivial, ht⟩ : True ∧ Inv n t (Function.update M r (some c))))
    rcases href with hslot | hslot
    · rw [hslot]
      refine ⟨fun e => by simp at e, fun _ => ⟨fun _ => hsh, fun hne => ?_⟩⟩
      simp at hne
    · rw [hslot]
      refine ⟨fun e => by simp at e, fun _ => ⟨fun e => by simp at e, fun _ => ⟨fun _ => hsh, fun hne => ?_⟩⟩⟩
      simp at hne

/-- The branch for a request with one page. -/
theorem deleteOne_spec (h : Inv n s M) (hr : InRange r) {k : Nat} {c₀ : Page} (hM : M r = some c₀)
    (hk : Refers (s.dram.slot r) k) {f : BlockPage → BlockPage} (hclear : f (s.dram.slot r) = ⟨0, 0⟩) :
    cwp (fun t => Image n t.pool M r none) (deleteOne r s.dram.freeNum k f)
      (fun _ t => Inv n t (Function.update M r none)) s := by
  obtain ⟨k', hk', -, href, hsole⟩ := h.page hr hM
  obtain rfl := href.inj hk
  simp only [deleteOne, Cmd.wp_bind, Cmd.wp_modify]
  refine cwp_storeMeta h.clean (h.toStored.image hr _) ?_
  rw [ofWord_zero]
  refine h.freePage hk' hsole (fun q => ?_) rfl rfl
  by_cases hqr : q = r
  · subst hqr
    simp [St.setDram, hclear]
  · simp [St.setDram, slot_setSlot, hqr]

/-- **`delete_page`** removes the request. -/
theorem deletePage_spec (h : Inv n s M) (hr : InRange r) :
    cwp (fun t => Image n t.pool M r none) (deletePage r) (fun _ t => Inv n t (Function.update M r none)) s := by
  simp only [deletePage, Cmd.wp_bind, Cmd.wp_get, Cmd.wp_ite, Cmd.wp_pure]
  refine ⟨fun hb => absurd hb hr.block, fun _ => ?_⟩
  cases hM : M r with
  | none =>
    have hslot := h.slotNone r hr hM
    have hsame : Function.update M r none = M := by rw [← hM, Function.update_eq_self]
    rw [hslot, hsame]
    refine ⟨fun e => by simp at e, fun _ => ⟨fun e => by simp at e, fun _ => ⟨fun e => by simp at e, fun _ => h⟩⟩⟩
  | some c₀ =>
    obtain ⟨k, _, _, href, _⟩ := h.page hr hM
    rcases href with hslot | hslot
    · have hdel := deleteOne_spec h hr hM (Or.inl hslot) (f := fun b => { b with pageId1 := 0 }) (by rw [hslot])
      rw [hslot]
      exact ⟨fun _ => hdel, fun hne => by simp at hne⟩
    · have hdel := deleteOne_spec h hr hM (Or.inr hslot) (f := fun b => { b with pageId2 := 0 }) (by rw [hslot])
      rw [hslot]
      exact ⟨fun e => by simp at e, fun _ => ⟨fun _ => hdel, fun hne => by simp at hne⟩⟩

theorem inv_allFree {d : Dram} (hm : s.pool.magicNumber = magicNumber) (hc : s.dirty = fun _ => none)
    (hv : ∀ i < n, (s.pool.metas i).valid = false) (hd : s.dram = allFree n d) : Inv n s fun _ => none := by
  refine ⟨⟨hm, fun i hi h => ?_, fun r _ i hi => ?_⟩, hc, fun r _ _ => ?_, fun i hi h => ?_, fun j hj => ?_,
    fun j hj k hk he => ?_, fun i hi _ => ⟨i, ?_, ?_⟩⟩
  · rw [hv i hi] at h; cases h
  · have := hi.2.1
    rw [hv i hi.1] at this
    cases this
  · rw [hd]; rfl
  · rw [hv i hi] at h; cases h
  · simp only [hd, allFree] at hj ⊢
    rw [if_pos hj]
    exact ⟨hj, hv j hj⟩
  · simp only [hd, allFree] at hj hk he
    rwa [if_pos hj, if_pos hk] at he
  · rw [hd]; exact hi
  · rw [hd]; exact if_pos hi

/-- **A new pool stores nothing.** -/
theorem cbsInit_fresh {base : Nat} (hm : s.pool.magicNumber ≠ magicNumber) :
    cwp (fun _ => True) (cbsInit base n) (fun v t => v = 0 ∧ Inv n t fun _ => none) s := by
  simp only [cbsInit, Cmd.wp_bind, Cmd.wp_succeeds, Cmd.wp_ite, Cmd.wp_pure, Cmd.wp_get]
  rintro _ rfl
  refine ⟨fun e => absurd rfl e, fun _ => ?_⟩
  rintro _ rfl
  refine ⟨fun e => absurd rfl e, fun _ => ?_⟩
  rintro _ rfl
  refine ⟨fun e => absurd rfl e, fun _ => ⟨fun _ => ?_, fun e => absurd hm e⟩⟩
  refine Cmd.wp_pieces fun s₁ _ => ⟨trivial, fun _ => trivial, ?_⟩
  refine Cmd.wp_step fun s₂ hs₂ => ⟨trivial, ?_⟩
  obtain rfl := evicts_clean rfl hs₂
  refine Cmd.wp_step fun s₃ hs₃ => ⟨trivial, ?_⟩
  obtain rfl := evicts_clean rfl hs₃
  refine ⟨trivial, inv_allFree rfl rfl (fun i hi => ?_) rfl⟩
  simp [St.setDram, Pool.clearMetas, hi, ofWord_zero]

end Specs

end PmemProgram.Cbs
