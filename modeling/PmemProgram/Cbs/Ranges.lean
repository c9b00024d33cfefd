import PmemProgram.Cbs.Exhaustion

/-!
# Request ids and the range of the disk

* `beyond` : other values in the blocks after the last one; `Contained` : a command does not read or write there;
* `contained_iff` : the requests accept the block after the last one, and use it. For every other id they are refused or
  stay on the disk;
* `writeReq_decodes` : the meta of an accepted id is read back as its block and page, also there;
* `life_scanOnDisk` : after a life with ids of the disk the scan stays on the disk, also when a failure has ended it.
-/

namespace PmemProgram.Cbs
open PmemProgram.Lib PmemProgram.Lib.Objects

/-- A command does not read or write the part of the state that the changes `p` replace. -/
def Contained {κ σ α ι : Type} (R : σ → σ → Prop) (G : κ → Nat → Prop) (p : ι → σ → σ) (c : Cmd κ σ α) (s : σ) : Prop :=
  ∀ i v t, Cmd.Run R G c s v t → Cmd.Run R G c (p i s) v (p i t)

theorem Contained.of_commutes {κ σ α ι : Type} {R : σ → σ → Prop} {G : κ → Nat → Prop} {p : ι → σ → σ} {c : Cmd κ σ α}
    (hR : ∀ i s t, R s t → R (p i s) (p i t)) (hc : ∀ i, c.Commutes (p i)) (s : σ) : Contained R G p c s :=
  fun i _ _ h => h.commutes (hR i) (hc i)

/-! ## Persistent memory -/

/-- What is in memory beyond the disk: slots and counters. -/
structure Beyond where
  slot : Nat → Nat → BlockPage
  cachedPagesCnt : Nat → Nat

/-- Other values beyond the disk. -/
def Dram.beyond (x : Beyond) (d : Dram) : Dram :=
  { d with
    disk := fun b p => if b < diskBlockNum ∧ p < blockPageNum then d.disk b p else x.slot b p
    cachedPagesCnt := fun b => if b < diskBlockNum then d.cachedPagesCnt b else x.cachedPagesCnt b }

def St.beyond (x : Beyond) (s : St) : St := s.setDram fun d => d.beyond x

theorem reqPage_le (r : Nat) : r &&& reqPage < blockPageNum := Pmemobj.reqPage_lt r

section Pmem
variable {x : Beyond} {d : Dram} {s t : St} {r : Nat} {c : Page}

theorem slot_beyond (hr : r >>> reqBlock < diskBlockNum) (d : Dram) : (d.beyond x).slot r = d.slot r :=
  if_pos ⟨hr, reqPage_le r⟩

theorem setSlot_beyond (hr : r >>> reqBlock < diskBlockNum) (d : Dram) (f : BlockPage → BlockPage) :
    (d.beyond x).setSlot r f = (d.setSlot r f).beyond x := by
  have hslot := slot_beyond (x := x) hr d
  have hdisk : ((d.beyond x).setSlot r f).disk = ((d.setSlot r f).beyond x).disk := by
    funext b p
    show Function.update (d.beyond x).disk (r >>> reqBlock) (Function.update ((d.beyond x).disk (r >>> reqBlock))
      (r &&& reqPage) (f ((d.beyond x).slot r))) b p = if b < diskBlockNum ∧ p < blockPageNum then Function.update d.disk
      (r >>> reqBlock) (Function.update (d.disk (r >>> reqBlock)) (r &&& reqPage) (f (d.slot r))) b p else x.slot b p
    rw [hslot]
    by_cases hb : b = r >>> reqBlock
    · subst hb
      rw [Function.update_self, Function.update_self]
      by_cases hp : p = r &&& reqPage
      · subst hp
        rw [Function.update_self, Function.update_self, if_pos ⟨hr, reqPage_le r⟩]
      · rw [Function.update_of_ne hp, Function.update_of_ne hp]
        rfl
    · rw [Function.update_of_ne hb, Function.update_of_ne hb]
      rfl
  exact congrArg (fun k => { d.beyond x with disk := k }) hdisk

theorem countPage_beyond (hr : r >>> reqBlock < diskBlockNum) (d : Dram) :
    (d.beyond x).countPage r = (d.countPage r).beyond x := by
  have hcnt : ((d.beyond x).countPage r).cachedPagesCnt = ((d.countPage r).beyond x).cachedPagesCnt := by
    funext b
    show Function.update (d.beyond x).cachedPagesCnt (r >>> reqBlock)
      (((d.beyond x).cachedPagesCnt (r >>> reqBlock) + 1) % 2 ^ 32) b = if b < diskBlockNum
      then Function.update d.cachedPagesCnt (r >>> reqBlock) ((d.cachedPagesCnt (r >>> reqBlock) + 1) % 2 ^ 32) b
      else x.cachedPagesCnt b
    have hold : (d.beyond x).cachedPagesCnt (r >>> reqBlock) = d.cachedPagesCnt (r >>> reqBlock) := if_pos hr
    rw [hold]
    by_cases hb : b = r >>> reqBlock
    · subst hb
      rw [Function.update_self, Function.update_self, if_pos hr]
    · rw [Function.update_of_ne hb, Function.update_of_ne hb]
      rfl
  exact congrArg (fun k => { d.beyond x with cachedPagesCnt := k }) hcnt

theorem evicts_beyond (x : Beyond) (s t : St) (h : Evicts s t) : Evicts (s.beyond x) (t.beyond x) := by
  induction h with
  | refl => exact Relation.ReflTransGen.refl
  | tail _ he ih =>
    obtain ⟨i, m, hm, rfl⟩ := he
    exact ih.tail ⟨i, m, hm, rfl⟩

/-! The commands do not see what is beyond the disk. -/

theorem commutes_copyPage (i : Nat) (c : Page) : (copyPage i c).Commutes (St.beyond x) := Cmd.commutes_pieces fun _ => rfl

theorem commutes_storeMeta (i w : Nat) : (storeMeta i w).Commutes (St.beyond x) := Cmd.commutes_step fun _ => rfl

theorem commutes_freeTop (k : Nat) : (freeTop k).Commutes (St.beyond x) :=
  Cmd.commutes_bind (Cmd.commutes_check _) fun _ => Cmd.commutes_get fun _ => rfl

theorem commutes_resetSn (i : Nat) : (resetSn i).Commutes (St.beyond x) := by
  refine Cmd.commutes_bind (Cmd.commutes_get fun _ => rfl) fun _ => Cmd.commutes_ite (fun _ => ?_) fun _ => Cmd.commutes_pure _
  exact Cmd.commutes_bind (Cmd.commutes_modify fun _ => rfl) fun _ => Cmd.commutes_step fun _ => rfl

theorem commutes_setDram {f : Dram → Dram} (h : ∀ d, f (d.beyond x) = (f d).beyond x) :
    (Cmd.modify fun s => s.setDram f : Cmd Unit St Unit).Commutes (St.beyond x) :=
  Cmd.commutes_modify fun s => congrArg (fun d => { s with dram := d }) (h s.dram)

theorem commutes_writeReq (hr : r >>> reqBlock ≠ diskBlockNum) (c : Page) : (writeReq r c).Commutes (St.beyond x) := by
  refine Cmd.commutes_bind (Cmd.commutes_get fun _ => rfl) fun k => Cmd.commutes_ite (fun _ => Cmd.commutes_pure _) fun hle => ?_
  have hr : r >>> reqBlock < diskBlockNum := by omega
  have hset := setSlot_beyond (x := x) hr
  refine Cmd.commutes_bind (Cmd.commutes_get fun s => slot_beyond hr s.dram) fun slot => ?_
  have hnew : (writeNew r c k).Commutes (St.beyond x) := by
    refine Cmd.commutes_bind (commutes_freeTop k) fun i => Cmd.commutes_bind (commutes_copyPage i c) fun _ =>
      Cmd.commutes_bind (commutes_storeMeta _ _) fun _ => commutes_setDram fun d => ?_
    rw [← countPage_beyond hr, ← hset]
    rfl
  have hshadow : ∀ i, (writeShadow r c k i).Commutes (St.beyond x) := by
    intro i
    refine Cmd.commutes_bind (commutes_resetSn i) fun _ => Cmd.commutes_bind (commutes_freeTop k) fun j =>
      Cmd.commutes_bind (commutes_copyPage j c) fun _ => Cmd.commutes_bind (commutes_storeMeta _ _) fun _ =>
      Cmd.commutes_bind (commutes_setDram fun d => hset d _) fun _ => Cmd.commutes_bind (commutes_storeMeta _ _) fun _ =>
      commutes_setDram fun d => ?_
    rw [← hset]
    rfl
  have htwo : ∀ i j, (writeTwo r c k i j).Commutes (St.beyond x) := by
    intro i j
    refine Cmd.commutes_bind (Cmd.commutes_get fun _ => rfl) fun sn₁ => Cmd.commutes_bind (Cmd.commutes_get fun _ => rfl)
      fun sn₂ => Cmd.commutes_ite (fun _ => ?_) fun _ => ?_
    all_goals
      refine Cmd.commutes_bind (commutes_copyPage _ c) fun _ => Cmd.commutes_bind (Cmd.commutes_modify fun _ => rfl)
        fun _ => Cmd.commutes_bind (commutes_storeMeta _ _) fun _ => Cmd.commutes_bind (commutes_storeMeta _ _) fun _ =>
        commutes_setDram fun d => ?_
      rw [hset]
      rfl
  refine Cmd.commutes_ite (fun _ => ?_) fun _ => Cmd.commutes_ite (fun _ => ?_) fun _ =>
    Cmd.commutes_ite (fun _ => ?_) fun _ => ?_
  · exact Cmd.commutes_bind hnew fun _ => Cmd.commutes_pure _
  · exact Cmd.commutes_bind (hshadow _) fun _ => Cmd.commutes_pure _
  · exact Cmd.commutes_bind (hshadow _) fun _ => Cmd.commutes_pure _
  · exact Cmd.commutes_bind (htwo _ _) fun _ => Cmd.commutes_pure _

theorem commutes_deletePage (hr : r >>> reqBlock ≠ diskBlockNum) : (deletePage r).Commutes (St.beyond x) := by
  refine Cmd.commutes_ite (fun _ => Cmd.commutes_pure _) fun hle => ?_
  have hr : r >>> reqBlock < diskBlockNum := by omega
  have hset := setSlot_beyond (x := x) hr
  refine Cmd.commutes_bind (Cmd.commutes_get fun s => slot_beyond hr s.dram) fun slot =>
    Cmd.commutes_bind (Cmd.commutes_get fun _ => rfl) fun k => ?_
  have hone : ∀ i f, (deleteOne r k i f).Commutes (St.beyond x) := fun i f =>
    Cmd.commutes_bind (commutes_setDram fun d => hset d f) fun _ => Cmd.commutes_bind (commutes_storeMeta _ _) fun _ =>
      commutes_setDram fun _ => rfl
  have htwo : ∀ i j, (deleteTwo r k i j).Commutes (St.beyond x) := by
    intro i j
    refine Cmd.commutes_bind (Cmd.commutes_get fun _ => rfl) fun sn₁ => Cmd.commutes_bind (Cmd.commutes_get fun _ => rfl)
      fun sn₂ => Cmd.commutes_ite (fun _ => ?_) fun _ => ?_
    all_goals
      refine Cmd.commutes_bind (commutes_storeMeta _ _) fun _ => Cmd.commutes_bind (commutes_storeMeta _ _) fun _ =>
        commutes_setDram fun d => ?_
      rw [hset]
      rfl
  exact Cmd.commutes_ite (fun _ => hone _ _) fun _ => Cmd.commutes_ite (fun _ => hone _ _) fun _ =>
    Cmd.commutes_ite (fun _ => htwo _ _) fun _ => Cmd.commutes_pure _

/-- The requests for `r` do not use what is beyond the disk. -/
structure OnDisk (r : Nat) (c : Page) (s : St) : Prop where
  write : Contained Evicts (fun _ k => k = 0) St.beyond (writeReq r c) s
  read : ∀ x, readReq (s.beyond x) r = readReq s r
  delete : Contained Evicts (fun _ k => k = 0) St.beyond (deletePage r) s

theorem onDisk_iff : OnDisk r c s ↔ r >>> reqBlock ≠ diskBlockNum := by
  constructor
  · intro h hr
    -- the slot after the last one is read, whatever it holds
    have hslot : ∀ b : BlockPage, (s.beyond ⟨fun _ _ => b, fun _ => 0⟩).dram.slot r = b := fun b =>
      if_neg fun hlt => absurd hr hlt.1.ne
    have hnone : readReq (s.beyond ⟨fun _ _ => ⟨0, 0⟩, fun _ => 0⟩) r = none := by
      rw [readReq, hslot, hr]
      simp
    have hsome : readReq (s.beyond ⟨fun _ _ => ⟨1, 0⟩, fun _ => 0⟩) r = some 0 := by
      rw [readReq, hslot, hr]
      simp [pageMetaFromId]
    rw [h.read] at hnone hsome
    rw [hnone] at hsome
    cases hsome
  · intro hr
    refine ⟨.of_commutes evicts_beyond (fun _ => commutes_writeReq hr c) s, fun x => ?_,
      .of_commutes evicts_beyond (fun _ => commutes_deletePage hr) s⟩
    unfold readReq
    split_ifs with hb
    · rfl
    · have hslot : (s.beyond x).dram.slot r = s.dram.slot r := slot_beyond (by omega) s.dram
      rw [hslot]
      rfl

/-! ## Decoding -/

/-- The valid metas of `t` are read back as block and page of `r`, or are those of `s`. -/
def Decodes (r : Nat) (s t : St) : Prop := ∀ i, (t.meta i).valid = true →
  ((t.meta i).reqId >>> reqBlock = r >>> reqBlock ∧ (t.meta i).reqId &&& reqPage = r &&& reqPage) ∨
    (s.meta i).valid = true ∧ (t.meta i).reqId = (s.meta i).reqId

theorem Decodes.refl (r : Nat) (s : St) : Decodes r s s := fun _ hv => Or.inr ⟨hv, rfl⟩

theorem Decodes.trans (r : Nat) (s t u : St) (h₁ : Decodes r s t) (h₂ : Decodes r t u) : Decodes r s u := by
  intro i hv
  rcases h₂ i hv with h | ⟨hv', he⟩
  · exact Or.inl h
  · rw [he]
    exact h₁ i hv'

theorem meta_evicts {s t : St} (h : Evicts s t) : t.meta = s.meta := by
  induction h with
  | refl => rfl
  | tail _ he ih =>
    obtain ⟨i, m, hm, rfl⟩ := he
    rw [← ih]
    funext j
    by_cases hj : j = i
    · subst hj
      simp [St.meta, hm]
    · simp [St.meta, Pool.setMeta, hj]

theorem decodes_of_meta (h : t.meta = s.meta) : Decodes r s t := by
  intro i hv
  rw [h] at hv ⊢
  exact Or.inr ⟨hv, rfl⟩

/-- A store of a word that is invalid, or of `r`. -/
theorem decodes_storeMeta {i w : Nat} (hw : (Meta.ofWord w).valid = true → (Meta.ofWord w).reqId = r) :
    (storeMeta i w).Moves (Decodes r) := by
  refine Cmd.moves_step fun s j hv => ?_
  by_cases hj : j = i
  · subst hj
    have hmeta : ({ s with
        pool := s.pool.setMeta j (Meta.ofWord w), dirty := Function.update s.dirty j none } : St).meta j = Meta.ofWord w := by
      simp [St.meta, Pool.setMeta]
    rw [hmeta] at hv ⊢
    rw [hw hv]
    exact Or.inl ⟨rfl, rfl⟩
  · have hmeta : ({ s with
        pool := s.pool.setMeta i (Meta.ofWord w), dirty := Function.update s.dirty i none } : St).meta j = s.meta j := by
      simp [St.meta, Pool.setMeta, hj]
    rw [hmeta] at hv ⊢
    exact Or.inr ⟨hv, rfl⟩

theorem decodes_setDram (f : Dram → Dram) : (Cmd.modify fun s => s.setDram f : Cmd Unit St Unit).Moves (Decodes r) :=
  Cmd.moves_modify fun s => Decodes.refl r s

theorem decodes_get {α : Type} (f : St → α) : (Cmd.get f : Cmd Unit St α).Moves (Decodes r) :=
  Cmd.moves_get (Decodes.refl r) f

theorem decodes_freeTop (k : Nat) : (freeTop k).Moves (Decodes r) :=
  Cmd.moves_bind (Cmd.moves_check _) fun _ => decodes_get _

theorem decodes_copyPage (i : Nat) (c : Page) : (copyPage i c).Moves (Decodes r) :=
  Cmd.moves_pieces fun s => Decodes.refl r s

theorem decodes_resetSn (i : Nat) : (resetSn i).Moves (Decodes r) := by
  refine Cmd.moves_bind (decodes_get _) fun _ => Cmd.moves_ite (Cmd.moves_bind (Cmd.moves_modify fun s j hv => ?_)
    fun _ => Cmd.moves_step fun s => decodes_of_meta ?_) (Cmd.moves_pure _)
  · by_cases hj : j = i
    · subst hj
      have hmeta : ({ s with dirty := Function.update s.dirty j (some { s.meta j with sn := 0 }) } : St).meta j =
          { s.meta j with sn := 0 } := by simp [St.meta]
      rw [hmeta] at hv ⊢
      exact Or.inr ⟨hv, rfl⟩
    · have hmeta : ({ s with dirty := Function.update s.dirty i (some { s.meta i with sn := 0 }) } : St).meta j =
          s.meta j := by simp [St.meta, hj]
      rw [hmeta] at hv ⊢
      exact Or.inr ⟨hv, rfl⟩
  · funext j
    by_cases hj : j = i
    · subst hj
      simp [St.meta, Pool.setMeta]
    · simp [St.meta, Pool.setMeta, hj]

theorem decodes_writeNew (hr : r < 2 ^ 32) (c : Page) (k : Nat) : (writeNew r c k).Moves (Decodes r) :=
  Cmd.moves_bind (decodes_freeTop k) fun _ => Cmd.moves_bind (decodes_copyPage _ c) fun _ =>
    Cmd.moves_bind (decodes_storeMeta fun _ => by rw [ofWord_new hr]) fun _ => decodes_setDram _

theorem decodes_writeShadow (hr : r < 2 ^ 32) (c : Page) (k i : Nat) : (writeShadow r c k i).Moves (Decodes r) :=
  Cmd.moves_bind (decodes_resetSn i) fun _ => Cmd.moves_bind (decodes_freeTop k) fun _ =>
    Cmd.moves_bind (decodes_copyPage _ c) fun _ =>
    Cmd.moves_bind (decodes_storeMeta fun _ => by rw [ofWord_shadow hr]) fun _ =>
    Cmd.moves_bind (decodes_setDram _) fun _ =>
    Cmd.moves_bind (decodes_storeMeta fun hv => by rw [ofWord_zero] at hv; cases hv) fun _ => decodes_setDram _

/-- **The meta of an accepted id is read back as its block and page.** -/
theorem writeReq_decodes {n : Nat} (h : Bounded n s.dram) (hr : ¬ r >>> reqBlock > diskBlockNum) {v : Int}
    (hrun : Cmd.Run Evicts (fun _ k => k = 0) (writeReq r c) s v t) : Decodes r s t := by
  have hlt : r < 2 ^ 32 := by
    rw [Nat.shiftRight_eq_div_pow] at hr
    simp only [reqBlock, diskBlockNum] at hr
    omega
  have hmoves : ∀ {d : Cmd Unit St Unit} {v : Int}, d.Moves (Decodes r) →
      Cmd.Run Evicts (fun _ k => k = 0) (d >>= fun _ => pure 0) s v t → Decodes r s t := by
    intro d v hd hrun
    refine Cmd.Run.moves (Decodes.refl r) (Decodes.trans r) (fun _ _ he => decodes_of_meta (meta_evicts he)) hrun ?_
    exact Cmd.moves_bind hd fun _ => Cmd.moves_pure _
  obtain ⟨_, s₁, hget, h₁⟩ := Cmd.run_bind hrun
  obtain ⟨rfl, rfl⟩ := Cmd.run_get_iff.mp hget
  rw [if_neg hr] at h₁
  obtain ⟨_, s₂, hget, h₂⟩ := Cmd.run_bind h₁
  obtain ⟨rfl, rfl⟩ := Cmd.run_get_iff.mp hget
  split_ifs at h₂ with hzero hone htwo
  · exact hmoves (decodes_writeNew hlt c _) h₂
  · exact hmoves (decodes_writeShadow hlt c _ _) h₂
  · exact hmoves (decodes_writeShadow hlt c _ _) h₂
  · -- no slot refers to two pages
    rcases h.cases r with hslot | ⟨k, -, hslot | hslot⟩
    · exact absurd ⟨by rw [hslot], by rw [hslot]⟩ hzero
    · exact absurd ⟨by rw [hslot]; exact k.succ_ne_zero, by rw [hslot]⟩ hone
    · exact absurd ⟨by rw [hslot], by rw [hslot]; exact k.succ_ne_zero⟩ htwo

/-! ## The scan of `cbs_init` -/

/-- The scan over the metas does not use what is beyond the disk. -/
def ScanOnDisk (metas : Nat → Meta) (n : Nat) : Prop := ∀ x d,
  (List.range n).foldl (rebuildStep metas) (Dram.beyond x d) = ((List.range n).foldl (rebuildStep metas) d).beyond x

theorem rebuildStep_beyond {metas : Nat → Meta} {i : Nat}
    (h : (metas i).valid = true → (metas i).reqId >>> reqBlock < diskBlockNum) (x : Beyond) (d : Dram) :
    rebuildStep metas (d.beyond x) i = (rebuildStep metas d i).beyond x := by
  unfold rebuildStep
  by_cases hv : (metas i).valid = false
  · rw [if_pos hv, if_pos hv]
    rfl
  · have hr := h (by simpa using hv)
    rw [if_neg hv, if_neg hv, slot_beyond hr]
    split_ifs
    · rw [setSlot_beyond hr, countPage_beyond hr]
    · exact setSlot_beyond hr d _

/-- After the scan the slot of a valid meta holds the id of a page. -/
theorem foldl_rebuildStep_slot {metas : Nat → Meta} {n i : Nat} (hi : i < n) (hv : (metas i).valid = true) (d : Dram) :
    (((List.range n).foldl (rebuildStep metas) d).slot (metas i).reqId).pageId1 < 2 ^ 32 := by
  induction n with
  | zero => omega
  | succ n ih =>
    rw [List.range_succ, List.foldl_append, List.foldl_cons, List.foldl_nil, rebuildStep_slot]
    split_ifs with hn
    · exact Nat.mod_lt _ (by decide)
    · apply ih
      have hne : i ≠ n := fun heq => hn ⟨heq ▸ hv, heq ▸ rfl⟩
      omega

theorem scanOnDisk_iff {metas : Nat → Meta} {n : Nat} :
    ScanOnDisk metas n ↔ ∀ i < n, (metas i).valid = true → (metas i).reqId >>> reqBlock < diskBlockNum := by
  constructor
  · intro h i hi hv
    by_contra hno
    have hscan := h ⟨fun _ _ => ⟨2 ^ 32, 0⟩, fun _ => 0⟩ newFile.dram
    have hlt := foldl_rebuildStep_slot hi hv (Dram.beyond ⟨fun _ _ => ⟨2 ^ 32, 0⟩, fun _ => 0⟩ newFile.dram)
    have hslot : ∀ d, (Dram.beyond ⟨fun _ _ => ⟨2 ^ 32, 0⟩, fun _ => 0⟩ d).slot (metas i).reqId = ⟨2 ^ 32, 0⟩ :=
      fun _ => if_neg fun hb => hno hb.1
    rw [hscan, hslot] at hlt
    exact absurd hlt (Nat.lt_irrefl _)
  · intro h x d
    induction n with
    | zero => rfl
    | succ n ih =>
      rw [List.range_succ, List.foldl_append, List.foldl_append, ih fun i hi => h i (by omega)]
      exact rebuildStep_beyond (h n (Nat.lt_succ_self n)) x _

/-! ## The metas of a life -/

/-- The valid metas belong to requests of the disk. -/
def MetasOnDisk (n : Nat) (p : Pool) : Prop := ∀ i < n, (p.metas i).valid = true → InRange (p.metas i).reqId

theorem InRange.onDisk {r : Nat} (h : InRange r) : r >>> reqBlock < diskBlockNum := by
  rw [Nat.shiftRight_eq_div_pow]
  have := h.lt
  simp only [reqBlock, diskBlockNum]
  omega

theorem MetasOnDisk.setMeta {n i : Nat} {p : Pool} (h : MetasOnDisk n p) {m : Meta}
    (hm : i < n → m.valid = true → InRange m.reqId) : MetasOnDisk n (p.setMeta i m) := by
  intro j hj hv
  by_cases hji : j = i
  · subst hji
    rw [metas_setMeta_self] at hv ⊢
    exact hm hj hv
  · rw [metas_setMeta_ne hji] at hv ⊢
    exact h j hj hv

/-- Nothing is to be written back, and the valid metas belong to requests of the disk. -/
structure Tidy (n : Nat) (s : St) : Prop where
  clean : s.dirty = fun _ => none
  metas : MetasOnDisk n s.pool

section Tidy
variable {n : Nat}

/-- The command leaves the state tidy, and the metas on the disk wherever a failure hits it. -/
abbrev KeepsTidy {α : Type} (n : Nat) (c : Cmd Unit St α) (s : St) : Prop :=
  cwp (fun t => MetasOnDisk n t.pool) c (fun _ t => Tidy n t) s

theorem resetSn_tidy (h : Tidy n s) (i : Nat) :
    cwp (fun t => MetasOnDisk n t.pool) (resetSn i) (fun _ t => Tidy n t ∧ t.dram = s.dram) s := by
  have hreset : MetasOnDisk n (s.pool.setMeta i { s.pool.metas i with sn := 0 }) :=
    h.metas.setMeta fun hi hv => h.metas i hi hv
  exact cwp_resetSn_clean h.clean h.metas hreset ⟨h, rfl⟩ ⟨⟨h.clean, hreset⟩, rfl⟩

theorem writeNew_tidy (h : Tidy n s) (hr : InRange r) (hf : s.dram.freeNum ≠ 0) :
    KeepsTidy n (writeNew r c s.dram.freeNum) s := by
  simp only [KeepsTidy, writeNew, freeTop, Cmd.wp_bind, Cmd.wp_check, Cmd.wp_get]
  refine ⟨hf, cwp_copyPage h.clean h.metas (fun _ => h.metas) (cwp_storeMeta h.clean h.metas ?_)⟩
  rw [ofWord_new (show r < 2 ^ 32 by have := hr.lt; omega), Cmd.wp_modify]
  exact ⟨h.clean, h.metas.setMeta fun _ _ => hr⟩

theorem writeShadow_tidy (h : Tidy n s) (hr : InRange r) (hf : s.dram.freeNum ≠ 0) (k : Nat) :
    KeepsTidy n (writeShadow r c s.dram.freeNum k) s := by
  simp only [KeepsTidy, writeShadow, freeTop, Cmd.wp_bind, Cmd.wp_check, Cmd.wp_get]
  refine Cmd.wp_conseq (resetSn_tidy h k) fun _ t ⟨ht, hdram⟩ => ?_
  have hpublished := ht.metas.setMeta (i := t.dram.freeList (s.dram.freeNum - 1)) (m := ⟨true, 1, r⟩) fun _ _ => hr
  refine ⟨hf, cwp_copyPage ht.clean ht.metas (fun _ => ht.metas) (cwp_storeMeta ht.clean ht.metas ?_)⟩
  rw [ofWord_shadow (show r < 2 ^ 32 by have := hr.lt; omega), Cmd.wp_modify]
  refine cwp_storeMeta ht.clean hpublished ?_
  rw [ofWord_zero, Cmd.wp_modify]
  exact ⟨ht.clean, hpublished.setMeta fun _ hv => absurd hv Bool.false_ne_true⟩

theorem writeReq_tidy (h : Tidy n s) (hb : Bounded n s.dram) (hr : InRange r) (hf : s.dram.freeNum ≠ 0) :
    KeepsTidy n (writeReq r c) s := by
  simp only [KeepsTidy, writeReq, Cmd.wp_bind, Cmd.wp_get, Cmd.wp_ite, Cmd.wp_pure]
  refine ⟨fun hblock => absurd hblock hr.block, fun _ => ⟨fun _ => writeNew_tidy h hr hf, fun hne => ?_⟩⟩
  refine ⟨fun _ => writeShadow_tidy h hr hf _, fun hne₁ => ⟨fun _ => writeShadow_tidy h hr hf _, fun hne₂ => ?_⟩⟩
  -- no slot refers to two pages
  rcases hb.cases r with hslot | ⟨k, -, hslot | hslot⟩
  · exact absurd ⟨by rw [hslot], by rw [hslot]⟩ hne
  · exact absurd ⟨by rw [hslot]; exact k.succ_ne_zero, by rw [hslot]⟩ hne₁
  · exact absurd ⟨by rw [hslot], by rw [hslot]; exact k.succ_ne_zero⟩ hne₂

theorem cwp_clearMeta {Q : Unit → St → Prop} {i : Nat} (h : Tidy n s)
    (hQ : ∀ t, Tidy n t → Q () t) : cwp (fun t => MetasOnDisk n t.pool) (storeMeta i 0) Q s := by
  refine cwp_storeMeta h.clean h.metas (hQ _ ⟨h.clean, ?_⟩)
  rw [ofWord_zero]
  exact h.metas.setMeta fun _ hv => absurd hv Bool.false_ne_true

theorem deletePage_tidy (h : Tidy n s) (r : Nat) : KeepsTidy n (deletePage r) s := by
  have hdram : ∀ {t : St} (f : Dram → Dram), Tidy n t → Tidy n (t.setDram f) := fun _ ht => ⟨ht.clean, ht.metas⟩
  have hone : ∀ k p f, KeepsTidy n (deleteOne r k p f) s := by
    intro k p f
    simp only [KeepsTidy, deleteOne, Cmd.wp_bind, Cmd.wp_modify]
    exact cwp_clearMeta (hdram _ h) fun t ht => hdram _ ht
  have htwo : ∀ k p q, KeepsTidy n (deleteTwo r k p q) s := by
    intro k p q
    simp only [KeepsTidy, deleteTwo, Cmd.wp_bind, Cmd.wp_get, Cmd.wp_ite, Cmd.wp_modify]
    refine ⟨fun _ => ?_, fun _ => ?_⟩
    all_goals exact cwp_clearMeta h fun t ht => cwp_clearMeta ht fun u hu => hdram _ hu
  simp only [KeepsTidy, deletePage, Cmd.wp_bind, Cmd.wp_get, Cmd.wp_ite, Cmd.wp_pure]
  exact ⟨fun _ => h, fun _ => ⟨fun _ => hone _ _ _, fun _ => ⟨fun _ => hone _ _ _, fun _ => ⟨fun _ => htwo _ _ _, fun _ => h⟩⟩⟩⟩

theorem cbsInit_tidy (base : Nat) (h : s.pool.magicNumber = magicNumber → Tidy n s) :
    cwp (fun _ => True) (cbsInit base n) (fun _ t => Tidy n t) s := by
  simp only [cbsInit, Cmd.wp_bind, Cmd.wp_succeeds, Cmd.wp_ite, Cmd.wp_pure, Cmd.wp_get]
  rintro _ rfl
  refine ⟨fun e => absurd rfl e, fun _ => ?_⟩
  rintro _ rfl
  refine ⟨fun e => absurd rfl e, fun _ => ?_⟩
  rintro _ rfl
  refine ⟨fun e => absurd rfl e, fun _ => ⟨fun _ => ?_, fun hm => ?_⟩⟩
  · refine Cmd.wp_pieces fun s₁ _ => ⟨trivial, fun _ => trivial, ?_⟩
    refine Cmd.wp_step fun s₂ hs₂ => ⟨trivial, ?_⟩
    obtain rfl := evicts_clean rfl hs₂
    refine Cmd.wp_step fun s₃ hs₃ => ⟨trivial, ?_⟩
    obtain rfl := evicts_clean rfl hs₃
    refine ⟨rfl, fun i hi hv => ?_⟩
    simp [St.setDram, Pool.clearMetas, hi, ofWord_zero] at hv
  · obtain ⟨hclean, hmetas⟩ := h (not_not.mp hm)
    exact ⟨hclean, hmetas⟩

theorem restart_tidy {base : Nat} {v : Int} (h : MetasOnDisk n s.pool) (hr : (cbsInit base n).exec s.reboot = some (v, t)) :
    Tidy n t :=
  Cmd.wp_run (cbsInit_tidy (s := s.reboot) base fun _ => ⟨rfl, h⟩) (exec_runs hr)

theorem Op.crash_tidy {op : Op} {u : St} (h : Tidy n s) (hb : Bounded n s.dram) (ha : op.Allowed s) (hu : op.Crash s u) :
    MetasOnDisk n u.pool := by
  cases op with
  | write r c => exact Cmd.wp_crash (writeReq_tidy h hb ha.1 ha.2.ne') hu
  | delete r => exact Cmd.wp_crash (deletePage_tidy h r) hu

theorem life_tidy (hn : n < 2 ^ 32) {L : Nat → Set (Option Page)} (h : Life n (fun _ => True) s L) : Tidy n s := by
  induction h with
  | init hm hr => exact Cmd.wp_run (cbsInit_tidy _ fun he => absurd he hm) hr
  | @op s t L op hlife ha hr ih =>
    cases op with
    | write r c =>
      obtain ⟨v, hr⟩ := hr
      exact Cmd.wp_run (writeReq_tidy ih (life_bounded hn hlife) ha.1 ha.2.ne') hr
    | delete r => exact Cmd.wp_run (deletePage_tidy ih r) hr
  | restart _ _ hr ih => exact restart_tidy ih.metas hr
  | crash hlife ha hu _ hr ih => exact restart_tidy (Op.crash_tidy ih (life_bounded hn hlife) ha hu) hr

/-- **The scan stays on the disk** after every life with ids of the disk, also after one that a failure ends. -/
theorem life_scanOnDisk (hn : n < 2 ^ 32) {L : Nat → Set (Option Page)} (h : Life n (fun _ => True) s L) :
    ScanOnDisk s.pool.metas n ∧ ∀ (op : Op) u, op.Allowed s → op.Crash s u → ScanOnDisk u.pool.metas n := by
  have hscan : ∀ {p : Pool}, MetasOnDisk n p → ScanOnDisk p.metas n := fun hp =>
    scanOnDisk_iff.mpr fun i hi hv => (hp i hi hv).onDisk
  have htidy := life_tidy hn h
  exact ⟨hscan htidy.metas, fun op u ha hu => hscan (op.crash_tidy htidy (life_bounded hn h) ha hu)⟩

end Tidy

end Pmem

/-! ## A memory kind -/

namespace Memkind

/-- Other pointers beyond the disk. -/
def St.beyond (x : Nat → Nat → Nat) (s : St) : St :=
  { s with disk := fun b p => if b < diskBlockNum ∧ p < blockPageNum then s.disk b p else x b p }

variable {G : Ask → Nat → Prop} {x : Nat → Nat → Nat} {s : St} {r : Nat} {c : Page}

theorem page_beyond (hr : r >>> reqBlock < diskBlockNum) (s : St) : (s.beyond x).page r = s.page r :=
  if_pos ⟨hr, reqPage_le r⟩

theorem setPage_beyond (hr : r >>> reqBlock < diskBlockNum) (s : St) (q : Nat) :
    (s.beyond x).setPage r q = (s.setPage r q).beyond x := by
  have hdisk : ((s.beyond x).setPage r q).disk = ((s.setPage r q).beyond x).disk := by
    funext b p
    show Function.update (s.beyond x).disk (r >>> reqBlock) (Function.update ((s.beyond x).disk (r >>> reqBlock))
      (r &&& reqPage) q) b p = if b < diskBlockNum ∧ p < blockPageNum then Function.update s.disk
      (r >>> reqBlock) (Function.update (s.disk (r >>> reqBlock)) (r &&& reqPage) q) b p else x b p
    by_cases hb : b = r >>> reqBlock
    · subst hb
      rw [Function.update_self, Function.update_self]
      by_cases hp : p = r &&& reqPage
      · subst hp
        rw [Function.update_self, Function.update_self, if_pos ⟨hr, reqPage_le r⟩]
      · rw [Function.update_of_ne hp, Function.update_of_ne hp]
        rfl
    · rw [Function.update_of_ne hb, Function.update_of_ne hb]
      rfl
  exact congrArg (fun k => { s.beyond x with disk := k }) hdisk

theorem commutes_writeReq (hr : r >>> reqBlock ≠ diskBlockNum) (c : Page) : (writeReq r c).Commutes (St.beyond x) := by
  refine Cmd.commutes_ite (fun _ => Cmd.commutes_pure _) fun hle => ?_
  have hr : r >>> reqBlock < diskBlockNum := by omega
  have hmalloc : memkindMalloc.Commutes (St.beyond x) :=
    Cmd.commutes_bind (Cmd.commutes_succeeds _) fun _ =>
      Cmd.commutes_ite (fun _ _ => Cmd.commutes_stepGet fun _ => rfl) fun _ => Cmd.commutes_pure _
  have hobtain : ∀ p, (obtainPage r p).Commutes (St.beyond x) := fun p => Cmd.commutes_ite
    (fun _ => Cmd.commutes_bind hmalloc fun q => Cmd.commutes_bind (Cmd.commutes_modify fun s => setPage_beyond hr s q)
      fun _ => Cmd.commutes_pure _) fun _ => Cmd.commutes_pure _
  have hcopy : ∀ p, (copyContent p c).Commutes (St.beyond x) := fun p => Cmd.commutes_ite
    (fun _ => Cmd.commutes_bind (Cmd.commutes_get fun _ => rfl) fun _ => Cmd.commutes_bind (Cmd.commutes_check _)
      fun _ => Cmd.commutes_step fun _ => rfl) fun _ => Cmd.commutes_pure _
  exact Cmd.commutes_bind (Cmd.commutes_get fun s => page_beyond hr s) fun _ => Cmd.commutes_bind (hobtain _) fun _ =>
    Cmd.commutes_bind (hcopy _) fun _ => Cmd.commutes_pure _

theorem commutes_deletePage (hr : r >>> reqBlock ≠ diskBlockNum) : (deletePage r).Commutes (St.beyond x) := by
  refine Cmd.commutes_ite (fun _ => Cmd.commutes_pure _) fun hle => ?_
  have hr : r >>> reqBlock < diskBlockNum := by omega
  have hfree : ∀ p, (memkindFree p).Commutes (St.beyond x) := fun p =>
    Cmd.commutes_bind (Cmd.commutes_get fun _ => rfl) fun _ => Cmd.commutes_bind (Cmd.commutes_check _) fun _ =>
      Cmd.commutes_step fun _ => rfl
  exact Cmd.commutes_bind (Cmd.commutes_get fun s => page_beyond hr s) fun p => Cmd.commutes_ite
    (fun _ => Cmd.commutes_bind (hfree p) fun _ => Cmd.commutes_modify fun s => setPage_beyond hr s 0)
    fun _ => Cmd.commutes_pure _

/-- The requests for `r` do not use what is beyond the disk. -/
structure OnDisk (G : Ask → Nat → Prop) (r : Nat) (c : Page) (s : St) : Prop where
  write : Contained (fun s t => s = t) G St.beyond (writeReq r c) s
  read : ∀ x, readReq (s.beyond x) r = readReq s r
  delete : Contained (fun s t => s = t) G St.beyond (deletePage r) s

theorem onDisk_iff : OnDisk G r c s ↔ r >>> reqBlock ≠ diskBlockNum := by
  constructor
  · intro h hr
    have hpage : ∀ p, (s.beyond fun _ _ => p).page r = p := fun p => if_neg fun hlt => absurd hr hlt.1.ne
    have hnone : readReq (s.beyond fun _ _ => 0) r = none := by
      rw [readReq, hpage, hr]
      simp
    have hsome : readReq (s.beyond fun _ _ => 1) r = some 1 := by
      rw [readReq, hpage, hr]
      simp
    rw [h.read] at hnone hsome
    rw [hnone] at hsome
    cases hsome
  · intro hr
    have heq : ∀ (x : Nat → Nat → Nat) (s t : St), s = t → s.beyond x = t.beyond x := fun _ _ _ h => congrArg _ h
    refine ⟨.of_commutes heq (fun _ => commutes_writeReq hr c) s, fun x => ?_,
      .of_commutes heq (fun _ => commutes_deletePage hr) s⟩
    unfold readReq
    split_ifs with hb h₁ h₂ h₂
    · rfl
    · rfl
    · rw [page_beyond (by omega)] at h₁
      exact absurd h₁ h₂
    · rw [page_beyond (by omega)] at h₁
      exact absurd h₂ h₁
    · rw [page_beyond (by omega)]

end Memkind

/-! ## The two stores -/

/-- **Which request ids stay on the disk.** All but those of the block after the last one, which is accepted: for both
stores, and for every id. Every page written for an accepted id is read back as its block and page, and the scan puts it
into that slot; the scan stays on the disk if and only if the valid metas do, as in every life with ids of the disk. -/
theorem contained_iff {n : Nat} (hn : n < 2 ^ 32) :
    (∀ r c s, OnDisk r c s ↔ r >>> reqBlock ≠ diskBlockNum) ∧
    (∀ r c G s, Memkind.OnDisk G r c s ↔ r >>> reqBlock ≠ diskBlockNum) ∧
    (∀ s L, Life n (fun _ => True) s L → ∀ r c, ¬ r >>> reqBlock > diskBlockNum → ∀ v t,
      Cmd.Run Evicts (fun _ k => k = 0) (writeReq r c) s v t → Decodes r s t) ∧
    (∀ metas, ScanOnDisk metas n ↔ ∀ i < n, (metas i).valid = true → (metas i).reqId >>> reqBlock < diskBlockNum) ∧
    (∀ s L, Life n (fun _ => True) s L → ScanOnDisk s.pool.metas n ∧
      ∀ (op : Op) u, op.Allowed s → op.Crash s u → ScanOnDisk u.pool.metas n) ∧
    ∀ metas d i, (metas i).valid = true →
      ((rebuildStep metas d i).slot (metas i).reqId).pageId1 = pageIdFromMeta i ∧
      ∀ q, q ≠ (metas i).reqId → (rebuildStep metas d i).slot q = d.slot q := by
  refine ⟨fun _ _ _ => onDisk_iff, fun _ _ _ _ => Memkind.onDisk_iff,
    fun s L h r c hr v t hrun => writeReq_decodes (life_bounded hn h) hr hrun, fun _ => scanOnDisk_iff,
    fun _ _ => life_scanOnDisk hn, fun metas d i hv => ⟨?_, fun q hq => ?_⟩⟩
  · rw [rebuildStep_slot, if_pos ⟨hv, rfl⟩]
  · rw [rebuildStep_slot, if_neg fun h => hq h.2.symm]

/-- The last page of the disk. -/
theorem contained_iff_last : OnDisk (2 ^ 30 - 1) (fill 1) (opened pmemPageNumbers) :=
  ((contained_iff (n := pmemPageNumbers) (by decide)).1 _ _ _).mpr (by decide)

/-- The first id after the disk is accepted, and what is beyond the disk is used. -/
theorem block_after_last_accepted :
    ¬ (2 ^ 30 >>> reqBlock > diskBlockNum) ∧ ¬ OnDisk (2 ^ 30) (fill 1) (opened pmemPageNumbers) ∧
      ¬ Memkind.OnDisk AnyAnswer (2 ^ 30) (fill 1) ⟨fun _ _ => 0, fun _ => 0, [], fun _ => fill 0⟩ := by
  have hblock : (2 ^ 30) >>> reqBlock = diskBlockNum := by decide
  exact ⟨by decide, fun h => onDisk_iff.mp h hblock, fun h => Memkind.onDisk_iff.mp h hblock⟩

end PmemProgram.Cbs
