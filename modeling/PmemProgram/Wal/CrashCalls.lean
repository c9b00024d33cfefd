import Mathlib
import PmemProgram.Wal.Ownership
import PmemProgram.Wal.Schedule

/-!
# Power failures inside the calls

* `Settled cap L x y` : a guard that is being set up has come to a harmless point;
* `InStep single w t` : a power failure does not come between the changes of the two directories; `Cut.stored`,
  `Unlinking.stored`;
* `Call.InStep cfg C w t c` : the power failure inside the call `c` is at a point from which the logs can be read back;
* `Call.stored` : they say then `c.torn cfg C w t`, and the other files have lost nothing (`PlainFlushed`).
-/

namespace PmemProgram.Wal
open PmemProgram.Lib PmemProgram.Lib.Ring

/-! ## A guard that is being set up -/

/-- A guard is being set up on a file of the content `L`, the NVM file was `x` and is `y`, and a power failure does no harm
now. -/
def Settled (cap : Nat) (L : List Byte) (x y : Option NvmFile) : Prop :=
  ∃ p : Stage, p.Possible cap x ∧ p.Harmless cap L x ∧ y = p.left cap L.length x

section
variable {cap n : Nat} {L : List Byte} {nvm y : Option NvmFile} {s : Sys} {f : File}

theorem Describes.rest {x : NvmFile} (h : Describes cap x L) (hf : f.OnDisk L) : Rest True cap L f (some x) := by
  obtain ⟨hacc, hring⟩ := h
  have hh := Accepts.holds (f := .durable L) hacc
  change Holds cap x _ _ _ (L.take _ ++ _) at hh
  rw [hring, List.take_append_drop] at hh
  refine Or.inr ⟨x, _, _, _, rfl, hh, decodeLen_le hacc.start hacc.bufEnd, ?_, fun _ => ?_, by rw [hf.data],
    fun _ => hf.data⟩
  · rw [hf.data]
    exact hacc.fsyncLen
  · rw [hf.synced]
    exact hacc.fsyncLen

theorem Settled.rest (hb : Blocks cap) (h48 : L.length < 2 ^ 48) (h : Settled cap L nvm y) (hf : f.OnDisk L) :
    Rest True cap L f y := by
  obtain ⟨p, hp, hharm, rfl⟩ := h
  cases p with
  | untouched =>
    cases nvm with
    | none => exact Or.inl ⟨rfl, hf.data, fun _ => hf⟩
    | some x => exact (hharm x rfl).rest hf
  | created => exact hharm.elim
  | sized => exact ((describes_sized hb).mpr hharm).rest hf
  | lengthSet =>
    refine ((describes_lengthSet hb hp h48).mpr ?_).rest hf
    cases nvm with
    | none => rfl
    | some x => exact hharm x rfl

theorem Reads.rest (h : Reads True True cap n L s) (hn : n < cap) : Rest True cap L s.file s.nvm := by
  obtain ⟨x, fl, st, ln, hx, hh, hl, hf⟩ := h
  have hsynced := (hf trivial).1 trivial
  exact Or.inr ⟨x, fl, st, ln, hx, hh, hl.trans_lt hn, hsynced.trans s.file.synced_le, fun _ => hsynced, (hf trivial).2,
    fun hd => absurd trivial hd⟩

/-- The `aofguard_init` of a closed log only has to be settled if there was no NVM file. -/
theorem Starting.rest (hb : Blocks cap) (h48 : L.length < 2 ^ 48) (h : Starting True cap L nvm s)
    (hin : nvm = none → Settled cap L none s.nvm) : Rest True cap L s.file s.nvm := by
  rcases h with ⟨hnone, f, -, hdur, hfile, -⟩ | ⟨m, hm, hreads⟩
  · rw [hfile]
    exact (hin hnone).rest hb h48 (hdur trivial)
  · exact hreads.rest hm

end

section
variable {cfg : Config} {P : String → Prop} {T T' : Tables} {C C' : Nat → List Byte} {w w' t w₀ : World}
  {old new path : String} {i : Nat}

/-! ## The two directories -/

/-- A power failure finds the names of the files or those of the NVM files as they were or both changed, or only one of
the two directories is to change at all. -/
def InStep (single : Prop) (w t : World) : Prop :=
  t.tables.dir = w.tables.dir ∨ t.tables.nvmDir ≠ w.tables.nvmDir ∨ single

/-- There is no NVM file for `q`. -/
def NoNvm (cfg : Config) (w : World) (q : String) : Prop :=
  cfg.needNvm q = true → w.nvms (w.tables.nvmDir (cfg.nvmFileName q)) = none

/-- `rename` only moves the file: there is no NVM file for either name, or the file comes into the pattern, and the NVM
file of `new` is as harmless as a guard that is being set up. -/
structure FileOnly (cfg : Config) (C : Nat → List Byte) (old new : String) (w t : World) : Prop where
  log : cfg.needNvm old = true → NoNvm cfg w old ∧ NoNvm cfg w new
  comes : cfg.needNvm old = false → cfg.needNvm new = true → ∀ i, w.tables.dir old = some i →
    Settled (capOf cfg.nvmSize) (C i) (w.nvms (w.tables.nvmDir (cfg.nvmFileName new)))
      (t.nvms (w.tables.nvmDir (cfg.nvmFileName new)))

/-- The files without a matching name have lost nothing. -/
def PlainFlushed (cfg : Config) (w t : World) : Prop :=
  ∀ q j, cfg.needNvm q = false → t.tables.dir q = some j → (w.files j).Flushed (t.files j)

theorem WrittenBack.plainFlushed (h : WrittenBack w t) : PlainFlushed cfg w t := fun _ j _ _ => h.files j

/-- A rename that is over has kept the files without a matching name. -/
theorem Renamed.plainFlushed (h : Renamed cfg P True C old new w w') : PlainFlushed cfg w w' := by
  intro q j hq hj
  refine h.spares j ?_
  rintro ⟨hnew, hold⟩
  have hto : w'.tables.dir new = some j := by rw [h.dir, Tables.moveFile_to hold]
  exact needNvm_ne hnew hq (h.sound.linked.dir_inj new q j hto hj)

/-- With fewer guards, the content is in the files. -/
theorem Keeps.fewer {dur : Prop} (hk : Keeps cfg P dur none T C w) (hdir : T'.dir = T.dir) (hfds : T'.fds = T.fds)
    (hnvmDir : T'.nvmDir = T.nvmDir) (hinos : T'.nvmInos = T.nvmInos)
    (hguard : ∀ k, (T'.fdTable k).aofguard = (T.fdTable k).aofguard ∨ (T'.fdTable k).aofguard = none) :
    Keeps cfg P dur none T' C w := by
  have hguards : ∀ k n j, T'.Guards k n j → T.Guards k n j := by
    rintro k n j ⟨hg, hj⟩
    refine ⟨?_, hfds ▸ hj⟩
    rcases hguard k with hsame | hnone
    · exact hsame ▸ hg
    · rw [hnone] at hg
      cases hg
  constructor
  · intro k n j hg hx
    rw [hg.port, ← (hguards k n j hg).port]
    exact hk.guard k n j (hguards k n j hg) hx
  · rw [hdir, hfds, hnvmDir]
    exact hk.rest
  · intro k j hj hg hx
    rw [hfds] at hj
    cases hgT : (T.fdTable k).aofguard with
    | none => exact hk.bare k j hj hgT hx
    | some n =>
      have hgj : T.Guards k n j := ⟨hgT, hj⟩
      have hguard' := hk.guard k n j hgj hx
      rw [hgj.port] at hguard'
      exact hguard'.data
  · rw [hdir]
    exact hk.plain
  · rw [hdir, hnvmDir]
    exact hk.vacant
  · rw [hinos]
    exact hk.fresh
  · rintro j (⟨q, hq, hj⟩ | ⟨k, n, hg⟩)
    · exact hk.small j (Or.inl ⟨q, hq, hdir ▸ hj⟩)
    · exact hk.small j (Or.inr ⟨k, n, hguards k n j hg⟩)

/-- The tables with other entries name the same files. -/
theorem SameNames.renamed (T : Tables) (old new : String) : SameNames (T.renamed old new) T := ⟨rfl, rfl, rfl, rfl⟩

theorem WrittenBack.guards (h : WrittenBack w t) (hroom : RoomLeft cfg w)
    (htable : ∀ k n, (T.fdTable k).aofguard = some n → (w.tables.fdTable k).aofguard = some n) (k : Nat) (n : NvmIno)
    (j : Nat) (hg : T.Guards k n j) : (t.guards (some k)).len ≠ capOf cfg.nvmSize := by
  rw [h.len]
  exact hroom.guards htable k n j hg

section
variable (hnames : NoCollision cfg P) (h : Sound cfg P True C w) (hroom : RoomLeft cfg w)
include hnames h hroom

omit hnames in
/-- The kernel's rename is there, and the file that has come into the pattern is stored with the NVM file of `new`. -/
theorem stored_coming (hold : cfg.needNvm old = false) (hnew : Logs cfg P new) (hdir : w.tables.dir old = some i)
    (hT : SameNames (w.tables.moveFile old new) t.tables) (hk : Keeps cfg P True (some i) (w.tables.moveFile old new) C t)
    (hlen : ∀ k n j, w.tables.Guards k n j → (t.guards (some k)).len = (w.guards (some k)).len)
    (hrest : Rest True (capOf cfg.nvmSize) (C i) (t.files i) (t.nvms (w.tables.nvmDir (cfg.nvmFileName new)))) :
    Stored cfg P C t := by
  have hl := h.linked
  have hne : old ≠ new := (needNvm_ne hnew.2 hold).symm
  have hmoved := FileMoved.moveFile hdir hne
  obtain ⟨htable, -, hfds, hnvmDir⟩ := w.tables.moveFile_rest old new
  have hinos := w.tables.moveFile_nvmInos old new
  have hback : ∀ q j, (w.tables.moveFile old new).dir q = some j → q = new ∧ j = i ∨ q ≠ new ∧ w.tables.dir q = some j := by
    intro q j hj
    rw [hmoved.dir] at hj
    simp only [Function.update_apply] at hj
    split_ifs at hj with hqo hqn
    · exact Or.inl ⟨hqn, (Option.some.inj hj).symm⟩
    · exact Or.inr ⟨hqn, hj⟩
  have hother : ∀ q, (w.tables.moveFile old new).dir q = some i → q = new := by
    intro q hq
    rcases hback q i hq with hboth | ⟨-, hqi⟩
    · exact hboth.1
    · obtain rfl := hl.dir_inj q old i hqi hdir
      rw [hmoved.dir, Function.update_self] at hq
      cases hq
  refine hk.stored_rest ⟨hT, fun q j hj => ?_, fun q q' j hj hj' => ?_, ?_, ?_⟩ (fun _ _ => rfl) ?_ fun q j hq hj => ?_
  · rw [hmoved.inos]
    rcases hback q j hj with ⟨-, rfl⟩ | ⟨-, hqj⟩
    · exact hl.dir_lt old j hdir
    · exact hl.dir_lt q j hqj
  · rcases hback q j hj with ⟨rfl, rfl⟩ | ⟨-, hqj⟩
    · exact (hother q' hj').symm
    · rcases hback q' j hj' with ⟨rfl, rfl⟩ | ⟨-, hqj'⟩
      · exact hother q hj
      · exact hl.dir_inj q q' j hqj hqj'
  · rw [hnvmDir, hinos]
    exact hl.nvm_le
  · rw [hnvmDir]
    exact hl.nvm_inj
  · rintro j ⟨⟩
    exact hk.small i (Or.inl ⟨new, hnew, hmoved.dir_to hne⟩)
  · rw [hnvmDir]
    rcases hback q j hj with ⟨rfl, rfl⟩ | ⟨hqn, hqj⟩
    · exact hrest
    · have hji : some j ≠ some i := by
        rintro ⟨⟩
        exact hqn (hother q hj)
      by_cases hopen : ∃ k, w.tables.fds k = some j
      · obtain ⟨k, hkj⟩ := hopen
        obtain ⟨n, hg⟩ := hl.guarded hq.2 hqj hkj
        have hg' : (w.tables.moveFile old new).Guards k n j := by
          rw [Tables.Guards, htable, hfds]
          exact hg
        have hguard := hk.guard k n j hg' hji
        rw [hg'.port] at hguard
        rw [(hl.link k n j q hg hq).mp hqj]
        refine hguard.rest ?_
        change (t.guards (some k)).len ≠ _
        rw [hlen k n j hg]
        exact hroom.guards (fun _ _ hg => hg) k n j hg
      · have hrestq := hk.rest q j hq hj (fun k hkj => hopen ⟨k, hfds ▸ hkj⟩) hji
        rwa [hnvmDir] at hrestq

/-- Only the kernel's rename is there, and there is nothing else to do. -/
theorem stored_fileOnly (hn : SizeOk cfg.nvmSize) (hok : RenameOk cfg P True old new w) (hdir : w.tables.dir old = some i)
    (hne : old ≠ new) (htables : t.tables = w.tables.moveFile old new) (hk : Keeps cfg P True none w.tables C t)
    (hback : WrittenBack w t) (honly : FileOnly cfg C old new w t) : Stored cfg P C t := by
  have hl := h.linked
  have hmoved := FileMoved.moveFile hdir hne
  obtain ⟨htable, -, hfds, hnvmDir⟩ := w.tables.moveFile_rest old new
  have hinos := w.tables.moveFile_nvmInos old new
  have hnone : ∀ q, NoNvm cfg w q → cfg.needNvm q = true → t.nvms (w.tables.nvmDir (cfg.nvmFileName q)) = none := by
    intro q hq hneed
    rw [hback.nvms]
    exact hq hneed
  have hend : Linked cfg P ((w.tables.moveFile old new).renamed old new) ∧
      Keeps cfg P True none ((w.tables.moveFile old new).renamed old new) C t → Stored cfg P C t := by
    intro h'
    refine h'.2.stored h'.1 ?_ (hback.guards hroom fun k n hg => ?_)
    · rw [htables]
      exact ⟨rfl, rfl, rfl, rfl⟩
    · rwa [Tables.renamed_guard, htable] at hg
  cases hold : cfg.needNvm old with
  | true =>
    obtain ⟨hnoOld, hnoNew⟩ := honly.log hold
    cases hnew : cfg.needNvm new with
    | true =>
      refine hend (renamed_log_to_log hl hk hnames ⟨hok.used.1, hold⟩ ⟨hok.used.2, hnew⟩ hne hdir hmoved htable ?_)
      exact (nvmMoved_none hl (hnone old hnoOld hold) (hnone new hnoNew hnew)).congr hnvmDir hinos
    | false =>
      have hbare : ∀ k, (w.tables.fdTable k).name ≠ some old := by
        intro k hname
        have hsome := (hok.goes hold hnew i hdir).nvm ⟨k, hname⟩
        rw [hnoOld hold] at hsome
        cases hsome
      have hsame := Tables.disarmed_none hbare []
      refine hend (renamed_out hl (by rwa [hsame]) hnames ⟨hok.used.1, hold⟩ hok.used.2 hnew hdir hmoved
        (by rw [hsame, htable]) ((nvmDropped_none hl (hnone old hnoOld hold)).congr hnvmDir hinos) ?_)
      have hclosed : ∀ k, w.tables.fds k ≠ some i := fun k hki => hbare k (hl.named k old i hki hdir)
      have hrest := hk.rest old i ⟨hok.used.1, hold⟩ hdir hclosed (by simp)
      rw [hnone old hnoOld hold] at hrest
      rcases hrest with ⟨-, hdata, -⟩ | ⟨x, -, -, -, hx, -⟩
      · exact hdata
      · cases hx
  | false =>
    cases hnew : cfg.needNvm new with
    | true =>
      have hcomes := hok.comes hold hnew i hdir
      have hdata : (w.files i).data = C i := h.keeps.plain old i hold hdir (by simp)
      have hsmall : (C i).length < 2 ^ 48 := hdata ▸ hcomes.small
      have hfile : (t.files i).OnDisk (C i) := by
        rw [← hdata]
        exact (hback.files i).onDisk (hcomes.synced trivial)
      refine stored_coming h hroom hold ⟨hok.used.2, hnew⟩ hdir ?_ ?_ (fun k n j _ => hback.len _) ?_
      · rw [htables]
        exact ⟨rfl, rfl, rfl, rfl⟩
      · exact hk.moved_except hold hmoved.dir hfds htable hnvmDir hinos hsmall
      · exact (honly.comes hold hnew i hdir).rest hn.blocks hsmall hfile
    | false =>
      refine hend (renamed_plain hl hk hold hok.used.2 hdir hmoved htable hnvmDir hinos fun htrue => ?_)
      rw [hnew] at htrue
      cases htrue

/-- The NVM file of the log is gone, and some of its descriptors have no guard any more. -/
theorem stored_detaching {fds : List Nat} (hn : SizeOk cfg.nvmSize) (hok : RenameOk cfg P True old new w)
    (hdir : w.tables.dir old = some i) (hold : cfg.needNvm old = true) (hnew : cfg.needNvm new = false)
    (htables : t.tables = ((w.tables.moveFile old new).dropNvm (cfg.nvmFileName old)).disarmed old fds)
    (hk : Keeps cfg P True none (w.tables.disarmed old fds) C t) (hback : WrittenBack w t) : Stored cfg P C t := by
  have hl := h.linked
  have hne : old ≠ new := needNvm_ne hold hnew
  have hmoved := FileMoved.moveFile hdir hne
  obtain ⟨htable, -, hfds, hnvmDir⟩ := w.tables.moveFile_rest old new
  have hinos := w.tables.moveFile_nvmInos old new
  have hall : Keeps cfg P True none (w.tables.disarmed old []) C t := by
    refine hk.fewer rfl rfl rfl rfl fun k => ?_
    by_cases hname : (w.tables.fdTable k).name = some old
    · exact Or.inr (by simp [Tables.disarmed, hname])
    · exact Or.inl (by simp [Tables.disarmed, hname])
  have hdata : (t.files i).data = C i := by
    rw [(hback.files i).data, (hok.goes hold hnew i hdir).whole trivial]
    exact heldBy_sound hn h hok.used.1 hdir fun k n hg => hroom k (by rw [hg.1]; rfl)
  have hdropped : NvmDropped t.nvms w.tables ((w.tables.moveFile old new).dropNvm (cfg.nvmFileName old))
      (cfg.nvmFileName old) := by
    obtain ⟨h₆, h₇⟩ := Tables.dropNvm_congr (q := cfg.nvmFileName old) hnvmDir hinos
    rw [hback.nvms]
    exact (nvmDropped_drop hl h.keeps).congr h₆ h₇
  have hmoved' : FileMoved w.tables (((w.tables.moveFile old new).dropNvm (cfg.nvmFileName old)).disarmed old []) old new i :=
    hmoved.congr rfl rfl rfl rfl
  have hmid := renamed_out hl hall hnames ⟨hok.used.1, hold⟩ hok.used.2 hnew hdir hmoved'
    (by simp only [Tables.disarmed, Tables.dropNvm, htable]) (hdropped.congr rfl rfl) hdata
  refine hmid.2.stored hmid.1 ?_ (hback.guards hroom fun k n hg => ?_)
  · rw [htables]
    exact ⟨rfl, rfl, rfl, rfl⟩
  · rw [Tables.renamed_guard] at hg
    have hg' := Tables.disarmed_guard hg
    change ((w.tables.moveFile old new).fdTable k).aofguard = some n at hg'
    rwa [htable] at hg'

omit hnames h hroom in
/-- A file renamed to itself stays. -/
theorem moveFile_dir (hdir : w.tables.dir old = some i) (hne : old ≠ new) :
    (w.tables.moveFile old new).dir ≠ w.tables.dir := by
  intro hd
  rw [(FileMoved.moveFile hdir hne).dir] at hd
  have hgone := congrFun hd old
  rw [Function.update_self, hdir] at hgone
  cases hgone

/-- A power failure inside `rename` that finds the directories in step finds all logs, and the file under one name. -/
theorem Cut.stored (hn : SizeOk cfg.nvmSize) (hok : RenameOk cfg P True old new w) (hdir : w.tables.dir old = some i)
    (hcut : Cut cfg P True C old new w t) (hin : InStep (FileOnly cfg C old new w t) w t) :
    Stored cfg P C t ∧ PlainFlushed cfg w t ∧
      (t.tables.dir = w.tables.dir ∨ t.tables.dir = (w.tables.moveFile old new).dir) := by
  have hl := h.linked
  have hsame : t.tables = w.tables → Keeps cfg P True none w.tables C t → WrittenBack w t → Stored cfg P C t := by
    intro htables hk hback
    refine hk.stored h.linked ?_ (hback.guards hroom fun _ _ hg => hg)
    rw [htables]
    exact ⟨rfl, rfl, rfl, rfl⟩
  have honly : old ≠ new → t.tables.dir = (w.tables.moveFile old new).dir →
      t.tables.nvmDir = (w.tables.moveFile old new).nvmDir → FileOnly cfg C old new w t := by
    intro hne hd hnvm
    rcases hin with hsameDir | hchanged | honly
    · rw [hd] at hsameDir
      exact absurd hsameDir (moveFile_dir hdir hne)
    · rw [hnvm] at hchanged
      exact absurd (w.tables.moveFile_rest old new).2.2.2 hchanged
    · exact honly
  cases hcut with
  | before htables hk hback => exact ⟨hsame htables hk hback, hback.plainFlushed, Or.inl (by rw [htables])⟩
  | between htables hk hback =>
    refine ⟨?_, hback.plainFlushed, Or.inr (by rw [htables])⟩
    by_cases hne : old = new
    · have hstay : w.tables.moveFile old new = w.tables := by rw [Tables.moveFile, if_pos (Or.inl hne)]
      exact hsame (htables.trans hstay) hk hback
    · exact stored_fileOnly hnames h hroom hn hok hdir hne htables hk hback (honly hne (by rw [htables]) (by rw [htables]))
  | detaching hold hnew htables hk hback =>
    exact ⟨stored_detaching hnames h hroom hn hok hdir hold hnew htables hk hback, hback.plainFlushed,
      Or.inr (by rw [htables]; rfl)⟩
  | @attaching j k n f hold hnew hsole hdir' hnvm htables hk hbeside hflush hstage =>
    obtain rfl : j = i := by
      rw [hdir] at hdir'
      exact (Option.some.inj hdir').symm
    subst hnvm
    have hne : old ≠ new := (needNvm_ne hnew hold).symm
    have hmoved := FileMoved.moveFile hdir hne
    have hd : t.tables.dir = (w.tables.moveFile old new).dir := by
      rw [htables]
      rfl
    have hcomes := hok.comes hold hnew j hdir
    have hdata : (w.files j).data = C j := h.keeps.plain old j hold hdir (by simp)
    have hsmall : (C j).length < 2 ^ 48 := hdata ▸ hcomes.small
    have hfile : (t.files j).OnDisk (C j) := by
      have hf : t.files j = f := hstage.1
      rw [hf, ← hdata]
      exact hflush.onDisk (hcomes.synced trivial)
    refine ⟨stored_coming h hroom hold ⟨hok.used.2, hnew⟩ hdir ?_ hk (fun k' n' j' hg => ?_) ?_, fun q j' hq hj' => ?_,
      Or.inr hd⟩
    · rw [htables]
      exact ⟨rfl, rfl, rfl, rfl⟩
    · -- the guard that is being set up is of a descriptor without one
      refine hbeside.len (some k') ?_
      rintro ⟨⟩
      exact hl.unguarded_plain hold hdir hg (by simpa [hsole.opened] using hg.2.symm)
    · have hsettled := (honly hne hd (by rw [htables]; rfl)).comes hold hnew j hdir
      exact hsettled.rest hn.blocks hsmall hfile
    · refine hbeside.files j' ?_
      rintro rfl
      rw [hd, hmoved.dir] at hj'
      simp only [Function.update_apply] at hj'
      split_ifs at hj' with hqo hqn
      · rw [hqn, hnew] at hq
        cases hq
      · exact hqo (hl.dir_inj q old _ hj' hdir)

end

/-- `rename` of a file that is not there changes nothing. -/
theorem rename_missing (new : String) (h : Sound cfg P True C w) (hdir : w.tables.dir old = none) :
    wwp (fun t => t.tables = w.tables ∧ Sound cfg P True C t ∧ WrittenBack w t) (rename cfg old new)
      (fun r t => r = -1 ∧ t.tables = w.tables) w := by
  unfold rename
  simp only [wwp, Cmd.wp_bind]
  refine wwp_syscallRename fun w₁ ht => ⟨⟨ht.tables, h.env ht, .ticks ht⟩, ?_⟩
  have hstay : w.tables.moveFile old new = w.tables := by rw [Tables.moveFile, if_pos (Or.inr hdir)]
  rw [ht.tables, hdir, hstay]
  simp

/-- What a power failure inside `rename` that finds the directories in step leaves. -/
theorem rename_crash (hn : SizeOk cfg.nvmSize) (hnames : NoCollision cfg P) (h : Sound cfg P True C w)
    (hroom : RoomLeft cfg w) (hok : RenameOk cfg P True old new w)
    (hc : Cmd.Crash WTicks (fun _ k => k = 0) (rename cfg old new) w t) (hin : InStep (FileOnly cfg C old new w t) w t) :
    Stored cfg P C t ∧ PlainFlushed cfg w t ∧
      (t.tables.dir = w.tables.dir ∨ t.tables.dir = (w.tables.moveFile old new).dir) := by
  cases hdir : w.tables.dir old with
  | none =>
    have hmissing := rename_missing new h hdir
    obtain ⟨htables, ht, hback⟩ := Cmd.wp_crash hmissing hc
    exact ⟨ht.stored (hback.roomLeft (fun k hk => htables ▸ hk) hroom), hback.plainFlushed, Or.inl (by rw [htables])⟩
  | some i => exact (Cmd.wp_crash (rename_sound hn hnames h hok) hc).stored hnames h hroom hn hok hdir hin

theorem unlink_entries : wwp (fun _ => True) (unlink cfg path) (fun _ w' => w'.tables.fdTable = w.tables.fdTable) w := by
  unfold unlink
  simp only [wwp, Cmd.wp_bind]
  refine wwp_syscallUnlink fun w₁ ht => ⟨trivial, ?_⟩
  simp only [Cmd.wp_ite, Cmd.wp_pure, Cmd.wp_bind, wwp_nvmExists]
  refine ⟨fun _ => ⟨fun _ => ⟨fun _ => ?_, fun _ => ?_⟩, fun _ => ?_⟩, fun _ => ?_⟩
  · refine wwp_unlinkatNvm fun w₂ ht₂ => ⟨trivial, ?_⟩
    rw [ht₂.tables, ht.tables]
    rfl
  · rw [ht.tables]
  · rw [ht.tables]
  · rw [ht.tables]

theorem Unlinking.plainFlushed (h : Unlinking cfg P True C path w t) : PlainFlushed cfg w t := by
  cases h with
  | before _ _ hback => exact hback.plainFlushed
  | between _ _ hback => exact hback.plainFlushed

/-- What a power failure inside `unlink` that finds the directories in step leaves. -/
theorem Unlinking.stored (hnames : NoCollision cfg P) (h : Sound cfg P True C w) (hroom : RoomLeft cfg w)
    (hpath : P path) (hcut : Unlinking cfg P True C path w t) (hin : InStep (NoNvm cfg w path) w t) :
    Stored cfg P C t ∧ (t.tables.dir = w.tables.dir ∨ t.tables.dir = Function.update w.tables.dir path none) := by
  have hl := h.linked
  cases hcut with
  | before htables hk hback =>
    refine ⟨hk.stored hl ?_ (hback.guards hroom fun _ _ hg => hg), Or.inl (by rw [htables])⟩
    rw [htables]
    exact ⟨rfl, rfl, rfl, rfl⟩
  | between htables hk hback =>
    refine ⟨?_, Or.inr (by rw [htables]; rfl)⟩
    have hnone : cfg.needNvm path = true → t.nvms (w.tables.nvmDir (cfg.nvmFileName path)) = none := by
      intro hneed
      rcases hin with hd | hd | hsingle
      · have hpathNone : w.tables.dir path = none := by
          rw [← hd, htables]
          exact Function.update_self _ _ _
        rw [hback.nvms]
        exact h.keeps.vacant path ⟨hpath, hneed⟩ hpathNone
      · rw [htables] at hd
        exact absurd rfl hd
      · rw [hback.nvms]
        exact hsingle hneed
    have hgone : (w.tables.without path).dir = Function.update w.tables.dir path none := rfl
    have hdropped : cfg.needNvm path = true → NvmDropped t.nvms w.tables (w.tables.without path) (cfg.nvmFileName path) :=
      fun hneed => (nvmDropped_none hl (hnone hneed)).congr rfl rfl
    obtain ⟨hl', hk'⟩ := unlinked hl hk hnames hpath hgone rfl rfl rfl rfl hdropped fun _ => ⟨rfl, rfl⟩
    refine hk'.stored hl' ?_ (hback.guards hroom fun _ _ hg => hg)
    rw [htables]
    exact ⟨rfl, rfl, rfl, rfl⟩

/-! ## The other calls -/

theorem Midway.stored (h : Midway cfg P True C T w t) (hroom : RoomLeft cfg w) : Stored cfg P C t :=
  h.keeps.stored h.linked h.names (h.back.guards hroom h.guards)

/-- Only the content of the logs counts. -/
theorem Stored.congr (h : Stored cfg P C w) (hC : ∀ q i, Logs cfg P q → w.tables.dir q = some i → C' i = C i) :
    Stored cfg P C' w where
  dir_lt := h.dir_lt
  dir_inj := h.dir_inj
  nvm_le := h.nvm_le
  nvm_inj := h.nvm_inj
  kept := fun q i hq hi => by
    rw [hC q i hq hi]
    exact h.kept q i hq hi
  vacant := h.vacant
  fresh := h.fresh
  small := fun q i hq hi => by
    rw [hC q i hq hi]
    exact h.small q i hq hi

section
variable {fd : Nat} {file : String} {flags : Flags} {data : List Byte}

/-- An open leaves the content of the logs that are there. -/
theorem openedContent_log {q : String} (h : Linked cfg P T) (hok : OpenOk cfg P file file flags fd T) (hq : Logs cfg P q)
    (hi : T.dir q = some i) : openedContent C T file flags i = C i := by
  unfold openedContent
  cases hdir : T.dir file with
  | some j =>
    dsimp only
    split_ifs with htrunc
    · refine Function.update_of_ne ?_ _ _
      rintro rfl
      obtain rfl := h.dir_inj q file i hi hdir
      have := (hok.append hq.2).2.2
      rw [htrunc] at this
      cases this
    · rfl
  | none =>
    dsimp only
    split_ifs
    · exact Function.update_of_ne (h.dir_lt q i hi).ne _ _
    · rfl

/-- The guard of the log `file` that is being set up has come to a harmless point. -/
def OpenInStep (cfg : Config) (C : Nat → List Byte) (file : String) (flags : Flags) (w t : World) : Prop :=
  cfg.needNvm file = true → w.nvms (w.tables.nvmDir (cfg.nvmFileName file)) = none → ∀ i, t.tables.dir file = some i →
    Settled (capOf cfg.nvmSize) (openedContent C w.tables file flags i) none
      (t.nvms (w.tables.nvmDir (cfg.nvmFileName file)))

/-- What a power failure inside `open` leaves. -/
theorem Opening.stored (hn : SizeOk cfg.nvmSize) (h : Sound cfg P True C w) (hroom : RoomLeft cfg w)
    (hok : OpenOk cfg P file file flags fd w.tables) (hcut : Opening cfg P True C file flags fd w t)
    (hin : OpenInStep cfg C file flags w t) :
    Stored cfg P (openedContent C w.tables file flags) t ∧ PlainFlushed cfg w t := by
  have hl := h.linked
  cases hcut with
  | before hmid =>
    refine ⟨(hmid.stored hroom).congr fun q j hq hj => ?_, hmid.back.plainFlushed⟩
    rw [hmid.names.dir, hmid.dir] at hj
    exact openedContent_log hl hok hq hj
  | @starting T i hneed hlT hk hnames hdir hinos hi hnvmDir htable hspares hlen hstart =>
    have h48 := hk.small i (Or.inl ⟨file, ⟨hok.used, hneed⟩, hi⟩)
    have hrest := hstart.rest hn.blocks h48 fun hnone => hin hneed hnone i (by rw [hnames.dir, hi])
    refine ⟨?_, fun q j hq hj => hspares j ?_⟩
    · have hstored := hk.stored_except (L := openedContent C w.tables file flags i) hlT hnames h48 (fun k n j hg _ => ?_)
        fun q hq hqi => ?_
      · rwa [Function.update_eq_self] at hstored
      · rw [hlen]
        exact hroom.guards (fun k n hg => htable ▸ hg) k n j hg
      · obtain rfl := hlT.dir_inj q file i hqi hi
        rw [hnvmDir]
        exact hrest
    · rw [hnames.dir] at hj
      rintro (rfl | hle)
      · obtain rfl := hlT.dir_inj q file j hj hi
        rw [hneed] at hq
        cases hq
      · rw [hdir] at hj
        unfold openedDir at hj
        cases hfile : w.tables.dir file with
        | some j' =>
          simp only [hfile] at hj
          exact absurd (hl.dir_lt q j hj) (by omega)
        | none =>
          simp only [hfile] at hj
          split_ifs at hj
          · rw [Function.update_apply] at hj
            split_ifs at hj with hqf
            · rw [hqf, hneed] at hq
              cases hq
            · exact absurd (hl.dir_lt q j hj) (by omega)
          · exact absurd (hl.dir_lt q j hj) (by omega)

/-- The content after a power failure inside a call: a new log is empty, and a log that is being written has the record in
flight if the file and the ring say so. -/
def Call.torn (cfg : Config) (C : Nat → List Byte) (w t : World) : Call → Nat → List Byte
  | openAt _ file flags _ => openedContent C w.tables file flags
  | write fd data => fun i =>
    if w.tables.fds fd = some i then
      (w.tables.entry fd).aofguard.elim (C i) fun n =>
        if held (capOf cfg.nvmSize) (t.files i) (t.nvms n) = C i ++ data then C i ++ data else C i
    else C i
  | _ => C

/-- What a power failure inside `write` leaves. -/
theorem Writing.stored (hn : SizeOk cfg.nvmSize) (h : Sound cfg P True C w) (hroom : RoomLeft cfg w)
    (hroom' : RoomLeft cfg t) (hok : WriteOk fd data w) (hcut : Writing cfg P True C fd data w t) :
    Stored cfg P ((Call.write fd data).torn cfg C w t) t ∧ PlainFlushed cfg w t := by
  have hl := h.linked
  cases hcut with
  | before hmid =>
    refine ⟨(hmid.stored hroom).congr fun q i hq hi => ?_, hmid.back.plainFlushed⟩
    -- nothing has been written, and a record that says so is empty
    simp only [Call.torn, hl.entry]
    split_ifs with hfd
    · cases hg : (w.tables.fdTable fd).aofguard with
      | none => rfl
      | some n =>
        have hgi : w.tables.Guards fd n i := ⟨hg, hfd⟩
        rw [hmid.names.dir, hmid.dir] at hi
        have hrest := h.keeps.log_rest hl hq hi (by simp) fun k m => hroom.guards (fun _ _ hg => hg) k m i
        rw [(hl.link fd n i q hgi hq).mp hi] at hrest
        have hheld := (hrest.flushed (hmid.back.files i)).held hn.blocks (h.keeps.small i (Or.inr ⟨fd, n, hgi⟩))
        simp only [Option.elim_some, hmid.back.nvms, hheld]
        split_ifs with hsame
        · exact hsame.symm
        · rfl
    · rfl
  | @inside i n hg htables hk hbeside hsafe =>
    have hguard := h.keeps.guard fd n i hg (by simp)
    rw [hg.port] at hguard
    have hdata : (w.files i).data = C i := hguard.data
    have h48 : (C i ++ data).length < 2 ^ 48 := by
      rw [List.length_append, ← hdata]
      exact hok n i hg
    have hsmall : (C i).length < 2 ^ 48 := by
      rw [List.length_append] at h48
      omega
    have hlen : (w.guards (some fd)).len < capOf cfg.nvmSize :=
      lt_of_le_of_ne hguard.len_le (hroom.guards (fun _ _ hg => hg) fd n i hg)
    have htorn : ∀ L, Rest True (capOf cfg.nvmSize) L (t.files i) (t.nvms n) → L.length < 2 ^ 48 →
        L = C i ∨ L = C i ++ data → (Call.write fd data).torn cfg C w t = Function.update C i L := by
      intro L hrest hL hor
      have hheld := hrest.held hn.blocks hL
      funext j
      by_cases hj : j = i
      · subst hj
        simp only [Call.torn, hg.2, if_true, hl.entry, hg.1, Option.elim_some, hheld, Function.update_self]
        rcases hor with rfl | rfl
        · split_ifs with hsame
          · exact hsame.symm
          · rfl
        · exact if_pos rfl
      · have hfd : w.tables.fds fd ≠ some j := by
          rw [hg.2]
          simpa using Ne.symm hj
        simp only [Call.torn, if_neg hfd, Function.update_of_ne hj]
    have hstored : ∀ L, Rest True (capOf cfg.nvmSize) L (t.files i) (t.nvms n) → L.length < 2 ^ 48 →
        L = C i ∨ L = C i ++ data → Stored cfg P ((Call.write fd data).torn cfg C w t) t := by
      intro L hrest hL hor
      rw [htorn L hrest hL hor]
      refine hk.stored_except hl ?_ hL (fun k m j hgk hj => ?_) fun q hq hqi => ?_
      · rw [htables]
        exact ⟨rfl, rfl, rfl, rfl⟩
      · refine hroom'.guards (fun k m hgk => ?_) k m j hgk
        rwa [htables]
      · rwa [(hl.link fd n i q hg hq).mp hqi]
    refine ⟨?_, fun q j hq hj => hbeside.files j ?_⟩
    · rcases hsafe with hold | ⟨hle, hnew⟩
      · exact hstored (C i) (hold.rest hlen) hsmall (Or.inl rfl)
      · have hgt : t.tables.Guards fd n i := by rwa [htables]
        have hlt : (t.guards (some fd)).len < capOf cfg.nvmSize :=
          lt_of_le_of_ne hle (hroom'.guards (fun _ _ hg => hg) fd n i hgt)
        exact hstored (C i ++ data) (hnew.rest hlt) h48 (Or.inr rfl)
    · rintro rfl
      rw [htables] at hj
      exact hl.not_plain hg hq hj

end

/-! ## Any call -/

/-- A power failure inside the call is at a point from which the logs can be read back. -/
def Call.InStep (cfg : Config) (C : Nat → List Byte) (w t : World) : Call → Prop
  | openAt _ file flags _ => OpenInStep cfg C file flags w t
  | unlink path => Wal.InStep (NoNvm cfg w path) w t
  | rename old new => Wal.InStep (FileOnly cfg C old new w t) w t
  | _ => True

/-- What a power failure inside a call leaves. -/
theorem Call.stored {c : Call} (hn : SizeOk cfg.nvmSize) (hnames : NoCollision cfg P) (h : Sound cfg P True C w)
    (hroom : RoomLeft cfg w) (hroom' : RoomLeft cfg t) (hok : c.Ok cfg P True w)
    (hc : Cmd.Crash WTicks (fun _ k => k = 0) (c.cmd cfg) w t) (hin : c.InStep cfg C w t) :
    Stored cfg P (c.torn cfg C w t) t ∧ PlainFlushed cfg w t := by
  cases c with
  | openAt place file flags fd =>
    have hopen : OpenOk cfg P place file flags fd w.tables := hok
    obtain rfl := hopen.place
    exact (Cmd.wp_crash (openAt_sound hn hnames h hopen) hc).stored hn h hroom hopen hin
  | write fd data => exact (Cmd.wp_crash (write_sound hn h hok) hc).stored hn h hroom hroom' hok
  | fsync fd =>
    have hmid := Cmd.wp_crash (syncCall_sound h) hc
    exact ⟨hmid.stored hroom, hmid.back.plainFlushed⟩
  | fdatasync fd =>
    have hmid := Cmd.wp_crash (syncCall_sound h) hc
    exact ⟨hmid.stored hroom, hmid.back.plainFlushed⟩
  | close fd =>
    obtain ⟨T, hmid⟩ := Cmd.wp_crash (close_sound h hok) hc
    exact ⟨hmid.stored hroom, hmid.back.plainFlushed⟩
  | unlink path =>
    have hcut := Cmd.wp_crash (unlink_sound hnames h hok) hc
    exact ⟨(hcut.stored hnames h hroom hok hin).1, hcut.plainFlushed⟩
  | rename old new =>
    obtain ⟨hstored, hplain, -⟩ := rename_crash hn hnames h hroom hok hc hin
    exact ⟨hstored, hplain⟩

end

end PmemProgram.Wal
