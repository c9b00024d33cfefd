import PmemProgram.Wal.Moves

/-!
# `unlink` and `rename`

`unlink_sound`, `rename_sound` : the two calls, under their conditions, move the names and keep the content; `Cut` says
what a power failure inside `rename` can find, and `Unlinking` the same for `unlink`.
-/

namespace PmemProgram.Wal
open PmemProgram.Lib PmemProgram.Lib.Ring

section
variable {cfg : Config} {P : String → Prop} {dur : Prop} {T T' : Tables} {C : Nat → List Byte} {w w' : World}
  {I : World → Prop} {old new : String} {i : Nat}

/-! ## `rename` -/

/-- A file that is no log becomes one: it is all on the disk, and it has no descriptor and finds no NVM file of an earlier
file, or it has one descriptor, which gets the guard. -/
structure Comes (cfg : Config) (dur : Prop) (old new : String) (w : World) (i : Nat) : Prop where
  synced : dur → (w.files i).OnDisk (w.files i).data
  small : (w.files i).data.length < 2 ^ 48
  descriptor : (∀ k, (w.tables.fdTable k).name ≠ some old) ∧
      w.nvms (w.tables.nvmDir (cfg.nvmFileName new)) = none ∨
    ∃ k, Sole cfg old new w i k

/-- A log becomes a file that is no log: its descriptors have an NVM file to lose, and it is all in the file. -/
structure Goes (cfg : Config) (dur : Prop) (old : String) (w : World) (i : Nat) : Prop where
  nvm : (∃ k, (w.tables.fdTable k).name = some old) → (w.nvms (w.tables.nvmDir (cfg.nvmFileName old))).isSome
  whole : dur → (w.files i).data = heldBy cfg w old i

structure RenameOk (cfg : Config) (P : String → Prop) (dur : Prop) (old new : String) (w : World) : Prop where
  used : P old ∧ P new
  comes : cfg.needNvm old = false → cfg.needNvm new = true → ∀ i, w.tables.dir old = some i → Comes cfg dur old new w i
  goes : cfg.needNvm old = true → cfg.needNvm new = false → ∀ i, w.tables.dir old = some i → Goes cfg dur old w i

/-- What a power failure inside `rename` finds. -/
inductive Cut (cfg : Config) (P : String → Prop) (dur : Prop) (C : Nat → List Byte) (old new : String) (w : World) :
    World → Prop
  | before {w' : World} : w'.tables = w.tables → Keeps cfg P dur none w.tables C w' → WrittenBack w w' →
      Cut cfg P dur C old new w w'
  | between {w' : World} : w'.tables = w.tables.moveFile old new → Keeps cfg P dur none w.tables C w' →
      WrittenBack w w' → Cut cfg P dur C old new w w'
  | detaching {w' : World} {fds : List Nat} : cfg.needNvm old = true → cfg.needNvm new = false →
      w'.tables = ((w.tables.moveFile old new).dropNvm (cfg.nvmFileName old)).disarmed old fds →
      Keeps cfg P dur none (w.tables.disarmed old fds) C w' → WrittenBack w w' → Cut cfg P dur C old new w w'
  | attaching {w' : World} {i k : Nat} {n : NvmIno} {f : File} : cfg.needNvm old = false → cfg.needNvm new = true →
      Sole cfg old new w i k → w.tables.dir old = some i → n = w.tables.nvmDir (cfg.nvmFileName new) →
      w'.tables = (w.tables.moveFile old new).armed k n →
      Keeps cfg P dur (some i) (w.tables.moveFile old new) C w' → Beside ⟨i, n, k, some k⟩ w w' → (w.files i).Flushed f →
      AtStage (capOf cfg.nvmSize) f (w.nvms n) (Port.view ⟨i, n, k, some k⟩ w') → Cut cfg P dur C old new w w'

theorem FileMoved.moveFile (hdir : T.dir old = some i) (hne : old ≠ new) :
    FileMoved T (T.moveFile old new) old new i := by
  have hmove : T.moveFile old new =
      { T with dir := Function.update (Function.update T.dir new (T.dir old)) old none } := by
    rw [Tables.moveFile, if_neg]
    simp [hne, hdir]
  rw [hmove, hdir]
  exact ⟨rfl, rfl, rfl, rfl⟩

theorem Tables.moveFile_to (hdir : T.dir old = some i) (new : String) : (T.moveFile old new).dir new = some i := by
  by_cases hne : old = new
  · rw [Tables.moveFile, if_pos (Or.inl hne), ← hne, hdir]
  · exact (FileMoved.moveFile hdir hne).dir_to hne

theorem FileMoved.congr {T'' : Tables} (h : FileMoved T T' old new i) (hdir : T''.dir = T'.dir) (hfds : T''.fds = T'.fds)
    (hinos : T''.inos = T'.inos) (hcap : T''.capacity = T'.capacity) : FileMoved T T'' old new i :=
  ⟨hdir.trans h.dir, hfds.trans h.fds, hinos.trans h.inos, hcap.trans h.capacity⟩

theorem Tables.moveFile_nvmInos (T : Tables) (old new : String) : (T.moveFile old new).nvmInos = T.nvmInos := by
  unfold Tables.moveFile
  split_ifs
  · rfl
  · rfl

/-- Moving an NVM name only concerns the NVM names. -/
theorem Tables.moveNvm_rest (T : Tables) (q r : String) : (T.moveNvm q r).dir = T.dir ∧ (T.moveNvm q r).fds = T.fds ∧
    (T.moveNvm q r).inos = T.inos ∧ (T.moveNvm q r).capacity = T.capacity ∧ (T.moveNvm q r).fdTable = T.fdTable := by
  unfold Tables.moveNvm
  split_ifs
  · exact ⟨rfl, rfl, rfl, rfl, rfl⟩
  · exact ⟨rfl, rfl, rfl, rfl, rfl⟩

/-- And it only depends on them. -/
theorem Tables.moveNvm_congr {q r : String} (hdir : T'.nvmDir = T.nvmDir) (hinos : T'.nvmInos = T.nvmInos) :
    (T'.moveNvm q r).nvmDir = (T.moveNvm q r).nvmDir ∧ (T'.moveNvm q r).nvmInos = (T.moveNvm q r).nvmInos := by
  unfold Tables.moveNvm Tables.dropNvm
  split_ifs
  · exact ⟨hdir, hinos⟩
  · simp [hdir, hinos]

theorem Tables.dropNvm_congr {q : String} (hdir : T'.nvmDir = T.nvmDir) (hinos : T'.nvmInos = T.nvmInos) :
    (T'.dropNvm q).nvmDir = (T.dropNvm q).nvmDir ∧ (T'.dropNvm q).nvmInos = (T.dropNvm q).nvmInos := by
  simp [Tables.dropNvm, hdir, hinos]

theorem Tables.renamed_self (T : Tables) (old : String) : T.renamed old old = T := by
  ext1 <;> try rfl
  funext k
  simp only [Tables.renamed]
  split_ifs with hk
  · rw [← hk.2]
  · rfl

/-- What `rename` leaves: the content is as before, and the file has moved. -/
structure Renamed (cfg : Config) (P : String → Prop) (dur : Prop) (C : Nat → List Byte) (old new : String) (w w' : World) :
    Prop where
  sound : Sound cfg P dur C w'
  dir : w'.tables.dir = (w.tables.moveFile old new).dir
  fds : w'.tables.fds = w.tables.fds
  inos : w'.tables.inos = w.tables.inos
  spares : Spares (fun j => cfg.needNvm new = true ∧ w.tables.dir old = some j) w w'
  room : RoomLeft cfg w → RoomLeft cfg w'

theorem Tables.renamed_guard (T : Tables) (old new : String) (k : Nat) :
    ((T.renamed old new).fdTable k).aofguard = (T.fdTable k).aofguard := by
  simp only [Tables.renamed]
  split_ifs
  · rfl
  · rfl

/-- The last loop of `rename`. -/
theorem renameEntries_sound (h : Linked cfg P (w'.tables.renamed old new) ∧
      Keeps cfg P dur none (w'.tables.renamed old new) C w')
    (hmoved : FileMoved w.tables w'.tables old new i) (hdir : w.tables.dir old = some i) (hne : old ≠ new)
    (hspares : Spares (fun j => cfg.needNvm new = true ∧ w.tables.dir old = some j) w w')
    (hroom : RoomLeft cfg w → RoomLeft cfg w') :
    wwp I (renameEntries old new) (fun r w'' => r = 0 ∧ Renamed cfg P dur C old new w w'') w' := by
  refine wwp_renameEntries ⟨rfl, ⟨h.1, h.2.setTables _⟩, ?_, hmoved.fds, hmoved.inos, hspares, fun hw k hk => ?_⟩
  · rw [(FileMoved.moveFile hdir hne).dir]
    exact hmoved.dir
  · rw [Tables.renamed_guard] at hk
    exact hroom hw k hk

section
variable (hnames : NoCollision cfg P) (h : Linked cfg P w.tables) (hdir : w.tables.dir old = some i) (hne : old ≠ new)
  (htables : w'.tables = w.tables.moveFile old new) (hk : Keeps cfg P dur none w.tables C w') (hback : WrittenBack w w')
include hnames h hdir hne htables hk hback

/-- The kernel has renamed the file of one log to the name of another. -/
theorem rename_log_to_log (hold : Logs cfg P old) (hnew : Logs cfg P new) :
    wwp (Cut cfg P dur C old new w) (moveNvm cfg old new) (fun ok w'' => ok = true ∧
      wwp (Cut cfg P dur C old new w) (renameEntries old new) (fun r w₃ => r = 0 ∧ Renamed cfg P dur C old new w w₃) w'')
      w' := by
  obtain ⟨htable, -, hfds, hnvmDir⟩ := w.tables.moveFile_rest old new
  have hinos := w.tables.moveFile_nvmInos old new
  have hmoved := FileMoved.moveFile hdir hne
  have hqr : cfg.nvmFileName old ≠ cfg.nvmFileName new := fun heq => hne (hnames old new hold.1 hnew.1 heq)
  have hdone : ∀ w'' T'', w''.tables = T'' → FileMoved w.tables T'' old new i → T''.fdTable = w.tables.fdTable →
      NvmMoved w''.nvms w.tables T'' (cfg.nvmFileName old) (cfg.nvmFileName new) → Keeps cfg P dur none w.tables C w'' →
      WrittenBack w w'' → wwp (Cut cfg P dur C old new w) (renameEntries old new)
        (fun r w₃ => r = 0 ∧ Renamed cfg P dur C old new w w₃) w'' := by
    rintro w'' T'' rfl hmoved'' htable'' hnvm hk'' hback''
    exact renameEntries_sound (renamed_log_to_log h hk'' hnames hold hnew hne hdir hmoved'' htable'' hnvm) hmoved'' hdir
      hne (fun j _ => hback''.files j) (hback''.roomLeft fun k hk => htable'' ▸ hk)
  -- the tables before the NVM step have the same guards
  have henv : ∀ w'', WTicks w' w'' → w''.tables = w.tables.moveFile old new ∧ Keeps cfg P dur none w.tables C w'' ∧
      WrittenBack w w'' := by
    intro w'' ht
    refine ⟨ht.tables.trans htables, hk.env (fun k n j hg _ => ?_) ht, hback.trans (.ticks ht)⟩
    rw [htables]
    exact ⟨htable ▸ hg.1, hfds ▸ hg.2⟩
  unfold moveNvm
  simp only [wwp, Cmd.wp_bind, wwp_nvmExists, Cmd.wp_ite, htables, hnvmDir, Cmd.wp_pure]
  refine ⟨fun _ => wwp_renameatNvm fun w'' ht => ?_, fun hnone => ⟨fun _ => wwp_unlinkatNvm fun w'' ht => ?_, fun hnone' => ?_⟩⟩
  · obtain ⟨htables'', hk'', hback''⟩ := henv w'' ht
    refine ⟨.between htables'' hk'' hback'', rfl, ?_⟩
    obtain ⟨h₁, h₂, h₃, h₄, h₅⟩ := (w.tables.moveFile old new).moveNvm_rest (cfg.nvmFileName old) (cfg.nvmFileName new)
    obtain ⟨h₆, h₇⟩ := Tables.moveNvm_congr (q := cfg.nvmFileName old) (r := cfg.nvmFileName new) hnvmDir hinos
    rw [htables'']
    exact hdone _ _ rfl (hmoved.congr h₁ h₂ h₃ h₄) (h₅.trans htable) ((nvmMoved_move h hk'' hqr).congr h₆ h₇)
      (hk''.setTables _) (hback''.setTables _)
  · obtain ⟨htables'', hk'', hback''⟩ := henv w'' ht
    refine ⟨.between htables'' hk'' hback'', rfl, ?_⟩
    obtain ⟨h₆, h₇⟩ := Tables.dropNvm_congr (q := cfg.nvmFileName new) hnvmDir hinos
    have hnone'' : w''.nvms (w.tables.nvmDir (cfg.nvmFileName old)) = none := by
      rw [ht.nvms]
      simpa using hnone
    rw [htables'']
    exact hdone _ _ rfl (hmoved.congr rfl rfl rfl rfl) htable ((nvmMoved_drop h hk'' hqr hnone'').congr h₆ h₇)
      (hk''.setTables _) (hback''.setTables _)
  · refine ⟨trivial, hdone w' _ htables hmoved htable ?_ hk hback⟩
    exact (nvmMoved_none h (by simpa using hnone) (by simpa using hnone')).congr hnvmDir hinos

/-- The kernel has renamed the file of a log to a name that is not in the pattern. -/
theorem rename_out (hn : SizeOk cfg.nvmSize) (hkw : Keeps cfg P dur none w.tables C w) (hold : Logs cfg P old)
    (hnew : P new) (hneed : cfg.needNvm new = false) (hgoes : Goes cfg dur old w i) :
    wwp (Cut cfg P dur C old new w) (removeNvm cfg old) (fun ok w'' => ok = true ∧
      wwp (Cut cfg P dur C old new w) (renameEntries old new) (fun r w₃ => r = 0 ∧ Renamed cfg P dur C old new w w₃) w'')
      w' := by
  obtain ⟨htable, hcap, hfds, hnvmDir⟩ := w.tables.moveFile_rest old new
  have hinos := w.tables.moveFile_nvmInos old new
  have hmoved := FileMoved.moveFile hdir hne
  have hdata : ∀ w'', Keeps cfg P dur none (w.tables.disarmed old []) C w'' → WrittenBack w w'' →
      (w''.files i).data = C i := by
    intro w'' hk'' hback''
    by_cases hopen : ∃ k, w.tables.fds k = some i
    · obtain ⟨k, hki⟩ := hopen
      refine hk''.bare k i hki ?_ (by simp)
      simp [Tables.disarmed, h.named k old i hki hdir]
    · rw [(hback''.files i).data]
      have hrest := hkw.rest old i hold hdir (fun k hki => hopen ⟨k, hki⟩) (by simp)
      by_cases hd : dur
      · rw [hgoes.whole hd, heldBy, if_pos hold.2]
        exact hrest.held hn.blocks (hkw.small i (Or.inl ⟨old, hold, hdir⟩))
      · rcases hrest with ⟨-, hL, -⟩ | ⟨x, fl, st, ln, -, -, -, -, -, -, hcalm⟩
        · exact hL
        · exact hcalm hd
  have hdone : ∀ w'' T'', w''.tables = T'' → FileMoved w.tables T'' old new i →
      T''.fdTable = (w.tables.disarmed old []).fdTable →
      NvmDropped w''.nvms w.tables T'' (cfg.nvmFileName old) → Keeps cfg P dur none (w.tables.disarmed old []) C w'' →
      WrittenBack w w'' → wwp (Cut cfg P dur C old new w) (renameEntries old new)
        (fun r w₃ => r = 0 ∧ Renamed cfg P dur C old new w w₃) w'' := by
    rintro w'' T'' rfl hmoved'' htable'' hnvm hk'' hback''
    refine renameEntries_sound (renamed_out h hk'' hnames hold hnew hneed hdir hmoved'' htable'' hnvm
      (hdata w'' hk'' hback'')) hmoved'' hdir hne (fun j _ => hback''.files j) (hback''.roomLeft fun k hk => ?_)
    rw [htable''] at hk
    obtain ⟨n, hn'⟩ := Option.isSome_iff_exists.mp hk
    rw [Tables.disarmed_guard hn']
    rfl
  unfold removeNvm
  simp only [wwp, Cmd.wp_bind, wwp_nvmExists, Cmd.wp_ite, htables, hnvmDir, Cmd.wp_pure]
  refine ⟨fun _ => wwp_unlinkatNvm fun w'' ht => ?_, fun hnone => ⟨trivial, ?_⟩⟩
  · have hk'' : Keeps cfg P dur none w.tables C w'' := by
      refine hk.env (fun k n j hg _ => ?_) ht
      rw [htables]
      exact ⟨htable ▸ hg.1, hfds ▸ hg.2⟩
    have htables'' := ht.tables.trans htables
    have hback'' := hback.trans (.ticks ht)
    refine ⟨.between htables'' hk'' hback'', fun _ => ?_, by simp⟩
    rw [htables'']
    have hloop := detachGuards_sound (w := { w'' with
        tables := (w.tables.moveFile old new).dropNvm (cfg.nvmFileName old) })
      (I := Cut cfg P dur C old new w) h (hk''.setTables _) hold.2 rfl htable hfds fun w₃ fds ht₃ hk₃ hb₃ =>
        .detaching hold.2 hneed ht₃ hk₃ (hback''.trans ⟨hb₃.nvms, hb₃.descs, hb₃.files, hb₃.len⟩)
    have hcap'' : ((w.tables.moveFile old new).dropNvm (cfg.nvmFileName old)).capacity = w.tables.capacity := hcap
    simp only [Cmd.wp_get, hcap'']
    refine Cmd.wp_conseq hloop ?_
    rintro ok w₃ ⟨rfl, ht₃, hk₃, hb₃⟩
    have hback₃ : WrittenBack w w₃ := hback''.trans ⟨hb₃.nvms, hb₃.descs, hb₃.files, hb₃.len⟩
    obtain ⟨h₆, h₇⟩ := Tables.dropNvm_congr (q := cfg.nvmFileName old) hnvmDir hinos
    have hnvm₃ : w₃.nvms = w''.nvms := hb₃.nvms
    refine ⟨rfl, hdone w₃ _ ht₃ (hmoved.congr rfl rfl rfl rfl) ?_ ?_ hk₃ hback₃⟩
    · simp only [Tables.disarmed, Tables.dropNvm, htable]
    · rw [hnvm₃]
      exact (nvmDropped_drop h hk'').congr h₆ h₇
  · have hnames' : ∀ k, (w.tables.fdTable k).name ≠ some old := by
      intro k hname
      have hsome := hgoes.nvm ⟨k, hname⟩
      rw [hback.nvms] at hnone
      exact hnone hsome
    have hsame := Tables.disarmed_none hnames' []
    refine hdone w' _ htables hmoved (by rw [hsame, htable]) ?_ (by rwa [hsame]) hback
    exact (nvmDropped_none h (by simpa using hnone)).congr hnvmDir hinos

omit hnames in
/-- The kernel has renamed a file that is no log, and whose descriptors stay without guards. -/
theorem rename_plain (hold : cfg.needNvm old = false) (hnew : P new)
    (hinto : cfg.needNvm new = true → (∀ k, (w.tables.fdTable k).name ≠ some old) ∧
      w.nvms (w.tables.nvmDir (cfg.nvmFileName new)) = none ∧ (dur → (w.files i).OnDisk (w.files i).data) ∧
      (w.files i).data.length < 2 ^ 48) :
    wwp (Cut cfg P dur C old new w) (renameEntries old new) (fun r w₃ => r = 0 ∧ Renamed cfg P dur C old new w w₃) w' := by
  obtain ⟨htable, -, -, hnvmDir⟩ := w.tables.moveFile_rest old new
  have hinos := w.tables.moveFile_nvmInos old new
  have hmoved : FileMoved w.tables w'.tables old new i := htables ▸ FileMoved.moveFile hdir hne
  rw [← htables] at htable hnvmDir hinos
  refine renameEntries_sound (renamed_plain h hk hold hnew hdir hmoved htable hnvmDir hinos fun hneed => ?_) hmoved hdir
    hne (fun j _ => hback.files j) (hback.roomLeft fun k hk => htable ▸ hk)
  obtain ⟨hno, hnone, hsync, hsmall⟩ := hinto hneed
  refine ⟨hno, by rw [hback.nvms, hnone], fun hd => ?_, by rwa [(hback.files i).data]⟩
  rw [(hback.files i).data]
  exact (hback.files i).onDisk (hsync hd)

/-- The kernel has renamed a file that is no log to the name of a log. -/
theorem rename_into (hn : SizeOk cfg.nvmSize) (hkw : Keeps cfg P dur none w.tables C w) (hold : cfg.needNvm old = false)
    (hnew : Logs cfg P new) (hcomes : Comes cfg dur old new w i) :
    wwp (Cut cfg P dur C old new w) (forEntries old (attachGuard cfg new) (List.range w.tables.capacity))
      (fun ok w'' => ok = true ∧ wwp (Cut cfg P dur C old new w) (renameEntries old new)
        (fun r w₃ => r = 0 ∧ Renamed cfg P dur C old new w w₃) w'') w' := by
  obtain ⟨htable, -, hfds, hnvmDir⟩ := w.tables.moveFile_rest old new
  have hinos := w.tables.moveFile_nvmInos old new
  have hmoved : FileMoved w.tables w'.tables old new i := htables ▸ FileMoved.moveFile hdir hne
  have hplain := rename_plain h hdir hne htables hk hback hold hnew.1
  rw [← htables] at htable hnvmDir hinos
  rcases hcomes.descriptor with ⟨hno, hnone⟩ | ⟨k, hsole⟩
  · refine Cmd.wp_conseq (wwp_forEntries (P := fun _ w'' => w'' = w') ?_ (fun _ _ _ heq _ => heq) rfl) ?_
    · rintro fd fds _ rfl hname
      rw [htable] at hname
      exact absurd hname (hno fd)
    · rintro ok _ ⟨rfl, rfl⟩
      exact ⟨rfl, hplain fun _ => ⟨hno, hnone, hcomes.synced, hcomes.small⟩⟩
  · have hkold := h.named k old i hsole.opened hdir
    have hlt : k < w.tables.capacity := by
      by_contra hge
      rw [h.beyond k (Nat.le_of_not_lt hge)] at hkold
      cases hkold
    -- an NVM file of `new` is that of a closed log, which the rename replaces
    have hfit : ∀ x, w'.nvms (w.tables.nvmDir (cfg.nvmFileName new)) = some x → x.size = 128 + capOf cfg.nvmSize := by
      intro x hx
      rw [hback.nvms] at hx
      cases hj : w.tables.dir new with
      | none =>
        rw [hkw.vacant new hnew hj] at hx
        cases hx
      | some j =>
        have hclosed : ∀ k', w.tables.fds k' ≠ some j := by
          intro k' hk'
          obtain ⟨n', hg⟩ := h.guarded hnew.2 hj hk'
          rw [← (h.link k' n' j new hg hnew).mp hj] at hg
          exact hsole.free k' hg.1
        have hrest := hkw.rest new j hnew hj hclosed (by simp)
        rw [hx] at hrest
        exact hrest.size
    have hattach := attachGuard_sound (w := w') hn h hnames hk hold hnew hdir hmoved htable hnvmDir hinos hsole.opened
      rfl hsole.free (by rw [hback.descs]; exact hsole.append) (by rw [hback.descs]; exact hsole.writable)
      (fun hd => by rw [(hback.files i).data]; exact (hback.files i).onDisk (hcomes.synced hd))
      (by rw [(hback.files i).data]; exact hcomes.small) hfit
    refine Cmd.wp_conseq (wwp_forEntries (P := fun fds w'' => fds.Nodup ∧ (k ∈ fds ∧ w'' = w' ∨ k ∉ fds ∧
      w''.tables = w'.tables.armed k (w.tables.nvmDir (cfg.nvmFileName new)) ∧
      Keeps cfg P dur (some i) w'.tables C w'' ∧
      Beside ⟨i, w.tables.nvmDir (cfg.nvmFileName new), k, some k⟩ w' w'' ∧ (w''.guards (some k)).len = 0 ∧
      Guard False True dur (capOf cfg.nvmSize) (C i)
        (Port.view ⟨i, w.tables.nvmDir (cfg.nvmFileName new), k, some k⟩ w''))) ?_ ?_
        ⟨List.nodup_range, Or.inl ⟨by simpa using hlt, rfl⟩⟩) ?_
    · rintro fd fds w'' ⟨hnodup, hcase⟩ hname
      obtain ⟨hfd, hnodup⟩ := List.nodup_cons.mp hnodup
      have hfdk : fd = k := by
        apply hsole.only
        rcases hcase with ⟨-, rfl⟩ | ⟨-, htables'', -⟩
        · rwa [htable] at hname
        · rwa [htables'', Tables.armed_name, htable] at hname
      subst hfdk
      rcases hcase with ⟨-, rfl⟩ | ⟨hno, -⟩
      · refine Cmd.wp_mono ?_ ?_ hattach
        · rintro w₃ ⟨htables₃, hk₃, hbeside, hstage⟩
          rw [hback.nvms] at hstage
          rw [htables] at htables₃ hk₃
          exact .attaching hold hnew.2 hsole hdir rfl htables₃ hk₃ ⟨fun j hj => (hback.files j).trans (hbeside.files j hj),
            fun key hkey => (hbeside.len key hkey).trans (hback.len key)⟩ (hback.files i) hstage
        rintro ok w₃ ⟨hok, h₃⟩
        exact ⟨hok, hnodup, Or.inr ⟨hfd, h₃⟩⟩
      · exact absurd List.mem_cons_self hno
    · rintro fd fds w'' ⟨hnodup, hcase⟩ hname
      obtain ⟨hfd, hnodup⟩ := List.nodup_cons.mp hnodup
      have hfdk : k ≠ fd := by
        rintro rfl
        apply hname
        rcases hcase with ⟨-, rfl⟩ | ⟨-, htables'', -⟩
        · rw [htable, hkold]
        · rw [htables'', Tables.armed_name, htable, hkold]
      refine ⟨hnodup, ?_⟩
      rcases hcase with ⟨hmem, heq⟩ | ⟨hno, hrest⟩
      · exact Or.inl ⟨(List.mem_cons.mp hmem).resolve_left hfdk, heq⟩
      · exact Or.inr ⟨fun hmem => hno (List.mem_cons_of_mem _ hmem), hrest⟩
    · rintro ok w'' ⟨rfl, -, hcase⟩
      refine ⟨rfl, ?_⟩
      rcases hcase with ⟨hmem, -⟩ | ⟨-, htables'', hk'', hbeside, hlen, hguard⟩
      · cases hmem
      · have hinto := renamed_into h hk'' hnames hold hnew hdir hmoved htable hnvmDir hinos hsole.opened hsole.only rfl
          hsole.free hguard
        rw [← htables''] at hinto
        refine renameEntries_sound hinto ?_ hdir hne (fun j hj => ?_) fun hroom k' hk' => ?_
        · rw [htables'']
          exact hmoved.congr rfl rfl rfl rfl
        · refine (hback.files j).trans (hbeside.files j ?_)
          rintro rfl
          exact hj ⟨hnew.2, hdir⟩
        · by_cases hkk : k' = k
          · rw [hkk, hlen]
            exact hn.blocks.pos.ne
          · rw [htables'', Tables.armed_ne hkk, htable] at hk'
            rw [hbeside.len (some k') (by simpa using hkk), hback.len]
            exact hroom k' hk'

end

/-- A file renamed to itself stays. -/
theorem rename_same (h : Sound cfg P dur C w') (htables : w'.tables = w.tables) (hback : WrittenBack w w') :
    Renamed cfg P dur C old old w w' := by
  refine ⟨h, ?_, by rw [htables], by rw [htables], fun j _ => hback.files j, hback.roomLeft fun k hk => htables ▸ hk⟩
  rw [htables]
  unfold Tables.moveFile
  rw [if_pos (Or.inl rfl)]

theorem rename_sound (hn : SizeOk cfg.nvmSize) (hnames : NoCollision cfg P) (h : Sound cfg P dur C w)
    (hok : RenameOk cfg P dur old new w) :
    wwp (Cut cfg P dur C old new w) (rename cfg old new) (fun r w' => Renamed cfg P dur C old new w w' ∧
      (r = 0 ↔ w.tables.dir old ≠ none)) w := by
  unfold rename
  simp only [wwp, Cmd.wp_bind]
  refine wwp_syscallRename fun w₁ ht => ?_
  obtain ⟨hl₁, hk₁⟩ := h.env ht
  rw [ht.tables] at hl₁ hk₁ ⊢
  refine ⟨.before ht.tables hk₁ (.ticks ht), ?_⟩
  cases hdir : w.tables.dir old with
  | none =>
    have hstay : w.tables.moveFile old new = w.tables := by rw [Tables.moveFile, if_pos (Or.inr hdir)]
    have hsame : { w₁ with tables := w.tables } = w₁ := by rw [← ht.tables]
    simp only [Option.isSome_none, Bool.false_eq_true, if_false, Cmd.wp_pure, hstay, hsame]
    refine ⟨⟨h.env ht, ?_, by rw [ht.tables], by rw [ht.tables], fun j _ => ht.flushed j,
      (WrittenBack.ticks ht).roomLeft fun k hk => ht.tables ▸ hk⟩, by simp⟩
    rw [ht.tables, hstay]
  | some i =>
    simp only [Option.isSome_some, if_true]
    by_cases hne : old = new
    · subst hne
      have hstay : w.tables.moveFile old old = w.tables := by rw [Tables.moveFile, if_pos (Or.inl rfl)]
      have hsame : { w₁ with tables := w.tables } = w₁ := by rw [← ht.tables]
      have hdone : ∀ w₂, WTicks w₁ w₂ → wwp (Cut cfg P dur C old old w) (renameEntries old old)
          (fun r w' => Renamed cfg P dur C old old w w' ∧ (r = 0 ↔ some i ≠ none)) w₂ := by
        intro w₂ ht₂
        refine wwp_renameEntries ⟨rename_same ?_ ?_ ?_, by simp⟩
        · rw [Tables.renamed_self]
          exact h.env (ht.trans ht₂)
        · change w₂.tables.renamed old old = w.tables
          rw [Tables.renamed_self, ht₂.tables, ht.tables]
        · exact (WrittenBack.ticks (ht.trans ht₂)).setTables _
      have hfrom := hdone w₁ .refl
      rw [hstay, hsame]
      by_cases hneed : cfg.needNvm old = true
      · simp only [hneed, if_true, Cmd.wp_bind]
        unfold moveNvm
        simp only [Cmd.wp_bind, wwp_nvmExists, Cmd.wp_ite, Cmd.wp_pure]
        refine ⟨fun _ => wwp_renameatNvm fun w₂ ht₂ => ⟨?_, ?_⟩, fun hnone => ⟨fun hsome => absurd hsome hnone, fun _ => ?_⟩⟩
        · exact .before (ht₂.tables.trans ht.tables) (hk₁.env (fun _ _ _ hg _ => by rwa [ht.tables]) ht₂)
            (.ticks (ht.trans ht₂))
        · have hmove : w₂.tables.moveNvm (cfg.nvmFileName old) (cfg.nvmFileName old) = w₂.tables := by
            rw [Tables.moveNvm, if_pos rfl]
          rw [hmove]
          exact ⟨fun _ => hdone w₂ ht₂, by simp⟩
        · exact ⟨fun _ => hfrom, by simp⟩
      · simp only [hneed, if_false, Bool.false_eq_true]
        exact hfrom
    · have hk₂ := hk₁.setTables (w.tables.moveFile old new)
      have hback : WrittenBack w { w₁ with tables := w.tables.moveFile old new } :=
        (WrittenBack.ticks ht).setTables _
      have hend : ∀ w₂, wwp (Cut cfg P dur C old new w) (renameEntries old new)
          (fun r w₃ => r = 0 ∧ Renamed cfg P dur C old new w w₃) w₂ → wwp (Cut cfg P dur C old new w)
            (renameEntries old new) (fun r w₃ => Renamed cfg P dur C old new w w₃ ∧ (r = 0 ↔ some i ≠ none)) w₂ :=
        fun w₂ hw => Cmd.wp_conseq hw fun r w₃ h₃ => ⟨h₃.2, by simp [h₃.1]⟩
      cases hnew : cfg.needNvm new with
      | true =>
        cases hold : cfg.needNvm old with
        | true =>
          simp only [if_true, Cmd.wp_bind]
          refine Cmd.wp_conseq (rename_log_to_log hnames hl₁ hdir hne rfl hk₂ hback ⟨hok.used.1, hold⟩
            ⟨hok.used.2, hnew⟩) ?_
          rintro ok w₂ ⟨rfl, hw⟩
          rw [if_pos rfl]
          exact hend w₂ hw
        | false =>
          have hcap : (w.tables.moveFile old new).capacity = w.tables.capacity := (w.tables.moveFile_rest old new).2.1
          simp only [if_true, Bool.false_eq_true, if_false, Cmd.wp_bind, Cmd.wp_get, hcap]
          refine Cmd.wp_conseq (rename_into hnames hl₁ hdir hne rfl hk₂ hback hn h.keeps hold ⟨hok.used.2, hnew⟩
            (hok.comes hold hnew i hdir)) ?_
          rintro ok w₂ ⟨rfl, hw⟩
          rw [if_pos rfl]
          exact hend w₂ hw
      | false =>
        cases hold : cfg.needNvm old with
        | true =>
          simp only [if_true, Bool.false_eq_true, if_false, Cmd.wp_bind]
          refine Cmd.wp_conseq (rename_out hnames hl₁ hdir hne rfl hk₂ hback hn h.keeps ⟨hok.used.1, hold⟩ hok.used.2
            hnew (hok.goes hold hnew i hdir)) ?_
          rintro ok w₂ ⟨rfl, hw⟩
          rw [if_pos rfl]
          exact hend w₂ hw
        | false =>
          simp only [Bool.false_eq_true, if_false]
          refine hend _ (rename_plain hl₁ hdir hne rfl hk₂ hback hold hok.used.2 fun hneed => ?_)
          rw [hnew] at hneed
          cases hneed

/-! ## `unlink` -/

/-- The tables `T` without the name `path`. -/
def Tables.without (T : Tables) (path : String) : Tables := { T with dir := Function.update T.dir path none }

/-- What a power failure inside `unlink` finds. -/
inductive Unlinking (cfg : Config) (P : String → Prop) (dur : Prop) (C : Nat → List Byte) (path : String) (w : World) :
    World → Prop
  | before {w' : World} : w'.tables = w.tables → Keeps cfg P dur none w.tables C w' → WrittenBack w w' →
      Unlinking cfg P dur C path w w'
  | between {w' : World} : w'.tables = w.tables.without path → Keeps cfg P dur none w.tables C w' → WrittenBack w w' →
      Unlinking cfg P dur C path w w'

/-- What `unlink` leaves: the name is gone, and all other files have their content. -/
structure Unlinked (cfg : Config) (P : String → Prop) (dur : Prop) (C : Nat → List Byte) (path : String) (w w' : World) :
    Prop where
  sound : Sound cfg P dur C w'
  dir : w'.tables.dir = Function.update w.tables.dir path none
  fds : w'.tables.fds = w.tables.fds
  inos : w'.tables.inos = w.tables.inos
  back : WrittenBack w w'

section
variable {path : String}

/-- No file has the name any more, and no NVM file. -/
theorem unlinked (h : Linked cfg P T) (hk : Keeps cfg P dur none T C w) (hnames : NoCollision cfg P) (hpath : P path)
    (hd : T'.dir = Function.update T.dir path none) (hfds : T'.fds = T.fds) (hinos : T'.inos = T.inos)
    (hcap : T'.capacity = T.capacity) (htable : T'.fdTable = T.fdTable)
    (hlog : cfg.needNvm path = true → NvmDropped w.nvms T T' (cfg.nvmFileName path))
    (hplain : cfg.needNvm path = false → T'.nvmDir = T.nvmDir ∧ T'.nvmInos = T.nvmInos) :
    Linked cfg P T' ∧ Keeps cfg P dur none T' C w := by
  have hdir : ∀ q j, T'.dir q = some j → q ≠ path ∧ T.dir q = some j := by
    intro q j hj
    rw [hd, Function.update_apply] at hj
    split_ifs at hj with hq
    exact ⟨hq, hj⟩
  have hguards : ∀ k n j, T'.Guards k n j ↔ T.Guards k n j := by
    intro k n j
    unfold Tables.Guards
    rw [htable, hfds]
  have hnvmInos : T.nvmInos ≤ T'.nvmInos := by
    cases hneed : cfg.needNvm path with
    | true => exact (hlog hneed).inos
    | false => exact (hplain hneed).2.ge
  have hsame : ∀ q, Logs cfg P q → q ≠ path → T'.nvmDir (cfg.nvmFileName q) = T.nvmDir (cfg.nvmFileName q) := by
    intro q hq hne
    cases hneed : cfg.needNvm path with
    | true => exact (hlog hneed).same _ fun heq => hne (hnames q path hq.1 hpath heq)
    | false => rw [(hplain hneed).1]
  constructor
  · constructor
    · intro q j hj
      rw [hinos]
      exact h.dir_lt q j (hdir q j hj).2
    · rw [hfds, hinos]
      exact h.fds_lt
    · intro q q' j hj hj'
      exact h.dir_inj q q' j (hdir q j hj).2 (hdir q' j hj').2
    · cases hneed : cfg.needNvm path with
      | true => exact (hlog hneed).le
      | false =>
        rw [(hplain hneed).1, (hplain hneed).2]
        exact h.nvm_le
    · cases hneed : cfg.needNvm path with
      | true => exact (hlog hneed).inj
      | false =>
        rw [(hplain hneed).1]
        exact h.nvm_inj
    · intro k n hg
      rw [htable] at hg
      exact (h.guard_le k n hg).trans hnvmInos
    · rw [hcap]
      exact h.pos
    · rw [hcap, htable]
      exact h.beyond
    · rw [hfds, htable]
      exact h.closed
    · rw [htable]
      exact h.known
    · intro k q j hj hjd
      rw [htable]
      exact h.named k q j (hfds ▸ hj) (hdir q j hjd).2
    · rw [htable]
      exact h.paired
    · intro k k' n j hg hj
      exact h.alone k k' n j ((hguards k n j).mp hg) (hfds ▸ hj)
    · rw [htable]
      exact h.apart
    · intro k n j q hg hq
      have hgT := (hguards k n j).mp hg
      by_cases hqp : q = path
      · subst hqp
        rw [hd, Function.update_self]
        exact iff_of_false (by simp) fun heq => h.mapped_some hk hgT.1 (heq ▸ (hlog hq.2).gone)
      · rw [hd, Function.update_of_ne hqp, hsame q hq hqp]
        exact h.link k n j q hgT hq
  · constructor
    · intro k n j hg hx
      have hgT := (hguards k n j).mp hg
      rw [hg.port, ← hgT.port]
      exact hk.guard k n j hgT hx
    · intro q j hq hj hopen hx
      obtain ⟨hqp, hjT⟩ := hdir q j hj
      rw [hsame q hq hqp]
      exact hk.rest q j hq hjT (hfds ▸ hopen) hx
    · intro k j hj hg hx
      exact hk.bare k j (hfds ▸ hj) (htable ▸ hg) hx
    · intro q j hq hj hx
      exact hk.plain q j hq (hdir q j hj).2 hx
    · intro q hq hnone
      by_cases hqp : q = path
      · subst hqp
        exact (hlog hq.2).gone
      · rw [hsame q hq hqp]
        rw [hd, Function.update_of_ne hqp] at hnone
        exact hk.vacant q hq hnone
    · intro n hlt
      exact hk.fresh n (hnvmInos.trans_lt hlt)
    · rintro j (⟨q, hq, hj⟩ | ⟨k, n, hg⟩)
      · exact hk.small j (Or.inl ⟨q, hq, (hdir q j hj).2⟩)
      · exact hk.small j (Or.inr ⟨k, n, (hguards k n j).mp hg⟩)

theorem unlink_sound (hnames : NoCollision cfg P) (h : Sound cfg P dur C w) (hpath : P path) :
    wwp (Unlinking cfg P dur C path w) (unlink cfg path) (fun r w' => Unlinked cfg P dur C path w w' ∧
      (r = 0 ↔ w.tables.dir path ≠ none)) w := by
  unfold unlink
  simp only [wwp, Cmd.wp_bind]
  refine wwp_syscallUnlink fun w₁ ht => ?_
  obtain ⟨hl₁, hk₁⟩ := h.env ht
  rw [ht.tables] at hl₁ hk₁ ⊢
  refine ⟨.before ht.tables hk₁ (.ticks ht), ?_⟩
  have hdone : ∀ w₂ T₂, w₂.tables = T₂ → WrittenBack w w₂ → Keeps cfg P dur none w.tables C w₂ →
      T₂.dir = Function.update w.tables.dir path none → T₂.fds = w.tables.fds → T₂.inos = w.tables.inos →
      T₂.capacity = w.tables.capacity → T₂.fdTable = w.tables.fdTable →
      (cfg.needNvm path = true → NvmDropped w₂.nvms w.tables T₂ (cfg.nvmFileName path)) →
      (cfg.needNvm path = false → T₂.nvmDir = w.tables.nvmDir ∧ T₂.nvmInos = w.tables.nvmInos) →
      Unlinked cfg P dur C path w w₂ := by
    rintro w₂ T₂ rfl hback hk₂ hd hfds hinos hcap htable hlog hplain
    obtain ⟨hl', hk'⟩ := unlinked hl₁ hk₂ hnames hpath hd hfds hinos hcap htable hlog hplain
    exact ⟨⟨hl', hk'⟩, hd, hfds, hinos, hback⟩
  have hback : WrittenBack w { w₁ with tables := w.tables.without path } := (WrittenBack.ticks ht).setTables _
  have hk₂ := hk₁.setTables (w.tables.without path)
  have hwithout : { w.tables with dir := Function.update w.tables.dir path none } = w.tables.without path := rfl
  rw [hwithout]
  cases hdir : w.tables.dir path with
  | none =>
    simp only [Option.isSome_none, Bool.false_eq_true, if_false, Cmd.wp_pure]
    refine ⟨hdone _ _ rfl hback hk₂ rfl rfl rfl rfl rfl (fun hneed => ?_) fun _ => ⟨rfl, rfl⟩, by simp⟩
    exact (nvmDropped_none hl₁ (hk₁.vacant path ⟨hpath, hneed⟩ hdir)).congr rfl rfl
  | some i =>
    simp only [Option.isSome_some, if_true]
    cases hneed : cfg.needNvm path with
    | false =>
      simp only [Bool.false_eq_true, if_false, Cmd.wp_pure]
      exact ⟨hdone _ _ rfl hback hk₂ rfl rfl rfl rfl rfl (by simp [hneed]) fun _ => ⟨rfl, rfl⟩, by simp⟩
    | true =>
      simp only [if_true, Cmd.wp_bind, wwp_nvmExists, Cmd.wp_ite, Cmd.wp_pure]
      refine ⟨fun _ => wwp_unlinkatNvm fun w₂ ht₂ => ?_, fun hnone => ?_⟩
      · have hk₃ : Keeps cfg P dur none w.tables C w₂ := hk₂.env (fun _ _ _ hg _ => hg) ht₂
        have hback₂ := hback.trans (.ticks ht₂)
        refine ⟨.between ht₂.tables hk₃ hback₂, ?_, by simp⟩
        refine hdone _ _ rfl (hback₂.setTables _) (hk₃.setTables _) ?_ ?_ ?_ ?_ ?_ (fun _ => ?_)
          (by simp [hneed])
        · rw [ht₂.tables]
          rfl
        · rw [ht₂.tables]
          rfl
        · rw [ht₂.tables]
          rfl
        · rw [ht₂.tables]
          rfl
        · rw [ht₂.tables]
          rfl
        · rw [ht₂.tables]
          exact (nvmDropped_drop hl₁ hk₃).congr rfl rfl
      · refine ⟨hdone _ _ rfl hback hk₂ rfl rfl rfl rfl rfl (fun _ => ?_) (by simp [hneed]), by simp⟩
        exact (nvmDropped_none hl₁ (by simpa [Tables.without] using hnone)).congr rfl rfl

end

end

end PmemProgram.Wal
