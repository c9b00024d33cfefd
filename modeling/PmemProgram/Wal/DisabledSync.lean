import PmemProgram.Wal.Ledger

/-!
# What `fsync` promises

With `disable_sync` the wrappers of `fsync` and `fdatasync` do nothing on a guarded descriptor.

* `Call.Leaves cfg i L w c` : the call `c` takes no bytes of `L` from the inode `i`;
* `Promised cfg P i L C w` : `L` is in the ring or on the disk, whichever is asked under the name of `i`; `Promised.call`,
  `Promised.cut`, `Promised.ledger`;
* `disabled_sync_kept` : the content at an `fsync` that has returned 0 is found again after any later power failure;
  `attached_lost` is a file that gets its guard while its bytes are not on the disk.
-/

namespace PmemProgram.Wal
open PmemProgram.Lib PmemProgram.Lib.Ring

section
variable {cfg : Config} {P : String → Prop} {C C' C₀ C₁ : Nat → List Byte} {w w' t w₀ w₁ w₂ : World}
  {old new path : String} {i : Nat} {L : List Byte}

/-! ## One inode -/

/-- A call that does not truncate the file `i`, writes behind its end, and takes it out of the pattern only when the bytes
`L` are on the disk. -/
def Call.Leaves (cfg : Config) (i : Nat) (L : List Byte) (w : World) : Call → Prop
  | openAt _ file flags _ => w.tables.dir file = some i → flags.trunc = false
  | write fd _ => w.tables.fds fd = some i → (w.descs fd).append = true
  | rename old new => w.tables.dir old = some i → cfg.needNvm old = true → cfg.needNvm new = false →
      L.length ≤ (w.files i).synced
  | _ => True

/-- As long as the inode `i` has a name, `L` is what its content begins with, and is on the disk if the name does not
match. -/
structure Promised (cfg : Config) (P : String → Prop) (i : Nat) (L : List Byte) (C : Nat → List Byte) (w : World) : Prop where
  old : i < w.tables.inos
  used : ∀ q, w.tables.dir q = some i → P q
  log : ∀ q, w.tables.dir q = some i → cfg.needNvm q = true → L <+: C i
  plain : ∀ q, w.tables.dir q = some i → cfg.needNvm q = false → L <+: (w.files i).data.take (w.files i).synced

/-- The file has only grown, and so has what is on the disk. -/
def File.Grown (f g : File) : Prop := f.data <+: g.data ∧ f.synced ≤ g.synced

theorem File.Flushed.grown {f g : File} (h : f.Flushed g) : f.Grown g := ⟨by rw [h.data], h.synced⟩

theorem File.Grown.keeps {f g : File} (h : f.Grown g) (hL : L <+: f.data.take f.synced) : L <+: g.data.take g.synced := by
  rw [List.prefix_take_iff] at hL ⊢
  exact ⟨hL.1.trans h.1, hL.2.trans h.2⟩

/-- What a call that moves no name leaves. -/
theorem Promised.grown (h : Promised cfg P i L C w) (hinos : w.tables.inos ≤ w'.tables.inos)
    (hdir : ∀ q, w'.tables.dir q = some i → w.tables.dir q = some i) (hC : L <+: C i → L <+: C' i)
    (hfile : ∀ q, w.tables.dir q = some i → w'.tables.dir q = some i → cfg.needNvm q = false →
      (w.files i).Grown (w'.files i)) : Promised cfg P i L C' w' where
  old := h.old.trans_le hinos
  used := fun q hq => h.used q (hdir q hq)
  log := fun q hq hneed => hC (h.log q (hdir q hq) hneed)
  plain := fun q hq hneed => (hfile q (hdir q hq) hq hneed).keeps (h.plain q (hdir q hq) hneed)

/-- The content begins with `L`. -/
theorem Promised.content (h : Promised cfg P i L C w) (hs : Sound cfg P True C w) {q : String} (hq : w.tables.dir q = some i) :
    L <+: C i := by
  cases hneed : cfg.needNvm q with
  | true => exact h.log q hq hneed
  | false =>
    rw [← hs.keeps.plain q i hneed hq (by simp)]
    exact (h.plain q hq hneed).trans (List.take_prefix _ _)

/-- The file moves. -/
theorem Promised.moved (h : Promised cfg P i L C w) (hs : Sound cfg P True C w) (hok : RenameOk cfg P True old new w)
    (hleaves : (Call.rename old new).Leaves cfg i L w) (hdir : t.tables.dir = (w.tables.moveFile old new).dir)
    (hinos : t.tables.inos = w.tables.inos) (hplain : PlainFlushed cfg w t)
    (hdata : w.tables.dir old = some i → cfg.needNvm old = true → cfg.needNvm new = false → (t.files i).data = C i) :
    Promised cfg P i L C t := by
  by_cases hmoves : old = new ∨ w.tables.dir old = none
  · rw [Tables.moveFile, if_pos (by simpa using hmoves)] at hdir
    exact h.grown hinos.ge (fun q hq => hdir ▸ hq) id fun q _ hq hneed => (hplain q i hneed hq).grown
  · obtain ⟨hne, hsome⟩ := not_or.mp hmoves
    obtain ⟨j, hj⟩ := Option.ne_none_iff_exists'.mp hsome
    have hback : ∀ q, t.tables.dir q = some i → q = new ∧ w.tables.dir old = some i ∨ w.tables.dir q = some i := by
      intro q hq
      rw [hdir, (FileMoved.moveFile hj hne).dir] at hq
      simp only [Function.update_apply] at hq
      split_ifs at hq with hqo hqn
      · exact Or.inl ⟨hqn, hj.trans hq⟩
      · exact Or.inr hq
    refine ⟨hinos ▸ h.old, fun q hq => ?_, fun q hq hneed => ?_, fun q hq hneed => ?_⟩
    · rcases hback q hq with ⟨rfl, -⟩ | hqi
      · exact hok.used.2
      · exact h.used q hqi
    · rcases hback q hq with ⟨rfl, holdi⟩ | hqi
      · exact h.content hs holdi
      · exact h.log q hqi hneed
    · have hflush := hplain q i hneed hq
      rcases hback q hq with ⟨rfl, holdi⟩ | hqi
      · cases hold : cfg.needNvm old with
        | true =>
          rw [List.prefix_take_iff, hdata holdi hold hneed]
          exact ⟨h.log old holdi hold, (hleaves holdi hold hneed).trans hflush.synced⟩
        | false => exact hflush.grown.keeps (h.plain old holdi hold)
      · exact hflush.grown.keeps (h.plain q hqi hneed)

/-- A power failure leaves what is on the disk. -/
theorem Promised.reboots (h : Promised cfg P i L C t) (hr : Reboots t w') (hC : ToldOn cfg P C C' t w') :
    Promised cfg P i L C' w' := by
  obtain ⟨hlen, -, htake, hsynced, -⟩ := hr.files i
  refine ⟨hr.names.inos ▸ h.old, fun q hq => ?_, fun q hq hneed => ?_, fun q hq hneed => ?_⟩
  · exact h.used q (hr.names.dir ▸ hq)
  · rw [hr.names.dir] at hq
    rw [hC.logs q i ⟨h.used q hq, hneed⟩ hq]
    exact h.log q hq hneed
  · rw [hr.names.dir] at hq
    have hkept := h.plain q hq hneed
    rw [← htake] at hkept
    rw [hsynced, List.take_length]
    exact hkept.trans (List.take_prefix _ _)

/-! ## One call -/

theorem openedContent_leaves {fd : Nat} {place file : String} {flags : Flags} (h : i < w.tables.inos)
    (hleaves : (Call.openAt place file flags fd).Leaves cfg i L w) : openedContent C w.tables file flags i = C i := by
  unfold openedContent
  cases hdir : w.tables.dir file with
  | some j =>
    dsimp only
    split_ifs with htrunc
    · refine Function.update_of_ne ?_ _ _
      rintro rfl
      rw [hleaves hdir] at htrunc
      cases htrunc
    · rfl
  | none =>
    dsimp only
    split_ifs
    · exact Function.update_of_ne h.ne _ _
    · rfl

/-- Every call keeps the bytes. -/
theorem Promised.call {c : Call} (hn : SizeOk cfg.nvmSize) (hnames : NoCollision cfg P) (hs : Sound cfg P True C w)
    (hok : c.Ok cfg P True w) (hleaves : c.Leaves cfg i L w) (h : Promised cfg P i L C w) :
    wwp (fun _ => True) (c.cmd cfg) (fun r w' => Promised cfg P i L (c.content C w r w') w') w := by
  have hl := hs.linked
  cases c with
  | openAt place file flags fd =>
    have hopen : OpenOk cfg P place file flags fd w.tables := hok
    refine Cmd.wp_mono (fun _ _ => trivial) ?_ (openAt_sound hn hnames hs hopen)
    rintro r w' ⟨-, -, hdirs, hinos, -, hspares⟩
    refine h.grown hinos (fun q hq => ?_) (fun hL => ?_) fun q hq _ hneed => (hspares i ?_).grown
    · rw [hdirs] at hq
      exact (openedDir_old h.old).mp hq
    · rwa [Call.content, openedContent_leaves h.old hleaves]
    · rintro (hle | ⟨hfile, hor⟩)
      · exact absurd h.old (Nat.not_lt.mpr hle)
      · obtain rfl := hl.dir_inj q file i hq hfile
        rw [hneed, hleaves hfile] at hor
        simp at hor
  | write fd data =>
    have hboth := Cmd.wp_and (Cmd.wp_mono (fun _ _ => trivial) (fun _ _ h => h) (write_sound hn hs hok)) (write_content hn hs hok)
    refine Cmd.wp_conseq hboth ?_
    rintro r w' ⟨⟨htables, -, -, -, -, hspares, hsynced⟩, hs'⟩
    have hgrows : C i <+: (Call.write fd data).content C w r w' i := by
      simp only [Call.content]
      split_ifs with hfd happ hr
      · exact List.prefix_rfl
      · exact List.prefix_append _ _
      · exact absurd (hleaves hfd) happ
      · exact List.prefix_rfl
    refine h.grown (by rw [htables]) ?_ (fun hL => hL.trans hgrows) fun q hq hq' hneed => ?_
    · rw [htables]
      exact fun _ => id
    · by_cases hfd : w.tables.fds fd = some i
      · have hbare : (w.tables.fdTable fd).aofguard = none := hl.bare_plain hfd hq hneed
        refine ⟨?_, hsynced hbare (hleaves hfd) i⟩
        rw [hs.keeps.plain q i hneed hq (by simp), hs'.keeps.plain q i hneed hq' (by simp)]
        exact hgrows
      · exact (hspares i hfd).grown
  | fsync fd =>
    refine Cmd.wp_mono (fun _ _ => trivial) ?_ (syncCall_sound hs)
    rintro r w' ⟨htables, -, hflush, -⟩
    refine h.grown (by rw [htables]) ?_ id fun _ _ _ _ => (hflush i).grown
    rw [htables]
    exact fun _ => id
  | fdatasync fd =>
    refine Cmd.wp_mono (fun _ _ => trivial) ?_ (syncCall_sound hs)
    rintro r w' ⟨htables, -, hflush, -⟩
    refine h.grown (by rw [htables]) ?_ id fun _ _ _ _ => (hflush i).grown
    rw [htables]
    exact fun _ => id
  | close fd =>
    refine Cmd.wp_mono (fun _ _ => trivial) ?_ (close_sound hs hok)
    rintro r w' ⟨htables, -, hflush⟩
    refine h.grown (by rw [htables]; rfl) ?_ id fun _ _ _ _ => (hflush i).grown
    rw [htables]
    exact fun _ => id
  | unlink path =>
    refine Cmd.wp_mono (fun _ _ => trivial) ?_ (unlink_sound hnames hs hok)
    rintro r w' ⟨hun, -⟩
    refine h.grown hun.inos.ge (fun q hq => ?_) id fun _ _ _ _ => (hun.back.files i).grown
    rw [hun.dir, Function.update_apply] at hq
    split_ifs at hq
    exact hq
  | rename old new =>
    refine Cmd.wp_mono (fun _ _ => trivial) ?_ (rename_sound hn hnames hs hok)
    rintro r w' ⟨hren, -⟩
    refine h.moved hs hok hleaves hren.dir hren.inos hren.plainFlushed fun hdir hold hnew => ?_
    refine hren.sound.keeps.plain new i hnew ?_ (by simp)
    rw [hren.dir, Tables.moveFile_to hdir]

/-! ## Power failures -/

theorem Tables.moveFile_inos (T : Tables) (old new : String) : (T.moveFile old new).inos = T.inos := by
  unfold Tables.moveFile
  split_ifs
  · rfl
  · rfl

theorem Cut.names (h : Cut cfg P True C old new w t) : t.tables.inos = w.tables.inos ∧
    (t.tables.dir = w.tables.dir ∨ t.tables.dir = (w.tables.moveFile old new).dir) := by
  have hinos := w.tables.moveFile_inos old new
  cases h with
  | before htables => exact ⟨by rw [htables], Or.inl (by rw [htables])⟩
  | between htables => exact ⟨by rw [htables, hinos], Or.inr (by rw [htables])⟩
  | detaching _ _ htables => exact ⟨by rw [htables, ← hinos]; rfl, Or.inr (by rw [htables]; rfl)⟩
  | attaching _ _ _ _ _ htables => exact ⟨by rw [htables, ← hinos]; rfl, Or.inr (by rw [htables]; rfl)⟩

/-- A power failure inside a call finds the names of the older inodes as they were, unless `rename` has moved one. -/
theorem Call.crash_names {c : Call} (hn : SizeOk cfg.nvmSize) (hnames : NoCollision cfg P) (hs : Sound cfg P True C w)
    (hok : c.Ok cfg P True w) (hc : Cmd.Crash WTicks (fun _ k => k = 0) (c.cmd cfg) w t) :
    w.tables.inos ≤ t.tables.inos ∧ ((∀ q j, j < w.tables.inos → t.tables.dir q = some j → w.tables.dir q = some j) ∨
      ∃ old new, c = .rename old new ∧ t.tables.dir = (w.tables.moveFile old new).dir ∧ t.tables.inos = w.tables.inos) := by
  have hmid : ∀ T, Midway cfg P True C T w t → w.tables.inos ≤ t.tables.inos ∧
      ∀ q j, j < w.tables.inos → t.tables.dir q = some j → w.tables.dir q = some j := by
    intro T hmid
    rw [hmid.names.dir, hmid.dir, hmid.names.inos, hmid.inos]
    exact ⟨le_rfl, fun _ _ _ => id⟩
  cases c with
  | openAt place file flags fd =>
    have hopen : OpenOk cfg P place file flags fd w.tables := hok
    obtain rfl := hopen.place
    cases Cmd.wp_crash (openAt_sound hn hnames hs hopen) hc with
    | before h => exact ⟨(hmid _ h).1, Or.inl (hmid _ h).2⟩
    | starting _ _ _ hsame hdir hinos =>
      rw [hsame.dir, hsame.inos, hdir]
      exact ⟨hinos, Or.inl fun q j hj => (openedDir_old hj).mp⟩
  | write fd data =>
    cases Cmd.wp_crash (write_sound hn hs hok) hc with
    | before h => exact ⟨(hmid _ h).1, Or.inl (hmid _ h).2⟩
    | inside _ htables =>
      rw [htables]
      exact ⟨le_rfl, Or.inl fun _ _ _ => id⟩
  | fsync fd =>
    have h := hmid _ (Cmd.wp_crash (syncCall_sound hs) hc)
    exact ⟨h.1, Or.inl h.2⟩
  | fdatasync fd =>
    have h := hmid _ (Cmd.wp_crash (syncCall_sound hs) hc)
    exact ⟨h.1, Or.inl h.2⟩
  | close fd =>
    obtain ⟨T, hclose⟩ := Cmd.wp_crash (close_sound hs hok) hc
    exact ⟨(hmid T hclose).1, Or.inl (hmid T hclose).2⟩
  | unlink path =>
    cases Cmd.wp_crash (unlink_sound hnames hs hok) hc with
    | before htables =>
      rw [htables]
      exact ⟨le_rfl, Or.inl fun _ _ _ => id⟩
    | between htables =>
      rw [htables]
      refine ⟨le_rfl, Or.inl fun q j _ hq => ?_⟩
      simp only [Tables.without, Function.update_apply] at hq
      split_ifs at hq
      exact hq
  | rename old new =>
    obtain ⟨hinos, hdir | hdir⟩ := (Cmd.wp_crash (rename_sound hn hnames hs hok) hc).names
    · exact ⟨hinos.ge, Or.inl fun q j _ hq => hdir ▸ hq⟩
    · exact ⟨hinos.ge, Or.inr ⟨old, new, rfl, hdir, hinos⟩⟩

/-- What has been acknowledged is not torn. -/
theorem Call.torn_grows {c : Call} (hi : i < w.tables.inos) (hleaves : c.Leaves cfg i L w) : C i <+: c.torn cfg C w t i := by
  cases c with
  | openAt place file flags fd => rw [Call.torn, openedContent_leaves hi hleaves]
  | write fd data =>
    simp only [Call.torn]
    split_ifs with hfd
    · cases (w.tables.entry fd).aofguard with
      | none => exact List.prefix_rfl
      | some n =>
        simp only [Option.elim_some]
        split_ifs
        · exact List.prefix_append _ _
        · exact List.prefix_rfl
    · exact List.prefix_rfl
  | fsync fd => exact List.prefix_rfl
  | fdatasync fd => exact List.prefix_rfl
  | close fd => exact List.prefix_rfl
  | unlink path => exact List.prefix_rfl
  | rename old new => exact List.prefix_rfl

/-- A power failure inside a call loses no byte of `L`. -/
theorem Promised.cut {c : Call} (hn : SizeOk cfg.nvmSize) (hnames : NoCollision cfg P) (hs : Sound cfg P True C w)
    (hroom : RoomLeft cfg w) (hroom' : RoomLeft cfg t) (hok : c.Ok cfg P True w) (hleaves : c.Leaves cfg i L w)
    (hc : Cmd.Crash WTicks (fun _ k => k = 0) (c.cmd cfg) w t) (hin : c.InStep cfg C w t) (h : Promised cfg P i L C w) :
    Promised cfg P i L (c.torn cfg C w t) t := by
  obtain ⟨-, hplain⟩ := Call.stored hn hnames hs hroom hroom' hok hc hin
  obtain ⟨hinos, hdir | ⟨old, new, rfl, hdir, hsame⟩⟩ := Call.crash_names hn hnames hs hok hc
  · exact h.grown hinos (fun q => hdir q i h.old) (fun hL => hL.trans (Call.torn_grows h.old hleaves))
      fun q _ hq hneed => (hplain q i hneed hq).grown
  · refine h.moved hs hok hleaves hdir hsame hplain fun hold hneed hnew => ?_
    -- the file holds what the ring holds before the ring goes
    have hto : t.tables.dir new = some i := by rw [hdir, Tables.moveFile_to hold]
    have hrename : RenameOk cfg P True old new w := hok
    rw [(hplain new i hnew hto).data, (hrename.goes hneed hnew i hold).whole trivial]
    exact heldBy_sound hn hs hrename.used.1 hold fun k n => hroom.guards (fun _ _ hg => hg) k n i

/-! ## Runs -/

theorem Promised.ledger (hn : SizeOk cfg.nvmSize) (hnames : NoCollision cfg P) (hs : Sound cfg P True C₁ w₁)
    (h₁ : Promised cfg P i L C₁ w₁) (h : Ledger cfg P (fun w c => c.Leaves cfg i L w) w₁ C₁ w C) :
    Promised cfg P i L C w := by
  induction h with
  | start => exact h₁
  | thread _ ht ih =>
    have hts : WTicks _ _ := .single ht
    refine ih.grown (by rw [hts.tables]) ?_ id fun _ _ _ _ => (hts.flushed i).grown
    rw [hts.tables]
    exact fun _ => id
  | call hrun hok hleaves hr ih => exact Cmd.wp_run (ih.call hn hnames (hrun.sound hn hnames hs) hok hleaves) hr
  | reboot _ _ hr hC ih => exact ih.reboots hr hC
  | cut hrun hok hleaves hroom hroom' hc hin hr hC ih =>
    exact (ih.cut hn hnames (hrun.sound hn hnames hs) hroom hroom' hok hleaves hc hin).reboots hr hC

/-- After the power failure the bytes are found under the name of the inode. -/
theorem Promised.found (hn : SizeOk cfg.nvmSize) (hnames : NoCollision cfg P) (h : Promised cfg P i L C t)
    (hs : Stored cfg P C t) (hr : Reboots t w') {q : String} {fd : Nat} {flags : Flags} (hq : t.tables.dir q = some i)
    (happ : flags.append = true) (hw : flags.writable = true) (htrunc : flags.trunc = false) :
    Returns (openAt cfg q q flags fd) (fun r w'' => r = fd ∧ w''.tables.fds fd = some i ∧ L <+: (w''.files i).data) w' := by
  obtain ⟨C', hC', htold⟩ := hs.reboot hr
  have hq' : w'.tables.dir q = some i := by rw [hr.names.dir, hq]
  have hL := (h.reboots hr htold).content hC' hq'
  have hclosed : w'.tables.fds fd = none := by rw [hr.idle.fds]
  obtain ⟨hfails, hends, hall⟩ := openAt_appends hn hnames hC' (h.used q hq) hq'
    (fun k n hg => absurd hg (hr.idle.unguarded k n i)) hclosed happ hw htrunc
  refine ⟨hfails, hends, fun r w'' hrun => ?_⟩
  obtain ⟨hfd, hfds, hdata⟩ := hall r w'' hrun
  exact ⟨hfd, hfds, hdata ▸ hL⟩

/-- An `fsync` that returns 0 promises what the file holds: a log anyway, and any other file because it is on the disk. -/
theorem promised_sync {fd : Nat} (hs : Sound cfg P True C w) (hfd : w.tables.fds fd = some i) :
    wwp (fun _ => True) (syncCall cfg fd) (fun r w' => Sound cfg P True C w' ∧ (r = 0 → Promised cfg P i (C i) C w')) w := by
  have hl := hs.linked
  refine Cmd.wp_mono (fun _ _ => trivial) ?_ (syncCall_sound hs)
  rintro r w' ⟨htables, hs', -, hsynced⟩
  refine ⟨hs', fun hr => ?_⟩
  have hfd' : w'.tables.fds fd = some i := by rw [htables, hfd]
  refine ⟨hs'.linked.fds_lt fd i hfd', fun q hq => ?_, fun _ _ _ => List.prefix_rfl, fun q hq hneed => ?_⟩
  · exact hs'.linked.known fd q (hs'.linked.named fd q i hfd' hq)
  · have hbare : (w.tables.fdTable fd).aofguard = none := hl.bare_plain hfd (by rw [← htables, hq]) hneed
    rw [hsynced hr hbare i hfd, List.take_length, hs'.keeps.plain q i hneed hq (by simp)]

/-- A power failure in `w`, or inside a call from `w` that leaves `L`; nothing is lost by the place where it comes. -/
inductive Later (cfg : Config) (P : String → Prop) (i : Nat) (L : List Byte) (C : Nat → List Byte) (w : World) : World → Prop
  | between : RoomLeft cfg w → Later cfg P i L C w w
  | inside {t : World} {c : Call} : c.Ok cfg P True w → c.Leaves cfg i L w → RoomLeft cfg w → RoomLeft cfg t →
      Cmd.Crash WTicks (fun _ k => k = 0) (c.cmd cfg) w t → c.InStep cfg C w t → Later cfg P i L C w t

/-- **The promise of `fsync`.** Whether `disable_sync` is set or not: what a file holds when an `fsync` or `fdatasync` of a
descriptor of it returns 0 is found by an append-mode open of its current name after any later power failure. -/
theorem disabled_sync_kept (hn : SizeOk cfg.nvmSize) (hnames : NoCollision cfg P) (h₀ : Initial cfg P True w₀)
    (h : Told cfg P w₀ w C) {fd : Nat} (hfd : w.tables.fds fd = some i)
    (hsync : Cmd.Run WTicks (fun _ k => k = 0) (syncCall cfg fd) w 0 w₁)
    (hlater : Ledger cfg P (fun w c => c.Leaves cfg i (C i) w) w₁ C w₂ C₁) (hcut : Later cfg P i (C i) C₁ w₂ t)
    (hr : Reboots t w') {q : String} (hq : t.tables.dir q = some i) {fd' : Nat} {flags : Flags}
    (happ : flags.append = true) (hw : flags.writable = true) (htrunc : flags.trunc = false) :
    Returns (openAt cfg q q flags fd')
      (fun r w'' => r = fd' ∧ w''.tables.fds fd' = some i ∧ C i <+: (w''.files i).data) w' := by
  obtain ⟨hs₁, hpromised⟩ := Cmd.wp_run (promised_sync (h.sound hn hnames h₀.sound) hfd) hsync
  have hs₂ := hlater.sound hn hnames hs₁
  have hkept := (hpromised rfl).ledger hn hnames hs₁ hlater
  cases hcut with
  | between hroom => exact hkept.found hn hnames (hs₂.stored hroom) hr hq happ hw htrunc
  | inside hok hleaves hroom hroom' hc hin =>
    obtain ⟨hstored, -⟩ := Call.stored hn hnames hs₂ hroom hroom' hok hc hin
    exact (hkept.cut hn hnames hs₂ hroom hroom' hok hleaves hc hin).found hn hnames hstored hr hq happ hw htrunc

end

theorem disabled_sync_kept_record : ∃ w C t, Told (syncConfig true) (fun _ => True) logWorld w C ∧ C 1 = [1, 2] ∧
    Cmd.Run WTicks (fun _ k => k = 0) (syncCall (syncConfig true) 3) w 0 t ∧ Reboots t t.rebooted ∧
    Returns (openAt (syncConfig true) "m.log" "m.log" ⟨false, false, true, true⟩ 3)
      (fun r t' => r = 3 ∧ t'.tables.fds 3 = some 1 ∧ C 1 <+: (t'.files 1).data) t.rebooted := by
  have htest : (twoBytes true).any (fun w => ((syncCall (syncConfig true) 3).exec w).any fun r => decide (r.1 = 0) &&
      decide (r.2.tables.dir "m.log" = some 1) && r.2.tables.capacity == 16 &&
        (List.range 16).all fun k => (r.2.guards (some k)).len != capOf twoBlocks) = true := by decide +kernel
  obtain ⟨w, hw, htest⟩ := (Option.any_eq_true _ _).mp htest
  obtain ⟨⟨r, t⟩, hr, htest⟩ := (Option.any_eq_true _ _).mp htest
  simp only [Bool.and_eq_true, decide_eq_true_eq, beq_iff_eq, List.all_eq_true, List.mem_range, bne_iff_ne] at htest
  obtain ⟨⟨⟨hzero, hdir⟩, hcap⟩, hlen⟩ := htest
  subst hzero
  obtain ⟨C, hC, hone, hroom, hfd⟩ := ledger_twoBytes hw
  have hnames : NoCollision (syncConfig true) fun _ => True := noCollision_logConfig
  have hinit : Initial (syncConfig true) (fun _ => True) True logWorld := { initial_logWorld with }
  have hs := hC.sound sizeOk_twoBlocks hnames hinit.sound
  have ht : Sound (syncConfig true) _ True C t := (Cmd.wp_run (syncCall_sound hs) (exec_calls hr)).2.1
  have hroom' : RoomLeft (syncConfig true) t := ht.linked.roomLeft (hcap ▸ hlen)
  exact ⟨w, C, t, hC, hone, exec_calls hr, reboots_rebooted t,
    disabled_sync_kept sizeOk_twoBlocks hnames hinit hC hfd (exec_calls hr) .start (.between hroom') (reboots_rebooted t)
      hdir rfl rfl rfl⟩

/-- The file `x` gets its guard while its two bytes are not on the disk; `fsync` returns 0 and does nothing, and after the
power failure the open of `m.log` fails. -/
theorem attached_lost : ∃ w₁ w₂ w₃ w₄,
    Cmd.Run WTicks (fun _ k => k = 0) (openAt (syncConfig true) "x" "x" ⟨true, false, true, true⟩ 3) logWorld 3 w₁ ∧
    Cmd.Run WTicks (fun _ k => k = 0) (write 3 [1, 2]) w₁ 2 w₂ ∧
    Cmd.Run WTicks (fun _ k => k = 0) (rename (syncConfig true) "x" "m.log") w₂ 0 w₃ ∧
    Cmd.Run WTicks (fun _ k => k = 0) (syncCall (syncConfig true) 3) w₃ 0 w₄ ∧
    (w₄.guards (some 3)).len = 0 ∧ Reboots w₄ w₄.rebooted ∧ w₄.rebooted.tables.dir "m.log" = some 1 ∧
    ¬ Returns (openAt (syncConfig true) "m.log" "m.log" ⟨false, false, true, true⟩ 3)
      (fun r t => r = 3 ∧ t.tables.fds 3 = some 1 ∧ [1, 2] <+: (t.files 1).data) w₄.rebooted := by
  have htest : ((openAt (syncConfig true) "x" "x" ⟨true, false, true, true⟩ 3).exec logWorld).any (fun r₁ =>
      decide (r₁.1 = 3) && ((write 3 [1, 2]).exec r₁.2).any fun r₂ => decide (r₂.1 = 2) &&
        ((rename (syncConfig true) "x" "m.log").exec r₂.2).any fun r₃ => decide (r₃.1 = 0) &&
          ((syncCall (syncConfig true) 3).exec r₃.2).any fun r₄ => decide (r₄.1 = 0) &&
            decide ((r₄.2.guards (some 3)).len = 0) && decide (r₄.2.rebooted.tables.dir "m.log" = some 1) &&
              ((openAt (syncConfig true) "m.log" "m.log" ⟨false, false, true, true⟩ 3).exec r₄.2.rebooted).any fun r =>
                decide (r.1 = -1)) = true := by decide +kernel
  obtain ⟨⟨r₁, w₁⟩, hr₁, htest⟩ := (Option.any_eq_true _ _).mp htest
  simp only [Bool.and_eq_true, decide_eq_true_eq] at htest
  obtain ⟨hr₁three, htest⟩ := htest
  obtain ⟨⟨r₂, w₂⟩, hr₂, htest⟩ := (Option.any_eq_true _ _).mp htest
  simp only [Bool.and_eq_true, decide_eq_true_eq] at htest
  obtain ⟨hr₂two, htest⟩ := htest
  obtain ⟨⟨r₃, w₃⟩, hr₃, htest⟩ := (Option.any_eq_true _ _).mp htest
  simp only [Bool.and_eq_true, decide_eq_true_eq] at htest
  obtain ⟨hr₃zero, htest⟩ := htest
  obtain ⟨⟨r₄, w₄⟩, hr₄, htest⟩ := (Option.any_eq_true _ _).mp htest
  simp only [Bool.and_eq_true, decide_eq_true_eq] at htest
  obtain ⟨⟨⟨hr₄zero, hlen⟩, hdir⟩, htest⟩ := htest
  obtain ⟨⟨r, w⟩, hr, hfails⟩ := (Option.any_eq_true _ _).mp htest
  simp only [decide_eq_true_eq] at hfails
  subst hr₁three hr₂two hr₃zero hr₄zero hfails
  refine ⟨w₁, w₂, w₃, w₄, exec_calls hr₁, exec_calls hr₂, exec_calls hr₃, exec_calls hr₄, hlen, reboots_rebooted w₄, hdir, ?_⟩
  rintro ⟨-, -, hall⟩
  exact absurd (hall _ _ (exec_calls hr)).1 (by decide)

end PmemProgram.Wal
