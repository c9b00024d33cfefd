import PmemProgram.Wal.Modes

/-!
# The intercepted calls are those of a plain file system

* `Call.plain`, `World.plain` : a call as the program makes it, and the world as the program sees it;
* `Sound.does` : a call does and returns what it does and returns without the rings, up to data that a ring may refuse;
* `Intercepted` : a run of calls beside the threads, with the results;
* `intercepted_posix` : a run has the results of a run on a plain file system, with its content in the files.
-/

namespace PmemProgram.Wal
open PmemProgram.Lib

def Flags.mode (flags : Flags) : Posix.Mode := ⟨flags.creat, flags.trunc, flags.append, flags.writable⟩

def Call.plain : Call → Posix.Call String Byte
  | openAt _ file flags fd => .openFile file flags.mode fd
  | write fd data => .write fd data
  | fsync fd => .sync fd
  | fdatasync fd => .sync fd
  | close fd => .close fd
  | unlink file => .unlink file
  | rename oldpath newpath => .rename oldpath newpath

/-- Where a descriptor writes next. -/
def Desc.position (c : Desc) : Option Nat := if c.append then none else some c.offset

/-- What the program sees, when the content of the inodes is `C`. -/
def World.plain (w : World) (C : Nat → List Byte) : Posix String Byte where
  dir := w.tables.dir
  fds := w.tables.fds
  position k := (w.descs k).position
  writable k := (w.descs k).writable
  content := C

/-- Data for which a ring may have no room beside a part of a block. -/
def Refuses (cfg : Config) (data : List Byte) : Prop := capOf cfg.nvmSize < blockSize - 1 + data.length

section
variable {cfg : Config} {P : String → Prop} {dur : Prop} {C : Nat → List Byte} {w w' w₀ : World} {fd : Nat} {r : Int}

theorem World.plain_descs (h : w'.descs = w.descs) (C : Nat → List Byte) :
    w'.plain C = { w.plain C with dir := w'.tables.dir, fds := w'.tables.fds } := by
  simp only [World.plain, h]

theorem World.plain_calm (h : Calm none w w') (hdir : w'.tables.dir = w.tables.dir) (C : Nat → List Byte) :
    w'.plain C = w.plain C := by
  rw [World.plain_descs h.descs, h.fds, hdir]
  rfl

theorem WTicks.plain (h : WTicks w w') (C : Nat → List Byte) : w'.plain C = w.plain C :=
  World.plain_calm h.calm (by rw [h.tables]) C

/-! ## Results -/

/-- `unlink` and `rename` return `0` or `-1`. -/
def Answer (r : Int) : Prop := r = 0 ∨ r = -1

theorem result_found {o : Option Nat} (h : r = 0 ↔ o ≠ none) (hr : Answer r) : r = Posix.found o := by
  cases o with
  | none =>
    rcases hr with rfl | rfl
    · exact absurd rfl (h.mp rfl)
    · rfl
  | some i => exact h.mpr (by simp)

theorem answer_zero : (pure 0 : Cmd Syscall World Int).Yields Answer := Cmd.yields_pure (Or.inl rfl)

theorem answer_error : (pure (-1) : Cmd Syscall World Int).Yields Answer := Cmd.yields_pure (Or.inr rfl)

theorem answer_ok (ok : Bool) : (pure (if ok then 0 else -1) : Cmd Syscall World Int).Yields Answer := by
  cases ok with
  | true => exact answer_zero
  | false => exact answer_error

theorem yields_unlink (file : String) : (unlink cfg file).Yields Answer := by
  refine Cmd.yields_bind (fun ok => Cmd.yields_ite (Cmd.yields_ite ?_ answer_zero) answer_error) _
  exact Cmd.yields_bind (fun found => Cmd.yields_ite (Cmd.yields_bind answer_ok _) answer_zero) _

theorem yields_rename (old new : String) : (rename cfg old new).Yields Answer := by
  have hentries : (renameEntries old new).Yields Answer :=
    Cmd.yields_bind (fun capacity => Cmd.yields_bind answer_ok _) _
  refine Cmd.yields_bind (fun ok => Cmd.yields_ite (Cmd.yields_ite (Cmd.yields_ite ?_ ?_) (Cmd.yields_ite ?_ hentries))
    answer_error) _
  · exact Cmd.yields_bind (fun ok => Cmd.yields_ite hentries answer_error) _
  · exact Cmd.yields_bind (fun capacity => Cmd.yields_bind (fun ok => Cmd.yields_ite hentries answer_zero) _) _
  · exact Cmd.yields_bind (fun ok => Cmd.yields_ite hentries answer_error) _

theorem syncCall_result (h : Linked cfg P w.tables) :
    wwp (fun _ => True) (syncCall cfg fd) (fun r _ => r = Posix.found (w.tables.fds fd)) w := by
  unfold syncCall
  simp only [wwp, Cmd.wp_bind, Cmd.wp_get, Cmd.wp_ite, Cmd.wp_pure, h.entry]
  constructor
  · intro hoff
    obtain ⟨n, hn⟩ := Option.isSome_iff_exists.mp (by simpa using (Bool.and_eq_true_iff.mp hoff).2)
    obtain ⟨i, hi⟩ := h.guards hn
    rw [hi.2]
    rfl
  · intro _
    unfold syscallFsync
    simp only [Cmd.wp_bind, wwp_succeeds, Cmd.wp_get, if_true]
    cases hfd : w.tables.fds fd with
    | none => rfl
    | some i => exact (Cmd.wp_bind ..).mpr (Cmd.wp_step fun _ _ => ⟨trivial, rfl⟩)

theorem syscallClose_result {o : Option Nat} (h : w.tables.fds fd = o) :
    wwp (fun _ => True) (syscallClose fd) (fun r _ => r = Posix.found o) w := by
  refine wwp_syscallClose (fun hnone => ?_) fun w₁ i hi _ => ⟨trivial, ?_⟩
  · rw [← h, hnone]
    rfl
  · rw [← h, hi]
    rfl

theorem close_result (h : Sound cfg P dur C w) :
    wwp (fun _ => True) (close fd) (fun r _ => r = Posix.found (w.tables.fds fd)) w := by
  unfold close
  simp only [wwp, Cmd.wp_bind, Cmd.wp_get, Cmd.wp_ite, wwp_setTables]
  have hrun : (w.tables.fdTable fd).aofguard.isSome → (w.guards (some fd)).thread ≠ .exited := h.not_exited
  refine ⟨fun _ => wwp_dropGuard ?_ (fun _ => ?_) fun n w₁ _ ht => ⟨trivial, ?_⟩, fun _ => syscallClose_result rfl⟩
  · simpa [Tables.setEntry] using hrun
  · simp only [true_implies, not_true_eq_false, false_implies, and_true]
    exact syscallClose_result rfl
  · simp only [true_implies, not_true_eq_false, false_implies, and_true]
    refine syscallClose_result ?_
    simp [World.dropped, Tables.setEntry, ht.tables]

/-! ## `write` -/

/-- A guard refuses only what may not fit. -/
theorem write_fits {i : Nat} {n : NvmIno} {data : List Byte} (hn : SizeOk cfg.nvmSize) (h : Sound cfg P dur C w)
    (hg : w.tables.Guards fd n i) (hok : WriteOk fd data w) (hlen : data.length ≠ 0) :
    wwp (fun _ => True) (write fd data) (fun r _ => r = -1 → Refuses cfg data) w := by
  obtain ⟨hl, hk⟩ := h
  have hguard := hk.guard fd n i hg (by simp)
  rw [hg.port] at hguard
  have h48 := hok n i hg
  rw [show (w.files i).data = C i from hguard.data] at h48
  unfold write
  simp only [wwp, if_neg hlen, Cmd.wp_bind, Cmd.wp_get, hl.entry, hg.1, hg.port, Cmd.wp_pure]
  refine Cmd.wp_conseq (wwp_alone hk.weaken (hl.apart_guard hg) (fun _ _ _ _ _ => trivial)
    (aofguardWrite_spec (answers_zero _) (succeed_zero _) hn.blocks hguard (by omega) (by omega))) ?_
  rintro ok w' ⟨-, -, -, -, hfits⟩ hr
  by_contra hnot
  have hmod : (Port.view ⟨i, n, fd, some fd⟩ w).guard.len % blockSize < blockSize := Nat.mod_lt _ (by decide)
  have hok : ok = true := hfits (by simp) (by unfold Refuses at hnot; omega)
  rw [hok, if_pos rfl] at hr
  omega

theorem Desc.write_position (c : Desc) (f : File) {d : List Byte} (hd : d.length ≠ 0) :
    (c.write f d).1.data = Posix.put 0 f.data c.position d ∧ (c.write f d).2.position = c.position.map (· + d.length) := by
  unfold Desc.write Desc.position
  rw [if_neg hd]
  cases happ : c.append with
  | true =>
    refine ⟨?_, by simp⟩
    simp [File.pwrite, Posix.put]
  | false => exact ⟨by simp [File.pwrite, Posix.put], by simp⟩

theorem write_bare {i : Nat} {data : List Byte} (h : Sound cfg P dur C w) (hfd : w.tables.fds fd = some i)
    (hg : (w.tables.fdTable fd).aofguard = none) (hlen : data.length ≠ 0) :
    wwp (fun _ => True) (write fd data) (fun r w' =>
      (r = -1 ∧ w' = w ∧ ((w.descs fd).writable = false ∨ 2 ^ 63 ≤ data.length)) ∨
      (r = data.length ∧ (w.descs fd).writable = true ∧ ∃ w₁, WTicks w w₁ ∧
        w' = Port.put ⟨i, ("", 0), fd, none⟩ ((Port.view ⟨i, ("", 0), fd, none⟩ w₁).write data) w₁)) w := by
  unfold write
  simp only [wwp, if_neg hlen, Cmd.wp_bind, Cmd.wp_get, h.linked.entry, hg, hfd, Cmd.wp_pure]
  refine wwp_syscallWrite (fun hbad => Or.inl ⟨rfl, rfl, hbad⟩) fun w₁ hwritable hshort ht => ⟨trivial, Or.inr ?_⟩
  refine ⟨?_, hwritable, w₁, ht, rfl⟩
  rw [if_neg (by omega)]

theorem refuses_huge (hn : SizeOk cfg.nvmSize) {data : List Byte} (h : 2 ^ 63 ≤ data.length) : Refuses cfg data := by
  obtain ⟨-, hle⟩ := hn
  have hcap : capOf cfg.nvmSize ≤ blockSize * 65536 := Nat.mul_le_mul_left _ hle
  have hblock : blockSize = 2 ^ 20 := rfl
  unfold Refuses
  omega

/-- The descriptor `fd` has written `data`. -/
theorem World.plain_wrote {i : Nat} {data : List Byte} (htables : w'.tables = w.tables)
    (hothers : ∀ k, k ≠ fd → w'.descs k = w.descs k)
    (hpos : (w'.descs fd).position = (w.descs fd).position.map (· + data.length))
    (hwritable : (w'.descs fd).writable = (w.descs fd).writable) :
    w'.plain (Function.update C i (Posix.put 0 (C i) (w.descs fd).position data)) = (w.plain C).wrote 0 fd i data := by
  refine Posix.ext ?_ ?_ (funext fun k => ?_) (funext fun k => ?_) rfl
  · simp only [World.plain, Posix.wrote, htables]
  · simp only [World.plain, Posix.wrote, htables]
  · simp only [World.plain, Posix.wrote]
    by_cases hk : k = fd
    · rw [hk, Function.update_self, hpos]
    · rw [Function.update_of_ne hk, hothers k hk]
  · simp only [World.plain, Posix.wrote]
    by_cases hk : k = fd
    · rw [hk, hwritable]
    · rw [hothers k hk]

/-- `write` through a descriptor without a guard. -/
theorem does_write_bare {i : Nat} {data : List Byte} (hn : SizeOk cfg.nvmSize) (h : Sound cfg P dur C w)
    (hfd : w.tables.fds fd = some i) (hg : (w.tables.fdTable fd).aofguard = none) (hlen : data.length ≠ 0)
    (hok : WriteOk fd data w) (hr : Cmd.Run WTicks (fun _ k => k = 0) (write fd data) w r w') :
    ∃ C', Sound cfg P dur C' w' ∧ Posix.Does 0 (Refuses cfg) (.write fd data) r (w.plain C) (w'.plain C') := by
  have hdata : data ≠ [] := fun hnil => hlen (by rw [hnil]; rfl)
  rcases Cmd.wp_run (write_bare h hfd hg hlen) hr with ⟨rfl, rfl, hbad⟩ | ⟨rfl, hwritable, w₁, ht, hw'⟩
  · exact ⟨C, h, .refused (Or.inr (hbad.imp_right (refuses_huge hn))) hdata⟩
  · obtain ⟨htables, C', h', hothers, -, -, -⟩ := Cmd.wp_run (write_sound hn h hok) hr
    refine ⟨C', h', ?_⟩
    obtain ⟨hput, hpos⟩ := Desc.write_position (w.descs fd) (w₁.files i) hlen
    have hC : C' = Function.update C i (Posix.put 0 (C i) (w.descs fd).position data) := by
      funext j
      by_cases hj : j = i
      · subst hj
        rw [Function.update_self, ← h'.keeps.bare fd j (by rw [htables, hfd]) (by rw [htables, hg]) (by simp), hw']
        simp only [Port.put, Port.view, Sys.write, Function.update_self]
        rw [ht.descs, hput, ht.data, h.keeps.bare fd j hfd hg (by simp)]
      · rw [Function.update_of_ne hj]
        exact hothers j fun heq => hj (Option.some.inj (hfd.symm.trans heq)).symm
    have hdescs : w'.descs = Function.update w.descs fd ((w.descs fd).write (w₁.files i) data).2 := by
      rw [hw', ← ht.descs fd, ← funext ht.descs]
      rfl
    have hwrote : w'.plain C' = (w.plain C).wrote 0 fd i data := by
      rw [hC]
      refine World.plain_wrote htables (fun k hk => ?_) ?_ ?_
      · rw [hdescs, Function.update_of_ne hk]
      · rw [hdescs, Function.update_self, hpos]
      · rw [hdescs, Function.update_self, (Desc.same_write _ _ _).writable]
    rw [hwrote]
    exact .wrote hfd hwritable hdata

theorem Guard.writable {err app dur : Prop} {cap : Nat} {L : List Byte} {s : Sys} (h : Guard err app dur cap L s) :
    s.desc.writable = true := by
  obtain ⟨fl, st, ln, bc, x, hlive, -⟩ := h
  exact hlive.writable

/-- `write` through a descriptor with a guard. -/
theorem does_write_guarded {i : Nat} {n : NvmIno} {data : List Byte} (hn : SizeOk cfg.nvmSize) (h : Sound cfg P dur C w)
    (hg : w.tables.Guards fd n i) (hlen : data.length ≠ 0) (hok : WriteOk fd data w)
    (hr : Cmd.Run WTicks (fun _ k => k = 0) (write fd data) w r w') :
    ∃ C', Sound cfg P dur C' w' ∧ Posix.Does 0 (Refuses cfg) (.write fd data) r (w.plain C) (w'.plain C') := by
  have hdata : data ≠ [] := fun hnil => hlen (by rw [hnil]; rfl)
  have hguard := h.keeps.guard fd n i hg (by simp)
  rw [hg.port] at hguard
  have happ : (w.descs fd).append = true := hguard.append
  have hpos : (w.descs fd).position = none := if_pos happ
  obtain ⟨htables, L', hL, h', -⟩ := Cmd.wp_run (write_guarded hn h hg hok hlen) hr
  have hcalm := run_calm hr (moves_write fd data)
  have hothers : ∀ k, k ≠ fd → w'.descs k = w.descs k := fun k hk =>
    hcalm.desc k fun heq => hk (Option.some.inj heq).symm
  have hpos' : (w'.descs fd).position = none := if_pos ((hcalm.mode fd).append.trans happ)
  refine ⟨_, h', ?_⟩
  unfold Written at hL
  split_ifs at hL with hrefused
  · subst hL hrefused
    rw [Function.update_eq_self]
    have hsame : w'.plain C = w.plain C := by
      refine Posix.ext ?_ ?_ (funext fun k => ?_) (funext fun k => ?_) rfl
      · simp only [World.plain, htables]
      · simp only [World.plain, htables]
      · by_cases hk : k = fd
        · subst hk
          exact hpos'.trans hpos.symm
        · exact congrArg Desc.position (hothers k hk)
      · exact (hcalm.mode k).writable
    rw [hsame]
    exact .refused (Or.inr (Or.inr (Cmd.wp_run (write_fits hn h hg hok hlen) hr rfl))) hdata
  · obtain ⟨rfl, hL⟩ := hL
    have hput : L' = Posix.put 0 (C i) (w.descs fd).position data := by
      rw [hpos, hL happ]
      rfl
    have hnext : (w'.descs fd).position = (w.descs fd).position.map (· + data.length) := by
      rw [hpos, hpos']
      rfl
    rw [hput, World.plain_wrote htables hothers hnext (hcalm.mode fd).writable]
    exact .wrote hg.2 hguard.writable hdata

theorem does_write {data : List Byte} (hn : SizeOk cfg.nvmSize) (h : Sound cfg P dur C w) (hok : WriteOk fd data w)
    (hr : Cmd.Run WTicks (fun _ k => k = 0) (write fd data) w r w') :
    ∃ C', Sound cfg P dur C' w' ∧ Posix.Does 0 (Refuses cfg) (.write fd data) r (w.plain C) (w'.plain C') := by
  by_cases hlen : data.length = 0
  · obtain rfl := List.eq_nil_of_length_eq_zero hlen
    rw [write, if_pos List.length_nil] at hr
    obtain ⟨rfl, rfl⟩ := Cmd.run_pure_iff.mp hr
    exact ⟨C, h, .nothing⟩
  · cases hfd : w.tables.fds fd with
    | some i =>
      cases hg : (w.tables.fdTable fd).aofguard with
      | some n => exact does_write_guarded hn h ⟨hg, hfd⟩ hlen hok hr
      | none => exact does_write_bare hn h hfd hg hlen hok hr
    | none =>
      have hsame : wwp (fun _ => True) (write fd data) (fun r w' => r = -1 ∧ w' = w) w := by
        have hblank := h.linked.closed fd hfd
        unfold write
        simp only [wwp, if_neg hlen, Cmd.wp_bind, Cmd.wp_get, h.linked.entry, hblank, Filedes.blank, hfd, Cmd.wp_pure]
        exact ⟨trivial, trivial⟩
      obtain ⟨rfl, rfl⟩ := Cmd.wp_run hsame hr
      exact ⟨C, h, .refused (Or.inl hfd) fun hnil => hlen (by rw [hnil]; rfl)⟩

/-! ## `open` -/

theorem openAt_absent {place file : String} {flags : Flags} (hdir : w.tables.dir place = none)
    (hcreat : flags.creat = false) :
    wwp (fun _ => True) (openAt cfg place file flags fd) (fun r w' => r = -1 ∧ WTicks w w') w := by
  unfold openAt
  simp only [wwp, Cmd.wp_bind]
  refine wwp_syscallOpen fun w₁ ht => ⟨trivial, fun i hi => ?_, fun _ hc => ?_, fun _ _ => ⟨rfl, ht⟩⟩
  · rw [ht.tables, hdir] at hi
    cases hi
  · rw [hcreat] at hc
    cases hc

/-- The descriptor `fd` has been opened on the inode `i`. -/
theorem World.plain_opened {flags : Flags} {i : Nat} {p : Posix String Byte} {C' : Nat → List Byte}
    (hdir : w'.tables.dir = p.dir) (hfds : w'.tables.fds = Function.update p.fds fd (some i))
    (hothers : ∀ k, k ≠ fd → (w'.descs k).position = p.position k ∧ (w'.descs k).writable = p.writable k)
    (hmode : Desc.Same ⟨flags.append, flags.writable, 0⟩ (w'.descs fd))
    (hstart : flags.append = false → w'.descs fd = ⟨flags.append, flags.writable, 0⟩)
    (hC : C' = if flags.trunc then Function.update p.content i [] else p.content) :
    w'.plain C' = p.opened flags.mode fd i := by
  refine Posix.ext hdir hfds (funext fun k => ?_) (funext fun k => ?_) hC
  · simp only [World.plain, Posix.opened]
    by_cases hk : k = fd
    · subst hk
      rw [Function.update_self]
      by_cases happ : flags.mode.append = true
      · rw [if_pos happ]
        exact if_pos (hmode.append.trans happ)
      · rw [if_neg happ, hstart (Bool.eq_false_of_not_eq_true happ)]
        exact if_neg happ
    · rw [Function.update_of_ne hk, (hothers k hk).1]
  · simp only [World.plain, Posix.opened]
    by_cases hk : k = fd
    · subst hk
      rw [Function.update_self]
      exact hmode.writable
    · rw [Function.update_of_ne hk, (hothers k hk).2]

theorem does_openAt {place file : String} {flags : Flags} (hn : SizeOk cfg.nvmSize) (hnames : NoCollision cfg P)
    (h : Sound cfg P dur C w) (hok : OpenOk cfg P place file flags fd w.tables)
    (hr : Cmd.Run WTicks (fun _ k => k = 0) (openAt cfg place file flags fd) w r w') :
    ∃ C', Sound cfg P dur C' w' ∧
      Posix.Does 0 (Refuses cfg) (.openFile file flags.mode fd) r (w.plain C) (w'.plain C') := by
  obtain ⟨h', hret, hdir, -, -, -⟩ := Cmd.wp_run (openAt_sound hn hnames h hok) hr
  have hplain : flags.append = false → cfg.needNvm file = false := by
    intro happ
    by_contra hneed
    rw [(hok.append (by simpa using hneed)).1] at happ
    cases happ
  -- the call has not failed, so that it has left a descriptor of `i`
  have hopened : ∀ i, r = fd → w'.tables.fds fd = some i → ∀ p : Posix String Byte, w'.tables.dir = p.dir →
      p.fds = w.tables.fds → (∀ k, p.position k = (w.descs k).position ∧ p.writable k = (w.descs k).writable) →
      (openedContent C w.tables file flags = if flags.trunc then Function.update p.content i [] else p.content) →
      w'.plain (openedContent C w.tables file flags) = p.opened flags.mode fd i := by
    intro i hfd hi p hpdir hpfds hpdesc hpC
    rcases run_openAt hr with ⟨j, hfds, hothers, hmode, hstart⟩ | hfail
    · obtain rfl : j = i := by
        rw [hfds, Function.update_self] at hi
        exact Option.some.inj hi
      refine World.plain_opened hpdir (by rw [hfds, hpfds]) (fun k hk => ?_) hmode (fun happ => hstart (hplain happ)) hpC
      rw [hothers k hk, (hpdesc k).1, (hpdesc k).2]
      exact ⟨rfl, rfl⟩
    · omega
  refine ⟨_, h', ?_⟩
  cases hfound : w.tables.dir file with
  | some i =>
    obtain ⟨hfd, j, hj, hfds⟩ := hret (Or.inl (by rw [hfound]; simp))
    have hdir' : w'.tables.dir = w.tables.dir := by rw [hdir, openedDir, hfound]
    obtain rfl : j = i := by
      rw [hdir', hfound] at hj
      exact (Option.some.inj hj).symm
    rw [hopened j hfd hfds (w.plain C) hdir' rfl (fun _ => ⟨rfl, rfl⟩) (by rw [openedContent, hfound]; rfl), hfd]
    exact .opened hfound
  | none =>
    cases hcreat : flags.creat with
    | true =>
      obtain ⟨hfd, j, hj, hfds⟩ := hret (Or.inr hcreat)
      have hdir' : w'.tables.dir = Function.update w.tables.dir file (some w.tables.inos) := by
        rw [hdir, openedDir, hfound]
        exact if_pos hcreat
      obtain rfl : w.tables.inos = j := by
        rw [hdir', Function.update_self] at hj
        exact Option.some.inj hj
      rw [hopened _ hfd hfds ((w.plain C).created file w.tables.inos) hdir' rfl (fun _ => ⟨rfl, rfl⟩) ?_, hfd]
      · refine .created hfound hcreat ⟨fun q hq => ?_, fun k hk => ?_⟩
        · exact absurd (h.linked.dir_lt q _ hq) (Nat.lt_irrefl _)
        · exact absurd (h.linked.fds_lt k _ hk) (Nat.lt_irrefl _)
      · simp [openedContent, hfound, hcreat, Posix.created, World.plain]
    | false =>
      obtain ⟨rfl, ht⟩ := Cmd.wp_run (openAt_absent (hok.place ▸ hfound) hcreat) hr
      have hC : openedContent C w.tables file flags = C := by
        rw [openedContent, hfound]
        exact if_neg (by simp [hcreat])
      rw [hC, ht.plain]
      exact .missing hfound hcreat

/-! ## The other calls -/

theorem does_sync (h : Sound cfg P dur C w) (hr : Cmd.Run WTicks (fun _ k => k = 0) (syncCall cfg fd) w r w') :
    ∃ C', Sound cfg P dur C' w' ∧ Posix.Does 0 (Refuses cfg) (.sync fd) r (w.plain C) (w'.plain C') := by
  obtain ⟨htables, h', -, -⟩ := Cmd.wp_run (syncCall_sound h) hr
  refine ⟨C, h', ?_⟩
  rw [World.plain_calm (run_calm hr (moves_syncCall fd)) (by rw [htables]), Cmd.wp_run (syncCall_result h.linked) hr]
  exact Posix.Does.sync (p := w.plain C)

abbrev SameDescs (w w' : World) : Prop := w'.descs = w.descs

/-- `close` only takes a descriptor away. -/
theorem moves_close (fd : Nat) : (close fd).Moves SameDescs := by
  have hget : ∀ {α : Type} (f : World → α), (Cmd.get f : Cmd Syscall World α).Moves SameDescs :=
    Cmd.moves_get fun _ => rfl
  have hclose : (syscallClose fd).Moves SameDescs := by
    refine Cmd.moves_bind (Cmd.moves_succeeds _) fun ok => Cmd.moves_bind (hget _) fun ino => ?_
    exact Cmd.moves_ite (Cmd.moves_bind (Cmd.moves_step fun _ => rfl) fun _ => Cmd.moves_pure _) (Cmd.moves_pure _)
  have hdrop : (dropGuard fd).Moves SameDescs := (moves_dropGuard (x := none) fd).mono fun _ _ hcalm => hcalm.descs
  refine Cmd.moves_bind (hget _) fun capacity => Cmd.moves_ite ?_ hclose
  refine Cmd.moves_bind (Cmd.moves_modify fun _ => rfl) fun _ => ?_
  exact Cmd.moves_bind hdrop fun ok => Cmd.moves_ite hclose (Cmd.moves_pure _)

theorem run_close (hr : Cmd.Run WTicks (fun _ k => k = 0) (close fd) w r w') : SameDescs w w' :=
  hr.moves (P := SameDescs) (fun _ => rfl) (fun _ _ _ h h' => Eq.trans h' h) (fun _ _ ht => funext ht.descs) (moves_close fd)

theorem does_close (h : Sound cfg P dur C w) (hok : CloseOk cfg fd w)
    (hr : Cmd.Run WTicks (fun _ k => k = 0) (close fd) w r w') :
    ∃ C', Sound cfg P dur C' w' ∧ Posix.Does 0 (Refuses cfg) (.close fd) r (w.plain C) (w'.plain C') := by
  obtain ⟨htables, h', -⟩ := Cmd.wp_run (close_sound h hok) hr
  refine ⟨C, h', ?_⟩
  rw [World.plain_descs (run_close hr), htables, Cmd.wp_run (close_result h) hr]
  exact Posix.Does.close (p := w.plain C)

theorem does_unlink {file : String} (hnames : NoCollision cfg P) (h : Sound cfg P dur C w) (hfile : P file)
    (hr : Cmd.Run WTicks (fun _ k => k = 0) (unlink cfg file) w r w') :
    ∃ C', Sound cfg P dur C' w' ∧ Posix.Does 0 (Refuses cfg) (.unlink file) r (w.plain C) (w'.plain C') := by
  obtain ⟨hunlinked, hret⟩ := Cmd.wp_run (unlink_sound hnames h hfile) hr
  have hcalm := run_calm (x := none) hr (moves_unlink file)
  refine ⟨C, hunlinked.sound, ?_⟩
  rw [World.plain_descs hcalm.descs, hunlinked.dir, hunlinked.fds, result_found hret (hr.yields (yields_unlink file))]
  exact Posix.Does.unlink (p := w.plain C)

theorem does_rename {old new : String} (hn : SizeOk cfg.nvmSize) (hnames : NoCollision cfg P) (h : Sound cfg P dur C w)
    (hok : RenameOk cfg P dur old new w) (hr : Cmd.Run WTicks (fun _ k => k = 0) (rename cfg old new) w r w') :
    ∃ C', Sound cfg P dur C' w' ∧ Posix.Does 0 (Refuses cfg) (.rename old new) r (w.plain C) (w'.plain C') := by
  obtain ⟨hrenamed, hret⟩ := Cmd.wp_run (rename_sound hn hnames h hok) hr
  have hcalm := run_calm (x := none) hr (moves_rename old new)
  have hsame : w'.plain C = (w.plain C).renamed old new := by
    rw [World.plain_descs hcalm.descs, hrenamed.dir, hrenamed.fds]
    by_cases hstay : old = new ∨ w.tables.dir old = none
    · rw [Tables.moveFile, if_pos hstay]
      exact (if_pos hstay).symm
    · rw [Tables.moveFile, if_neg hstay]
      exact (if_neg hstay).symm
  refine ⟨C, hrenamed.sound, ?_⟩
  rw [hsame, result_found hret (hr.yields (yields_rename old new))]
  exact Posix.Does.rename (p := w.plain C)

/-- A call is one of the plain file system. -/
theorem Sound.does {c : Call} (hn : SizeOk cfg.nvmSize) (hnames : NoCollision cfg P) (h : Sound cfg P dur C w)
    (hok : c.Ok cfg P dur w) (hr : Cmd.Run WTicks (fun _ k => k = 0) (c.cmd cfg) w r w') :
    ∃ C', Sound cfg P dur C' w' ∧ Posix.Does 0 (Refuses cfg) c.plain r (w.plain C) (w'.plain C') := by
  cases c with
  | openAt place file flags fd => exact does_openAt hn hnames h hok hr
  | write fd data => exact does_write hn h hok hr
  | fsync fd => exact does_sync h hr
  | fdatasync fd => exact does_sync h hr
  | close fd => exact does_close h hok hr
  | unlink file => exact does_unlink hnames h hok hr
  | rename old new => exact does_rename hn hnames h hok hr

/-! ## Runs -/

/-- Calls under their conditions beside the threads, with their results. -/
inductive Intercepted (cfg : Config) (P : String → Prop) (w₀ : World) : List (Call × Int) → World → Prop
  | start : Intercepted cfg P w₀ [] w₀
  | thread {trace : List (Call × Int)} {w w' : World} : Intercepted cfg P w₀ trace w → WTick w w' →
      Intercepted cfg P w₀ trace w'
  | call {trace : List (Call × Int)} {w w' : World} {c : Call} {r : Int} : Intercepted cfg P w₀ trace w →
      c.Ok cfg P False w → Cmd.Run WTicks (fun _ k => k = 0) (c.cmd cfg) w r w' →
      Intercepted cfg P w₀ (trace ++ [(c, r)]) w'

variable {trace : List (Call × Int)}

/-- What the program sees of a run. -/
def plainTrace (trace : List (Call × Int)) : List (Posix.Call String Byte × Int) := trace.map fun e => (e.1.plain, e.2)

theorem Intercepted.runs {C₀ : Nat → List Byte} (hn : SizeOk cfg.nvmSize) (hnames : NoCollision cfg P)
    (h₀ : Sound cfg P False C₀ w₀) (h : Intercepted cfg P w₀ trace w) :
    ∃ C, Sound cfg P False C w ∧ Posix.Runs 0 (Refuses cfg) (w₀.plain C₀) (plainTrace trace) (w.plain C) := by
  induction h with
  | start => exact ⟨C₀, h₀, .start⟩
  | thread _ ht ih =>
    obtain ⟨C, hs, hruns⟩ := ih
    refine ⟨C, hs.env (.single ht), ?_⟩
    rwa [WTicks.plain (.single ht)]
  | call _ hok hr ih =>
    obtain ⟨C, hs, hruns⟩ := ih
    obtain ⟨C', hs', hdoes⟩ := hs.does hn hnames hok hr
    refine ⟨C', hs', ?_⟩
    rw [plainTrace, List.map_append]
    exact hruns.call hdoes

/-- **Transparency.** A run of the intercepted calls returns what a plain file system returns, except that it may refuse data
for which a ring may have no room. The open files, and those that match no pattern, hold the content; and so does a closed
log, when its NVM file is read with it. -/
theorem intercepted_posix (hn : SizeOk cfg.nvmSize) (hnames : NoCollision cfg P) (h₀ : Initial cfg P False w₀)
    (h : Intercepted cfg P w₀ trace w) :
    ∃ C, Posix.Runs 0 (Refuses cfg) (w₀.plain fun i => (w₀.files i).data) (plainTrace trace) (w.plain C) ∧
      (∀ k i, w.tables.fds k = some i → (w.files i).data = C i) ∧
      ∀ q i, P q → w.tables.dir q = some i → (∀ k, w.tables.fds k ≠ some i) → heldBy cfg w q i = C i := by
  obtain ⟨C, hs, hruns⟩ := h.runs hn hnames h₀.sound
  refine ⟨C, hruns, fun k i hi => hs.opened_data hi, fun q i hq hi hclosed => ?_⟩
  exact heldBy_sound hn hs hq hi fun k n hg => absurd hg.2 (hclosed k)

end

theorem intercepted_posix_record : ∃ (w : World) (C : Nat → List Byte),
    Posix.Runs 0 (Refuses logConfig) (logWorld.plain fun i => (logWorld.files i).data)
      [(.openFile "m.log" ⟨true, false, true, true⟩ 3, 3), (.write 3 [1, 2], 2)] (w.plain C) ∧
    w.tables.fds 3 = some 1 ∧ (w.files 1).data = C 1 := by
  have htest : (((createLog.cmd logConfig).exec logWorld).any fun r₁ =>
      r₁.1 == 3 && r₁.2.tables.fds 3 == some 1 && decide ((r₁.2.files 1).data = []) &&
        ((((Call.write 3 [1, 2]).cmd logConfig).exec r₁.2).any fun r₂ => r₂.1 == 2 && r₂.2.tables.fds 3 == some 1)) =
      true := by
    decide +kernel
  obtain ⟨⟨r₁, w₁⟩, hr₁, htest⟩ := (Option.any_eq_true _ _).mp htest
  simp only [Bool.and_eq_true, beq_iff_eq, decide_eq_true_eq] at htest
  obtain ⟨⟨⟨rfl, hfd⟩, hdata⟩, htest⟩ := htest
  obtain ⟨⟨r₂, w₂⟩, hr₂, htest⟩ := (Option.any_eq_true _ _).mp htest
  simp only [Bool.and_eq_true, beq_iff_eq] at htest
  obtain ⟨rfl, hfd'⟩ := htest
  have hinit : Initial logConfig (fun _ => True) False logWorld := { initial_logWorld with durable := False.elim }
  have hcreate : createLog.Ok logConfig (fun _ => True) False logWorld :=
    ⟨rfl, trivial, rfl, fun _ => ⟨rfl, rfl, rfl⟩, by simp [logWorld]⟩
  have hok : (Call.write 3 [1, 2]).Ok logConfig (fun _ => True) False w₁ := by
    rintro n i ⟨-, hi⟩
    rw [hfd] at hi
    cases hi
    rw [hdata]
    decide
  have hrun : Intercepted logConfig (fun _ => True) logWorld [(createLog, 3), (.write 3 [1, 2], 2)] w₂ :=
    (Intercepted.start.call hcreate (exec_calls hr₁)).call hok (exec_calls hr₂)
  obtain ⟨C, hruns, hfiles, -⟩ := intercepted_posix sizeOk_twoBlocks noCollision_logConfig hinit hrun
  exact ⟨w₂, C, hruns, hfd', hfiles 3 1 hfd'⟩

end PmemProgram.Wal
