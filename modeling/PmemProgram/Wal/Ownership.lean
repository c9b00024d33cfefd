import Mathlib
import PmemProgram.Wal.Reboot
import PmemProgram.Wal.Reopen
import PmemProgram.Wal.Table

/-!
# Whose bytes a ring holds

* `ring_ownership` : in every run that opens each log by one path and one descriptor at a time, no two guards map one NVM
  file and a ring holds the tail of its own file, so that `open` leaves what was there; `shared_ring` is a log opened twice;
* `rename_preserves` : under its condition, `rename` keeps what the file holds, whichever names match the pattern and
  whatever is open; `leftover_replayed` is a new log that gets the bytes of an old one.
-/

namespace PmemProgram.Wal
open PmemProgram.Lib PmemProgram.Lib.Ring

section
variable {cfg : Config} {P : String → Prop} {dur : Prop} {T : Tables} {C : Nat → List Byte} {w w' w₀ : World} {i : Nat}

/-! ## Opening a file once more -/

/-- A log that is open can be opened once more. -/
theorem openAt_again {q : String} {flags : Flags} {fd k : Nat} {n : NvmIno} (hn : SizeOk cfg.nvmSize)
    (h : Sound cfg P dur C w) (hq : Logs cfg P q) (hdir : w.tables.dir q = some i) (hg : w.tables.Guards k n i)
    (hroom : (w.guards (some k)).len ≠ capOf cfg.nvmSize) (hfd : w.tables.fds fd = none) (happ : flags.append = true)
    (hw : flags.writable = true) (htrunc : flags.trunc = false) :
    wwp (fun _ => True) (openAt cfg q q flags fd) (fun r w' => r = fd ∧ w'.tables.fds fd = some i ∧
      (w'.files i).data = C i) w := by
  unfold openAt
  simp only [wwp, Cmd.wp_bind]
  refine wwp_syscallOpen fun w₁ ht => ⟨trivial, fun j hj => ?_, fun hnone => ?_, fun hnone => ?_⟩
  · have hl := h.linked
    have h₁ := h.env ht
    rw [ht.tables, hdir] at hj
    cases hj
    have hguard := h₁.keeps.guard k n i (by rwa [ht.tables]) (by simp)
    rw [ht.tables, hg.port] at hguard
    have hlen : (w₁.guards (some k)).len < capOf cfg.nvmSize := by
      refine lt_of_le_of_ne hguard.len_le ?_
      rw [ht.len]
      exact hroom
    obtain ⟨fl, st, ln, bc, x, hlive, hx, hh, -⟩ := hguard
    have hdata : (w₁.files i).data = C i := (hlive.file trivial).data
    have hln : ln < capOf cfg.nvmSize := hlive.len ▸ hlen
    have h48 := h.keeps.small i (Or.inl ⟨q, hq, hdir⟩)
    have hsplit := hh.split
    have hport : (w₁.opened flags fd i).tables.port fd n none = ⟨i, n, fd, none⟩ := by
      simp [Tables.port, World.opened]
    have hnvmDir : (w₁.opened flags fd i).tables.nvmDir (cfg.nvmFileName q) = n := by
      change w₁.tables.nvmDir _ = n
      rw [ht.tables]
      exact (hl.link k n i q hg hq).mp hdir
    have hfile : True → fl ≤ (w₁.files i).data.length ∧ (False → fl ≤ (w₁.files i).synced) ∧
        (w₁.files i).data.take fl = (C i).take fl ∧ flags.append = true :=
      fun _ => ⟨by rw [hdata]; omega, False.elim, by rw [hdata], happ⟩
    have hinit := aofguardInit_reopens (c := ⟨flags.append, flags.writable, 0⟩) silent_drift hn hh hln
      (hh.fsyncLen_lt h48) hw hfile
    rw [if_pos rfl, Cmd.wp_bind]
    apply wwp_handleOpen
    unfold newGuard
    simp only [wwp, hq.2, if_true, Cmd.wp_bind, wwp_succeeds, Cmd.wp_modify, Cmd.wp_get, Cmd.wp_pure, hnvmDir, hport]
    refine Cmd.wp_conseq (wp_port (R := Drift) (I := fun _ => True) (F := fun w' =>
      w'.tables = (w₁.opened flags fd i).tables) (Q := fun ok t => ok = true ∧ t.file.data = C i) (fun _ _ hF => hF)
      (fun w₂ w₃ hF ht₂ => ⟨ht₂.tables.trans hF, ht₂.drift _⟩) (fun _ _ _ => trivial) rfl ?_) ?_
    · have hview : Port.view ⟨i, n, fd, none⟩ { w₁.opened flags fd i with
          guards := Function.update (w₁.opened flags fd i).guards none .blank } =
            .boot (w₁.files i) (some x) ⟨flags.append, flags.writable, 0⟩ := by
        have hnvm : w₁.nvms n = some x := hx
        simp [Port.view, Sys.boot, World.opened, htrunc, hnvm]
      rw [hview]
      refine Cmd.wp_mono (fun _ _ => trivial) ?_ hinit
      rintro ok t ⟨hok, hpost⟩
      exact ⟨hok trivial, (hpost (hok trivial)).1.data⟩
    · rintro ok w' ⟨htables, rfl, hdata⟩
      have hclosed : w.tables.fdTable fd = .blank := hl.closed fd hfd
      simp only [if_true]
      refine ⟨?_, ?_, ?_⟩
      · rw [htables]
        change 0 < w₁.tables.capacity
        rw [ht.tables]
        exact hl.pos
      · rw [htables]
        change (w₁.tables.grow fd).fdTable fd = .blank
        rw [ht.tables, hl.grow, hclosed]
      · refine ⟨trivial, ?_, hdata⟩
        simp [World.registered, Tables.setEntry, Tables.grow, htables, World.opened]
  · rw [ht.tables, hdir] at hnone
    cases hnone
  · rw [ht.tables, hdir] at hnone
    cases hnone

/-- Any file that is there can be opened for appending, and holds then what it has held. -/
theorem openAt_appends {q : String} {flags : Flags} {fd : Nat} (hn : SizeOk cfg.nvmSize) (hnames : NoCollision cfg P)
    (h : Sound cfg P dur C w) (hq : P q) (hdir : w.tables.dir q = some i)
    (hroom : ∀ k n, w.tables.Guards k n i → (w.guards (some k)).len ≠ capOf cfg.nvmSize) (hfd : w.tables.fds fd = none)
    (happ : flags.append = true) (hw : flags.writable = true) (htrunc : flags.trunc = false) :
    Returns (openAt cfg q q flags fd) (fun r w' => r = fd ∧ w'.tables.fds fd = some i ∧ (w'.files i).data = C i) w := by
  refine returns_of_wwp (I := fun _ => True) ?_ (total_openAt _ _ _ _ _)
  by_cases hopen : cfg.needNvm q = true ∧ ∃ k, w.tables.fds k = some i
  · obtain ⟨hneed, k, hk⟩ := hopen
    obtain ⟨n, hg⟩ := h.linked.guarded hneed hdir hk
    exact openAt_again hn h ⟨hq, hneed⟩ hdir hg (hroom k n hg) hfd happ hw htrunc
  · have hok : OpenOk cfg P q q flags fd w.tables := by
      refine ⟨rfl, hq, hfd, fun _ => ⟨happ, hw, htrunc⟩, fun hneed k j hk hj => ?_⟩
      rw [hdir] at hj
      cases hj
      exact hopen ⟨hneed, k, hk⟩
    refine Cmd.wp_mono (fun _ _ => trivial) ?_ (openAt_sound hn hnames h hok)
    rintro r w' ⟨hs, hret, hdirs, -⟩
    obtain ⟨hr, j, hj, hfds⟩ := hret (Or.inl (by simp [hdir]))
    have hlt := h.linked.dir_lt q i hdir
    rw [hdirs, (openedDir_old hlt).mpr hdir] at hj
    cases hj
    refine ⟨hr, hfds, ?_⟩
    rw [hs.opened_data hfds]
    simp [openedContent, hdir, htrunc]

/-! ## Rings and files -/

/-- Every NVM file has one guard at most, and the ring of a guard is the end of the file that its descriptor is open on. -/
structure Owned (w : World) : Prop where
  apart : ∀ k k' n, (w.tables.fdTable k).aofguard = some n → (w.tables.fdTable k').aofguard = some n → k = k'
  tail : ∀ k n i, w.tables.Guards k n i → (w.guards (some k)).fsyncLen + (w.guards (some k)).len = (w.files i).data.length ∧
    logicalLog ((w.tables.port k n (some k)).view w) = (w.files i).data

theorem Sound.owned (h : Sound cfg P dur C w) : Owned w := by
  refine ⟨fun k k' n hg hg' => (h.linked.apart k k' n hg hg').symm, fun k n i hg => ?_⟩
  have hguard := h.keeps.guard k n i hg (by simp)
  rw [hg.port] at hguard ⊢
  have hdata : (w.files i).data = C i := hguard.data
  obtain ⟨fl, st, ln, bc, x, hlive, hx, hh, -⟩ := hguard
  have hfl : (w.guards (some k)).fsyncLen = fl := hlive.fsyncLen
  have hln : (w.guards (some k)).len = ln := hlive.len
  refine ⟨by rw [hfl, hln, hdata]; exact hh.split, ?_⟩
  have hmapped : (Port.view ⟨i, n, k, some k⟩ w).mapped = x := by
    unfold Sys.mapped
    rw [hx]
    rfl
  unfold logicalLog
  rw [hmapped, hlive.fsyncLen, hlive.capacity, hlive.start, hlive.len, hh.ring]
  change (w.files i).data.take fl ++ _ = _
  rw [hdata, List.take_append_drop]

/-- After `open` of the file `file` all files hold what they have held, and a new or truncated one nothing. -/
structure OpenKeeps (cfg : Config) (P : String → Prop) (file : String) (flags : Flags) (w w' : World) : Prop where
  opened : ∀ i, w.tables.dir file = some i → flags.trunc = false → (w'.files i).data = heldBy cfg w file i
  emptied : ∀ i, w'.tables.dir file = some i → (w.tables.dir file = none ∨ flags.trunc = true) → (w'.files i).data = []
  others : ∀ j, j < w.tables.inos → w.tables.dir file ≠ some j → (w'.files j).data = (w.files j).data
  closed : ∀ q j, Logs cfg P q → w.tables.dir q = some j → (∀ k, w.tables.fds k ≠ some j) → w.tables.dir file ≠ some j →
    heldBy cfg w' q j = heldBy cfg w q j

theorem openAt_keeps {place file : String} {flags : Flags} {fd : Nat} (hn : SizeOk cfg.nvmSize) (hnames : NoCollision cfg P)
    (h : Sound cfg P dur C w) (hok : OpenOk cfg P place file flags fd w.tables) :
    wwp (fun _ => True) (openAt cfg place file flags fd) (fun r w' => Owned w' ∧ OpenKeeps cfg P file flags w w' ∧
      (w.tables.dir file ≠ none ∨ flags.creat = true → r = fd)) w := by
  refine Cmd.wp_mono (fun _ _ => trivial) ?_ (openAt_sound hn hnames h hok)
  rintro r w' ⟨hs, hret, hdirs, hinos, hfds, hspares⟩
  have hl := h.linked
  have hunguarded : ∀ i, w.tables.dir file = some i → ∀ k n, ¬ w.tables.Guards k n i := by
    intro i hi k n hg
    cases hneed : cfg.needNvm file with
    | true => exact hok.once hneed k i hg.2 hi
    | false => exact hl.not_plain hg hneed hi
  refine ⟨hs.owned, ⟨fun i hi htrunc => ?_, fun i hi hor => ?_, fun j hj hne => ?_, fun q j hq hj hclosed hne => ?_⟩,
    fun hor => (hret hor).1⟩
  · obtain ⟨-, j, hj, hfd⟩ := hret (Or.inl (by simp [hi]))
    rw [hdirs, (openedDir_old (hl.dir_lt file i hi)).mpr hi] at hj
    cases hj
    rw [hs.opened_data hfd, heldBy_sound hn h hok.used hi fun k n hg => absurd hg (hunguarded i hi k n)]
    simp [openedContent, hi, htrunc]
  · have hsome : w.tables.dir file ≠ none ∨ flags.creat = true := by
      cases hdir : w.tables.dir file with
      | some j => simp
      | none =>
        rw [hdirs] at hi
        unfold openedDir at hi
        simp only [hdir] at hi
        split_ifs at hi with hc
        · exact Or.inr hc
        · rw [hdir] at hi
          cases hi
    obtain ⟨-, j, hj, hfd⟩ := hret hsome
    rw [hi] at hj
    cases hj
    rw [hs.opened_data hfd]
    rw [hdirs] at hi
    cases hdir : w.tables.dir file with
    | some j =>
      have htrunc := hor.resolve_left (by simp [hdir])
      simp only [openedDir, hdir] at hi
      cases hi
      simp [openedContent, hdir, htrunc]
    | none =>
      have hc := hsome.resolve_left (by simp [hdir])
      simp only [openedDir, hdir, hc, if_true, Function.update_self] at hi
      cases hi
      simp [openedContent, hdir, hc]
  · refine (hspares j ?_).data
    rintro (hle | ⟨heq, -⟩)
    · omega
    · exact hne heq
  · have hlt := hl.dir_lt q j hj
    have hj' : w'.tables.dir q = some j := by rwa [hdirs, openedDir_old hlt]
    have hfile' : w'.tables.dir file ≠ some j := by rwa [hdirs, Ne, openedDir_old hlt]
    rw [heldBy_sound hn h hq.1 hj fun k n hg => absurd hg.2 (hclosed k), heldBy_sound hn hs hq.1 hj' fun k n hg =>
      absurd hg.2 fun hk => (hfds k j hk).elim (hclosed k) hfile']
    unfold openedContent
    cases hdir : w.tables.dir file with
    | some i =>
      have hji : j ≠ i := by
        rintro rfl
        exact hne hdir
      dsimp only
      split_ifs
      · exact Function.update_of_ne hji _ _
      · rfl
    | none =>
      dsimp only
      split_ifs
      · exact Function.update_of_ne (by omega) _ _
      · rfl

/-- **Ring ownership.** In every run that gives each log one path and one descriptor at a time, guards are alone on their
NVM files and rings hold the end of their own files; an open leaves all files with what they hold, and after a power
failure each log comes back in the order of the file. -/
theorem ring_ownership (hn : SizeOk cfg.nvmSize) (hnames : NoCollision cfg P) (h₀ : Initial cfg P dur w₀)
    (h : Steps cfg P dur w₀ w) :
    Owned w ∧
    (∀ place file flags fd, OpenOk cfg P place file flags fd w.tables →
      Returns (openAt cfg place file flags fd) (fun r w' => Owned w' ∧ OpenKeeps cfg P file flags w w' ∧
        (w.tables.dir file ≠ none ∨ flags.creat = true → r = fd)) w) ∧
    (dur → RoomLeft cfg w → ∀ w', Reboots w w' → ∀ q i, Logs cfg P q → w.tables.dir q = some i →
      (∀ k, w.tables.fds k = some i → heldBy cfg w q i = (w.files i).data) ∧
      ∀ fd flags, flags.append = true → flags.writable = true → flags.trunc = false →
        Returns (openAt cfg q q flags fd) (fun r w'' => r = fd ∧ w''.tables.fds fd = some i ∧
          (w''.files i).data = heldBy cfg w q i) w') := by
  obtain ⟨C, hC⟩ := h.sound hn hnames h₀
  refine ⟨hC.owned, fun place file flags fd hok => ?_, fun hd hroom w' hr q i hq hi => ?_⟩
  · exact returns_of_wwp (openAt_keeps hn hnames hC hok) (total_openAt _ _ _ _ _)
  · have hheld := heldBy_sound hn hC hq.1 hi fun k n hg => hroom k (by rw [hg.1]; rfl)
    refine ⟨fun k hk => by rw [hheld, hC.opened_data hk], fun fd flags happ hw htrunc => ?_⟩
    obtain rfl : dur = True := propext ⟨fun _ => trivial, fun _ => hd⟩
    obtain ⟨C', hC', htold⟩ := (hC.stored hroom).reboot hr
    rw [hheld, ← htold.logs q i hq hi]
    refine openAt_appends hn hnames hC' hq.1 ?_ (fun k n hg => absurd hg (hr.idle.unguarded k n i)) ?_ happ hw htrunc
    · rw [hr.names.dir, hi]
    · rw [hr.idle.fds]

end

/-- With another suffix the names of the NVM files differ. -/
theorem noCollision_logConfig : NoCollision logConfig fun _ => True :=
  fun _ _ _ _ h => (String.append_left_inj ".ag").mp h

theorem initial_logWorld : Initial logConfig (fun _ => True) True logWorld where
  dir_lt := by
    intro q i hi
    simp only [logWorld] at hi ⊢
    split_ifs at hi
    cases hi
    decide
  dir_inj := by
    intro q q' i hi hi'
    simp only [logWorld] at hi hi'
    split_ifs at hi hi' with hq hq'
    rw [hq, hq']
  nvmDir := rfl
  idle := ⟨rfl, rfl, rfl⟩
  nvms := rfl
  small := fun _ _ _ _ => by simp [logWorld, File.durable]
  durable := fun _ _ _ _ _ => File.onDisk_durable _

theorem ok_createLog : createLog.Ok logConfig (fun _ => True) True logWorld :=
  ⟨rfl, trivial, rfl, fun _ => ⟨rfl, rfl, rfl⟩, by simp [logWorld]⟩

def createOther : Call := .openAt "x" "x" ⟨true, false, true, true⟩ 4

/-- A log gets two bytes, another file is opened beside it, and the log takes the place of another one. -/
theorem ring_ownership_renamed : ∃ w, Steps logConfig (fun _ => True) True logWorld w ∧
    w.tables.dir "a.log" = some 1 ∧ (w.files 1).data = [1, 2] ∧ (w.tables.entry 3).aofguard ≠ none ∧
    (w.tables.entry 4).name = some "x" ∧ Owned w := by
  have hexec : ((createLog.cmd logConfig).exec logWorld).any (fun r₁ =>
      decide (r₁.2.tables.fds 3 = some 1) && decide ((r₁.2.files 1).data = []) &&
      (((Call.write 3 [1, 2]).cmd logConfig).exec r₁.2).any fun r₂ => decide (r₂.2.tables.fds 4 = none) &&
        ((createOther.cmd logConfig).exec r₂.2).any fun r₃ =>
          (((Call.rename "m.log" "a.log").cmd logConfig).exec r₃.2).any fun r₄ =>
            decide (r₄.2.tables.dir "a.log" = some 1) && decide ((r₄.2.files 1).data = [1, 2]) &&
            (r₄.2.tables.entry 3).aofguard.isSome && decide ((r₄.2.tables.entry 4).name = some "x")) = true := by
    decide +kernel
  obtain ⟨⟨r₁, w₁⟩, h₁, htest⟩ := (Option.any_eq_true _ _).mp hexec
  simp only [Bool.and_eq_true, decide_eq_true_eq] at htest
  obtain ⟨⟨hfd, hempty⟩, htest⟩ := htest
  obtain ⟨⟨r₂, w₂⟩, h₂, htest⟩ := (Option.any_eq_true _ _).mp htest
  simp only [Bool.and_eq_true, decide_eq_true_eq] at htest
  obtain ⟨hunused, htest⟩ := htest
  obtain ⟨⟨r₃, w₃⟩, h₃, htest⟩ := (Option.any_eq_true _ _).mp htest
  obtain ⟨⟨r₄, w₄⟩, h₄, htest⟩ := (Option.any_eq_true _ _).mp htest
  simp only [Bool.and_eq_true, decide_eq_true_eq] at htest
  obtain ⟨⟨⟨hdir, hdata⟩, hguard⟩, hname⟩ := htest
  have hwrite : WriteOk 3 [1, 2] w₁ := by
    rintro n i ⟨-, hi⟩
    obtain rfl : 1 = i := Option.some.inj (hfd.symm.trans hi)
    rw [hempty]
    decide
  have hopen : OpenOk logConfig (fun _ => True) "x" "x" ⟨true, false, true, true⟩ 4 w₂.tables :=
    ⟨rfl, trivial, hunused, fun _ => ⟨rfl, rfl, rfl⟩, fun hneed => absurd hneed (by decide)⟩
  have hrename : RenameOk logConfig (fun _ => True) True "m.log" "a.log" w₃ :=
    ⟨⟨trivial, trivial⟩, fun hold => absurd hold (by decide), fun _ hnew => absurd hnew (by decide)⟩
  have hsteps : Steps logConfig (fun _ => True) True logWorld w₄ :=
    .head (.call (.call ok_createLog (exec_calls h₁))) (.head (.call (.call (c := .write 3 [1, 2]) hwrite (exec_calls h₂)))
      (.head (.call (.call (c := createOther) hopen (exec_calls h₃)))
        (.single (.call (.call (c := .rename "m.log" "a.log") hrename (exec_calls h₄))))))
  exact ⟨w₄, hsteps, hdir, hdata, Option.isSome_iff_ne_none.mp hguard, hname,
    (ring_ownership sizeOk_twoBlocks noCollision_logConfig initial_logWorld hsteps).1⟩

/-- A log that is opened twice has two guards on one NVM file. -/
theorem shared_ring : ∃ w, Relation.ReflTransGen (CallStep logConfig fun c w => c.unused w = true) logWorld w ∧
    (w.tables.entry 3).aofguard = some ("m.log.ag", 0) ∧ (w.tables.entry 4).aofguard = some ("m.log.ag", 0) ∧ ¬ Owned w := by
  have hexec : (runCalls logConfig Call.unused [createLog, .openAt "m.log" "m.log" ⟨false, false, true, true⟩ 4]
      logWorld).any (fun w => decide ((w.tables.entry 3).aofguard = some ("m.log.ag", 0)) &&
        decide ((w.tables.entry 4).aofguard = some ("m.log.ag", 0)) && decide (4 < w.tables.capacity)) = true := by
    decide +kernel
  obtain ⟨w, hw, htest⟩ := (Option.any_eq_true _ _).mp hexec
  simp only [Bool.and_eq_true, decide_eq_true_eq] at htest
  obtain ⟨⟨h₃, h₄⟩, hcap⟩ := htest
  refine ⟨w, runCalls_steps hw, h₃, h₄, fun howned => ?_⟩
  rw [Tables.entry, if_pos (by omega)] at h₃
  rw [Tables.entry, if_pos hcap] at h₄
  have := howned.apart 3 4 _ h₃ h₄
  omega

/-! ## `rename` -/

section
variable {cfg : Config} {P : String → Prop} {dur : Prop} {w w' w₀ : World}

/-- **Rename keeps the content.** The file has the new name and holds what it has held; as long as nobody writes to it,
an append-mode open of the new name succeeds and finds just that. -/
theorem rename_preserves {old new : String} (hn : SizeOk cfg.nvmSize) (hnames : NoCollision cfg P)
    (h₀ : Initial cfg P dur w₀) (h : Steps cfg P dur w₀ w) (hroom : RoomLeft cfg w) (hok : RenameOk cfg P dur old new w)
    (hr : Cmd.Run WTicks (fun _ k => k = 0) (rename cfg old new) w 0 w') :
    ∃ i, w.tables.dir old = some i ∧ (¬ dur → heldBy cfg w old i = (w.files i).data) ∧
      w'.tables.dir new = some i ∧ RoomLeft cfg w' ∧ heldBy cfg w' new i = heldBy cfg w old i ∧
      ∀ w'', Relation.ReflTransGen (CallStep cfg fun c w => c.Ok cfg P dur w) w' w'' → RoomLeft cfg w'' →
        w''.tables.dir new = some i → heldBy cfg w'' new i = heldBy cfg w old i →
        ∀ fd flags, w''.tables.fds fd = none → flags.append = true → flags.writable = true → flags.trunc = false →
          Returns (openAt cfg new new flags fd) (fun r w₃ => r = fd ∧ w₃.tables.fds fd = some i ∧
            (w₃.files i).data = heldBy cfg w old i) w'' := by
  obtain ⟨C, hC⟩ := h.sound hn hnames h₀
  obtain ⟨hrenamed, hret⟩ := Cmd.wp_run (rename_sound hn hnames hC hok) hr
  obtain ⟨i, hi⟩ := Option.ne_none_iff_exists'.mp (hret.mp rfl)
  have hheld := heldBy_sound hn hC hok.used.1 hi fun k n hg => hroom k (by rw [hg.1]; rfl)
  have hi' : w'.tables.dir new = some i := by
    rw [hrenamed.dir, Tables.moveFile_to hi]
  have hroom' := hrenamed.room hroom
  refine ⟨i, hi, fun hcalm => by rw [hheld, hC.calm_data hcalm hok.used.1 hi], hi', hroom', ?_, ?_⟩
  · rw [hheld]
    exact heldBy_sound hn hrenamed.sound hok.used.2 hi' fun k n hg => hroom' k (by rw [hg.1]; rfl)
  · intro w'' hlater hroom'' hi'' hsame fd flags hfd happ hw htrunc
    have hsound : ∃ C'', Sound cfg P dur C'' w'' := by
      clear hroom'' hi'' hsame hfd
      induction hlater with
      | refl => exact ⟨C, hrenamed.sound⟩
      | tail _ hstep ih =>
        obtain ⟨C'', hC''⟩ := ih
        cases hstep with
        | thread ht => exact ⟨C'', hC''.env (.single ht)⟩
        | call hok' hr' => exact Cmd.wp_run (Call.sound hn hnames hC'' hok') hr'
    obtain ⟨C'', hC''⟩ := hsound
    have hfull := fun k n (hg : w''.tables.Guards k n i) => hroom'' k (by rw [hg.1]; rfl)
    rw [← hsame, heldBy_sound hn hC'' hok.used.2 hi'' hfull]
    exact openAt_appends hn hnames hC'' hok.used.2 hi'' hfull hfd happ hw htrunc

end

/-- The same world with a byte in `a.log`. -/
def byteWorld : World := { logWorld with files := fun _ => .durable [7] }

theorem initial_byteWorld : Initial logConfig (fun _ => True) True byteWorld where
  dir_lt := initial_logWorld.dir_lt
  dir_inj := initial_logWorld.dir_inj
  nvmDir := rfl
  idle := ⟨rfl, rfl, rfl⟩
  nvms := rfl
  small := fun _ _ _ _ => by simp [byteWorld, File.durable]
  durable := fun _ _ _ _ _ => File.onDisk_durable _

theorem rename_preserves_byte : ∃ w', Cmd.Run WTicks (fun _ k => k = 0) (rename logConfig "a.log" "m.log") byteWorld 0 w' ∧
    w'.tables.dir "m.log" = some 0 ∧ heldBy logConfig w' "m.log" 0 = [7] := by
  have hexec : ((rename logConfig "a.log" "m.log").exec byteWorld).any (fun r => r.1 == 0) = true := by decide +kernel
  obtain ⟨⟨r, w'⟩, hr, htest⟩ := (Option.any_eq_true _ _).mp hexec
  obtain rfl : r = 0 := by simpa using htest
  have hrun := exec_calls hr
  have hok : RenameOk logConfig (fun _ => True) True "a.log" "m.log" byteWorld := by
    refine ⟨⟨trivial, trivial⟩, fun hold => ?_, fun _ hnew => ?_⟩
    · exact absurd hold (by decide)
    · exact absurd hnew (by decide)
  obtain ⟨i, hi, -, hi', -, hheld, -⟩ := rename_preserves sizeOk_twoBlocks noCollision_logConfig initial_byteWorld .refl
    (fun k hk => absurd hk (by simp [byteWorld, logWorld, Filedes.blank])) hok hrun
  obtain rfl : i = 0 := by simpa [byteWorld, logWorld] using hi.symm
  refine ⟨w', hrun, hi', hheld.trans ?_⟩
  decide

/-- A file `x` replaces the closed `m.log`, whose NVM file is still there: the next open of `m.log` brings back the bytes
of the old log in place of those of `x`. -/
theorem leftover_replayed : ∃ w w' w'',
    Relation.ReflTransGen (CallStep logConfig fun c w => c.unused w = true) logWorld w ∧
      (∀ k, (w.tables.entry k).aofguard = none) ∧ w.tables.dir "x" = some 2 ∧ heldBy logConfig w "x" 2 = [9] ∧
      Cmd.Run WTicks (fun _ k => k = 0) (rename logConfig "x" "m.log") w 0 w' ∧
      Cmd.Run WTicks (fun _ k => k = 0) (openAt logConfig "m.log" "m.log" ⟨false, false, true, true⟩ 5) w' 5 w'' ∧
      w''.tables.fds 5 = some 2 ∧ (w''.files 2).data = [1, 2] := by
  have hexec : (runCalls logConfig Call.unused [createLog, .write 3 [1, 2], .close 3,
      .openAt "x" "x" ⟨true, false, true, true⟩ 3, .write 3 [9], .close 3] logWorld).any (fun w =>
        (List.range w.tables.capacity).all (fun k => (w.tables.entry k).aofguard.isNone) &&
        decide (w.tables.dir "x" = some 2) && decide (heldBy logConfig w "x" 2 = [9]) &&
        ((rename logConfig "x" "m.log").exec w).any fun r => decide (r.1 = 0) &&
          ((openAt logConfig "m.log" "m.log" ⟨false, false, true, true⟩ 5).exec r.2).any fun r =>
            decide (r.1 = 5) && decide (r.2.tables.fds 5 = some 2) && decide ((r.2.files 2).data = [1, 2])) = true := by
    decide +kernel
  obtain ⟨w, hw, htest⟩ := (Option.any_eq_true _ _).mp hexec
  simp only [Bool.and_eq_true, decide_eq_true_eq, List.all_eq_true, List.mem_range, Option.isNone_iff_eq_none] at htest
  obtain ⟨⟨⟨hnone, hdir⟩, hheld⟩, htest⟩ := htest
  obtain ⟨⟨r, w'⟩, hr, htest⟩ := (Option.any_eq_true _ _).mp htest
  simp only [Bool.and_eq_true, decide_eq_true_eq] at htest
  obtain ⟨hzero, htest⟩ := htest
  obtain ⟨⟨r', w''⟩, hr', htest⟩ := (Option.any_eq_true _ _).mp htest
  simp only [Bool.and_eq_true, decide_eq_true_eq] at htest
  obtain ⟨⟨hfive, hfd⟩, hdata⟩ := htest
  subst hzero hfive
  refine ⟨w, w', w'', runCalls_steps hw, fun k => ?_, hdir, hheld, exec_calls hr, exec_calls hr', hfd, hdata⟩
  by_cases hk : k < w.tables.capacity
  · exact hnone k hk
  · rw [Tables.entry, if_neg hk]
    rfl

end PmemProgram.Wal
