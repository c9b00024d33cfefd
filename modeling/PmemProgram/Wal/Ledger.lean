import PmemProgram.Wal.CrashCalls

/-!
# Power failures inside `rename` and `unlink`

* `Ledger cfg P ok w₀ C₀ w C` : a run, and the content of the files as the results of its calls tell it; `Ledger.sound`;
* `Recovered cfg P C kept t` : what append-mode opens find after a power failure;
* `rename_unlink_crash_safe` : the name has changed in both directories or in none, and all logs are there;
  `renamed_out_lost` is a log that leaves the pattern before its bytes are on the disk.
-/

namespace PmemProgram.Wal
open PmemProgram.Lib PmemProgram.Lib.Ring

section
variable {cfg : Config} {P : String → Prop} {ok : World → Call → Prop} {C C' C₀ : Nat → List Byte} {w w' t w₀ : World}
  {old new path : String} {i : Nat}

/-! ## What the results tell -/

/-- The content of the files after a call that has returned `r`: `open` empties a new or truncated file, and a `write` in
append mode appends what it has acknowledged. Any other file that is written to has what is in it. -/
def Call.content (C : Nat → List Byte) (w : World) (r : Int) (w' : World) : Call → Nat → List Byte
  | openAt _ file flags _ => openedContent C w.tables file flags
  | write fd data => fun i =>
    if w.tables.fds fd = some i then
      if (w.descs fd).append then if r = -1 then C i else C i ++ data else (w'.files i).data
    else C i
  | _ => C

theorem write_content {fd : Nat} {data : List Byte} (hn : SizeOk cfg.nvmSize) (h : Sound cfg P True C w)
    (hok : WriteOk fd data w) :
    wwp (fun _ => True) (write fd data) (fun r w' => Sound cfg P True ((Call.write fd data).content C w r w') w') w := by
  refine Cmd.wp_mono (fun _ _ => trivial) ?_ (write_sound hn h hok)
  rintro r w' ⟨htables, C', h', hothers, hfile, -, -⟩
  suffices hC : (Call.write fd data).content C w r w' = C' by rwa [hC]
  funext j
  simp only [Call.content]
  split_ifs with hfd happ hr
  · have hwritten := hfile j hfd
    rw [Written, if_pos hr] at hwritten
    exact hwritten.symm
  · have hwritten := hfile j hfd
    rw [Written, if_neg hr] at hwritten
    exact (hwritten.2 happ).symm
  · have hg : (w.tables.fdTable fd).aofguard = none := by
      by_contra hsome
      obtain ⟨n, hn⟩ := Option.ne_none_iff_exists'.mp hsome
      have hgj : w.tables.Guards fd n j := ⟨hn, hfd⟩
      have hguard := h.keeps.guard fd n j hgj (by simp)
      rw [hgj.port] at hguard
      exact happ hguard.append
    exact h'.keeps.bare fd j (by rw [htables, hfd]) (by rw [htables, hg]) (by simp)
  · exact (hothers j hfd).symm

theorem Call.sound_content {c : Call} (hn : SizeOk cfg.nvmSize) (hnames : NoCollision cfg P) (h : Sound cfg P True C w)
    (hok : c.Ok cfg P True w) :
    wwp (fun _ => True) (c.cmd cfg) (fun r w' => Sound cfg P True (c.content C w r w') w') w := by
  cases c with
  | openAt place file flags fd => exact Cmd.wp_mono (fun _ _ => trivial) (fun _ _ h' => h'.1) (openAt_sound hn hnames h hok)
  | write fd data => exact write_content hn h hok
  | fsync fd => exact Cmd.wp_mono (fun _ _ => trivial) (fun _ _ h' => h'.2.1) (syncCall_sound h)
  | fdatasync fd => exact Cmd.wp_mono (fun _ _ => trivial) (fun _ _ h' => h'.2.1) (syncCall_sound h)
  | close fd => exact Cmd.wp_mono (fun _ _ => trivial) (fun _ _ h' => h'.2.1) (close_sound h hok)
  | unlink file => exact Cmd.wp_mono (fun _ _ => trivial) (fun _ _ h' => h'.1.sound) (unlink_sound hnames h hok)
  | rename old new => exact Cmd.wp_mono (fun _ _ => trivial) (fun _ _ h' => h'.1.sound) (rename_sound hn hnames h hok)

/-- A run from `w₀` with the content `C₀` to `w`, and the content of the files as the results of the calls tell it. Every
call is under its condition and `ok`, and power failures come between the calls or inside them. -/
inductive Ledger (cfg : Config) (P : String → Prop) (ok : World → Call → Prop) (w₀ : World) (C₀ : Nat → List Byte) :
    World → (Nat → List Byte) → Prop
  | start : Ledger cfg P ok w₀ C₀ w₀ C₀
  | thread {w w' : World} {C : Nat → List Byte} : Ledger cfg P ok w₀ C₀ w C → WTick w w' → Ledger cfg P ok w₀ C₀ w' C
  | call {w w' : World} {C : Nat → List Byte} {c : Call} {r : Int} : Ledger cfg P ok w₀ C₀ w C → c.Ok cfg P True w →
      ok w c → Cmd.Run WTicks (fun _ k => k = 0) (c.cmd cfg) w r w' → Ledger cfg P ok w₀ C₀ w' (c.content C w r w')
  | reboot {w w' : World} {C C' : Nat → List Byte} : Ledger cfg P ok w₀ C₀ w C → RoomLeft cfg w → Reboots w w' →
      ToldOn cfg P C C' w w' → Ledger cfg P ok w₀ C₀ w' C'
  | cut {w t w' : World} {C C' : Nat → List Byte} {c : Call} : Ledger cfg P ok w₀ C₀ w C → c.Ok cfg P True w → ok w c →
      RoomLeft cfg w → RoomLeft cfg t → Cmd.Crash WTicks (fun _ k => k = 0) (c.cmd cfg) w t → c.InStep cfg C w t →
      Reboots t w' → ToldOn cfg P (c.torn cfg C w t) C' t w' → Ledger cfg P ok w₀ C₀ w' C'

/-- Any run from `w₀`. -/
abbrev Told (cfg : Config) (P : String → Prop) (w₀ w : World) (C : Nat → List Byte) : Prop :=
  Ledger cfg P (fun _ _ => True) w₀ (fun i => (w₀.files i).data) w C

/-- In every run the files hold what the results tell. -/
theorem Ledger.sound (hn : SizeOk cfg.nvmSize) (hnames : NoCollision cfg P) (h₀ : Sound cfg P True C₀ w₀)
    (h : Ledger cfg P ok w₀ C₀ w C) : Sound cfg P True C w := by
  induction h with
  | start => exact h₀
  | thread _ ht ih => exact ih.env (.single ht)
  | call _ hok _ hr ih => exact Cmd.wp_run (Call.sound_content hn hnames ih hok) hr
  | reboot _ hroom hr hC ih => exact (ih.stored hroom).toldOn hr hC
  | cut _ hok _ hroom hroom' hc hin hr hC ih => exact (Call.stored hn hnames ih hroom hroom' hok hc hin).1.toldOn hr hC

/-! ## What is found afterwards -/

/-- What append-mode opens find after a power failure in `t`: the content of a log and of a file of `kept`; an empty file, if
the name is new and is created; nothing otherwise. -/
structure Recovered (cfg : Config) (P : String → Prop) (C : Nat → List Byte) (kept : Nat → Prop) (t : World) : Prop where
  content : ∀ w', Reboots t w' → ∀ q i fd flags, P q → flags.append = true → flags.writable = true → flags.trunc = false →
    t.tables.dir q = some i → (cfg.needNvm q = true ∨ kept i) →
    Returns (openAt cfg q q flags fd) (fun r w'' => r = fd ∧ w''.tables.fds fd = some i ∧ (w''.files i).data = C i) w'
  created : ∀ w', Reboots t w' → ∀ q fd flags, P q → flags.append = true → flags.writable = true → flags.trunc = false →
    t.tables.dir q = none → flags.creat = true →
    Returns (openAt cfg q q flags fd) (fun r w'' => r = fd ∧ ∃ i, w''.tables.dir q = some i ∧ w''.tables.fds fd = some i ∧
      (w''.files i).data = []) w'
  missing : ∀ w', Reboots t w' → ∀ q fd flags, t.tables.dir q = none → flags.creat = false →
    Returns (openAt cfg q q flags fd) (fun r _ => r = -1) w'

theorem openAt_missing {flags : Flags} {fd : Nat} {q : String} (hdir : w.tables.dir q = none) (hcreat : flags.creat = false) :
    wwp (fun _ => True) (openAt cfg q q flags fd) (fun r _ => r = -1) w := by
  unfold openAt
  simp only [wwp, Cmd.wp_bind]
  refine wwp_syscallOpen fun w₁ ht => ⟨trivial, fun i hi => ?_, fun _ hc => ?_, fun _ _ => rfl⟩
  · rw [ht.tables, hdir] at hi
    cases hi
  · rw [hcreat] at hc
    cases hc

theorem Stored.recovered {kept : Nat → Prop} (hn : SizeOk cfg.nvmSize) (hnames : NoCollision cfg P)
    (h : Stored cfg P C t) (hkept : ∀ q i, kept i → cfg.needNvm q = false → t.tables.dir q = some i →
      (t.files i).OnDisk (C i)) : Recovered cfg P C kept t := by
  constructor
  · intro w' hr q i fd flags hq happ hw htrunc hi hor
    obtain ⟨C', hC', htold⟩ := h.reboot hr
    have hsame : C' i = C i := by
      cases hneed : cfg.needNvm q with
      | true => exact htold.logs q i ⟨hq, hneed⟩ hi
      | false =>
        have hfile := (hkept q i (hor.resolve_left (by simp [hneed])) hneed hi).survives (hr.files i)
        rw [← hC'.keeps.plain q i hneed (by rw [hr.names.dir, hi]) (by simp), hfile]
        rfl
    rw [← hsame]
    refine openAt_appends hn hnames hC' hq ?_ (fun k n hg => absurd hg (hr.idle.unguarded k n i)) ?_ happ hw htrunc
    · rw [hr.names.dir, hi]
    · rw [hr.idle.fds]
  · intro w' hr q fd flags hq happ hw htrunc hnone hc
    obtain ⟨C', hC', -⟩ := h.reboot hr
    have hok : OpenOk cfg P q q flags fd w'.tables :=
      ⟨rfl, hq, by rw [hr.idle.fds], fun _ => ⟨happ, hw, htrunc⟩, fun _ k j hk => by rw [hr.idle.fds] at hk; cases hk⟩
    have hnone' : w'.tables.dir q = none := by rw [hr.names.dir, hnone]
    have hopened := Cmd.wp_mono (fun _ _ => trivial) (fun _ _ h => h) (openAt_sound hn hnames hC' hok)
    refine returns_of_wwp (Cmd.wp_conseq (Cmd.wp_and hopened (openAt_keeps hn hnames hC' hok)) ?_) (total_openAt _ _ _ _ _)
    rintro r w'' ⟨⟨-, hret, -⟩, -, hkeeps, -⟩
    obtain ⟨hfd, i, hi, hfds⟩ := hret (Or.inr hc)
    exact ⟨hfd, i, hi, hfds, hkeeps.emptied i hi (Or.inl hnone')⟩
  · intro w' hr q fd flags hnone hc
    exact returns_of_wwp (openAt_missing (by rw [hr.names.dir, hnone]) hc) (total_openAt _ _ _ _ _)

/-- The file comes into the pattern or leaves it. -/
def Crosses (cfg : Config) (old new : String) (w : World) (i : Nat) : Prop :=
  w.tables.dir old = some i ∧ cfg.needNvm old ≠ cfg.needNvm new

/-- A log that leaves the pattern is all on the disk. -/
def LeavesWhole (cfg : Config) (C : Nat → List Byte) (old new : String) (w : World) : Prop :=
  cfg.needNvm old = true → cfg.needNvm new = false → ∀ i, w.tables.dir old = some i → (w.files i).OnDisk (C i)

theorem Crosses.onDisk (h : Sound cfg P True C w) (hok : RenameOk cfg P True old new w)
    (hwhole : LeavesWhole cfg C old new w) (hi : Crosses cfg old new w i) : (w.files i).OnDisk (C i) := by
  obtain ⟨hdir, hne⟩ := hi
  cases hold : cfg.needNvm old with
  | true =>
    refine hwhole hold ?_ i hdir
    rw [hold] at hne
    exact Bool.not_eq_true _ ▸ fun hnew => hne hnew.symm
  | false =>
    have hnew : cfg.needNvm new = true := by
      rw [hold] at hne
      exact Bool.eq_true_of_not_eq_false fun hnew => hne hnew.symm
    have hdata : (w.files i).data = C i := h.keeps.plain old i hold hdir (by simp)
    exact hdata ▸ (hok.comes hold hnew i hdir).synced trivial

/-- **Power failures inside `rename` and `unlink`.** In every run: a failure that does not come between the changes of the
two directories, or comes after the call, finds the name changed or not, all logs with what the results tell, and a log
that has left the pattern, if it was on the disk. -/
theorem rename_unlink_crash_safe (hn : SizeOk cfg.nvmSize) (hnames : NoCollision cfg P) (h₀ : Initial cfg P True w₀)
    (h : Told cfg P w₀ w C) (hroom : RoomLeft cfg w) :
    Recovered cfg P C (fun _ => False) w ∧
    (∀ old new, RenameOk cfg P True old new w → LeavesWhole cfg C old new w →
      (∀ t, Cmd.Crash WTicks (fun _ k => k = 0) (rename cfg old new) w t → InStep (FileOnly cfg C old new w t) w t →
        (t.tables.dir = w.tables.dir ∨ t.tables.dir = (w.tables.moveFile old new).dir) ∧
          Recovered cfg P C (Crosses cfg old new w) t) ∧
      ∀ r t t', Cmd.Run WTicks (fun _ k => k = 0) (rename cfg old new) w r t → WTicks t t' →
        (r = 0 ↔ w.tables.dir old ≠ none) ∧ t'.tables.dir = (w.tables.moveFile old new).dir ∧
          Recovered cfg P C (Crosses cfg old new w) t') ∧
    (∀ path, P path →
      (∀ t, Cmd.Crash WTicks (fun _ k => k = 0) (unlink cfg path) w t → InStep (NoNvm cfg w path) w t →
        (t.tables.dir = w.tables.dir ∨ t.tables.dir = Function.update w.tables.dir path none) ∧
          Recovered cfg P C (fun _ => False) t) ∧
      ∀ r t t', Cmd.Run WTicks (fun _ k => k = 0) (unlink cfg path) w r t → WTicks t t' →
        (r = 0 ↔ w.tables.dir path ≠ none) ∧ t'.tables.dir = Function.update w.tables.dir path none ∧
          Recovered cfg P C (fun _ => False) t') := by
  have hC := h.sound hn hnames h₀.sound
  refine ⟨(hC.stored hroom).recovered hn hnames fun _ _ hf => hf.elim, fun old new hok hwhole => ⟨fun t hc hin => ?_,
    fun r t t' hr ht => ?_⟩, fun path hpath => ⟨fun t hc hin => ?_, fun r t t' hr ht => ?_⟩⟩
  · obtain ⟨hstored, hplain, hdir⟩ := rename_crash hn hnames hC hroom hok hc hin
    exact ⟨hdir, hstored.recovered hn hnames fun q i hi hneed hq =>
      (hplain q i hneed hq).onDisk (hi.onDisk hC hok hwhole)⟩
  · obtain ⟨hrenamed, hret⟩ := Cmd.wp_run (rename_sound hn hnames hC hok) hr
    have hroom' := (WrittenBack.ticks ht).roomLeft (fun k hk => ht.tables ▸ hk) (hrenamed.room hroom)
    refine ⟨hret, by rw [ht.tables, hrenamed.dir], ((hrenamed.sound.env ht).stored hroom').recovered hn hnames
      fun q i hi hneed hq => ?_⟩
    rw [ht.tables] at hq
    have hfile := (hrenamed.plainFlushed q i hneed hq).trans (ht.flushed i)
    exact hfile.onDisk (hi.onDisk hC hok hwhole)
  · obtain ⟨hstored, hdir⟩ := (Cmd.wp_crash (unlink_sound hnames hC hpath) hc).stored hnames hC hroom hpath hin
    exact ⟨hdir, hstored.recovered hn hnames fun _ _ hf => hf.elim⟩
  · obtain ⟨hunlinked, hret⟩ := Cmd.wp_run (unlink_sound hnames hC hpath) hr
    have htable : t.tables.fdTable = w.tables.fdTable := Cmd.wp_run unlink_entries hr
    have hroom' := (hunlinked.back.trans (.ticks ht)).roomLeft (fun k hk => by rwa [ht.tables, htable] at hk) hroom
    exact ⟨hret, by rw [ht.tables, hunlinked.dir], ((hunlinked.sound.env ht).stored hroom').recovered hn hnames
      fun _ _ hf => hf.elim⟩

end

/-! ## A log that leaves the pattern -/

/-- A power failure that leaves just what is on the disk. -/
def World.rebooted (w : World) : World where
  tables := { w.tables with fds := fun _ => none, fdTable := fun _ => .blank, capacity := 16 }
  files i := .durable ((w.files i).data.take (w.files i).synced)
  nvms := w.nvms
  descs := w.descs
  guards _ := .blank

theorem reboots_rebooted (w : World) : Reboots w w.rebooted :=
  ⟨⟨rfl, rfl, rfl, rfl⟩, ⟨rfl, rfl, rfl⟩, rfl, fun i => (w.files i).survives_synced⟩

/-- Only the entries of the table have guards. -/
theorem Linked.roomLeft {cfg : Config} {P : String → Prop} {w : World} (h : Linked cfg P w.tables)
    (hlen : ∀ k, k < w.tables.capacity → (w.guards (some k)).len ≠ capOf cfg.nvmSize) : RoomLeft cfg w := by
  intro k hk
  by_cases hlt : k < w.tables.capacity
  · exact hlen k hlt
  · rw [h.beyond k (Nat.le_of_not_lt hlt)] at hk
    cases hk

/-- `logConfig` with `disable_sync` as told. -/
def syncConfig (off : Bool) : Config := { logConfig with disableSync := off }

/-- The run that creates `m.log` and writes two bytes to it. -/
def twoBytes (off : Bool) : Option World := execCalls (syncConfig off) [createLog, .write 3 [1, 2]] logWorld

theorem ledger_twoBytes {off : Bool} {w : World} (hw : twoBytes off = some w) :
    ∃ C, Told (syncConfig off) (fun _ => True) logWorld w C ∧ C 1 = [1, 2] ∧ RoomLeft logConfig w ∧
      w.tables.fds 3 = some 1 := by
  have htest : (((createLog.cmd (syncConfig off)).exec logWorld).any fun r₁ =>
      r₁.2.tables.fds 3 == some 1 && (r₁.2.descs 3).append && decide ((r₁.2.files 1).data = []) &&
        ((((Call.write 3 [1, 2]).cmd (syncConfig off)).exec r₁.2).any fun r₂ => r₂.1 == 2 &&
          (List.range 16).all (fun k => (r₂.2.guards (some k)).len != capOf twoBlocks) && r₂.2.tables.capacity == 16 &&
            r₂.2.tables.fds 3 == some 1)) = true := by
    cases off with
    | true => decide +kernel
    | false => decide +kernel
  obtain ⟨⟨r₁, w₁⟩, hr₁, htest⟩ := (Option.any_eq_true _ _).mp htest
  simp only [Bool.and_eq_true, decide_eq_true_eq, beq_iff_eq] at htest
  obtain ⟨⟨⟨hfd, happ⟩, hdata⟩, htest⟩ := htest
  obtain ⟨⟨r₂, w₂⟩, hr₂, htest⟩ := (Option.any_eq_true _ _).mp htest
  simp only [Bool.and_eq_true, beq_iff_eq, List.all_eq_true, List.mem_range, bne_iff_ne] at htest
  obtain ⟨⟨⟨htwo, hlen⟩, hcap⟩, hfd'⟩ := htest
  obtain rfl : w₂ = w := by
    unfold twoBytes execCalls at hw
    rw [hr₁] at hw
    simp only [Option.bind_some, execCalls, hr₂] at hw
    exact Option.some.inj hw
  have hnames : NoCollision (syncConfig off) fun _ => True := noCollision_logConfig
  have hinit : Initial (syncConfig off) (fun _ => True) True logWorld := { initial_logWorld with }
  have hcreate : createLog.Ok (syncConfig off) (fun _ => True) True logWorld :=
    ⟨rfl, trivial, rfl, fun _ => ⟨rfl, rfl, rfl⟩, by simp [logWorld]⟩
  have hopened : Told (syncConfig off) (fun _ => True) logWorld w₁ _ := .call .start hcreate trivial (exec_calls hr₁)
  have hok : (Call.write 3 [1, 2]).Ok (syncConfig off) (fun _ => True) True w₁ := by
    rintro n i ⟨-, hi⟩
    rw [hfd] at hi
    cases hi
    rw [hdata]
    decide
  have hwritten : Told (syncConfig off) (fun _ => True) logWorld w₂ _ := .call hopened hok trivial (exec_calls hr₂)
  have hlinked := (hwritten.sound sizeOk_twoBlocks hnames hinit.sound).linked
  refine ⟨_, hwritten, ?_, hlinked.roomLeft (hcap ▸ hlen), hfd'⟩
  subst htwo
  simp [Call.content, createLog, openedContent, logWorld, hfd, happ]

theorem rename_unlink_crash_safe_record : ∃ w C, Told logConfig (fun _ => True) logWorld w C ∧ C 1 = [1, 2] ∧
    w.tables.dir "m.log" = some 1 ∧ ∀ r t t', Cmd.Run WTicks (fun _ k => k = 0) (rename logConfig "m.log" "a.log") w r t →
      WTicks t t' → Recovered logConfig (fun _ => True) C (Crosses logConfig "m.log" "a.log" w) t' := by
  have htest : (twoBytes false).any (fun w => decide (w.tables.dir "m.log" = some 1)) = true := by decide +kernel
  obtain ⟨w, hw, htest⟩ := (Option.any_eq_true _ _).mp htest
  obtain ⟨C, hC, hone, hroom, -⟩ := ledger_twoBytes hw
  have hok : RenameOk logConfig (fun _ => True) True "m.log" "a.log" w := by
    refine ⟨⟨trivial, trivial⟩, fun hold => ?_, fun _ hnew => ?_⟩
    · exact absurd hold (by decide)
    · exact absurd hnew (by decide)
  have hwhole : LeavesWhole logConfig C "m.log" "a.log" w := fun _ hnew => absurd hnew (by decide)
  obtain ⟨-, hrename, -⟩ :=
    rename_unlink_crash_safe sizeOk_twoBlocks noCollision_logConfig initial_logWorld hC hroom
  exact ⟨w, C, hC, hone, by simpa using htest, fun r t t' hr ht => ((hrename _ _ hok hwhole).2 r t t' hr ht).2.2⟩

/-- The two bytes are lost when the log has left the pattern: its NVM file is gone, and nobody has synced the file. -/
theorem renamed_out_lost : ∃ w C t t' t'', Told logConfig (fun _ => True) logWorld w C ∧ C 1 = [1, 2] ∧
    RoomLeft logConfig w ∧ w.tables.dir "m.log" = some 1 ∧
    Cmd.Run WTicks (fun _ k => k = 0) (rename logConfig "m.log" "x") w 0 t ∧ Reboots t t' ∧
    t'.tables.dir "m.log" = none ∧ t'.tables.dir "x" = some 1 ∧
    Cmd.Run WTicks (fun _ k => k = 0) (openAt logConfig "x" "x" ⟨false, false, true, true⟩ 3) t' 3 t'' ∧
    t''.tables.fds 3 = some 1 ∧ (t''.files 1).data = [] := by
  have htest : (twoBytes false).any (fun w => decide (w.tables.dir "m.log" = some 1) &&
      ((rename logConfig "m.log" "x").exec w).any fun r => decide (r.1 = 0) &&
        decide (r.2.rebooted.tables.dir "m.log" = none) && decide (r.2.rebooted.tables.dir "x" = some 1) &&
        ((openAt logConfig "x" "x" ⟨false, false, true, true⟩ 3).exec r.2.rebooted).any fun r => decide (r.1 = 3) &&
          decide (r.2.tables.fds 3 = some 1) && decide ((r.2.files 1).data = [])) = true := by decide +kernel
  obtain ⟨w, hw, htest⟩ := (Option.any_eq_true _ _).mp htest
  simp only [Bool.and_eq_true, decide_eq_true_eq] at htest
  obtain ⟨hdir, htest⟩ := htest
  obtain ⟨⟨r, t⟩, hr, htest⟩ := (Option.any_eq_true _ _).mp htest
  simp only [Bool.and_eq_true, decide_eq_true_eq] at htest
  obtain ⟨⟨⟨hzero, hold⟩, hnew⟩, htest⟩ := htest
  obtain ⟨⟨r', t''⟩, hr', htest⟩ := (Option.any_eq_true _ _).mp htest
  simp only [Bool.and_eq_true, decide_eq_true_eq] at htest
  obtain ⟨⟨hthree, hfd⟩, hdata⟩ := htest
  subst hzero hthree
  obtain ⟨C, hC, hone, hroom, -⟩ := ledger_twoBytes hw
  exact ⟨w, C, t, t.rebooted, t'', hC, hone, hroom, hdir, exec_calls hr, reboots_rebooted t, hold, hnew, exec_calls hr',
    hfd, hdata⟩

end PmemProgram.Wal
