import PmemProgram.Wal.Content

/-!
# What the calls do to the content

Each call, under its condition, takes a sound world to a sound world, with the effect on the content that the call has on
a plain file system.
-/

namespace PmemProgram.Wal
open PmemProgram.Lib PmemProgram.Lib.Ring

section
variable {cfg : Config} {P : String → Prop} {dur : Prop} {T : Tables} {C : Nat → List Byte} {w w' : World}
  {I : World → Prop}

/-! ## `open` -/

theorem Linked.created {q : String} (h : Linked cfg P T) (hdir : T.dir q = none) :
    Linked cfg P { T with dir := Function.update T.dir q (some T.inos), inos := T.inos + 1 } := by
  obtain ⟨h₁, h₂, h₃, h₄, h₅, h₆, h₇, h₈, h₉, h₁₀, h₁₁, h₁₂, h₁₃, h₁₄, h₁₅⟩ := h
  constructor
  all_goals simp only [Function.update_apply, Tables.Guards] at *
  all_goals grind

theorem Sound.created {q : String} (h : Sound cfg P dur C w) (hdir : w.tables.dir q = none) :
    Sound cfg P dur (Function.update C w.tables.inos []) (w.created q) := by
  obtain ⟨hl, hk⟩ := h
  have hnew : ∀ i, i < w.tables.inos → (w.created q).files i = w.files i ∧ Function.update C w.tables.inos [] i = C i :=
    fun i hi => ⟨Function.update_of_ne hi.ne _ _, Function.update_of_ne hi.ne _ _⟩
  refine ⟨hl.created hdir, ?_⟩
  constructor
  · intro k n i hg hx
    obtain ⟨hfile, hC⟩ := hnew i (hl.fds_lt k i hg.2)
    have hview : ((w.created q).tables.port k n (some k)).view (w.created q) =
        (w.tables.port k n (some k)).view w := by
      change Port.view (w.tables.port k n (some k)) _ = _
      rw [Tables.Guards.port (T := w.tables) hg]
      simp only [Port.view]
      rw [hfile]
      rfl
    rw [hview, hC]
    exact hk.guard k n i hg hx
  · intro q' i hq hi hopen hx
    by_cases hne : q' = q
    · subst hne
      have hino : w.tables.inos = i := by simpa [World.created] using hi
      subst hino
      refine Or.inl ⟨hk.vacant q' hq hdir, ?_, fun _ => ?_⟩
      · simp [World.created, File.durable]
      · simpa [World.created] using File.onDisk_durable []
    · have hi' : w.tables.dir q' = some i := by simpa [World.created, hne] using hi
      obtain ⟨hfile, hC⟩ := hnew i (hl.dir_lt q' i hi')
      rw [hfile, hC]
      exact hk.rest q' i hq hi' hopen hx
  · intro k i hi hg hx
    obtain ⟨hfile, hC⟩ := hnew i (hl.fds_lt k i hi)
    rw [hfile, hC]
    exact hk.bare k i hi hg hx
  · intro q' i hq hi hx
    by_cases hne : q' = q
    · subst hne
      have hino : w.tables.inos = i := by simpa [World.created] using hi
      subst hino
      simp [World.created, File.durable]
    · have hi' : w.tables.dir q' = some i := by simpa [World.created, hne] using hi
      obtain ⟨hfile, hC⟩ := hnew i (hl.dir_lt q' i hi')
      rw [hfile, hC]
      exact hk.plain q' i hq hi' hx
  · intro q' hq hi
    have hne : q' ≠ q := by
      rintro rfl
      simp [World.created] at hi
    exact hk.vacant q' hq (by simpa [World.created, hne] using hi)
  · exact hk.fresh
  · intro i hi
    by_cases hne : i = w.tables.inos
    · rw [hne, Function.update_self]
      simp
    · rw [Function.update_of_ne hne]
      apply hk.small i
      rcases hi with ⟨q', hq', hdir'⟩ | hg
      · refine Or.inl ⟨q', hq', ?_⟩
        simp only [World.created, Function.update_apply] at hdir'
        split_ifs at hdir' with heq
        · cases hdir'
          exact absurd rfl hne
        · exact hdir'
      · exact Or.inr hg

theorem Linked.grow (h : Linked cfg P T) (fd : Nat) : (T.grow fd).fdTable = T.fdTable := by
  funext k
  simp only [Tables.grow]
  split_ifs with hk
  · rw [h.beyond k hk.1]
  · rfl

/-- `fd` is open on the inode `i` as `file`. -/
def Tables.entered (T : Tables) (fd i : Nat) (file : String) (guard : Option NvmIno) : Tables :=
  { T with
    fds := Function.update T.fds fd (some i)
    fdTable := Function.update T.fdTable fd ⟨some file, guard⟩
    capacity := newCapacity fd (fd + 1) T.capacity }

theorem Linked.entered {fd i : Nat} {file : String} {guard : Option NvmIno} (h : Linked cfg P T)
    (hnames : NoCollision cfg P) (hdir : T.dir file = some i) (hP : P file)
    (hplain : cfg.needNvm file = false → guard = none)
    (hlog : cfg.needNvm file = true → guard = some (T.nvmDir (cfg.nvmFileName file)) ∧ ∀ k, T.fds k ≠ some i) :
    Linked cfg P (T.entered fd i file guard) := by
  have hcap := le_newCapacity fd (fd + 1) T.capacity
  have hlt : fd < newCapacity fd (fd + 1) T.capacity := lt_newCapacity h.pos (by omega)
  have hfree : cfg.needNvm file = true → ∀ k, (T.fdTable k).aofguard ≠ some (T.nvmDir (cfg.nvmFileName file)) := by
    intro hneed k hk
    obtain ⟨j, hj, hfile⟩ := h.mapped ⟨hP, hneed⟩ hk
    rw [hdir] at hfile
    cases hfile
    exact (hlog hneed).2 k hj.2
  obtain ⟨h₁, h₂, h₃, h₄, h₅, h₆, h₇, h₈, h₉, h₁₀, h₁₁, h₁₂, h₁₃, h₁₄, h₁₅⟩ := h
  constructor
  all_goals simp only [Tables.entered, Function.update_apply, Tables.Guards, Logs, NoCollision] at *
  all_goals grind

/-- The port of a log that is being opened as `fd`. -/
theorem Linked.apart_open {T' : Tables} {fd i : Nat} {file : String} (h : Linked cfg P T) (hnames : NoCollision cfg P)
    (hfile : Logs cfg P file) (hdir : T.dir file = some i) (hfd : T.fds fd = none) (hfree : ∀ k, T.fds k ≠ some i)
    (htable : T'.fdTable = T.fdTable) (hfds : T'.fds = Function.update T.fds fd (some i)) :
    Apart cfg P T T' ⟨i, T.nvmDir (cfg.nvmFileName file), fd, none⟩ := by
  have hguards : ∀ k n j, T.Guards k n j → T'.Guards k n j ∧ k ≠ fd ∧ j ≠ i := by
    rintro k n j ⟨hg, hj⟩
    have hne : k ≠ fd := by
      rintro rfl
      rw [hfd] at hj
      cases hj
    refine ⟨⟨by rw [htable, hg], by rw [hfds, Function.update_of_ne hne, hj]⟩, hne, ?_⟩
    rintro rfl
    exact hfree k hj
  have hother : ∀ q, Logs cfg P q → T.nvmDir (cfg.nvmFileName q) = T.nvmDir (cfg.nvmFileName file) → q = file :=
    fun q hq heq => hnames q file hq.1 hfile.1 (h.nvm_inj _ _ heq)
  constructor
  · intro k n j hg _
    obtain ⟨hg', hne, hj⟩ := hguards k n j hg
    refine ⟨hg', hne, ?_, by simp⟩
    rintro rfl
    obtain ⟨j', hj', hfile'⟩ := h.mapped hfile hg.1
    rw [hdir] at hfile'
    cases hfile'
    exact hfree k hj'.2
  · intro k n hg
    rw [htable] at hg
    obtain ⟨j, hj⟩ := h.guards hg
    obtain ⟨hg', hne, hji⟩ := hguards k n j hj
    rw [hg'.port]
    exact Or.inr ⟨hji, hne, by simp⟩
  · intro q j hq hj hne heq
    obtain rfl := hother q hq heq
    rw [hdir] at hj
    cases hj
    exact hne rfl
  · intro q hq hnone heq
    obtain rfl := hother q hq heq
    rw [hdir] at hnone
    cases hnone
  · exact h.nvm_le _

/-- The content is there, with tables that name the files as those of `w` and `t` do, and with guards of `w`. -/
structure Midway (cfg : Config) (P : String → Prop) (dur : Prop) (C : Nat → List Byte) (T : Tables) (w t : World) : Prop where
  linked : Linked cfg P T
  keeps : Keeps cfg P dur none T C t
  names : SameNames T t.tables
  dir : T.dir = w.tables.dir
  inos : T.inos = w.tables.inos
  guards : ∀ k n, (T.fdTable k).aofguard = some n → (w.tables.fdTable k).aofguard = some n
  back : WrittenBack w t

/-- The threads have run. -/
theorem Sound.midway (h : Sound cfg P dur C w) (ht : WTicks w w') : Midway cfg P dur C w.tables w w' := by
  obtain ⟨hl, hk⟩ := h.env ht
  rw [ht.tables] at hl hk
  refine ⟨hl, hk, ?_, rfl, rfl, fun _ _ hg => hg, .ticks ht⟩
  rw [ht.tables]
  exact ⟨rfl, rfl, rfl, rfl⟩

/-- Only descriptors and guards that are not in use have changed. -/
theorem Keeps.congr {x : Option Nat} (h : Keeps cfg P dur x T C w) (hfiles : w'.files = w.files) (hnvms : w'.nvms = w.nvms)
    (hguards : ∀ k n i, T.Guards k n i → w'.descs k = w.descs k ∧ w'.guards (some k) = w.guards (some k)) :
    Keeps cfg P dur x T C w' := by
  constructor
  · intro k n i hg hx
    have hview : (T.port k n (some k)).view w' = (T.port k n (some k)).view w := by
      rw [hg.port]
      simp only [Port.view]
      rw [hfiles, hnvms, (hguards k n i hg).1, (hguards k n i hg).2]
    rw [hview]
    exact h.guard k n i hg hx
  · rw [hfiles, hnvms]
    exact h.rest
  · rw [hfiles]
    exact h.bare
  · rw [hfiles]
    exact h.plain
  · rw [hnvms]
    exact h.vacant
  · rw [hnvms]
    exact h.fresh
  · exact h.small

theorem Keeps.setTables {x : Option Nat} (h : Keeps cfg P dur x T C w) (T' : Tables) :
    Keeps cfg P dur x T C { w with tables := T' } :=
  h.congr rfl rfl fun _ _ _ _ => ⟨rfl, rfl⟩

/-- `open` of a log sets up a guard of its content. -/
theorem newGuard_log {fd i : Nat} {file : String} (hn : SizeOk cfg.nvmSize) (h : Linked cfg P T)
    (hnames : NoCollision cfg P) (hk : Keeps cfg P dur none T C w) (hfile : Logs cfg P file) (hdir : T.dir file = some i)
    (hfd : T.fds fd = none) (hfree : ∀ k, T.fds k ≠ some i) (htable : w.tables.fdTable = T.fdTable)
    (hnvmDir : w.tables.nvmDir = T.nvmDir) (hfds : w.tables.fds = Function.update T.fds fd (some i))
    (happ : (w.descs fd).append = true) (hw : (w.descs fd).writable = true)
    (hI : ∀ w', w'.tables = w.tables → Keeps cfg P dur (some i) T C w' →
      Beside ⟨i, T.nvmDir (cfg.nvmFileName file), fd, none⟩ w w' →
      Starting dur (capOf cfg.nvmSize) (C i) (w.nvms (T.nvmDir (cfg.nvmFileName file)))
        (Port.view ⟨i, T.nvmDir (cfg.nvmFileName file), fd, none⟩ w') → I w') :
    wwp I (newGuard cfg file fd) (fun r w' => r = some (some (T.nvmDir (cfg.nvmFileName file))) ∧
      w'.tables = w.tables ∧ Keeps cfg P dur (some i) T C w' ∧ Spares (· = i) w w' ∧
        Guard False True dur (capOf cfg.nvmSize) (C i) (Port.view ⟨i, T.nvmDir (cfg.nvmFileName file), fd, none⟩ w')) w := by
  have hport : w.tables.port fd (T.nvmDir (cfg.nvmFileName file)) none =
      ⟨i, T.nvmDir (cfg.nvmFileName file), fd, none⟩ := by
    rw [Tables.port, hfds, Function.update_self]
    rfl
  unfold newGuard
  simp only [wwp, hfile.2, if_true, Cmd.wp_bind, wwp_succeeds, Cmd.wp_modify, Cmd.wp_get, Cmd.wp_pure, hnvmDir, hport]
  have hrest := hk.rest file i hfile hdir hfree (by simp)
  have hk' : Keeps cfg P dur (some i) T C { w with guards := Function.update w.guards none .blank } :=
    hk.weaken.congr rfl rfl fun k n j _ => ⟨rfl, by simp⟩
  refine Cmd.wp_conseq (wwp_alone hk' (h.apart_open hnames hfile hdir hfd hfree htable hfds)
    (fun w' htables hkeep hbeside hstart => hI w' htables hkeep ⟨hbeside.files, fun key hkey => ?_⟩ hstart)
    (hrest.init hn (hk.small i (Or.inl ⟨file, hfile, hdir⟩)) happ hw)) ?_
  · rw [hbeside.len key hkey]
    exact congrArg Aofguard.len (Function.update_of_ne hkey _ _)
  rintro ok w' ⟨⟨htables, hkeep, hspares⟩, rfl, hguard⟩
  exact ⟨rfl, htables, hkeep, hspares.files, hguard⟩

theorem Keeps.entered {fd i : Nat} {file : String} {guard : Option NvmIno} {x : Option Nat}
    (hk : Keeps cfg P dur x T C w) (hfd : T.fds fd = none)
    (hx : x = none ∨ x = some i ∧ cfg.needNvm file = true ∧ (∀ k, T.fds k ≠ some i))
    (hnone : guard = none → (w.files i).data = C i)
    (hsome : ∀ n, guard = some n → Guard False True dur (capOf cfg.nvmSize) (C i) (Port.view ⟨i, n, fd, some fd⟩ w))
    (hsmall : guard ≠ none → (C i).length < 2 ^ 48) (hl : Linked cfg P T) (hdir : T.dir file = some i) :
    Keeps cfg P dur none (T.entered fd i file guard) C w := by
  have hne : ∀ k j, k ≠ fd → (T.entered fd i file guard).fds k = some j → T.fds k = some j ∧ some j ≠ x := by
    intro k j hkfd hj
    have hj' : T.fds k = some j := by simpa [Tables.entered, hkfd] using hj
    refine ⟨hj', ?_⟩
    rcases hx with rfl | ⟨rfl, -, hfree⟩
    · simp
    · rintro ⟨⟩
      exact hfree k hj'
  have hentry : ∀ k, k ≠ fd → (T.entered fd i file guard).fdTable k = T.fdTable k := fun k hkfd =>
    Function.update_of_ne hkfd _ _
  constructor
  · rintro k n j ⟨hg, hj⟩ _
    by_cases hkfd : k = fd
    · subst hkfd
      have hport : (T.entered k i file guard).port k n (some k) = ⟨i, n, k, some k⟩ := by simp [Tables.port, Tables.entered]
      obtain rfl : i = j := by simpa [Tables.entered] using hj
      rw [hport]
      exact hsome n (by simpa [Tables.entered] using hg)
    · obtain ⟨hj', hxj⟩ := hne k j hkfd hj
      rw [hentry k hkfd] at hg
      have hgj : T.Guards k n j := ⟨hg, hj'⟩
      have hgj' : (T.entered fd i file guard).Guards k n j := ⟨by rw [hentry k hkfd, hg], hj⟩
      rw [hgj'.port, ← hgj.port]
      exact hk.guard k n j hgj hxj
  · intro q j hq hj hopen _
    have hji : j ≠ i := by
      rintro rfl
      exact hopen fd (by simp [Tables.entered])
    refine hk.rest q j hq hj (fun k hkj => ?_) ?_
    · have hkfd : k ≠ fd := by
        rintro rfl
        rw [hfd] at hkj
        cases hkj
      exact hopen k (by simpa [Tables.entered, hkfd] using hkj)
    · rcases hx with rfl | ⟨rfl, -, -⟩
      · simp
      · simpa using hji
  · intro k j hj hg _
    by_cases hkfd : k = fd
    · subst hkfd
      obtain rfl : i = j := by simpa [Tables.entered] using hj
      exact hnone (by simpa [Tables.entered] using hg)
    · obtain ⟨hj', hxj⟩ := hne k j hkfd hj
      rw [hentry k hkfd] at hg
      exact hk.bare k j hj' hg hxj
  · intro q j hq hj _
    refine hk.plain q j hq hj ?_
    rcases hx with rfl | ⟨rfl, hneed, -⟩
    · simp
    · rintro ⟨⟩
      obtain rfl := hl.dir_inj q file _ hj hdir
      rw [hq] at hneed
      cases hneed
  · exact hk.vacant
  · exact hk.fresh
  · rintro j (hlog | ⟨k, n, hg, hj⟩)
    · exact hk.small j (Or.inl hlog)
    · by_cases hkfd : k = fd
      · subst hkfd
        obtain rfl : i = j := by simpa [Tables.entered] using hj
        apply hsmall
        have hsome : guard = some n := by simpa [Tables.entered] using hg
        rw [hsome]
        simp
      · rw [hentry k hkfd] at hg
        exact hk.small j (Or.inr ⟨k, n, hg, (hne k j hkfd hj).1⟩)

/-- The content of a file that is no log may change. -/
theorem Keeps.rewrite {i : Nat} {f : File} (hk : Keeps cfg P dur none T C w) (hg : ∀ k n, ¬ T.Guards k n i)
    (hlog : ∀ q, Logs cfg P q → T.dir q ≠ some i) :
    Keeps cfg P dur none T (Function.update C i f.data) { w with files := Function.update w.files i f } := by
  constructor
  · intro k n j hgj hx
    have hj : j ≠ i := by
      rintro rfl
      exact hg k n hgj
    have hview : (T.port k n (some k)).view { w with files := Function.update w.files i f } =
        (T.port k n (some k)).view w := by
      rw [hgj.port]
      simp only [Port.view]
      rw [Function.update_of_ne hj]
    rw [hview, Function.update_of_ne hj]
    exact hk.guard k n j hgj hx
  · intro q j hq hj hopen hx
    have hji : j ≠ i := by
      rintro rfl
      exact hlog q hq hj
    simp only [Function.update_of_ne hji]
    exact hk.rest q j hq hj hopen hx
  · intro k j hj hg hx
    simp only [Function.update_apply]
    split_ifs
    · rfl
    · exact hk.bare k j hj hg hx
  · intro q j hq hj hx
    simp only [Function.update_apply]
    split_ifs
    · rfl
    · exact hk.plain q j hq hj hx
  · exact hk.vacant
  · exact hk.fresh
  · intro j hj
    have hji : j ≠ i := by
      rintro rfl
      rcases hj with ⟨q, hq, hdir⟩ | ⟨k, n, hgj⟩
      · exact hlog q hq hdir
      · exact hg k n hgj
    rw [Function.update_of_ne hji]
    exact hk.small j hj

/-- The content after `open`. -/
def openedContent (C : Nat → List Byte) (T : Tables) (file : String) (flags : Flags) : Nat → List Byte :=
  match T.dir file with
  | some i => if flags.trunc then Function.update C i [] else C
  | none => if flags.creat then Function.update C T.inos [] else C

/-- Logs are opened for appending, one descriptor at a time, and under one name. -/
structure OpenOk (cfg : Config) (P : String → Prop) (place file : String) (flags : Flags) (fd : Nat) (T : Tables) :
    Prop where
  place : place = file
  used : P file
  unused : T.fds fd = none
  append : cfg.needNvm file = true → flags.append = true ∧ flags.writable = true ∧ flags.trunc = false
  once : cfg.needNvm file = true → ∀ k i, T.fds k = some i → T.dir file ≠ some i

theorem World.registered_tables {fd i : Nat} (h : Linked cfg P T) (file : String) (guard : Option NvmIno)
    (htables : w.tables = { T with fds := Function.update T.fds fd (some i) }) :
    (w.registered fd file guard).tables = T.entered fd i file guard := by
  have hgrow := h.grow fd
  simp only [World.registered, Tables.setEntry, htables]
  simp only [Tables.entered, Tables.grow] at hgrow ⊢
  rw [hgrow]

/-- An open descriptor of a table that knows no more of it. -/
theorem Linked.ne_of_guards (h : T.fds fd = none) {k i : Nat} {n : NvmIno} (hg : T.Guards k n i) : k ≠ fd := by
  rintro rfl
  have := hg.2
  rw [h] at this
  cases this

section
variable {fd i : Nat} {file : String} {flags : Flags} {Q : Bool → World → Prop}

/-- `handle_open` of a log, once the kernel has opened its file `i`. -/
theorem handleOpen_log (hn : SizeOk cfg.nvmSize) (hnames : NoCollision cfg P) (h : Sound cfg P dur C w)
    (hok : OpenOk cfg P file file flags fd w.tables) (hdir : w.tables.dir file = some i)
    (hneed : cfg.needNvm file = true)
    (hQ : ∀ w' guard, Sound cfg P dur C w' → w'.tables = w.tables.entered fd i file guard → Spares (· = i) w w' →
      Q true w')
    (hI : ∀ w', SameNames w.tables w'.tables → Keeps cfg P dur (some i) w.tables C w' →
      Beside ⟨i, w.tables.nvmDir (cfg.nvmFileName file), fd, none⟩ w w' →
      Starting dur (capOf cfg.nvmSize) (C i) (w.nvms (w.tables.nvmDir (cfg.nvmFileName file)))
        (Port.view ⟨i, w.tables.nvmDir (cfg.nvmFileName file), fd, none⟩ w') → I w') :
    wwp I (handleOpen cfg file fd) Q (w.opened flags fd i) := by
  obtain ⟨hl, hk⟩ := h
  have hfiles : (w.opened flags fd i).files = w.files := by simp [World.opened, (hok.append hneed).2.2]
  obtain ⟨happ, hwr, htrunc⟩ := hok.append hneed
  have hfree : ∀ k, w.tables.fds k ≠ some i := fun k hki => hok.once hneed k i hki hdir
  have hk' : Keeps cfg P dur none w.tables C (w.opened flags fd i) := by
    refine hk.congr ?_ rfl fun k n j hg => ⟨Function.update_of_ne (Linked.ne_of_guards hok.unused hg) _ _, rfl⟩
    simp [World.opened, htrunc]
  apply wwp_handleOpen
  refine Cmd.wp_conseq (newGuard_log hn hl hnames hk' ⟨hok.used, hneed⟩ hdir hok.unused hfree rfl rfl rfl
    (by simpa [World.opened] using happ) (by simpa [World.opened] using hwr)
    fun w' htables hkeep hbeside hstart => hI w' ?_ hkeep ⟨fun j hj => ?_, hbeside.len⟩ hstart) ?_
  · rw [htables]
    exact ⟨rfl, rfl, rfl, rfl⟩
  · rw [← hfiles]
    exact hbeside.files j hj
  rintro r w' ⟨rfl, htables, hkeep, hspares, hguard⟩
  have hspares' : Spares (· = i) w (w'.registered fd file (some (w.tables.nvmDir (cfg.nvmFileName file)))) := by
    intro j hj
    rw [← hfiles]
    exact hspares j hj
  have hregistered := World.registered_tables hl file (some (w.tables.nvmDir (cfg.nvmFileName file))) htables
  refine ⟨by rw [htables]; exact hl.pos, ?_, hQ _ _ ⟨?_, ?_⟩ hregistered hspares'⟩
  · rw [htables]
    exact (congrFun (hl.grow fd) fd).trans (hl.closed fd hok.unused)
  · rw [hregistered]
    exact hl.entered hnames hdir hok.used (by simp [hneed]) fun _ => ⟨rfl, hfree⟩
  · rw [hregistered]
    refine Keeps.entered (x := some i) ?_ hok.unused (Or.inr ⟨rfl, hneed, hfree⟩) (by simp) ?_
      (fun _ => hk.small i (Or.inl ⟨file, ⟨hok.used, hneed⟩, hdir⟩)) hl hdir
    · refine hkeep.congr rfl rfl fun k n j hg => ⟨rfl, ?_⟩
      have hne := Linked.ne_of_guards hok.unused hg
      simp [World.registered, hne]
    · rintro n ⟨⟩
      simpa [Port.view, World.registered] using hguard

/-- `handle_open` of a file that is no log. -/
theorem handleOpen_plain (h : Sound cfg P dur C w) (hok : OpenOk cfg P file file flags fd w.tables)
    (hdir : w.tables.dir file = some i) (hneed : cfg.needNvm file = false) (hnames : NoCollision cfg P)
    (hQ : ∀ w' guard, Sound cfg P dur (if flags.trunc = true then Function.update C i [] else C) w' →
      w'.tables = w.tables.entered fd i file guard → Spares (fun j => j = i ∧ (cfg.needNvm file ∨ flags.trunc)) w w' →
      Q true w') :
    wwp I (handleOpen cfg file fd) Q (w.opened flags fd i) := by
  obtain ⟨hl, hk⟩ := h
  have hg : ∀ k n, ¬ w.tables.Guards k n i := fun k n hg => hl.not_plain hg hneed hdir
  have hlog : ∀ q, Logs cfg P q → w.tables.dir q ≠ some i := by
    intro q hq hqi
    exact needNvm_ne hq.2 hneed (hl.dir_inj q file i hqi hdir)
  have hk' : Keeps cfg P dur none w.tables (if flags.trunc = true then Function.update C i [] else C)
      (w.opened flags fd i) := by
    split_ifs with htrunc
    · have hcut := hk.rewrite (f := (w.files i).truncate 0) hg hlog
      have hdata : ((w.files i).truncate 0).data = [] := by simp [File.truncate]
      rw [hdata] at hcut
      refine hcut.congr ?_ rfl fun k n j hg => ⟨Function.update_of_ne (Linked.ne_of_guards hok.unused hg) _ _, rfl⟩
      simp [World.opened, htrunc]
    · refine hk.congr ?_ rfl fun k n j hg => ⟨Function.update_of_ne (Linked.ne_of_guards hok.unused hg) _ _, rfl⟩
      simp [World.opened, htrunc]
  have hspares : Spares (fun j => j = i ∧ (cfg.needNvm file ∨ flags.trunc)) w
      ((w.opened flags fd i).registered fd file none) := by
    intro j hj
    have hfile : (w.opened flags fd i).files j = w.files j := by
      simp only [World.opened]
      split_ifs with htrunc
      · exact Function.update_of_ne (fun hji => hj ⟨hji, Or.inr htrunc⟩) _ _
      · rfl
    change (w.files j).Flushed ((w.opened flags fd i).files j)
    rw [hfile]
    exact .refl _
  generalize (if flags.trunc = true then Function.update C i [] else C) = C' at *
  apply wwp_handleOpen
  unfold newGuard
  simp only [wwp, hneed, Bool.false_eq_true, if_false, Cmd.wp_pure]
  have hregistered := World.registered_tables (w := w.opened flags fd i) hl file none rfl
  refine ⟨hl.pos, ?_, hQ _ _ ⟨?_, ?_⟩ hregistered hspares⟩
  · exact (congrFun (hl.grow fd) fd).trans (hl.closed fd hok.unused)
  · rw [hregistered]
    exact hl.entered hnames hdir hok.used (fun _ => rfl) (by simp [hneed])
  · rw [hregistered]
    refine Keeps.entered (x := none) ?_ hok.unused (Or.inl rfl) (fun _ => ?_) (by simp) (by simp) hl hdir
    · exact hk'.congr rfl rfl fun _ _ _ _ => ⟨rfl, rfl⟩
    · exact hk'.plain file i hneed hdir (by simp)

/-- `handle_open` of the file `i`. -/
theorem handleOpen_sound (hn : SizeOk cfg.nvmSize) (hnames : NoCollision cfg P) (h : Sound cfg P dur C w)
    (hok : OpenOk cfg P file file flags fd w.tables) (hdir : w.tables.dir file = some i)
    (hQ : ∀ w' guard, Sound cfg P dur (if flags.trunc = true then Function.update C i [] else C) w' →
      w'.tables = w.tables.entered fd i file guard → Spares (fun j => j = i ∧ (cfg.needNvm file ∨ flags.trunc)) w w' →
      Q true w')
    (hI : cfg.needNvm file = true → ∀ w', SameNames w.tables w'.tables → Keeps cfg P dur (some i) w.tables C w' →
      Beside ⟨i, w.tables.nvmDir (cfg.nvmFileName file), fd, none⟩ w w' →
      Starting dur (capOf cfg.nvmSize) (C i) (w.nvms (w.tables.nvmDir (cfg.nvmFileName file)))
        (Port.view ⟨i, w.tables.nvmDir (cfg.nvmFileName file), fd, none⟩ w') → I w') :
    wwp I (handleOpen cfg file fd) Q (w.opened flags fd i) := by
  cases hneed : cfg.needNvm file with
  | true =>
    rw [(hok.append hneed).2.2] at hQ
    refine handleOpen_log hn hnames h hok hdir hneed (fun w' guard hs htables hspares => hQ w' guard hs htables ?_)
      (hI hneed)
    exact fun j hj => hspares j fun hji => hj ⟨hji, Or.inl hneed⟩
  | false => exact handleOpen_plain h hok hdir hneed hnames hQ

/-- The directory after `open`. -/
def openedDir (T : Tables) (file : String) (flags : Flags) : String → Option Nat :=
  match T.dir file with
  | some _ => T.dir
  | none => if flags.creat then Function.update T.dir file (some T.inos) else T.dir

theorem openedDir_old {q : String} (hi : i < T.inos) : openedDir T file flags q = some i ↔ T.dir q = some i := by
  unfold openedDir
  cases hdir : T.dir file with
  | some j => exact Iff.rfl
  | none =>
    dsimp only
    split_ifs
    · rw [Function.update_apply]
      split_ifs with hq
      · rw [hq, hdir]
        refine iff_of_false ?_ (by simp)
        rintro ⟨⟩
        omega
      · exact Iff.rfl
    · exact Iff.rfl

/-- What a power failure inside `open` finds: as it was, or the guard of a log is being set up. -/
inductive Opening (cfg : Config) (P : String → Prop) (dur : Prop) (C : Nat → List Byte) (file : String) (flags : Flags)
    (fd : Nat) (w : World) : World → Prop
  | before {t : World} : Midway cfg P dur C w.tables w t → Opening cfg P dur C file flags fd w t
  | starting {t : World} {T : Tables} {i : Nat} : cfg.needNvm file = true → Linked cfg P T →
      Keeps cfg P dur (some i) T (openedContent C w.tables file flags) t → SameNames T t.tables →
      T.dir = openedDir w.tables file flags → w.tables.inos ≤ T.inos → T.dir file = some i →
      T.nvmDir = w.tables.nvmDir → T.fdTable = w.tables.fdTable → Spares (fun j => j = i ∨ w.tables.inos ≤ j) w t →
      (∀ k, (t.guards (some k)).len = (w.guards (some k)).len) →
      Starting dur (capOf cfg.nvmSize) (openedContent C w.tables file flags i)
        (w.nvms (w.tables.nvmDir (cfg.nvmFileName file)))
        (Port.view ⟨i, w.tables.nvmDir (cfg.nvmFileName file), fd, none⟩ t) → Opening cfg P dur C file flags fd w t

theorem openAt_sound {place : String} (hn : SizeOk cfg.nvmSize) (hnames : NoCollision cfg P) (h : Sound cfg P dur C w)
    (hok : OpenOk cfg P place file flags fd w.tables) :
    wwp (Opening cfg P dur C file flags fd w) (openAt cfg place file flags fd) (fun r w' =>
      Sound cfg P dur (openedContent C w.tables file flags) w' ∧
        (w.tables.dir file ≠ none ∨ flags.creat = true →
          r = fd ∧ ∃ i, w'.tables.dir file = some i ∧ w'.tables.fds fd = some i) ∧
        w'.tables.dir = openedDir w.tables file flags ∧ w.tables.inos ≤ w'.tables.inos ∧
        (∀ k j, w'.tables.fds k = some j → w.tables.fds k = some j ∨ w'.tables.dir file = some j) ∧
        Spares (fun j => w.tables.inos ≤ j ∨ w.tables.dir file = some j ∧ (cfg.needNvm file ∨ flags.trunc)) w w') w := by
  obtain rfl := hok.place
  unfold openAt
  simp only [wwp, Cmd.wp_bind]
  refine wwp_syscallOpen fun w₁ ht => ?_
  have h₁ := h.env ht
  have hflush := ht.flushed
  refine ⟨.before (h.midway ht), ?_⟩
  have hnames' : SameNames w.tables w₁.tables := by
    rw [ht.tables]
    exact ⟨rfl, rfl, rfl, rfl⟩
  have htable : w₁.tables.fdTable = w.tables.fdTable := by rw [ht.tables]
  have hstart : ∀ t T C' i, cfg.needNvm place = true → Linked cfg P T → Keeps cfg P dur (some i) T C' t →
      C' = openedContent C w.tables place flags → SameNames T t.tables → T.dir = openedDir w.tables place flags →
      w.tables.inos ≤ T.inos → T.dir place = some i → T.nvmDir = w.tables.nvmDir → T.fdTable = w.tables.fdTable →
      (∀ j, j ≠ i → j < w.tables.inos → (w₁.files j).Flushed (t.files j)) →
      (∀ k, (t.guards (some k)).len = (w₁.guards (some k)).len) →
      Starting dur (capOf cfg.nvmSize) (C' i) (w₁.nvms (w.tables.nvmDir (cfg.nvmFileName place)))
        (Port.view ⟨i, w.tables.nvmDir (cfg.nvmFileName place), fd, none⟩ t) →
      Opening cfg P dur C place flags fd w t := by
    rintro t T _ i hneed hl hk rfl hsame hdir hinos hplace hnvm htab hfiles hlen hstarting
    rw [(WrittenBack.ticks ht).nvms] at hstarting
    refine .starting hneed hl hk hsame hdir hinos hplace hnvm htab (fun j hj => ?_) (fun k => ?_) hstarting
    · obtain ⟨hji, hlt⟩ := not_or.mp hj
      exact (hflush j).trans (hfiles j hji (Nat.lt_of_not_le hlt))
    · rw [hlen, ht.len]
  rw [← ht.tables] at hok hstart ⊢
  refine ⟨fun i hdir => ?_, fun hdir hcreat => ?_, fun hdir hcreat => ?_⟩
  · rw [if_pos rfl]
    refine (Cmd.wp_bind ..).mpr (handleOpen_sound hn hnames h₁ hok hdir (fun w' guard hs htables hspares => ?_)
      fun hneed t hsame hk hbeside hstarting => ?_)
    swap
    · refine hstart t w₁.tables C i hneed h₁.linked hk ?_ hsame ?_ le_rfl hdir rfl rfl (fun j hj _ => hbeside.files j hj)
        (fun k => hbeside.len (some k) (by simp)) hstarting
      · simp [openedContent, hdir, (hok.append hneed).2.2]
      · simp [openedDir, hdir]
    rw [if_pos rfl]
    refine ⟨?_, fun _ => ⟨rfl, i, ?_, ?_⟩, ?_, ?_, fun k j hk => ?_,
      fun j hj => (hflush j).trans (hspares j ?_)⟩
    · simpa [openedContent, hdir] using hs
    · rw [htables]
      exact hdir
    · rw [htables]
      simp [Tables.entered]
    · rw [htables]
      simp [openedDir, hdir, Tables.entered]
    · rw [htables]
      exact le_rfl
    · rw [htables] at hk ⊢
      simp only [Tables.entered, Function.update_apply] at hk ⊢
      split_ifs at hk with hkfd
      · cases hk
        exact Or.inr hdir
      · exact Or.inl hk
    · rintro ⟨rfl, hor⟩
      exact hj (Or.inr ⟨hdir, hor⟩)
  · rw [if_pos rfl]
    have hok' : OpenOk cfg P place place flags fd (w₁.created place).tables := by
      refine ⟨rfl, hok.used, hok.unused, hok.append, fun _ k j hj hdir' => ?_⟩
      have hino : w₁.tables.inos = j := by simpa [World.created] using hdir'
      have := h₁.linked.fds_lt k j hj
      omega
    refine (Cmd.wp_bind ..).mpr (handleOpen_sound hn hnames (h₁.created hdir) hok' (by simp [World.created])
      (fun w' guard hs htables hspares => ?_) fun hneed t hsame hk hbeside hstarting => ?_)
    swap
    · refine hstart t (w₁.created place).tables (Function.update C w₁.tables.inos []) w₁.tables.inos hneed
        (h₁.created hdir).linked hk ?_ hsame ?_ (Nat.le_succ _) ?_ rfl rfl (fun j hj _ => ?_) (fun k => ?_) hstarting
      · simp [openedContent, hdir, hcreat]
      · simp [openedDir, hdir, hcreat, World.created]
      · simp [World.created]
      · have hfile : (w₁.created place).files j = w₁.files j := Function.update_of_ne hj _ _
        have := hbeside.files j hj
        rwa [hfile] at this
      · exact hbeside.len (some k) (by simp)
    rw [if_pos rfl]
    refine ⟨?_, fun _ => ⟨rfl, w₁.tables.inos, ?_, ?_⟩, ?_, ?_, fun k j hk => ?_, fun j hj => (hflush j).trans ?_⟩
    · have hC : (if flags.trunc = true then
          Function.update (Function.update C w₁.tables.inos []) w₁.tables.inos [] else
            Function.update C w₁.tables.inos []) = openedContent C w₁.tables place flags := by
        simp [openedContent, hdir, hcreat]
      rwa [hC] at hs
    · rw [htables]
      simp [World.created, Tables.entered]
    · rw [htables]
      simp [Tables.entered]
    · rw [htables]
      simp [openedDir, hdir, hcreat, World.created, Tables.entered]
    · rw [htables]
      exact Nat.le_succ _
    · rw [htables] at hk ⊢
      simp only [Tables.entered, World.created, Function.update_apply] at hk ⊢
      split_ifs at hk with hkfd
      · cases hk
        exact Or.inr (by simp)
      · exact Or.inl hk
    · have hne : j ≠ w₁.tables.inos := fun hji => hj (Or.inl hji.ge)
      have hfile : (w₁.created place).files j = w₁.files j := Function.update_of_ne hne _ _
      have := hspares j fun hji => hne hji.1
      rwa [hfile] at this
  · rw [if_neg (by simp)]
    refine ⟨?_, ?_, ?_, le_rfl, fun _ _ => Or.inl, fun j _ => hflush j⟩
    · simpa [openedContent, hdir, hcreat] using h₁
    · rintro (hne | hc)
      · exact absurd hdir hne
      · rw [hcreat] at hc
        cases hc
    · simp [openedDir, hdir, hcreat]

end

/-! ## `close` -/

/-- `fd` is closed. -/
def Tables.left (T : Tables) (fd : Nat) : Tables :=
  { T with fds := Function.update T.fds fd none, fdTable := Function.update T.fdTable fd .blank }

theorem Linked.left (h : Linked cfg P T) (fd : Nat) : Linked cfg P (T.left fd) := by
  obtain ⟨h₁, h₂, h₃, h₄, h₅, h₆, h₇, h₈, h₉, h₁₀, h₁₁, h₁₂, h₁₃, h₁₄, h₁₅⟩ := h
  constructor
  all_goals simp only [Tables.left, Function.update_apply, Tables.Guards, Logs, Filedes.blank] at *
  all_goals grind

/-- The log of a descriptor that has no guard any more is at rest once the descriptor is closed. -/
theorem Keeps.left {fd : Nat} (hk : Keeps cfg P dur none T C w)
    (hrest : ∀ q i, Logs cfg P q → T.dir q = some i → T.fds fd = some i →
      Rest dur (capOf cfg.nvmSize) (C i) (w.files i) (w.nvms (T.nvmDir (cfg.nvmFileName q)))) :
    Keeps cfg P dur none (T.left fd) C w := by
  have hfds : ∀ k i, (T.left fd).fds k = some i → T.fds k = some i ∧ (T.left fd).fdTable k = T.fdTable k := by
    intro k i hki
    by_cases hne : k = fd
    · simp [Tables.left, hne] at hki
    · simpa [Tables.left, hne] using hki
  constructor
  · rintro k n i ⟨hg, hi⟩ hx
    obtain ⟨hi', hentry⟩ := hfds k i hi
    rw [hentry] at hg
    have hgi : T.Guards k n i := ⟨hg, hi'⟩
    have hgi' : (T.left fd).Guards k n i := ⟨by rw [hentry, hg], hi⟩
    rw [hgi'.port, ← hgi.port]
    exact hk.guard k n i hgi hx
  · intro q i hq hi hopen hx
    by_cases hfd : T.fds fd = some i
    · exact hrest q i hq hi hfd
    · refine hk.rest q i hq hi (fun k hki => ?_) hx
      have hne : k ≠ fd := by
        rintro rfl
        exact hfd hki
      exact hopen k (by simpa [Tables.left, hne] using hki)
  · intro k i hi hg hx
    obtain ⟨hi', hentry⟩ := hfds k i hi
    rw [hentry] at hg
    exact hk.bare k i hi' hg hx
  · exact hk.plain
  · exact hk.vacant
  · exact hk.fresh
  · rintro i (hlog | ⟨k, n, hg, hi⟩)
    · exact hk.small i (Or.inl hlog)
    · obtain ⟨hi', hentry⟩ := hfds k i hi
      rw [hentry] at hg
      exact hk.small i (Or.inr ⟨k, n, hg, hi'⟩)

/-- The ring of a guard that is closed is not exactly full. -/
def CloseOk (cfg : Config) (fd : Nat) (w : World) : Prop :=
  (w.tables.fdTable fd).aofguard.isSome → (w.guards (some fd)).len ≠ capOf cfg.nvmSize

/-- The end of `close`, once the entry is blank. -/
theorem syscallClose_sound {fd : Nat} (hl : Linked cfg P T) (hk : Keeps cfg P dur none (T.left fd) C w)
    (htables : w.tables = { T with fdTable := Function.update T.fdTable fd .blank })
    (hI : ∀ t, SameNames (T.left fd) t.tables → Keeps cfg P dur none (T.left fd) C t → WrittenBack w t → I t) :
    wwp I (syscallClose fd) (fun _ w' => w'.tables = T.left fd ∧ Sound cfg P dur C w' ∧
      ∀ j, (w.files j).Flushed (w'.files j)) w := by
  have hdone : ∀ w', w'.tables = T.left fd → Keeps cfg P dur none (T.left fd) C w' →
      (∀ j, (w.files j).Flushed (w'.files j)) →
      w'.tables = T.left fd ∧ Sound cfg P dur C w' ∧ ∀ j, (w.files j).Flushed (w'.files j) := by
    intro w' h' hk' hflush
    refine ⟨h', ⟨?_, ?_⟩, hflush⟩
    · rw [h']
      exact hl.left fd
    · rwa [h']
  have henv : ∀ w₁, WTicks w w₁ → Keeps cfg P dur none (T.left fd) C w₁ := by
    refine fun w₁ ht => hk.env (fun k n j hg _ => ?_) ht
    have hne : k ≠ fd := by
      rintro rfl
      simp [Tables.Guards, Tables.left] at hg
    rw [htables]
    simpa [Tables.Guards, Tables.left, hne] using hg
  refine wwp_syscallClose (fun hnone => hdone w ?_ hk fun _ => .refl _) fun w₁ i _ ht =>
    ⟨hI w₁ ?_ (henv w₁ ht) (.ticks ht), hdone _ ?_ ((henv w₁ ht).setTables _) ht.flushed⟩
  · rw [htables] at hnone ⊢
    have hsame : Function.update T.fds fd none = T.fds := by
      rw [← hnone]
      exact Function.update_eq_self fd T.fds
    simp only [Tables.left, hsame]
  · rw [ht.tables, htables]
    exact ⟨rfl, rfl, rfl, rfl⟩
  · rw [ht.tables, htables]
    rfl

/-- The guard of a descriptor has not returned. -/
theorem Sound.not_exited {fd : Nat} (h : Sound cfg P dur C w) (hg : (w.tables.fdTable fd).aofguard.isSome) :
    (w.guards (some fd)).thread ≠ .exited := by
  obtain ⟨n, hn⟩ := Option.isSome_iff_exists.mp hg
  obtain ⟨i, hi⟩ := h.linked.guards hn
  exact (h.keeps.guard fd n i hi (by simp)).not_exited

theorem Keeps.left_bare {fd : Nat} (hl : Linked cfg P T) (hk : Keeps cfg P dur none T C w)
    (hg : (T.fdTable fd).aofguard = none) : Keeps cfg P dur none (T.left fd) C w := by
  refine hk.left fun q i hq hi hfd => ?_
  obtain ⟨n, hn, -⟩ := hl.guarded hq.2 hi hfd
  rw [hg] at hn
  cases hn

theorem Keeps.left_guarded {fd : Nat} {n : NvmIno} (hl : Linked cfg P T) (hk : Keeps cfg P dur none T C w)
    (hg : (T.fdTable fd).aofguard = some n) (hlen : (w.guards (some fd)).len ≠ capOf cfg.nvmSize) :
    Keeps cfg P dur none (T.left fd) C w := by
  refine hk.left fun q i hq hi hfd => ?_
  have hgi : T.Guards fd n i := ⟨hg, hfd⟩
  have hguard := hk.guard fd n i hgi (by simp)
  rw [hgi.port] at hguard
  rw [(hl.link fd n i q hgi hq).mp hi]
  exact hguard.rest hlen

theorem Tables.left_guard {fd k : Nat} {n : NvmIno} (h : ((T.left fd).fdTable k).aofguard = some n) :
    (T.fdTable k).aofguard = some n := by
  by_cases hne : k = fd
  · simp [Tables.left, hne, Filedes.blank] at h
  · simpa [Tables.left, hne] using h

theorem close_sound {fd : Nat} (h : Sound cfg P dur C w) (hok : CloseOk cfg fd w) :
    wwp (fun t => ∃ T, Midway cfg P dur C T w t) (close fd) (fun _ w' => w'.tables = w.tables.left fd ∧
      Sound cfg P dur C w' ∧ ∀ j, (w.files j).Flushed (w'.files j)) w := by
  have hexit := fun (hg : (w.tables.fdTable fd).aofguard.isSome) => h.not_exited hg
  obtain ⟨hl, hk⟩ := h
  have hleft : ∀ t, SameNames (w.tables.left fd) t.tables → Keeps cfg P dur none (w.tables.left fd) C t →
      WrittenBack w t → ∃ T, Midway cfg P dur C T w t :=
    fun t hsame hkeep hback => ⟨w.tables.left fd, hl.left fd, hkeep, hsame, rfl, rfl, fun _ _ hg => Tables.left_guard hg, hback⟩
  unfold close
  simp only [wwp, Cmd.wp_bind, Cmd.wp_get, Cmd.wp_ite, wwp_setTables]
  constructor
  · intro _
    refine wwp_dropGuard ?_ ?_ ?_
    · simpa [Tables.setEntry] using hexit
    · intro hg
      have hnone : (w.tables.fdTable fd).aofguard = none := by simpa [Tables.setEntry] using hg
      simp only [true_implies, not_true_eq_false, false_implies, and_true]
      refine syscallClose_sound hl ?_ ?_ fun t hsame hkeep hback => hleft t hsame hkeep ?_
      · exact (hk.left_bare hl hnone).congr rfl rfl fun _ _ _ _ => ⟨rfl, rfl⟩
      · simp [Tables.setEntry, hnone, Filedes.blank]
      · exact ⟨hback.nvms, hback.descs, hback.files, hback.len⟩
    · intro n w₁ hg ht
      have hsome : (w.tables.fdTable fd).aofguard = some n := by simpa [Tables.setEntry] using hg
      have hback₁ : WrittenBack w w₁ := ⟨funext ht.nvms, funext ht.descs, ht.flushed, ht.len⟩
      have hk₁ : Keeps cfg P dur none w.tables C w₁ := by
        refine (hk.setTables _).env (fun k m j hgk _ => ?_) ht
        by_cases hne : k = fd
        · subst hne
          simpa [Tables.Guards, Tables.setEntry] using hgk
        · simpa [Tables.Guards, Tables.setEntry, hne] using hgk
      refine ⟨⟨w.tables, hl, hk₁, ?_, rfl, rfl, fun _ _ hgk => hgk, hback₁⟩, ?_⟩
      · rw [ht.tables]
        exact ⟨rfl, rfl, rfl, rfl⟩
      simp only [true_implies, not_true_eq_false, false_implies, and_true]
      have hlen : (w₁.guards (some fd)).len ≠ capOf cfg.nvmSize := by
        rw [ht.len]
        exact hok (by rw [hsome]; rfl)
      refine Cmd.wp_conseq (syscallClose_sound hl ((hk₁.left_guarded hl hsome hlen).congr rfl rfl
        fun k m j hgk => ⟨rfl, ?_⟩) ?_ fun t hsame hkeep hback => hleft t hsame hkeep
          (hback₁.trans ((WrittenBack.dropped w₁ fd).trans hback)))
        fun _ w' h' => ⟨h'.1, h'.2.1, fun j => (ht.flushed j).trans (h'.2.2 j)⟩
      · have hne : k ≠ fd := by
          rintro rfl
          simp [Tables.Guards, Tables.left] at hgk
        simp [World.dropped, hne]
      · simp [World.dropped, Tables.setEntry, ht.tables, Filedes.blank]
  · intro hge
    have hblank := hl.beyond fd (Nat.le_of_not_lt hge)
    refine syscallClose_sound hl (hk.left_bare hl (by rw [hblank]; rfl)) ?_ hleft
    have hsame : Function.update w.tables.fdTable fd .blank = w.tables.fdTable := by
      rw [← hblank]
      exact Function.update_eq_self fd _
    rw [hsame]

/-! ## `write`, `fsync` and `fdatasync` -/

/-- The port of a guard in the table. -/
theorem Linked.apart_guard {k i : Nat} {n : NvmIno} (h : Linked cfg P T) (hg : T.Guards k n i) :
    Apart cfg P T T ⟨i, n, k, some k⟩ := by
  constructor
  · intro k' n' i' hg' hne
    have hk : k' ≠ k := by
      rintro rfl
      have := hg.2
      rw [hg'.2] at this
      cases this
      exact hne rfl
    refine ⟨hg', hk, ?_, by simpa using Ne.symm hk⟩
    rintro rfl
    exact hk (h.apart k k' n' hg.1 hg'.1)
  · intro k' n' hg'
    by_cases hk : k' = k
    · subst hk
      obtain rfl : n' = n := by
        have := hg.1
        rw [hg'] at this
        exact Option.some.inj this
      exact Or.inl (hg.port _)
    · obtain ⟨i', hi'⟩ := h.guards hg'
      rw [hi'.port]
      refine Or.inr ⟨?_, hk, by simpa using Ne.symm hk⟩
      rintro rfl
      exact hk (h.alone k k' n i' hg hi'.2)
  · intro q j hq hj hne heq
    have := (h.link k n i q hg hq).mpr heq
    rw [hj] at this
    cases this
    exact hne rfl
  · intro q hq hnone heq
    have := (h.link k n i q hg hq).mpr heq
    rw [hnone] at this
    cases this
  · exact h.guard_le k n hg.1

/-- The log of one guard has changed. -/
theorem Keeps.update {k i : Nat} {n : NvmIno} {L : List Byte} (hl : Linked cfg P T)
    (hk : Keeps cfg P dur (some i) T C w) (hg : T.Guards k n i)
    (hguard : Guard False True dur (capOf cfg.nvmSize) L (Port.view ⟨i, n, k, some k⟩ w)) (h48 : L.length < 2 ^ 48) :
    Keeps cfg P dur none T (Function.update C i L) w := by
  have hC : ∀ j, j ≠ i → Function.update C i L j = C j := fun j hj => Function.update_of_ne hj _ _
  constructor
  · intro k' n' j hgj _
    by_cases hj : j = i
    · subst hj
      obtain rfl := hl.alone k k' n j hg hgj.2
      obtain rfl : n' = n := by
        have := hg.1
        rw [hgj.1] at this
        exact Option.some.inj this
      rw [hgj.port, Function.update_self]
      exact hguard
    · rw [hC j hj]
      exact hk.guard k' n' j hgj (by simpa using hj)
  · intro q j hq hj hopen _
    have hji : j ≠ i := by
      rintro rfl
      exact hopen k hg.2
    rw [hC j hji]
    exact hk.rest q j hq hj hopen (by simpa using hji)
  · intro k' j hj hnone _
    have hji : j ≠ i := by
      rintro rfl
      obtain rfl := hl.alone k k' n j hg hj
      rw [hg.1] at hnone
      cases hnone
    rw [hC j hji]
    exact hk.bare k' j hj hnone (by simpa using hji)
  · intro q j hq hj _
    have hji : j ≠ i := by
      rintro rfl
      exact hl.not_plain hg hq hj
    rw [hC j hji]
    exact hk.plain q j hq hj (by simpa using hji)
  · exact hk.vacant
  · exact hk.fresh
  · intro j hj
    rw [Function.update_apply]
    split_ifs
    · exact h48
    · exact hk.small j hj

/-- Guarded files stay below `2 ^ 48` bytes. -/
def WriteOk (fd : Nat) (data : List Byte) (w : World) : Prop :=
  ∀ n i, w.tables.Guards fd n i → (w.files i).data.length + data.length < 2 ^ 48

/-- The content of the file after a write of `data` that returned `r`. -/
def Written (L : List Byte) (fd : Nat) (data : List Byte) (r : Int) (w : World) (L' : List Byte) : Prop :=
  if r = -1 then L' = L
  else r = data.length ∧ ((w.descs fd).append = true → L' = L ++ data)

theorem Linked.entry (h : Linked cfg P T) (fd : Nat) : T.entry fd = T.fdTable fd := by
  unfold Tables.entry
  split_ifs with hlt
  · rfl
  · exact (h.beyond fd (Nat.le_of_not_lt hlt)).symm

/-- What a power failure inside `write` finds: as it was, or inside `aofguard_write`. -/
inductive Writing (cfg : Config) (P : String → Prop) (dur : Prop) (C : Nat → List Byte) (fd : Nat) (data : List Byte)
    (w : World) : World → Prop
  | before {t : World} : Midway cfg P dur C w.tables w t → Writing cfg P dur C fd data w t
  | inside {t : World} {i : Nat} {n : NvmIno} : w.tables.Guards fd n i → t.tables = w.tables →
      Keeps cfg P dur (some i) w.tables C t → Beside ⟨i, n, fd, some fd⟩ w t →
      Safe True dur (capOf cfg.nvmSize) (w.guards (some fd)).len (C i) data (Port.view ⟨i, n, fd, some fd⟩ t) →
      Writing cfg P dur C fd data w t

theorem write_guarded {fd i : Nat} {n : NvmIno} {data : List Byte} (hn : SizeOk cfg.nvmSize) (h : Sound cfg P dur C w)
    (hg : w.tables.Guards fd n i) (hok : WriteOk fd data w) (hlen : data.length ≠ 0) :
    wwp (Writing cfg P dur C fd data w) (write fd data) (fun r w' => w'.tables = w.tables ∧ ∃ L', Written (C i) fd data r w L' ∧
      Sound cfg P dur (Function.update C i L') w' ∧ Spares (· = i) w w') w := by
  obtain ⟨hl, hk⟩ := h
  have hguard := hk.guard fd n i hg (by simp)
  rw [hg.port] at hguard
  have hdata : (w.files i).data = C i := hguard.data
  have h48 := hok n i hg
  rw [hdata] at h48
  unfold write
  simp only [wwp, if_neg hlen, Cmd.wp_bind, Cmd.wp_get, hl.entry, hg.1, hg.port, Cmd.wp_pure]
  refine Cmd.wp_conseq (wwp_alone hk.weaken (hl.apart_guard hg)
    (fun t htables hkeep hbeside hsafe => .inside hg htables hkeep hbeside hsafe)
    (aofguardWrite_spec (answers_zero _) (succeed_zero _) hn.blocks hguard (by omega) (by omega))) ?_
  rintro ok w' ⟨⟨htables, hkeep, hspares⟩, hguard', -⟩
  refine ⟨htables, if ok = true then C i ++ data else C i, ?_, ⟨?_, ?_⟩, hspares.files⟩
  · unfold Written
    cases ok with
    | true => simp
    | false => simp
  · rw [htables]
    exact hl
  · rw [htables]
    refine Keeps.update hl hkeep hg hguard' ?_
    split_ifs
    · rw [List.length_append]
      omega
    · omega

/-- A descriptor without a guard is of no log and of no guarded file. -/
theorem Linked.unguarded {k i : Nat} (h : Linked cfg P T) (hk : T.fds k = some i) (hg : (T.fdTable k).aofguard = none) :
    (∀ k' n, ¬ T.Guards k' n i) ∧ ∀ q, Logs cfg P q → T.dir q ≠ some i := by
  constructor
  · intro k' n hg'
    obtain rfl := h.alone k' k n i hg' hk
    have := hg'.1
    rw [hg] at this
    cases this
  · intro q hq hdir
    obtain ⟨n, hn, -⟩ := h.guarded hq.2 hdir hk
    rw [hg] at hn
    cases hn

theorem write_unguarded {fd i : Nat} {data : List Byte} (h : Sound cfg P dur C w) (hfd : w.tables.fds fd = some i)
    (hg : (w.tables.fdTable fd).aofguard = none) (hlen : data.length ≠ 0) :
    wwp (Writing cfg P dur C fd data w) (write fd data) (fun r w' => w'.tables = w.tables ∧ ∃ L', Written (C i) fd data r w L' ∧
      Sound cfg P dur (Function.update C i L') w' ∧ Spares (· = i) w w' ∧
      ((w.descs fd).append = true → (w.files i).synced ≤ (w'.files i).synced)) w := by
  unfold write
  simp only [wwp, if_neg hlen, Cmd.wp_bind, Cmd.wp_get, h.linked.entry, hg, hfd, Cmd.wp_pure]
  refine wwp_syscallWrite (fun _ => ?_) fun w₁ _ hshort ht => ⟨.before (h.midway ht), ?_⟩
  · refine ⟨rfl, C i, by simp [Written], ?_, .refl _ w, fun _ => le_rfl⟩
    rw [Function.update_eq_self]
    exact h
  · obtain ⟨hl, hk⟩ := h.env ht
    obtain ⟨hnog, hnolog⟩ := hl.unguarded (by rw [ht.tables, hfd]) (by rw [ht.tables, hg])
    have hdata : (w₁.files i).data = C i := hk.bare fd i (by rw [ht.tables, hfd]) (by rw [ht.tables, hg]) (by simp)
    refine ⟨ht.tables, ((w₁.descs fd).write (w₁.files i) data).1.data, ?_, ⟨hl, ?_⟩, fun j hj => ?_, fun happ => ?_⟩
    · rw [if_neg (by omega)]
      unfold Written
      rw [if_neg (by omega)]
      refine ⟨rfl, fun happ => ?_⟩
      rw [(Desc.write_append (by rw [ht.descs, happ]) _ _).1, hdata]
    · refine Keeps.congr (hk.rewrite hnog hnolog) rfl ?_ ?_
      · simp [Port.put, Port.view, Sys.write]
      · intro k n j hgj
        have hne : k ≠ fd := by
          rintro rfl
          have hsome : (w₁.tables.fdTable k).aofguard = some n := hgj.1
          rw [ht.tables, hg] at hsome
          cases hsome
        simp [Port.put, hne]
    · simp only [Port.put]
      rw [Function.update_of_ne hj]
      exact ht.flushed j
    · simp only [Port.put, Port.view, Sys.write, Function.update_self]
      rw [(Desc.write_append (by rw [ht.descs, happ]) _ _).2.1]
      exact ht.synced i

theorem write_sound {fd : Nat} {data : List Byte} (hn : SizeOk cfg.nvmSize) (h : Sound cfg P dur C w)
    (hok : WriteOk fd data w) :
    wwp (Writing cfg P dur C fd data w) (write fd data) (fun r w' => w'.tables = w.tables ∧ ∃ C', Sound cfg P dur C' w' ∧
      (∀ j, w.tables.fds fd ≠ some j → C' j = C j) ∧
      (∀ i, w.tables.fds fd = some i → Written (C i) fd data r w (C' i)) ∧
      Spares (fun j => w.tables.fds fd = some j) w w' ∧
      ((w.tables.fdTable fd).aofguard = none → (w.descs fd).append = true →
        ∀ i, (w.files i).synced ≤ (w'.files i).synced)) w := by
  have hfrom : ∀ i, w.tables.fds fd = some i → data.length ≠ 0 →
      wwp (Writing cfg P dur C fd data w) (write fd data) (fun r w' => w'.tables = w.tables ∧ ∃ L', Written (C i) fd data r w L' ∧
        Sound cfg P dur (Function.update C i L') w' ∧ Spares (· = i) w w' ∧
        ((w.tables.fdTable fd).aofguard = none → (w.descs fd).append = true →
          (w.files i).synced ≤ (w'.files i).synced)) w := by
    intro i hi hlen
    cases hg : (w.tables.fdTable fd).aofguard with
    | some n =>
      refine Cmd.wp_conseq (write_guarded hn h ⟨hg, hi⟩ hok hlen) ?_
      rintro r w' ⟨htables, L', hL, hsound, hspares⟩
      exact ⟨htables, L', hL, hsound, hspares, by simp⟩
    | none =>
      refine Cmd.wp_conseq (write_unguarded h hi hg hlen) ?_
      rintro r w' ⟨htables, L', hL, hsound, hspares, hsynced⟩
      exact ⟨htables, L', hL, hsound, hspares, fun _ => hsynced⟩
  by_cases hlen : data.length = 0
  · obtain rfl := List.eq_nil_of_length_eq_zero hlen
    unfold write
    simp only [List.length_nil, if_true, wwp, Cmd.wp_pure]
    exact ⟨trivial, C, h, fun _ _ => rfl, fun i _ => by simp [Written], .refl _ w, fun _ _ _ => le_rfl⟩
  · cases hfd : w.tables.fds fd with
    | some i =>
      refine Cmd.wp_conseq (hfrom i hfd hlen) ?_
      rintro r w' ⟨htables, L', hL, hsound, hspares, hsynced⟩
      have hne : ∀ j, ¬ some i = some j → j ≠ i := fun j hj hji => hj (by rw [hji])
      refine ⟨htables, _, hsound, fun j hj => ?_, fun j hj => ?_, fun j hj => hspares j (hne j hj), fun hg happ j => ?_⟩
      · exact Function.update_of_ne (hne j hj) _ _
      · cases hj
        rwa [Function.update_self]
      · by_cases hj : j = i
        · rw [hj]
          exact hsynced hg happ
        · exact (hspares j hj).synced
    | none =>
      unfold write
      have hblank := h.linked.closed fd hfd
      simp only [wwp, if_neg hlen, Cmd.wp_bind, Cmd.wp_get, h.linked.entry, hblank, Filedes.blank, hfd, Cmd.wp_pure]
      exact ⟨trivial, C, h, fun _ _ => rfl, by simp, .refl _ w, fun _ _ _ => le_rfl⟩

/-- `fsync` and `fdatasync` only write files back. -/
theorem Keeps.flush (hk : Keeps cfg P dur none T C w)
    (hfile : ∀ i, (w.files i).Flushed (w'.files i))
    (hnvms : w'.nvms = w.nvms) (hdescs : w'.descs = w.descs) (hguards : w'.guards = w.guards) :
    Keeps cfg P dur none T C w' := by
  constructor
  · intro k n i hg hx
    refine (hk.guard k n i hg hx).flushed ⟨?_, ?_, ?_, (hfile _).data, (hfile _).synced,
      (hfile _).changes⟩
    · simp only [Port.view, hnvms]
    · simp only [Port.view, hdescs]
    · simp only [Port.view, hguards]
  · intro q i hq hi hopen hx
    rw [hnvms]
    exact (hk.rest q i hq hi hopen hx).flushed (hfile i)
  · intro k i hi hg hx
    rw [(hfile i).data]
    exact hk.bare k i hi hg hx
  · intro q i hq hi hx
    rw [(hfile i).data]
    exact hk.plain q i hq hi hx
  · rw [hnvms]
    exact hk.vacant
  · rw [hnvms]
    exact hk.fresh
  · exact hk.small

theorem syncCall_sound {fd : Nat} (h : Sound cfg P dur C w) :
    wwp (Midway cfg P dur C w.tables w) (syncCall cfg fd) (fun r w' => w'.tables = w.tables ∧ Sound cfg P dur C w' ∧
      (∀ i, (w.files i).Flushed (w'.files i)) ∧
      (r = 0 → (w.tables.fdTable fd).aofguard = none → ∀ i, w.tables.fds fd = some i →
        (w'.files i).synced = (w'.files i).data.length)) w := by
  unfold syncCall
  simp only [wwp, Cmd.wp_bind, Cmd.wp_get, Cmd.wp_ite, Cmd.wp_pure, h.linked.entry]
  refine ⟨fun hoff => ⟨trivial, h, fun _ => .refl _, fun _ hg => ?_⟩, fun _ => ?_⟩
  · simp [hg] at hoff
  · unfold syscallFsync
    simp only [Cmd.wp_bind, wwp_succeeds, Cmd.wp_get, if_true]
    cases hfd : w.tables.fds fd with
    | none => exact ⟨rfl, h, fun _ => .refl _, by simp⟩
    | some i =>
      refine (Cmd.wp_bind ..).mpr (Cmd.wp_step fun w₁ ht => ⟨h.midway ht, ?_⟩)
      have hfile : ∀ j, (w₁.files j).Flushed (Function.update w₁.files i (w₁.files i).syncAll j) := by
        intro j
        rw [Function.update_apply]
        split_ifs with hj
        · subst hj
          exact ⟨rfl, File.synced_le_sync _ _ _, File.limit_sync_le _ _ _, rfl⟩
        · exact .refl _
      obtain ⟨hl, hk⟩ := h.env ht
      refine ⟨ht.tables, ⟨hl, hk.flush hfile rfl rfl rfl⟩, fun j => (ht.flushed j).trans (hfile j), fun _ _ j hj => ?_⟩
      cases hj
      simp only [Function.update_self, File.syncAll_synced, File.syncAll_data]

end

end PmemProgram.Wal
