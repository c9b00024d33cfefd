import PmemProgram.Wal.World

/-!
# What the files of a process hold

The abstract content of an inode is a list of bytes. A process keeps it in the file, or in the file and a ring.

* `Rest dur cap L f nvm` : the file and the NVM file of a closed log say `L`;
* `Linked cfg P T` : how names, inodes, NVM inodes, descriptors and guards hang together; `P` are the paths in use, on
  which `get_nvm_file_name` has no collisions;
* `Keeps cfg P dur x T C w` : with the tables `T`, the content of every inode but `x` is `C` (`Keeps.env`);
* `Sound cfg P dur C w` : both, for the tables of `w`;
* `wwp_alone` : a call on the port of one log, which leaves all others alone.
-/

namespace PmemProgram.Wal
open PmemProgram.Lib PmemProgram.Lib.Ring

/-! ## One log -/

/-- The log of a closed file is `L`: all of it is in the file, or the NVM file says so. If `dur`, the file may be what a
power failure has left, and the log must survive one. -/
def Rest (dur : Prop) (cap : Nat) (L : List Byte) (f : File) (nvm : Option NvmFile) : Prop :=
  (nvm = none ∧ f.data = L ∧ (dur → f.OnDisk L)) ∨
    ∃ x fl st ln, nvm = some x ∧ Holds cap x fl st ln L ∧ ln < cap ∧ fl ≤ f.data.length ∧ (dur → fl ≤ f.synced) ∧
      f.data.take fl = L.take fl ∧ (¬ dur → f.data = L)

section
variable {err app dur : Prop} {cap : Nat} {L : List Byte} {s t : Sys} {f g : File} {nvm : Option NvmFile}

/-- More of the file is on the disk. -/
structure Flushed (s t : Sys) : Prop where
  nvm : t.nvm = s.nvm
  desc : t.desc = s.desc
  guard : t.guard = s.guard
  data : t.file.data = s.file.data
  synced : s.file.synced ≤ t.file.synced
  changes : t.file.changes = s.file.changes

theorem Guard.flushed (h : Guard err app dur cap L s) (ht : Flushed s t) : Guard err app dur cap L t := by
  obtain ⟨fl, st, ln, bc, x, hlive, hx, hh, hbc⟩ := h
  refine ⟨fl, st, ln, bc, x, ?_, ht.nvm.trans hx, hh, hbc⟩
  obtain ⟨h₁, h₂, h₃, h₄, h₅, h₆, h₇, h₈, h₉, hfile⟩ := hlive
  refine ⟨?_, ?_, ?_, ?_, ?_, ?_, ?_, ?_, ?_, fun happ => ?_⟩
  · rw [ht.guard, h₁]
  · rw [ht.guard, h₂]
  · rw [ht.guard, h₃]
  · rw [ht.guard, h₄]
  · rw [ht.guard, h₅]
  · rw [ht.desc, h₆]
  · rwa [ht.guard]
  · rwa [ht.guard]
  · rwa [ht.guard]
  · obtain ⟨hdata, happend, hreq, hsynced, hsyncing, hdone⟩ := hfile happ
    refine ⟨ht.data.trans hdata, by rw [ht.desc, happend], hreq, fun hdur => (hsynced hdur).trans ht.synced, ?_, ?_⟩
    · simp only [ht.guard, File.intact, ht.changes]
      exact hsyncing
    · rw [ht.guard]
      exact fun hdur hd => (hdone hdur hd).trans ht.synced

theorem Guard.mapped (h : Guard err app dur cap L s) : s.nvm ≠ none := by
  obtain ⟨fl, st, ln, bc, x, -, hx, -⟩ := h
  simp [hx]

theorem Guard.not_exited (h : Guard False app dur cap L s) : s.guard.thread ≠ .exited := by
  obtain ⟨fl, st, ln, bc, x, hlive, -⟩ := h
  exact hlive.running id

theorem Guard.append (h : Guard err True dur cap L s) : s.desc.append = true := by
  obtain ⟨fl, st, ln, bc, x, hlive, -⟩ := h
  exact (hlive.file trivial).append

/-- A guard whose ring is not exactly full leaves its log in the file and the ring. -/
theorem Guard.rest (h : Guard err True dur cap L s) (hl : s.guard.len ≠ cap) : Rest dur cap L s.file s.nvm := by
  have hle := h.len_le
  obtain ⟨fl, st, ln, bc, x, hlive, hx, hh, -⟩ := h
  obtain ⟨hdata, -, hreq, hsynced, -, -⟩ := hlive.file trivial
  rw [hlive.len] at hl hle
  refine Or.inr ⟨x, fl, st, ln, hx, hh, lt_of_le_of_ne hle hl, ?_, hsynced, by rw [hdata], fun _ => hdata⟩
  rw [hdata]
  omega

theorem File.Flushed.onDisk (h : f.Flushed g) (hf : f.OnDisk L) : g.OnDisk L := by
  have hdata : g.data = L := h.data.trans hf.data
  refine ⟨hdata, le_antisymm ?_ ?_, le_antisymm ?_ ?_⟩
  · exact hdata ▸ g.synced_le
  · exact hf.synced.ge.trans h.synced
  · exact h.limit.trans hf.limit.le
  · exact hdata ▸ g.le_limit

theorem Rest.flushed (h : Rest dur cap L f nvm) (hg : f.Flushed g) : Rest dur cap L g nvm := by
  rcases h with ⟨hnone, hL, hdur⟩ | ⟨x, fl, st, ln, hx, hh, hl, hfl, hdur, htake, hcalm⟩
  · exact Or.inl ⟨hnone, hg.data.trans hL, fun hd => hg.onDisk (hdur hd)⟩
  · refine Or.inr ⟨x, fl, st, ln, hx, hh, hl, ?_, fun hd => (hdur hd).trans hg.synced, ?_, ?_⟩
    · rwa [hg.data]
    · rwa [hg.data]
    · rwa [hg.data]

/-- The NVM file of a closed log has the right size. -/
theorem Rest.size {x : NvmFile} (h : Rest dur cap L f (some x)) : x.size = 128 + cap := by
  rcases h with ⟨hnone, -⟩ | ⟨y, fl, st, ln, hy, hh, -⟩
  · cases hnone
  · cases hy
    exact hh.size

/-- What recovery makes of a file and its NVM file. -/
def held (cap : Nat) (f : File) : Option NvmFile → List Byte
  | none => f.data
  | some x => f.data.take (getFsyncLen x.mixed) ++ ringOf cap x

theorem Rest.held (h : Rest dur cap L f nvm) (hb : Blocks cap) (h48 : L.length < 2 ^ 48) : held cap f nvm = L := by
  rcases h with ⟨rfl, hL, -⟩ | ⟨x, fl, st, ln, rfl, hh, hl, -, -, htake, -⟩
  · exact hL
  · obtain ⟨hlen, hstart, -, hdecode⟩ := hh.decode hb hl (hh.fsyncLen_lt h48)
    simp only [Wal.held, ringOf]
    rw [hlen, hstart, hdecode, hh.ring, htake, List.take_append_drop]

/-- What a power failure inside the `aofguard_init` of a closed log with the NVM file `nvm` finds: the first one has come
to some point, or the words of the log. -/
def Starting (dur : Prop) (cap : Nat) (L : List Byte) (nvm : Option NvmFile) (t : Sys) : Prop :=
  (nvm = none ∧ ∃ f, f.data = L ∧ (dur → f.OnDisk L) ∧ AtStage cap f none t) ∨ ∃ n, n < cap ∧ Reads True dur cap n L t

/-- An append-mode open of a closed log starts a guard of it. -/
theorem Rest.init {nvmSize : Nat} {c : Desc} (hn : SizeOk nvmSize)
    (h : Rest dur (capOf nvmSize) L f nvm) (h48 : L.length < 2 ^ 48) (happ : c.append = true) (hw : c.writable = true) :
    Cmd.wp Ticks (fun _ k => k = 0) (Starting dur (capOf nvmSize) L nvm) (aofguardInit nvmSize false)
      (fun ok t => ok = true ∧ Guard False True dur (capOf nvmSize) L t) (.boot f nvm c) := by
  rcases h with ⟨rfl, rfl, hdur⟩ | ⟨x, fl, st, ln, rfl, hh, hl, hfl, hdur, htake, -⟩
  · have hsynced : dur → f.synced = f.data.length := by
      intro hd
      exact (hdur hd).synced
    refine Cmd.wp_mono (fun t ht => Or.inl ⟨rfl, f, rfl, hdur, ht⟩) ?_
      (aofguardInit_fresh hn (Or.inl rfl) hw fun _ : True => ⟨hsynced, happ⟩)
    rintro ok t ⟨hok, hguard⟩
    exact ⟨hok rfl, (hguard (hok rfl)).1⟩
  · refine Cmd.wp_mono (fun t ht => Or.inr ⟨ln, hl, ht⟩) ?_
      (aofguardInit_reopens silent_ticks hn hh hl (hh.fsyncLen_lt h48) hw fun _ : True => ⟨hfl, hdur, htake, happ⟩)
    rintro ok t ⟨hok, hguard⟩
    exact ⟨hok trivial, (hguard (hok trivial)).1⟩

end

/-! ## All files -/

/-- The paths in use that match the pattern. -/
def Logs (cfg : Config) (P : String → Prop) (q : String) : Prop := P q ∧ cfg.needNvm q = true

theorem needNvm_ne {cfg : Config} {p q : String} (hp : cfg.needNvm p = true) (hq : cfg.needNvm q = false) : p ≠ q := by
  rintro rfl
  rw [hp] at hq
  cases hq

/-- `get_nvm_file_name` has no collisions on the paths in use. -/
def NoCollision (cfg : Config) (P : String → Prop) : Prop :=
  ∀ p q, P p → P q → cfg.nvmFileName p = cfg.nvmFileName q → p = q

/-- The guard of `k`, which is open on the inode `i`, maps the NVM inode `n`. -/
def Tables.Guards (T : Tables) (k : Nat) (n : NvmIno) (i : Nat) : Prop :=
  (T.fdTable k).aofguard = some n ∧ T.fds k = some i

/-- The inode `i` is a log or has a guard. -/
def Tables.Logged (cfg : Config) (P : String → Prop) (T : Tables) (i : Nat) : Prop :=
  (∃ q, Logs cfg P q ∧ T.dir q = some i) ∨ ∃ k n, T.Guards k n i

/-- How the tables hang together: a guard is alone on its inode and its NVM inode, and these belong to one name or to
none. -/
structure Linked (cfg : Config) (P : String → Prop) (T : Tables) : Prop where
  dir_lt : ∀ q i, T.dir q = some i → i < T.inos
  fds_lt : ∀ k i, T.fds k = some i → i < T.inos
  dir_inj : ∀ q q' i, T.dir q = some i → T.dir q' = some i → q = q'
  nvm_le : ∀ q, (T.nvmDir q).2 ≤ T.nvmInos
  nvm_inj : ∀ q q', T.nvmDir q = T.nvmDir q' → q = q'
  guard_le : ∀ k n, (T.fdTable k).aofguard = some n → n.2 ≤ T.nvmInos
  pos : 0 < T.capacity
  beyond : ∀ k, T.capacity ≤ k → T.fdTable k = .blank
  closed : ∀ k, T.fds k = none → T.fdTable k = .blank
  known : ∀ k p, (T.fdTable k).name = some p → P p
  named : ∀ k q i, T.fds k = some i → T.dir q = some i → (T.fdTable k).name = some q
  paired : ∀ k, (T.fdTable k).aofguard.isSome ↔ ∃ p, (T.fdTable k).name = some p ∧ cfg.needNvm p = true
  alone : ∀ k k' n i, T.Guards k n i → T.fds k' = some i → k' = k
  apart : ∀ k k' n, (T.fdTable k).aofguard = some n → (T.fdTable k').aofguard = some n → k' = k
  link : ∀ k n i q, T.Guards k n i → Logs cfg P q → (T.dir q = some i ↔ T.nvmDir (cfg.nvmFileName q) = n)

/-- Every inode but `x` has the content `C`: guarded, at rest, or plainly in the file. There is no NVM file without a log,
none with a number not given yet, and logs stay below `2 ^ 48` bytes. -/
structure Keeps (cfg : Config) (P : String → Prop) (dur : Prop) (x : Option Nat) (T : Tables) (C : Nat → List Byte)
    (w : World) : Prop where
  guard : ∀ k n i, T.Guards k n i → some i ≠ x →
    Guard False True dur (capOf cfg.nvmSize) (C i) ((T.port k n (some k)).view w)
  rest : ∀ q i, Logs cfg P q → T.dir q = some i → (∀ k, T.fds k ≠ some i) → some i ≠ x →
    Rest dur (capOf cfg.nvmSize) (C i) (w.files i) (w.nvms (T.nvmDir (cfg.nvmFileName q)))
  bare : ∀ k i, T.fds k = some i → (T.fdTable k).aofguard = none → some i ≠ x → (w.files i).data = C i
  plain : ∀ q i, cfg.needNvm q = false → T.dir q = some i → some i ≠ x → (w.files i).data = C i
  vacant : ∀ q, Logs cfg P q → T.dir q = none → w.nvms (T.nvmDir (cfg.nvmFileName q)) = none
  fresh : ∀ n : NvmIno, T.nvmInos < n.2 → w.nvms n = none
  small : ∀ i, T.Logged cfg P i → (C i).length < 2 ^ 48

/-- What the file `i` named `q` holds. -/
def heldBy (cfg : Config) (w : World) (q : String) (i : Nat) : List Byte :=
  if cfg.needNvm q then held (capOf cfg.nvmSize) (w.files i) (w.nvms (w.tables.nvmDir (cfg.nvmFileName q)))
  else (w.files i).data

/-- The tables `T'` name the files and NVM files as `T` does. -/
structure SameNames (T T' : Tables) : Prop where
  dir : T'.dir = T.dir
  nvmDir : T'.nvmDir = T.nvmDir
  inos : T'.inos = T.inos
  nvmInos : T'.nvmInos = T.nvmInos

/-- The world holds the content `C`. -/
structure Sound (cfg : Config) (P : String → Prop) (dur : Prop) (C : Nat → List Byte) (w : World) : Prop where
  linked : Linked cfg P w.tables
  keeps : Keeps cfg P dur none w.tables C w

section
variable {cfg : Config} {P : String → Prop} {dur : Prop} {x : Option Nat} {T : Tables} {C : Nat → List Byte}
  {w w' : World}

theorem Linked.guards (h : Linked cfg P T) {k : Nat} {n : NvmIno} (hg : (T.fdTable k).aofguard = some n) :
    ∃ i, T.Guards k n i := by
  cases hi : T.fds k with
  | none =>
    rw [h.closed k hi] at hg
    cases hg
  | some i => exact ⟨i, hg, hi⟩

theorem Tables.Guards.port {k i : Nat} {n : NvmIno} (h : T.Guards k n i) (key : Option Nat) :
    T.port k n key = ⟨i, n, k, key⟩ := by
  rw [Tables.port, h.2]
  rfl

/-- The NVM file of a log is mapped only by a guard of the log. -/
theorem Linked.mapped (h : Linked cfg P T) {k : Nat} {q : String} (hq : Logs cfg P q)
    (hg : (T.fdTable k).aofguard = some (T.nvmDir (cfg.nvmFileName q))) :
    ∃ i, T.Guards k (T.nvmDir (cfg.nvmFileName q)) i ∧ T.dir q = some i := by
  obtain ⟨i, hi⟩ := h.guards hg
  exact ⟨i, hi, (h.link k _ i q hi hq).mpr rfl⟩

/-- An entry of a log in use has a guard. -/
theorem Linked.guarded (h : Linked cfg P T) {k i : Nat} {q : String} (hq : cfg.needNvm q = true)
    (hdir : T.dir q = some i) (hk : T.fds k = some i) : ∃ n, T.Guards k n i := by
  have hsome := (h.paired k).mpr ⟨q, h.named k q i hk hdir, hq⟩
  obtain ⟨n, hn⟩ := Option.isSome_iff_exists.mp hsome
  exact ⟨n, hn, hk⟩

/-- A guarded inode has no name that does not match. -/
theorem Linked.not_plain (h : Linked cfg P T) {k i : Nat} {n : NvmIno} {q : String} (hg : T.Guards k n i)
    (hq : cfg.needNvm q = false) : T.dir q ≠ some i := by
  intro hdir
  obtain ⟨p, hp, hneed⟩ := (h.paired k).mp (by rw [hg.1]; rfl)
  rw [h.named k q i hg.2 hdir] at hp
  cases hp
  rw [hq] at hneed
  cases hneed

/-- A descriptor of a file whose name does not match has no guard. -/
theorem Linked.bare_plain (h : Linked cfg P T) {k i : Nat} {q : String} (hk : T.fds k = some i) (hdir : T.dir q = some i)
    (hq : cfg.needNvm q = false) : (T.fdTable k).aofguard = none := by
  by_contra hsome
  obtain ⟨n, hg⟩ := Option.ne_none_iff_exists'.mp hsome
  exact h.not_plain ⟨hg, hk⟩ hq hdir

theorem Keeps.weaken (h : Keeps cfg P dur none T C w) : Keeps cfg P dur x T C w where
  guard := fun k n i hg _ => h.guard k n i hg (by simp)
  rest := fun q i hq hi hk _ => h.rest q i hq hi hk (by simp)
  bare := fun k i hk hg _ => h.bare k i hk hg (by simp)
  plain := fun q i hq hi _ => h.plain q i hq hi (by simp)
  vacant := h.vacant
  fresh := h.fresh
  small := h.small

theorem Keeps.tick (h : Keeps cfg P dur x T C w) (hT : ∀ k n i, T.Guards k n i → some i ≠ x → w.tables.Guards k n i)
    (ht : WTick w w') :
    Keeps cfg P dur x T C w' := by
  have hdrift := fun v => ht.drift v
  have hfile : ∀ i, (w.files i).Flushed (w'.files i) := WTicks.flushed (.single ht)
  have hnvm : ∀ n, w'.nvms n = w.nvms n := fun n => (hdrift ⟨0, n, 0, none⟩).nvm
  constructor
  · intro k n i hg hx
    have hguard := h.guard k n i hg hx
    have hview := hdrift (T.port k n (some k))
    cases ht with | @mk k' n' s hg' htick =>
    by_cases hk : k' = k
    · subst hk
      have hgw := hT k' n i hg hx
      obtain rfl : n' = n := by
        have := hgw.1
        rw [hg'] at this
        exact Option.some.inj this
      rw [hg.port] at hguard ⊢
      rw [hgw.port] at htick ⊢
      rw [Port.view_put]
      exact hguard.ticks (succeed_zero _) (.single htick)
    · refine hguard.flushed ⟨hview.nvm, hview.desc, ?_, hview.data, hview.synced, hview.changes⟩
      simp only [Port.view, Port.put, Tables.port]
      rw [Function.update_of_ne (by simpa using Ne.symm hk)]
  · intro q i hq hi hk hx
    rw [hnvm]
    exact (h.rest q i hq hi hk hx).flushed (hfile i)
  · intro k i hk hg hx
    rw [(hfile i).data]
    exact h.bare k i hk hg hx
  · intro q i hq hi hx
    rw [(hfile i).data]
    exact h.plain q i hq hi hx
  · intro q hq hi
    rw [hnvm]
    exact h.vacant q hq hi
  · intro n hn
    rw [hnvm]
    exact h.fresh n hn
  · exact h.small

/-- The threads keep the content. -/
theorem Keeps.env (h : Keeps cfg P dur x T C w) (hT : ∀ k n i, T.Guards k n i → some i ≠ x → w.tables.Guards k n i)
    (ht : WTicks w w') : Keeps cfg P dur x T C w' := by
  induction ht with
  | refl => exact h
  | tail hsteps hstep ih =>
    rw [← WTicks.tables hsteps] at hT
    exact ih.tick hT hstep

theorem Sound.env (h : Sound cfg P dur C w) (ht : WTicks w w') : Sound cfg P dur C w' := by
  have htables := ht.tables
  refine ⟨by rw [htables]; exact h.linked, ?_⟩
  rw [htables]
  exact h.keeps.env (fun _ _ _ hg _ => hg) ht

/-! ## Calls on one log -/

/-- The port of a log, with the tables `T'` of the world, is apart from all else that the tables `T` know. -/
structure Apart (cfg : Config) (P : String → Prop) (T T' : Tables) (v : Port) : Prop where
  others : ∀ k n i, T.Guards k n i → i ≠ v.ino → T'.Guards k n i ∧ k ≠ v.fd ∧ n ≠ v.nvm ∧ v.key ≠ some k
  now : ∀ k n, (T'.fdTable k).aofguard = some n → T'.port k n (some k) = v ∨
    (T'.port k n (some k)).ino ≠ v.ino ∧ k ≠ v.fd ∧ v.key ≠ some k
  resting : ∀ q i, Logs cfg P q → T.dir q = some i → i ≠ v.ino → T.nvmDir (cfg.nvmFileName q) ≠ v.nvm
  vacant : ∀ q, Logs cfg P q → T.dir q = none → T.nvmDir (cfg.nvmFileName q) ≠ v.nvm
  old : v.nvm.2 ≤ T.nvmInos

theorem Keeps.put {T' : Tables} {v : Port} (h : Keeps cfg P dur (some v.ino) T C w) (ha : Apart cfg P T T' v) (s : Sys) :
    Keeps cfg P dur (some v.ino) T C (v.put s w) := by
  have hfile : ∀ i, some i ≠ some v.ino → (v.put s w).files i = w.files i := fun i hi =>
    Function.update_of_ne (by simpa using hi) _ _
  have hnvm : ∀ n, n ≠ v.nvm → (v.put s w).nvms n = w.nvms n := fun n hn => Function.update_of_ne hn _ _
  constructor
  · intro k n i hg hx
    obtain ⟨-, hfd, hn, hkey⟩ := ha.others k n i hg (by simpa using hx)
    have hview : (T.port k n (some k)).view (v.put s w) = (T.port k n (some k)).view w := by
      rw [hg.port]
      simp only [Port.view]
      rw [hfile i hx, hnvm n hn]
      simp only [Port.put]
      rw [Function.update_of_ne hfd, Function.update_of_ne (Ne.symm hkey)]
    rw [hview]
    exact h.guard k n i hg hx
  · intro q i hq hi hk hx
    rw [hfile i hx, hnvm _ (ha.resting q i hq hi (by simpa using hx))]
    exact h.rest q i hq hi hk hx
  · intro k i hk hg hx
    rw [hfile i hx]
    exact h.bare k i hk hg hx
  · intro q i hq hi hx
    rw [hfile i hx]
    exact h.plain q i hq hi hx
  · intro q hq hi
    rw [hnvm _ (ha.vacant q hq hi)]
    exact h.vacant q hq hi
  · intro n hn
    rw [hnvm n (by rintro rfl; exact absurd ha.old (by omega))]
    exact h.fresh n hn
  · exact h.small

/-- The threads only step the guard of the port, if it is in the table. -/
theorem Apart.tick {v : Port} (ha : Apart cfg P T w.tables v) (ht : WTick w w') : Ticks (v.view w) (v.view w') := by
  cases ht with | @mk k n s hg htick =>
  rcases ha.now k n hg with rfl | ⟨hino, hfd, hkey⟩
  · rw [Port.view_put]
    exact .single htick
  · have hsame : v.view ((w.tables.port k n (some k)).put s w) = v.view w := by
      have hnvm : s.nvm = w.nvms n := (tick_keeps htick).2.1
      simp only [Port.view, Port.put, Tables.port] at hino ⊢
      rw [Function.update_of_ne (Ne.symm hino), Function.update_of_ne (Ne.symm hfd), Function.update_of_ne hkey, hnvm,
        Function.update_eq_self]
    rw [hsame]

theorem Apart.ticks {v : Port} (ha : Apart cfg P T w.tables v) (ht : WTicks w w') : Ticks (v.view w) (v.view w') := by
  induction ht with
  | refl => exact .refl
  | tail hsteps hstep ih =>
    rw [← WTicks.tables hsteps] at ha
    exact ih.trans (ha.tick hstep)

/-- Beside a port all is as before, up to what is on the disk. -/
structure Beside (v : Port) (w w' : World) : Prop where
  files : Spares (· = v.ino) w w'
  len : ∀ key, key ≠ v.key → (w'.guards key).len = (w.guards key).len

theorem wwp_alone {α : Type} {v : Port} {c : Cmd Syscall Sys α} {Q : α → Sys → Prop} {I : Sys → Prop} {J : World → Prop}
    (h : Keeps cfg P dur (some v.ino) T C w) (ha : Apart cfg P T w.tables v)
    (hJ : ∀ w', w'.tables = w.tables → Keeps cfg P dur (some v.ino) T C w' → Beside v w w' → I (v.view w') → J w')
    (hc : Cmd.wp Ticks (fun _ k => k = 0) I c Q (v.view w)) :
    wwp J (v.run c) (fun a w' => (w'.tables = w.tables ∧ Keeps cfg P dur (some v.ino) T C w' ∧ Beside v w w') ∧
      Q a (v.view w')) w := by
  refine wp_port (R := Ticks) ?_ ?_ (fun w' hF => hJ w' hF.1 hF.2.1 hF.2.2) ⟨rfl, h, .refl _ w, fun _ _ => rfl⟩ hc
  · rintro s w' ⟨htables, h', hfiles, hlen⟩
    refine ⟨htables, h'.put ha s, fun j hj => ?_, fun key hkey => ?_⟩
    · have hfile : (v.put s w').files j = w'.files j := Function.update_of_ne hj _ _
      rw [hfile]
      exact hfiles j hj
    · have hguard : (v.put s w').guards key = w'.guards key := Function.update_of_ne hkey _ _
      rw [hguard]
      exact hlen key hkey
  · rintro w₁ w₂ ⟨htables, h', hfiles, hlen⟩ ht
    rw [← htables] at ha
    refine ⟨⟨ht.tables.trans htables, h'.env (fun k n i hg hx => ?_) ht, hfiles.trans fun j _ => ht.flushed j,
      fun key hkey => (ht.len key).trans (hlen key hkey)⟩, ha.ticks ht⟩
    exact (ha.others k n i hg (by simpa using hx)).1

end

end PmemProgram.Wal
