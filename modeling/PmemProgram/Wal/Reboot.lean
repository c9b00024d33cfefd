import PmemProgram.Wal.Renames

/-!
# Runs with power failures

* `Stored cfg P C w` : what a power failure leaves of `w` says `C` for every log; `Keeps.stored`, and `Keeps.stored_except`
  where one log is stored in its own way;
* `Reboots w w'` : the machine after a power failure, with an empty process; `Stored.reboot`;
* `Steps cfg P dur` : the runs of calls that keep to their conditions, with power failures between them if `dur`;
  `Steps.sound` is the invariant;
* `heldBy_sound` : what a file holds is its content.
-/

namespace PmemProgram.Wal
open PmemProgram.Lib PmemProgram.Lib.Ring

section
variable {cfg : Config} {P : String → Prop} {dur : Prop} {T T' : Tables} {C C' : Nat → List Byte} {w w' : World} {i : Nat}

/-! ## What is stored -/

/-- What a power failure leaves of the world says `C` for every log. -/
structure Stored (cfg : Config) (P : String → Prop) (C : Nat → List Byte) (w : World) : Prop where
  dir_lt : ∀ q i, w.tables.dir q = some i → i < w.tables.inos
  dir_inj : ∀ q q' i, w.tables.dir q = some i → w.tables.dir q' = some i → q = q'
  nvm_le : ∀ q, (w.tables.nvmDir q).2 ≤ w.tables.nvmInos
  nvm_inj : ∀ q q', w.tables.nvmDir q = w.tables.nvmDir q' → q = q'
  kept : ∀ q i, Logs cfg P q → w.tables.dir q = some i →
    Rest True (capOf cfg.nvmSize) (C i) (w.files i) (w.nvms (w.tables.nvmDir (cfg.nvmFileName q)))
  vacant : ∀ q, Logs cfg P q → w.tables.dir q = none → w.nvms (w.tables.nvmDir (cfg.nvmFileName q)) = none
  fresh : ∀ n : NvmIno, w.tables.nvmInos < n.2 → w.nvms n = none
  small : ∀ q i, Logs cfg P q → w.tables.dir q = some i → (C i).length < 2 ^ 48

/-- The log of an open or closed file is stored, as long as its ring is not exactly full. -/
theorem Keeps.log_rest {q : String} {x : Option Nat} (hl : Linked cfg P T) (hk : Keeps cfg P dur x T C w)
    (hq : Logs cfg P q) (hi : T.dir q = some i) (hx : some i ≠ x)
    (hroom : ∀ k n, T.Guards k n i → (w.guards (some k)).len ≠ capOf cfg.nvmSize) :
    Rest dur (capOf cfg.nvmSize) (C i) (w.files i) (w.nvms (T.nvmDir (cfg.nvmFileName q))) := by
  by_cases hopen : ∃ k, T.fds k = some i
  · obtain ⟨k, hki⟩ := hopen
    obtain ⟨n, hg⟩ := hl.guarded hq.2 hi hki
    have hguard := hk.guard k n i hg hx
    rw [hg.port] at hguard
    rw [(hl.link k n i q hg hq).mp hi]
    exact hguard.rest (hroom k n hg)
  · exact hk.rest q i hq hi (fun k hki => hopen ⟨k, hki⟩) hx

/-- The names `T` are those of the world, and each has its own inode. -/
structure OwnNames (T : Tables) (w : World) : Prop where
  same : SameNames T w.tables
  dir_lt : ∀ q i, T.dir q = some i → i < T.inos
  dir_inj : ∀ q q' i, T.dir q = some i → T.dir q' = some i → q = q'
  nvm_le : ∀ q, (T.nvmDir q).2 ≤ T.nvmInos
  nvm_inj : ∀ q q', T.nvmDir q = T.nvmDir q' → q = q'

theorem Linked.ownNames (hl : Linked cfg P T) (hT : SameNames T w.tables) : OwnNames T w :=
  ⟨hT, hl.dir_lt, hl.dir_inj, hl.nvm_le, hl.nvm_inj⟩

/-- The inode `x` may say something else. -/
theorem Keeps.stored_rest {x : Option Nat} (hk : Keeps cfg P True x T C w) (hT : OwnNames T w)
    (hC : ∀ j, some j ≠ x → C' j = C j) (hsmall : ∀ j, some j = x → (C' j).length < 2 ^ 48)
    (hrest : ∀ q j, Logs cfg P q → T.dir q = some j →
      Rest True (capOf cfg.nvmSize) (C' j) (w.files j) (w.nvms (T.nvmDir (cfg.nvmFileName q)))) : Stored cfg P C' w := by
  obtain ⟨⟨hdir, hnvmDir, hinos, hnvmInos⟩, hlt, hinj, hnle, hninj⟩ := hT
  constructor
  · rw [hdir, hinos]
    exact hlt
  · rw [hdir]
    exact hinj
  · rw [hnvmDir, hnvmInos]
    exact hnle
  · rw [hnvmDir]
    exact hninj
  · rw [hdir, hnvmDir]
    exact hrest
  · rw [hdir, hnvmDir]
    exact hk.vacant
  · rw [hnvmInos]
    exact hk.fresh
  · rw [hdir]
    intro q j hq hj
    by_cases hx : some j = x
    · exact hsmall j hx
    · rw [hC j hx]
      exact hk.small j (Or.inl ⟨q, hq, hj⟩)

theorem Keeps.stored (hl : Linked cfg P T) (hk : Keeps cfg P True none T C w) (hT : SameNames T w.tables)
    (hroom : ∀ k n j, T.Guards k n j → (w.guards (some k)).len ≠ capOf cfg.nvmSize) : Stored cfg P C w :=
  hk.stored_rest (hl.ownNames hT) (fun _ _ => rfl) (by simp) fun _ j hq hj => hk.log_rest hl hq hj (by simp) fun k n => hroom k n j

/-- One inode is stored in its own way. -/
theorem Keeps.stored_except {L : List Byte} (hl : Linked cfg P T) (hk : Keeps cfg P True (some i) T C w)
    (hT : SameNames T w.tables) (hsmall : L.length < 2 ^ 48)
    (hroom : ∀ k n j, T.Guards k n j → j ≠ i → (w.guards (some k)).len ≠ capOf cfg.nvmSize)
    (hrest : ∀ q, Logs cfg P q → T.dir q = some i →
      Rest True (capOf cfg.nvmSize) L (w.files i) (w.nvms (T.nvmDir (cfg.nvmFileName q)))) :
    Stored cfg P (Function.update C i L) w := by
  have hother : ∀ j, j ≠ i → Function.update C i L j = C j := fun j hj => Function.update_of_ne hj _ _
  refine hk.stored_rest (hl.ownNames hT) (fun j hj => hother j (by simpa using hj)) ?_ fun q j hq hj => ?_
  · rintro j ⟨⟩
    rwa [Function.update_self]
  · by_cases hji : j = i
    · subst hji
      rw [Function.update_self]
      exact hrest q hq hj
    · rw [hother j hji]
      exact hk.log_rest hl hq hj (by simpa using hji) fun k n hg => hroom k n j hg hji

theorem RoomLeft.guards (h : RoomLeft cfg w) (htable : ∀ k n, (T.fdTable k).aofguard = some n →
    (w.tables.fdTable k).aofguard = some n) (k : Nat) (n : NvmIno) (j : Nat) (hg : T.Guards k n j) :
    (w.guards (some k)).len ≠ capOf cfg.nvmSize :=
  h k (by rw [htable k n hg.1]; rfl)

theorem Sound.stored (h : Sound cfg P True C w) (hroom : RoomLeft cfg w) : Stored cfg P C w :=
  h.keeps.stored h.linked ⟨rfl, rfl, rfl, rfl⟩ (hroom.guards fun _ _ h => h)

/-- What a file holds is its content. -/
theorem heldBy_sound {q : String} (hn : SizeOk cfg.nvmSize) (h : Sound cfg P dur C w) (hq : P q)
    (hi : w.tables.dir q = some i)
    (hroom : ∀ k n, w.tables.Guards k n i → (w.guards (some k)).len ≠ capOf cfg.nvmSize) : heldBy cfg w q i = C i := by
  unfold heldBy
  split_ifs with hneed
  · have hrest := h.keeps.log_rest h.linked ⟨hq, hneed⟩ hi (by simp) hroom
    exact hrest.held hn.blocks (h.keeps.small i (Or.inl ⟨q, ⟨hq, hneed⟩, hi⟩))
  · exact h.keeps.plain q i (by simpa using hneed) hi (by simp)

/-- An open file has its content. -/
theorem Sound.opened_data {k : Nat} (h : Sound cfg P dur C w) (hk : w.tables.fds k = some i) : (w.files i).data = C i := by
  cases hg : (w.tables.fdTable k).aofguard with
  | none => exact h.keeps.bare k i hk hg (by simp)
  | some n =>
    have hgi : w.tables.Guards k n i := ⟨hg, hk⟩
    have hguard := h.keeps.guard k n i hgi (by simp)
    rw [hgi.port] at hguard
    exact hguard.data

/-- As long as no power failure is in sight, every file has its content. -/
theorem Sound.calm_data {q : String} (h : Sound cfg P dur C w) (hcalm : ¬ dur) (hq : P q) (hi : w.tables.dir q = some i) :
    (w.files i).data = C i := by
  by_cases hopen : ∃ k, w.tables.fds k = some i
  · obtain ⟨k, hk⟩ := hopen
    exact h.opened_data hk
  · cases hneed : cfg.needNvm q with
    | false => exact h.keeps.plain q i hneed hi (by simp)
    | true =>
      rcases h.keeps.rest q i ⟨hq, hneed⟩ hi (fun k hk => hopen ⟨k, hk⟩) (by simp) with
        ⟨-, hL, -⟩ | ⟨x, fl, st, ln, -, -, -, -, -, -, hdata⟩
      · exact hL
      · exact hdata hcalm

/-! ## Power failures -/

/-- The tables of a new process. -/
structure Idle (T : Tables) : Prop where
  fds : T.fds = fun _ => none
  fdTable : T.fdTable = fun _ => .blank
  capacity : T.capacity = 16

theorem Idle.unguarded (h : Idle T) (k : Nat) (n : NvmIno) (j : Nat) : ¬ T.Guards k n j := by
  rintro ⟨hg, -⟩
  rw [h.fdTable] at hg
  cases hg

theorem Idle.linked (h : Idle T) (dir_lt : ∀ q i, T.dir q = some i → i < T.inos)
    (dir_inj : ∀ q q' i, T.dir q = some i → T.dir q' = some i → q = q') (nvm_le : ∀ q, (T.nvmDir q).2 ≤ T.nvmInos)
    (nvm_inj : ∀ q q', T.nvmDir q = T.nvmDir q' → q = q') : Linked cfg P T := by
  obtain ⟨hfds, htable, hcap⟩ := h
  have hno : ∀ k, T.fdTable k = .blank := fun k => by rw [htable]
  have hclosed : ∀ k i, T.fds k ≠ some i := fun k i => by simp [hfds]
  refine ⟨dir_lt, fun k i hk => absurd hk (hclosed k i), dir_inj, nvm_le, nvm_inj, ?_, by omega, fun k _ => hno k,
    fun k _ => hno k, ?_, fun k q i hk => absurd hk (hclosed k i), ?_, fun k k' n i hg => absurd hg.2 (hclosed k i), ?_,
    fun k n i q hg => absurd hg.2 (hclosed k i)⟩
  · intro k n hg
    rw [hno] at hg
    cases hg
  · intro k p hp
    rw [hno] at hp
    cases hp
  · intro k
    rw [hno]
    simp [Filedes.blank]
  · intro k k' n hg
    rw [hno] at hg
    cases hg

/-- The machine after a power failure, with a new process. -/
structure Reboots (w w' : World) : Prop where
  names : SameNames w.tables w'.tables
  idle : Idle w'.tables
  nvms : w'.nvms = w.nvms
  files : ∀ i, (w.files i).Survives (w'.files i)

theorem Rest.survives {cap : Nat} {L : List Byte} {f g : File} {nvm : Option NvmFile} (h : Rest True cap L f nvm)
    (hg : f.Survives g) : Rest True cap L g nvm := by
  rcases h with ⟨hnone, hL, hdur⟩ | ⟨x, fl, st, ln, hx, hh, hl, hfl, hdur, htake, -⟩
  · obtain rfl := (hdur trivial).survives hg
    exact Or.inl ⟨hnone, rfl, fun _ => File.onDisk_durable L⟩
  · have hle := hdur trivial
    refine Or.inr ⟨x, fl, st, ln, hx, hh, hl, hle.trans hg.1, fun _ => ?_, (hg.take hle).trans htake, fun hf => absurd trivial hf⟩
    rw [hg.2.2.2.1]
    exact hle.trans hg.1

/-- The content of the files after a power failure in `w`: the logs have theirs, and all other files what is left of
them. -/
structure ToldOn (cfg : Config) (P : String → Prop) (C C' : Nat → List Byte) (w w' : World) : Prop where
  logs : ∀ q i, Logs cfg P q → w.tables.dir q = some i → C' i = C i
  rest : ∀ i, (∀ q, Logs cfg P q → w.tables.dir q ≠ some i) → C' i = (w'.files i).data

theorem Stored.toldOn (h : Stored cfg P C w) (hr : Reboots w w') (hC : ToldOn cfg P C C' w w') :
    Sound cfg P True C' w' := by
  obtain ⟨⟨hdir, hnvmDir, hinos, hnvmInos⟩, hidle, hnvms, hfiles⟩ := hr
  have hclosed : ∀ k j, w'.tables.fds k ≠ some j := fun k j => by simp [hidle.fds]
  refine ⟨?_, ?_⟩
  · apply hidle.linked
    · rw [hdir, hinos]
      exact h.dir_lt
    · rw [hdir]
      exact h.dir_inj
    · rw [hnvmDir, hnvmInos]
      exact h.nvm_le
    · rw [hnvmDir]
      exact h.nvm_inj
  · constructor
    · exact fun k n j hg _ => absurd hg (hidle.unguarded k n j)
    · intro q j hq hj _ _
      rw [hdir] at hj
      rw [hC.logs q j hq hj, hnvms, hnvmDir]
      exact (h.kept q j hq hj).survives (hfiles j)
    · exact fun k j hj => absurd hj (hclosed k j)
    · intro q j hq hj _
      rw [hdir] at hj
      refine (hC.rest j ?_).symm
      intro q' hq' hj'
      exact needNvm_ne hq'.2 hq (h.dir_inj q' q j hj' hj)
    · rw [hdir, hnvms, hnvmDir]
      exact h.vacant
    · rw [hnvms, hnvmInos]
      exact h.fresh
    · rintro j (⟨q, hq, hj⟩ | ⟨k, n, hg⟩)
      · rw [hdir] at hj
        rw [hC.logs q j hq hj]
        exact h.small q j hq hj
      · exact absurd hg (hidle.unguarded k n j)

/-- After the power failure every log has its content, and every other file what is left of it. -/
theorem Stored.reboot (h : Stored cfg P C w) (hr : Reboots w w') :
    ∃ C', Sound cfg P True C' w' ∧ ToldOn cfg P C C' w w' := by
  classical
  refine ⟨fun i => if ∃ q, Logs cfg P q ∧ w.tables.dir q = some i then C i else (w'.files i).data, ?_⟩
  have hC : ToldOn cfg P C (fun i => if ∃ q, Logs cfg P q ∧ w.tables.dir q = some i then C i else (w'.files i).data)
      w w' :=
    ⟨fun q i hq hi => if_pos ⟨q, hq, hi⟩, fun i hno => if_neg fun ⟨q, hq, hi⟩ => hno q hq hi⟩
  exact ⟨h.toldOn hr hC, hC⟩

/-! ## Runs -/

/-- The condition of a call. -/
def Call.Ok (cfg : Config) (P : String → Prop) (dur : Prop) (w : World) : Call → Prop
  | openAt place file flags fd => OpenOk cfg P place file flags fd w.tables
  | write fd data => WriteOk fd data w
  | fsync _ => True
  | fdatasync _ => True
  | close fd => CloseOk cfg fd w
  | unlink file => P file
  | rename oldpath newpath => RenameOk cfg P dur oldpath newpath w

/-- A step of a thread, a call under its condition, or, if `dur`, a power failure while no ring is exactly full. -/
inductive Step (cfg : Config) (P : String → Prop) (dur : Prop) : World → World → Prop
  | call {w w' : World} : CallStep cfg (fun c w => c.Ok cfg P dur w) w w' → Step cfg P dur w w'
  | reboot {w w' : World} : dur → RoomLeft cfg w → Reboots w w' → Step cfg P dur w w'

abbrev Steps (cfg : Config) (P : String → Prop) (dur : Prop) : World → World → Prop :=
  Relation.ReflTransGen (Step cfg P dur)

/-- A new process on a machine without NVM files; if `dur`, the logs that are there are on the disk. -/
structure Initial (cfg : Config) (P : String → Prop) (dur : Prop) (w : World) : Prop where
  dir_lt : ∀ q i, w.tables.dir q = some i → i < w.tables.inos
  dir_inj : ∀ q q' i, w.tables.dir q = some i → w.tables.dir q' = some i → q = q'
  nvmDir : w.tables.nvmDir = fun q => (q, 0)
  idle : Idle w.tables
  nvms : w.nvms = fun _ => none
  small : ∀ q i, Logs cfg P q → w.tables.dir q = some i → (w.files i).data.length < 2 ^ 48
  durable : dur → ∀ q i, Logs cfg P q → w.tables.dir q = some i → (w.files i).OnDisk (w.files i).data

theorem Initial.sound (h : Initial cfg P dur w) : Sound cfg P dur (fun i => (w.files i).data) w := by
  constructor
  · refine h.idle.linked h.dir_lt h.dir_inj (fun q => ?_) fun q q' heq => ?_
    · rw [h.nvmDir]
      exact Nat.zero_le _
    · rw [h.nvmDir] at heq
      exact congrArg Prod.fst heq
  · constructor
    · exact fun k n j hg _ => absurd hg (h.idle.unguarded k n j)
    · intro q j hq hj _ _
      rw [h.nvms]
      exact Or.inl ⟨rfl, rfl, fun hd => h.durable hd q j hq hj⟩
    · exact fun _ _ _ _ _ => rfl
    · exact fun _ _ _ _ _ => rfl
    · intro q _ _
      rw [h.nvms]
    · intro n _
      rw [h.nvms]
    · rintro j (⟨q, hq, hj⟩ | ⟨k, n, hg⟩)
      · exact h.small q j hq hj
      · exact absurd hg (h.idle.unguarded k n j)

theorem Call.sound {c : Call} (hn : SizeOk cfg.nvmSize) (hnames : NoCollision cfg P) (h : Sound cfg P dur C w)
    (hok : c.Ok cfg P dur w) : wwp (fun _ => True) (c.cmd cfg) (fun _ w' => ∃ C', Sound cfg P dur C' w') w := by
  cases c with
  | openAt place file flags fd =>
    exact Cmd.wp_mono (fun _ _ => trivial) (fun _ _ h' => ⟨_, h'.1⟩) (openAt_sound hn hnames h hok)
  | write fd data =>
    refine Cmd.wp_mono (fun _ _ => trivial) ?_ (write_sound hn h hok)
    rintro r w' ⟨-, C', h', -⟩
    exact ⟨C', h'⟩
  | fsync fd => exact Cmd.wp_mono (fun _ _ => trivial) (fun _ _ h' => ⟨C, h'.2.1⟩) (syncCall_sound h)
  | fdatasync fd => exact Cmd.wp_mono (fun _ _ => trivial) (fun _ _ h' => ⟨C, h'.2.1⟩) (syncCall_sound h)
  | close fd => exact Cmd.wp_mono (fun _ _ => trivial) (fun _ _ h' => ⟨C, h'.2.1⟩) (close_sound h hok)
  | unlink file =>
    exact Cmd.wp_mono (fun _ _ => trivial) (fun _ _ h' => ⟨C, h'.1.sound⟩) (unlink_sound hnames h hok)
  | rename old new =>
    exact Cmd.wp_mono (fun _ _ => trivial) (fun _ _ h' => ⟨C, h'.1.sound⟩) (rename_sound hn hnames h hok)

/-- In every run the files, rings, descriptors and guards hold some content together. -/
theorem Steps.sound (hn : SizeOk cfg.nvmSize) (hnames : NoCollision cfg P) (h₀ : Initial cfg P dur w)
    (h : Steps cfg P dur w w') : ∃ C, Sound cfg P dur C w' := by
  induction h with
  | refl => exact ⟨_, h₀.sound⟩
  | tail _ hstep ih =>
    obtain ⟨C, hC⟩ := ih
    cases hstep with
    | call hcall =>
      cases hcall with
      | thread ht => exact ⟨C, hC.env (.single ht)⟩
      | call hok hr => exact Cmd.wp_run (Call.sound hn hnames hC hok) hr
    | reboot hd hroom hr =>
      obtain rfl : dur = True := propext ⟨fun _ => trivial, fun _ => hd⟩
      obtain ⟨C', hC', -⟩ := (hC.stored hroom).reboot hr
      exact ⟨C', hC'⟩

end

end PmemProgram.Wal
