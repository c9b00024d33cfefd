import PmemProgram.Cxl.Exclusion

/-!
# Connections that close (`lock_service.c`, `main`)

A client can disconnect at any moment of its loop. The words that still arrive from it are served; then `recv` returns `0`
or `-1` and the server closes the descriptor. It keeps no record of who holds a lock.

* `Service`, `ServiceStep` : the clients and the server of `Net` with connections that close;
* `held` : the block that is granted on a connection and not released yet;
* `locks_of_connected` : as long as the server only closes connections without a lock, each table value encodes the holders
  among the connected clients, and it stops doing so with the first other one.
-/

namespace PmemProgram.Cxl

/-- The lock that the server has granted on a connection and not got back: its release is under way, its client is in the
critical section, or the grant is under way. -/
def held (phase : Phase) (up : List Word) (down : List Int) : Option Nat :=
  match up, phase with
  | x :: _, _ => if indicator x = 0 then some (blockid x).toNat else none
  | [], .critical uuid => some uuid
  | [], .waiting uuid => if down = [1] then some uuid else none
  | [], .top => none

/-- What is on the connection tells who holds. -/
theorem Talk.held {role : Role} {p : Phase} {up : List Word} {down : List Int} {o : Option Nat}
    (h : Talk role p up down o) : held p up down = o := by
  have hrelease : ∀ {b}, b < blockNum → ∀ {rest}, Cxl.held p (lockWord .release b :: rest) down = some b := by
    intro b hb rest
    have hlt : b < 2 ^ 30 := by
      unfold blockNum at hb
      omega
    simp [Cxl.held, indicator_lockWord _ hlt, blockid_lockWord _ hlt, LockType.code]
  cases h with
  | top => rfl
  | left hb => exact hrelease hb
  | leftAsked hb _ => exact hrelease hb
  | @asked uuid hb =>
    have hlt : uuid < 2 ^ 30 := by
      unfold blockNum at hb
      omega
    cases role with
    | writer => simp [Cxl.held, indicator_lockWord _ hlt, LockType.code, Role.request]
    | reader => simp [Cxl.held, indicator_lockWord _ hlt, LockType.code, Role.request]
  | no hb => simp [Cxl.held]
  | yes hb => simp [Cxl.held]
  | inside hb => rfl

/-! ## The service -/

/-- The clients and the server, and which connections are left. -/
structure Service (ι : Type) where
  net : Net ι
  /-- How many of the words under way still arrive, once the client has disconnected. -/
  left : ι → Option Nat
  /-- `close(fd)`. -/
  closed : ι → Bool

section
variable {ι : Type} [DecidableEq ι]

def Service.init : Service ι := ⟨Net.init, fun _ => none, fun _ => false⟩

/-- The block that the server has granted to `c`. -/
def Net.held (s : Net ι) (c : ι) : Option Nat := Cxl.held (s.phase c) (s.up c) (s.down c)

/-- The loops of `lock_write.c` and `lock_read.c`, one step of the client `c`. -/
inductive ClientStep (role : Role) (c : ι) : Net ι → Net ι → Prop
  | request {s uuid} : s.phase c = .top → uuid < blockNum →
      ClientStep role c s (s.send c (.waiting uuid) (lockWord role.request uuid))
  | granted {s uuid rest} : s.phase c = .waiting uuid → s.down c = 1 :: rest →
      ClientStep role c s { s with
        phase := Function.update s.phase c (.critical uuid), down := Function.update s.down c rest }
  | refused {s uuid v rest} : s.phase c = .waiting uuid → s.down c = v :: rest → v ≠ 1 →
      ClientStep role c s ({ s with down := Function.update s.down c rest }.send c (.waiting uuid)
        (lockWord role.request uuid))
  | release {s uuid} : s.phase c = .critical uuid → ClientStep role c s (s.send c .top (lockWord .release uuid))

/-- One step of the service; the server closes a connection only if `ok`. -/
inductive ServiceStep (role : ι → Role) (ok : Service ι → ι → Prop) : Service ι → Service ι → Prop
  | client {s c net} : s.left c = none → ClientStep (role c) c s.net net →
      ServiceStep role ok s { s with net := net }
  /-- `recv` of one word and `handle_lock`. -/
  | serve {s c x rest table r} : s.closed c = false → s.left c ≠ some 0 → s.net.up c = x :: rest →
      handleLock true s.net.table x = some (table, r) →
      ServiceStep role ok s { s with
        net := s.net.reply c rest table r, left := Function.update s.left c ((s.left c).map Nat.pred) }
  /-- The client is gone; `n` of its words still arrive. -/
  | disconnect {s c n} : s.left c = none → n ≤ (s.net.up c).length →
      ServiceStep role ok s { s with left := Function.update s.left c (some n) }
  /-- `recv` returns `0` or `-1`. -/
  | hangUp {s c} : s.closed c = false → s.left c = some 0 → ok s c →
      ServiceStep role ok s { s with closed := Function.update s.closed c true }

theorem ClientStep.step {role : ι → Role} {c : ι} {s s' : Net ι} (h : ClientStep (role c) c s s') : Step role s s' := by
  cases h with
  | request hp hu => exact .request hp hu
  | granted hp hd => exact .granted hp hd
  | refused hp hd hv => exact .refused hp hd hv
  | release hp => exact .release hp

/-- A client only changes its own connection. -/
theorem ClientStep.held {role : Role} {c d : ι} {s s' : Net ι} (h : ClientStep role c s s') (hd : d ≠ c) :
    s'.held d = s.held d := by
  unfold Net.held
  cases h with
  | request hp hu => simp [Net.send, hd]
  | granted hp hr => simp [hd]
  | refused hp hr hv => simp [Net.send, hd]
  | release hp => simp [Net.send, hd]

theorem ClientStep.table {role : Role} {c : ι} {s s' : Net ι} (h : ClientStep role c s s') : s'.table = s.table := by
  cases h with
  | request hp hu => rfl
  | granted hp hd => rfl
  | refused hp hd hv => rfl
  | release hp => rfl

theorem Net.held_reply {s : Net ι} {c d : ι} {rest : List Word} {table : HashTable} {r : Option Int} (hd : d ≠ c) :
    (s.reply c rest table r).held d = s.held d := by
  simp [Net.held, Net.reply, hd]

/-- A step of the service is one of the clients and the server, or none. -/
theorem ServiceStep.net {role : ι → Role} {ok : Service ι → ι → Prop} {s s' : Service ι} (h : ServiceStep role ok s s') :
    Step role s.net s'.net ∨ s'.net = s.net := by
  cases h with
  | client _ hc => exact Or.inl hc.step
  | serve _ _ hu hs => exact Or.inl (.serve hu hs)
  | disconnect _ _ => exact Or.inr rfl
  | hangUp _ _ _ => exact Or.inr rfl

/-! ## Holders among the connected clients -/

/-- No lock is left on a closed connection, and nothing happens there. -/
structure Orderly (role : ι → Role) (s : Service ι) : Prop where
  reachable : Reachable role s.net
  shut : ∀ c, s.closed c = true → s.left c = some 0 ∧ s.net.held c = none

/-- The server only closes connections without a lock. -/
def Unlocked (s : Service ι) (c : ι) : Prop := s.net.held c = none

theorem Orderly.init (role : ι → Role) : Orderly role Service.init := ⟨.refl, fun _ h => by cases h⟩

theorem Orderly.step {role : ι → Role} {s s' : Service ι} (h : Orderly role s) (hs : ServiceStep role Unlocked s s') :
    Orderly role s' := by
  constructor
  · rcases hs.net with hn | hn
    · exact h.reachable.tail hn
    · rw [hn]
      exact h.reachable
  · intro d hd
    cases hs with
    | @client c net hc hstep =>
      obtain ⟨hleft, hheld⟩ := h.shut d hd
      have hne : d ≠ c := by
        rintro rfl
        rw [hc] at hleft
        cases hleft
      exact ⟨hleft, (hstep.held hne).trans hheld⟩
    | @serve c x rest table r hc hleft hu hstep =>
      obtain ⟨hleft', hheld⟩ := h.shut d hd
      have hne : d ≠ c := by
        rintro rfl
        exact hleft hleft'
      refine ⟨?_, (Net.held_reply hne).trans hheld⟩
      simp only [Function.update_of_ne hne]
      exact hleft'
    | @disconnect c n hc hle =>
      obtain ⟨hleft, hheld⟩ := h.shut d hd
      have hne : d ≠ c := by
        rintro rfl
        rw [hc] at hleft
        cases hleft
      refine ⟨?_, hheld⟩
      simp only [Function.update_of_ne hne]
      exact hleft
    | @hangUp c hc hleft hok =>
      by_cases hne : d = c
      · subst hne
        exact ⟨hleft, hok⟩
      · simp only [Function.update_of_ne hne] at hd
        exact h.shut d hd

theorem Orderly.run {role : ι → Role} {s s' : Service ι} (h : Orderly role s)
    (hr : Relation.ReflTransGen (ServiceStep role Unlocked) s s') : Orderly role s' := by
  induction hr with
  | refl => exact h
  | tail _ hs ih => exact ih.step hs

/-- A block with a value keeps one. -/
theorem ServiceStep.touched {role : ι → Role} {ok : Service ι → ι → Prop} {s s' : Service ι}
    (h : ServiceStep role ok s s') {b : Nat} (hb : getKeyValue s.net.table b ≠ -1) :
    getKeyValue s'.net.table b ≠ -1 := by
  cases h with
  | client _ hc =>
    rw [hc.table]
    exact hb
  | @serve c x rest table r hc hleft hu hs =>
    change getKeyValue table b ≠ -1
    -- what `handle_lock` stores is never `-1`
    have hset : ∀ v : Int, v ≠ -1 → getKeyValue (setKeyValue true s.net.table (blockid x) v) b ≠ -1 := by
      intro v hv
      rw [getKeyValue_setKeyValue]
      split_ifs
      · exact hv
      · exact hb
    have hodd : ∀ v : Int, v <<< (1 : Nat) ≠ -1 := by
      intro v
      rw [Int.shiftLeft_eq]
      omega
    unfold handleLock at hs
    dsimp only at hs
    split_ifs at hs
    · cases hs
      exact hset 1 (by decide)
    · cases hs
      exact hb
    · cases hs
      exact hb
    · cases hs
      exact hset _ (hodd _)
    · cases hs
      exact hset 0 (by decide)
    · cases hs
      exact hset _ (hodd _)
    · cases hs
      exact hb
  | disconnect _ _ => exact hb
  | hangUp _ _ _ => exact hb

section
variable [Fintype ι] {role : ι → Role} {s s' : Service ι}

/-- The connected clients that hold block `b`. -/
def Service.holders (s : Service ι) (b : Nat) : Finset ι :=
  Finset.univ.filter fun c => s.closed c = false ∧ s.net.held c = some b

/-- Each table value encodes the connected holders of its block. -/
def Service.Exact (role : ι → Role) (s : Service ι) : Prop :=
  ∀ b : Nat, Encodes role (s.holders b) (getKeyValue s.net.table b)

/-- The table of a net encodes all holders, connected or not. -/
theorem encodes_held {s : Net ι} (h : Reachable role s) (b : Nat) :
    Encodes role (Cxl.holders s.held b) (getKeyValue s.table b) := by
  obtain ⟨hold, hinv⟩ := inv_reachable h
  have heq : s.held = hold := by
    funext c
    exact (hinv.talk c).held
  rw [heq]
  exact hinv.enc b

theorem Orderly.exact (h : Orderly role s) : s.Exact role := by
  intro b
  have heq : s.holders b = Cxl.holders s.net.held b := by
    ext c
    simp only [Service.holders, Finset.mem_filter, Finset.mem_univ, true_and, mem_holders]
    constructor
    · exact And.right
    · intro hc
      refine ⟨?_, hc⟩
      by_contra hclosed
      rw [Bool.not_eq_false] at hclosed
      rw [(h.shut c hclosed).2] at hc
      cases hc
  rw [heq]
  exact encodes_held h.reachable b

omit [DecidableEq ι] [Fintype ι] in
/-- The value of a block tells the number of its holders. -/
theorem Encodes.card {H : Finset ι} {v : Int} (h : Encodes role H v) (hv : v ≠ -1) :
    v = 1 ∧ H.card = 1 ∨ v ≠ 1 ∧ v = 2 * (H.card : Int) := by
  rcases h with ⟨c, -, rfl, rfl⟩ | ⟨-, rfl | ⟨-, rfl⟩⟩
  · exact Or.inl ⟨rfl, Finset.card_singleton c⟩
  · exact Or.inr ⟨by omega, rfl⟩
  · exact absurd rfl hv

/-- Closing a connection is right if and only if it has no lock. -/
theorem Orderly.hangUp_iff (h : Orderly role s) {c : ι} (hc : s.closed c = false) :
    Service.Exact role { s with closed := Function.update s.closed c true } ↔ Unlocked s c := by
  have hholders : ∀ b, Service.holders { s with closed := Function.update s.closed c true } b = (s.holders b).erase c := by
    intro b
    ext d
    by_cases hd : d = c
    · subst hd
      simp [Service.holders]
    · simp [Service.holders, hd]
  constructor
  · intro hexact
    unfold Unlocked
    cases hheld : s.net.held c with
    | none => rfl
    | some b =>
      exfalso
      have hmem : c ∈ s.holders b := by simp [Service.holders, hc, hheld]
      have hbefore := h.exact b
      have hafter : Encodes role ((s.holders b).erase c) (getKeyValue s.net.table b) := by
        rw [← hholders]
        exact hexact b
      have hcard := Finset.card_erase_add_one hmem
      have hne : getKeyValue s.net.table b ≠ -1 := by
        intro hv
        rw [hbefore.unheld (Or.inl hv)] at hmem
        simp at hmem
      rcases hbefore.card hne with ⟨h₁, h₂⟩ | ⟨h₁, h₂⟩
      · rcases hafter.card hne with ⟨h₃, h₄⟩ | ⟨h₃, h₄⟩
        · omega
        · exact h₃ h₁
      · rcases hafter.card hne with ⟨h₃, h₄⟩ | ⟨h₃, h₄⟩
        · exact h₁ h₃
        · omega
  · intro hheld b
    have hnone : s.net.held c = none := hheld
    rw [hholders, Finset.erase_eq_of_notMem]
    · exact h.exact b
    · simp [Service.holders, hnone]

end

end

/-- **Locks belong to connected clients**, in every run in which the server closes no connection with a lock: each table
value encodes the connected holders of its block, and with all connections closed every block that was ever locked is free.
The first connection closed with a lock leaves a table that is wrong. -/
theorem locks_of_connected {ι : Type} [DecidableEq ι] [Fintype ι] (role : ι → Role) (s : Service ι)
    (h : Relation.ReflTransGen (ServiceStep role Unlocked) Service.init s) :
    s.Exact role ∧
    (∀ s', Relation.ReflTransGen (ServiceStep role Unlocked) s s' → (∀ c, s'.closed c = true) →
      ∀ b : Nat, getKeyValue s.net.table b ≠ -1 → getKeyValue s'.net.table b = 0) ∧
    ∀ c, s.closed c = false → s.left c = some 0 →
      (Service.Exact role { s with closed := Function.update s.closed c true } ↔ Unlocked s c) := by
  have horderly := (Orderly.init role).run h
  refine ⟨horderly.exact, fun s' hs' hclosed b hb => ?_, fun c hc _ => horderly.hangUp_iff hc⟩
  have hne : getKeyValue s'.net.table b ≠ -1 := by
    clear hclosed
    induction hs' with
    | refl => exact hb
    | tail _ hstep ih => exact hstep.touched ih
  have hexact := (horderly.run hs').exact b
  have hempty : s'.holders b = ∅ := by
    ext c
    simp [Service.holders, hclosed c]
  rw [hempty] at hexact
  rcases hexact.card hne with ⟨-, hcard⟩ | ⟨-, hv⟩
  · cases hcard
  · simpa using hv

/-! ## The rounds of one client -/

section
variable {ι : Type} [DecidableEq ι] {role : ι → Role} {ok : Service ι → ι → Prop} {s : Service ι} {c d : ι}

/-- The connection of `c` is open and nothing is under way on it. -/
structure Service.Idle (s : Service ι) (c : ι) : Prop where
  up : s.net.up c = []
  down : s.net.down c = []
  left : s.left c = none
  closed : s.closed c = false

/-- The client `c` has come to `p`, and the server to `table`. -/
def Service.moved (s : Service ι) (c : ι) (p : Phase) (table : HashTable) : Service ι :=
  { s with net := { s.net with table := table, phase := Function.update s.net.phase c p } }

theorem Service.Idle.moved {p : Phase} {table : HashTable} (h : s.Idle d) : (s.moved c p table).Idle d :=
  ⟨h.up, h.down, h.left, h.closed⟩

/-- The reply of the server to `c` is under way. -/
def Service.answered (s : Service ι) (c : ι) (r : Option Int) : Service ι :=
  { s with net := { s.net with down := Function.update s.net.down c r.toList } }

/-- The server has closed the connection of `c`. -/
def Service.shut (s : Service ι) (c : ι) : Service ι :=
  { s with left := Function.update s.left c (some 0), closed := Function.update s.closed c true }

theorem Service.Idle.shut (h : s.Idle d) (hd : d ≠ c) : (s.shut c).Idle d := by
  refine ⟨h.up, h.down, ?_, ?_⟩
  · simp [Service.shut, hd, h.left]
  · simp [Service.shut, hd, h.closed]

/-- A client sends a word, and the server handles it. -/
theorem run_word (h : s.Idle c) {p : Phase} {x : Word} {table : HashTable} {r : Option Int}
    (hsend : ClientStep (role c) c s.net (s.net.send c p x)) (hserve : handleLock true s.net.table x = some (table, r)) :
    Relation.ReflTransGen (ServiceStep role ok) s ((s.moved c p table).answered c r) := by
  have hsent : ServiceStep role ok s { s with net := s.net.send c p x } := .client h.left hsend
  have hup : (s.net.send c p x).up c = x :: [] := by simp [Net.send, h.up]
  have hleft : s.left c ≠ some 0 := by simp [h.left]
  have hserved : ServiceStep role ok { s with net := s.net.send c p x } { s with
      net := (s.net.send c p x).reply c [] table r, left := Function.update s.left c ((s.left c).map Nat.pred) } :=
    .serve h.closed hleft hup hserve
  have hnone : Function.update s.left c none = s.left := Function.update_eq_self_iff.mpr h.left.symm
  have hempty : Function.update s.net.up c [] = s.net.up := Function.update_eq_self_iff.mpr h.up.symm
  have hrun := (Relation.ReflTransGen.single hsent).tail hserved
  simpa [Net.send, Net.reply, Service.moved, Service.answered, h.down, h.left, hnone, hempty] using hrun

/-- A client asks for a block and gets it. -/
theorem run_locks (h : s.Idle c) (hp : s.net.phase c = .top) {uuid : Nat} (hu : uuid < blockNum) {table : HashTable}
    (hserve : handleLock true s.net.table (lockWord (role c).request uuid) = some (table, some 1)) :
    Relation.ReflTransGen (ServiceStep role ok) s (s.moved c (.critical uuid) table) := by
  have hword : Relation.ReflTransGen (ServiceStep role ok) s ((s.moved c (.waiting uuid) table).answered c (some 1)) :=
    run_word h (.request hp hu) hserve
  have hphase : ((s.moved c (.waiting uuid) table).answered c (some 1)).net.phase c = .waiting uuid := by
    simp [Service.moved, Service.answered]
  have hdown : ((s.moved c (.waiting uuid) table).answered c (some 1)).net.down c = 1 :: [] := by
    simp [Service.answered]
  have hrun := hword.tail (.client h.left (.granted hphase hdown))
  have hempty : Function.update s.net.down c [] = s.net.down := Function.update_eq_self_iff.mpr h.down.symm
  simpa [Service.moved, Service.answered, hempty] using hrun

/-- A client gives its block back. -/
theorem run_releases (h : s.Idle c) {uuid : Nat} (hp : s.net.phase c = .critical uuid) {table : HashTable}
    (hserve : handleLock true s.net.table (lockWord .release uuid) = some (table, none)) :
    Relation.ReflTransGen (ServiceStep role ok) s (s.moved c .top table) := by
  have hword : Relation.ReflTransGen (ServiceStep role ok) s ((s.moved c .top table).answered c none) :=
    run_word h (.release hp) hserve
  have hempty : Function.update s.net.down c [] = s.net.down := Function.update_eq_self_iff.mpr h.down.symm
  simpa [Service.moved, Service.answered, hempty] using hword

/-- A client disconnects, and the server closes its connection. -/
theorem run_shuts (h : s.Idle c) (hok : ok { s with left := Function.update s.left c (some 0) } c) :
    Relation.ReflTransGen (ServiceStep role ok) s (s.shut c) := by
  have hgone : ServiceStep role ok s { s with left := Function.update s.left c (some 0) } :=
    .disconnect h.left (Nat.zero_le _)
  exact (Relation.ReflTransGen.single hgone).tail (.hangUp h.closed (by simp) hok)

omit [DecidableEq ι] in
theorem Service.idle_init (c : ι) : (Service.init : Service ι).Idle c := ⟨rfl, rfl, rfl, rfl⟩

end

/-- The table with block 7 write locked, and then free. -/
def writtenSeven : HashTable := setKeyValue true createHashTable 7 1

def freedSeven : HashTable := setKeyValue true writtenSeven 7 0

/-- The writer `c` is in its critical section of block 7. -/
def lockedSeven {ι : Type} [DecidableEq ι] (c : ι) : Service ι := Service.init.moved c (.critical 7) writtenSeven

theorem reachable_lockedSeven {ι : Type} [DecidableEq ι] {role : ι → Role} {c : ι} (hc : role c = .writer)
    (ok : Service ι → ι → Prop) : Relation.ReflTransGen (ServiceStep role ok) Service.init (lockedSeven c) := by
  apply run_locks (Service.idle_init c) rfl (by decide)
  rw [hc]
  exact handleLock_write createHashTable (by decide)

/-- The writer `false` and the reader `true`. -/
def writerReader (c : Bool) : Role := if c then .reader else .writer

/-- The writer gives the block back and disconnects; then the reader locks it. -/
theorem locks_of_connected_seven : ∃ s : Service Bool, s.closed false = true ∧ s.net.held true = some 7 ∧
    getKeyValue s.net.table 7 = 2 ∧ s.Exact writerReader := by
  let released : Service Bool := (lockedSeven false).moved false .top freedSeven
  let read : Service Bool := (released.shut false).moved true (.critical 7) (setKeyValue true freedSeven 7 2)
  have hidle : ∀ c, released.Idle c := fun c => (Service.idle_init c).moved.moved
  have hrelease : handleLock true writtenSeven (lockWord .release 7) = some (freedSeven, none) := by
    rw [handleLock_release _ (by decide), if_pos (by decide)]
    rfl
  have hread : handleLock true freedSeven (lockWord .read 7) = some (setKeyValue true freedSeven 7 2, some 1) := by
    rw [handleLock_read _ (by decide), if_neg (by decide)]
    rfl
  have h₁ : Relation.ReflTransGen (ServiceStep writerReader Unlocked) (lockedSeven false) released :=
    run_releases (Service.idle_init _).moved rfl hrelease
  have h₂ : Relation.ReflTransGen (ServiceStep writerReader Unlocked) released (released.shut false) :=
    run_shuts (hidle false) rfl
  have h₃ : Relation.ReflTransGen (ServiceStep writerReader Unlocked) (released.shut false) read :=
    run_locks ((hidle true).shut (by decide)) rfl (by decide) hread
  have hrun := (((reachable_lockedSeven rfl Unlocked).trans h₁).trans h₂).trans h₃
  exact ⟨read, rfl, rfl, by decide, (locks_of_connected writerReader read hrun).1⟩

/-- A writer that disconnects in its critical section: the server has closed all connections, and block 7 is still write
locked. -/
theorem leaked_lock : ∃ s : Service Unit,
    Relation.ReflTransGen (ServiceStep (fun _ => .writer) fun _ _ => True) Service.init s ∧
      (∀ c, s.closed c = true) ∧ getKeyValue s.net.table 7 = 1 ∧ ¬ s.Exact fun _ => .writer := by
  let shut : Service Unit := (lockedSeven ()).shut ()
  have hrun : Relation.ReflTransGen (ServiceStep (fun _ => .writer) fun _ _ => True) (lockedSeven ()) shut :=
    run_shuts (Service.idle_init ()).moved trivial
  have hclosed : ∀ c, shut.closed c = true := fun _ => rfl
  have hvalue : getKeyValue shut.net.table 7 = 1 := by decide
  refine ⟨shut, (reachable_lockedSeven rfl _).trans hrun, hclosed, hvalue, fun hexact => ?_⟩
  have hempty : shut.holders 7 = ∅ := by
    ext c
    simp [Service.holders, hclosed c]
  have hseven := hexact 7
  rw [hempty] at hseven
  rcases hseven.card (by rw [show ((7 : Nat) : Int) = 7 from rfl, hvalue]; decide) with ⟨-, hcard⟩ | ⟨hne, -⟩
  · cases hcard
  · exact hne hvalue

end PmemProgram.Cxl
