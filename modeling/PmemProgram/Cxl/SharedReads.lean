import PmemProgram.Cxl.SharedBlocks

/-!
# Reads of shared blocks

Under the locks every read of a block gets the last write of it, whatever the caches of the hosts hold. The invariant says of
each block with no writer in it that the memory has its last write and that no cache holds a stored-to line of it.

* `Inv.alone`, `Inv.served` : what the lock service gives to the holders of a block;
* `Sound` : the invariant; `SharingStep.sound` : every step keeps it;
* **`shared_blocks_consistent`** : every read gets the last write of its block, and its checksum is the right one;
* `reachable_pair` : a run in which a write is read on another host.
-/

namespace PmemProgram.Cxl
open PmemProgram.Lib.Cache

/-! ## The locks -/

section
variable {ι : Type} [Fintype ι] {role : ι → Role} {n : Net ι} {hold : ι → Option Nat} {b : Nat} {c d : ι}

/-- A writer holds its block alone. -/
theorem Inv.alone (h : Inv role n hold) (hc : role c = .writer) (hcb : hold c = some b) (hdb : hold d = some b) :
    d = c := by
  have hcH : c ∈ holders hold b := mem_holders.mpr hcb
  have hdH : d ∈ holders hold b := mem_holders.mpr hdb
  rcases h.enc b with ⟨e, -, hH, -⟩ | ⟨hr, -⟩
  · rw [hH, Finset.mem_singleton] at hcH hdH
    exact hdH.trans hcH.symm
  · rw [hr c hcH] at hc
    cases hc

/-- A held block has a node in the table. -/
theorem Inv.held [DecidableEq ι] (h : Inv role n hold) (hcb : hold c = some b) : getKeyValue n.table b ≠ -1 := by
  intro hv
  have hnone := (h.enc b).unheld (Or.inl hv)
  have hcH : c ∈ holders hold b := mem_holders.mpr hcb
  rw [hnone] at hcH
  cases hcH

/-- A client with a grant on its way to it holds the block. -/
theorem Inv.coming (h : Inv role n hold) (hp : n.phase c = .waiting b) (hd : n.down c = [1]) : hold c = some b := by
  have ht := h.talk c
  rw [hp, hd] at ht
  generalize n.up c = up at ht
  generalize hold c = o at ht
  cases ht
  rfl

/-- The block of a client in its critical section is one of the mapping. -/
theorem Inv.block_lt (h : Inv role n hold) (hp : n.phase c = .critical b) : b < blockNum := by
  have ht := h.talk c
  rw [hp] at ht
  generalize n.up c = up at ht
  generalize n.down c = down at ht
  generalize hold c = o at ht
  cases ht
  assumption

/-- The server has a word of the client: there is no reply under way, and the client is not in its critical section. -/
theorem Inv.sent (h : Inv role n hold) {x : Word} {rest : List Word} (hu : n.up c = x :: rest) :
    n.down c = [] ∧ n.phase c ≠ .critical b := by
  have ht := h.talk c
  rw [hu] at ht
  generalize n.phase c = p at ht ⊢
  generalize n.down c = down at ht ⊢
  generalize hold c = o at ht
  cases ht with
  | left _ => exact ⟨rfl, nofun⟩
  | leftAsked _ _ => exact ⟨rfl, nofun⟩
  | asked _ => exact ⟨rfl, nofun⟩

/-- A block gets its node with a grant to a writer. -/
theorem Inv.served [DecidableEq ι] (h : Inv role n hold) {x : Word} {rest : List Word} {table : HashTable} {r : Option Int}
    (hu : n.up c = x :: rest) (hs : handleLock true n.table x = some (table, r)) (hb : getKeyValue table b ≠ -1) :
    getKeyValue n.table b ≠ -1 ∨ role c = .writer ∧ n.phase c = .waiting b ∧ r = some 1 := by
  have ht := h.talk c
  rw [hu] at ht
  generalize hp : n.phase c = p at ht
  generalize n.down c = down at ht
  generalize hh : hold c = o at ht
  -- a release of a block that the client holds
  have hrelease : ∀ i : Nat, i < blockNum → x = lockWord .release i → hold c = some i → getKeyValue n.table b ≠ -1 := by
    intro i hi hx hhold
    have hi' : i < 2 ^ 30 := by unfold blockNum at hi; omega
    by_cases hib : b = i
    · rw [hib]
      exact h.held hhold
    · rw [hx, handleLock_release _ hi'] at hs
      split_ifs at hs
      · cases hs
        rwa [getKeyValue_set_ne _ _ _ _ hib] at hb
      · cases hs
        rwa [getKeyValue_set_ne _ _ _ _ hib] at hb
      · cases hs
        exact hb
  cases ht with
  | left hi => exact Or.inl (hrelease _ hi rfl hh)
  | leftAsked hi _ => exact Or.inl (hrelease _ hi rfl hh)
  | @asked i hi =>
    have hi' : i < 2 ^ 30 := by unfold blockNum at hi; omega
    cases hr : role c with
    | writer =>
      rw [hr, Role.request, handleLock_write _ hi'] at hs
      split_ifs at hs
      · cases hs
        by_cases hib : b = i
        · exact Or.inr ⟨rfl, by rw [hib], rfl⟩
        · rw [getKeyValue_set_ne _ _ _ _ hib] at hb
          exact Or.inl hb
      · cases hs
        exact Or.inl hb
    | reader =>
      rw [hr, Role.request, handleLock_read _ hi'] at hs
      split_ifs at hs with hv
      · cases hs
        exact Or.inl hb
      · cases hs
        by_cases hib : b = i
        · rw [hib]
          exact Or.inl fun hn => hv (Or.inr hn)
        · rw [getKeyValue_set_ne _ _ _ _ hib] at hb
          exact Or.inl hb

end

/-! ## The invariant -/

section
variable {ι η : Type} [DecidableEq ι] {role : ι → Role} {host : ι → η} {start : Nat}
  {s s' : Sharing ι η}

/-- A writer has been granted the block and has not finished with it. -/
def Unfinished (role : ι → Role) (s : Sharing ι η) (b : Nat) : Prop :=
  ∃ c, role c = .writer ∧ (s.net.phase c = .waiting b ∧ s.net.down c = [1] ∨
    s.net.phase c = .critical b ∧ s.work c ≠ .finished)

/-- No copy of the block has been stored to, and the memory has the last write. -/
def Settled (start : Nat) (s : Sharing ι η) (b : Nat) : Prop :=
  ∀ k, Quiet (cell start b k / 64) s.memory ∧
    ∀ d, lastWrite b s.log = some d → s.memory.mem (cell start b k) = d k

structure Sound (role : ι → Role) (host : ι → η) (start : Nat) (s : Sharing ι η) : Prop where
  net : Reachable role s.net
  sealed : ∀ c, role c = .writer → s.net.phase c ≠ .top → ∃ content, s.data c = withCrc content
  doing : ∀ c b, s.net.phase c = .critical b → Doing start s.memory (host c) b (s.data c) (role c) (s.work c)
  stored : ∀ b, ¬ Busy role s b → Settled start s b
  written : ∀ b : Nat, getKeyValue s.net.table b ≠ -1 → ¬ Unfinished role s b → (lastWrite b s.log).isSome
  log : LogRight s.log

/-- Each step of the system is one of the lock service and its clients, or none. -/
theorem SharingStep.net [DecidableEq η] (hs : SharingStep role host start s s') :
    Relation.ReflTransGen (Step role) s.net s'.net := by
  cases hs with
  | request hp hu _ => exact .single (.request hp hu)
  | serve hu hl => exact .single (.serve hu hl)
  | granted hp hd => exact .single (.granted hp hd)
  | refused hp hd hv => exact .single (.refused hp hd hv)
  | release hp _ => exact .single (.release hp)
  | cache _ => exact .refl
  | writeStart _ _ _ => exact .refl
  | writeByte _ _ _ _ => exact .refl
  | writeFlush _ _ _ _ => exact .refl
  | writeDone _ _ _ => exact .refl
  | readStart _ _ _ _ => exact .refl
  | flushLine _ _ => exact .refl
  | readCopy _ _ _ => exact .refl
  | readByte _ _ _ _ => exact .refl
  | readDone _ _ _ => exact .refl

/-- A step of the locks: the memory stays, and a client that enters its critical section has done nothing there. -/
theorem Sound.message (h : Sound role host start s) (hnet : Reachable role s'.net) (hmem : s'.memory = s.memory)
    (hlog : s'.log = s.log)
    (hinside : ∀ c b, s'.net.phase c = .critical b → s'.work c = .entered ∨
      s.net.phase c = .critical b ∧ s'.work c = s.work c ∧ s'.data c = s.data c)
    (hbusy : ∀ c b, s.net.phase c = .critical b → s.work c = .finished ∨
      s'.net.phase c = .critical b ∧ s'.work c = s.work c)
    (hsealed : ∀ c, role c = .writer → s'.net.phase c ≠ .top → ∃ content, s'.data c = withCrc content)
    (hwritten : ∀ b : Nat, getKeyValue s'.net.table b ≠ -1 → ¬ Unfinished role s' b →
      getKeyValue s.net.table b ≠ -1 ∧ ¬ Unfinished role s b) : Sound role host start s' where
  net := hnet
  sealed := hsealed
  doing := by
    intro c b hp
    rw [hmem]
    rcases hinside c b hp with hw | ⟨hp', hw, hd⟩
    · rw [hw]
      cases role c with
      | writer => trivial
      | reader => trivial
    · rw [hw, hd]
      exact h.doing c b hp'
  stored := by
    intro b hb
    have hb' : ¬ Busy role s b := by
      rintro ⟨c, hr, hp, hne, hnf⟩
      rcases hbusy c b hp with hw | ⟨hp', hw⟩
      · exact hnf hw
      · exact hb ⟨c, hr, hp', by rwa [hw], by rwa [hw]⟩
    unfold Settled
    rw [hmem, hlog]
    exact h.stored b hb'
  written := by
    intro b hv hu
    obtain ⟨hv', hu'⟩ := hwritten b hv hu
    rw [hlog]
    exact h.written b hv' hu'
  log := by
    rw [hlog]
    exact h.log

/-- A step of a client in its critical section. -/
theorem Sound.inside {c : ι} {b : Nat} {w : Work} {d : Block} {m : Shared η Byte} {l : List Event}
    (h : Sound role host start s) (hp : s.net.phase c = .critical b)
    (hdoing : Doing start m (host c) b d (role c) w)
    (hothers : ∀ e i, e ≠ c → s.net.phase e = .critical i →
      Doing start m (host e) i (s.data e) (role e) (s.work e))
    (hdata : role c = .writer → d = s.data c)
    (hstored : ∀ i, ¬ Busy role ⟨s.net, m, Function.update s.work c w, Function.update s.data c d, l⟩ i →
      Settled start ⟨s.net, m, Function.update s.work c w, Function.update s.data c d, l⟩ i)
    (hlog : LogRight l) (hlast : ∀ i, (lastWrite i s.log).isSome → (lastWrite i l).isSome)
    (hfinished : role c = .writer → w = .finished → (lastWrite b l).isSome) :
    Sound role host start ⟨s.net, m, Function.update s.work c w, Function.update s.data c d, l⟩ where
  net := h.net
  sealed := by
    intro e hr hpe
    by_cases he : e = c
    · subst he
      obtain ⟨content, hc⟩ := h.sealed e hr hpe
      exact ⟨content, by rw [← hc, ← hdata hr]; exact Function.update_self ..⟩
    · obtain ⟨content, hc⟩ := h.sealed e hr hpe
      exact ⟨content, by rw [← hc]; exact Function.update_of_ne he ..⟩
  doing := by
    intro e i hpe
    by_cases he : e = c
    · subst he
      have hib : i = b := Phase.critical.inj (hpe.symm.trans hp)
      simp only [Function.update_self, hib]
      exact hdoing
    · simp only [Function.update_of_ne he]
      exact hothers e i he hpe
  stored := hstored
  written := by
    intro i hv hu
    by_cases hold : Unfinished role s i
    · obtain ⟨e, hr, he⟩ := hold
      by_cases hec : e = c
      · subst hec
        rcases he with ⟨hw, -⟩ | ⟨hpe, -⟩
        · exact absurd (hw.symm.trans hp) (by simp)
        · have hib : i = b := Phase.critical.inj (hpe.symm.trans hp)
          subst hib
          refine hfinished hr (by_contra fun hw => hu ⟨e, hr, Or.inr ⟨hpe, ?_⟩⟩)
          simpa using hw
      · exact absurd ⟨e, hr, by simpa [Function.update_of_ne hec] using he⟩ hu
    · exact hlast i (h.written i hv hold)
  log := hlog

/-- A block that is not busy after a step inside of it was not before, but for a writer that finishes. -/
theorem not_busy_of {c : ι} {b i : Nat} {w : Work} {data : ι → Block} {m : Shared η Byte} {log : List Event}
    (hp : s.net.phase c = .critical b) (hb : ¬ Busy role ⟨s.net, m, Function.update s.work c w, data, log⟩ i)
    (hi : i ≠ b ∨ role c = .reader ∨ s.work c = .entered ∨ w ≠ .entered ∧ w ≠ .finished) : ¬ Busy role s i := by
  rintro ⟨e, hr, hpe, hne, hnf⟩
  by_cases hec : e = c
  · subst hec
    have hib : i = b := Phase.critical.inj (hpe.symm.trans hp)
    rcases hi with hi | hi | hi | ⟨hwe, hwf⟩
    · exact hi hib
    · rw [hi] at hr
      cases hr
    · exact hne hi
    · exact hb ⟨e, hr, hpe, by simpa using hwe, by simpa using hwf⟩
  · exact hb ⟨e, hr, hpe, by simpa [Function.update_of_ne hec] using hne, by simpa [Function.update_of_ne hec] using hnf⟩

omit [DecidableEq ι] in
theorem Settled.ticks [DecidableEq η] {b : Nat} (h : Settled start s b) (hnet : s'.log = s.log)
    (ht : Relation.ReflTransGen (Tick 64) s.memory s'.memory) : Settled start s' b := by
  intro k
  obtain ⟨hq, hmem⟩ := h k
  refine ⟨hq.ticks ht, fun d hd => ?_⟩
  rw [hnet] at hd
  exact (hq.mem_ticks ht).trans (hmem d hd)

section
variable [Fintype ι] {c e : ι} {b i : Nat}

/-- While a writer is in its critical section, no other client is in one of the block. -/
theorem Sound.alone (h : Sound role host start s) (hr : role c = .writer) (hc : s.net.phase c = .critical b)
    (he : s.net.phase e = .critical b) : e = c := by
  obtain ⟨hold, hinv⟩ := inv_reachable h.net
  exact hinv.alone hr (hinv.critical hc) (hinv.critical he)

/-- A block that is being read is not busy. -/
theorem Sound.not_busy (h : Sound role host start s) (hr : role c = .reader) (hc : s.net.phase c = .critical b) :
    ¬ Busy role s b := by
  rintro ⟨e, hw, he, -⟩
  have hce := h.alone hw he hc
  rw [hce, hw] at hr
  cases hr

theorem Sound.quiet (h : Sound role host start s) (hc : s.net.phase c = .critical b) (hr : role c = .reader)
    (k : Fin blockSize) : Quiet (cell start b k / 64) s.memory :=
  (h.stored b (h.not_busy hr hc) k).1

/-- A block that is being read has been written. -/
theorem Sound.read_written (h : Sound role host start s) (hr : role c = .reader) (hc : s.net.phase c = .critical b) :
    ∃ d, lastWrite b s.log = some d := by
  obtain ⟨hold, hinv⟩ := inv_reachable h.net
  have hhold := hinv.critical hc
  refine Option.isSome_iff_exists.mp (h.written b (hinv.held hhold) ?_)
  rintro ⟨e, hw, ⟨hp, hd⟩ | ⟨hp, -⟩⟩
  · have hce := hinv.alone hw (hinv.coming hp hd) hhold
    rw [hce, hw] at hr
    cases hr
  · have hce := hinv.alone hw (hinv.critical hp) hhold
    rw [hce, hw] at hr
    cases hr

/-! ## The steps -/

/-- The hardware, and flushes as far as other clients are concerned. -/
theorem Sound.others_ticks [DecidableEq η] (h : Sound role host start s) {m : Shared η Byte}
    (ht : Relation.ReflTransGen (Tick 64) s.memory m) (hp : s.net.phase e = .critical i) :
    Doing start m (host e) i (s.data e) (role e) (s.work e) :=
  (h.doing e i hp).ticks ht fun hr => h.quiet hp hr

theorem Sound.cache [DecidableEq η] (h : Sound role host start s) {m : Shared η Byte} (ht : Tick 64 s.memory m) :
    Sound role host start { s with memory := m } where
  net := h.net
  sealed := h.sealed
  doing _ _ hp := h.others_ticks (.single ht) hp
  stored i hi := Settled.ticks (h.stored i hi) rfl (.single ht)
  written := h.written
  log := h.log

omit [Fintype ι] in
theorem Sound.request (h : Sound role host start s) {uuid : Nat} {d : Block} (hp : s.net.phase c = .top)
    (hu : uuid < blockNum) (hd : Prepared (role c) (s.data c) d) : Sound role host start { s with
      net := s.net.send c (.waiting uuid) (lockWord (role c).request uuid)
      data := Function.update s.data c d } := by
  refine h.message (h.net.tail (.request hp hu)) rfl rfl (fun e i hpe => Or.inr ?_) (fun e i hpe => Or.inr ?_)
    (fun e hr hpe => ?_) fun i hv hn => ⟨hv, fun hold => hn ?_⟩
  · have hec : e ≠ c := by
      rintro rfl
      simp [Net.send] at hpe
    simp only [Net.send, Function.update_of_ne hec] at hpe ⊢
    exact ⟨hpe, trivial, trivial⟩
  · have hec : e ≠ c := by
      rintro rfl
      rw [hp] at hpe
      cases hpe
    simp only [Net.send, Function.update_of_ne hec]
    exact ⟨hpe, trivial⟩
  · by_cases hec : e = c
    · subst hec
      rw [hr] at hd
      obtain ⟨content, rfl⟩ : ∃ content, d = withCrc content := hd
      exact ⟨content, Function.update_self ..⟩
    · simp only [Net.send, Function.update_of_ne hec] at hpe ⊢
      exact h.sealed e hr hpe
  · obtain ⟨e, hr, he⟩ := hold
    have hec : e ≠ c := by
      rintro rfl
      simp [hp] at he
    exact ⟨e, hr, by simpa [Net.send, Function.update_of_ne hec] using he⟩

theorem Sound.serve (h : Sound role host start s) {x : Word} {rest : List Word} {table : HashTable} {r : Option Int}
    (hu : s.net.up c = x :: rest) (hs : handleLock true s.net.table x = some (table, r)) :
    Sound role host start { s with net := s.net.reply c rest table r } := by
  obtain ⟨hold, hinv⟩ := inv_reachable h.net
  have hdown := (hinv.sent (b := 0) hu).1
  refine h.message (h.net.tail (.serve hu hs)) rfl rfl (fun e i hpe => Or.inr ⟨hpe, rfl, rfl⟩)
    (fun e i hpe => Or.inr ⟨hpe, rfl⟩) h.sealed fun i hv hn => ?_
  refine ⟨(hinv.served hu hs hv).resolve_right ?_, ?_⟩
  · rintro ⟨hr, hp, rfl⟩
    refine hn ⟨c, hr, Or.inl ⟨hp, ?_⟩⟩
    simp [Net.reply, hdown]
  · rintro ⟨e, hr, he⟩
    refine hn ⟨e, hr, he.imp_left fun hw => ⟨hw.1, ?_⟩⟩
    have hec : e ≠ c := by
      rintro rfl
      rw [hdown] at hw
      exact absurd hw.2 (by simp)
    simpa [Net.reply, Function.update_of_ne hec] using hw.2

omit [Fintype ι] in
theorem Sound.granted (h : Sound role host start s) {uuid : Nat} {rest : List Int} (hp : s.net.phase c = .waiting uuid)
    (hd : s.net.down c = 1 :: rest) : Sound role host start { s.at c .entered with
      net := { s.net with
        phase := Function.update s.net.phase c (.critical uuid)
        down := Function.update s.net.down c rest } } := by
  refine h.message (h.net.tail (.granted hp hd)) rfl rfl (fun e i hpe => ?_) (fun e i hpe => Or.inr ?_)
    (fun e hr hpe => ?_) fun i hv hn => ⟨hv, fun hold => hn ?_⟩
  · by_cases hec : e = c
    · subst hec
      exact Or.inl (Function.update_self ..)
    · simp only [Sharing.at, Function.update_of_ne hec] at hpe ⊢
      exact Or.inr ⟨hpe, trivial, trivial⟩
  · have hec : e ≠ c := by
      rintro rfl
      rw [hp] at hpe
      cases hpe
    simp only [Sharing.at, Function.update_of_ne hec]
    exact ⟨hpe, trivial⟩
  · by_cases hec : e = c
    · subst hec
      exact h.sealed e hr (by simp [hp])
    · simp only [Function.update_of_ne hec] at hpe
      exact h.sealed e hr hpe
  · obtain ⟨e, hr, he⟩ := hold
    by_cases hec : e = c
    · subst hec
      rcases he with ⟨hw, -⟩ | ⟨hw, -⟩
      · refine ⟨e, hr, Or.inr ⟨?_, ?_⟩⟩
        · rw [← Phase.waiting.inj (hp.symm.trans hw)]
          exact Function.update_self ..
        · simp [Sharing.at]
      · exact absurd (hp.symm.trans hw) (by simp)
    · exact ⟨e, hr, by simpa [Sharing.at, Function.update_of_ne hec] using he⟩

omit [Fintype ι] in
theorem Sound.refused (h : Sound role host start s) {uuid : Nat} {v : Int} {rest : List Int}
    (hp : s.net.phase c = .waiting uuid) (hd : s.net.down c = v :: rest) (hv : v ≠ 1) :
    Sound role host start { s with
      net := { s.net with down := Function.update s.net.down c rest }.send c (.waiting uuid)
        (lockWord (role c).request uuid) } := by
  have hphase : ∀ e, Function.update s.net.phase c (.waiting uuid) e = s.net.phase e := by
    intro e
    by_cases hec : e = c
    · rw [hec, Function.update_self, hp]
    · exact Function.update_of_ne hec ..
  refine h.message (h.net.tail (.refused hp hd hv)) rfl rfl (fun e i hpe => Or.inr ⟨?_, rfl, rfl⟩)
    (fun e i hpe => Or.inr ⟨?_, rfl⟩) (fun e hr hpe => ?_) fun i hv' hn => ⟨hv', fun hold => hn ?_⟩
  · rw [← hphase]
    exact hpe
  · rw [← hpe]
    exact hphase e
  · refine h.sealed e hr ?_
    rw [← hphase]
    exact hpe
  · obtain ⟨e, hr, he⟩ := hold
    have hec : e ≠ c ∨ s.net.phase e = .critical i := by
      by_contra hne
      push Not at hne
      obtain ⟨rfl, hnc⟩ := hne
      rcases he with ⟨-, hw⟩ | ⟨hw, -⟩
      · rw [hd] at hw
        cases hw
        exact hv rfl
      · exact hnc hw
    refine ⟨e, hr, he.imp (fun hw => ⟨(hphase e).trans hw.1, ?_⟩) fun hw => ⟨(hphase e).trans hw.1, hw.2⟩⟩
    have hec : e ≠ c := hec.resolve_right (by rw [hw.1]; simp)
    simpa [Net.send, Function.update_of_ne hec] using hw.2

omit [Fintype ι] in
theorem Sound.release (h : Sound role host start s) (hp : s.net.phase c = .critical b) (hw : s.work c = .finished) :
    Sound role host start { s with net := s.net.send c .top (lockWord .release b) } := by
  refine h.message (h.net.tail (.release hp)) rfl rfl (fun e i hpe => Or.inr ?_) (fun e i hpe => ?_)
    (fun e hr hpe => ?_) fun i hv hn => ⟨hv, fun hold => hn ?_⟩
  · have hec : e ≠ c := by
      rintro rfl
      simp [Net.send] at hpe
    simp only [Net.send, Function.update_of_ne hec] at hpe
    exact ⟨hpe, rfl, rfl⟩
  · by_cases hec : e = c
    · subst hec
      exact Or.inl hw
    · simp only [Net.send, Function.update_of_ne hec]
      exact Or.inr ⟨hpe, trivial⟩
  · have hec : e ≠ c := by
      rintro rfl
      simp [Net.send] at hpe
    simp only [Net.send, Function.update_of_ne hec] at hpe
    exact h.sealed e hr hpe
  · obtain ⟨e, hr, he⟩ := hold
    have hec : e ≠ c := by
      rintro rfl
      simp [hp, hw] at he
    exact ⟨e, hr, by simpa [Net.send, Function.update_of_ne hec] using he⟩

omit [Fintype ι] in
/-- A step inside of a critical section that changes neither memory nor log. -/
theorem Sound.local (h : Sound role host start s) (hp : s.net.phase c = .critical b) {w : Work} {d : Block}
    (hdoing : Doing start s.memory (host c) b d (role c) w) (hdata : role c = .writer → d = s.data c)
    (hw : role c = .reader ∨ s.work c = .entered ∨ w ≠ .entered ∧ w ≠ .finished)
    (hfinished : role c = .writer → w ≠ .finished) :
    Sound role host start ⟨s.net, s.memory, Function.update s.work c w, Function.update s.data c d, s.log⟩ :=
  h.inside hp hdoing (fun e i _ hpe => h.doing e i hpe) hdata
    (fun i hi => h.stored i (not_busy_of hp hi (Or.inr hw))) h.log (fun _ hi => hi)
    fun hr hwf => absurd hwf (hfinished hr)

omit [Fintype ι] in
/-- The same where the buffer stays too. -/
theorem Sound.at (h : Sound role host start s) (hp : s.net.phase c = .critical b) {w : Work}
    (hdoing : Doing start s.memory (host c) b (s.data c) (role c) w)
    (hw : role c = .reader ∨ s.work c = .entered ∨ w ≠ .entered ∧ w ≠ .finished)
    (hfinished : role c = .writer → w ≠ .finished) : Sound role host start (s.at c w) := by
  have hstep := h.local hp hdoing (fun _ => rfl) hw hfinished
  rwa [Function.update_eq_self] at hstep

theorem Sound.writeStart (h : Sound role host start s) (hr : role c = .writer) (hp : s.net.phase c = .critical b)
    (hw : s.work c = .entered) : Sound role host start (s.at c (.copy Finset.univ)) := by
  have hidle : ¬ Busy role s b := by
    rintro ⟨e, hre, hpe, hne, -⟩
    rw [h.alone hr hp hpe] at hne
    exact hne hw
  refine h.at hp ?_ (Or.inr (Or.inl hw)) fun _ => nofun
  rw [hr]
  exact fun k => ⟨(h.stored b hidle k).1.but _, fun hk => absurd (Finset.mem_univ k) hk⟩

theorem Sound.writeByte [DecidableEq η] (h : Sound role host start s) (hstart : start % 64 = 0) (hr : role c = .writer)
    (hp : s.net.phase c = .critical b) {todo : Finset (Fin blockSize)} {k : Fin blockSize} (hw : s.work c = .copy todo) :
    Sound role host start { s.at c (.copy (todo.erase k)) with
      memory := s.memory.store 64 (host c) (cell start b k) (s.data c k) } := by
  have hdo := h.doing c b hp
  rw [hr, hw] at hdo
  have hstep := h.inside (w := .copy (todo.erase k)) (d := s.data c)
    (m := s.memory.store 64 (host c) (cell start b k) (s.data c k)) (l := s.log) hp ?_ ?_ (fun _ => rfl) ?_ h.log
    (fun _ hi => hi) (fun _ hwf => by cases hwf)
  · rwa [Function.update_eq_self] at hstep
  · rw [hr]
    intro j
    refine ⟨(hdo j).1.store (Or.inl rfl), fun hj => ?_⟩
    by_cases hjk : j = k
    · rw [hjk]
      exact sees_store
    · have hj' : j ∉ todo := fun hmem => hj (Finset.mem_erase.mpr ⟨hjk, hmem⟩)
      exact ((hdo j).2 hj').store fun he => hjk (cell_inj he)
  · intro e i hec hpe
    have hib : i ≠ b := by
      rintro rfl
      exact hec (h.alone hr hp hpe)
    exact (h.doing e i hpe).store hstart hib k _
  · intro i hi j
    have hib : i ≠ b := by
      rintro rfl
      exact hi ⟨c, hr, hp, by simp, by simp⟩
    obtain ⟨hq, hmem⟩ := h.stored i (not_busy_of hp hi (Or.inl hib)) j
    exact ⟨hq.store fun he => hib (cell_line_inj hstart he), hmem⟩

theorem Sound.writeFlush (h : Sound role host start s) (hm : Mapped start) (hr : role c = .writer)
    (hp : s.net.phase c = .critical b) (hw : s.work c = .copy ∅) {fuel : Nat} {before : List Address} {last : Address}
    (hf : cflush fuel (BitVec.ofNat 64 (blockAddr start b)) (BitVec.ofNat 64 lockBlockSize) = some (before, last)) :
    Sound role host start (s.at c (.flush (before ++ [last]))) := by
  obtain ⟨hold, hinv⟩ := inv_reachable h.net
  have hdo := h.doing c b hp
  rw [hr, hw] at hdo
  refine h.at hp ?_ (Or.inr (Or.inr ⟨nofun, nofun⟩)) fun _ => nofun
  rw [hr]
  intro k
  refine ⟨(hdo k).1, (hdo k).2 (Finset.notMem_empty k), fun hps => ?_⟩
  obtain ⟨p, hmem, hl⟩ := hm.cflush (hinv.block_lt hp) hf k
  exact absurd hl (hps p hmem)

omit [Fintype ι] in
theorem Sound.writeDone (h : Sound role host start s) (hr : role c = .writer) (hp : s.net.phase c = .critical b)
    (hw : s.work c = .flush []) :
    Sound role host start { s.at c .finished with log := s.log ++ [.wrote b (s.data c)] } := by
  have hdo := h.doing c b hp
  rw [hr, hw] at hdo
  have hright : Event.Right s.log (.wrote b (s.data c)) := h.sealed c hr (by simp [hp])
  have hstep := h.inside (w := .finished) (d := s.data c) (m := s.memory) (l := s.log ++ [.wrote b (s.data c)]) hp
    (by rw [hr]; trivial) (fun e i _ hpe => h.doing e i hpe) (fun _ => rfl) ?_ (h.log.concat hright) ?_ ?_
  · rwa [Function.update_eq_self] at hstep
  · intro i hi k
    by_cases hib : i = b
    · subst hib
      obtain ⟨hq, hmem⟩ := (hdo k).2.2 (by simp)
      refine ⟨hq, fun d hd => ?_⟩
      rw [lastWrite_concat, Event.after, if_pos rfl] at hd
      cases hd
      exact hmem
    · obtain ⟨hq, hmem⟩ := h.stored i (not_busy_of hp hi (Or.inl hib)) k
      refine ⟨hq, fun d hd => hmem d ?_⟩
      rwa [lastWrite_concat, Event.after, if_neg (Ne.symm hib)] at hd
  · intro i hi
    rw [lastWrite_concat, Event.after]
    split_ifs
    · rfl
    · exact hi
  · intro _ _
    rw [lastWrite_concat, Event.after, if_pos rfl]
    rfl

theorem Sound.readStart (h : Sound role host start s) (hm : Mapped start) (hr : role c = .reader)
    (hp : s.net.phase c = .critical b) {fuel : Nat} {ps : List Address}
    (hf : cflushopt fuel (BitVec.ofNat 64 (blockAddr start b)) (BitVec.ofNat 64 lockBlockSize) = some ps) :
    Sound role host start (s.at c (.flush ps)) := by
  obtain ⟨hold, hinv⟩ := inv_reachable h.net
  refine h.at hp ?_ (Or.inl hr) fun _ => nofun
  rw [hr]
  intro k hps
  obtain ⟨p, hmem, hl⟩ := hm.cflushopt (hinv.block_lt hp) hf k
  exact absurd hl (hps p hmem)

theorem Sound.flushLine [DecidableEq η] (h : Sound role host start s) (hp : s.net.phase c = .critical b) {p : Address}
    {ps : List Address} (hw : s.work c = .flush (p :: ps)) :
    Sound role host start { s.at c (.flush ps) with memory := s.memory.flush 64 (host c) (line p) } := by
  have ht := ticks_flush (w := 64) s.memory (host c) (line p)
  have hdo := h.doing c b hp
  rw [hw] at hdo
  have hstep := h.inside (w := .flush ps) (d := s.data c) (m := s.memory.flush 64 (host c) (line p)) (l := s.log) hp
    (hdo.flushLine fun hr => h.quiet hp hr) (fun e i _ hpe => h.others_ticks ht hpe) (fun _ => rfl) ?_ h.log
    (fun _ hi => hi) (fun _ hwf => by cases hwf)
  · rwa [Function.update_eq_self] at hstep
  · intro i hi
    have hidle := not_busy_of hp hi (Or.inr (Or.inr (Or.inr ⟨nofun, nofun⟩)))
    exact (h.stored i hidle).ticks rfl ht

omit [Fintype ι] in
theorem Sound.readCopy (h : Sound role host start s) (hr : role c = .reader) (hp : s.net.phase c = .critical b)
    (hw : s.work c = .flush []) : Sound role host start (s.at c (.copy Finset.univ)) := by
  have hdo := h.doing c b hp
  rw [hr, hw] at hdo
  refine h.at hp ?_ (Or.inl hr) fun _ => nofun
  rw [hr]
  exact fun k => ⟨hdo k (by simp), fun hk => absurd (Finset.mem_univ k) hk⟩

omit [Fintype ι] in
theorem Sound.readByte (h : Sound role host start s) (hr : role c = .reader) (hp : s.net.phase c = .critical b)
    {todo : Finset (Fin blockSize)} {k : Fin blockSize} (hw : s.work c = .copy todo) :
    Sound role host start { s.at c (.copy (todo.erase k)) with
      data := Function.update s.data c
        (Function.update (s.data c) k (s.memory.load 64 (host c) (cell start b k))) } := by
  have hdo := h.doing c b hp
  rw [hr, hw] at hdo
  refine h.local hp ?_ (fun hr' => ?_) (Or.inl hr) fun _ => nofun
  · rw [hr]
    intro j
    refine ⟨(hdo j).1, fun hj => ?_⟩
    by_cases hjk : j = k
    · rw [hjk, Function.update_self]
      exact (hdo k).1.load
    · rw [Function.update_of_ne hjk]
      exact (hdo j).2 fun hmem => hj (Finset.mem_erase.mpr ⟨hjk, hmem⟩)
  · rw [hr] at hr'
    cases hr'

theorem Sound.readDone (h : Sound role host start s) (hr : role c = .reader) (hp : s.net.phase c = .critical b)
    (hw : s.work c = .copy ∅) :
    Sound role host start { s.at c .finished with
      log := s.log ++
        [.read b (s.data c) (calculateCrc32 (payload (s.data c)) == storedCrc start s.memory (host c) b)] } := by
  have hdo := h.doing c b hp
  rw [hr, hw] at hdo
  obtain ⟨d, hd⟩ := h.read_written hr hp
  have hmem : ∀ k, s.memory.mem (cell start b k) = d k := fun k => (h.stored b (h.not_busy hr hp) k).2 d hd
  -- the copy is the last write, and so is what the comparison reads
  have hdata : s.data c = d := by
    funext k
    rw [(hdo k).2 (Finset.notMem_empty k), hmem k]
  have hcrc : storedCrc start s.memory (host c) b = sourceCrc d := by
    unfold storedCrc sourceCrc
    congr 1
    funext j
    rw [(hdo _).1.load, hmem]
  have hok : calculateCrc32 (payload (s.data c)) = storedCrc start s.memory (host c) b := by
    obtain ⟨content, rfl⟩ := h.log.sealed hd
    rw [hdata, hcrc]
    exact crcOk_withCrc content
  have hright : Event.Right s.log
      (.read b (s.data c) (calculateCrc32 (payload (s.data c)) == storedCrc start s.memory (host c) b)) := by
    refine ⟨?_, ?_⟩
    · rw [hok]
      exact beq_self_eq_true _
    · rw [hd, hdata]
  have hstep := h.inside (w := .finished) (d := s.data c) (m := s.memory) hp (by rw [hr]; trivial)
    (fun e i _ hpe => h.doing e i hpe) (fun _ => rfl) ?_ (h.log.concat hright) ?_
    (fun hr' => by rw [hr] at hr'; cases hr')
  · rwa [Function.update_eq_self] at hstep
  · intro i hi k
    obtain ⟨hq, hmem⟩ := h.stored i (not_busy_of hp hi (Or.inr (Or.inl hr))) k
    refine ⟨hq, fun d hd => hmem d ?_⟩
    rwa [lastWrite_concat] at hd
  · intro i hi
    rw [lastWrite_concat]
    exact hi

/-- **Every step keeps the invariant.** -/
theorem SharingStep.sound [DecidableEq η] (hm : Mapped start) (h : Sound role host start s)
    (hs : SharingStep role host start s s') :
    Sound role host start s' := by
  cases hs with
  | cache ht => exact h.cache ht
  | request hp hu hd => exact h.request hp hu hd
  | serve hu hl => exact h.serve hu hl
  | granted hp hd => exact h.granted hp hd
  | refused hp hd hv => exact h.refused hp hd hv
  | writeStart hr hp hw => exact h.writeStart hr hp hw
  | writeByte hr hp hw hk => exact h.writeByte hm.aligned hr hp hw
  | writeFlush hr hp hw hf => exact h.writeFlush hm hr hp hw hf
  | writeDone hr hp hw => exact h.writeDone hr hp hw
  | readStart hr hp hw hf => exact h.readStart hm hr hp hf
  | flushLine hp hw => exact h.flushLine hp hw
  | readCopy hr hp hw => exact h.readCopy hr hp hw
  | readByte hr hp hw hk => exact h.readByte hr hp hw
  | readDone hr hp hw => exact h.readDone hr hp hw
  | release hp hw => exact h.release hp hw

omit [Fintype ι] in
theorem Unused.sound (h : Unused s) : Sound role host start s where
  net := by
    rw [h.net]
    exact .refl
  sealed c _ hp := by
    rw [h.net] at hp
    exact absurd rfl hp
  doing c b hp := by
    rw [h.net] at hp
    cases hp
  stored b _ k := by
    refine ⟨h.quiet _, fun d hd => ?_⟩
    rw [h.log] at hd
    cases hd
  written b hv _ := by
    rw [h.net] at hv
    exact absurd (getKeyValue_create b) hv
  log := by
    rw [h.log]
    exact logRight_nil

/-- **Sharing is consistent.** From any content of the memory and any unchanged copies in the caches, whatever the clients,
the server and the caches do: a completed write is sealed; every read gets the bytes of the last completed write of its
block, which there is, and its checksum is the one in the block; and outside of a writer's copy and flush the memory has the
last write. -/
theorem shared_blocks_consistent [DecidableEq η] (hm : Mapped start) {s₀ : Sharing ι η} (h₀ : Unused s₀)
    (h : Relation.ReflTransGen (SharingStep role host start) s₀ s) :
    (∀ before b d, before ++ [.wrote b d] <+: s.log → ∃ content, d = withCrc content) ∧
      (∀ before b d ok, before ++ [.read b d ok] <+: s.log → ok = true ∧ lastWrite b before = some d) ∧
      ∀ b d, ¬ Busy role s b → lastWrite b s.log = some d → ∀ k, s.memory.mem (cell start b k) = d k := by
  have hsound : Sound role host start s := by
    induction h with
    | refl => exact h₀.sound
    | tail _ hs ih => exact hs.sound hm ih
  exact ⟨fun before b d hp => hsound.log before _ hp, fun before b d ok hp => hsound.log before _ hp,
    fun b d hb hd k => (hsound.stored b hb k).2 d hd⟩

end

end

/-! ## A write and a read -/

section
variable {ι η : Type} [DecidableEq ι] [DecidableEq η] {role : ι → Role} {host : ι → η} {start b : Nat} {c : ι}

/-- The client gets to `w` on its own, with the events `es` added to the log. -/
def Gets (role : ι → Role) (host : ι → η) (start : Nat) (c : ι) (s : Sharing ι η) (w : Work) (es : List Event) : Prop :=
  ∃ s', Relation.ReflTransGen (SharingStep role host start) s s' ∧ s'.net = s.net ∧ s'.work c = w ∧
    s'.log = s.log ++ es

theorem Gets.refl (s : Sharing ι η) : Gets role host start c s (s.work c) [] :=
  ⟨s, .refl, rfl, rfl, (List.append_nil _).symm⟩

/-- One step, and what comes behind it. -/
theorem Gets.head {s s₁ : Sharing ι η} {w : Work} {es : List Event} (hs : SharingStep role host start s s₁)
    (hnet : s₁.net = s.net) (hlog : s₁.log = s.log) (h : Gets role host start c s₁ w es) :
    Gets role host start c s w es := by
  obtain ⟨s', hsteps, hnet', hw, hlog'⟩ := h
  exact ⟨s', .head hs hsteps, hnet'.trans hnet, hw, by rw [hlog', hlog]⟩

theorem gets_copied {s : Sharing ι η} (hp : s.net.phase c = .critical b) {todo : Finset (Fin blockSize)}
    (hw : s.work c = .copy todo) : Gets role host start c s (.copy ∅) [] := by
  induction todo using Finset.strongInduction generalizing s with
  | H todo ih =>
    by_cases hempty : todo = ∅
    · have hdone : s.work c = .copy ∅ := by rw [hw, hempty]
      rw [← hdone]
      exact .refl s
    · obtain ⟨k, hk⟩ := Finset.nonempty_iff_ne_empty.mpr hempty
      have hself : (s.at c (.copy (todo.erase k))).work c = .copy (todo.erase k) := Function.update_self ..
      cases hr : role c with
      | writer => exact .head (.writeByte hr hp hw hk) rfl rfl (ih _ (Finset.erase_ssubset hk) hp hself)
      | reader => exact .head (.readByte hr hp hw hk) rfl rfl (ih _ (Finset.erase_ssubset hk) hp hself)

theorem gets_flushed {s : Sharing ι η} (hp : s.net.phase c = .critical b) {ps : List Address}
    (hw : s.work c = .flush ps) : Gets role host start c s (.flush []) [] := by
  induction ps generalizing s with
  | nil =>
    rw [← hw]
    exact .refl s
  | cons p ps ih => exact .head (.flushLine hp hw) rfl rfl (ih hp (Function.update_self ..))

theorem Gets.trans {s s' : Sharing ι η} {w : Work} {es : List Event}
    (hs : Relation.ReflTransGen (SharingStep role host start) s s') (hnet : s'.net = s.net) (hlog : s'.log = s.log)
    (h : Gets role host start c s' w es) : Gets role host start c s w es := by
  obtain ⟨t, ht, hnet', hw, hlog'⟩ := h
  exact ⟨t, hs.trans ht, hnet'.trans hnet, hw, by rw [hlog', hlog]⟩

variable (role host start) in
/-- The critical section of a writer. -/
theorem gets_wrote (hm : Mapped start) (hb : b < blockNum) {s : Sharing ι η} (hr : role c = .writer)
    (hp : s.net.phase c = .critical b) (hw : s.work c = .entered) :
    ∃ d, Gets role host start c s .finished [.wrote b d] := by
  have hcopied : Gets role host start c s (.copy ∅) [] :=
    .head (.writeStart hr hp hw) rfl rfl (gets_copied hp (Function.update_self ..))
  obtain ⟨s₁, hs₁, hnet₁, hw₁, hlog₁⟩ := hcopied
  have hp₁ : s₁.net.phase c = .critical b := by rwa [hnet₁]
  have hflushed : Gets role host start c s₁ (.flush []) [] :=
    .head (.writeFlush hr hp₁ hw₁ (hm.cflush_eq hb le_rfl)) rfl rfl (gets_flushed hp₁ (Function.update_self ..))
  obtain ⟨s₂, hs₂, hnet₂, hw₂, hlog₂⟩ := Gets.trans hs₁ hnet₁ (by rw [hlog₁, List.append_nil]) hflushed
  have hp₂ : s₂.net.phase c = .critical b := by rwa [hnet₂]
  refine ⟨s₂.data c, _, hs₂.tail (.writeDone hr hp₂ hw₂), hnet₂, Function.update_self .., ?_⟩
  rw [hlog₂, List.append_nil]

variable (role host start) in
/-- The critical section of a reader. -/
theorem gets_read (hm : Mapped start) (hb : b < blockNum) {s : Sharing ι η} (hr : role c = .reader)
    (hp : s.net.phase c = .critical b) (hw : s.work c = .entered) :
    ∃ d ok, Gets role host start c s .finished [.read b d ok] := by
  have hflushed : Gets role host start c s (.flush []) [] :=
    .head (.readStart hr hp hw (hm.cflushopt_eq hb le_rfl)) rfl rfl (gets_flushed hp (Function.update_self ..))
  obtain ⟨s₁, hs₁, hnet₁, hw₁, hlog₁⟩ := hflushed
  have hp₁ : s₁.net.phase c = .critical b := by rwa [hnet₁]
  have hcopied : Gets role host start c s₁ (.copy ∅) [] :=
    .head (.readCopy hr hp₁ hw₁) rfl rfl (gets_copied hp₁ (Function.update_self ..))
  obtain ⟨s₂, hs₂, hnet₂, hw₂, hlog₂⟩ := Gets.trans hs₁ hnet₁ (by rw [hlog₁, List.append_nil]) hcopied
  have hp₂ : s₂.net.phase c = .critical b := by rwa [hnet₂]
  refine ⟨s₂.data c, calculateCrc32 (payload (s₂.data c)) == storedCrc start s₂.memory (host c) b, _,
    hs₂.tail (.readDone hr hp₂ hw₂), hnet₂, Function.update_self .., ?_⟩
  rw [hlog₂, List.append_nil]

/-- At the top of its loop, with nothing on its connection. -/
def OnTop (n : Net ι) (c : ι) : Prop := n.phase c = .top ∧ n.up c = [] ∧ n.down c = []

variable (role host start) in
/-- A client whose request is granted at once. -/
theorem reaches_critical {s : Sharing ι η} {table : HashTable} (hc : OnTop s.net c) (hb : b < blockNum)
    (hl : handleLock true s.net.table (lockWord (role c).request b) = some (table, some 1)) :
    ∃ s', Relation.ReflTransGen (SharingStep role host start) s s' ∧ s'.net.phase c = .critical b ∧
      s'.net.up c = [] ∧ s'.net.table = table ∧ s'.work c = .entered ∧ s'.log = s.log ∧
      ∀ e, e ≠ c → OnTop s.net e → OnTop s'.net e := by
  obtain ⟨hp, hu, hd⟩ := hc
  obtain ⟨d, hprep⟩ : ∃ d, Prepared (role c) (s.data c) d := by
    cases role c with
    | writer => exact ⟨withCrc fun _ => 0, _, rfl⟩
    | reader => exact ⟨_, rfl⟩
  have h₁ : SharingStep role host start s _ := .request hp hb hprep
  generalize hs₁ : ({ s with
    net := s.net.send c (.waiting b) (lockWord (role c).request b)
    data := Function.update s.data c d } : Sharing ι η) = s₁ at h₁
  have hup : s₁.net.up c = [lockWord (role c).request b] := by
    subst hs₁
    simp [Net.send, hu]
  have htable : s₁.net.table = s.net.table := by
    subst hs₁
    rfl
  have h₂ : SharingStep role host start s₁ _ := .serve hup (by rwa [htable])
  have hphase : (s₁.net.reply c [] table (some 1)).phase c = .waiting b := by
    subst hs₁
    simp [Net.send, Net.reply]
  have hdown : (s₁.net.reply c [] table (some 1)).down c = [1] := by
    subst hs₁
    simp [Net.send, Net.reply, hd]
  refine ⟨_, ((Relation.ReflTransGen.single h₁).tail h₂).tail (.granted hphase hdown), ?_, ?_, rfl, ?_, ?_,
    fun e he hrest => ?_⟩
  all_goals subst hs₁
  · simp
  · simp [Net.send, Net.reply]
  · exact Function.update_self ..
  · rfl
  · simpa [OnTop, Net.send, Net.reply, Function.update_of_ne he] using hrest

variable (role host start) in
/-- The release of a client in its critical section, served at once. -/
theorem reaches_top {s : Sharing ι η} {table : HashTable} (hp : s.net.phase c = .critical b) (hw : s.work c = .finished)
    (hu : s.net.up c = []) (hl : handleLock true s.net.table (lockWord .release b) = some (table, none)) :
    ∃ s', Relation.ReflTransGen (SharingStep role host start) s s' ∧ s'.net.table = table ∧ s'.log = s.log ∧
      ∀ e, e ≠ c → OnTop s.net e → OnTop s'.net e := by
  have h₁ : SharingStep role host start s _ := .release hp hw
  have hup : (s.net.send c .top (lockWord .release b)).up c = [lockWord .release b] := by
    simp [Net.send, hu]
  refine ⟨_, (Relation.ReflTransGen.single h₁).tail (.serve hup hl), rfl, rfl, fun e he hrest => ?_⟩
  · simpa [OnTop, Net.send, Net.reply, Function.update_of_ne he] using hrest

end

/-- A writer and a reader, each on a host of its own. -/
def pairRole : Fin 2 → Role := ![.writer, .reader]

/-- Memory and caches are empty. -/
def startSharing : Sharing (Fin 2) (Fin 2) :=
  ⟨Net.init, ⟨fun _ => 0, fun _ _ => none⟩, fun _ => .entered, fun _ _ => 0, []⟩

theorem unused_startSharing : Unused startSharing where
  net := rfl
  quiet l h c hc := by cases hc
  log := rfl

theorem mapped_page : Mapped 4096 where
  aligned := rfl
  low := by decide
  high := by
    rw [lockBlockSize_lines]
    decide

/-- The writer has written block 7, and the reader has read it. -/
theorem reachable_pair : ∃ s, Relation.ReflTransGen (SharingStep pairRole id 4096) startSharing s ∧
    ∃ d d' ok, s.log = [.wrote 7 d, .read 7 d' ok] := by
  have hb : 7 < blockNum := by decide
  have hrest : ∀ c, OnTop startSharing.net c := fun c => ⟨rfl, rfl, rfl⟩
  obtain ⟨s₁, hs₁, hp₁, hu₁, ht₁, hw₁, hlog₁, hrest₁⟩ := reaches_critical pairRole id 4096 (hrest 0) hb
    (handleLock_write createHashTable (b := 7) (by decide))
  obtain ⟨d, s₂, hs₂, hnet₂, hw₂, hlog₂⟩ :=
    gets_wrote pairRole id 4096 mapped_page hb (c := 0) rfl hp₁ hw₁
  have hrelease := handleLock_release s₂.net.table (b := 7) (by decide)
  rw [hnet₂, ht₁, getKeyValue_set_self, if_pos rfl, ← ht₁, ← hnet₂] at hrelease
  obtain ⟨s₃, hs₃, ht₃, hlog₃, hrest₃⟩ := reaches_top pairRole id 4096 (c := 0) (by rw [hnet₂, hp₁]) hw₂
    (by rw [hnet₂, hu₁]) hrelease
  have hone : OnTop s₃.net 1 := hrest₃ 1 (by decide) (by rw [hnet₂]; exact hrest₁ 1 (by decide) (hrest 1))
  -- the table has the block free now
  have hread := handleLock_read s₃.net.table (b := 7) (by decide)
  have hfree : getKeyValue s₃.net.table (7 : Nat) = 0 := by rw [ht₃, getKeyValue_set_self]
  rw [hfree, if_neg (by decide)] at hread
  obtain ⟨s₄, hs₄, hp₄, -, -, hw₄, hlog₄, -⟩ := reaches_critical pairRole id 4096 hone hb hread
  obtain ⟨d', ok, s₅, hs₅, -, -, hlog₅⟩ :=
    gets_read pairRole id 4096 mapped_page hb (c := 1) rfl hp₄ hw₄
  refine ⟨s₅, (((hs₁.trans hs₂).trans hs₃).trans hs₄).trans hs₅, d, d', ok, ?_⟩
  rw [hlog₅, hlog₄, hlog₃, hlog₂, hlog₁]
  rfl

theorem shared_blocks_consistent_pair : ∃ s, Relation.ReflTransGen (SharingStep pairRole id 4096) startSharing s ∧
    ∃ content, s.log = [.wrote 7 (withCrc content), .read 7 (withCrc content) true] := by
  obtain ⟨s, hs, d, d', ok, hlog⟩ := reachable_pair
  obtain ⟨hwrote, hread, -⟩ := shared_blocks_consistent mapped_page unused_startSharing hs
  rw [hlog] at hwrote hread
  obtain ⟨content, rfl⟩ := hwrote [] 7 d ⟨_, rfl⟩
  obtain ⟨rfl, hlast⟩ := hread [.wrote 7 (withCrc content)] 7 d' ok List.prefix_rfl
  obtain rfl : withCrc content = d' := Option.some.inj hlast
  exact ⟨s, hs, content, hlog⟩

end PmemProgram.Cxl
