import PmemProgram.Wal.Recovery

/-!
# The log and power failures

* `acknowledged_survive` : after any run of calls that returned 1, a power failure loses nothing if and only if the
  ring is not exactly full, because `buf_end = start` is read back as an empty ring (`full_ring_lost`);
* `crash_atomic` : over any number of failures, inside `aofguard_write` and inside recovery, a failure finds the log of
  the completed calls or that log with the whole record in flight.
-/

namespace PmemProgram.Wal
open PmemProgram.Lib PmemProgram.Lib.Ring

/-- After a power failure in `s`, an append-mode `aofguard_init` succeeds and leaves the content `L`, whatever the
failure has left of the file. -/
def Recovers (nvmSize : Nat) (L : List Byte) (s : Sys) : Prop :=
  ∀ f c, s.file.Survives f → c.append = true → c.writable = true →
    ∃ t, (aofguardInit nvmSize false).exec (.boot f s.nvm c) = some (true, t) ∧ t.file.data = L

theorem exec_runs {α : Type} {c : Cmd Syscall Sys α} {s t : Sys} {a : α} (h : c.exec s = some (a, t)) :
    Cmd.Run Ticks (fun _ k => k = 0) c s a t :=
  Cmd.exec_run (R := Ticks) (A := fun _ k => k = 0) (fun _ => Relation.ReflTransGen.refl) (fun _ => rfl) h

section
variable {nvmSize : Nat} {L : List Byte} {s : Sys} {f : File} {nvm : Option NvmFile} {c : Desc}

theorem Image.exec (hn : SizeOk nvmSize) (h : Image (capOf nvmSize) L (.boot f nvm c)) (h48 : L.length < 2 ^ 48)
    (happ : c.append = true) (hw : c.writable = true) :
    ∃ t, (aofguardInit nvmSize false).exec (.boot f nvm c) = some (true, t) ∧ t.file.data = L := by
  have hspec := aofguardInit_recovers hn h h48 happ hw
  obtain ⟨x, fl, st, ln, hx, hh, hl, hs, -⟩ := h
  obtain rfl : nvm = some x := hx
  obtain ⟨hfl, hst, hend, -⟩ := hh.decode hn.blocks hl (hh.fsyncLen_lt h48)
  have haccepts : Accepts (capOf nvmSize) x f.data.length := by
    refine ⟨hh.size, ?_, hend, ?_⟩
    · rw [hst]
      exact hh.start_lt
    · rw [hfl]
      exact hs.trans f.synced_le
  obtain ⟨t, ht, -⟩ := exec_accepts hn hw haccepts
  exact ⟨t, ht, (Cmd.wp_run hspec (exec_runs ht)).2.1.data⟩

theorem Guard.recovers {err : Prop} (hn : SizeOk nvmSize) (h : Guard err True True (capOf nvmSize) L s) (h48 : L.length < 2 ^ 48)
    (hl : s.guard.len ≠ capOf nvmSize) : Recovers nvmSize L s := by
  intro f c hf happ hw
  exact ((h.image hl).survives hf c).exec hn h48 happ hw

theorem File.survives_self (f : File) : f.Survives (.durable f.data) :=
  ⟨f.synced_le, f.le_limit, rfl, rfl, rfl, rfl⟩

/-- A power failure may leave just what is on the disk. -/
theorem File.survives_synced (f : File) : f.Survives (.durable (f.data.take f.synced)) := by
  have hlen : (f.data.take f.synced).length = f.synced := by rw [List.length_take, min_eq_left f.synced_le]
  refine ⟨hlen.ge, hlen.le.trans (f.synced_le.trans f.le_limit), ?_, rfl, rfl, rfl⟩
  change (f.data.take f.synced).take f.synced = _
  rw [List.take_take, min_self]

/-- An exactly full ring is read back as an empty one, whatever is in the file. -/
theorem Guard.full_forgotten {err : Prop} (hn : SizeOk nvmSize) (h : Guard err True True (capOf nvmSize) L s)
    (h48 : L.length < 2 ^ 48) (hl : s.guard.len = capOf nvmSize) (f : File) (happ : c.append = true)
    (hw : c.writable = true) :
    ¬ ∃ t, (aofguardInit nvmSize false).exec (.boot f s.nvm c) = some (true, t) ∧ t.file.data = L := by
  intro hrec
  have hb := hn.blocks
  obtain ⟨fl, st, ln, bc, x, hlive, hx, hh, -⟩ := h
  obtain rfl : ln = capOf nvmSize := hlive.len.symm.trans hl
  have hsplit := hh.split
  have hpos := hb.pos
  have hst : getBufStart x.mixed = st := hh.startWord (hh.fsyncLen_lt h48)
  have hfl : getFsyncLen x.mixed = fl := by rw [hh.fsyncWord, Nat.mod_eq_of_lt (hh.fsyncLen_lt h48)]
  have hring : ringOf (capOf nvmSize) x = [] := by
    rw [ringOf, hst, hh.bufEnd, decodeLen_end hh.start_lt le_rfl, if_pos rfl, cells_zero]
  obtain ⟨t, ht, hdata⟩ := hrec
  rw [hx] at ht
  by_cases hacc : Accepts (capOf nvmSize) x f.data.length
  · obtain ⟨u, hu, hdata'⟩ := exec_accepts (c := c) hn hw hacc
    obtain rfl : t = u := by
      have := ht.symm.trans hu
      simpa using this
    rw [hring, reopened_append happ hacc.fsyncLen, hdata, hfl, List.append_nil] at hdata'
    have hlen := congrArg List.length hdata'
    rw [List.length_take] at hlen
    omega
  · obtain ⟨u, hu⟩ := exec_rejects (c := c) hn hacc
    have := ht.symm.trans hu
    simp at this

theorem Guard.full_lost (hn : SizeOk nvmSize) (h : Inv (capOf nvmSize) L s) (h48 : L.length < 2 ^ 48)
    (hl : s.guard.len = capOf nvmSize) : ¬ Recovers nvmSize L s := by
  intro hrec
  exact h.full_forgotten (c := ⟨true, true, 0⟩) hn h48 hl _ rfl rfl (hrec _ _ s.file.survives_self rfl rfl)

end

/-! ## One process -/

/-- A process that has opened an append-mode guard on the durable content `L₀`, and whose calls with the buffers `ds`
have returned 1. -/
inductive Session (nvmSize : Nat) (L₀ : List Byte) : Sys → List (List Byte) → Prop
  | init {nvm : Option NvmFile} {reset : Bool} {c : Desc} {s : Sys} : nvm = none ∨ reset = true → c.append = true →
      c.writable = true → Cmd.Run Ticks (fun _ k => k = 0) (aofguardInit nvmSize reset) (.boot (.durable L₀) nvm c) true s →
      Session nvmSize L₀ s []
  | write {s t : Sys} {ds : List (List Byte)} {d : List Byte} : Session nvmSize L₀ s ds →
      Cmd.Run Ticks (fun _ k => k = 0) (aofguardWrite d) s true t → Session nvmSize L₀ t (ds ++ [d])
  | tick {s t : Sys} {ds : List (List Byte)} : Session nvmSize L₀ s ds → Tick (fun _ k => k = 0) s t →
      Session nvmSize L₀ t ds

theorem sizeOk_of_run {R : Sys → Sys → Prop} {A : Syscall → Nat → Prop} {nvmSize : Nat} {reset : Bool} {s t : Sys}
    (h : Cmd.Run R A (aofguardInit nvmSize reset) s true t) : SizeOk nvmSize := by
  by_contra hn
  unfold aofguardInit at h
  by_cases h₁ : nvmSize / blockSize < 2
  · rw [if_pos h₁] at h
    cases h
  · rw [if_neg h₁, if_pos (by unfold SizeOk at hn; omega)] at h
    cases h

theorem Session.sizeOk {nvmSize : Nat} {L₀ : List Byte} {s : Sys} {ds : List (List Byte)}
    (h : Session nvmSize L₀ s ds) : SizeOk nvmSize := by
  induction h with
  | init _ _ _ hr => exact sizeOk_of_run hr
  | write _ _ ih => exact ih
  | tick _ _ ih => exact ih

theorem Session.inv {nvmSize : Nat} {L₀ : List Byte} {s : Sys} {ds : List (List Byte)} (h : Session nvmSize L₀ s ds)
    (h48 : (L₀ ++ ds.flatten).length < 2 ^ 48) : Inv (capOf nvmSize) (L₀ ++ ds.flatten) s := by
  have hn := h.sizeOk
  induction h with
  | init hnew happ hw hr =>
    rw [List.flatten_nil, List.append_nil] at *
    exact ((Cmd.wp_run (aofguardInit_fresh hn hnew hw fun _ : True => ⟨fun _ : True => rfl, happ⟩) hr).2 rfl).1
  | @write s t ds d hs hr ih =>
    have hcat : L₀ ++ (ds ++ [d]).flatten = L₀ ++ ds.flatten ++ d := by simp
    rw [hcat] at h48 ⊢
    have hinv := ih (by rw [List.length_append] at h48; omega)
    exact Cmd.wp_run (aofguardWrite_appends hn.blocks hinv h48) hr
  | tick _ ht ih => exact (ih h48).ticks (succeed_zero _) (.single ht)

/-- **Acknowledged bytes.** A power failure between two calls loses nothing exactly when the ring is not full. -/
theorem acknowledged_survive {nvmSize : Nat} {L₀ : List Byte} {s : Sys} {ds : List (List Byte)}
    (h : Session nvmSize L₀ s ds) (h48 : (L₀ ++ ds.flatten).length < 2 ^ 48) :
    Recovers nvmSize (L₀ ++ ds.flatten) s ↔ s.guard.len ≠ s.guard.capacity := by
  rw [(h.inv h48).capacity]
  constructor
  · intro hrec hl
    exact (h.inv h48).full_lost h.sizeOk h48 hl hrec
  · intro hl
    exact (h.inv h48).recovers h.sizeOk h48 hl

/-! ### Calls one after another -/

/-- The guard after `requestAfsync`. -/
def Aofguard.posted (g : Aofguard) : Aofguard :=
  if blockSize ≤ g.len ∧ g.blockCount = 0 then { g with blockCount := g.len / blockSize, semStart := g.semStart + 1 }
  else g

@[simp] theorem Aofguard.posted_len (g : Aofguard) : g.posted.len = g.len := by
  unfold posted
  split_ifs <;> rfl

/-- `t` is `s` after a call that has made the file and the ring longer by `d`. -/
structure Wrote (d : List Byte) (s t : Sys) : Prop where
  file : t.file = (s.write d).file
  desc : t.desc = (s.write d).desc
  guard : t.guard = { s.guard with len := s.guard.len + d.length }.posted

theorem Wrote.len {d : List Byte} {s t : Sys} (h : Wrote d s t) : t.guard.len = s.guard.len + d.length := by
  rw [h.guard, Aofguard.posted_len]

section
variable {nvmSize cap : Nat} {s : Sys} {d : List Byte}

theorem exec_copyToRing (pos cap : Nat) (d : List Byte) (s : Sys) :
    ∃ x, (copyToRing pos cap d).exec s = some ((), { s with nvm := x }) := by
  unfold copyToRing nvmMemcpy
  simp only [Cmd.exec_ite, Cmd.exec_bind, Cmd.exec_pieces, Option.bind_some]
  split_ifs
  · exact ⟨_, rfl⟩
  · exact ⟨_, rfl⟩

theorem exec_requestAfsync (s : Sys) : requestAfsync.exec s = some (true, { s with guard := s.guard.posted }) := by
  unfold requestAfsync Aofguard.posted
  simp only [setGuard, Cmd.exec_ite, Cmd.exec_bind, Cmd.exec_get, Cmd.exec_modify, Cmd.exec_succeeds, Cmd.exec_step,
    Cmd.exec_pure, Option.bind_some, if_true]
  split_ifs <;> rfl

theorem exec_ringBufForward {v a cap : Nat} (hb : Blocks cap) (hv : v < cap) (ha : a ≤ cap) :
    (ringBufForward v a cap).exec s = some ((v + a) % cap, s) := by
  have hsmall := hb.small
  have hlt := Nat.mod_lt (v + a) hb.pos
  unfold ringBufForward
  rw [sadd_eq (show v + a < 2 ^ 64 by omega), ← ring_end hv ha]
  simp [hlt]

/-- A record for which there is room. -/
theorem exec_appendRecord (hb : Blocks cap) (hc : s.guard.capacity = cap) (hs : s.guard.start < cap)
    (hw : s.desc.writable = true) (hroom : s.guard.len + d.length ≤ cap) :
    ∃ t, (appendRecord d).exec s = some (true, t) ∧ Wrote d s t := by
  subst hc
  have hsmall := hb.small
  have hadd : sadd s.guard.len d.length = s.guard.len + d.length := sadd_eq (by omega)
  have hfwd : ∀ (t : Sys) (a : Nat), a ≤ s.guard.capacity →
      (ringBufForward s.guard.start a s.guard.capacity).exec t = some ((s.guard.start + a) % s.guard.capacity, t) :=
    fun t a ha => exec_ringBufForward hb hs ha
  obtain ⟨x, hx⟩ := exec_copyToRing ((s.guard.start + s.guard.len) % s.guard.capacity) s.guard.capacity d (s.write d)
  refine ⟨{ s.write d with
    nvm := x.map fun x => { x with bufEnd := (s.guard.start + (s.guard.len + d.length)) % s.guard.capacity }
    guard := { s.guard with len := s.guard.len + d.length }.posted }, ?_, rfl, rfl, rfl⟩
  simp only [appendRecord, setGuard, nvmSet64, Cmd.exec_ite, Cmd.exec_bind, Cmd.exec_get, Cmd.exec_modify,
    Cmd.exec_step, Cmd.exec_check, Option.bind_some, if_true, hadd, hroom,
    exec_syscallWrite hw (show d.length < 2 ^ 63 by omega), hfwd _ s.guard.len (by omega),
    hfwd _ (s.guard.len + d.length) hroom, hx, exec_requestAfsync]
  rfl

/-- A call that finds room once the thread has been heard. -/
theorem exec_aofguardWrite_heard {u : Sys} (hu : handleAfsyncIfFinish.exec s = some (true, u)) (hb : Blocks cap)
    (hc : u.guard.capacity = cap) (hs : u.guard.start < cap) (hw : u.desc.writable = true)
    (hroom : u.guard.len + d.length ≤ cap) :
    ∃ t, (aofguardWrite d).exec s = some (true, t) ∧ Wrote d u t := by
  have hsmall := hb.small
  have hadd : sadd u.guard.len d.length = u.guard.len + d.length := sadd_eq (by omega)
  obtain ⟨t, ht, hwrote⟩ := exec_appendRecord hb hc hs hw hroom
  refine ⟨t, ?_, hwrote⟩
  simp only [aofguardWrite, makeRoom, Cmd.exec_bind, Cmd.exec_ite, Cmd.exec_get, Cmd.exec_pure, Option.bind_some, hu,
    hadd, hc, if_neg (Nat.not_lt.mpr hroom), if_true, ht]

/-- A record that fits while no request is outstanding. -/
theorem exec_aofguardWrite (hb : Blocks cap) (hc : s.guard.capacity = cap) (hs : s.guard.start < cap)
    (hw : s.desc.writable = true) (h0 : s.guard.blockCount = 0) (hroom : s.guard.len + d.length ≤ cap) :
    ∃ t, (aofguardWrite d).exec s = some (true, t) ∧ Wrote d s t := by
  have hquiet : handleAfsyncIfFinish.exec s = some (true, s) := by
    simp [handleAfsyncIfFinish, h0]
  exact exec_aofguardWrite_heard hquiet hb hc hs hw hroom

/-- The blocks of the outstanding request are credited once they are on the disk. -/
theorem exec_handleAfsyncIfFinish (hb : Blocks cap) (hc : s.guard.capacity = cap) (hs : s.guard.start < cap)
    (hst : blockSize ∣ s.guard.start) (hreq : blockSize * s.guard.blockCount ≤ s.guard.len) (hlen : s.guard.len ≤ cap)
    (hpos : s.guard.blockCount ≠ 0) (hdone : 0 < s.guard.semDone) :
    ∃ t, handleAfsyncIfFinish.exec s = some (true, t) ∧ t.file = s.file ∧ t.desc = s.desc ∧ t.guard =
      { s.guard with
        fsyncLen := sadd s.guard.fsyncLen (blockSize * s.guard.blockCount)
        start := (s.guard.start + blockSize * s.guard.blockCount) % cap
        len := s.guard.len - blockSize * s.guard.blockCount
        blockCount := 0
        semDone := s.guard.semDone - 1 } := by
  have hsmall := hb.small
  have hmod : blockSize * s.guard.blockCount % 2 ^ 64 = blockSize * s.guard.blockCount := Nat.mod_eq_of_lt (by omega)
  have hdvd : (s.guard.start + blockSize * s.guard.blockCount) % cap % blockSize = 0 := by
    apply Nat.mod_eq_zero_of_dvd
    rw [Nat.dvd_mod_iff hb.dvd]
    exact Nat.dvd_add hst (Nat.dvd_mul_right _ _)
  refine ⟨⟨s.file, s.desc, s.nvm.map fun x =>
    { x with
      mixed := makeMixedMeta (sadd s.guard.fsyncLen (blockSize * s.guard.blockCount))
        ((s.guard.start + blockSize * s.guard.blockCount) % cap) }, _⟩, ?_, rfl, rfl, rfl⟩
  simp only [handleAfsyncIfFinish, creditAfsync, updateAfterFsync, setGuard, nvmSet64, Cmd.exec_bind, Cmd.exec_get,
    Cmd.exec_ite, Cmd.exec_succeeds, Cmd.exec_stepGet, Cmd.exec_pure, Cmd.exec_modify, Cmd.exec_step, Cmd.exec_check,
    Option.bind_some, if_neg hpos, if_true, if_pos hdone, hmod, hc, exec_ringBufForward hb hs (hreq.trans hlen),
    hdvd, if_pos hreq]

/-- Nothing is credited as long as the thread is busy. -/
theorem exec_handleAfsyncIfFinish_busy (hdone : s.guard.semDone = 0) :
    handleAfsyncIfFinish.exec s = some (true, s) := by
  simp [handleAfsyncIfFinish, hdone]

/-- The state after the thread has taken a request, synced the file and posted. -/
def Sys.round (s : Sys) : Sys :=
  { s with
    file := s.file.syncAll
    guard := { s.guard with semStart := s.guard.semStart - 1, semDone := s.guard.semDone + 1, thread := .idle } }

theorem tick_round (hth : s.guard.thread = .idle) (hstart : 0 < s.guard.semStart) :
    ∃ s₁ s₂, Tick (fun _ k => k = 0) s s₁ ∧ Tick (fun _ k => k = 0) s₁ s₂ ∧ Tick (fun _ k => k = 0) s₂ s.round :=
  ⟨_, _, .wait (n := 0) rfl hth hstart, .sync (n := 0) rfl rfl, .post (n := 0) rfl rfl⟩

theorem exec_fresh (hn : SizeOk nvmSize) (f : File) (c : Desc) :
    (aofguardInit nvmSize false).exec (.boot f none c) =
      some (true, ⟨f, c, some ⟨128 + capOf nvmSize, f.data.length, 0, fun _ => 0⟩,
        ⟨f.data.length, capOf nvmSize, 0, 0, 0, 0, 0, .idle⟩⟩) := by
  unfold aofguardInit
  rw [if_neg (Nat.not_lt.mpr hn.1), if_neg (Nat.not_lt.mpr hn.2)]
  simp [openNvm, setUp, resetMeta, startThread, setGuard, nvmSet64, Sys.boot, Aofguard.blank, NvmFile.empty, capOf]

end

/-- A ring of two blocks. -/
def twoBlocks : Nat := 2 ^ 21

theorem sizeOk_twoBlocks : SizeOk twoBlocks := by unfold SizeOk; decide

/-- A new log of the content `L`. -/
def freshLog (L : List Byte) : Sys :=
  ⟨.durable L, ⟨true, true, 0⟩, some ⟨128 + capOf twoBlocks, L.length, 0, fun _ => 0⟩,
    ⟨L.length, capOf twoBlocks, 0, 0, 0, 0, 0, .idle⟩⟩

theorem exec_freshLog (L : List Byte) :
    (aofguardInit twoBlocks false).exec (.boot (.durable L) none ⟨true, true, 0⟩) = some (true, freshLog L) :=
  exec_fresh sizeOk_twoBlocks _ _

/-- The first record. -/
theorem exec_record (L : List Byte) {d : List Byte} (hd : d.length ≤ 2 ^ 21) :
    ∃ t, (aofguardWrite d).exec (freshLog L) = some (true, t) ∧ Wrote d (freshLog L) t := by
  refine exec_aofguardWrite sizeOk_twoBlocks.blocks rfl sizeOk_twoBlocks.blocks.pos rfl rfl ?_
  change 0 + d.length ≤ _
  rw [Nat.zero_add]
  exact hd

/-- The guard after a first record of one block, and after a round of the thread. -/
theorem Wrote.block {L d : List Byte} {t : Sys} (h : Wrote d (freshLog L) t) (hd : d.length = blockSize) :
    t.guard = ⟨L.length, capOf twoBlocks, 0, blockSize, 1, 1, 0, .idle⟩ := by
  rw [h.guard, hd]
  simp [freshLog, Aofguard.posted, show blockSize / blockSize = 1 by decide]

theorem Wrote.append {L d : List Byte} {t : Sys} (h : Wrote d (freshLog L) t) :
    t.desc.append = true ∧ t.desc.writable = true ∧ t.file.data = L ++ d := by
  obtain ⟨hdata, -, happ⟩ := Desc.write_append (c := (freshLog L).desc) rfl (freshLog L).file d
  rw [h.desc, h.file]
  exact ⟨happ, Desc.write_writable .., hdata⟩

/-- The block of a first request is credited after a round of the thread. -/
theorem exec_round {t : Sys} {fl : Nat} (hguard : t.guard = ⟨fl, capOf twoBlocks, 0, blockSize, 1, 1, 0, .idle⟩)
    (hfl : fl + blockSize < 2 ^ 64) :
    ∃ u, handleAfsyncIfFinish.exec t.round = some (true, u) ∧ u.file = t.file.syncAll ∧ u.desc = t.desc ∧
      u.guard = ⟨fl + blockSize, capOf twoBlocks, blockSize, 0, 0, 0, 0, .idle⟩ := by
  have hb := sizeOk_twoBlocks.blocks
  have hlt : blockSize < capOf twoBlocks := by decide
  have hround : t.round.guard = ⟨fl, capOf twoBlocks, 0, blockSize, 1, 0, 1, .idle⟩ := by
    simp only [Sys.round, hguard]
  have hexec := exec_handleAfsyncIfFinish (s := t.round) hb
  simp only [hround, Nat.mul_one, Nat.zero_add, Nat.sub_self, sadd_eq hfl, Nat.mod_eq_of_lt hlt] at hexec
  exact hexec trivial hb.pos (dvd_zero _) le_rfl hlt.le one_ne_zero one_pos

/-- One record in a new log. -/
theorem session_record (d : List Byte) (hd : d.length ≤ 2 ^ 21) :
    ∃ s, Session twoBlocks [] s [d] ∧ s.guard.len = d.length := by
  have hopen : Session twoBlocks [] (freshLog []) [] := .init (Or.inl rfl) rfl rfl (exec_runs (exec_freshLog []))
  obtain ⟨t, ht, hwrote⟩ := exec_record [] hd
  exact ⟨t, hopen.write (exec_runs ht), hwrote.len.trans (Nat.zero_add _)⟩

theorem acknowledged_survive_record :
    ∃ s, Session twoBlocks [] s [[7]] ∧ s.guard.len = 1 ∧ Recovers twoBlocks [7] s := by
  obtain ⟨s, hs, hl⟩ := session_record [7] (by decide)
  have hcap := (hs.inv (by decide)).capacity
  refine ⟨s, hs, hl, (acknowledged_survive hs (by decide)).mpr ?_⟩
  rw [hl, hcap]
  decide

/-- A record of two blocks fills the ring and is lost. -/
theorem full_ring_lost : ¬ ∀ s ds, Session twoBlocks [] s ds → ([] ++ ds.flatten).length < 2 ^ 48 →
    Recovers twoBlocks ([] ++ ds.flatten) s := by
  intro hall
  have hd : (List.replicate (2 ^ 21) (0 : Byte)).length = 2 ^ 21 := List.length_replicate
  obtain ⟨s, hs, hl⟩ := session_record _ hd.le
  generalize List.replicate (2 ^ 21) (0 : Byte) = d at *
  have h48 : ([] ++ [d].flatten).length < 2 ^ 48 := by
    simp only [List.nil_append, List.flatten_singleton, hd]
    omega
  exact (hs.inv h48).full_lost sizeOk_twoBlocks h48 (hl.trans hd) (hall s [d] hs h48)

/-! ## Failure after failure -/

/-- The guard runs on a log, or the machine is down and the log is one of a set. -/
inductive Mode
  | running (L : List Byte)
  | down (S : Set (List Byte))

/-- Runs of a guard with power failures. No call leaves the ring exactly full, and logs stay below `2 ^ 48` bytes. -/
inductive Cycles (nvmSize : Nat) (L₀ : List Byte) : Sys → Mode → Prop
  | init {nvm : Option NvmFile} {reset : Bool} {c : Desc} {s : Sys} : nvm = none ∨ reset = true → c.append = true →
      c.writable = true → L₀.length < 2 ^ 48 →
      Cmd.Run Ticks (fun _ k => k = 0) (aofguardInit nvmSize reset) (.boot (.durable L₀) nvm c) true s →
      Cycles nvmSize L₀ s (.running L₀)
  | tick {s t : Sys} {L : List Byte} : Cycles nvmSize L₀ s (.running L) → Tick (fun _ k => k = 0) s t →
      Cycles nvmSize L₀ t (.running L)
  | write {s t : Sys} {L d : List Byte} {ok : Bool} : Cycles nvmSize L₀ s (.running L) → (L ++ d).length < 2 ^ 48 →
      Cmd.Run Ticks (fun _ k => k = 0) (aofguardWrite d) s ok t → t.guard.len ≠ capOf nvmSize →
      Cycles nvmSize L₀ t (.running (if ok = true then L ++ d else L))
  | crash {s : Sys} {L : List Byte} {f : File} {c : Desc} : Cycles nvmSize L₀ s (.running L) → s.file.Survives f →
      c.append = true → c.writable = true → Cycles nvmSize L₀ (.boot f s.nvm c) (.down {L})
  | crashWrite {s t : Sys} {L d : List Byte} {f : File} {c : Desc} : Cycles nvmSize L₀ s (.running L) →
      (L ++ d).length < 2 ^ 48 → Cmd.Crash Ticks (fun _ k => k = 0) (aofguardWrite d) s t →
      t.guard.len ≠ capOf nvmSize → t.file.Survives f → c.append = true → c.writable = true →
      Cycles nvmSize L₀ (.boot f t.nvm c) (.down {L, L ++ d})
  | crashRecovery {s t : Sys} {S : Set (List Byte)} {f : File} {c : Desc} : Cycles nvmSize L₀ s (.down S) →
      Cmd.Crash Ticks (fun _ k => k = 0) (aofguardInit nvmSize false) s t → t.file.Survives f → c.append = true →
      c.writable = true → Cycles nvmSize L₀ (.boot f t.nvm c) (.down S)
  | recovery {s t : Sys} {S : Set (List Byte)} : Cycles nvmSize L₀ s (.down S) →
      Cmd.Run Ticks (fun _ k => k = 0) (aofguardInit nvmSize false) s true t →
      Cycles nvmSize L₀ t (.running t.file.data)

/-- What each mode keeps. -/
def Mode.Ok (cap : Nat) (s : Sys) : Mode → Prop
  | running L => Inv cap L s ∧ s.guard.len < cap ∧ L.length < 2 ^ 48
  | down S => ∃ L ∈ S, Image cap L s ∧ L.length < 2 ^ 48 ∧ s = .boot s.file s.nvm s.desc ∧ s.desc.append = true ∧
      s.desc.writable = true

theorem Cycles.sizeOk {nvmSize : Nat} {L₀ : List Byte} {s : Sys} {m : Mode} (h : Cycles nvmSize L₀ s m) :
    SizeOk nvmSize := by
  induction h with
  | init _ _ _ _ hr => exact sizeOk_of_run hr
  | tick _ _ ih => exact ih
  | write _ _ _ _ ih => exact ih
  | crash _ _ _ _ ih => exact ih
  | crashWrite _ _ _ _ _ _ _ ih => exact ih
  | crashRecovery _ _ _ _ _ ih => exact ih
  | recovery _ _ ih => exact ih

theorem Cycles.ok {nvmSize : Nat} {L₀ : List Byte} {s : Sys} {m : Mode} (h : Cycles nvmSize L₀ s m) :
    m.Ok (capOf nvmSize) s := by
  have hn := h.sizeOk
  induction h with
  | init hnew happ hw h48 hr =>
    obtain ⟨hinv, hlen⟩ :=
      (Cmd.wp_run (aofguardInit_fresh hn hnew hw fun _ : True => ⟨fun _ : True => rfl, happ⟩) hr).2 rfl
    exact ⟨hinv, hlen ▸ hn.blocks.pos, h48⟩
  | tick _ ht ih =>
    obtain ⟨hinv, hlen, h48⟩ := ih
    exact ⟨hinv.ticks (succeed_zero _) (.single ht), (tick_keeps ht).2.2.2 ▸ hlen, h48⟩
  | write _ h48 hr hne ih =>
    have hinv := Cmd.wp_run (aofguardWrite_appends hn.blocks ih.1 h48) hr
    refine ⟨hinv, lt_of_le_of_ne hinv.len_le hne, ?_⟩
    rw [List.length_append] at h48
    split_ifs
    · rwa [List.length_append]
    · omega
  | crash _ hf happ hw ih =>
    obtain ⟨hinv, hlen, h48⟩ := ih
    exact ⟨_, rfl, (hinv.image hlen.ne).survives hf _, h48, rfl, happ, hw⟩
  | crashWrite _ h48 hc hne hf happ hw ih =>
    obtain ⟨hinv, hlen, h48'⟩ := ih
    rcases Cmd.wp_crash (aofguardWrite_appends hn.blocks hinv h48) hc with hi | ⟨hle, hi⟩
    · exact ⟨_, Or.inl rfl, (hi.image hlen).survives hf _, h48', rfl, happ, hw⟩
    · exact ⟨_, Or.inr rfl, (hi.image (lt_of_le_of_ne hle hne)).survives hf _, h48, rfl, happ, hw⟩
  | crashRecovery _ hc hf happ hw ih =>
    obtain ⟨L, hL, hi, h48, hboot, happ', hw'⟩ := ih
    rw [hboot] at hi hc
    have himage := Cmd.wp_crash (aofguardInit_recovers hn hi h48 happ' hw') hc
    exact ⟨L, hL, himage.survives hf _, h48, rfl, happ, hw⟩
  | recovery _ hr ih =>
    obtain ⟨L, hL, hi, h48, hboot, happ', hw'⟩ := ih
    rw [hboot] at hi hr
    obtain ⟨-, hinv, hlen⟩ := Cmd.wp_run (aofguardInit_recovers hn hi h48 happ' hw') hr
    rw [hinv.data]
    exact ⟨hinv, hlen, h48⟩

/-- **Crash atomicity.** Whatever failures hit the guard and where, recovery succeeds and finds the log of the
completed calls, or that log and the whole record in flight. -/
theorem crash_atomic {nvmSize : Nat} {L₀ : List Byte} {s : Sys} {S : Set (List Byte)}
    (h : Cycles nvmSize L₀ s (.down S)) :
    ∃ t, (aofguardInit nvmSize false).exec s = some (true, t) ∧ t.file.data ∈ S := by
  obtain ⟨L, hL, hi, h48, hboot, happ, hw⟩ := h.ok
  rw [hboot] at hi ⊢
  obtain ⟨t, ht, hd⟩ := hi.exec h.sizeOk h48 happ hw
  exact ⟨t, ht, hd ▸ hL⟩

/-- A call reaches every point of `appendRecord` if its record fits while no request is outstanding. -/
theorem crash_of_appendRecord {A : Syscall → Nat → Prop} {cap : Nat} {s t : Sys} {d : List Byte} (hA : ∀ q, A q 0)
    (hb : Blocks cap) (hc : s.guard.capacity = cap) (h0 : s.guard.blockCount = 0) (hfits : s.guard.len + d.length ≤ cap)
    (h : Cmd.Crash Ticks A (appendRecord d) s t) : Cmd.Crash Ticks A (aofguardWrite d) s t := by
  have hsmall := hb.small
  have hadd : sadd s.guard.len d.length = s.guard.len + d.length := sadd_eq (by omega)
  have hquiet : handleAfsyncIfFinish.exec s = some (true, s) := by
    simp [handleAfsyncIfFinish, h0]
  have hmake : (makeRoom d.length).exec s = some (true, s) := by
    simp only [makeRoom, Cmd.exec_bind, Cmd.exec_get, Cmd.exec_ite, Cmd.exec_pure, Option.bind_some, hadd, hc,
      if_neg (Nat.not_lt.mpr hfits)]
  exact .bind_right (Cmd.exec_run (fun _ => .refl) hA hquiet) (.bind_right (Cmd.exec_run (fun _ => .refl) hA hmake) h)

/-- A power failure in the middle of the copy into the ring. -/
theorem crash_inside_copy {cap : Nat} {s : Sys} {d : List Byte} (hb : Blocks cap) (hc : s.guard.capacity = cap)
    (hs : s.guard.start < cap) (hw : s.desc.writable = true) (h0 : s.guard.blockCount = 0)
    (hroom : (s.guard.start + s.guard.len) % cap + d.length ≤ cap) (hfits : s.guard.len + d.length ≤ cap)
    (m : Nat → Bool) :
    Cmd.Crash Ticks (fun _ k => k = 0) (aofguardWrite d) s { s.write d with
      nvm := s.nvm.map fun x => { x with data := put x.data ((s.guard.start + s.guard.len) % cap) d m } } := by
  subst hc
  have hsmall := hb.small
  have hadd : sadd s.guard.len d.length = s.guard.len + d.length := sadd_eq (by omega)
  refine crash_of_appendRecord (fun _ => rfl) hb rfl h0 hfits (.bind_right (Cmd.run_get _ s) ?_)
  refine .bind_right (Cmd.run_check (hadd ▸ hfits) s) (.bind_right (exec_runs (exec_syscallWrite hw (by omega))) ?_)
  rw [if_pos rfl]
  refine .bind_right (exec_runs (exec_ringBufForward hb hs (by omega))) (.bind_left _ ?_)
  rw [copyToRing, sadd_eq (by omega), if_pos hroom]
  exact .torn m .refl

/-- One record, and a failure that tears the next one and leaves nothing in the file. -/
theorem crash_atomic_record : ∃ s t, Cycles twoBlocks [] s (.down {[7], [7] ++ [8, 9]}) ∧ s.file.data = [] ∧
    (aofguardInit twoBlocks false).exec s = some (true, t) ∧ t.file.data ∈ ({[7], [7] ++ [8, 9]} : Set (List Byte)) := by
  have hb := sizeOk_twoBlocks.blocks
  have hopen : Cycles twoBlocks [] (freshLog []) (.running []) :=
    .init (Or.inl rfl) rfl rfl (by decide) (exec_runs (exec_freshLog []))
  obtain ⟨t, ht, hwrote⟩ := exec_record [] (d := [7]) (by decide)
  have hguard : t.guard = { (freshLog []).guard with len := 1 } := hwrote.guard
  have hlen : t.guard.len = 1 := by rw [hguard]
  have hrecord := hopen.write (by decide) (exec_runs ht) (by rw [hlen]; decide)
  have hcrash := crash_inside_copy (s := t) (d := [8, 9]) hb (by rw [hguard]; rfl) (by rw [hguard]; exact hb.pos)
    (by rw [hwrote.desc]; rfl) (by rw [hguard]; rfl) (by rw [hguard]; decide) (by rw [hguard]; decide) fun i => i == 0
  have hdown := hrecord.crashWrite (c := ⟨true, true, 0⟩) (by decide) hcrash (by rw [Sys.write, hlen]; decide)
    (File.survives_synced _) rfl rfl
  obtain ⟨u, hu, hmem⟩ := crash_atomic hdown
  refine ⟨_, u, hdown, ?_, hu, hmem⟩
  -- nothing has been synced
  have hfile : (t.write [8, 9]).file.synced = t.file.synced :=
    (Desc.write_append (by rw [hwrote.desc]; rfl) t.file [8, 9]).2.1
  have hzero : t.file.synced = 0 := by rw [hwrote.file]; rfl
  change (t.write [8, 9]).file.data.take (t.write [8, 9]).file.synced = []
  rw [hfile, hzero, List.take_zero]

end PmemProgram.Wal
