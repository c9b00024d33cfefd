import PmemProgram.Wal.Reopen

/-!
# Opening with truncation (`inject.c`, `open`; `aofguard.c`, `aofguard_init`)

The kernel truncates the file and `open` makes its guard as for any other file, so the recovery branch meets an empty file
with the NVM file of the old log.

* `opensEmpty_iff` : the open succeeds and leaves an empty file exactly if the NVM file says neither synced bytes nor a ring;
* `truncated_iff` : only then is it a new log, whose writes survive a failure and a close unless the ring is exactly full.
-/

namespace PmemProgram.Wal
open PmemProgram.Lib PmemProgram.Lib.Ring

/-! ## The open -/

/-- `aofguard_init` succeeds and leaves the file empty. -/
def OpensEmpty (nvmSize : Nat) (s : Sys) : Prop :=
  (∃ t, (aofguardInit nvmSize false).exec s = some (true, t)) ∧
    ∀ ok t, Cmd.Run Ticks (fun _ k => k = 0) (aofguardInit nvmSize false) s ok t → ok = true ∧ t.file.data = []

/-- The NVM file says that nothing is synced, and its words are those of an empty ring. -/
def Sys.Clear (cap : Nat) (s : Sys) : Prop :=
  getFsyncLen s.mapped.mixed = 0 ∧ decodeLen cap (getBufStart s.mapped.mixed) s.mapped.bufEnd = 0

/-- The logs since the truncation: the open has succeeded, and the writes of `ds` have returned 1. -/
inductive Since (nvmSize : Nat) (s : Sys) : Sys → List (List Byte) → Prop
  | opened {t : Sys} : Cmd.Run Ticks (fun _ k => k = 0) (aofguardInit nvmSize false) s true t → Since nvmSize s t []
  | write {t u : Sys} {ds : List (List Byte)} {d : List Byte} : Since nvmSize s t ds →
      Cmd.Run Ticks (fun _ k => k = 0) (aofguardWrite d) t true u → Since nvmSize s u (ds ++ [d])
  | tick {t u : Sys} {ds : List (List Byte)} : Since nvmSize s t ds → Tick (fun _ k => k = 0) t u →
      Since nvmSize s u ds

/-- After a close an append-mode open brings back the content `L`. -/
def Closes (nvmSize : Nat) (L : List Byte) (s : Sys) : Prop :=
  ∀ t c, Cmd.Run Ticks (fun _ k => k = 0) aofguardDeinit s true t → c.append = true → c.writable = true →
    ∃ u, (aofguardInit nvmSize false).exec (.boot t.file t.nvm c) = some (true, u) ∧ u.file.data = L

section
variable {nvmSize : Nat} {s t : Sys} {c : Desc} {L : List Byte} {ds : List (List Byte)}

/-- The words of the NVM file of a guarded file, with a ring that is not exactly full. -/
theorem Guarded.words (h : Guarded nvmSize s false) :
    ∃ x fl st ln L, s.nvm = some x ∧ Holds (capOf nvmSize) x fl st ln L ∧ ln < capOf nvmSize ∧ fl < 2 ^ 48 ∧
      (s.Clear (capOf nvmSize) ↔ fl = 0 ∧ ln = 0) := by
  have hb := h.sizeOk.blocks
  obtain ⟨L, hreads, h48, -⟩ := h.inv
  obtain ⟨x, fl, st, ln, L', hx, hh, hl, hle⟩ := hreads.notFull hb
  have hfl := hh.fsyncLen_lt (hle.trans_lt h48)
  obtain ⟨hlen, hstart, -, hdecode⟩ := hh.decode hb hl hfl
  refine ⟨x, fl, st, ln, L', hx, hh, hl, hfl, ?_⟩
  rw [Sys.Clear, mapped_of_nvm hx, hlen, hstart, hdecode]

theorem truncate_zero (f : File) : (f.truncate 0).data = [] := by
  simp [File.truncate]

/-- With nothing synced and no ring the open starts a guard of the empty log. -/
theorem truncated_init (h : Guarded nvmSize s false) (hclear : s.Clear (capOf nvmSize)) (happ : c.append = true)
    (hw : c.writable = true) :
    Cmd.wp Ticks (fun _ k => k = 0) (fun _ => True) (aofguardInit nvmSize false)
      (fun ok t => ok = true ∧ Inv (capOf nvmSize) [] t) (s.truncated c) := by
  obtain ⟨x, fl, st, ln, L, hx, hh, hl, h48, hiff⟩ := h.words
  obtain ⟨rfl, rfl⟩ := hiff.mp hclear
  have hL : L = [] := by
    have := hh.split
    exact List.eq_nil_of_length_eq_zero (by omega)
  subst hL
  rw [Sys.truncated, hx]
  refine Cmd.wp_mono (fun _ _ => trivial) ?_ (aofguardInit_reopens silent_ticks h.sizeOk hh hl h48 hw
    fun _ : True => ⟨Nat.zero_le _, fun _ : True => Nat.zero_le _, rfl, happ⟩)
  intro ok t ht
  exact ⟨ht.1 trivial, (ht.2 (ht.1 trivial)).1⟩

/-- **The open.** It succeeds with an empty file exactly if the NVM file says nothing. -/
theorem opensEmpty_iff (h : Guarded nvmSize s false) (happ : c.append = true) (hw : c.writable = true) :
    OpensEmpty nvmSize (s.truncated c) ↔ s.Clear (capOf nvmSize) := by
  have hn := h.sizeOk
  obtain ⟨x, fl, st, ln, L, hx, hh, hl, h48, hiff⟩ := h.words
  obtain ⟨hlen, hstart, hend, hdecode⟩ := hh.decode hn.blocks hl h48
  have hempty := truncate_zero s.file
  by_cases hfl : fl = 0
  · have hacc : Accepts (capOf nvmSize) x (s.file.truncate 0).data.length :=
      ⟨hh.size, hstart ▸ hh.start_lt, hend, by rw [hlen, hfl]; exact Nat.zero_le _⟩
    obtain ⟨t, ht, hdata⟩ := exec_accepts (c := c) hn hw hacc
    rw [reopened_append happ hacc.fsyncLen, hempty, List.take_nil, List.nil_append, ringOf, hstart, hdecode] at hdata
    rw [← hx] at ht
    constructor
    · intro hopens
      have hnil := (hopens.2 true t (exec_runs ht)).2
      rw [hdata] at hnil
      have hzero := congrArg List.length hnil
      rw [length_cells] at hzero
      exact hiff.mpr ⟨hfl, hzero⟩
    · intro hclear
      refine ⟨⟨t, ht⟩, fun ok u hr => ?_⟩
      obtain ⟨hok, hinv⟩ := Cmd.wp_run (truncated_init h hclear happ hw) hr
      exact ⟨hok, hinv.data⟩
  · -- the stored length is larger than the file
    have hrej : ¬ Accepts (capOf nvmSize) x (s.file.truncate 0).data.length := by
      intro hacc
      have hle := hacc.fsyncLen
      rw [hlen, hempty, List.length_nil] at hle
      omega
    obtain ⟨t, ht⟩ := exec_rejects (c := c) hn hrej
    rw [← hx] at ht
    refine iff_of_false (fun hopens => ?_) (fun hclear => hfl (hiff.mp hclear).1)
    exact absurd (hopens.2 false t (exec_runs ht)).1 Bool.false_ne_true

/-- The writes since the truncation are the log. -/
theorem Since.inv (hs : Since nvmSize (s.truncated c) t ds) (h : Guarded nvmSize s false)
    (hclear : s.Clear (capOf nvmSize)) (happ : c.append = true) (hw : c.writable = true)
    (h48 : ds.flatten.length < 2 ^ 48) : Inv (capOf nvmSize) ds.flatten t := by
  induction hs with
  | opened hr => exact (Cmd.wp_run (truncated_init h hclear happ hw) hr).2
  | @write t u ds d _ hr ih =>
    have hcat : (ds ++ [d]).flatten = ds.flatten ++ d := by simp
    rw [hcat] at h48 ⊢
    have hinv := ih (by rw [List.length_append] at h48; omega)
    exact Cmd.wp_run (aofguardWrite_appends h.sizeOk.blocks hinv h48) hr
  | tick _ ht ih => exact (ih h48).ticks (succeed_zero _) (.single ht)

/-- A close loses nothing of a ring that is not exactly full. -/
theorem closes_of_notFull (hn : SizeOk nvmSize) (h : Inv (capOf nvmSize) L s) (h48 : L.length < 2 ^ 48)
    (hl : s.guard.len ≠ capOf nvmSize) : Closes nvmSize L s := by
  intro t c hr happ hw
  obtain ⟨hnvm, hdata, hsynced⟩ := aofguardDeinit_keeps hr
  obtain ⟨x, fl, st, ln, hx, hh, hlt, hfl, htake⟩ := h.image hl
  refine Image.exec hn ⟨x, fl, st, ln, hnvm.trans hx, hh, hlt, hfl.trans hsynced, ?_⟩ h48 happ hw
  show t.file.data.take fl = L.take fl
  rw [hdata, htake]

end

/-- **Truncation.** An open with `O_TRUNC` of a guarded file starts an empty log exactly if the NVM file says nothing, and
then the bytes written since are what a power failure and a close leave, exactly if the ring is not exactly full. -/
theorem truncated_iff {nvmSize : Nat} {s : Sys} {c : Desc} (h : Guarded nvmSize s false) (happ : c.append = true)
    (hw : c.writable = true) :
    (OpensEmpty nvmSize (s.truncated c) ↔ s.Clear (capOf nvmSize)) ∧
      (s.Clear (capOf nvmSize) → ∀ t ds, Since nvmSize (s.truncated c) t ds → ds.flatten.length < 2 ^ 48 →
        (Recovers nvmSize ds.flatten t ∧ Closes nvmSize ds.flatten t ↔ t.guard.len ≠ t.guard.capacity)) := by
  refine ⟨opensEmpty_iff h happ hw, fun hclear t ds hs h48 => ?_⟩
  have hinv := hs.inv h hclear happ hw h48
  rw [hinv.capacity]
  constructor
  · intro hback hl
    exact hinv.full_lost h.sizeOk h48 hl hback.1
  · intro hl
    exact ⟨hinv.recovers h.sizeOk h48 hl, closes_of_notFull h.sizeOk hinv h48 hl⟩

/-- A file with a new guard, after a power failure. -/
theorem guarded_fresh (f : File) (h48 : f.data.length < 2 ^ 48) (c : Desc) (hw : c.writable = true) :
    Guarded twoBlocks (.boot (.durable f.data) (some ⟨128 + capOf twoBlocks, f.data.length, 0, fun _ => 0⟩) c) false :=
  .crash (.create (Or.inl rfl) h48 hw (exec_runs (exec_fresh sizeOk_twoBlocks f c))) f.survives_self hw

/-- The words of a new guard say nothing if its file was empty. -/
theorem clear_fresh (n : Nat) (hn : n < 2 ^ 48) (f : File) (c : Desc) :
    (Sys.boot f (some ⟨128 + capOf twoBlocks, n, 0, fun _ => 0⟩) c).Clear (capOf twoBlocks) ↔ n = 0 := by
  show getFsyncLen n = 0 ∧ decodeLen _ (getBufStart n) 0 = 0 ↔ n = 0
  rw [getFsyncLen_eq, Nat.mod_eq_of_lt hn, getBufStart_small hn]
  exact ⟨fun h => h.1, fun h => ⟨h, rfl⟩⟩

theorem truncated_iff_empty : ∃ s, Guarded twoBlocks s false ∧ OpensEmpty twoBlocks (s.truncated ⟨true, true, 0⟩) :=
  ⟨_, guarded_fresh (.durable []) (by decide) ⟨true, true, 0⟩ rfl,
    (truncated_iff (guarded_fresh (.durable []) (by decide) ⟨true, true, 0⟩ rfl) rfl rfl).1.mpr
      ((clear_fresh 0 (by decide) _ _).mpr rfl)⟩

/-- A file of one synced byte does not open. -/
theorem truncated_refused : ¬ ∀ s c, Guarded twoBlocks s false → c.append = true → c.writable = true →
    OpensEmpty twoBlocks (s.truncated c) ∧
      ∀ t ds, Since twoBlocks (s.truncated c) t ds → ds.flatten.length < 2 ^ 48 →
        Recovers twoBlocks ds.flatten t ∧ Closes twoBlocks ds.flatten t := by
  intro hall
  have hguarded := guarded_fresh (.durable [1]) (by decide) ⟨true, true, 0⟩ rfl
  have hopens := (hall _ ⟨true, true, 0⟩ hguarded rfl rfl).1
  have hclear := (opensEmpty_iff hguarded rfl rfl).mp hopens
  exact absurd ((clear_fresh 1 (by decide) _ _).mp hclear) (by decide)

end PmemProgram.Wal
