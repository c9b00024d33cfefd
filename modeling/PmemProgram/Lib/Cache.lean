import Mathlib

/-!
# Private caches over one memory

Hosts share a memory of lines of `w` bytes, each through a cache that no other host looks at. A program loads, stores and
flushes; beside it the hardware fetches lines, writes them back and drops them as it likes (`Tick`).

* `Shared` : the memory and the caches; `Shared.load`, `Shared.store`, `Shared.flush`;
* `Quiet`, `QuietBut` : no host, or no other host, has stored to its copy of a line; the hardware keeps both, and the
  memory of a quiet line;
* `Sees` : what a host reads at an address whatever the hardware does, as long as no other host stores to the line;
* `ticks_flush` : a flush is something that the hardware could do; `Sees.flushed`, `sees_flushed` : what is special about
  it is that the line is in memory, or read from there, afterwards.
-/

namespace PmemProgram.Lib.Cache

/-- A copy of a line: whether it has been stored to, and the bytes by their addresses. -/
structure Copy (α : Type) where
  dirty : Bool
  data : Nat → α

/-- The memory, and the copies of each host by their lines. -/
structure Shared (η α : Type) where
  mem : Nat → α
  cache : η → Nat → Option (Copy α)

section
variable {η α : Type} [DecidableEq η] (w : Nat)

namespace Shared

def put (s : Shared η α) (h : η) (l : Nat) (o : Option (Copy α)) : Shared η α :=
  { s with cache := Function.update s.cache h (Function.update (s.cache h) l o) }

/-- The copy that a host works on: the one it has, or one that it fetches. -/
def fetch (s : Shared η α) (h : η) (l : Nat) : Copy α := (s.cache h l).getD ⟨false, s.mem⟩

/-- The memory with the line of a copy in it. -/
def written (s : Shared η α) (l : Nat) (c : Copy α) : Nat → α := fun a => if a / w = l then c.data a else s.mem a

def load (s : Shared η α) (h : η) (a : Nat) : α := (s.fetch h (a / w)).data a

def store (s : Shared η α) (h : η) (a : Nat) (v : α) : Shared η α :=
  s.put h (a / w) (some ⟨true, Function.update (s.fetch h (a / w)).data a v⟩)

/-- A copy that has been stored to goes back to memory; the host is left without a copy. -/
def flush (s : Shared η α) (h : η) (l : Nat) : Shared η α :=
  { s.put h l none with mem := if (s.fetch h l).dirty then s.written w l (s.fetch h l) else s.mem }

end Shared

/-- A step of the hardware: a line is fetched, written back, or dropped. -/
inductive Tick : Shared η α → Shared η α → Prop
  | fill {s h l} : s.cache h l = none → Tick s (s.put h l (some ⟨false, s.mem⟩))
  | clean {s h l c} : s.cache h l = some c → c.dirty = true →
      Tick s { s.put h l (some { c with dirty := false }) with mem := s.written w l c }
  | drop {s h l c} : s.cache h l = some c → c.dirty = false → Tick s (s.put h l none)

/-- No host has stored to its copy of the line. -/
def Quiet (l : Nat) (s : Shared η α) : Prop := ∀ h c, s.cache h l = some c → c.dirty = false

/-- No host but `h` has. -/
def QuietBut (h : η) (l : Nat) (s : Shared η α) : Prop := ∀ h', h' ≠ h → ∀ c, s.cache h' l = some c → c.dirty = false

/-- Host `h` reads `v` at `a`, from its copy or after dropping it. -/
structure Sees (h : η) (a : Nat) (v : α) (s : Shared η α) : Prop where
  copy : ∀ c, s.cache h (a / w) = some c → c.data a = v
  mem : (∀ c, s.cache h (a / w) = some c → c.dirty = false) → s.mem a = v

end

section
variable {η α : Type} [DecidableEq η] {w : Nat} {s t : Shared η α} {h h' : η} {l l' a a' : Nat} {v v' : α}
  {o : Option (Copy α)}

theorem put_self : (s.put h l o).cache h l = o := by
  simp [Shared.put]

theorem put_of_ne (hne : h' ≠ h ∨ l' ≠ l) : (s.put h l o).cache h' l' = s.cache h' l' := by
  by_cases hh : h' = h
  · subst hh
    have hl : l' ≠ l := hne.resolve_left fun hn => hn rfl
    simp [Shared.put, hl]
  · simp [Shared.put, hh]

omit [DecidableEq η] in
theorem fetch_eq {c : Copy α} (hc : s.cache h l = some c) : s.fetch h l = c := by
  rw [Shared.fetch, hc, Option.getD_some]

omit [DecidableEq η] in
theorem fetch_none (hc : s.cache h l = none) : s.fetch h l = ⟨false, s.mem⟩ := by
  rw [Shared.fetch, hc, Option.getD_none]

omit [DecidableEq η] in
theorem Quiet.but (hq : Quiet l s) (h : η) : QuietBut h l s := fun h' _ => hq h'

/-- A copy in another place, or the one put there. -/
theorem put_cache {c : Copy α} (hc : (s.put h' l' o).cache h l = some c) : s.cache h l = some c ∨ o = some c := by
  by_cases hne : h ≠ h' ∨ l ≠ l'
  · rw [put_of_ne hne] at hc
    exact Or.inl hc
  · push Not at hne
    obtain ⟨rfl, rfl⟩ := hne
    rw [put_self] at hc
    exact Or.inr hc

/-! ## The hardware -/

/-- The hardware stores to no copy. -/
theorem Tick.dirty {c : Copy α} (ht : Tick w s t) (hc : t.cache h l = some c) (hd : c.dirty = true) :
    s.cache h l = some c := by
  cases ht with
  | fill hnone =>
    rcases put_cache hc with hs | ho
    · exact hs
    · cases ho
      cases hd
  | @clean h' l' c' hc' hd' =>
    have hc : (s.put h' l' (some { c' with dirty := false })).cache h l = some c := hc
    rcases put_cache hc with hs | ho
    · exact hs
    · cases ho
      cases hd
  | drop hc' hd' =>
    rcases put_cache hc with hs | ho
    · exact hs
    · cases ho

theorem Quiet.tick (hq : Quiet l s) (ht : Tick w s t) : Quiet l t := by
  intro h c hc
  by_contra hd
  rw [Bool.not_eq_false] at hd
  exact absurd (hq h c (ht.dirty hc hd)) (by simp [hd])

theorem QuietBut.tick (hq : QuietBut h l s) (ht : Tick w s t) : QuietBut h l t := by
  intro h' hne c hc
  by_contra hd
  rw [Bool.not_eq_false] at hd
  exact absurd (hq h' hne c (ht.dirty hc hd)) (by simp [hd])

/-- The memory of a quiet line stays as it is. -/
theorem Quiet.mem_tick (hq : Quiet (a / w) s) (ht : Tick w s t) : t.mem a = s.mem a := by
  cases ht with
  | fill hnone => rfl
  | @clean h l c hc hd =>
    have hl : a / w ≠ l := by
      rintro rfl
      exact absurd (hq h c hc) (by simp [hd])
    exact if_neg hl
  | drop hc hd => rfl

/-- What a host reads stays as it is, unless another host has stored to the line. -/
theorem Sees.tick (hs : Sees w h a v s) (hq : QuietBut h (a / w) s) (ht : Tick w s t) : Sees w h a v t := by
  cases ht with
  | @fill h' l' hnone =>
    refine ⟨fun c hc => ?_, fun hclean => hs.mem fun c hc => ?_⟩
    · by_cases hne : h ≠ h' ∨ a / w ≠ l'
      · rw [put_of_ne hne] at hc
        exact hs.copy c hc
      · push Not at hne
        obtain ⟨rfl, rfl⟩ := hne
        rw [put_self] at hc
        cases hc
        exact hs.mem fun c hc => absurd hc (by simp [hnone])
    · by_cases hne : h ≠ h' ∨ a / w ≠ l'
      · exact hclean c (by rw [put_of_ne hne]; exact hc)
      · push Not at hne
        obtain ⟨rfl, rfl⟩ := hne
        exact absurd hc (by simp [hnone])
  | @clean h' l' c' hc' hd' =>
    by_cases hne : h ≠ h' ∨ a / w ≠ l'
    · -- the line of another host is not this one
      have hl : a / w ≠ l' := by
        rintro rfl
        have hh : h' ≠ h := fun he => hne.elim (fun hn => hn he.symm) fun hn => hn rfl
        exact absurd (hq h' hh c' hc') (by simp [hd'])
      have hcache : ∀ o, (s.put h' l' o).cache h (a / w) = s.cache h (a / w) := fun o => put_of_ne hne
      refine ⟨fun c hc => hs.copy c ?_, fun hclean => ?_⟩
      · rw [← hcache]
        exact hc
      · have hmem : s.written w l' c' a = s.mem a := if_neg hl
        exact hmem.trans (hs.mem fun c hc => hclean c (by rw [← hc]; exact hcache _))
    · push Not at hne
      obtain ⟨rfl, rfl⟩ := hne
      have hv := hs.copy c' hc'
      refine ⟨fun c hc => ?_, fun _ => (if_pos rfl).trans hv⟩
      have hc : (s.put h (a / w) (some { c' with dirty := false })).cache h (a / w) = some c := hc
      rw [put_self] at hc
      cases hc
      exact hv
  | @drop h' l' c' hc' hd' =>
    refine ⟨fun c hc => ?_, fun hclean => hs.mem fun c hc => ?_⟩
    · rcases put_cache hc with hc | ho
      · exact hs.copy c hc
      · cases ho
    · by_cases hne : h ≠ h' ∨ a / w ≠ l'
      · exact hclean c (by rw [put_of_ne hne]; exact hc)
      · push Not at hne
        obtain ⟨rfl, rfl⟩ := hne
        rw [hc'] at hc
        cases hc
        exact hd'

/-! ## The program -/

omit [DecidableEq η] in
theorem Sees.load (hs : Sees w h a v s) : s.load w h a = v := by
  unfold Shared.load
  cases hc : s.cache h (a / w) with
  | none =>
    rw [fetch_none hc]
    exact hs.mem fun c hc' => absurd hc' (by simp [hc])
  | some c =>
    rw [fetch_eq hc]
    exact hs.copy c hc

theorem sees_store : Sees w h a v (s.store w h a v) := by
  refine ⟨fun c hc => ?_, fun hclean => absurd (hclean _ put_self) (by simp)⟩
  rw [Shared.store, put_self] at hc
  cases hc
  exact Function.update_self ..

/-- A store to one address leaves the others of all hosts. -/
theorem Sees.store (hs : Sees w h a v s) (hne : a ≠ a') : Sees w h a v (s.store w h' a' v') := by
  refine ⟨fun c hc => ?_, fun hclean => hs.mem fun c hc => ?_⟩
  · by_cases hh : h ≠ h' ∨ a / w ≠ a' / w
    · rw [Shared.store, put_of_ne hh] at hc
      exact hs.copy c hc
    · push Not at hh
      obtain ⟨rfl, hl⟩ := hh
      rw [Shared.store, ← hl, put_self] at hc
      cases hc
      have hload := hs.load
      rw [Shared.load] at hload
      rw [← hload]
      exact Function.update_of_ne hne ..
  · by_cases hh : h ≠ h' ∨ a / w ≠ a' / w
    · exact hclean c (by rw [Shared.store, put_of_ne hh]; exact hc)
    · push Not at hh
      obtain ⟨rfl, hl⟩ := hh
      refine absurd (hclean _ (by rw [Shared.store, ← hl]; exact put_self)) (by simp)

theorem Quiet.store (hq : Quiet l s) (hl : l ≠ a / w) : Quiet l (s.store w h a v) := by
  intro h' c hc
  rw [Shared.store, put_of_ne (Or.inr hl)] at hc
  exact hq h' c hc

theorem QuietBut.store (hq : QuietBut h l s) (hl : h' = h ∨ l ≠ a / w) : QuietBut h l (s.store w h' a v) := by
  intro h₁ hne c hc
  have hplace : h₁ ≠ h' ∨ l ≠ a / w := hl.imp_left fun he => by rwa [he]
  rw [Shared.store, put_of_ne hplace] at hc
  exact hq h₁ hne c hc

/-- A flush is something that the hardware could do. -/
theorem ticks_flush (s : Shared η α) (h : η) (l : Nat) : Relation.ReflTransGen (Tick w) s (s.flush w h l) := by
  cases hc : s.cache h l with
  | none =>
    have hnone : s.put h l none = s := by
      simp [Shared.put, ← hc]
    have hflush : s.flush w h l = s := by
      rw [Shared.flush, fetch_none hc, hnone]
      rfl
    rw [hflush]
  | some c =>
    have hflush : s.flush w h l =
        { s.put h l none with mem := if c.dirty then s.written w l c else s.mem } := by
      rw [Shared.flush, fetch_eq hc]
    rw [hflush]
    by_cases hd : c.dirty = true
    · -- written back, then dropped
      refine (Relation.ReflTransGen.single (Tick.clean hc hd)).tail ?_
      have hdrop := Tick.drop (w := w) (s := { s.put h l (some { c with dirty := false }) with mem := s.written w l c })
        (h := h) (l := l) (c := { c with dirty := false }) put_self rfl
      convert hdrop using 1
      simp [Shared.put, hd]
    · rw [if_neg hd]
      exact Relation.ReflTransGen.single (Tick.drop hc (by simpa using hd))

theorem flush_cache : (s.flush w h l).cache h l = none := by
  have hput : (s.put h l none).cache h l = none := put_self
  exact hput

/-- The line is in memory after the flush. -/
theorem Sees.flushed (hs : Sees w h a v s) : (s.flush w h (a / w)).mem a = v := by
  have hload := hs.load
  rw [Shared.load] at hload
  unfold Shared.flush
  dsimp only
  split_ifs with hd
  · exact (if_pos rfl).trans hload
  · refine hs.mem fun c hc => ?_
    rw [fetch_eq hc] at hd
    simpa using hd

theorem QuietBut.flushed (hq : QuietBut h l s) : Quiet l (s.flush w h l) := by
  intro h' c hc
  by_cases hh : h' = h
  · subst hh
    rw [flush_cache] at hc
    cases hc
  · have hc : (s.put h l none).cache h' l = some c := hc
    rw [put_of_ne (Or.inl hh)] at hc
    exact hq h' hh c hc

/-- Behind a flush the host reads from memory. -/
theorem sees_flushed (hv : (s.flush w h (a / w)).mem a = v) : Sees w h a v (s.flush w h (a / w)) :=
  ⟨fun c hc => absurd hc (by rw [flush_cache]; simp), fun _ => hv⟩

/-! ## Many steps of the hardware -/

section
variable (ht : Relation.ReflTransGen (Tick w) s t)
include ht

theorem Quiet.ticks (hq : Quiet l s) : Quiet l t := by
  induction ht with
  | refl => exact hq
  | tail _ hstep ih => exact ih.tick hstep

theorem QuietBut.ticks (hq : QuietBut h l s) : QuietBut h l t := by
  induction ht with
  | refl => exact hq
  | tail _ hstep ih => exact ih.tick hstep

theorem Quiet.mem_ticks (hq : Quiet (a / w) s) : t.mem a = s.mem a := by
  induction ht with
  | refl => rfl
  | tail hsteps hstep ih => rw [(hq.ticks hsteps).mem_tick hstep, ih]

theorem Sees.ticks (hs : Sees w h a v s) (hq : QuietBut h (a / w) s) : Sees w h a v t := by
  induction ht with
  | refl => exact hs
  | tail hsteps hstep ih => exact ih.tick (hq.ticks hsteps) hstep

end

end

end PmemProgram.Lib.Cache
