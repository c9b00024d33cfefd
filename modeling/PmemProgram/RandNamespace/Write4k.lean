import Mathlib

/-!
# The overwriting threads (`rand_namespace.cpp`)

`write_4k_num` gives each of two threads a base and a number of pages, and the threads copy a buffer of 4096 bytes from
their base on. The base is advanced by pages as if they were bytes.

* `threadWriteBuffer`, `bufWrite`, `write4kNum` : the copies of a thread, and what the threads are given;
* `written_eq`, `written_all` : the bytes of one thread, and of all of them;
* `covers_iff` : they are the bytes of the mapping, each written by one thread, only if there is at most one page.
-/

namespace PmemProgram.RandNamespace

/-- `buf_write_t`, without the buffer. -/
structure BufWrite where
  base : Nat
  sizeOf4k : Nat

/-- `thread_write_buffer`: the destinations of its copies. -/
def threadWriteBuffer (base : Nat) : Nat → List Nat
  | 0 => []
  | k + 1 => base :: threadWriteBuffer (base + 4096) k

/-- `threads` in `write_4k_num`. -/
def threads : Nat := 2

/-- `buf_s[i]`. -/
def bufWrite (base sizeOf4k i : Nat) : BufWrite where
  base := base + i * (sizeOf4k / threads)
  sizeOf4k := if i = threads - 1 then sizeOf4k - i * sizeOf4k / threads else sizeOf4k / threads

/-- `write_4k_num`: the arguments of the threads. -/
def write4kNum (base sizeOf4k : Nat) : List BufWrite := (List.range threads).map (bufWrite base sizeOf4k)

/-- The bytes a thread writes. -/
def written (b : BufWrite) : Set Nat := {a | ∃ d ∈ threadWriteBuffer b.base b.sizeOf4k, d ≤ a ∧ a < d + 4096}

/-- The threads share no byte, and together they write the mapping. -/
def Covers (base sizeOf4k : Nat) : Prop :=
  (write4kNum base sizeOf4k).Pairwise (fun b b' => Disjoint (written b) (written b')) ∧
    {a | ∃ b ∈ write4kNum base sizeOf4k, a ∈ written b} = Set.Ico base (base + 4096 * sizeOf4k)

/-- A thread writes its pages one behind the other. -/
theorem written_eq (b : BufWrite) : written b = Set.Ico b.base (b.base + 4096 * b.sizeOf4k) := by
  obtain ⟨base, k⟩ := b
  induction k generalizing base with
  | zero =>
    ext a
    constructor
    · intro h
      obtain ⟨d, hd, -⟩ := h
      cases hd
    · intro h
      have := h.1
      have := h.2
      simp only at *
      omega
  | succ k ih =>
    have hrest : ∀ a, a ∈ written ⟨base + 4096, k⟩ ↔ base + 4096 ≤ a ∧ a < base + 4096 + 4096 * k := by
      intro a
      rw [ih (base + 4096)]
      rfl
    ext a
    show (∃ d ∈ base :: threadWriteBuffer (base + 4096) k, d ≤ a ∧ a < d + 4096) ↔
      base ≤ a ∧ a < base + 4096 * (k + 1)
    constructor
    · intro h
      obtain ⟨d, hd, hle, hlt⟩ := h
      cases List.mem_cons.mp hd with
      | inl he => omega
      | inr hd =>
        have := (hrest a).mp ⟨d, hd, hle, hlt⟩
        omega
    · intro h
      by_cases ha : a < base + 4096
      · exact ⟨base, List.mem_cons_self, h.1, ha⟩
      · obtain ⟨d, hd, hrange⟩ := (hrest a).mpr (by omega)
        exact ⟨d, List.mem_cons_of_mem _ hd, hrange⟩

/-- The two threads start half of the number of pages apart, in bytes. -/
theorem write4kNum_eq (base n : Nat) :
    write4kNum base n = [⟨base, n / 2⟩, ⟨base + n / 2, n - n / 2⟩] := by
  simp [write4kNum, threads, bufWrite, List.range_succ]

/-- Together they end before the mapping, by all but one byte of each page of the first thread. -/
theorem written_all (base n : Nat) :
    {a | ∃ b ∈ write4kNum base n, a ∈ written b} = Set.Ico base (base + n / 2 + 4096 * (n - n / 2)) := by
  ext a
  show (∃ b ∈ write4kNum base n, a ∈ written b) ↔ base ≤ a ∧ a < base + n / 2 + 4096 * (n - n / 2)
  rw [write4kNum_eq]
  simp only [List.mem_cons, List.not_mem_nil, or_false, exists_eq_or_imp, exists_eq_left, written_eq, Set.mem_Ico]
  omega

/-- From two pages on the second thread starts in a page of the first. -/
theorem written_overlap {n : Nat} (h : 2 ≤ n) (base : Nat) :
    ¬ Disjoint (written ⟨base, n / 2⟩) (written ⟨base + n / 2, n - n / 2⟩) := by
  rw [written_eq, written_eq, Set.not_disjoint_iff]
  refine ⟨base + n / 2, ?_, ?_⟩
  · show base ≤ _ ∧ _ < base + 4096 * (n / 2)
    omega
  · show base + n / 2 ≤ _ ∧ _ < base + n / 2 + 4096 * (n - n / 2)
    omega

/-- **Coverage.** The threads divide the mapping between them exactly if it has at most one page. -/
theorem covers_iff (base n : Nat) : Covers base n ↔ n ≤ 1 := by
  constructor
  · intro h
    by_contra hn
    have hpair := h.1
    rw [write4kNum_eq, List.pairwise_pair] at hpair
    exact written_overlap (by omega) base hpair
  · intro h
    constructor
    · rw [write4kNum_eq, List.pairwise_pair, written_eq, written_eq, show n / 2 = 0 by omega]
      simp
    · rw [written_all, show n / 2 = 0 by omega]
      rfl

/-- The threads of `main`, for a file of 1 GB, overlap. -/
theorem covers_not_1G : ¬ Covers 0x7f0000000000 262144 := by
  intro h
  have hpair := h.1
  rw [write4kNum_eq, List.pairwise_pair] at hpair
  exact written_overlap (by decide) 0x7f0000000000 hpair

end PmemProgram.RandNamespace
